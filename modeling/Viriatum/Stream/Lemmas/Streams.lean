import Mathlib.Data.List.InsertIdx
import Mathlib.Data.List.Perm.Basic
import Viriatum.Stream.Lemmas.Calls

/-!
# The table of streams seen from the outline

Opening, closing and prioritising a stream and changing its window are each one move.
-/

namespace Viriatum

open Library Effect

namespace Http2Connection

variable {allowed : MoveKind → Prop} {s s' : Http2Connection} {slot : Nat}

/-! ## The tree of priorities -/

theorem find?_outline (streamId : Nat) : s.outline.streams.find? (fun stream => stream.streamId = streamId) =
    (s.findStream streamId).map fun slot => (s.stream slot).outline := by
  have hfind : s.outline.streams.find? (fun stream => stream.streamId = streamId) =
      (s.streams.find? fun stream => stream.streamId = streamId).map Http2Stream.outline := by
    simp only [outline, List.find?_map]
    rfl
  rw [hfind]
  cases hslot : s.findStream streamId with
  | none =>
      have hnone : s.streams.find? (fun stream => decide (stream.streamId = streamId)) = none := by
        rw [List.find?_eq_none]
        intro x hx
        exact List.findIdx?_eq_none_iff.mp hslot x hx ▸ by simp
      rw [hnone]
      rfl
  | some slot =>
      obtain ⟨hlt, hp, hfirst⟩ := List.findIdx?_eq_some_iff_getElem.mp hslot
      have hsome : s.streams.find? (fun stream => decide (stream.streamId = streamId)) = some s.streams[slot] :=
        List.find?_eq_some_iff_getElem.mpr ⟨hp, slot, hlt, rfl, fun j hj => by simpa using hfirst j hj⟩
      rw [hsome, ← stream_of_lt hlt]
      rfl

theorem findIdx?_outline (streamId : Nat) :
    s.outline.streams.findIdx? (fun stream => stream.streamId = streamId) = s.findStream streamId := by
  simp only [outline, findStream, List.findIdx?_map]
  rfl

theorem descends_outline {steps streamId ancestorId : Nat} :
    s.descends steps streamId ancestorId = Outline.descends s.outline.streams steps streamId ancestorId := by
  induction steps generalizing streamId with
  | zero => rfl
  | succ steps ih =>
      unfold descends Outline.descends
      rw [find?_outline]
      split
      · rfl
      · split
        · rfl
        · cases s.findStream streamId with
          | none => rfl
          | some slot => exact ih

theorem modify_outline {streams : List Http2Stream} {f : Http2Stream → Http2Stream} {g : OutlineStream → OutlineStream}
    (h : ∀ stream, (f stream).outline = g stream.outline) :
    (streams.modify slot f).map Http2Stream.outline = (streams.map Http2Stream.outline).modify slot g := by
  apply List.ext_getElem?
  intro i
  simp only [List.getElem?_map, List.getElem?_modify]
  split
  · cases streams[i]? <;> simp [h]
  · simp

theorem setDependency_outline {streamId dependency : Nat} : (setDependency streamId dependency s).outline =
    { s.outline with streams := Outline.depend s.outline.streams streamId dependency } := by
  unfold setDependency Outline.depend
  rw [findIdx?_outline]
  cases s.findStream streamId with
  | none => rfl
  | some slot =>
      simp only [outline, modifyStream]
      rw [modify_outline (g := fun stream => { stream with dependency }) fun _ => rfl]

theorem takeSiblings_outline {streamId dependency : Nat} : (takeSiblings streamId dependency s).outline =
    { s.outline with streams := Outline.adopt s.outline.streams streamId dependency } := by
  simp only [takeSiblings, Outline.adopt, outline, List.map_map]
  congr 1
  apply List.map_congr_left
  intro stream _
  by_cases hid : stream.streamId = streamId
  · simp [hid]
  · by_cases hdep : stream.priority.dependency = dependency
    · simp [hid, hdep, Http2Stream.outline]
    · simp [hid, hdep]

/-- A priority that is accepted is one move; one that makes a stream depend on itself leaves the session. -/
theorem prioritiseStream_spec (allowed : MoveKind → Prop) {priority : Http2Priority} (h : slot < s.count) (ha : allowed .prioritised) :
    wp (prioritiseStream slot priority)
      (fun _ s' => priority.dependency ≠ (s.stream slot).streamId ∧ Does allowed s s')
      (fun e s' => priority.dependency = (s.stream slot).streamId ∧ e = .protocolError ∧ s' = s) s := by
  unfold prioritiseStream
  simp only [wp_bind, wp_get, wp_ite, wp_throw, wp_set]
  split
  case isTrue hself => exact ⟨hself, by trivial, by trivial⟩
  case isFalse hself =>
    have hmove := Outline.Move.prioritised slot _ priority.dependency priority.exclusive (outline_stream h) hself
    refine ⟨hself, (Moves.single hmove ha).trans (Moves.of_eq ?_)⟩
    have hlast : ∀ t : Http2Connection, (t.modifyStream slot fun stream => { stream with priority }).outline =
        { t.outline with streams := t.outline.streams.modify slot fun stream =>
          { stream with dependency := priority.dependency } } := by
      intro t
      simp only [outline, modifyStream]
      rw [modify_outline (g := fun stream => { stream with dependency := priority.dependency }) fun _ => rfl]
    rw [hlast, Outline.place, descends_outline]
    rw [length_outline]
    by_cases hdesc : Outline.descends s.outline.streams s.count priority.dependency (s.stream slot).streamId = true
    · by_cases hex : priority.exclusive = true
      · simp [hdesc, hex, takeSiblings_outline, setDependency_outline]
      · simp [hdesc, hex, setDependency_outline]
    · by_cases hex : priority.exclusive = true
      · simp [hdesc, hex, takeSiblings_outline]
      · simp [hdesc, hex]

/-- A session that differs from another one by nothing but the priorities of the streams. -/
structure Reprioritised (s s' : Http2Connection) : Prop where
  same : s' = { s with streams := s'.streams }
  count : s'.count = s.count
  stream : ∀ slot, ∃ priority, s'.stream slot = { s.stream slot with priority }

namespace Reprioritised

theorem refl (s : Http2Connection) : Reprioritised s s := ⟨rfl, rfl, fun _ => ⟨_, rfl⟩⟩

theorem trans {s s' s'' : Http2Connection} (h : Reprioritised s s') (h' : Reprioritised s' s'') :
    Reprioritised s s'' := by
  refine ⟨h'.same.trans ?_, h'.count.trans h.count, fun slot => ?_⟩
  · rw [h.same]
  · obtain ⟨p, hp⟩ := h.stream slot
    obtain ⟨p', hp'⟩ := h'.stream slot
    exact ⟨p', by rw [hp', hp]⟩

theorem modify (s : Http2Connection) (i : Nat) (f : Http2Stream → Http2Priority) :
    Reprioritised s (s.modifyStream i fun stream => { stream with priority := f stream }) := by
  refine ⟨rfl, count_modifyStream, fun slot => ?_⟩
  simp only [Http2Connection.stream, modifyStream, List.getD_eq_getElem?_getD, List.getElem?_modify]
  cases s.streams[slot]? with
  | none => split <;> exact ⟨_, rfl⟩
  | some stream => split <;> exact ⟨_, rfl⟩

theorem setDependency (s : Http2Connection) (streamId dependency : Nat) :
    Reprioritised s (setDependency streamId dependency s) := by
  unfold Http2Connection.setDependency
  split
  · exact .refl s
  · exact .modify s _ _

theorem takeSiblings (s : Http2Connection) (streamId dependency : Nat) :
    Reprioritised s (takeSiblings streamId dependency s) := by
  refine ⟨rfl, by simp [Http2Connection.takeSiblings, Http2Connection.count], fun slot => ?_⟩
  simp only [Http2Connection.stream, Http2Connection.takeSiblings, List.getD_eq_getElem?_getD, List.getElem?_map]
  cases s.streams[slot]? with
  | none => exact ⟨_, rfl⟩
  | some stream =>
      simp only [Option.map_some, Option.getD_some]
      split
      · exact ⟨_, rfl⟩
      · split <;> exact ⟨_, rfl⟩

end Reprioritised

theorem prioritiseStream_reprioritised {priority : Http2Priority} :
    wp (prioritiseStream slot priority) (fun _ s' => Reprioritised s s') (fun _ s' => s' = s) s := by
  unfold prioritiseStream
  simp only [wp_bind, wp_get, wp_ite, wp_throw, wp_set]
  split
  · trivial
  · have hmoved : Reprioritised s
        (if s.descends s.count priority.dependency (s.stream slot).streamId then
          setDependency priority.dependency (s.stream slot).priority.dependency s else s) := by
      split
      · exact .setDependency s _ _
      · exact .refl s
    have htaken : ∀ t, Reprioritised t
        (if priority.exclusive then takeSiblings (s.stream slot).streamId priority.dependency t else t) := by
      intro t
      split
      · exact .takeSiblings t _ _
      · exact .refl t
    exact (hmoved.trans (htaken _)).trans (.modify _ _ fun _ => priority)

/-! ## Opening and closing -/

theorem openStream_spec (allowed : MoveKind → Prop) {streamId : Nat} (ha : allowed (.opened streamId)) :
    wp (openStream streamId)
      (fun slot s' => (streamId % 2 = 1 ∧ s.lastStreamId < streamId ∧ ¬ s.Full) ∧ slot = s.count ∧ Does allowed s s' ∧
        s'.count = s.count + 1 ∧ (s'.stream slot).streamId = streamId ∧ (s'.stream slot).headersComplete = false ∧
        s'.goaway = s.goaway ∧ s'.block = s.block)
      (fun e s' => s' = s ∧ (e = .refusedStream ∧ (streamId % 2 = 1 ∧ s.lastStreamId < streamId ∧ s.Full) ∨
        e = .protocolError)) s := by
  unfold openStream
  simp only [wp_bind, wp_get, wp_ite, wp_throw, wp_set, wp_pure]
  split
  case isTrue => exact ⟨by trivial, Or.inr (by trivial)⟩
  case isFalse heven =>
    split
    case isTrue => exact ⟨by trivial, Or.inr (by trivial)⟩
    case isFalse hlast =>
      split
      case isTrue hfull => exact ⟨by trivial, Or.inl ⟨by trivial, by omega, by omega, hfull⟩⟩
      case isFalse hfull =>
        have hodd : streamId % 2 = 1 := by omega
        have hroom : s.outline.streams.length < http2StreamSlots := by
          rw [length_outline]
          exact Nat.lt_of_not_le fun hge => hfull (Or.inr hge)
        have hmove := Outline.Move.opened (o := s.outline) streamId hodd (Nat.lt_of_not_le hlast) hroom
        refine ⟨⟨hodd, by omega, hfull⟩, by trivial, (Moves.single hmove ha).trans (Moves.of_eq ?_), ?_⟩
        · simp [outline, Outline.enrol, Http2Stream.outline]
        · simp [count, stream, List.getD_eq_getElem?_getD]

theorem unsetHandler_does (ha : allowed .called) : Does allowed s (unsetHandler slot s) := by
  unfold unsetHandler
  split
  · rfl
  · exact (record_does (.unset _) ha (by simp)).trans (.of_eq (outline_modifyStream rfl))

theorem unsetHandler_streams : (unsetHandler slot s).outline.streams = s.outline.streams := by
  unfold unsetHandler
  split
  · rfl
  · rw [outline_modifyStream rfl]
    rfl

/-- Filling a place with the last element takes the element of the place out, the order apart. -/
theorem takeLast_perm {α : Type} {l : List α} {i : Nat} (h : i < l.length) (d : α) :
    (if i = l.length - 1 then l.dropLast else (l.set i (l.getD (l.length - 1) d)).dropLast).Perm (l.eraseIdx i) := by
  split
  case isTrue hi => rw [hi, List.eraseIdx_length_sub_one]
  case isFalse hi =>
    cases List.eq_nil_or_concat l with
    | inl hnil => simp [hnil] at h
    | inr hconcat =>
        obtain ⟨init, x, rfl⟩ := hconcat
        rw [List.concat_eq_append] at h hi ⊢
        rw [List.length_append, List.length_singleton] at h hi
        have hlt : i < init.length := by omega
        have hget : (init ++ [x]).getD ((init ++ [x]).length - 1) d = x := by simp
        rw [hget, List.set_append_left _ _ hlt, List.dropLast_concat, List.eraseIdx_append_of_lt_length hlt]
        exact (List.set_perm_cons_eraseIdx hlt x).trans (List.perm_append_singleton x _).symm

theorem removeStream_perm {streams : List Http2Stream} (h : slot < streams.length) :
    ((removeStream slot streams).map Http2Stream.outline).Perm
      (((streams.map Http2Stream.outline).eraseIdx slot).map (Outline.reparent (streams.getD slot .unused).outline)) := by
  have hperm := (takeLast_perm (i := slot) (l := streams.map fun stream =>
    if stream.priority.dependency = (streams.getD slot .unused).streamId then
      { stream with priority := { stream.priority with dependency := (streams.getD slot .unused).priority.dependency } }
    else stream) (by simpa using h) Http2Stream.unused).map Http2Stream.outline
  refine hperm.trans (List.Perm.of_eq ?_)
  rw [List.eraseIdx_map, List.eraseIdx_map, List.map_map, List.map_map]
  apply List.map_congr_left
  intro stream _
  by_cases hdep : stream.priority.dependency = (streams.getD slot .unused).streamId
  · simp only [Function.comp, hdep, Outline.reparent, outline_dependency, outline_streamId, if_true]
    rfl
  · simp only [Function.comp, hdep, Outline.reparent, outline_dependency, outline_streamId, if_false]

theorem closeStream_does (h : slot < s.count) (hcalled : allowed .called)
    (hclosed : allowed (.closed (s.stream slot).streamId)) : Does allowed s (closeStream slot s) := by
  have hunset : Does allowed s (unsetHandler slot s) := unsetHandler_does hcalled
  have hstreams : (unsetHandler slot s).outline.streams = s.outline.streams := unsetHandler_streams
  have hlt : slot < (unsetHandler slot s).count := by
    rw [← length_outline, hstreams, length_outline]
    exact h
  have hsame : ((unsetHandler slot s).stream slot).outline = (s.stream slot).outline := by
    have hget := outline_stream hlt
    rw [hstreams, outline_stream h, Option.some.injEq] at hget
    exact hget.symm
  have hmove := Outline.Move.closed slot _ _ (outline_stream hlt) (removeStream_perm hlt)
  refine hunset.trans ((Moves.single hmove (by rwa [hsame])).trans (Moves.of_eq ?_))
  unfold closeStream
  dsimp only
  split <;> rfl

/-! ## Windows -/

theorem widened_outline {increment : Nat} (h : slot < s.count) :
    (s.modifyStream slot fun stream => { stream with sendWindow := stream.sendWindow + increment }).outline =
      { s.outline with
        streams := s.outline.streams.set slot (Outline.shift increment (s.stream slot).outline) } := by
  have hget := outline_stream h
  simp only [outline, modifyStream] at hget ⊢
  rw [modify_outline (g := Outline.shift increment) fun _ => rfl, List.modify_eq_set_getElem?, hget]
  rfl

/-- An increment is refused whole, or added where the frame names the connection or a stream of the table. -/
theorem updateWindow_spec (allowed : MoveKind → Prop) {streamId increment : Nat} (hw : streamId = 0 → allowed (.widened increment))
    (hg : streamId ≠ 0 → allowed (.granted streamId increment)) :
    wp (updateWindow streamId increment)
      (fun _ s' => increment ≠ 0 ∧ Does allowed s s')
      (fun e s' => s' = s ∧ (e = .protocolError ∧ increment = 0 ∨ e = .flowControlError ∧ increment ≠ 0 ∧
        (streamId ≠ 0 → ∃ slot, s.findStream streamId = some slot ∧
          (s.stream slot).sendWindow > (http2MaxWindowSize : Int) - increment))) s := by
  unfold updateWindow
  simp only [wp_bind, wp_get, wp_ite, wp_throw, wp_set]
  split
  case isTrue hzero => exact ⟨by trivial, Or.inl ⟨by trivial, hzero⟩⟩
  case isFalse hpos =>
    split
    case isTrue hid =>
      split
      case isTrue => exact ⟨by trivial, Or.inr ⟨by trivial, hpos, fun h => absurd hid h⟩⟩
      case isFalse hmax =>
        have hmove := Outline.Move.widened (o := s.outline) increment (by omega)
          (by simp only [outline]; omega)
        exact ⟨hpos, Moves.single hmove (hw hid)⟩
    case isFalse hid =>
      split
      case h_1 => exact ⟨hpos, .refl s⟩
      case h_2 slot hfind =>
        rw [wp_ite]
        simp only [wp_throw, wp_set]
        split
        case isTrue hmax => exact ⟨by trivial, Or.inr ⟨by trivial, hpos, fun _ => ⟨slot, hfind, hmax⟩⟩⟩
        case isFalse hmax =>
          obtain ⟨hlt, hstream⟩ := findStream_some hfind
          have hmove := Outline.Move.granted slot _ increment (outline_stream hlt) (by omega)
            (by rw [outline_sendWindow]; omega)
          refine ⟨hpos, (Moves.single hmove ?_).trans (Moves.of_eq ?_)⟩
          · rw [outline_streamId, hstream]
            exact hg hid
          · rw [outline_record, widened_outline hlt]
            rfl

theorem adjustStreams_place {difference : Int} {streams : List Http2Stream} :
    ((adjustStreams difference streams).2.map Http2Stream.outline).map OutlineStream.place =
      (streams.map Http2Stream.outline).map OutlineStream.place := by
  induction streams with
  | nil => rfl
  | cons stream rest ih =>
      unfold adjustStreams
      split
      · rfl
      · simp only [List.map_cons]
        rw [ih]
        rfl

theorem adjustStreams_none {difference : Int} {streams : List Http2Stream}
    (h : (adjustStreams difference streams).1 = none) :
    (adjustStreams difference streams).2.map Http2Stream.outline =
      (streams.map Http2Stream.outline).map (Outline.shift difference) ∧
    (0 < difference → ∀ stream ∈ streams.map Http2Stream.outline,
      stream.sendWindow + difference ≤ http2MaxWindowSize) := by
  induction streams with
  | nil => simp [adjustStreams]
  | cons stream rest ih =>
      unfold adjustStreams at h ⊢
      split at h
      case isTrue => cases h
      case isFalse hmax =>
        obtain ⟨hmap, hbound⟩ := ih h
        rw [if_neg hmax]
        refine ⟨by simp only [List.map_cons, hmap]; rfl, fun hpos => ?_⟩
        simp only [List.map_cons, List.forall_mem_cons]
        refine ⟨?_, hbound hpos⟩
        rw [outline_sendWindow]
        omega

theorem shift_zero (streams : List OutlineStream) : streams.map (Outline.shift 0) = streams := by
  have hid : Outline.shift 0 = id := by
    funext stream
    simp [Outline.shift]
  rw [hid, List.map_id]

theorem adjustWindows_spec {difference : Int} :
    wp (adjustWindows difference)
      (fun _ s' => s'.outline = { s.outline with streams := s.outline.streams.map (Outline.shift difference) } ∧
        (0 < difference → ∀ stream ∈ s.outline.streams, stream.sendWindow + difference ≤ http2MaxWindowSize))
      (fun _ s' => ∃ streams, s'.outline = { s.outline with streams } ∧
        streams.map OutlineStream.place = s.outline.streams.map OutlineStream.place) s := by
  unfold adjustWindows
  simp only [wp_bind, wp_get, wp_set]
  by_cases hd : difference = 0
  · subst hd
    rw [if_neg (by simp)]
    exact ⟨by simp only [shift_zero, outline], fun h => absurd h (by omega)⟩
  · rw [if_pos hd]
    split
    case h_1 => exact ⟨_, rfl, adjustStreams_place⟩
    case h_2 hnone =>
      obtain ⟨hmap, hbound⟩ := adjustStreams_none hnone
      exact ⟨congrArg (fun streams => { s.outline with streams }) hmap, hbound⟩

theorem boundEncoder_outline {headerTableSize : Nat} :
    wp (boundEncoder headerTableSize) (fun _ s' => s'.outline = s.outline) (fun _ s' => s'.outline = s.outline) s := by
  unfold boundEncoder
  simp only [wp_bind, wp_get, wp_ite, wp_pure]
  split
  · split <;> rfl
  · trivial

/-- Settings are applied in one move; the ones that are refused may have been applied in part. -/
theorem applySettings_spec (allowed : MoveKind → Prop) {data : Bytes} (ha : allowed .applied) :
    wp (applySettings data) (fun _ s' => Does allowed s s')
      (fun _ s' => Does (fun kind => allowed kind ∨ kind = .spoiled) s s') s := by
  unfold applySettings
  simp only [wp_bind, wp_get]
  rcases (decodeSettingsHttp2 data).run s.remote with ⟨result, remote⟩
  have hspoiled : ∀ streams : List OutlineStream,
      streams.map OutlineStream.place = s.outline.streams.map OutlineStream.place →
      Moves Outline.Move (fun kind => allowed kind ∨ kind = .spoiled) s.outline
        ({ s.outline with streams, initialWindow := remote.initialWindowSize }.record
          (.applied remote.initialWindowSize)) :=
    fun streams hplace => Moves.single (.spoiled _ streams remote.initialWindowSize_le hplace) (Or.inr rfl)
  simp only [wp_bind, wp_set]
  cases result with
  | error e => exact hspoiled _ rfl
  | ok u =>
      simp only [wp_bind]
      refine adjustWindows_spec.mono ?_ ?_
      · rintro _ t ⟨hstreams, hbound⟩
        have happlied := Outline.Move.applied (o := s.outline) remote.initialWindowSize remote.initialWindowSize_le hbound
        refine boundEncoder_outline.mono (fun _ t' ht => ?_) fun _ t' ht => ?_
        · exact (Moves.single happlied ha).trans (Moves.of_eq (ht.trans hstreams))
        · exact (Moves.single happlied (Or.inl ha)).trans (Moves.of_eq (ht.trans hstreams))
      · rintro _ t ⟨streams, hstreams, hplace⟩
        exact (hspoiled streams hplace).trans (Moves.of_eq hstreams)

end Http2Connection

end Viriatum
