import Viriatum.Stream.Outline

/-!
# Writing seen from the outline

What the writing of frames, the scheduling and the operations of the handlers do to the outline of a session.
-/

namespace Viriatum

open Library

/-- An element that looks the same in the place of another one. -/
theorem map_set_same {α β : Type} {l : List α} {i : Nat} {x y : α} {f : α → β} (h : l[i]? = some x) (hf : f y = f x) :
    (l.set i y).map f = l.map f := by
  obtain ⟨hlt, rfl⟩ := List.getElem?_eq_some_iff.mp h
  rw [List.map_set, hf, ← List.getElem_map f (h := by simpa using hlt), List.set_getElem_self]

namespace Http2Connection

/-- The session comes from another one by moves of the kinds allowed. -/
def Does (allowed : MoveKind → Prop) (s s' : Http2Connection) : Prop :=
  Moves Outline.Move allowed s.outline s'.outline

variable {allowed : MoveKind → Prop} {s s' s'' : Http2Connection} {slot : Nat}

namespace Does

@[refl] theorem refl (s : Http2Connection) : Does allowed s s := Moves.refl _

theorem of_eq (h : s'.outline = s.outline) : Does allowed s s' := Moves.of_eq h

theorem trans (h : Does allowed s s') (h' : Does allowed s' s'') : Does allowed s s'' := Moves.trans h h'

theorem mono {allowed' : MoveKind → Prop} (hsub : ∀ kind, allowed kind → allowed' kind) (h : Does allowed s s') :
    Does allowed' s s' :=
  Moves.mono hsub h

theorem single {kind : MoveKind} (h : Outline.Move kind s.outline s'.outline) (hk : allowed kind) :
    Does allowed s s' :=
  Moves.single h hk

end Does

/-! ## Slots -/

@[simp] theorem outline_streamId (stream : Http2Stream) : stream.outline.streamId = stream.streamId := rfl

@[simp] theorem outline_dependency (stream : Http2Stream) : stream.outline.dependency = stream.priority.dependency := rfl

@[simp] theorem outline_sendWindow (stream : Http2Stream) : stream.outline.sendWindow = stream.sendWindow := rfl

@[simp] theorem outline_address (stream : Http2Stream) : stream.outline.address = stream.request.address := rfl

@[simp] theorem outline_record (event : Event) : (s.record event).outline = s.outline.record event := rfl

@[simp] theorem outline_activate : (s.activate slot).outline = s.outline := rfl

theorem length_outline : s.outline.streams.length = s.count := by
  simp [outline]

theorem length_ids : s.outline.ids.length = s.count := by
  simp [Outline.ids, outline]

theorem stream_of_lt (h : slot < s.count) : s.stream slot = s.streams[slot] := by
  simp [stream, List.getD_eq_getElem?_getD, List.getElem?_eq_getElem h]

theorem outline_stream (h : slot < s.count) : s.outline.streams[slot]? = some (s.stream slot).outline := by
  rw [stream_of_lt h]
  simp [outline, List.getElem?_eq_getElem h]

theorem lt_of_pending (h : (s.stream slot).pending ≠ []) : slot < s.count := by
  by_contra hge
  apply h
  simp [stream, List.getD_eq_getElem?_getD, List.getElem?_eq_none (Nat.le_of_not_lt hge), Http2Stream.unused]

theorem mem_ids (h : slot < s.count) : (s.stream slot).streamId ∈ s.outline.ids := by
  have hmem := List.mem_of_getElem? (outline_stream h)
  exact List.mem_map_of_mem hmem

theorem findStream_some {streamId : Nat} (h : s.findStream streamId = some slot) :
    slot < s.count ∧ (s.stream slot).streamId = streamId := by
  obtain ⟨hlt, hp, _⟩ := List.findIdx?_eq_some_iff_getElem.mp h
  rw [stream_of_lt hlt]
  exact ⟨hlt, by simpa using hp⟩

theorem current_lt (h : s.current = some slot) : slot < s.count := by
  unfold current at h
  split at h
  case h_1 => cases h
  case h_2 => exact (findStream_some h).1

theorem outline_modifyStream {f : Http2Stream → Http2Stream} (h : (f (s.stream slot)).outline = (s.stream slot).outline) :
    (s.modifyStream slot f).outline = s.outline := by
  have hstreams : (s.streams.modify slot f).map Http2Stream.outline = s.streams.map Http2Stream.outline := by
    apply List.ext_getElem?
    intro i
    simp only [List.getElem?_map, List.getElem?_modify]
    split
    case isFalse => simp
    case isTrue hi =>
      subst hi
      by_cases hlt : slot < s.count
      · rw [stream_of_lt hlt] at h
        simp [List.getElem?_eq_getElem hlt, h]
      · simp [List.getElem?_eq_none (Nat.le_of_not_lt hlt)]
  simp only [outline, modifyStream, hstreams]

@[simp] theorem stream_modifyStream {f : Http2Stream → Http2Stream} (h : slot < s.count) :
    (s.modifyStream slot f).stream slot = f (s.stream slot) := by
  simp [stream, modifyStream, List.getD_eq_getElem?_getD, List.getElem?_eq_getElem h]

@[simp] theorem count_modifyStream {f : Http2Stream → Http2Stream} : (s.modifyStream slot f).count = s.count := by
  simp [count, modifyStream]

/-! ## Frames -/

theorem queueFrames_does {owner : Option Nat} {frames : List Http2Frame} {callback : Http2Callback}
    (ha : allowed .wrote)
    (hframes : ∀ f ∈ frames, (f.type ≠ .data ∧ f.type ≠ .rstStream ∧ f.type ≠ .goaway) ∧
      (f.streamId = 0 ∨ f.streamId ∈ s.outline.ids)) :
    Does allowed s (queueFrames owner frames callback s) := by
  suffices h : ∀ o : Outline, o.ids = s.outline.ids →
      Moves Outline.Move allowed o { o with history := (frames.map (Event.wrote owner)).reverse ++ o.history } from
    h s.outline rfl
  intro o ho
  induction frames generalizing o with
  | nil => exact Moves.refl _
  | cons frame frames ih =>
      obtain ⟨ht, hid⟩ := hframes frame (by simp)
      have hfirst : Moves Outline.Move allowed o (o.record (.wrote owner frame)) :=
        Moves.single (.wrote owner frame ht (by rwa [ho])) ha
      have hrest := ih (fun f hf => hframes f (by simp [hf])) (o.record (.wrote owner frame)) ho
      simpa [Outline.record] using hfirst.trans hrest

theorem writeValue_does {type : Http2FrameType} {streamId : Nat} (value : Nat) (ha : allowed .wrote)
    (ht : type ≠ .data ∧ type ≠ .rstStream ∧ type ≠ .goaway) (hid : streamId = 0 ∨ streamId ∈ s.outline.ids) :
    Does allowed s (writeValue type streamId value s) := by
  apply queueFrames_does ha
  intro f hf
  rw [List.mem_singleton] at hf
  subst hf
  exact ⟨ht, hid⟩

theorem writeSettings_does {ack : Bool} (ha : allowed .wrote) : Does allowed s (writeSettings ack s) := by
  unfold writeSettings
  split <;>
  · apply queueFrames_does ha
    intro f hf
    rw [List.mem_singleton] at hf
    subst hf
    simp [encodeSettingsHttp2]

theorem writePing_does {data : Bytes} (ha : allowed .wrote) : Does allowed s (writePing data s) := by
  apply queueFrames_does ha
  intro f hf
  rw [List.mem_singleton] at hf
  subst hf
  simp

/-! ## Payload -/

theorem flushAllowed_le (fragment : Http2Pending) (h : 0 < min (s.stream slot).sendWindow s.sendWindow) :
    (s.flushAllowed slot fragment : Int) ≤ (s.stream slot).sendWindow ∧
      (s.flushAllowed slot fragment : Int) ≤ s.sendWindow := by
  unfold flushAllowed
  dsimp only
  omega

theorem flushFragment_outline (fragment : Http2Pending) :
    ∃ frame : Http2Frame, frame.type = .data ∧ frame.streamId = (s.stream slot).streamId ∧
      frame.length = s.flushAllowed slot fragment ∧
      (s.flushFragment slot fragment).outline = { s.outline with
        streams := s.outline.streams.set slot (Outline.shift (-frame.length) (s.stream slot).outline)
        sendWindow := s.outline.sendWindow - frame.length }.record
          (.wrote (some (s.stream slot).outline.address) frame) := by
  have hlen : ((fragment.data.drop fragment.offset).take (s.flushAllowed slot fragment)).length =
      s.flushAllowed slot fragment := by
    simp only [List.length_take, List.length_drop, flushAllowed, Http2Pending.remaining, Http2Pending.size]
    omega
  let flags : UInt8 :=
    if fragment.last ∧ s.flushAllowed slot fragment = fragment.remaining then http2FlagEndStream else 0x00
  refine ⟨⟨.data, flags, (s.stream slot).streamId, _⟩, rfl, rfl, hlen, ?_⟩
  simp only [flushFragment, outline, Outline.record, Http2Frame.length, List.map_set]
  rw [hlen]
  congr 1
  · congr 1
    simp only [Outline.shift, Http2Stream.outline, Http2Stream.completed]
    split <;> simp [Int.sub_eq_add_neg]
  · simp only [flags]
    split <;> rfl

theorem flushFragment_does {fragment : Http2Pending} (ha : allowed .emitted) (h : slot < s.count)
    (hw : 0 < min (s.stream slot).sendWindow s.sendWindow) : Does allowed s (s.flushFragment slot fragment) := by
  obtain ⟨frame, ht, hid, hlen, heq⟩ := flushFragment_outline (s := s) fragment
  have hle := flushAllowed_le fragment hw
  rw [Does, heq]
  exact Moves.single (.emitted slot _ frame (outline_stream h) ht hid (hlen ▸ hle.1) (hlen ▸ hle.2)) ha

theorem flushStream_does {rounds : Nat} (ha : allowed .emitted) : Does allowed s (flushStream slot rounds s) := by
  induction rounds generalizing s with
  | zero => rfl
  | succ rounds ih =>
      unfold flushStream
      split
      case h_1 => rfl
      case h_2 fragment _ hp =>
        split
        · rfl
        · have hlt : slot < s.count := lt_of_pending (by simp [hp])
          exact (flushFragment_does ha hlt (by omega)).trans ih

theorem scheduleRounds_does {rounds : Nat} (ha : allowed .emitted) : Does allowed s (scheduleRounds rounds s) := by
  induction rounds generalizing s with
  | zero => rfl
  | succ rounds ih =>
      unfold scheduleRounds
      split
      case h_1 => rfl
      case h_2 chosen _ =>
        have hflush : Does allowed s (s.flush chosen) := flushStream_does ha
        dsimp only
        split
        · exact hflush
        · exact hflush.trans ih

theorem schedule_does (ha : allowed .emitted) : Does allowed s s.schedule := scheduleRounds_does ha

end Http2Connection

end Viriatum
