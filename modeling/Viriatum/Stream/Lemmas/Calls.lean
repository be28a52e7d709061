import Viriatum.Stream.Causes
import Viriatum.Stream.Lemmas.Outline

/-!
# Calls seen from the outline

What the operations of a handler do to the outline of a session, and the calls of the handlers with them. A call
promises streams only where a handler makes a promise that the session takes.
-/

namespace Viriatum

open Library

namespace Http2Connection

variable {allowed : MoveKind → Prop} {promises : Prop} {s s' : Http2Connection} {slot : Nat} {service : Service}

theorem Does.goaway (h : Does (callKinds promises) s s') : s'.goaway = s.goaway := by
  refine Moves.lift (R := fun o o' => o'.goaway = o.goaway) (fun _ => rfl) ?_ ?_ h
  · exact fun _ _ _ h h' => h'.trans h
  · intro kind o o' hk hm
    cases hm <;> first | rfl | exact hk.elim

/-- A call leaves the streams of the table in their slots. -/
theorem Does.keys (h : Does (callKinds promises) s s') : s.outline.keys <+: s'.outline.keys := by
  refine Moves.lift (R := fun o o' => o.keys <+: o'.keys) (fun _ => List.prefix_refl _) ?_ ?_ h
  · exact fun _ _ _ h h' => h.trans h'
  · intro kind o o' hk hm
    cases hm with
    | emitted i stream frame hi =>
        have hsame : (o.streams.set i (Outline.shift (-frame.length) stream)).map OutlineStream.key = o.keys :=
          map_set_same hi rfl
        exact hsame ▸ List.prefix_refl _
    | promised => exact ⟨_, (List.map_append ..).symm⟩
    | called | began | wrote | skipped => exact List.prefix_refl _
    | _ => exact hk.elim

theorem Does.mem_ids (h : Does (callKinds promises) s s') {streamId : Nat} (hid : streamId ∈ s.outline.ids) :
    streamId ∈ s'.outline.ids := by
  have hids : ∀ o : Outline, o.ids = o.keys.map Prod.fst := fun o => by
    simp [Outline.ids, Outline.keys, OutlineStream.key, Function.comp_def]
  rw [hids] at hid ⊢
  exact (h.keys.map Prod.fst).subset hid

theorem Does.stays (h : Does (callKinds promises) s s') (hslot : slot < s.count) :
    slot < s'.count ∧ (s'.stream slot).streamId = (s.stream slot).streamId ∧
      (s'.stream slot).request.address = (s.stream slot).request.address := by
  obtain ⟨rest, hkeys⟩ := h.keys
  have hlt : slot < s'.count := by
    have hlength := congrArg List.length hkeys
    simp only [Outline.keys, List.length_append, List.length_map, length_outline] at hlength
    omega
  have hget := congrArg (fun keys => keys[slot]?) hkeys
  simp only [Outline.keys] at hget
  rw [List.getElem?_append_left (by simpa [length_outline] using hslot), List.getElem?_map, List.getElem?_map,
    outline_stream hslot, outline_stream hlt] at hget
  simp only [Option.map_some, Option.some.injEq, OutlineStream.key, Prod.mk.injEq] at hget
  exact ⟨hlt, hget.1.symm, hget.2.symm⟩

/-! ## Heads of responses -/

theorem writeHeader_same (bufferSize : Nat) (header : HpackHeader) (buffer : Bytes) (s : Http2Connection) :
    ∃ encoder, (writeHeader bufferSize header buffer s).2 = { s with encoder } := ⟨_, rfl⟩

theorem writeStatusHttp2_same (service : Service) (bufferSize statusCode : Nat) (s : Http2Connection) :
    ∃ encoder, (writeStatusHttp2 service bufferSize statusCode s).2 = { s with encoder } := ⟨_, rfl⟩

theorem writeFieldHttp2_same (bufferSize : Nat) (field : Bytes × Bytes) (buffer : Bytes) (s : Http2Connection) :
    ∃ encoder, (writeFieldHttp2 bufferSize field buffer s).2 = { s with encoder } := by
  unfold writeFieldHttp2
  dsimp only
  split
  · exact ⟨_, rfl⟩
  · split <;> exact ⟨_, rfl⟩

theorem writeFields_same (bufferSize : Nat) (fields : List (Bytes × Bytes)) (written : Bytes × Http2Connection) :
    ∃ encoder, (fields.foldl (fun (buffer, s) field => writeFieldHttp2 bufferSize field buffer s) written).2 =
      { written.2 with encoder } := by
  induction fields generalizing written with
  | nil => exact ⟨_, rfl⟩
  | cons field fields ih =>
      obtain ⟨_, hfirst⟩ := writeFieldHttp2_same bufferSize field written.1 written.2
      obtain ⟨encoder, hrest⟩ := ih (writeFieldHttp2 bufferSize field written.1 written.2)
      exact ⟨encoder, by rw [List.foldl_cons, hrest, hfirst]⟩

theorem writeEndHttp2_outline {buffer : Bytes} {last : Bool} : (writeEndHttp2 buffer last s).2.outline = s.outline := by
  unfold writeEndHttp2
  dsimp only
  split
  · split
    · exact outline_modifyStream rfl
    · rfl
  · rfl

theorem writeEndHttp2_frame {buffer : Bytes} {last : Bool} : (writeEndHttp2 buffer last s).1.type = .headers ∧
    ((writeEndHttp2 buffer last s).1.streamId = 0 ∨ (writeEndHttp2 buffer last s).1.streamId ∈ s.outline.ids) := by
  refine ⟨rfl, ?_⟩
  unfold writeEndHttp2
  dsimp only
  split
  case h_1 => exact Or.inl rfl
  case h_2 slot hslot => exact Or.inr (mem_ids (current_lt hslot))

theorem writeHead_spec (service : Service) (bufferSize statusCode : Nat) (fields : List (Bytes × Bytes))
    (last : Bool) (s : Http2Connection) :
    (writeHead service bufferSize statusCode fields last s).2.outline = s.outline ∧
    (writeHead service bufferSize statusCode fields last s).1.type = .headers ∧
    ((writeHead service bufferSize statusCode fields last s).1.streamId = 0 ∨
      (writeHead service bufferSize statusCode fields last s).1.streamId ∈ s.outline.ids) := by
  obtain ⟨_, hstatus⟩ := writeStatusHttp2_same service bufferSize statusCode s
  obtain ⟨_, hfields⟩ := writeFields_same bufferSize fields (writeStatusHttp2 service bufferSize statusCode s)
  rw [hstatus] at hfields
  unfold writeHead
  dsimp only
  rw [hfields]
  exact ⟨writeEndHttp2_outline, writeEndHttp2_frame⟩

theorem continuationFrames_spec {allowed streamId rounds : Nat} {data : Bytes} :
    ∀ f ∈ continuationFrames allowed streamId rounds data, f.type = .continuation ∧ f.streamId = streamId := by
  induction rounds generalizing data with
  | zero => simp [continuationFrames]
  | succ rounds ih =>
      intro f hf
      unfold continuationFrames at hf
      split at hf
      · cases hf
      · split at hf
        · rw [List.mem_singleton] at hf
          subst hf
          exact ⟨rfl, rfl⟩
        · cases List.mem_cons.mp hf with
          | inl hf =>
              subst hf
              exact ⟨rfl, rfl⟩
          | inr hf => exact ih f hf

theorem split_spec {allowed : Nat} {frame : Http2Frame} :
    ∀ f ∈ split allowed frame, (f.type = frame.type ∨ f.type = .continuation) ∧ f.streamId = frame.streamId := by
  intro f hf
  unfold split at hf
  split at hf
  · rw [List.mem_singleton] at hf
    subst hf
    exact ⟨Or.inl rfl, rfl⟩
  · cases List.mem_cons.mp hf with
    | inl hf =>
        subst hf
        exact ⟨Or.inl rfl, rfl⟩
    | inr hf =>
        obtain ⟨ht, hid⟩ := continuationFrames_spec f hf
        exact ⟨Or.inr ht, hid⟩

theorem writeFlushHttp2_does {frame : Http2Frame} {tag : Option Nat} (ha : allowed .wrote)
    (ht : frame.type = .headers) (hid : frame.streamId = 0 ∨ frame.streamId ∈ s.outline.ids) :
    Does allowed s (writeFlushHttp2 frame tag s) := by
  unfold writeFlushHttp2
  split
  case h_1 => rfl
  case h_2 slot _ =>
    have hsame : (s.modifyStream slot fun stream => { stream with
        state := if stream.state = .reservedLocal then .halfClosedRemote else stream.state }).outline = s.outline :=
      outline_modifyStream rfl
    refine (Does.of_eq hsame).trans (queueFrames_does ha ?_)
    intro f hf
    obtain ⟨hft, hfid⟩ := split_spec f hf
    rw [hfid, hsame]
    refine ⟨?_, hid⟩
    rw [ht] at hft
    cases hft with
    | inl h => simp [h]
    | inr h => simp [h]

theorem writeConnection_does {frame : Http2Frame} {tag : Nat} (ha : allowed .wrote)
    (ht : frame.type = .headers) (hid : frame.streamId = 0 ∨ frame.streamId ∈ s.outline.ids) :
    Does allowed s (writeConnection frame tag s) := by
  apply queueFrames_does ha
  intro f hf
  rw [List.mem_singleton] at hf
  subst hf
  exact ⟨by simp [ht], hid⟩

theorem writeChunkHttp2_does {data : Bytes} {last : Bool} {tag : Option Nat} (ha : allowed .emitted) :
    Does allowed s (writeChunkHttp2 data last tag s) := by
  unfold writeChunkHttp2
  split
  case h_1 => rfl
  case h_2 => exact (Does.of_eq (outline_modifyStream rfl)).trans (schedule_does ha)

/-! ## Promises -/

theorem promiseFrame_spec (slot streamId : Nat) (path : Bytes) (s : Http2Connection) :
    (promiseFrame slot streamId path s).1.type = .pushPromise ∧
    (promiseFrame slot streamId path s).1.streamId = (s.stream slot).streamId ∧
    ∃ encoder, (promiseFrame slot streamId path s).2 = { s with encoder } := by
  unfold promiseFrame
  dsimp only
  split
  · exact ⟨rfl, rfl, _, rfl⟩
  · exact ⟨rfl, rfl, _, rfl⟩

theorem record_does (callback : Callback) (ha : allowed .called) (hc : ∀ a, callback ≠ .messageBegin a) :
    Does allowed s (s.record (.called callback)) :=
  Does.single (.called callback hc) ha

theorem record_call {callback : Callback} (ha : allowed .called) (hb : allowed .began) :
    Does allowed s (s.record (.called callback)) := by
  cases callback with
  | messageBegin address => exact Does.single (.began address) hb
  | _ => exact record_does _ ha (by simp)

theorem setHandler_outline (slot : Nat) (s : Http2Connection) :
    ∃ address, (setHandler slot s).outline = s.outline.record (.called (.set address)) := by
  unfold setHandler
  dsimp only
  rw [outline_activate, outline_modifyStream rfl, outline_record, outline_activate, outline_modifyStream rfl]
  exact ⟨_, rfl⟩

theorem setHandler_does (slot : Nat) (ha : allowed .called) : Does allowed s (setHandler slot s) := by
  obtain ⟨address, h⟩ := setHandler_outline slot s
  rw [Does, h]
  exact Moves.single (.called (.set address) (by simp)) ha

variable {calls : Callback → Http2Connection → Http2Connection} {g : Bool}

theorem callPromised_does (hcalls : ∀ callback s, s.goaway = g → Does (callKinds True) s (calls callback s))
    (hg : s.goaway = g) : Does (callKinds True) s (callPromised calls slot s) := by
  have hbegin := hcalls (.messageBegin (s.stream slot).request.address) s hg
  have hurl := hbegin.trans (hcalls (.url (s.stream slot).request.address (s.stream slot).request.path) _
    (hbegin.goaway.trans hg))
  have hhead := hurl.trans (hcalls (.headersComplete (s.stream slot).request.address) _ (hurl.goaway.trans hg))
  have hend := hhead.trans (hcalls (.messageComplete (s.stream slot).request.address) _ (hhead.goaway.trans hg))
  exact hend.trans (Does.of_eq (outline_modifyStream rfl))

/-- The frame of a promise is queued and the stream reserved with the identifier that follows. -/
theorem reserveStream_does (encoder : HpackTable) {frame : Http2Frame} {streamId : Nat} (path : Bytes)
    (callback : Http2Callback) (hlt : slot < s.count) (hroom : s.count < http2StreamSlots)
    (ht : frame.type = .pushPromise ∧ frame.streamId = (s.stream slot).streamId)
    (hid : streamId = (s.pushStreamId + 2) % 2 ^ 32) (hmax : streamId ≤ http2MaxStreamId) :
    Does (callKinds True) s (reserveStream slot streamId path
      (queueFrames (some (s.stream slot).request.address) [frame] callback
        { s with pushStreamId := streamId, encoder })) := by
  have hmove := Outline.Move.promised slot _ frame streamId (outline_stream hlt) ht hid hmax
    (by simpa [outline] using hroom)
  refine (Moves.single hmove trivial).trans (Moves.of_eq ?_)
  simp [reserveStream, queueFrames, outline, Outline.enrol, Outline.record, Outline.tree, Http2Stream.outline, stream,
    Function.comp_def]

/-- A promise that the session takes. -/
theorem pushStream_does {path : Bytes} (hlt : slot < s.count)
    (hcalls : ∀ callback s, s.goaway = g → Does (callKinds True) s (calls callback s)) (hg : s.goaway = g) :
    Does (callKinds True) s (pushStream calls slot path s) := by
  unfold pushStream
  split
  · rfl
  · split
    · rfl
    · dsimp only
      split
      case isTrue hmax => exact Does.single (.skipped _ rfl hmax) trivial
      case isFalse hroom hmax =>
        obtain ⟨ht, hid, encoder, hs⟩ := promiseFrame_spec slot ((s.pushStreamId + 2) % 2 ^ 32) path
          { s with pushStreamId := (s.pushStreamId + 2) % 2 ^ 32 }
        rw [hs]
        have hroom : s.count < http2StreamSlots := by omega
        have hreserve := reserveStream_does encoder path .none hlt hroom ⟨ht, hid⟩
          rfl (by omega)
        have hset := hreserve.trans (setHandler_does s.count trivial)
        refine Does.trans (hset.trans ?_) (Does.of_eq outline_activate)
        exact callPromised_does hcalls (hset.goaway.trans hg)

/-- A promise that the session does not take calls no handler. -/
theorem pushStream_of_not_takes {streamId : Nat} {path : Bytes} (hfind : s.findStream streamId = some slot)
    (h : ¬ s.takes (.pushStream streamId path)) :
    ∃ t : Http2Connection, (∀ calls, pushStream calls slot path s = t) ∧
      (t = s ∨ http2MaxStreamId < (s.pushStreamId + 2) % 2 ^ 32 ∧
        t = { s with pushStreamId := (s.pushStreamId + 2) % 2 ^ 32 }) := by
  unfold pushStream
  split
  · exact ⟨s, fun _ => rfl, Or.inl rfl⟩
  · split
    · exact ⟨s, fun _ => rfl, Or.inl rfl⟩
    · dsimp only
      split
      case isTrue hmax => exact ⟨_, fun _ => rfl, Or.inr ⟨hmax, rfl⟩⟩
      case isFalse hpush hroom hmax =>
        have hfound : s.findStream streamId ≠ none := by simp [hfind]
        exact absurd ⟨hfound, by simpa using hpush, by omega, by omega, by omega⟩ h

theorem perform_of_not_takes {action : HandlerAction} (h : ¬ s.takes action) :
    perform calls service action s = perform (fun _ s => s) service action s := by
  cases action with
  | pushStream streamId path =>
      simp only [perform]
      split
      case h_1 => rfl
      case h_2 slot hfind =>
        obtain ⟨t, ht, _⟩ := pushStream_of_not_takes hfind h
        rw [ht, ht]
  | _ => rfl

/-- What an action does; the promises that it makes call a handler only where the session takes them. -/
theorem perform_does (service : Service) {action : HandlerAction} (htakes : s.takes action → promises)
    (hcalls : promises → ∀ callback s, s.goaway = g → Does (callKinds True) s (calls callback s)) (hg : s.goaway = g) :
    Does (callKinds promises) s (perform calls service action s) := by
  cases action with
  | select address =>
      apply Does.of_eq
      simp only [perform, select]
      split <;> rfl
  | setHandler handler => exact Does.of_eq rfl
  | writeFlush bufferSize statusCode fields last tag =>
      obtain ⟨hout, ht, hid⟩ := writeHead_spec service bufferSize statusCode fields last s
      exact (Does.of_eq hout).trans (writeFlushHttp2_does trivial ht (by rwa [hout]))
  | writeConnection bufferSize statusCode fields last tag =>
      obtain ⟨hout, ht, hid⟩ := writeHead_spec service bufferSize statusCode fields last s
      exact (Does.of_eq hout).trans (writeConnection_does trivial ht (by rwa [hout]))
  | writeChunk data last tag => exact writeChunkHttp2_does trivial
  | pushStream streamId path =>
      simp only [perform]
      split
      case h_1 => rfl
      case h_2 slot hfind =>
        by_cases hp : s.takes (.pushStream streamId path)
        · have hpromises := htakes hp
          rw [eq_true hpromises]
          exact pushStream_does (findStream_some hfind).1 (hcalls hpromises) hg
        · obtain ⟨t, ht, hcase⟩ := pushStream_of_not_takes hfind hp
          rw [ht]
          cases hcase with
          | inl hs => exact Does.of_eq (by rw [hs])
          | inr hs =>
              rw [hs.2]
              exact Does.single (.skipped _ rfl hs.1) trivial

theorem performAll_does {actions : List HandlerAction} (hpromising : s.promising service actions → promises)
    (hcalls : promises → ∀ callback s, s.goaway = g → Does (callKinds True) s (calls callback s)) (hg : s.goaway = g) :
    Does (callKinds promises) s (performAll calls service actions s) := by
  induction actions generalizing s with
  | nil => rfl
  | cons action actions ih =>
      have hfirst := perform_does service (fun h => hpromising (Or.inl h)) hcalls hg
      refine hfirst.trans (ih ?_ (hfirst.goaway.trans hg))
      intro h
      by_cases htakes : s.takes action
      · exact hpromising (Or.inl htakes)
      · rw [perform_of_not_takes htakes] at h
        exact hpromising (Or.inr h)

/-! ## Calls -/

/-- What a handler does once it is called, in a session of which it is known whether it is going away. -/
theorem callWithin_does {depth : Nat} {callback : Callback} (hg : s.goaway = g)
    (hpromises : ∀ s callback, s.goaway = g → service.Promises s callback → promises) :
    Does (callKinds promises) (s.record (.called callback)) (callWithin service depth callback s) := by
  induction depth generalizing s callback promises with
  | zero => rfl
  | succ depth ih =>
      refine performAll_does (fun h => hpromises (s.record (.called callback)) callback hg h) ?_ hg
      intro _ callback s hs
      have hrest : Does (callKinds True) (s.record (.called callback)) (callWithin service depth callback s) :=
        ih hs fun _ _ _ _ => trivial
      exact (record_call trivial trivial).trans hrest

/-- What a call does that does not begin a message. -/
theorem call_does {callback : Callback} (hg : s.goaway = g)
    (hpromises : ∀ s callback, s.goaway = g → service.Promises s callback → promises)
    (hc : ∀ a, callback ≠ .messageBegin a) : Does (callKinds promises) s (s.call service callback) :=
  (record_does _ trivial hc).trans (callWithin_does hg hpromises)

end Http2Connection

end Viriatum
