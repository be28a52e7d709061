import Viriatum.Stream.Lemmas.Alike
import Viriatum.Stream.Lemmas.Transcript

/-!
# The messages along a run

A session that has met no error attends to its messages through whatever it does next, and what ends in an error ends
no message on the way.
-/

namespace Viriatum

open Library Effect

namespace Http2Connection

variable {s s' : Http2Connection} {slot : Nat} {service : Service} {frame : Http2Frame} {allowed : MoveKind → Prop}

theorem numbered_of_does (h : Does allowed s s') (hnumbered : s.outline.Numbered) : s'.outline.Numbered :=
  Moves.keeps (fun _ _ _ _ hm ho => hm.numbered ho) h hnumbered

theorem numbered_received (frame : Http2Frame) (h : s.outline.Numbered) : (s.record (.received frame)).outline.Numbered :=
  (Outline.Move.received frame).numbered h

/-- The streams that promises bring into the table have even identifiers. -/
theorem even_of_does (h : Does allowed s s') (hallowed : ∀ streamId, ¬ allowed (.opened streamId))
    (hnumbered : s.outline.Numbered) (hold : ∀ slot, slot < s.count → (s'.stream slot).streamId = (s.stream slot).streamId)
    (hcount : s.count ≤ s'.count) (hge : s.count ≤ slot) (hlt : slot < s'.count) : (s'.stream slot).streamId % 2 = 0 := by
  have hids : s'.outline.Numbered ∧ ∀ id ∈ s'.outline.ids, id % 2 = 1 → id ∈ s.outline.ids := by
    refine Moves.keeps (I := fun o => o.Numbered ∧ ∀ id ∈ o.ids, id % 2 = 1 → id ∈ s.outline.ids) ?_ h
      ⟨hnumbered, fun _ hmem _ => hmem⟩
    rintro kind o o' hk hm ⟨ho, hall⟩
    refine ⟨hm.numbered ho, fun id hmem hodd => ?_⟩
    rcases hm.mem_ids hmem with hin | rfl | ⟨-, hid⟩
    · exact hall id hin hodd
    · exact absurd hk (hallowed id)
    · have heven := ho.even
      omega
  by_contra hne
  have hodd : (s'.stream slot).streamId % 2 = 1 := by omega
  have hin := hids.2 _ (mem_ids hlt) hodd
  cases hfind : s.findStream (s'.stream slot).streamId with
  | none => exact findStream_eq_none.mp hfind hin
  | some j =>
      obtain ⟨hj, hsame⟩ := findStream_some hfind
      have hid := (hold j hj).trans hsame
      have hslots := hids.1.slot_of_asked (Nat.lt_of_lt_of_le hj hcount) hlt (hid ▸ hodd) hid
      omega

/-! ## What leaves the messages alone -/

/-- Streams leave the table, or stay what they are for the messages. -/
theorem Attends.leave (h : s.Attends)
    (hstream : ∀ i, i < s'.count → ∃ j, j < s.count ∧ (s'.stream i).core = (s.stream j).core ∧
      (s'.stream i).state = (s.stream j).state)
    (hnext : s'.nextAddress = s.nextAddress) (hcalls : ∀ a, callsOf a s'.history = callsOf a s.history)
    (hcontinuation : s'.continuation = s.continuation) (hrefused : s'.refused = s.refused) : s'.Attends := by
  constructor
  case follows =>
    intro i hi
    obtain ⟨j, hj, hcore, -⟩ := hstream i hi
    have hrequest : (s'.stream i).request = (s.stream j).request := congrArg StreamCore.request hcore
    have hid : (s'.stream i).streamId = (s.stream j).streamId := congrArg StreamCore.streamId hcore
    rw [callsAt, hrequest, hcalls, hcore]
    refine (h.follows j hj).congr ?_
    simp only [Assembles, hcontinuation, hrefused, hid]
  case heard =>
    intro a
    rw [hcalls]
    exact h.heard a
  case fresh =>
    intro a ha
    rw [hcalls]
    exact h.fresh a (hnext ▸ ha)
  case closed =>
    intro i hi hend
    obtain ⟨j, hj, hcore, hstate⟩ := hstream i hi
    rw [hstate]
    exact h.closed j hj ((congrArg StreamCore.endStream hcore).symm.trans hend)
  case even =>
    intro i hi hid
    obtain ⟨j, hj, hcore, -⟩ := hstream i hi
    have hsame : (s'.stream i).streamId = (s.stream j).streamId := congrArg StreamCore.streamId hcore
    exact (congrArg StreamCore.endStream hcore).trans (h.even j hj (hsame ▸ hid))
  case odd =>
    rw [hcontinuation]
    exact h.odd
  case refused =>
    rw [hcontinuation, hrefused]
    exact h.refused

theorem Attends.alike (h : s.Attends) (h' : Alike s s') : s'.Attends :=
  h.leave (fun i hi => ⟨i, h'.count ▸ hi, h'.stream i⟩) h'.nextAddress h'.calls h'.continuation h'.refused

theorem Attends.quiet (h : s.Attends) (hnumbered : s.outline.Numbered) (h' : ∀ m, Served m s s') : s'.Attends := by
  refine h.served hnumbered (h' _) (h.settles.quiet h') fun slot hge hlt => ?_
  rw [count_quiet h'] at hlt
  omega

theorem mem_removeStream {streams : List Http2Stream} {stream : Http2Stream} (h : stream ∈ removeStream slot streams)
    (hslot : slot < streams.length) :
    ∃ old ∈ streams, stream.core = old.core ∧ stream.state = old.state := by
  have hlength : slot < (streams.map fun stream =>
      if stream.priority.dependency = (streams.getD slot .unused).streamId then
        { stream with priority := { stream.priority with
          dependency := (streams.getD slot .unused).priority.dependency } }
      else stream).length := by rwa [List.length_map]
  have hmem : stream ∈ streams.map fun stream =>
      if stream.priority.dependency = (streams.getD slot .unused).streamId then
        { stream with priority := { stream.priority with
          dependency := (streams.getD slot .unused).priority.dependency } }
      else stream := by
    unfold removeStream at h
    dsimp only at h
    generalize streams.map _ = mapped at h hlength ⊢
    exact (List.eraseIdx_sublist _ _).subset ((takeLast_perm hlength Http2Stream.unused).subset h)
  obtain ⟨old, hold, rfl⟩ := List.mem_map.mp hmem
  refine ⟨old, hold, ?_⟩
  split <;> exact ⟨rfl, rfl⟩

theorem unsetHandler_alike (slot : Nat) (s : Http2Connection) : Alike s (unsetHandler slot s) := by
  unfold unsetHandler
  split
  case h_1 => exact .refl s
  case h_2 =>
    have hcalled : Alike s ((s.activate slot).record (.called (.unset (s.stream slot).request.address))) := by
      refine ⟨rfl, fun _ => ⟨rfl, rfl⟩, rfl, fun a => ?_, rfl, rfl, rfl⟩
      change callsOf a ([.called (.unset (s.stream slot).request.address)] ++ s.history) = _
      rw [callsOf_append]
      exact List.append_nil _
    exact hcalled.trans (.modify rfl rfl)

/-- A stream that is closed leaves the table; the others stay what they are. -/
theorem closeStream_leaves (hslot : slot < s.count) :
    (∀ i, i < (closeStream slot s).count → ∃ j, j < s.count ∧
      ((closeStream slot s).stream i).core = (s.stream j).core ∧
      ((closeStream slot s).stream i).state = (s.stream j).state) ∧
    (closeStream slot s).nextAddress = s.nextAddress ∧
    (∀ a, callsOf a (closeStream slot s).history = callsOf a s.history) ∧
    (closeStream slot s).continuation = s.continuation ∧ (closeStream slot s).refused = s.refused := by
  have hunset := unsetHandler_alike slot s
  have hslot' : slot < (unsetHandler slot s).count := hunset.count.symm ▸ hslot
  unfold closeStream
  generalize unsetHandler slot s = t at hunset hslot' ⊢
  have hgone : ∀ (request : Option RequestPointer) (handler : Option Nat),
      (∀ i, i < (removeStream slot t.streams).length → ∃ j, j < s.count ∧
        (({ t with
          request, handler
          streams := removeStream slot t.streams
          history := .closed (t.stream slot).request.address :: t.history } : Http2Connection).stream i).core =
            (s.stream j).core ∧
        (({ t with
          request, handler
          streams := removeStream slot t.streams
          history := .closed (t.stream slot).request.address :: t.history } : Http2Connection).stream i).state =
            (s.stream j).state) ∧
      ∀ a, callsOf a (.closed (t.stream slot).request.address :: t.history) = callsOf a s.history := by
    intro request handler
    refine ⟨fun i hi => ?_, fun a => ?_⟩
    · have hmem : (({ t with
          request, handler
          streams := removeStream slot t.streams
          history := .closed (t.stream slot).request.address :: t.history } : Http2Connection).stream i) ∈
          removeStream slot t.streams := by
        rw [stream_of_lt hi]
        exact List.getElem_mem hi
      obtain ⟨old, hold, hcore, hstate⟩ := mem_removeStream hmem hslot'
      obtain ⟨j, hj, rfl⟩ := List.mem_iff_getElem.mp hold
      rw [← stream_of_lt hj] at hcore hstate
      exact ⟨j, hunset.count ▸ hj, hcore.trans (hunset.stream j).1, hstate.trans (hunset.stream j).2⟩
    · rw [← List.singleton_append, callsOf_append, ← hunset.calls a]
      exact List.append_nil _
  by_cases hcurrent : t.request.map RequestPointer.address = some (t.stream slot).request.address
  · simp only [if_pos hcurrent]
    exact ⟨(hgone none none).1, hunset.nextAddress, (hgone none none).2, hunset.continuation, hunset.refused⟩
  · simp only [if_neg hcurrent]
    exact ⟨(hgone t.request t.handler).1, hunset.nextAddress, (hgone t.request t.handler).2, hunset.continuation,
      hunset.refused⟩

/-- A stream is closed. -/
theorem Attends.close (h : s.Attends) (hslot : slot < s.count) : (closeStream slot s).Attends := by
  obtain ⟨hstream, hnext, hcalls, hcontinuation, hrefused⟩ := closeStream_leaves hslot
  exact h.leave hstream hnext hcalls hcontinuation hrefused

/-- The sessions have the same messages, though they may wait for different blocks. -/
structure Kin (s s' : Http2Connection) : Prop where
  count : s'.count = s.count
  stream : ∀ slot, (s'.stream slot).core = (s.stream slot).core ∧ (s'.stream slot).state = (s.stream slot).state
  nextAddress : s'.nextAddress = s.nextAddress
  calls : ∀ a, callsOf a s'.history = callsOf a s.history

theorem Alike.kin (h : Alike s s') : Kin s s' := ⟨h.count, h.stream, h.nextAddress, h.calls⟩

theorem Kin.trans {s'' : Http2Connection} (h : Kin s s') (h' : Kin s' s'') : Kin s s'' where
  count := h'.count.trans h.count
  stream slot := ⟨(h'.stream slot).1.trans (h.stream slot).1, (h'.stream slot).2.trans (h.stream slot).2⟩
  nextAddress := h'.nextAddress.trans h.nextAddress
  calls a := (h'.calls a).trans (h.calls a)

/-- Neither session waits for a block of a stream in the table. -/
theorem Attends.unwaited (h : s.Attends) (h' : Kin s s') (hnone : ∀ i, i < s.count → ¬ s.Assembles i)
    (hnone' : ∀ i, i < s.count → ¬ s'.Assembles i) (hodd : s'.continuation ≠ 0 → s'.continuation % 2 = 1)
    (hrefused : s'.continuation = 0 → s'.refused = 0) : s'.Attends := by
  constructor
  case follows =>
    intro i hi
    rw [h'.count] at hi
    have hrequest : (s'.stream i).request = (s.stream i).request := congrArg StreamCore.request (h'.stream i).1
    rw [callsAt, hrequest, h'.calls, (h'.stream i).1]
    exact (h.follows i hi).congr ⟨fun hw => (hnone i hi hw).elim, fun hw => (hnone' i hi hw).elim⟩
  case heard =>
    intro a
    rw [h'.calls]
    exact h.heard a
  case fresh =>
    intro a ha
    rw [h'.calls]
    exact h.fresh a (h'.nextAddress ▸ ha)
  case closed =>
    intro i hi hend
    rw [(h'.stream i).2]
    exact h.closed i (h'.count ▸ hi) ((congrArg StreamCore.endStream (h'.stream i).1).symm.trans hend)
  case even =>
    intro i hi hid
    have hsame : (s'.stream i).streamId = (s.stream i).streamId := congrArg StreamCore.streamId (h'.stream i).1
    exact (congrArg StreamCore.endStream (h'.stream i).1).trans (h.even i (h'.count ▸ hi) (hsame ▸ hid))
  case odd => exact hodd
  case refused => exact hrefused

theorem Broken.kin (h : s.Broken) (h' : Kin s s') : s'.Broken where
  heard a := by
    rw [h'.calls]
    exact h.heard a
  fresh a ha := by
    rw [h'.calls]
    exact h.fresh a (h'.nextAddress ▸ ha)

/-! ## Payload -/

theorem handleData_attends (h : s.Attends) (hnumbered : s.outline.Numbered) (hidle : s.continuation = 0)
    (hslot : slot < s.count) (hend : (s.stream slot).endStream = false) :
    wp (handleData service frame slot) (fun _ s' => s'.Attends) (fun _ s' => s'.Broken) s := by
  have hnone : ∀ i, ¬ s.Assembles i := fun i hwaits => hwaits.1 hidle
  have haround : Around slot s := .of_attends h hnumbered hslot fun i _ _ => hnone i
  have hfollows : Follows False (s.stream slot).core (s.callsAt slot) :=
    (h.follows slot hslot).congr ⟨hnone slot, False.elim⟩
  have hodd : (s.stream slot).streamId % 2 = 1 := by
    by_contra heven
    cases hend.symm.trans (h.even slot hslot (by omega))
  refine (haround.data service frame hfollows hend).mono ?_ ?_
  · rintro - s' ⟨core, calls, hhandles, hid, hfollows'⟩
    obtain ⟨decoder, window, hcore⟩ := hhandles.core
    have hcontinuation : s'.continuation = s.continuation := congrArg SessionCore.continuation hcore
    have hrefused : s'.refused = s.refused := congrArg SessionCore.refused hcore
    have hsame : (s'.stream slot).streamId = core.streamId := congrArg StreamCore.streamId hhandles.mine
    refine (haround.handles hhandles).idle ?_ (hhandles.closed (h.closed slot hslot)) ?_ ?_ ?_
    · rw [hhandles.mine, hhandles.callsAt]
      exact hfollows'
    · rw [hsame, hid]
      exact hodd
    · exact hcontinuation.trans hidle
    · exact hrefused.trans (h.refused hidle)
  · rintro e s' ⟨core, calls, hhandles, hunended⟩
    exact haround.interrupted hhandles hunended (hfollows.not_completed (.inr hend))

/-! ## Blocks -/

/-- A block of the stream in a slot is to be taken; `last` tells whether it closes the stream. -/
structure Taking (last : Bool) (slot : Nat) (s : Http2Connection) : Prop where
  around : Around slot s
  follows : Follows True { (s.stream slot).core with endStream := (s.stream slot).endStream || last } (s.callsAt slot)
  closed : (s.stream slot).endStream = true →
    (s.stream slot).state = .halfClosedRemote ∨ (s.stream slot).state = .reservedLocal
  odd : (s.stream slot).streamId % 2 = 1
  unique : ∀ i, i < s.count → (s.stream i).streamId = (s.stream slot).streamId → i = slot
  idle : s.continuation = 0
  refused : s.refused = 0

theorem Taking.following (h : Taking false slot s) : Follows True (s.stream slot).core (s.callsAt slot) := by
  have hfollows := h.follows
  rw [Bool.or_false] at hfollows
  exact hfollows

theorem Taking.broken {last : Bool} (h : Taking last slot s) : s.Broken :=
  h.around.broken (h.follows.not_completed (.inl trivial))

theorem Taking.alike {last : Bool} (h : Taking last slot s) (h' : Alike s s') : Taking last slot s' := by
  have hid : ∀ i, (s'.stream i).streamId = (s.stream i).streamId := fun i =>
    congrArg StreamCore.streamId (h'.stream i).1
  have hend : (s'.stream slot).endStream = (s.stream slot).endStream := congrArg StreamCore.endStream (h'.stream slot).1
  have haddress : (s'.stream slot).request.address = (s.stream slot).request.address :=
    congrArg (fun core : StreamCore => core.request.address) (h'.stream slot).1
  constructor
  case around =>
    exact h.around.alike h'.count (fun i _ _ => h'.stream i) haddress h'.nextAddress h'.calls
  case follows =>
    rw [callsAt, haddress, h'.calls, (h'.stream slot).1, hend]
    exact h.follows
  case closed =>
    rw [hend, (h'.stream slot).2]
    exact h.closed
  case odd =>
    rw [hid]
    exact h.odd
  case unique =>
    intro i hi heq
    rw [hid, hid] at heq
    exact h.unique i (h'.count ▸ hi) heq
  case idle => exact h'.continuation.trans h.idle
  case refused => exact h'.refused.trans h.refused

/-- The frame of a block closes the stream when it says so. -/
theorem Taking.closeRemote (h : Taking true slot s) : Taking false slot (s.closeRemote slot) := by
  have hstream : (s.closeRemote slot).stream slot = { s.stream slot with endStream := true, state := .halfClosedRemote } :=
    stream_modifyStream h.around.lt
  have hother : ∀ i, i ≠ slot → (s.closeRemote slot).stream i = s.stream i := fun i hi => by
    simp [stream, Http2Connection.closeRemote, modifyStream, List.getD_eq_getElem?_getD, Ne.symm hi]
  have hcount : (s.closeRemote slot).count = s.count := count_modifyStream
  constructor
  case around =>
    refine h.around.alike hcount (fun i _ hne => ?_) (by rw [hstream]) rfl fun _ => rfl
    rw [hother i hne]
    exact ⟨rfl, rfl⟩
  case follows =>
    have hfollows := h.follows
    rw [Bool.or_true] at hfollows
    rw [callsAt, hstream, Bool.or_false]
    exact hfollows
  case closed =>
    rw [hstream]
    exact fun _ => .inl rfl
  case odd =>
    rw [hstream]
    exact h.odd
  case unique =>
    intro i hi heq
    by_contra hne
    rw [hother i hne, hstream] at heq
    exact hne (h.unique i (hcount ▸ hi) heq)
  case idle => exact h.idle
  case refused => exact h.refused

/-- What is gathered of a block is no part of the messages. -/
theorem alike_block (s : Http2Connection) (block : Bytes) : Alike s { s with block } :=
  .of_streams rfl rfl rfl rfl rfl ⟨[], rfl, by simp⟩

/-- The block of the stream that the session waits for is through. -/
theorem blockHttp2_attends (haround : Around slot s) (hfollows : Follows True (s.stream slot).core (s.callsAt slot))
    (hclosed : (s.stream slot).endStream = true →
      (s.stream slot).state = .halfClosedRemote ∨ (s.stream slot).state = .reservedLocal)
    (hodd : (s.stream slot).streamId % 2 = 1) (data : Bytes) :
    wp (after (blockHttp2 service slot data) resetBlock) (fun _ s' => s'.Attends) (fun _ s' => s'.Broken) s := by
  rw [wp_after]
  have hreset : ∀ t, Kin t (resetBlock t) := fun t => ⟨rfl, fun _ => ⟨rfl, rfl⟩, rfl, fun _ => rfl⟩
  refine (haround.block service data hfollows).mono ?_ ?_
  · rintro - s' ⟨core, calls, hhandles, hid, hfollows'⟩
    have hsame : (s'.stream slot).streamId = core.streamId := congrArg StreamCore.streamId hhandles.mine
    have haround' : Around slot (resetBlock s') :=
      (haround.handles hhandles).alike rfl (fun _ _ _ => ⟨rfl, rfl⟩) rfl rfl fun _ => rfl
    refine haround'.idle ?_ (hhandles.closed hclosed) ?_ rfl rfl
    · change Follows False (s'.stream slot).core (s'.callsAt slot)
      rw [hhandles.mine, hhandles.callsAt]
      exact hfollows'
    · change (s'.stream slot).streamId % 2 = 1
      rw [hsame, hid]
      exact hodd
  · rintro e s' ⟨core, calls, hhandles, hunended⟩
    exact (haround.interrupted hhandles hunended (hfollows.not_completed (.inl trivial))).kin (hreset s')

/-- The rest of a block is waited for. -/
theorem Taking.awaits (h : Taking false slot s) (frame : Http2Frame) (hid : (s.stream slot).streamId = frame.streamId) :
    (awaitContinuation frame s).Attends := by
  have hodd := h.odd
  rw [hid] at hodd
  have hne : frame.streamId ≠ 0 := by omega
  have hwaits : (awaitContinuation frame s).Assembles slot := ⟨hne, by rw [awaitContinuation, h.refused]; exact hne.symm, hid⟩
  have haround : Around slot (awaitContinuation frame s) :=
    h.around.alike rfl (fun _ _ _ => ⟨rfl, rfl⟩) rfl rfl fun _ => rfl
  refine haround.attends (h.following.congr ⟨fun _ => hwaits, fun _ => trivial⟩) h.closed h.odd ?_ (fun _ => hodd)
    fun hzero => absurd hzero hne
  rintro i hi hother ⟨-, -, heq⟩
  exact hother (h.unique i hi (heq.trans hid.symm))

theorem takeFragment_attends (h : Taking (frame.has http2FlagEndStream) slot s)
    (hid : (s.stream slot).streamId = frame.streamId) (data : Bytes) :
    wp (takeFragment service frame slot data) (fun _ s' => s'.Attends) (fun _ s' => s'.Broken) s := by
  unfold takeFragment
  simp only [wp_bind, wp_modify]
  have hclosed : Taking false slot (if frame.has http2FlagEndStream then closeRemote slot s else s) ∧
      ((if frame.has http2FlagEndStream then closeRemote slot s else s).stream slot).streamId = frame.streamId := by
    cases hlast : frame.has http2FlagEndStream with
    | true =>
        rw [hlast] at h
        refine ⟨h.closeRemote, ?_⟩
        have hstream : (s.closeRemote slot).stream slot =
            { s.stream slot with endStream := true, state := .halfClosedRemote } := stream_modifyStream h.around.lt
        rw [if_pos rfl, hstream]
        exact hid
    | false =>
        rw [hlast] at h
        exact ⟨h, hid⟩
  generalize (if frame.has http2FlagEndStream then closeRemote slot s else s) = t at hclosed ⊢
  obtain ⟨ht, hstream⟩ := hclosed
  refine gather_spec.mono ?_ ?_
  · rintro - u ⟨-, rfl⟩
    have hu := ht.alike (alike_block t (t.block ++ data))
    have hid' : (({ t with block := t.block ++ data } : Http2Connection).stream slot).streamId = frame.streamId := hstream
    generalize ({ t with block := t.block ++ data } : Http2Connection) = u at hu hid' ⊢
    rw [wp_ite]
    split
    · simp only [wp_bind, wp_get]
      exact blockHttp2_attends hu.around hu.following hu.closed hu.odd _
    · exact hu.awaits frame hid'
  · rintro e u ⟨-, -, rfl⟩
    exact ht.broken

/-! ## Headers -/

/-- A stream has been added to the table for a message that has not been begun. -/
theorem Taking.opened (h : s.Attends) (hnumbered : s.outline.Numbered) (hidle : s.continuation = 0) (last : Bool)
    {stream : Http2Stream} (hodd : stream.streamId % 2 = 1) (hnew : s.lastStreamId < stream.streamId)
    (hcore : stream.core.intake = .fresh s.nextAddress stream.streamId) (hreceived : stream.received = 0)
    (hend : stream.endStream = false) (hstreams : s'.streams = s.streams ++ [stream])
    (hnext : s'.nextAddress = s.nextAddress + 1) (hhistory : s'.history = .opened s.nextAddress stream.streamId :: s.history)
    (hrest : s'.continuation = s.continuation ∧ s'.refused = s.refused) : Taking last s.count s' := by
  have hnone : ∀ i, ¬ s.Assembles i := fun i hwaits => hwaits.1 hidle
  have hcount : s'.count = s.count + 1 := by simp [Http2Connection.count, hstreams]
  have hold : ∀ i, i < s.count → s'.stream i = s.stream i := fun i hi => by
    simp only [Http2Connection.stream, hstreams, List.getD_eq_getElem?_getD, List.getElem?_append_left hi]
  have hmine : s'.stream s.count = stream := by
    simp [Http2Connection.stream, hstreams, Http2Connection.count]
  have hrequest : stream.request = { address := s.nextAddress, streamId := stream.streamId } :=
    congrArg Intake.request hcore
  have hcalls : ∀ a, callsOf a s'.history = callsOf a s.history := fun a => by
    rw [hhistory, ← List.singleton_append, callsOf_append]
    exact List.append_nil _
  have hother : ∀ i, i < s'.count → i ≠ s.count → i < s.count := fun i hi hne => by omega
  have hempty : s'.callsAt s.count = [] := by
    rw [callsAt, hmine, hrequest, hcalls]
    exact h.fresh _ (Nat.le_refl _)
  constructor
  case around =>
    constructor
    case lt => omega
    case follows =>
      intro i hi hne
      have hlt := hother i hi hne
      rw [callsAt, hold i hlt, hcalls]
      exact (h.follows i hlt).congr ⟨fun hw => hnone i hw, False.elim⟩
    case heard =>
      intro a _
      rw [hcalls]
      exact h.heard a
    case fresh =>
      intro a ha
      rw [hcalls]
      exact h.fresh a (by omega)
    case closed =>
      intro i hi hne
      rw [hold i (hother i hi hne)]
      exact h.closed i (hother i hi hne)
    case even =>
      intro i hi hne
      rw [hold i (hother i hi hne)]
      exact h.even i (hother i hi hne)
    case known =>
      intro i hi
      by_cases hne : i = s.count
      · rw [hne, hmine, hrequest, hnext]
        exact Nat.lt_succ_self _
      · have hknown := hnumbered.address_lt (hother i hi hne)
        rw [hold i (hother i hi hne), hnext]
        omega
    case distinct =>
      intro i hi hne
      have hknown := hnumbered.address_lt (hother i hi hne)
      rw [hold i (hother i hi hne), hmine, hrequest]
      exact Nat.ne_of_lt hknown
  case follows =>
    rw [hempty, hmine]
    have hcore' : stream.core.intake = .fresh stream.request.address stream.request.streamId := by
      rw [hrequest]
      exact hcore
    exact .awaiting trivial hcore' hreceived rfl
  case closed =>
    rw [hmine, hend]
    exact fun hf => by cases hf
  case odd => rw [hmine]; exact hodd
  case unique =>
    intro i hi heq
    by_contra hne
    have hlt := hother i hi hne
    rw [hold i hlt, hmine] at heq
    have hasked : (s.stream i).streamId ∈ s.outline.asked :=
      List.mem_filter.mpr ⟨mem_ids hlt, by simpa [heq] using hodd⟩
    have hle : (s.stream i).streamId ≤ s.lastStreamId := hnumbered.last _ hasked
    omega
  case idle => exact hrest.1.trans hidle
  case refused => exact hrest.2.trans (h.refused hidle)

/-- The stream that a frame of headers opens is to be given its block. -/
theorem openStream_taking (h : s.Attends) (hnumbered : s.outline.Numbered) (hidle : s.continuation = 0) (last : Bool) (streamId : Nat) :
    wp (openStream streamId) (fun slot s' => Taking last slot s' ∧ (s'.stream slot).streamId = streamId)
      (fun e s' => s' = s ∧ (e = .refusedStream → streamId % 2 = 1)) s := by
  unfold openStream
  simp only [wp_bind, wp_get, wp_ite, wp_throw, wp_set, wp_pure]
  split
  case isTrue => simp
  case isFalse hodd =>
    split
    case isTrue => simp
    case isFalse hlast =>
      split
      case isTrue =>
        refine ⟨trivial, fun _ => ?_⟩
        omega
      case isFalse hfull =>
        have hnew : streamId % 2 = 1 ∧ s.lastStreamId < streamId := by omega
        refine ⟨.opened h hnumbered hidle last hnew.1 hnew.2 rfl rfl rfl rfl rfl rfl ⟨rfl, rfl⟩, ?_⟩
        simp [stream, count]

/-- The block of a stream that has been refused is through. -/
theorem discardBlock_attends (h : s.Attends) (hnone : ∀ i, i < s.count → ¬ s.Assembles i) (h' : Kin s s') :
    wp discardBlock (fun _ t => t.Attends) (fun _ t => t.Broken) s' := by
  have hreset : ∀ t, Kin t (resetBlock t) := fun t => ⟨rfl, fun _ => ⟨rfl, rfl⟩, rfl, fun _ => rfl⟩
  unfold discardBlock
  simp only [wp_bind, wp_get, wp_after, wp_pure]
  refine (decodeBlock_discard s'.block).mono (fun _ t ht => ?_) fun _ t ht => ?_
  · exact h.unwaited ((h'.trans ht.kin).trans (hreset t)) hnone (fun i _ hwaits => hwaits.1 rfl)
      (fun hne => absurd rfl hne) fun _ => rfl
  · exact h.broken.kin ((h'.trans ht.kin).trans (hreset t))

theorem refuseHeaders_attends (h : s.Attends) (hidle : s.continuation = 0) (hodd : frame.streamId % 2 = 1) :
    wp (refuseHeaders frame) (fun _ s' => s'.Attends) (fun _ s' => s'.Broken) s := by
  have hnone : ∀ i, i < s.count → ¬ s.Assembles i := fun i _ hwaits => hwaits.1 hidle
  have hwrote : Kin s { writeValue .rstStream frame.streamId Http2Error.refusedStream.code s with
      refused := frame.streamId } := by
    have halike := (queueFrames_alike none
      [encodeValueHttp2 .rstStream frame.streamId Http2Error.refusedStream.code] .none s).kin
    exact ⟨halike.count, halike.stream, halike.nextAddress, halike.calls⟩
  unfold refuseHeaders
  simp only [wp_bind, wp_modify]
  have hrefused : ({ writeValue .rstStream frame.streamId Http2Error.refusedStream.code s with
      refused := frame.streamId } : Http2Connection).refused = frame.streamId := rfl
  generalize ({ writeValue .rstStream frame.streamId Http2Error.refusedStream.code s with
      refused := frame.streamId } : Http2Connection) = t at hwrote hrefused ⊢
  split
  case h_1 => exact h.broken.kin hwrote
  case h_2 priority data _ =>
    rw [wp_bind]
    refine gather_spec.mono ?_ ?_
    · rintro - u ⟨-, rfl⟩
      have hgathered := hwrote.trans (alike_block t (t.block ++ data)).kin
      have hsame : ({ t with block := t.block ++ data } : Http2Connection).refused = frame.streamId := hrefused
      generalize ({ t with block := t.block ++ data } : Http2Connection) = u at hgathered hsame ⊢
      rw [wp_ite]
      split
      · exact discardBlock_attends h hnone hgathered
      · have hne : frame.streamId ≠ 0 := by omega
        refine h.unwaited ⟨hgathered.count, hgathered.stream, hgathered.nextAddress, hgathered.calls⟩ hnone ?_
          (fun _ => hodd) fun hzero => absurd hzero hne
        exact fun i _ hwaits => hwaits.2.1 hsame
    · rintro e u ⟨-, -, rfl⟩
      exact h.broken.kin hwrote

theorem takeHeaders_attends (h : Taking (frame.has http2FlagEndStream) slot s)
    (hid : (s.stream slot).streamId = frame.streamId) :
    wp (takeHeaders service frame slot) (fun _ s' => s'.Attends) (fun _ s' => s'.Broken) s := by
  unfold takeHeaders
  split
  case h_1 => exact h.broken
  case h_2 priority data _ =>
    rw [wp_bind]
    refine prioritiseStream_alike.mono (fun _ t ht => ?_) fun _ t ht => (h.alike ht).broken
    exact takeFragment_attends (h.alike ht) ((congrArg StreamCore.streamId (ht.stream slot).1).trans hid) data
  case h_3 data _ => exact takeFragment_attends h hid data

theorem openHeaders_attends (h : s.Attends) (hnumbered : s.outline.Numbered) (hidle : s.continuation = 0) :
    wp (openHeaders service frame) (fun _ s' => s'.Attends) (fun _ s' => s'.Broken) s := by
  have hopen := openStream_taking h hnumbered hidle (frame.has http2FlagEndStream) frame.streamId
  unfold wp at hopen ⊢
  unfold openHeaders ExceptT.run
  simp only [ExceptT.run] at hopen ⊢
  rcases hrun : openStream frame.streamId s with ⟨_ | slot, t⟩
  all_goals simp only [hrun] at hopen
  case error e =>
    obtain ⟨rfl, hrefused⟩ := hopen
    cases e with
    | refusedStream => exact refuseHeaders_attends h hidle (hrefused rfl)
    | _ => exact h.broken
  case ok => exact takeHeaders_attends hopen.1 hopen.2

/-- The stream in a slot receives: the peer has not closed it and none of its blocks is waited for. -/
theorem continueHeaders_attends (h : s.Attends) (hnumbered : s.outline.Numbered) (hidle : s.continuation = 0)
    (hslot : slot < s.count) (hid : (s.stream slot).streamId = frame.streamId)
    (hend : (s.stream slot).endStream = false) :
    wp (continueHeaders service frame slot) (fun _ s' => s'.Attends) (fun _ s' => s'.Broken) s := by
  have hnone : ∀ i, ¬ s.Assembles i := fun i hwaits => hwaits.1 hidle
  have hodd : (s.stream slot).streamId % 2 = 1 := by
    by_contra heven
    cases hend.symm.trans (h.even slot hslot (by omega))
  obtain ⟨t, streamId, hsound, hending, hcomplete, hlength, hannounced, hreceived, hcalls⟩ :=
    (h.follows slot hslot).receiving_of_open (hnone slot) hend
  have hheaders : (s.stream slot).headersComplete = true := hcomplete
  unfold continueHeaders
  simp only [wp_bind, wp_get, wp_ite, wp_refuseIf, wp_set]
  rw [if_pos hheaders]
  split
  case isTrue => exact h.broken
  case isFalse hlast =>
    have hmarked : (s.modifyStream slot fun stream =>
        { stream with request := { stream.request with trailers := true } }).stream slot =
        { s.stream slot with request := { (s.stream slot).request with trailers := true } } := stream_modifyStream hslot
    have hother : ∀ i, i ≠ slot → (s.modifyStream slot fun stream =>
        { stream with request := { stream.request with trailers := true } }).stream i = s.stream i := fun i hi => by
      simp [stream, modifyStream, List.getD_eq_getElem?_getD, Ne.symm hi]
    have hcount : (s.modifyStream slot fun stream =>
        { stream with request := { stream.request with trailers := true } }).count = s.count := count_modifyStream
    have haround : Around slot (s.modifyStream slot fun stream =>
        { stream with request := { stream.request with trailers := true } }) := by
      have hall : Around slot s := .of_attends h hnumbered hslot fun i _ _ => hnone i
      refine hall.alike hcount (fun i _ hne => ?_) (by rw [hmarked]) rfl fun _ => rfl
      rw [hother i hne]
      exact ⟨rfl, rfl⟩
    refine takeHeaders_attends ⟨haround, ?_, ?_, ?_, ?_, hidle, h.refused hidle⟩ ?_
    · rw [callsAt, hmarked]
      exact .receiving t streamId hsound hending hcomplete (by simpa [hend] using hlast) hlength hannounced hreceived hcalls
    · rw [hmarked, hend]
      exact fun hf => by cases hf
    · rw [hmarked]
      exact hodd
    · intro i hi heq
      by_contra hne
      rw [hother i hne, hmarked] at heq
      exact hne (hnumbered.slot_of_asked (hcount ▸ hi) hslot (heq.symm ▸ hodd) heq)
    · rw [hmarked]
      exact hid

/-! ## Continuations -/

theorem handleContinuation_attends (h : s.Attends) (hnumbered : s.outline.Numbered) :
    wp (handleContinuation service frame) (fun _ s' => s'.Attends) (fun _ s' => s'.Broken) s := by
  unfold handleContinuation
  simp only [wp_bind, wp_get, wp_refuseIf]
  split
  case isTrue => exact h.broken
  case isFalse hwaiting =>
    refine gather_spec.mono ?_ ?_
    · rintro - t ⟨-, rfl⟩
      have hgathered : ({ s with block := s.block ++ frame.payload } : Http2Connection).Attends := h.alike (alike_block s _)
      simp only [wp_ite, wp_bind, wp_get, wp_pure]
      split
      case isFalse => exact hgathered
      case isTrue =>
        split
        case isTrue hrefused =>
          exact discardBlock_attends hgathered (fun i _ hwaits => hwaits.2.1 hrefused)
            ⟨rfl, fun _ => ⟨rfl, rfl⟩, rfl, fun _ => rfl⟩
        case isFalse hrefused =>
          split
          case h_1 => exact hgathered.broken
          case h_2 slot hfind =>
            obtain ⟨hslot, hid⟩ := findStream_some hfind
            have hodd := h.odd hwaiting
            have hid' : (s.stream slot).streamId % 2 = 1 := by
              have heq : (s.stream slot).streamId = s.continuation := hid
              rw [heq]
              exact hodd
            have hwaits : Http2Connection.Assembles { s with block := s.block ++ frame.payload } slot :=
              ⟨hwaiting, hrefused, hid⟩
            refine blockHttp2_attends (.of_attends hgathered hnumbered hslot ?_)
              ((hgathered.follows slot hslot).congr ⟨fun _ => trivial, fun _ => hwaits⟩) (hgathered.closed slot hslot) hid' _
            rintro i hi hne ⟨-, -, heq⟩
            exact hne (hnumbered.slot_of_asked hslot hi hid' (hid.trans heq.symm)).symm
    · rintro e t ⟨-, -, rfl⟩
      exact h.broken

/-! ## Frames -/

/-- A stream that the peer may go on with has not been closed by it. -/
theorem Attends.receives (h : s.Attends) (hslot : slot < s.count) (ht : frame.type = .data ∨ frame.type = .headers)
    (hverify : verifyState frame.type (s.stream slot).state = none) : (s.stream slot).endStream = false := by
  cases hend : (s.stream slot).endStream with
  | false => rfl
  | true =>
      rcases h.closed slot hslot hend with hstate | hstate <;> rcases ht with ht | ht <;>
        simp [hstate, ht, verifyState] at hverify

theorem handleSettings_attends (h : s.Attends) (hnumbered : s.outline.Numbered) :
    wp (handleSettings frame) (fun _ s' => s'.Attends) (fun _ s' => s'.Broken) s := by
  unfold handleSettings
  rw [wp_ite]
  split
  · exact h
  · simp only [wp_bind, wp_modify]
    refine ((applySettings_alike frame.payload).and (applySettings_spec (fun _ => True) trivial)).mono ?_ ?_
    · rintro - t ⟨halike, hdoes⟩
      have hwritten : (writeSettings true t).Attends := (h.alike halike).alike (queueFrames_alike _ _ _ t)
      have hdoes' : Does (fun _ => True) s (writeSettings true t) := hdoes.trans (writeSettings_does trivial)
      exact hwritten.quiet (numbered_of_does hdoes' hnumbered) fun _ => schedule_served
    · exact fun e t ht => (h.alike ht.1).broken

theorem handleWindowUpdate_attends (h : s.Attends) (hnumbered : s.outline.Numbered) :
    wp (handleWindowUpdate frame) (fun _ s' => s'.Attends) (fun _ s' => s'.Broken) s := by
  unfold handleWindowUpdate
  simp only [wp_tryCatch, wp_bind, wp_modify]
  refine ((updateWindow_alike _ _).and (updateWindow_spec (fun _ => True) (fun _ => trivial) fun _ => trivial)).mono ?_ ?_
  · rintro - t ⟨halike, -, hdoes⟩
    exact (h.alike halike).quiet (numbered_of_does hdoes hnumbered) fun _ => schedule_served
  · rintro e t ⟨halike, -⟩
    rw [wp_ite]
    split
    · exact (h.alike halike).alike (queueFrames_alike _ _ _ t)
    · exact (h.alike halike).broken

theorem handlePriority_attends (h : s.Attends) (slot : Option Nat) :
    wp (handlePriority frame slot) (fun _ s' => s'.Attends) (fun _ s' => s'.Broken) s := by
  unfold handlePriority
  split
  case h_1 => exact h.broken
  case h_2 =>
    simp only [wp_bind, wp_refuseIf]
    split
    case isTrue => exact h.broken
    case isFalse =>
      cases slot with
      | none => exact h
      | some slot => exact prioritiseStream_alike.mono (fun _ _ ht => h.alike ht) fun _ _ ht => (h.alike ht).broken

theorem dispatchFrame_attends (h : s.Attends) (hnumbered : s.outline.Numbered)
    (hidle : frame.type ≠ .continuation → s.continuation = 0)
    (hverify : frame.streamId ≠ 0 → s.verifyStream frame (s.frameSlot frame) = none) :
    wp (dispatchFrame service frame (s.frameSlot frame)) (fun _ s' => s'.Attends) (fun _ s' => s'.Broken) s := by
  have hreceives : ∀ slot, s.frameSlot frame = some slot → frame.type = .data ∨ frame.type = .headers →
      slot < s.count ∧ (s.stream slot).streamId = frame.streamId ∧ (s.stream slot).endStream = false := by
    intro slot hframe ht
    obtain ⟨hne, hfind⟩ := frameSlot_some hframe
    obtain ⟨hslot, hid⟩ := findStream_some hfind
    have hallowed := hverify hne
    refine ⟨hslot, hid, h.receives hslot ht ?_⟩
    rcases ht with ht | ht <;> simpa [verifyStream, ht, hframe, state] using hallowed
  unfold dispatchFrame
  split
  case h_1 htype =>
    split
    case h_1 slot hframe =>
      obtain ⟨hslot, -, hend⟩ := hreceives slot hframe (.inl htype)
      exact handleData_attends h hnumbered (hidle (by simp [htype])) hslot hend
    case h_2 => exact h
  case h_2 htype =>
    unfold handleHeaders
    split
    case h_1 => exact openHeaders_attends h hnumbered (hidle (by simp [htype]))
    case h_2 slot hframe =>
      obtain ⟨hslot, hid, hend⟩ := hreceives slot hframe (.inr htype)
      exact continueHeaders_attends h hnumbered (hidle (by simp [htype])) hslot hid hend
  case h_3 => exact handleContinuation_attends h hnumbered
  case h_4 => exact handlePriority_attends h _
  case h_5 =>
    split
    case h_1 slot hframe => exact h.close (findStream_some (frameSlot_some hframe).2).1
    case h_2 => exact h
  case h_6 => exact handleSettings_attends h hnumbered
  case h_7 =>
    rw [wp_ite]
    split
    · exact h
    · exact h.alike (queueFrames_alike _ _ _ s)
  case h_8 => exact h.alike (.of_streams rfl rfl rfl rfl rfl ⟨[], rfl, by simp⟩)
  case h_9 => exact handleWindowUpdate_attends h hnumbered
  case h_10 => exact h.broken
  case h_11 => exact h

/-- A frame leaves the session attending to its messages, or ends in an error before any message ends. -/
theorem handleFrame_attends (service : Service) (frame : Http2Frame) (h : s.Attends) (hnumbered : s.outline.Numbered) :
    wp (handleFrame service frame) (fun _ s' => s'.Attends) (fun _ s' => s'.Broken) s := by
  unfold handleFrame
  simp only [wp_bind, wp_get, wp_refuseSome, wp_refuseIf]
  split
  case h_1 => exact h.broken
  case h_2 =>
    split
    case isTrue => exact h.broken
    case isFalse hcontinuation =>
      have hidle : frame.type ≠ .continuation → s.continuation = 0 := fun hne => by tauto
      have haccount : ∀ window, Attends { s with receiveWindow := window } := fun window =>
        h.alike (.of_streams rfl rfl rfl rfl rfl ⟨[], rfl, by simp⟩)
      have hframe : ∀ t : Http2Connection, t.Attends → t.outline.Numbered → t.continuation = s.continuation →
          wp (refuseSome (if frame.streamId ≠ 0 then t.verifyStream frame (t.frameSlot frame) else none))
            (fun _ u => wp (dispatchFrame service frame (t.frameSlot frame)) (fun _ s' => s'.Attends)
              (fun _ s' => s'.Broken) u) (fun _ s' => s'.Broken) t := by
        intro t ht hnumbered' hsame
        rw [wp_refuseSome]
        split
        case h_1 => exact ht.broken
        case h_2 hstream =>
          refine dispatchFrame_attends ht hnumbered' (fun hne => hsame.trans (hidle hne)) fun hid => ?_
          rw [if_pos hid] at hstream
          exact hstream
      unfold accountData
      by_cases ht : frame.type = .data
      · rw [if_pos ht]
        simp only [wp_bind, wp_modify, wp_get, wp_refuseIf]
        split
        · exact (haccount _).broken
        · have hhandled := hframe { s with receiveWindow := s.receiveWindow - frame.length } (haccount _) hnumbered rfl
          rwa [wp_refuseSome] at hhandled
      · rw [if_neg ht]
        simp only [wp_pure]
        have hhandled := hframe s h hnumbered rfl
        rwa [wp_refuseSome] at hhandled

end Http2Connection

end Viriatum
