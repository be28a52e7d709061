import Viriatum.Stream.Lemmas.Steady

/-!
# The messages that are gone

A message whose stream has left the table is never called for again, whatever the session does next and however it
ends.
-/

namespace Viriatum

open Library Effect

namespace Http2Connection

variable {a slot : Nat} {calls : List Callback} {s s' : Http2Connection}

/-- The message is of no stream of the table, and some calls have been made for it. -/
structure Gone (a : Nat) (calls : List Callback) (s : Http2Connection) : Prop extends Placed s where
  calls : callsOf a s.history = calls
  absent : ∀ slot, slot < s.count → (s.stream slot).request.address ≠ a
  below : a < s.nextAddress

namespace Gone

/-- Streams leave the table, or stay what they are. -/
theorem leave (h : Gone a calls s)
    (hstream : ∀ i, i < s'.count → ∃ j, j < s.count ∧ (s'.stream i).request.address = (s.stream j).request.address)
    (hnext : s'.nextAddress = s.nextAddress) (hcalls : ∀ b, callsOf b s'.history = callsOf b s.history) :
    Gone a calls s' where
  toPlaced := h.toPlaced.leave hstream hnext hcalls
  calls := (hcalls a).trans h.calls
  absent i hi := by
    obtain ⟨j, hj, haddress⟩ := hstream i hi
    exact haddress ▸ h.absent j hj
  below := hnext ▸ h.below

theorem kin (h : Gone a calls s) (h' : Kin s s') : Gone a calls s' :=
  h.leave (fun i hi => ⟨i, h'.count ▸ hi, congrArg (fun core : StreamCore => core.request.address) (h'.stream i).1⟩)
    h'.nextAddress h'.calls

theorem alike (h : Gone a calls s) (h' : Alike s s') : Gone a calls s' := h.kin h'.kin

/-- The operations of the handlers serve other messages. -/
theorem served (h : Gone a calls s) (h' : Served s.nextAddress s s') (hplaced : Placed s') : Gone a calls s' where
  toPlaced := hplaced
  calls := (callsOf_served h' h.below).trans h.calls
  absent slot hslot := by
    by_cases hold : slot < s.count
    · rw [address_of_served h' hold]
      exact h.absent slot hold
    · have hge := (h'.reserved slot (Nat.le_of_not_lt hold) hslot).address
      have hbelow := h.below
      omega
  below := Nat.lt_of_lt_of_le h.below h'.nextAddress

/-- The handling of the message of a stream of the table. -/
theorem handles {core : StreamCore} {made : List Callback} (h : Gone a calls s)
    (h' : Handles s.nextAddress slot s s' core made) : Gone a calls s' where
  toPlaced := h.toPlaced.handles h'
  calls := by
    obtain ⟨events, hevents, hhistory⟩ := h'.history
    have hforeign : callsOf a events = [] := by
      apply callsOf_foreign
      intro event hmem
      rcases hhistory event hmem with hserves | ⟨callback, rfl, hcallback⟩
      · exact hserves.foreign h.below
      · exact fun heq => h.absent slot h'.slot_lt (Option.some.inj (hcallback.symm.trans heq))
    rw [hevents, callsOf_append, hforeign, List.append_nil, h.calls]
  absent i hi := by
    by_cases hold : i < s.count
    · rw [Placed.address_of_handles h' hold]
      exact h.absent i hold
    · have hge := (h'.reserved i (Nat.le_of_not_lt hold) hi).address
      have hbelow := h.below
      omega
  below := Nat.lt_of_lt_of_le h.below h'.nextAddress

/-- The stream of a message is changed, the message staying the same. -/
theorem modify (h : Gone a calls s) {f : Http2Stream → Http2Stream}
    (hf : ∀ stream, (f stream).request.address = stream.request.address) : Gone a calls (s.modifyStream slot f) := by
  refine h.leave (fun i hi => ?_) rfl fun _ => rfl
  rw [count_modifyStream] at hi
  refine ⟨i, hi, ?_⟩
  by_cases heq : i = slot
  · subst heq
    rw [stream_modifyStream hi, hf]
  · simp [stream, modifyStream, List.getD_eq_getElem?_getD, Ne.symm heq]

theorem close (h : Gone a calls s) (hslot : slot < s.count) : Gone a calls (closeStream slot s) := by
  obtain ⟨hstream, hnext, hcalls, -⟩ := closeStream_leaves hslot
  refine h.leave (fun i hi => ?_) hnext hcalls
  obtain ⟨j, hj, hcore, -⟩ := hstream i hi
  exact ⟨j, hj, congrArg (fun core : StreamCore => core.request.address) hcore⟩

/-- A stream enters the table for a message of its own. -/
theorem enter (h : Gone a calls s) {stream : Http2Stream} (hstreams : s'.streams = s.streams ++ [stream])
    (haddress : stream.request.address = s.nextAddress) (hnext : s'.nextAddress = s.nextAddress + 1)
    (hcalls : ∀ b, callsOf b s'.history = callsOf b s.history) : Gone a calls s' where
  toPlaced := h.toPlaced.enter hstreams haddress hnext hcalls
  calls := (hcalls a).trans h.calls
  absent i hi := by
    rcases stream_enter hstreams hi with ⟨hold, hsame⟩ | hmine
    · rw [hsame]
      exact h.absent i hold
    · have hbelow := h.below
      rw [hmine, haddress]
      omega
  below := by
    have hbelow := h.below
    omega

theorem steady (a : Nat) (calls : List Callback) : Steady (Gone a calls) where
  placed h := h.toPlaced
  kin := kin
  near h h' := h.kin h'.toKin
  quiet h h' := h.served (h' _) (h.toPlaced.quiet h')
  works h h' := h.served (h'.served _ (Nat.le_refl _)) (h.toPlaced.works h')
  modify h hf _ _ := h.modify hf
  handles h h' _ := h.handles h'
  close := close
  enter h _ hstreams haddress _ hnext _ _ hcalls := h.enter hstreams haddress hnext hcalls

/-- No run calls for a message that is gone. -/
theorem run (h : Gone a calls s) (inputs : List (Service × Input)) : Gone a calls (run inputs s) :=
  (steady a calls).run (fun h h' => h.handles h') h inputs

end Gone

end Http2Connection

end Viriatum
