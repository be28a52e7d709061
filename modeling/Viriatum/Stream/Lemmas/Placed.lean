import Viriatum.Stream.Messages

/-!
# The messages of the table

Every message of the table has been given out, and none has been called for before it is. Whatever the session does to
its messages keeps it so.
-/

namespace Viriatum

open Library Effect

namespace Http2Connection

variable {slot : Nat} {s s' : Http2Connection}

/-- The messages of the streams have been given out; the ones that have not are not called for. -/
structure Placed (s : Http2Connection) : Prop where
  fresh : ∀ a, s.nextAddress ≤ a → callsOf a s.history = []
  known : ∀ slot, slot < s.count → (s.stream slot).request.address < s.nextAddress

namespace Placed

theorem settles (h : Placed s) : Settles s.nextAddress s.count s where
  messages b hb := .inl (h.fresh b hb)
  streams _ hge hlt := absurd hlt (Nat.not_lt.mpr hge)
  fresh := h.fresh

/-- Streams leave the table, or stay what they are. -/
theorem leave (h : Placed s)
    (hstream : ∀ i, i < s'.count → ∃ j, j < s.count ∧ (s'.stream i).request.address = (s.stream j).request.address)
    (hnext : s'.nextAddress = s.nextAddress) (hcalls : ∀ b, callsOf b s'.history = callsOf b s.history) : Placed s' where
  fresh b hb := (hcalls b).trans (h.fresh b (hnext ▸ hb))
  known i hi := by
    obtain ⟨j, hj, haddress⟩ := hstream i hi
    rw [haddress, hnext]
    exact h.known j hj

/-- The promises that have been settled have been given messages of their own. -/
theorem settled (h : Placed s) (hsettles : Settles s.nextAddress s.count s')
    (haddress : ∀ i, i < s.count → (s'.stream i).request.address = (s.stream i).request.address)
    (hnext : s.nextAddress ≤ s'.nextAddress) : Placed s' where
  fresh := hsettles.fresh
  known i hi := by
    by_cases hold : i < s.count
    · rw [haddress i hold]
      exact Nat.lt_of_lt_of_le (h.known i hold) hnext
    · by_contra hnot
      obtain ⟨-, path, hpromised⟩ := hsettles.streams i (Nat.le_of_not_lt hold) hi
      rw [hsettles.fresh _ (Nat.le_of_not_lt hnot)] at hpromised
      cases hpromised

theorem kin (h : Placed s) (h' : Kin s s') : Placed s' :=
  h.leave (fun i hi => ⟨i, h'.count ▸ hi, congrArg (fun core : StreamCore => core.request.address) (h'.stream i).1⟩)
    h'.nextAddress h'.calls

theorem works (h : Placed s) (h' : Works s s') : Placed s' := by
  have hserved := h'.served _ (Nat.le_refl _)
  exact h.settled (h'.settles _ _ (Nat.le_refl _) h.settles)
    (fun _ hi => congrArg HttpRequest.address (address_of_served hserved hi)) hserved.nextAddress

theorem quiet (h : Placed s) (h' : ∀ m, Served m s s') : Placed s' :=
  h.settled (h.settles.quiet h') (fun _ hi => congrArg HttpRequest.address (address_of_served (h' 0) hi)) (h' 0).nextAddress

/-- The streams that the handling of a message leaves in their slots keep their messages. -/
theorem address_of_handles {core : StreamCore} {calls : List Callback} (h' : Handles s.nextAddress slot s s' core calls)
    {i : Nat} (hi : i < s.count) : (s'.stream i).request.address = (s.stream i).request.address := by
  by_cases heq : i = slot
  · rw [heq]
    exact (congrArg HttpRequest.address h'.request_eq).trans h'.address
  · exact congrArg (fun core : StreamCore => core.request.address) (h'.others i hi heq)

theorem handles {core : StreamCore} {calls : List Callback} (h : Placed s)
    (h' : Handles s.nextAddress slot s s' core calls) : Placed s' :=
  h.settled h'.settles (fun _ => address_of_handles h') h'.nextAddress

theorem modify (h : Placed s) {f : Http2Stream → Http2Stream}
    (hf : ∀ stream, (f stream).request.address = stream.request.address) : Placed (s.modifyStream slot f) := by
  refine h.leave (fun i hi => ?_) rfl fun _ => rfl
  rw [count_modifyStream] at hi
  refine ⟨i, hi, ?_⟩
  by_cases heq : i = slot
  · subst heq
    rw [stream_modifyStream hi, hf]
  · simp [stream, modifyStream, List.getD_eq_getElem?_getD, Ne.symm heq]

theorem close (h : Placed s) (hslot : slot < s.count) : Placed (closeStream slot s) := by
  obtain ⟨hstream, hnext, hcalls, -⟩ := closeStream_leaves hslot
  refine h.leave (fun i hi => ?_) hnext hcalls
  obtain ⟨j, hj, hcore, -⟩ := hstream i hi
  exact ⟨j, hj, congrArg (fun core : StreamCore => core.request.address) hcore⟩

/-- A stream enters the table for a message of its own. -/
theorem enter (h : Placed s) {stream : Http2Stream} (hstreams : s'.streams = s.streams ++ [stream])
    (haddress : stream.request.address = s.nextAddress) (hnext : s'.nextAddress = s.nextAddress + 1)
    (hcalls : ∀ b, callsOf b s'.history = callsOf b s.history) : Placed s' where
  fresh b hb := (hcalls b).trans (h.fresh b (by omega))
  known i hi := by
    have hcount : s'.count = s.count + 1 := by simp [Http2Connection.count, hstreams]
    by_cases heq : i = s.count
    · have hmine : s'.stream i = stream := by simp [Http2Connection.stream, hstreams, Http2Connection.count, heq]
      rw [hmine, haddress]
      omega
    · have hlt : i < s.streams.length := by
        have : i < s.count := by omega
        exact this
      have hold : s'.stream i = s.stream i := by
        simp only [Http2Connection.stream, hstreams, List.getD_eq_getElem?_getD, List.getElem?_append_left hlt]
      have hknown := h.known i hlt
      rw [hold]
      omega

end Placed

/-- The slots that a new stream leaves alone, and its own. -/
theorem stream_enter {stream : Http2Stream} (hstreams : s'.streams = s.streams ++ [stream]) {i : Nat} (hi : i < s'.count) :
    i < s.count ∧ s'.stream i = s.stream i ∨ s'.stream i = stream := by
  have hcount : s'.count = s.count + 1 := by simp [Http2Connection.count, hstreams]
  by_cases heq : i = s.count
  · exact .inr (by simp [Http2Connection.stream, hstreams, Http2Connection.count, heq])
  · have hlt : i < s.streams.length := by
      have : i < s.count := by omega
      exact this
    refine .inl ⟨hlt, ?_⟩
    simp only [Http2Connection.stream, hstreams, List.getD_eq_getElem?_getD, List.getElem?_append_left hlt]

end Http2Connection

end Viriatum
