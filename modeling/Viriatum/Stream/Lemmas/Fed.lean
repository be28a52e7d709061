import Viriatum.Stream.Lemmas.Steady

/-!
# The payload of the messages

The parts of the body that a message is handed are what the frames of payload on its stream carry, the padding apart.
-/

namespace Viriatum

open Library Effect

/-- The bytes that the calls hand over as a body. -/
def bodyLength (calls : List Callback) : Nat :=
  (calls.map fun
    | .body _ data => data.length
    | _ => 0).sum

/-- The bytes of the payload of a frame, without the padding. -/
def Http2Frame.payloadLength (frame : Http2Frame) : Nat :=
  match stripPaddingHttp2 frame with
  | .ok payload => payload.length
  | .error _ => 0

/-- The bytes of payload that have been received on a stream. -/
def paidOn (streamId : Nat) (history : List Event) : Nat :=
  (history.map fun
    | .received frame => if frame.type = .data ∧ frame.streamId = streamId then frame.payloadLength else 0
    | _ => 0).sum

theorem bodyLength_append (calls more : List Callback) : bodyLength (calls ++ more) = bodyLength calls + bodyLength more := by
  simp [bodyLength]

theorem bodyLength_unfed {calls : List Callback} (h : Unfed calls) : bodyLength calls = 0 := by
  induction calls with
  | nil => rfl
  | cons callback calls ih =>
      have hrest := ih fun c hmem => h c (List.mem_cons_of_mem _ hmem)
      have hfirst := h callback List.mem_cons_self
      cases callback with
      | body a data => exact absurd rfl (hfirst a data)
      | _ => simpa [bodyLength] using hrest

theorem bodyLength_promised (address : Nat) (path : Bytes) : bodyLength (promisedCalls address path) = 0 := rfl

theorem paidOn_append (streamId : Nat) (events history : List Event) :
    paidOn streamId (events ++ history) = paidOn streamId events + paidOn streamId history := by
  simp [paidOn]

/-- Events that receive no payload pay for nothing. -/
theorem paidOn_eq_zero {streamId : Nat} {events : List Event}
    (h : ∀ event ∈ events, ∀ frame, event = .received frame → frame.type ≠ .data) : paidOn streamId events = 0 := by
  induction events with
  | nil => rfl
  | cons event events ih =>
      have hrest := ih fun e hmem => h e (List.mem_cons_of_mem _ hmem)
      have hfirst := h event List.mem_cons_self
      cases event with
      | received frame =>
          have hne := hfirst frame rfl
          simpa [paidOn, hne] using hrest
      | _ => simpa [paidOn] using hrest

namespace Http2Connection

variable {a n slot : Nat} {s s' : Http2Connection} {service : Service} {frame : Http2Frame} {input : Input}

/-- A message has been handed a number of bytes. -/
structure Fed (a n : Nat) (s : Http2Connection) : Prop extends Placed s where
  length : bodyLength (callsOf a s.history) = n

namespace Fed

/-- A message that has not been given out has been handed nothing. -/
theorem zero (h : Fed a n s) (ha : s.nextAddress ≤ a) : n = 0 := by
  rw [← h.length, h.fresh a ha]
  rfl

theorem kin (h : Fed a n s) (h' : Kin s s') : Fed a n s' where
  toPlaced := h.toPlaced.kin h'
  length := by rw [h'.calls, h.length]

/-- The promises that are settled have been handed nothing. -/
theorem settled (h : Fed a n s) (hsettles : Settles s.nextAddress s.count s') (hplaced : Placed s')
    (hcalls : a < s.nextAddress → bodyLength (callsOf a s'.history) = bodyLength (callsOf a s.history)) : Fed a n s' where
  toPlaced := hplaced
  length := by
    by_cases ha : a < s.nextAddress
    · rw [hcalls ha, h.length]
    · have hge := Nat.le_of_not_lt ha
      rw [h.zero hge]
      rcases hsettles.messages a hge with hnone | ⟨path, hpromised⟩
      · rw [hnone]
        rfl
      · rw [hpromised]
        exact bodyLength_promised a path

theorem works (h : Fed a n s) (h' : Works s s') : Fed a n s' :=
  h.settled (h'.settles _ _ (Nat.le_refl _) h.toPlaced.settles) (h.toPlaced.works h')
    fun ha => by rw [callsOf_served (h'.served _ (Nat.le_refl _)) ha]

theorem quiet (h : Fed a n s) (h' : ∀ m, Served m s s') : Fed a n s' :=
  h.settled (h.toPlaced.settles.quiet h') (h.toPlaced.quiet h') fun _ => by
    rw [callsOf_served (h' (a + 1)) (Nat.lt_succ_self a)]

/-- What the handling of the message of a stream makes of it, and of every other one. -/
theorem handled {core : StreamCore} {calls : List Callback} (h : Fed a n s)
    (h' : Handles s.nextAddress slot s s' core calls) :
    Fed a (if (s.stream slot).request.address = a then n + bodyLength calls else n) s' := by
  by_cases heq : (s.stream slot).request.address = a
  · rw [if_pos heq]
    refine ⟨h.toPlaced.handles h', ?_⟩
    rw [← heq, h'.calls, bodyLength_append, heq, h.length]
  · rw [if_neg heq]
    obtain ⟨events, hevents, hhistory⟩ := h'.history
    refine h.settled h'.settles (h.toPlaced.handles h') fun ha => ?_
    have hforeign : callsOf a events = [] := by
      apply callsOf_foreign
      intro event hmem
      rcases hhistory event hmem with hserves | ⟨callback, rfl, hcallback⟩
      · exact hserves.foreign ha
      · exact fun hsame => heq (Option.some.inj (hcallback.symm.trans hsame))
    rw [hevents, callsOf_append, hforeign, List.append_nil]

end Fed

end Http2Connection

end Viriatum
