import Viriatum.Stream.Lemmas.Block
import Viriatum.Stream.Lemmas.Promised

/-!
# The handling of a message

The handling of a block does to the session what the intake does to the message: it changes the stream of the message,
calls the handler for it, and apart from that only does what the operations of a handler do.
-/

namespace Viriatum

open Library Effect

namespace Http2Connection

/-- The session has come from another one by the handling of the message of the stream in a slot: the stream is left
with a core, and the calls are made for the message. -/
structure Handles (n slot : Nat) (s₀ s : Http2Connection) (core : StreamCore) (calls : List Callback) : Prop where
  settles : Settles n s₀.count s
  slot_lt : slot < s₀.count
  bound : n ≤ s₀.nextAddress
  known : (s₀.stream slot).request.address < n
  count : s₀.count ≤ s.count
  room : s.count ≤ max s₀.count s₀.remote.maxConcurrentStreams
  others : ∀ i, i < s₀.count → i ≠ slot → (s.stream i).core = (s₀.stream i).core
  mine : (s.stream slot).core = core
  address : core.request.address = (s₀.stream slot).request.address
  streamId : core.streamId = (s₀.stream slot).streamId
  state : ∀ i, i < s₀.count → StateServed (s₀.stream i).state (s.stream i).state ∨
    i = slot ∧ (s.stream i).state = .halfClosedRemote
  ended : core.endStream = true → (s₀.stream slot).endStream = true ∨ (s.stream slot).state = .halfClosedRemote
  reserved : ∀ i, s₀.count ≤ i → i < s.count → (s.stream i).Reserved n
  core : ∃ decoder receiveWindow, s.core = { s₀.core with decoder, receiveWindow }
  nextAddress : s₀.nextAddress ≤ s.nextAddress
  calls : callsOf (s₀.stream slot).request.address s.history =
    callsOf (s₀.stream slot).request.address s₀.history ++ calls
  history : ∃ events, s.history = events ++ s₀.history ∧ ∀ event ∈ events,
    event.Serves n ∨ ∃ callback, event = .called callback ∧ callback.address = some (s₀.stream slot).request.address

variable {n slot : Nat} {s₀ s s' : Http2Connection} {core : StreamCore} {calls : List Callback} {service : Service}

namespace Handles

theorem refl (hslot : slot < s.count) (hbound : n ≤ s.nextAddress) (hknown : (s.stream slot).request.address < n)
    (hsettles : Settles n s.count s) : Handles n slot s s (s.stream slot).core [] where
  settles := hsettles
  slot_lt := hslot
  bound := hbound
  known := hknown
  count := Nat.le_refl _
  room := Nat.le_max_left _ _
  others _ _ _ := rfl
  mine := rfl
  address := rfl
  streamId := rfl
  state _ _ := .inl (.refl _)
  ended := .inl
  reserved i h h' := absurd h' (Nat.not_lt.mpr h)
  core := ⟨s.decoder, s.receiveWindow, rfl⟩
  nextAddress := Nat.le_refl _
  calls := (List.append_nil _).symm
  history := ⟨[], rfl, by simp⟩

theorem lt (h : Handles n slot s₀ s core calls) : slot < s.count := Nat.lt_of_lt_of_le h.slot_lt h.count

theorem remote (h : Handles n slot s₀ s core calls) : s.remote = s₀.remote := by
  obtain ⟨decoder, receiveWindow, hcore⟩ := h.core
  exact congrArg SessionCore.remote hcore

theorem request_eq (h : Handles n slot s₀ s core calls) : (s.stream slot).request = core.request :=
  congrArg StreamCore.request h.mine

theorem served (h : Handles n slot s₀ s core calls) (h' : Served n s s') (hsettles : Settles n s₀.count s') :
    Handles n slot s₀ s' core calls := by
  obtain ⟨events, hevents, hhistory⟩ := h.history
  obtain ⟨events', hevents', hserves⟩ := h'.history
  constructor
  case settles => exact hsettles
  case slot_lt => exact h.slot_lt
  case bound => exact h.bound
  case known => exact h.known
  case count => exact Nat.le_trans h.count h'.count
  case room =>
    have hroom := h.room
    have hroom' := h'.room
    rw [h.remote] at hroom'
    omega
  case others =>
    intro i hi hne
    exact (h'.stream i (Nat.lt_of_lt_of_le hi h.count)).trans (h.others i hi hne)
  case mine => exact (h'.stream slot h.lt).trans h.mine
  case address => exact h.address
  case streamId => exact h.streamId
  case state =>
    intro i hi
    have hstep := h'.state i (Nat.lt_of_lt_of_le hi h.count)
    rcases h.state i hi with hserved | ⟨heq, hclosed⟩
    · exact .inl (hserved.trans hstep)
    · exact .inr ⟨heq, hstep.of_halfClosedRemote hclosed⟩
  case ended => exact fun hend => (h.ended hend).imp_right (h'.state slot h.lt).of_halfClosedRemote
  case reserved =>
    have hall : ∀ i, i < s.count → s₀.count ≤ i → (s'.stream i).Reserved n := fun i hlt hge =>
      (h.reserved i hge hlt).served (h'.stream i hlt) (h'.state i hlt)
    intro i hge hlt
    by_cases hi : i < s.count
    · exact hall i hi hge
    · exact h'.reserved i (Nat.le_of_not_lt hi) hlt
  case core =>
    obtain ⟨decoder, receiveWindow, hcore⟩ := h.core
    exact ⟨decoder, receiveWindow, h'.core.trans hcore⟩
  case nextAddress => exact Nat.le_trans h.nextAddress h'.nextAddress
  case calls =>
    rw [hevents', callsOf_append, h.calls, callsOf_foreign fun event hmem => (hserves event hmem).foreign h.known,
      List.append_nil]
  case history =>
    refine ⟨events' ++ events, by rw [hevents', hevents, List.append_assoc], fun event hmem => ?_⟩
    rcases List.mem_append.mp hmem with hmem | hmem
    · exact .inl (hserves event hmem)
    · exact hhistory event hmem

/-- What only writes goes on with the handling. -/
theorem quiet (h : Handles n slot s₀ s core calls) (h' : ∀ m, Served m s s') : Handles n slot s₀ s' core calls :=
  h.served (h' n) (h.settles.quiet h')

/-- The stream of the message is changed. -/
theorem edit (h : Handles n slot s₀ s core calls) {f : Http2Stream → Http2Stream} {core' : StreamCore}
    (hcore : (f (s.stream slot)).core = core') (haddress : core'.request.address = core.request.address)
    (hid : core'.streamId = core.streamId)
    (hstate : StateServed (s.stream slot).state (f (s.stream slot)).state ∧ core'.endStream = core.endStream ∨
      (f (s.stream slot)).state = .halfClosedRemote) : Handles n slot s₀ (s.modifyStream slot f) core' calls := by
  have hother : ∀ i, i ≠ slot → (s.modifyStream slot f).stream i = s.stream i := by
    intro i hi
    simp [stream, modifyStream, List.getD_eq_getElem?_getD, Ne.symm hi]
  constructor
  case settles =>
    refine ⟨h.settles.messages, fun i hge hlt => ?_, h.settles.fresh⟩
    rw [count_modifyStream] at hlt
    rw [hother i (by have := h.slot_lt; omega)]
    exact h.settles.streams i hge hlt
  case slot_lt => exact h.slot_lt
  case bound => exact h.bound
  case known => exact h.known
  case count => rw [count_modifyStream]; exact h.count
  case room => rw [count_modifyStream]; exact h.room
  case others =>
    intro i hi hne
    rw [hother i hne]
    exact h.others i hi hne
  case mine => rw [stream_modifyStream h.lt]; exact hcore
  case address => exact haddress.trans h.address
  case streamId => exact hid.trans h.streamId
  case state =>
    intro i hi
    by_cases heq : i = slot
    · subst heq
      rw [stream_modifyStream h.lt]
      rcases hstate with ⟨hserved, -⟩ | hclosed
      · rcases h.state i hi with hold | ⟨-, hold⟩
        · exact .inl (hold.trans hserved)
        · exact .inr ⟨rfl, hserved.of_halfClosedRemote hold⟩
      · exact .inr ⟨rfl, hclosed⟩
    · rw [hother i heq]
      exact h.state i hi
  case ended =>
    intro hend
    rw [stream_modifyStream h.lt]
    rcases hstate with ⟨hserved, hsame⟩ | hclosed
    · exact (h.ended (hsame ▸ hend)).imp_right hserved.of_halfClosedRemote
    · exact .inr hclosed
  case reserved =>
    intro i hge hlt
    rw [count_modifyStream] at hlt
    rw [hother i (by have := h.slot_lt; omega)]
    exact h.reserved i hge hlt
  case core => exact h.core
  case nextAddress => exact h.nextAddress
  case calls => exact h.calls
  case history => exact h.history

/-- The stream of the message is changed, which the change of its core tells. -/
theorem change (h : Handles n slot s₀ s core calls) {f : Http2Stream → Http2Stream} (g : StreamCore → StreamCore)
    (hcore : ∀ stream, (f stream).core = g stream.core) (haddress : (g core).request.address = core.request.address)
    (hid : (g core).streamId = core.streamId)
    (hstate : ∀ stream, (f stream).state = stream.state ∧ (f stream).endStream = stream.endStream ∨
      (f stream).state = .halfClosedRemote) : Handles n slot s₀ (s.modifyStream slot f) (g core) calls := by
  have hmine : (f (s.stream slot)).core = g core := (hcore _).trans (congrArg g h.mine)
  refine h.edit hmine haddress hid ?_
  rcases hstate (s.stream slot) with ⟨hsame, hend⟩ | hclosed
  · refine .inl ⟨hsame ▸ .refl _, ?_⟩
    rw [← hmine, ← h.mine]
    exact hend
  · exact .inr hclosed

/-- A call is recorded for the message. -/
theorem recorded (h : Handles n slot s₀ s core calls) {callback : Callback} {calls' : List Callback}
    (haddress : callback.address = some (s₀.stream slot).request.address)
    (hcalls : callsOf (s₀.stream slot).request.address (.called callback :: s.history) =
      callsOf (s₀.stream slot).request.address s₀.history ++ calls') :
    Handles n slot s₀ (s.record (.called callback)) core calls' := by
  obtain ⟨events, hevents, hhistory⟩ := h.history
  constructor
  case settles =>
    refine h.settles.record (fun a ha => ?_) (Nat.le_trans h.bound h.nextAddress)
    rw [haddress, Option.some.injEq] at ha
    exact ha ▸ h.known
  case slot_lt => exact h.slot_lt
  case bound => exact h.bound
  case known => exact h.known
  case count => exact h.count
  case room => exact h.room
  case others => exact h.others
  case mine => exact h.mine
  case address => exact h.address
  case streamId => exact h.streamId
  case state => exact h.state
  case ended => exact h.ended
  case reserved => exact h.reserved
  case core => exact h.core
  case nextAddress => exact h.nextAddress
  case calls => exact hcalls
  case history =>
    refine ⟨.called callback :: events, by simp [Http2Connection.record, hevents], fun event hmem => ?_⟩
    rcases List.mem_cons.mp hmem with rfl | hmem
    · exact .inr ⟨callback, rfl, haddress⟩
    · exact hhistory event hmem

/-- The table of the decoder and the window of the connection are replaced. -/
theorem account (h : Handles n slot s₀ s core calls) (decoder : HpackTable) (receiveWindow : Int) :
    Handles n slot s₀ { s with decoder, receiveWindow } core calls where
  settles := ⟨h.settles.messages, h.settles.streams, h.settles.fresh⟩
  slot_lt := h.slot_lt
  bound := h.bound
  known := h.known
  count := h.count
  room := h.room
  others := h.others
  mine := h.mine
  address := h.address
  streamId := h.streamId
  state := h.state
  ended := h.ended
  reserved := h.reserved
  core := by
    obtain ⟨table, window, hcore⟩ := h.core
    refine ⟨decoder, receiveWindow, ?_⟩
    have hsame : ({ s with decoder, receiveWindow } : Http2Connection).core = { s.core with decoder, receiveWindow } := rfl
    rw [hsame, hcore]
  nextAddress := h.nextAddress
  calls := h.calls
  history := h.history

/-- A handler is set on the stream of the message. -/
theorem setHandler (h : Handles n slot s₀ s core calls) : Handles n slot s₀ (s.setHandler slot) core calls := by
  have hset : Handles n slot s₀ ((s.modifyStream slot fun stream =>
      { stream with handler := some baseHandler }).activate slot) core calls :=
    (h.quiet fun _ => .modify rfl (.refl _)).quiet fun _ => activate_served
  have haddress := congrArg HttpRequest.address (h.quiet (fun _ => .modify rfl (.refl _)) : Handles n slot s₀
    (s.modifyStream slot fun stream => { stream with handler := some baseHandler }) core calls).request_eq
  have hmine : (Callback.set core.request.address).address = some (s₀.stream slot).request.address := by
    rw [← h.address]
    rfl
  have hcalled := hset.recorded hmine ((callsOf_set _ _ _).trans hset.calls)
  rw [← haddress] at hcalled
  exact (hcalled.quiet fun _ => .modify rfl (.refl _)).quiet fun _ => activate_served

/-- The handler of the message is called. -/
theorem call (h : Handles n slot s₀ s core calls) (service : Service) (callback : Callback)
    (hcallback : callback.Concerns core.request.address) :
    Handles n slot s₀ (s.call service callback) core (calls ++ [callback]) := by
  rw [h.address] at hcallback
  have hn := Nat.le_trans h.bound h.nextAddress
  have hcalls : callsOf (s₀.stream slot).request.address (.called callback :: s.history) =
      callsOf (s₀.stream slot).request.address s₀.history ++ (calls ++ [callback]) := by
    rw [callsOf_called hcallback, h.calls, List.append_assoc]
  have hrecorded := h.recorded hcallback.1 hcalls
  exact hrecorded.served (call_served service callback hn) (call_settles service callback hn hrecorded.settles)

/-- The stream of the message is entered for a block. -/
theorem enter (h : Handles n slot s₀ s core calls) : Handles n slot s₀ (s.enter slot) core calls := by
  unfold Http2Connection.enter
  split
  · exact h.setHandler.quiet fun _ => activate_served
  · exact h.quiet fun _ => activate_served

/-- The headers of a block of the message end. -/
theorem leave (h : Handles n slot s₀ s core calls) (service : Service) :
    Handles n slot s₀ (s.leave service slot core.headersComplete) { core with headersComplete := true }
      (calls ++ core.leaveCalls) := by
  have haddress : (s.stream slot).request.address = core.request.address := congrArg HttpRequest.address h.request_eq
  have hclose : ∀ t calls', Handles n slot s₀ t { core with headersComplete := true } calls' →
      Handles n slot s₀
        (if ((t.modifyStream slot fun stream => { stream with handler := t.handler }).stream slot).endStream then
          (t.modifyStream slot fun stream => { stream with handler := t.handler }).call service
            (.messageComplete core.request.address)
        else t.modifyStream slot fun stream => { stream with handler := t.handler })
        { core with headersComplete := true }
        (calls' ++ if core.endStream then [.messageComplete core.request.address] else []) := by
    intro t calls' ht
    have hkept := ht.quiet (fun _ => .modify rfl (.refl _) : ∀ m, Served m t (t.modifyStream slot fun stream =>
      { stream with handler := t.handler }))
    have hend : ((t.modifyStream slot fun stream => { stream with handler := t.handler }).stream slot).endStream =
        core.endStream := congrArg StreamCore.endStream hkept.mine
    rw [hend]
    by_cases hended : core.endStream = true
    · rw [if_pos hended, if_pos hended]
      exact hkept.call service (.messageComplete core.request.address) ⟨rfl, by simp, by simp⟩
    · rw [if_neg hended, if_neg hended, List.append_nil]
      exact hkept
  unfold Http2Connection.leave StreamCore.leaveCalls
  simp only [haddress]
  by_cases hcomplete : core.headersComplete = true
  · simp only [if_pos hcomplete, List.nil_append]
    have hsame : { core with headersComplete := true } = core := by rw [← hcomplete]
    exact hclose s calls (hsame.symm ▸ h)
  · simp only [if_neg hcomplete]
    rw [← List.append_assoc]
    have hedit : Handles n slot s₀ (s.modifyStream slot fun stream => { stream with headersComplete := true })
        { core with headersComplete := true } calls :=
      h.change (fun core => { core with headersComplete := true }) (fun _ => rfl) rfl rfl fun _ => .inl ⟨rfl, rfl⟩
    exact hclose _ _ (hedit.call service (.headersComplete core.request.address) ⟨rfl, by simp, by simp⟩)

end Handles

/-! ## Blocks -/

end Http2Connection

namespace Intake

variable {fields : List HpackHeader} {i : Intake}

/-- A block whose fields are all accepted ends with the pseudo headers being handed over. -/
theorem finish_of_headers (h : (i.headers fields).1 = true) : i.finish fields = (i.headers fields).2.pseudo := by
  unfold finish
  generalize i.headers fields = result at h ⊢
  obtain ⟨accepted, j⟩ := result
  cases h
  rfl

theorem finish_of_refused (h : (i.headers fields).1 = false) : (i.finish fields).1 = false := by
  unfold finish
  generalize i.headers fields = result at h ⊢
  obtain ⟨accepted, j⟩ := result
  cases h
  rfl

/-- A pseudo header that is missing leaves the message as it is. -/
theorem pseudo_of_missing (h : i.pseudo.1 = false) :
    i.pseudo.2 = { i with block := { i.block with flushed := true } } := by
  unfold pseudo at h ⊢
  by_cases hflushed : i.block.flushed = true
  · rw [if_pos hflushed] at h
    cases h
  · rw [if_neg hflushed] at h ⊢
    by_cases htrailers : i.block.trailers = true
    · rw [if_pos htrailers] at h
      cases h
    · rw [if_neg htrailers] at h ⊢
      by_cases hrequired : i.block.pseudo &&& http2PseudoRequired ≠ http2PseudoRequired
      · rw [if_pos hrequired]
      · rw [if_neg hrequired] at h
        cases h

end Intake

namespace Http2Connection

/-- The session mirrors an intake, after some calls. -/
structure Mirrors (n slot : Nat) (s₀ : Http2Connection) (core : StreamCore) (earlier : List Callback)
    (p : Http2Connection × Http2Block) (i : Intake) : Prop where
  handles : Handles n slot s₀ p.1 (core.taking i) (earlier ++ i.calls)
  block : p.2 = i.block

namespace Mirrors

variable {n slot : Nat} {s₀ : Http2Connection} {core : StreamCore} {earlier : List Callback}
  {p : Http2Connection × Http2Block} {i : Intake} {service : Service}

theorem request_eq (h : Mirrors n slot s₀ core earlier p i) : (p.1.stream slot).request = i.request :=
  h.handles.request_eq

theorem length_eq (h : Mirrors n slot s₀ core earlier p i) : (p.1.stream slot).contentLength = i.contentLength :=
  congrArg StreamCore.contentLength h.handles.mine

theorem announced_eq (h : Mirrors n slot s₀ core earlier p i) : (p.1.stream slot).announced = i.announced :=
  congrArg StreamCore.announced h.handles.mine

theorem pseudo (h : Mirrors n slot s₀ core earlier p i) :
    wp (pseudoHttp2 service slot) (fun _ p => i.pseudo.1 = true ∧ Mirrors n slot s₀ core earlier p i.pseudo.2)
      (fun _ p => i.pseudo.1 = false ∧ Mirrors n slot s₀ core earlier p i.pseudo.2) p := by
  obtain ⟨s, block⟩ := p
  obtain ⟨hhandles, rfl⟩ := h
  have hrequest : (s.stream slot).request = i.request := hhandles.request_eq
  unfold pseudoHttp2 Intake.pseudo
  simp only [wp_bind, wp_get, wp_ite, wp_set, wp_refuseIf, wp_pure]
  by_cases hflushed : i.block.flushed = true
  · rw [if_pos hflushed, if_pos hflushed]
    exact ⟨rfl, hhandles, rfl⟩
  · rw [if_neg hflushed, if_neg hflushed]
    by_cases htrailers : i.block.trailers = true
    · rw [if_pos htrailers, if_pos htrailers]
      exact ⟨rfl, hhandles, rfl⟩
    · rw [if_neg htrailers, if_neg htrailers]
      by_cases hrequired : i.block.pseudo &&& http2PseudoRequired ≠ http2PseudoRequired
      · rw [if_pos hrequired, if_pos hrequired]
        exact ⟨rfl, hhandles, rfl⟩
      · rw [if_neg hrequired, if_neg hrequired, hrequest]
        have hurl := hhandles.call service (.url i.request.address i.request.path) ⟨rfl, by simp, by simp⟩
        by_cases hauthority : cString i.request.authority ≠ []
        · simp only [if_pos hauthority, Intake.pseudoCalls]
          have hfield := hurl.call service (.headerField i.request.address (bytes "Host")) ⟨rfl, by simp, by simp⟩
          have hvalue := hfield.call service (.headerValue i.request.address (cString i.request.authority))
            ⟨rfl, by simp, by simp⟩
          simp only [List.append_assoc, List.cons_append, List.nil_append] at hvalue
          exact ⟨trivial, hvalue, rfl⟩
        · simp only [if_neg hauthority, Intake.pseudoCalls]
          rw [List.append_assoc] at hurl
          exact ⟨trivial, hurl, rfl⟩

/-- The stream takes over what an intake has made of its message. -/
theorem take (h : Mirrors n slot s₀ core earlier p i) (i' : Intake) (f : Http2Stream → Http2Stream)
    (hcore : (f (p.1.stream slot)).core = (p.1.stream slot).core.taking i') (haddress : i'.request.address = i.request.address)
    (hstate : (f (p.1.stream slot)).state = (p.1.stream slot).state) (hcalls : i'.calls = i.calls) :
    Mirrors n slot s₀ core earlier (p.1.modifyStream slot f, i'.block) i' :=
  ⟨hcalls ▸ h.handles.edit (hcore.trans (congrArg (·.taking i') h.handles.mine)) haddress rfl (.inl ⟨hstate ▸ .refl _, rfl⟩), rfl⟩

theorem pseudoHeader (h : Mirrors n slot s₀ core earlier p i) (header : HpackHeader) :
    wp (Http2Connection.pseudoHeader slot header)
      (fun _ p => (i.pseudoHeader header).1 = true ∧ Mirrors n slot s₀ core earlier p (i.pseudoHeader header).2)
      (fun _ p => (i.pseudoHeader header).1 = false ∧ Mirrors n slot s₀ core earlier p (i.pseudoHeader header).2) p := by
  obtain ⟨s, block⟩ := p
  obtain rfl := h.block
  unfold Http2Connection.pseudoHeader Intake.pseudoHeader
  simp only [wp_bind, wp_get, wp_set, wp_refuseIf]
  by_cases hregular : i.block.regular = true
  · rw [if_pos hregular, if_pos hregular]
    exact ⟨rfl, h⟩
  · rw [if_neg hregular, if_neg hregular]
    by_cases htrailers : i.block.trailers = true
    · rw [if_pos htrailers, if_pos htrailers]
      exact ⟨rfl, h⟩
    · rw [if_neg htrailers, if_neg htrailers, h.request_eq]
      have htake : Mirrors n slot s₀ core earlier (s.modifyStream slot fun stream =>
          { stream with request := (gatherPseudo header i.block.pseudo i.request).2.1 },
          { i.block with pseudo := (gatherPseudo header i.block.pseudo i.request).1 })
          { i with
            block := { i.block with pseudo := (gatherPseudo header i.block.pseudo i.request).1 }
            request := (gatherPseudo header i.block.pseudo i.request).2.1 } := by
        refine h.take { i with
          block := { i.block with pseudo := (gatherPseudo header i.block.pseudo i.request).1 }
          request := (gatherPseudo header i.block.pseudo i.request).2.1 } _ ?_
          (gatherPseudo_address header i.block.pseudo i.request) rfl rfl
        simp only [StreamCore.taking, ← h.length_eq, ← h.announced_eq]
        rfl
      cases herror : (gatherPseudo header i.block.pseudo i.request).2.2 with
      | none => exact ⟨rfl, htake⟩
      | some e => exact ⟨rfl, htake⟩

theorem contentLength (h : Mirrors n slot s₀ core earlier p i) (header : HpackHeader) :
    wp (Http2Connection.contentLength slot header)
      (fun _ p => (i.contentLengthHeader header).1 = true ∧
        Mirrors n slot s₀ core earlier p (i.contentLengthHeader header).2)
      (fun _ p => (i.contentLengthHeader header).1 = false ∧
        Mirrors n slot s₀ core earlier p (i.contentLengthHeader header).2) p := by
  obtain ⟨s, block⟩ := p
  obtain rfl := h.block
  unfold Http2Connection.contentLength Intake.contentLengthHeader
  simp only [wp_ite, wp_bind, wp_get, wp_set, wp_refuseIf, wp_modify, wp_pure]
  by_cases hname : header.name = bytes "content-length"
  · rw [if_pos hname, if_pos hname]
    have hlength : Mirrors n slot s₀ core earlier (s.modifyStream slot fun stream =>
        { stream with contentLength := (gatherLength 0 header.value).1 }, i.block)
        { i with contentLength := (gatherLength 0 header.value).1 } := by
      refine h.take { i with contentLength := (gatherLength 0 header.value).1 } _ ?_ rfl rfl rfl
      simp only [StreamCore.taking, ← h.request_eq, ← h.announced_eq]
      rfl
    cases hdigits : (gatherLength 0 header.value).2 with
    | false => exact ⟨rfl, hlength⟩
    | true =>
        have hannounce : ∀ t : Http2Connection, Mirrors n slot s₀ core earlier (t, i.block)
            { i with contentLength := (gatherLength 0 header.value).1 } →
            Mirrors n slot s₀ core earlier (t.modifyStream slot fun stream => { stream with announced := true }, i.block)
              { i with contentLength := (gatherLength 0 header.value).1, announced := true } := by
          intro t ht
          have hr : (t.stream slot).request = i.request := ht.request_eq
          have hl : (t.stream slot).contentLength = (gatherLength 0 header.value).1 := ht.length_eq
          refine ht.take { i with contentLength := (gatherLength 0 header.value).1, announced := true } _ ?_ rfl rfl rfl
          simp only [Http2Stream.core, StreamCore.taking, hr, hl]
        exact ⟨rfl, hannounce _ hlength⟩
  · rw [if_neg hname, if_neg hname]
    exact ⟨rfl, h⟩

theorem takeHeader (h : Mirrors n slot s₀ core earlier p i) (header : HpackHeader) :
    wp (Http2Connection.takeHeader service slot header)
      (fun _ p => (i.takeHeader header).1 = true ∧ Mirrors n slot s₀ core earlier p (i.takeHeader header).2)
      (fun _ p => (i.takeHeader header).1 = false ∧ Mirrors n slot s₀ core earlier p (i.takeHeader header).2) p := by
  obtain ⟨s, block⟩ := p
  obtain rfl := h.block
  have hregular : Mirrors n slot s₀ core earlier (s, { i.block with regular := true })
      { i with block := { i.block with regular := true } } := ⟨h.handles, rfl⟩
  unfold Http2Connection.takeHeader Intake.takeHeader
  simp only [wp_bind, wp_modify, wp_refuseIf]
  by_cases hallows : Intake.allowsHeader header = true
  · have hall := hallows
    simp only [Intake.allowsHeader, decide_eq_true_eq] at hall
    obtain ⟨hlower, hverify, hconnection, hte⟩ := hall
    rw [if_neg (by rw [hlower]; decide), if_neg (by simp [hverify]), if_neg hconnection, if_neg hte,
      if_neg (by simp [hallows])]
    refine (hregular.contentLength header).mono ?_ ?_
    · rintro - ⟨t, block⟩ ⟨hok, ht⟩
      generalize Intake.contentLengthHeader header { i with block := { i.block with regular := true } } = result at hok ht
      obtain ⟨accepted, j⟩ := result
      simp only at hok ht
      subst hok
      have hrequest : (t.stream slot).request = j.request := ht.request_eq
      simp only [hrequest]
      have hfield := ht.handles.call service (.headerField j.request.address header.name) ⟨rfl, by simp, by simp⟩
      have hvalue := hfield.call service (.headerValue j.request.address header.value) ⟨rfl, by simp, by simp⟩
      simp only [List.append_assoc, List.cons_append, List.nil_append] at hvalue
      exact ⟨trivial, hvalue, ht.block⟩
    · rintro e ⟨t, block⟩ ⟨hok, ht⟩
      generalize Intake.contentLengthHeader header { i with block := { i.block with regular := true } } = result at hok ht
      obtain ⟨accepted, j⟩ := result
      simp only at hok ht
      subst hok
      exact ⟨rfl, ht⟩
  · have hrefused : Intake.allowsHeader header = false := by simpa using hallows
    rw [if_pos hrefused]
    have hcases : ¬ ((header.name.any fun b => 0x41 ≤ b ∧ b ≤ 0x5a) = false ∧ verifyHeaderHttp2 header = true ∧
        ¬ (header.name = bytes "connection" ∨ header.name = bytes "keep-alive" ∨ header.name = bytes "upgrade" ∨
          header.name = bytes "transfer-encoding") ∧
        ¬ (header.name = bytes "te" ∧ header.value ≠ bytes "trailers")) := by
      simpa only [Intake.allowsHeader, decide_eq_false_iff_not] using hrefused
    by_cases hlower : (header.name.any fun b => 0x41 ≤ b ∧ b ≤ 0x5a) = true
    · rw [if_pos hlower]
      exact ⟨rfl, hregular⟩
    · rw [if_neg hlower]
      by_cases hverify : verifyHeaderHttp2 header = false
      · rw [if_pos hverify]
        exact ⟨rfl, hregular⟩
      · rw [if_neg hverify]
        by_cases hconnection : header.name = bytes "connection" ∨ header.name = bytes "keep-alive" ∨
            header.name = bytes "upgrade" ∨ header.name = bytes "transfer-encoding"
        · rw [if_pos hconnection]
          exact ⟨rfl, hregular⟩
        · rw [if_neg hconnection]
          by_cases hte : header.name = bytes "te" ∧ header.value ≠ bytes "trailers"
          · rw [if_pos hte]
            exact ⟨rfl, hregular⟩
          · exact absurd ⟨by simpa using hlower, by simpa using hverify, hconnection, hte⟩ hcases

theorem regularHeader (h : Mirrors n slot s₀ core earlier p i) (header : HpackHeader) :
    wp (Http2Connection.regularHeader service slot header)
      (fun _ p => (i.regularHeader header).1 = true ∧ Mirrors n slot s₀ core earlier p (i.regularHeader header).2)
      (fun _ p => (i.regularHeader header).1 = false ∧ Mirrors n slot s₀ core earlier p (i.regularHeader header).2)
      p := by
  obtain ⟨s, block⟩ := p
  obtain rfl := h.block
  unfold Http2Connection.regularHeader Intake.regularHeader
  simp only [wp_bind, wp_get, wp_ite, wp_pure]
  by_cases hregular : i.block.regular = true
  · rw [if_pos hregular, if_pos hregular]
    exact h.takeHeader header
  · rw [if_neg hregular, if_neg hregular]
    refine h.pseudo.mono ?_ ?_
    · rintro - t ⟨hok, ht⟩
      generalize i.pseudo = result at hok ht
      obtain ⟨accepted, j⟩ := result
      simp only at hok ht
      subst hok
      exact ht.takeHeader header
    · rintro - t ⟨hok, ht⟩
      generalize i.pseudo = result at hok ht
      obtain ⟨accepted, j⟩ := result
      simp only at hok ht
      subst hok
      exact ⟨rfl, ht⟩

theorem headerHttp2 (h : Mirrors n slot s₀ core earlier p i) (header : HpackHeader) :
    wp (Http2Connection.headerHttp2 service slot header)
      (fun _ p => (i.header header).1 = true ∧ Mirrors n slot s₀ core earlier p (i.header header).2)
      (fun _ p => (i.header header).1 = false ∧ Mirrors n slot s₀ core earlier p (i.header header).2) p := by
  unfold Http2Connection.headerHttp2 Intake.header
  by_cases hpseudo : header.name.head? = some 0x3a
  · rw [if_pos hpseudo, if_pos hpseudo]
    exact h.pseudoHeader header
  · rw [if_neg hpseudo, if_neg hpseudo]
    exact h.regularHeader header

/-- The fields of a block are handed to the session one after the other. -/
theorem feed (h : Mirrors n slot s₀ core earlier p i) (service : Service) (fields : List HpackHeader) :
    wp (Viriatum.feed (Http2Connection.headerHttp2 service slot) fields)
      (fun _ p => (i.headers fields).1 = true ∧ Mirrors n slot s₀ core earlier p (i.headers fields).2)
      (fun _ p => (i.headers fields).1 = false ∧ Mirrors n slot s₀ core earlier p (i.headers fields).2) p := by
  induction fields generalizing i p with
  | nil => exact ⟨rfl, h⟩
  | cons field fields ih =>
      simp only [Viriatum.feed, Intake.headers, wp_bind]
      refine (h.headerHttp2 field).mono ?_ ?_
      · rintro - t ⟨hok, ht⟩
        generalize i.header field = result at hok ht
        obtain ⟨accepted, j⟩ := result
        simp only at hok ht
        subst hok
        exact ih ht
      · rintro - t ⟨hok, ht⟩
        generalize i.header field = result at hok ht
        obtain ⟨accepted, j⟩ := result
        simp only at hok ht
        subst hok
        exact ⟨rfl, ht⟩

theorem decodeBlock {s : Http2Connection} {data : Bytes} {block : Http2Block} {result : Except HpackError Bytes}
    {table : HpackTable} {fields : List HpackHeader} (h : Mirrors n slot s₀ core earlier (s, block) i)
    (hread : (decodeRepresentations Viriatum.record id data.length 0 false data).run (s.decoder, []) =
      (result, (table, fields))) :
    wp (Http2Connection.decodeBlock (Http2Connection.headerHttp2 service slot) data block)
      (fun block s => (∃ rest, result = .ok rest) ∧ (i.headers fields).1 = true ∧
        Mirrors n slot s₀ core earlier (s, block) (i.headers fields).2)
      (fun _ s => ((∀ rest, result ≠ .ok rest) ∨ (i.headers fields).1 = false) ∧
        ∃ block, Mirrors n slot s₀ core earlier (s, block) (i.headers fields).2) s := by
  obtain ⟨result', table', headers, hpure, hfeeds⟩ := exists_feeds s.decoder data.length 0 false data
  have heq := (hpure []).symm.trans hread
  simp only [List.nil_append] at heq
  obtain ⟨rfl, rfl, rfl⟩ := heq
  have hboth := (h.feed service fields).and (hfeeds (Http2Connection.headerHttp2 service slot)
    (fun _ => Http2Error.compressionError) (s, block))
  unfold wp at hboth ⊢
  have hrun : ∀ result'' decoder' t block'', (decodeHpack (Http2Connection.headerHttp2 service slot)
      (fun _ => Http2Error.compressionError) data).run (s.decoder, (s, block)) = (result'', (decoder', (t, block''))) →
      (Http2Connection.decodeBlock (Http2Connection.headerHttp2 service slot) data block).run s =
        match (result'', t) with
        | (.ok _, t) => (.ok block'', { t with decoder := decoder' })
        | (.error _, t) => (.error .compressionError, { t with decoder := decoder' }) := by
    intro result'' decoder' t block'' heq
    unfold Http2Connection.decodeBlock
    simp only [ExceptT.run] at heq ⊢
    rw [heq]
    cases result'' <;> rfl
  generalize hfed : (Viriatum.feed (Http2Connection.headerHttp2 service slot) fields).run (s, block) = fed at hboth
  obtain ⟨⟨⟩ | ⟨⟩, t, block''⟩ := fed
  · obtain ⟨⟨hrefused, ht⟩, table'', hread'⟩ := hboth
    rw [hrun _ _ _ _ hread']
    exact ⟨.inr hrefused, block'', ht.handles.account table'' t.receiveWindow, ht.block⟩
  · obtain ⟨⟨haccepted, ht⟩, hread'⟩ := hboth
    rw [hrun _ _ _ _ hread']
    cases hresult : result with
    | error e => exact ⟨.inl (by simp), block'', ht.handles.account table t.receiveWindow, ht.block⟩
    | ok rest => exact ⟨⟨rest, rfl⟩, haccepted, ht.handles.account table t.receiveWindow, ht.block⟩

end Mirrors

/-- The handling of a block. -/
theorem wp_blockHttp2 {n slot : Nat} {s : Http2Connection} {service : Service} {data : Bytes}
    {result : Except HpackError Bytes} {table : HpackTable} {fields : List HpackHeader} (hslot : slot < s.count)
    (hn : n ≤ s.nextAddress) (hknown : (s.stream slot).request.address < n) (hsettles : Settles n s.count s)
    (hread : (decodeRepresentations Viriatum.record id data.length 0 false data).run (s.decoder, []) =
      (result, (table, fields))) :
    wp (blockHttp2 service slot data)
      (fun _ s' => (∃ rest, result = .ok rest) ∧ ((s.stream slot).core.intake.finish fields).1 = true ∧
        Handles n slot s s'
          { (s.stream slot).core.taking ((s.stream slot).core.intake.finish fields).2 with headersComplete := true }
          (((s.stream slot).core.intake.finish fields).2.calls ++
            ((s.stream slot).core.taking ((s.stream slot).core.intake.finish fields).2).leaveCalls))
      (fun _ s' => ((∀ rest, result ≠ .ok rest) ∨ ((s.stream slot).core.intake.finish fields).1 = false) ∧
        Handles n slot s s' ((s.stream slot).core.taking ((s.stream slot).core.intake.headers fields).2)
          ((s.stream slot).core.intake.headers fields).2.calls) s := by
  have henter : Handles n slot s (s.enter slot) (s.stream slot).core [] := (Handles.refl hslot hn hknown hsettles).enter
  have hdecoder : (s.enter slot).decoder = s.decoder := by
    unfold Http2Connection.enter
    split <;> rfl
  unfold blockHttp2
  simp only [wp_bind, wp_get, wp_set]
  have hbegun : Mirrors n slot s (s.stream slot).core [] (if (s.stream slot).headersComplete then s.enter slot
      else (s.enter slot).call service (.messageBegin ((s.enter slot).stream slot).request.address),
      { trailers := (s.stream slot).headersComplete }) (s.stream slot).core.intake := by
    by_cases htrailers : (s.stream slot).headersComplete = true
    · rw [if_pos htrailers]
      refine ⟨?_, rfl⟩
      rw [StreamCore.intake, if_pos (show (s.stream slot).core.headersComplete = true from htrailers)]
      exact henter
    · have haddress : ((s.enter slot).stream slot).request.address = (s.stream slot).request.address :=
        congrArg HttpRequest.address henter.request_eq
      rw [if_neg htrailers, haddress]
      refine ⟨?_, rfl⟩
      rw [StreamCore.intake, if_neg (show ¬ (s.stream slot).core.headersComplete = true from htrailers)]
      exact henter.call service (.messageBegin (s.stream slot).request.address) ⟨rfl, by simp, by simp⟩
  have hsame : (if (s.stream slot).headersComplete then s.enter slot
      else (s.enter slot).call service (.messageBegin ((s.enter slot).stream slot).request.address)).decoder =
      s.decoder := by
    split
    · exact hdecoder
    · exact (congrArg SessionCore.decoder (call_served service (n := n) _ (Nat.le_trans hn henter.nextAddress)).core).trans
        hdecoder
  generalize (if (s.stream slot).headersComplete then s.enter slot
      else (s.enter slot).call service (.messageBegin ((s.enter slot).stream slot).request.address)) = t at hbegun hsame ⊢
  rw [← hsame] at hread
  refine (hbegun.decodeBlock hread).mono ?_ ?_
  · rintro block u ⟨hok, haccepted, hu⟩
    simp only [wp_withLocal, wp_modify]
    rw [Intake.finish_of_headers haccepted]
    refine hu.pseudo.mono ?_ ?_
    · rintro - ⟨t', block'⟩ ⟨hcomplete, ht'⟩
      exact ⟨hok, hcomplete, ht'.handles.leave service⟩
    · rintro - ⟨t', block'⟩ ⟨hmissing, ht'⟩
      have hhandles := ht'.handles
      rw [Intake.pseudo_of_missing hmissing] at hhandles
      exact ⟨.inr hmissing, hhandles⟩
  · rintro e u ⟨hrefused, block, hu⟩
    exact ⟨hrefused.imp_right Intake.finish_of_refused, hu.handles⟩

end Http2Connection

end Viriatum
