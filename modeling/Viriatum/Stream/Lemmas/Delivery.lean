import Viriatum.Stream.Lemmas.Intake

/-!
# The handling of payload

A frame of payload is handed to the message of its stream, and ends it when it is the last one.
-/

namespace Viriatum

open Library Effect

/-- The core of a stream after a frame of payload. -/
def StreamCore.fed (core : StreamCore) (length : Nat) (last : Bool) : StreamCore :=
  { core with received := core.received + length, endStream := core.endStream || last }

/-- The calls that a frame of payload brings about. -/
def StreamCore.fedCalls (core : StreamCore) (payload : Bytes) : List Callback :=
  if payload = [] then [] else [.body core.request.address payload]

namespace Http2Connection

variable {n slot : Nat} {s₀ s : Http2Connection} {core : StreamCore} {calls : List Callback} {service : Service}

namespace Handles

/-- An event that is neither a call nor a reset is recorded, and the writes of the connection change. -/
theorem wrote (h : Handles n slot s₀ s core calls) {type : Http2FrameType} (streamId value : Nat)
    (ht : type ≠ .rstStream ∧ type ≠ .goaway) : Handles n slot s₀ (writeValue type streamId value s) core calls := by
  refine h.quiet fun m => queueFrames_served _ fun frame hframe => ?_
  rw [List.mem_singleton.mp hframe]
  exact ht

/-- The windows are widened again. -/
theorem widen (h : Handles n slot s₀ s core calls) (frame : Http2Frame) :
    Handles n slot s₀ (s.widen slot frame)
      { core with receiveWindow := core.receiveWindow + frame.length } calls := by
  unfold Http2Connection.widen
  by_cases hlength : frame.length > 0
  · rw [if_pos hlength]
    have hne : Http2FrameType.windowUpdate ≠ .rstStream ∧ Http2FrameType.windowUpdate ≠ .goaway := by simp
    have hconnection := h.wrote 0 frame.length hne
    have haccount := hconnection.account (writeValue .windowUpdate 0 frame.length s).decoder
      ((writeValue .windowUpdate 0 frame.length s).receiveWindow + frame.length)
    have hstream := haccount.wrote frame.streamId frame.length hne
    exact hstream.change (fun core => { core with receiveWindow := core.receiveWindow + frame.length }) (fun _ => rfl) rfl rfl
      fun _ => .inl ⟨rfl, rfl⟩
  · rw [if_neg hlength]
    have hzero : frame.length = 0 := by omega
    have hsame : { core with receiveWindow := core.receiveWindow + (frame.length : Int) } = core := by
      simp [hzero]
    exact hsame.symm ▸ h

/-- The peer closes its side of the stream. -/
theorem closeRemote (h : Handles n slot s₀ s core calls) :
    Handles n slot s₀ (s.closeRemote slot) { core with endStream := true } calls :=
  h.change (fun core => { core with endStream := true }) (fun _ => rfl) rfl rfl fun _ => .inr rfl

end Handles

/-- The calls neither end the headers of a message nor the message. -/
def Unended (calls : List Callback) : Prop :=
  ∀ callback ∈ calls, ∀ a, callback ≠ .headersComplete a ∧ callback ≠ .messageComplete a

theorem unended_fedCalls (core : StreamCore) (payload : Bytes) : Unended (core.fedCalls payload) := by
  intro callback hmem a
  unfold StreamCore.fedCalls at hmem
  split at hmem
  · cases hmem
  · rw [List.mem_singleton.mp hmem]
    simp

/-- The handling of a frame of payload. -/
theorem wp_handleData (frame : Http2Frame) (hslot : slot < s.count) (hn : n ≤ s.nextAddress)
    (hknown : (s.stream slot).request.address < n) (hsettles : Settles n s.count s) :
    wp (handleData service frame slot)
      (fun _ s' => ∃ payload, stripPaddingHttp2 frame = .ok payload ∧
        Handles n slot s s' ((s.stream slot).core.fed payload.length (frame.has http2FlagEndStream))
          ((s.stream slot).core.fedCalls payload ++
            if frame.has http2FlagEndStream then [.messageComplete (s.stream slot).request.address] else []) ∧
        (frame.has http2FlagEndStream = true → (s.stream slot).announced = true →
          (s.stream slot).received + payload.length = (s.stream slot).contentLength))
      (fun _ s' => ∃ core calls, Handles n slot s s' core calls ∧ Unended calls) s := by
  have hstart : Handles n slot s s (s.stream slot).core [] := .refl hslot hn hknown hsettles
  have hdebit : Handles n slot s (s.modifyStream slot fun stream =>
      { stream with receiveWindow := stream.receiveWindow - frame.length })
      { (s.stream slot).core with receiveWindow := (s.stream slot).core.receiveWindow - frame.length } [] :=
    hstart.change (fun core => { core with receiveWindow := core.receiveWindow - frame.length }) (fun _ => rfl) rfl rfl
      fun _ => .inl ⟨rfl, rfl⟩
  have hnone : Unended [] := fun callback hmem => by cases hmem
  unfold handleData
  simp only [wp_bind, wp_modify, wp_get, wp_refuseIf]
  generalize (s.modifyStream slot fun stream =>
      { stream with receiveWindow := stream.receiveWindow - frame.length }) = t at hdebit ⊢
  split
  case isTrue => exact ⟨_, _, hdebit, hnone⟩
  case isFalse =>
    split
    case h_1 => exact ⟨_, _, hdebit, hnone⟩
    case h_2 payload hstrip =>
      have haddress : (t.stream slot).request.address = (s.stream slot).request.address :=
        congrArg HttpRequest.address hdebit.request_eq
      simp only [wp_bind, wp_set, wp_ite, wp_modify, wp_get, wp_refuseIf, wp_pure, haddress]
      have hcounted : Handles n slot s (t.modifyStream slot fun stream =>
          { stream with received := stream.received + payload.length })
          { (s.stream slot).core with
            receiveWindow := (s.stream slot).core.receiveWindow - frame.length
            received := (s.stream slot).core.received + payload.length } [] :=
        hdebit.change (fun core => { core with received := core.received + payload.length }) (fun _ => rfl) rfl rfl
          fun _ => .inl ⟨rfl, rfl⟩
      have hreceived : Handles n slot s ((t.modifyStream slot fun stream =>
          { stream with received := stream.received + payload.length }).activate slot) _ [] :=
        hcounted.quiet fun _ => activate_served
      generalize ((t.modifyStream slot fun stream =>
          { stream with received := stream.received + payload.length }).activate slot) = u at hreceived ⊢
      have hfed : Handles n slot s (if payload.length > 0 then
          u.call service (.body (s.stream slot).request.address payload) else u)
          { (s.stream slot).core with
            receiveWindow := (s.stream slot).core.receiveWindow - frame.length
            received := (s.stream slot).core.received + payload.length } ((s.stream slot).core.fedCalls payload) := by
        unfold StreamCore.fedCalls
        cases payload with
        | nil => exact hreceived
        | cons byte rest =>
            exact hreceived.call service (.body (s.stream slot).request.address (byte :: rest)) ⟨rfl, by simp, by simp⟩
      have hwidened := hfed.widen frame
      simp only [Int.sub_add_cancel] at hwidened
      generalize widen slot frame _ = v at hwidened ⊢
      by_cases hlast : frame.has http2FlagEndStream = true
      · rw [if_pos hlast]
        have hclosed := hwidened.closeRemote
        have hannounced : ((v.closeRemote slot).stream slot).announced = (s.stream slot).announced :=
          congrArg StreamCore.announced hclosed.mine
        have htotal : ((v.closeRemote slot).stream slot).received = (s.stream slot).received + payload.length :=
          congrArg StreamCore.received hclosed.mine
        have hlength : ((v.closeRemote slot).stream slot).contentLength = (s.stream slot).contentLength :=
          congrArg StreamCore.contentLength hclosed.mine
        rw [hannounced, htotal, hlength]
        by_cases hmismatch : (s.stream slot).announced = true ∧
            (s.stream slot).received + payload.length ≠ (s.stream slot).contentLength
        · rw [if_pos hmismatch]
          exact ⟨_, _, hclosed, unended_fedCalls _ _⟩
        · rw [if_neg hmismatch]
          refine ⟨payload, hstrip, ?_, fun _ hann => ?_⟩
          · rw [if_pos hlast]
            have hcore : (s.stream slot).core.fed payload.length (frame.has http2FlagEndStream) =
                { (s.stream slot).core with
                  received := (s.stream slot).core.received + payload.length, endStream := true } := by
              simp [StreamCore.fed, hlast]
            rw [hcore]
            exact hclosed.call service (.messageComplete (s.stream slot).request.address) ⟨rfl, by simp, by simp⟩
          · by_contra hne
            exact hmismatch ⟨hann, hne⟩
      · rw [if_neg hlast]
        refine ⟨payload, hstrip, ?_, fun h => absurd h hlast⟩
        rw [if_neg hlast, List.append_nil]
        have hcore : (s.stream slot).core.fed payload.length (frame.has http2FlagEndStream) =
            { (s.stream slot).core with received := (s.stream slot).core.received + payload.length } := by
          simp [StreamCore.fed, hlast]
        exact hcore ▸ hwidened

end Http2Connection

end Viriatum
