import Viriatum.Python.Websocket

/-!
# What the operations of a websocket do

The frames that are built, and what each operation adds to the record of a websocket.
-/

namespace Viriatum

/-- The first byte of a close frame. -/
def closeByte : UInt8 := 0x88

namespace WebsocketOutput

def isCloseFrame : WebsocketOutput → Bool
  | write data _ => data.head? = some closeByte
  | event _ => false

def isDisconnect : WebsocketOutput → Bool
  | event (.disconnect _) => true
  | _ => false

end WebsocketOutput

open WebsocketOutput

theorem buildFrameWebsocket_eq {opcode : WebsocketOpcode} {fin : Bool} {payload : Bytes}
    (h : payload.length ≤ viriatumWebsocketMaxPayload) :
    buildFrameWebsocket opcode fin payload =
      .ok (((if fin then 0x80 else 0x00) ||| opcode.toByte) :: lengthWebsocket payload.length ++ payload) := by
  simp [buildFrameWebsocket, Nat.not_lt.mpr h]

theorem finByte_eq (opcode : WebsocketOpcode) : (0x80 ||| opcode.toByte = closeByte) = (opcode = .close) := by
  cases opcode <;> decide

theorem head_buildFrameWebsocket {opcode : WebsocketOpcode} {payload data : Bytes}
    (h : buildFrameWebsocket opcode true payload = .ok data) :
    (data.head? = some closeByte) = (opcode = .close) := by
  unfold buildFrameWebsocket at h
  split at h
  · cases h
  · cases h
    simpa using finByte_eq opcode

theorem truncateReason_le (reason : Bytes) (size : Nat) : truncateReason reason size ≤ size := by
  induction size with
  | zero => simp [truncateReason]
  | succ size ih =>
      unfold truncateReason
      split
      · exact Nat.le_succ_of_le ih
      · exact Nat.le_refl _

theorem reasonSizeWebsocket_le (reason : Bytes) : reasonSizeWebsocket reason ≤ viriatumWebsocketMaxControl - 2 := by
  unfold reasonSizeWebsocket
  split
  · exact truncateReason_le _ _
  · omega

/-- A close frame is always built. -/
theorem buildCloseWebsocket_ok (code : UInt16) (reason : Option Bytes) :
    ∃ data, buildCloseWebsocket code reason = .ok data ∧ data.head? = some closeByte := by
  generalize htext : (reason.getD []).takeWhile (· ≠ 0) = text
  have hpayload : ([UInt8.ofNat (code.toNat >>> 8), UInt8.ofNat code.toNat] ++
      text.take (reasonSizeWebsocket text)).length ≤ viriatumWebsocketMaxPayload := by
    have hsize := reasonSizeWebsocket_le text
    simp only [viriatumWebsocketMaxControl, viriatumWebsocketMaxPayload] at hsize ⊢
    simp only [List.length_append, List.length_cons, List.length_nil, List.length_take]
    omega
  simp only [buildCloseWebsocket, htext, buildFrameWebsocket_eq hpayload]
  exact ⟨_, rfl, by simpa using (finByte_eq .close).mpr rfl⟩

/-- The close frame that answers for a code and a reason. -/
def closeFrame (code : UInt16) (reason : Option Bytes) : Bytes :=
  match buildCloseWebsocket code reason with
  | .error _ => []
  | .ok data => data

theorem isCloseFrame_closeFrame (code : UInt16) (reason : Option Bytes) (close : Bool) :
    (write (closeFrame code reason) close).isCloseFrame = true := by
  obtain ⟨data, hdata, hhead⟩ := buildCloseWebsocket_ok code reason
  simp [closeFrame, hdata, isCloseFrame, hhead]

/-- A header that is complete passes the checks. -/
theorem checkFrameWebsocket_of_parse {buffer : Bytes} {header : WebsocketHeader}
    (h : parseHeaderWebsocket buffer = .ok (some header)) :
    checkFrameWebsocket header.fin header.opcode header.payloadSize = none := by
  match buffer with
  | [] => cases h
  | [_] => cases h
  | first :: second :: rest =>
      simp only [parseHeaderWebsocket] at h
      split at h
      case isTrue => cases h
      case isFalse =>
        cases hopcode : WebsocketOpcode.ofByte (first &&& 0x0f) with
        | none => simp [hopcode] at h
        | some opcode =>
            simp only [hopcode] at h
            split at h
            case isTrue => cases h
            case isFalse =>
              split at h
              case h_1 => cases h
              case h_2 => cases h
              case h_3 =>
                split at h
                case h_1 => cases h
                case h_2 hcheck =>
                  simp only [Except.ok.injEq, Option.some.injEq] at h
                  rw [← h]
                  exact hcheck

/-- The payload of a frame that is parsed is small enough to be sent back. -/
theorem payload_parseFrameWebsocket {buffer : Bytes} {frame : WebsocketFrame}
    (h : parseFrameWebsocket buffer = .ok (some frame)) : frame.payload.length ≤ viriatumWebsocketMaxPayload := by
  unfold parseFrameWebsocket at h
  split at h
  case h_1 => cases h
  case h_2 => cases h
  case h_3 fin opcode payloadSize offset hheader =>
    have hsize : payloadSize ≤ viriatumWebsocketMaxPayload := by
      have hcheck := checkFrameWebsocket_of_parse hheader
      unfold checkFrameWebsocket at hcheck
      split at hcheck
      case isTrue => cases hcheck
      case isFalse hsmall => exact Nat.le_of_not_lt hsmall
    split at h
    case isTrue => cases h
    case isFalse =>
      split at h
      case isTrue => cases h
      case isFalse =>
        simp only [Except.ok.injEq, Option.some.injEq] at h
        subst h
        simp only [unmask, List.length_mapIdx, List.length_take]
        exact Nat.le_trans (Nat.min_le_left _ _) hsize

namespace AsgiContext

variable {c : AsgiContext}

theorem closeWebsocketHandlerAsgi_of_closed (h : c.websocketState = .closed) (code : UInt16) (reason : Option Bytes) :
    c.closeWebsocketHandlerAsgi code reason = c := by
  simp [closeWebsocketHandlerAsgi, h]

theorem closeWebsocketHandlerAsgi_of_open (h : c.websocketState ≠ .closed) (code : UInt16) (reason : Option Bytes) :
    c.closeWebsocketHandlerAsgi code reason =
      { c with websocketState := .closed, log := c.log ++ [.write (closeFrame code reason) true] } := by
  obtain ⟨data, hdata, -⟩ := buildCloseWebsocket_ok code reason
  simp [closeWebsocketHandlerAsgi, h, closeFrame, hdata, writeRawHandlerAsgi]

theorem closeWebsocketHandlerAsgi_state (code : UInt16) (reason : Option Bytes) :
    (c.closeWebsocketHandlerAsgi code reason).websocketState = .closed := by
  by_cases h : c.websocketState = .closed
  · rw [closeWebsocketHandlerAsgi_of_closed h, h]
  · rw [closeWebsocketHandlerAsgi_of_open h]

end AsgiContext

end Viriatum
