import Viriatum.Http.HpackTable

/-!
# The frames of a websocket

The frames that a client sends are parsed out of the bytes at hand, and the ones that the server writes are built. A frame
that is not complete gives nothing yet; one that breaks the protocol is told by the message of the error.
-/

namespace Viriatum

def viriatumWebsocketMaxPayload : Nat := 16777216

def viriatumWebsocketMaxControl : Nat := 125

/-- The operation codes of the protocol. The one of a continuation also stands for no message being gathered. -/
inductive WebsocketOpcode where
  | continuation
  | text
  | binary
  | close
  | ping
  | pong
deriving DecidableEq, Repr

namespace WebsocketOpcode

def toByte : WebsocketOpcode → UInt8
  | continuation => 0x0
  | text => 0x1
  | binary => 0x2
  | close => 0x8
  | ping => 0x9
  | pong => 0xa

def all : List WebsocketOpcode := [continuation, text, binary, close, ping, pong]

def ofByte (byte : UInt8) : Option WebsocketOpcode := all.find? fun opcode => opcode.toByte = byte

def isControl (opcode : WebsocketOpcode) : Bool := opcode.toByte &&& 0x08 ≠ 0

end WebsocketOpcode

def websocketCloseNormal : UInt16 := 1000

def websocketCloseProtocol : UInt16 := 1002

def websocketCloseNone : UInt16 := 1005

def websocketCloseInvalid : UInt16 := 1007

def websocketCloseTooLarge : UInt16 := 1009

structure WebsocketFrame where
  fin : Bool
  opcode : WebsocketOpcode
  mask : Bytes
  payload : Bytes
  size : Nat
deriving DecidableEq, Repr

/-- A number in network order. -/
def networkOrder (data : Bytes) : Nat := data.foldl (fun number byte => number * 256 + byte.toNat) 0

/-- The size of a payload, from the second byte of a frame and the bytes after it, with the number of the latter that it
takes. -/
def payloadSizeWebsocket (second : UInt8) (rest : Bytes) : Except String (Option (Nat × Nat)) :=
  let payloadSize := (second &&& 0x7f).toNat
  if payloadSize = 126 then
    if rest.length < 2 then .ok none
    else
      let payloadSize := networkOrder (rest.take 2)
      if payloadSize < 126 then .error "Length is not minimally encoded" else .ok (some (payloadSize, 2))
  else if payloadSize = 127 then
    if rest.length < 8 then .ok none
    else
      let payloadSize := networkOrder (rest.take 8)
      if payloadSize ≤ 65535 then .error "Length is not minimally encoded" else .ok (some (payloadSize, 8))
  else .ok (some (payloadSize, 0))

/-- What is wrong with a frame whose header tells the size of its payload. -/
def checkFrameWebsocket (fin : Bool) (opcode : WebsocketOpcode) (payloadSize : Nat) : Option String :=
  if payloadSize > viriatumWebsocketMaxPayload then some "Frame payload is too large"
  else if opcode.isControl then
    if fin = false then some "Received a fragmented control frame"
    else if payloadSize > viriatumWebsocketMaxControl then some "Control frame payload is too large"
    else none
  else none

def unmask (mask payload : Bytes) : Bytes := payload.mapIdx fun i byte => byte ^^^ mask.getD (i % 4) 0

structure WebsocketHeader where
  fin : Bool
  opcode : WebsocketOpcode
  payloadSize : Nat
  /-- Where the mask of the frame begins. -/
  offset : Nat
deriving DecidableEq, Repr

def parseHeaderWebsocket : Bytes → Except String (Option WebsocketHeader)
  | first :: second :: rest =>
      let fin := first &&& 0x80 ≠ 0
      if first &&& 0x70 ≠ 0 then .error "Reserved bits are set in the frame"
      else
        match WebsocketOpcode.ofByte (first &&& 0x0f) with
        | none => .error "Unknown opcode in the frame"
        | some opcode =>
            if second &&& 0x80 = 0 then .error "Received an unmasked frame from the client"
            else
              match payloadSizeWebsocket second rest with
              | .error message => .error message
              | .ok none => .ok none
              | .ok (some (payloadSize, extended)) =>
                  match checkFrameWebsocket fin opcode payloadSize with
                  | some message => .error message
                  | none => .ok (some ⟨fin, opcode, payloadSize, 2 + extended⟩)
  | _ => .ok none

/-- The payload is unmasked where it stands, in the part of the buffer that the frame takes. -/
def parseFrameWebsocket (buffer : Bytes) : Except String (Option WebsocketFrame) :=
  match parseHeaderWebsocket buffer with
  | .error message => .error message
  | .ok none => .ok none
  | .ok (some ⟨fin, opcode, payloadSize, offset⟩) =>
      if buffer.length < offset + 4 then .ok none
      else if buffer.length < offset + 4 + payloadSize then .ok none
      else
        let mask := (buffer.drop offset).take 4
        let payload := (buffer.drop (offset + 4)).take payloadSize
        .ok (some ⟨fin, opcode, mask, unmask mask payload, offset + 4 + payloadSize⟩)

/-- The length of a payload, in the smallest of its variants. -/
def lengthWebsocket (size : Nat) : Bytes :=
  if size > 65535 then 127 :: (List.range 8).map fun i => UInt8.ofNat (size >>> ((7 - i) * 8))
  else if size > 125 then [126, UInt8.ofNat (size >>> 8), UInt8.ofNat size]
  else [UInt8.ofNat size]

def buildFrameWebsocket (opcode : WebsocketOpcode) (fin : Bool) (payload : Bytes) : Except String Bytes :=
  if payload.length > viriatumWebsocketMaxPayload then .error "Frame payload is too large"
  else .ok (((if fin then 0x80 else 0x00) ||| opcode.toByte) :: lengthWebsocket payload.length ++ payload)

/-- The size that a reason is cut at: the one that a control frame has room for, less the bytes of a code point that would
be cut. -/
def truncateReason (reason : Bytes) : Nat → Nat
  | 0 => 0
  | size + 1 => if reason.getD (size + 1) 0 &&& 0xc0 = 0x80 then truncateReason reason size else size + 1

def reasonSizeWebsocket (reason : Bytes) : Nat :=
  if reason.length > viriatumWebsocketMaxControl - 2 then truncateReason reason (viriatumWebsocketMaxControl - 2)
  else reason.length

/-- The reason ends at its first zero byte. -/
def buildCloseWebsocket (code : UInt16) (reason : Option Bytes) : Except String Bytes :=
  let reason := (reason.getD []).takeWhile (· ≠ 0)
  buildFrameWebsocket .close true ([UInt8.ofNat (code.toNat >>> 8), UInt8.ofNat code.toNat] ++
    reason.take (reasonSizeWebsocket reason))

def closeCodeWebsocket : Bytes → UInt16
  | first :: second :: _ => UInt16.ofNat (first.toNat <<< 8 ||| second.toNat)
  | _ => websocketCloseNone

/-! ## A frame takes its bytes whatever comes after them -/

variable {second : UInt8} {rest : Bytes} {opcode : WebsocketOpcode} {fin : Bool} {buffer : Bytes}

theorem payloadSizeWebsocket_append {result : Except String (Option (Nat × Nat))} (more : Bytes)
    (h : payloadSizeWebsocket second rest = result) (hmore : result ≠ .ok none) :
    payloadSizeWebsocket second (rest ++ more) = result := by
  subst h
  have htake : ∀ n, ¬ rest.length < n → ¬ rest.length + more.length < n ∧ (rest ++ more).take n = rest.take n := by
    intro n hn
    exact ⟨fun hlt => hn (Nat.lt_of_le_of_lt (Nat.le_add_right _ _) hlt),
      List.take_append_of_le_length (Nat.le_of_not_lt hn)⟩
  simp only [payloadSizeWebsocket, List.length_append] at hmore ⊢
  split
  case isTrue h126 =>
    by_cases hshort : rest.length < 2
    · simp [h126, hshort] at hmore
    · obtain ⟨hlong, hsame⟩ := htake 2 hshort
      simp [hshort, hlong, hsame]
  case isFalse h126 =>
    split
    case isTrue h127 =>
      by_cases hshort : rest.length < 8
      · simp [h127, hshort] at hmore
      · obtain ⟨hlong, hsame⟩ := htake 8 hshort
        simp [hshort, hlong, hsame]
    case isFalse => rfl

theorem parseHeaderWebsocket_append {result : Except String (Option WebsocketHeader)} (more : Bytes)
    (h : parseHeaderWebsocket buffer = result) (hmore : result ≠ .ok none) :
    parseHeaderWebsocket (buffer ++ more) = result := by
  subst h
  match buffer, hmore with
  | [], hmore => simp [parseHeaderWebsocket] at hmore
  | [_], hmore => simp [parseHeaderWebsocket] at hmore
  | first :: second :: rest, hmore =>
      simp only [parseHeaderWebsocket, List.cons_append] at hmore ⊢
      split
      case isTrue => rfl
      case isFalse hreserved =>
        rw [if_neg hreserved] at hmore
        cases hopcode : WebsocketOpcode.ofByte (first &&& 0x0f) with
        | none => rfl
        | some opcode =>
            simp only [hopcode] at hmore ⊢
            split
            case isTrue => rfl
            case isFalse hmasked =>
              rw [if_neg hmasked] at hmore
              cases hsize : payloadSizeWebsocket second rest with
              | error message => rw [payloadSizeWebsocket_append more hsize (by simp)]
              | ok result =>
                  cases result with
                  | none => simp [hsize] at hmore
                  | some result => rw [payloadSizeWebsocket_append more hsize (by simp)]

/-- What a buffer makes, frame or error, it makes with more bytes after it. -/
theorem parseFrameWebsocket_append {result : Except String (Option WebsocketFrame)} (more : Bytes)
    (h : parseFrameWebsocket buffer = result) (hmore : result ≠ .ok none) :
    parseFrameWebsocket (buffer ++ more) = result := by
  subst h
  unfold parseFrameWebsocket at hmore ⊢
  cases hheader : parseHeaderWebsocket buffer with
  | error message => rw [parseHeaderWebsocket_append more hheader (by simp)]
  | ok header =>
      cases header with
      | none => simp [hheader] at hmore
      | some header =>
          obtain ⟨fin, opcode, payloadSize, offset⟩ := header
          rw [parseHeaderWebsocket_append more hheader (by simp)]
          simp only [hheader, List.length_append] at hmore ⊢
          by_cases hlacks : buffer.length < offset + 4 + payloadSize
          · simp [hlacks] at hmore
          · have hmask : ¬ buffer.length < offset + 4 := by omega
            have hlong : ¬ buffer.length + more.length < offset + 4 + payloadSize := by omega
            have hlong' : ¬ buffer.length + more.length < offset + 4 := by omega
            have hpart : ∀ n size, n + size ≤ buffer.length →
                ((buffer ++ more).drop n).take size = (buffer.drop n).take size := by
              intro n size hle
              rw [List.drop_append_of_le_length (by omega), List.take_append_of_le_length (by simp; omega)]
            simp only [hlacks, hmask, hlong, hlong', if_false]
            rw [hpart offset 4 (by omega), hpart (offset + 4) payloadSize (by omega)]

theorem size_parseFrameWebsocket {frame : WebsocketFrame} (h : parseFrameWebsocket buffer = .ok (some frame)) :
    0 < frame.size ∧ frame.size ≤ buffer.length := by
  unfold parseFrameWebsocket at h
  split at h
  case h_1 => cases h
  case h_2 => cases h
  case h_3 fin opcode payloadSize offset hheader =>
    split at h
    case isTrue => cases h
    case isFalse =>
      split at h
      case isTrue => cases h
      case isFalse hcomplete =>
        simp only [Except.ok.injEq, Option.some.injEq] at h
        subst h
        exact ⟨by simp only; omega, Nat.le_of_not_lt hcomplete⟩

end Viriatum
