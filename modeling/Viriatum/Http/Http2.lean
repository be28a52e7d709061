import Viriatum.Http.Hpack

/-!
# The frames of HTTP/2

The frames that both ends exchange, their headers on the wire and the checks that a frame has to pass for its type.
-/

namespace Viriatum

open Library

def http2HeaderSize : Nat := 9
def http2DefaultFrameSize : Nat := 16384
def http2MaxFrameSize : Nat := 16777215
def http2DefaultWindowSize : Nat := 65535
def http2MaxWindowSize : Nat := 2147483647
def http2MaxConcurrent : Nat := 128
def http2MaxStreamId : Nat := 2147483647
def http2SettingSize : Nat := 6
def http2PingSize : Nat := 8
def http2PrioritySize : Nat := 5
def http2DefaultWeight : Nat := 16

/-- The preface of a connection, the first bytes that a client sends on it. -/
def http2Preface : Bytes := bytes "PRI * HTTP/2.0\r\n\r\nSM\r\n\r\n"

inductive Http2FrameType where
  | data
  | headers
  | priority
  | rstStream
  | settings
  | pushPromise
  | ping
  | goaway
  | windowUpdate
  | continuation
  | unknown (code : UInt8)
deriving DecidableEq, Repr

namespace Http2FrameType

def ofByte (code : UInt8) : Http2FrameType :=
  match code.toNat with
  | 0x00 => .data
  | 0x01 => .headers
  | 0x02 => .priority
  | 0x03 => .rstStream
  | 0x04 => .settings
  | 0x05 => .pushPromise
  | 0x06 => .ping
  | 0x07 => .goaway
  | 0x08 => .windowUpdate
  | 0x09 => .continuation
  | _ => .unknown code

def toByte : Http2FrameType → UInt8
  | .data => 0x00
  | .headers => 0x01
  | .priority => 0x02
  | .rstStream => 0x03
  | .settings => 0x04
  | .pushPromise => 0x05
  | .ping => 0x06
  | .goaway => 0x07
  | .windowUpdate => 0x08
  | .continuation => 0x09
  | .unknown code => code

end Http2FrameType

/-- The errors of the protocol, without the absence of one. -/
inductive Http2Error where
  | protocolError
  | internalError
  | flowControlError
  | settingsTimeout
  | streamClosed
  | frameSizeError
  | refusedStream
  | cancel
  | compressionError
  | connectError
  | enhanceYourCalm
  | inadequateSecurity
  | http11Required
deriving DecidableEq, Repr

def Http2Error.code : Http2Error → Nat
  | .protocolError => 0x01
  | .internalError => 0x02
  | .flowControlError => 0x03
  | .settingsTimeout => 0x04
  | .streamClosed => 0x05
  | .frameSizeError => 0x06
  | .refusedStream => 0x07
  | .cancel => 0x08
  | .compressionError => 0x09
  | .connectError => 0x0a
  | .enhanceYourCalm => 0x0b
  | .inadequateSecurity => 0x0c
  | .http11Required => 0x0d

def http2FlagEndStream : UInt8 := 0x01
def http2FlagAck : UInt8 := 0x01
def http2FlagEndHeaders : UInt8 := 0x04
def http2FlagPadded : UInt8 := 0x08
def http2FlagPriority : UInt8 := 0x20

/-- A complete frame; its length is the one of its payload. -/
structure Http2Frame where
  type : Http2FrameType
  flags : UInt8
  streamId : Nat
  payload : Bytes
deriving DecidableEq, Repr

namespace Http2Frame

abbrev length (f : Http2Frame) : Nat := f.payload.length

def has (f : Http2Frame) (flag : UInt8) : Bool := f.flags &&& flag != 0

end Http2Frame

/-- The settings of an end, within the bounds that the decoding of them keeps. -/
structure Http2Settings where
  headerTableSize : Nat
  enablePush : Bool
  maxConcurrentStreams : Nat
  initialWindowSize : Nat
  maxFrameSize : Nat
  maxHeaderListSize : Nat
  initialWindowSize_le : initialWindowSize ≤ http2MaxWindowSize
  le_maxFrameSize : http2DefaultFrameSize ≤ maxFrameSize
  maxFrameSize_le : maxFrameSize ≤ http2MaxFrameSize
deriving DecidableEq

def Http2Settings.create : Http2Settings where
  headerTableSize := hpackTableSize
  enablePush := true
  maxConcurrentStreams := http2MaxConcurrent
  initialWindowSize := http2DefaultWindowSize
  maxFrameSize := http2DefaultFrameSize
  maxHeaderListSize := hpackMaxHeaderListSize
  initialWindowSize_le := by decide
  le_maxFrameSize := by decide
  maxFrameSize_le := by decide

/-- The place of a stream in the tree. -/
structure Http2Priority where
  dependency : Nat
  weight : Nat
  exclusive : Bool
deriving DecidableEq, Repr

/-! ## Numbers and headers on the wire -/

/-- The number in the first four bytes of the data, in the network order. -/
def decodeNumberHttp2 (data : Bytes) : Nat :=
  (data.getD 0 0).toNat <<< 24 ||| (data.getD 1 0).toNat <<< 16 ||| (data.getD 2 0).toNat <<< 8 |||
    (data.getD 3 0).toNat

def encodeNumberHttp2 (value : Nat) : Bytes :=
  [UInt8.ofNat (value >>> 24), UInt8.ofNat (value >>> 16), UInt8.ofNat (value >>> 8), UInt8.ofNat value]

/-- The header of a frame and, once all of it has arrived, its payload. -/
structure Http2FrameHeader where
  length : Nat
  type : Http2FrameType
  flags : UInt8
  streamId : Nat
  payload : Option Bytes
deriving DecidableEq, Repr

/-- Decodes the header at the front of the data; the reserved bit of the identifier is ignored. -/
def decodeFrameHttp2 (data : Bytes) : Except Http2Error Http2FrameHeader :=
  if data.length < http2HeaderSize then .error .frameSizeError
  else
    let length := (data.getD 0 0).toNat <<< 16 ||| (data.getD 1 0).toNat <<< 8 ||| (data.getD 2 0).toNat
    .ok {
      length
      type := .ofByte (data.getD 3 0)
      flags := data.getD 4 0
      streamId := decodeNumberHttp2 (data.drop 5) &&& http2MaxStreamId
      payload :=
        if data.length < http2HeaderSize + length then none
        else some ((data.drop http2HeaderSize).take length) }

/-- The nine bytes of the header of a frame. -/
def encodeFrameHttp2 (length : Nat) (type : Http2FrameType) (flags : UInt8) (streamId : Nat) : Bytes :=
  [UInt8.ofNat (length >>> 16), UInt8.ofNat (length >>> 8), UInt8.ofNat length, type.toByte, flags] ++
    encodeNumberHttp2 (streamId &&& http2MaxStreamId)

/-- A frame on the wire. -/
def Http2Frame.encode (f : Http2Frame) : Bytes := encodeFrameHttp2 f.length f.type f.flags f.streamId ++ f.payload

/-- The content of a frame without its padding. -/
def stripPaddingHttp2 (f : Http2Frame) : Except Http2Error Bytes :=
  if f.has http2FlagPadded then
    match f.payload with
    | [] => .error .protocolError
    | padding :: content =>
        if padding.toNat ≥ f.length then .error .protocolError
        else .ok (content.take (f.length - 1 - padding.toNat))
  else .ok f.payload

def decodePriorityHttp2 (data : Bytes) : Except Http2Error Http2Priority :=
  if data.length ≠ http2PrioritySize then .error .frameSizeError
  else
    let dependency := decodeNumberHttp2 data
    .ok {
      dependency := dependency &&& http2MaxStreamId
      weight := (data.getD 4 0).toNat + 1
      exclusive := dependency &&& 0x80000000 ≠ 0 }

/-! ## Settings -/

/-- Applies one entry over the settings; an identifier that is not recognised is ignored. -/
def decodeSettingHttp2 (identifier value : Nat) (s : Http2Settings) : Except Http2Error Http2Settings :=
  match identifier with
  | 0x01 => .ok { s with headerTableSize := value }
  | 0x02 => if value > 1 then .error .protocolError else .ok { s with enablePush := value ≠ 0 }
  | 0x03 => .ok { s with maxConcurrentStreams := value }
  | 0x04 =>
      if h : value > http2MaxWindowSize then .error .flowControlError
      else .ok { s with initialWindowSize := value, initialWindowSize_le := Nat.le_of_not_gt h }
  | 0x05 =>
      if h : value < http2DefaultFrameSize ∨ value > http2MaxFrameSize then .error .protocolError
      else .ok { s with
        maxFrameSize := value
        le_maxFrameSize := Nat.le_of_not_gt fun hlt => h (.inl hlt)
        maxFrameSize_le := Nat.le_of_not_gt fun hgt => h (.inr hgt) }
  | 0x06 => .ok { s with maxHeaderListSize := value }
  | _ => .ok s

/-- Walks the entries; the ones before the one that is refused stay applied. -/
def decodeSettingsEntries : (rounds : Nat) → Bytes → Effect Http2Error Http2Settings Unit
  | 0, _ => pure ()
  | rounds + 1, data => do
      let s ← get
      let identifier := (data.getD 0 0).toNat <<< 8 ||| (data.getD 1 0).toNat
      match decodeSettingHttp2 identifier (decodeNumberHttp2 (data.drop 2)) s with
      | .error e => throw e
      | .ok s => do
          set s
          decodeSettingsEntries rounds (data.drop http2SettingSize)

def decodeSettingsHttp2 (data : Bytes) : Effect Http2Error Http2Settings Unit :=
  if data.length % http2SettingSize ≠ 0 then throw .frameSizeError
  else decodeSettingsEntries (data.length / http2SettingSize) data

/-- The frame that announces the settings of this end. -/
def encodeSettingsHttp2 (s : Http2Settings) : Http2Frame where
  type := .settings
  flags := 0x00
  streamId := 0
  payload :=
    [0x00, 0x03] ++ encodeNumberHttp2 s.maxConcurrentStreams ++
    [0x00, 0x01] ++ encodeNumberHttp2 s.headerTableSize ++
    [0x00, 0x06] ++ encodeNumberHttp2 s.maxHeaderListSize ++
    [0x00, 0x04] ++ encodeNumberHttp2 s.initialWindowSize ++
    [0x00, 0x05] ++ encodeNumberHttp2 s.maxFrameSize

/-- A frame whose payload is a single number. -/
def encodeValueHttp2 (type : Http2FrameType) (streamId value : Nat) : Http2Frame :=
  { type, flags := 0x00, streamId, payload := encodeNumberHttp2 value }

def encodeGoawayHttp2 (lastStreamId error : Nat) : Http2Frame where
  type := .goaway
  flags := 0x00
  streamId := 0
  payload := encodeNumberHttp2 (lastStreamId &&& http2MaxStreamId) ++ encodeNumberHttp2 error

/-! ## The checks of a frame -/

/-- The error of a frame that is not a coherent one for its type, within the settings of this end. -/
def verifyFrameHttp2 (f : Http2Frame) (s : Http2Settings) : Option Http2Error :=
  if f.length > s.maxFrameSize then some .frameSizeError
  else
    match f.type with
    | .data | .headers | .continuation => if f.streamId = 0 then some .protocolError else none
    | .priority =>
        if f.streamId = 0 then some .protocolError
        else if f.length ≠ http2PrioritySize then some .frameSizeError
        else none
    | .rstStream =>
        if f.streamId = 0 then some .protocolError
        else if f.length ≠ 4 then some .frameSizeError
        else none
    | .settings =>
        if f.streamId ≠ 0 then some .protocolError
        else if f.has http2FlagAck ∧ f.length ≠ 0 then some .frameSizeError
        else if f.length % http2SettingSize ≠ 0 then some .frameSizeError
        else none
    | .pushPromise =>
        if f.streamId = 0 then some .protocolError
        else if f.has http2FlagPadded then if f.length < 5 then some .frameSizeError else none
        else if f.length < 4 then some .frameSizeError
        else none
    | .ping =>
        if f.streamId ≠ 0 then some .protocolError
        else if f.length ≠ http2PingSize then some .frameSizeError
        else none
    | .goaway =>
        if f.streamId ≠ 0 then some .protocolError
        else if f.length < 8 then some .frameSizeError
        else none
    | .windowUpdate => if f.length ≠ 4 then some .frameSizeError else none
    | .unknown _ => none

end Viriatum
