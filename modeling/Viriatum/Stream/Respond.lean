import Viriatum.Stream.Write

/-!
# The operations of a handler

What the handlers of a connection write under HTTP/2, the promises they make and the calls that reach them. A call
may make the handler promise a resource, whose request is then handed to a handler in turn.
-/

namespace Viriatum

open Library

namespace Http2Connection

/-! ## Heads of responses -/

/-- Encodes a field into a buffer; one that does not fit leaves what the codec had written of it. -/
def writeHeader (bufferSize : Nat) (header : HpackHeader) (buffer : Bytes) (s : Http2Connection) :
    Bytes × Http2Connection :=
  let (_, (encoder, buffer)) := (encodeHpack bufferSize header false).run (s.encoder, buffer)
  (buffer, { s with encoder })

/-- Opens the block of a response, past the space of the header of its frame. -/
def writeStatusHttp2 (service : Service) (bufferSize statusCode : Nat) (s : Http2Connection) :
    Bytes × Http2Connection :=
  let (buffer, s) := writeHeader bufferSize ⟨bytes ":status", (bytes (toString statusCode)).take 7⟩
    (List.replicate http2HeaderSize 0) s
  writeHeader bufferSize ⟨bytes "server", service.description⟩ buffer s

def lower (name : Bytes) : Bytes := name.map fun b => if 65 ≤ b ∧ b ≤ 90 then b + 32 else b

/-- Writes a field, its name lowered; the ones that only carry meaning under HTTP/1.1 are dropped. -/
def writeFieldHttp2 (bufferSize : Nat) (field : Bytes × Bytes) (buffer : Bytes) (s : Http2Connection) :
    Bytes × Http2Connection :=
  let lowered := lower field.1
  if field.1.length ≥ viriatumMaxHeaderSize then (buffer, s)
  else if lowered = bytes "connection" ∨ lowered = bytes "keep-alive" ∨ lowered = bytes "transfer-encoding" ∨
      lowered = bytes "upgrade" then (buffer, s)
  else writeHeader bufferSize ⟨lowered, field.2⟩ buffer s

/-- Closes the block of a response; one without payload says everything that this end had to say. -/
def writeEndHttp2 (buffer : Bytes) (last : Bool) (s : Http2Connection) : Http2Frame × Http2Connection :=
  let streamId := match s.current with
    | none => 0
    | some slot => (s.stream slot).streamId
  let s := match s.current with
    | some slot => if last then s.modifyStream slot Http2Stream.completed else s
    | none => s
  ({ type := .headers
     flags := if last then http2FlagEndHeaders ||| http2FlagEndStream else http2FlagEndHeaders
     streamId
     payload := buffer.drop http2HeaderSize }, s)

/-- The head of a response: its status, its fields and the end of it. -/
def writeHead (service : Service) (bufferSize statusCode : Nat) (fields : List (Bytes × Bytes)) (last : Bool)
    (s : Http2Connection) : Http2Frame × Http2Connection :=
  let (buffer, s) := fields.foldl (fun (buffer, s) field => writeFieldHttp2 bufferSize field buffer s)
    (writeStatusHttp2 service bufferSize statusCode s)
  writeEndHttp2 buffer last s

/-- The continuation frames of the rest of a block, each no larger than what the peer accepts. -/
def continuationFrames (allowed streamId : Nat) : (rounds : Nat) → Bytes → List Http2Frame
  | 0, _ => []
  | rounds + 1, data =>
      if data = [] then []
      else if data.length ≤ allowed then
        [{ type := .continuation, flags := http2FlagEndHeaders, streamId, payload := data }]
      else
        { type := .continuation, flags := 0x00, streamId, payload := data.take allowed } ::
          continuationFrames allowed streamId rounds (data.drop allowed)

/-- Rebuilds a block that is larger than the frame the peer accepts as a sequence of frames. -/
def split (allowed : Nat) (frame : Http2Frame) : List Http2Frame :=
  if frame.length ≤ allowed then [frame]
  else
    { frame with flags := frame.flags &&& ~~~http2FlagEndHeaders, payload := frame.payload.take allowed } ::
      continuationFrames allowed frame.streamId frame.length (frame.payload.drop allowed)

/-- Queues the head of a response for the current stream, which leaves a reservation with it. -/
def writeFlushHttp2 (frame : Http2Frame) (tag : Option Nat) (s : Http2Connection) : Http2Connection :=
  match s.current with
  | none => s
  | some slot =>
      let s := s.modifyStream slot fun stream =>
        { stream with state := if stream.state = .reservedLocal then .halfClosedRemote else stream.state }
      queueFrames (some (s.stream slot).request.address) (split s.remote.maxFrameSize frame)
        (.stream (s.stream slot).streamId tag) s

/-- Queues the head of a response as it stands. -/
def writeConnection (frame : Http2Frame) (tag : Nat) (s : Http2Connection) : Http2Connection :=
  queueFrames (s.current.map fun slot => (s.stream slot).request.address) [frame] (.handler tag) s

/-- Queues a fragment on the current stream and hands the writing over to the scheduling. -/
def writeChunkHttp2 (data : Bytes) (last : Bool) (tag : Option Nat) (s : Http2Connection) : Http2Connection :=
  match s.current with
  | none => s
  | some slot =>
      schedule (s.modifyStream slot fun stream =>
        { stream with pending := stream.pending ++ [{ data, offset := 0, last, tag }] })

/-! ## Promises -/

/-- The bytes of a text that ends at the first zero byte. -/
def cString (data : Bytes) : Bytes := data.takeWhile (· ≠ 0)

/-- The part of a path that fits in the message. -/
def appendPath (path data : Bytes) : Bytes := path ++ data.take (viriatumMaxUrlSize - path.length - 1)

/-- The frame of a promise: the identifier reserved and the block of the request that is promised. -/
def promiseFrame (slot streamId : Nat) (path : Bytes) (s : Http2Connection) : Http2Frame × Http2Connection :=
  let stream := s.stream slot
  let bufferSize := http2HeaderSize + 4 + viriatumHttpSize
  let (buffer, s) := writeHeader bufferSize ⟨bytes ":method", bytes "GET"⟩ (List.replicate (http2HeaderSize + 4) 0) s
  let (buffer, s) := writeHeader bufferSize ⟨bytes ":scheme", stream.request.scheme⟩ buffer s
  let (buffer, s) := writeHeader bufferSize ⟨bytes ":path", path⟩ buffer s
  let (buffer, s) :=
    if cString stream.request.authority ≠ [] then
      writeHeader bufferSize ⟨bytes ":authority", cString stream.request.authority⟩ buffer s
    else (buffer, s)
  ({ type := .pushPromise
     flags := http2FlagEndHeaders
     streamId := stream.streamId
     payload := encodeNumberHttp2 streamId ++ buffer.drop (http2HeaderSize + 4) }, s)

/-- The value of the GET method in the table of the methods. -/
def httpGet : Nat := 2

/-- The handler that every stream is served from first. -/
def baseHandler : Nat := 0

/-- Opens the stream that a promise has reserved on the stream in a slot. -/
def reserveStream (slot streamId : Nat) (path : Bytes) (s : Http2Connection) : Http2Connection :=
  let stream := s.stream slot
  { s with
    streams := s.streams ++ [{
      streamId
      state := .reservedLocal
      sendWindow := s.remote.initialWindowSize
      receiveWindow := s.settings.initialWindowSize
      priority := { dependency := stream.streamId, weight := http2DefaultWeight, exclusive := false }
      request := {
        address := s.nextAddress
        streamId
        method := httpGet
        scheme := stream.request.scheme
        authority := stream.request.authority
        path := appendPath [] path }
      handler := none
      endStream := true
      headersComplete := true
      complete := false
      contentLength := 0
      announced := false
      received := 0
      pending := [] }]
    nextAddress := s.nextAddress + 1
    history := .opened s.nextAddress streamId ::
      .promised stream.streamId streamId (s.streams.map fun st => (st.streamId, st.priority.dependency)) :: s.history }

/-- Sets the base handler on the stream in a slot and points the connection at both. -/
def setHandler (slot : Nat) (s : Http2Connection) : Http2Connection :=
  let s := s.modifyStream slot fun stream => { stream with handler := some baseHandler }
  let s := (s.activate slot).record (.called (.set (s.stream slot).request.address))
  (s.modifyStream slot fun stream => { stream with handler := s.handler }).activate slot

section Calls

variable (calls : Callback → Http2Connection → Http2Connection)

/-- Hands the request promised in a slot to the handler, as though the peer had asked for it. -/
def callPromised (slot : Nat) (s : Http2Connection) : Http2Connection :=
  let request := (s.stream slot).request
  let s := calls (.messageBegin request.address) s
  let s := calls (.url request.address request.path) s
  let s := calls (.headersComplete request.address) s
  let s := calls (.messageComplete request.address) s
  s.modifyStream slot fun stream => { stream with handler := s.handler }

/-- Promises a path on the stream in a slot. The counter of the identifiers has thirty two bits. -/
def pushStream (slot : Nat) (path : Bytes) (s : Http2Connection) : Http2Connection :=
  if s.remote.enablePush = false then s
  else if s.count ≥ s.remote.maxConcurrentStreams ∨ s.count ≥ http2StreamSlots then s
  else
    let streamId := (s.pushStreamId + 2) % 2 ^ 32
    let s := { s with pushStreamId := streamId }
    if streamId > http2MaxStreamId then s
    else
      let (frame, s) := promiseFrame slot streamId path s
      let s := queueFrames (some (s.stream slot).request.address) [frame] .none s
      let promised := s.count
      let s := setHandler promised (reserveStream slot streamId path s)
      (callPromised calls promised s).activate slot

variable (service : Service)

/-- Points the connection at the message of an open stream. -/
def select (address : Nat) (s : Http2Connection) : Http2Connection :=
  match s.streams.find? fun stream => stream.request.address = address with
  | none => s
  | some stream => { s with request := some { address, streamId := stream.request.streamId } }

def perform (action : HandlerAction) (s : Http2Connection) : Http2Connection :=
  match action with
  | .select address => select address s
  | .setHandler handler => { s with handler }
  | .writeFlush bufferSize statusCode fields last tag =>
      let (frame, s) := writeHead service bufferSize statusCode fields last s
      writeFlushHttp2 frame tag s
  | .writeConnection bufferSize statusCode fields last tag =>
      let (frame, s) := writeHead service bufferSize statusCode fields last s
      writeConnection frame tag s
  | .writeChunk data last tag => writeChunkHttp2 data last tag s
  | .pushStream streamId path =>
      match s.findStream streamId with
      | none => s
      | some slot => pushStream calls slot path s

def performAll (actions : List HandlerAction) (s : Http2Connection) : Http2Connection :=
  actions.foldl (fun s action => perform calls service action s) s

end Calls

/-- Calls a handler, which acts on the session; the promises it makes call a handler within it. Each promise takes a
slot of the table, so the calls are never nested deeper than there are slots. -/
def callWithin (service : Service) : (depth : Nat) → Callback → Http2Connection → Http2Connection
  | 0, callback, s => s.record (.called callback)
  | depth + 1, callback, s =>
      let s := s.record (.called callback)
      performAll (callWithin service depth) service (service.handle s callback) s

def call (service : Service) : Callback → Http2Connection → Http2Connection :=
  callWithin service (http2StreamSlots + 1)

end Http2Connection

end Viriatum
