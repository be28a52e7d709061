import Viriatum.Stream.Block

/-!
# The handling of frames

What a session does with a frame of the peer: the state of the stream it names is judged first, then the frame is
handled by its type. An error is one of the connection.
-/

namespace Viriatum

open Library Effect

namespace Http2Connection

/-! ## Assembling blocks -/

/-- Gathers a fragment of a header block. -/
def gather (data : Bytes) : Act Unit := do
  let s ← get
  refuseIf (s.block.length + data.length > http2MaxBlock) .enhanceYourCalm
  set { s with block := s.block ++ data }

def resetBlock (s : Http2Connection) : Http2Connection :=
  { s with block := [], continuation := 0, continuationFlags := 0, refused := 0 }

/-- Drops a field of a block whose stream has been refused. -/
def discard (_ : HpackHeader) : Effect Http2Error (Http2Connection × Unit) Unit := pure ()

/-- Decodes the block of a stream that has been refused, so that the table of the connection consumes it. -/
def discardBlock : Act Unit := do
  let s ← get
  let _ ← after (decodeBlock discard s.block ()) resetBlock
  pure ()

/-! ## States of streams -/

/-- The state of a stream; one that the session does not hold is told from its identifier. -/
def state (s : Http2Connection) (streamId : Nat) (slot : Option Nat) : Http2StreamState :=
  match slot with
  | some slot => (s.stream slot).state
  | none =>
      if streamId % 2 = 0 then if streamId > s.pushStreamId then .idle else .closed
      else if streamId > s.lastStreamId then .idle
      else .closed

/-- The error of a frame of a message that a stream is not allowed to receive in its state. -/
def verifyState (type : Http2FrameType) : Http2StreamState → Option Http2Error
  | .idle => if type = .headers then none else some .protocolError
  | .reservedLocal => if type = .rstStream ∨ type = .windowUpdate then none else some .protocolError
  | .reservedRemote => if type = .headers ∨ type = .rstStream then none else some .protocolError
  | .halfClosedRemote => if type = .rstStream ∨ type = .windowUpdate then none else some .streamClosed
  | .closed =>
      if type = .headers ∨ type = .rstStream ∨ type = .windowUpdate then none else some .streamClosed
  | .open => none
  | .halfClosedLocal => none

/-- The error of a frame that the stream it names is not allowed to receive. -/
def verifyStream (s : Http2Connection) (frame : Http2Frame) (slot : Option Nat) : Option Http2Error :=
  match frame.type with
  | .data | .headers | .rstStream | .windowUpdate => verifyState frame.type (s.state frame.streamId slot)
  | .continuation =>
      if s.continuation = frame.streamId then none else verifyState frame.type (s.state frame.streamId slot)
  | _ => none

/-- Stops with an error when there is one. -/
def refuseSome : Option Http2Error → Act Unit
  | some e => throw e
  | none => pure ()

/-! ## Frames by their type -/

section

variable (service : Service)

/-- Widens the windows of both the connection and the stream by the frame that has been consumed. -/
def widen (slot : Nat) (frame : Http2Frame) (s : Http2Connection) : Http2Connection :=
  if frame.length > 0 then
    let s := writeValue .windowUpdate 0 frame.length s
    let s := { s with receiveWindow := s.receiveWindow + frame.length }
    let s := writeValue .windowUpdate frame.streamId frame.length s
    s.modifyStream slot fun stream => { stream with receiveWindow := stream.receiveWindow + frame.length }
  else s

/-- Marks that the peer has closed its side of a stream. -/
def closeRemote (slot : Nat) (s : Http2Connection) : Http2Connection :=
  s.modifyStream slot fun stream => { stream with endStream := true, state := .halfClosedRemote }

def handleData (frame : Http2Frame) (slot : Nat) : Act Unit := do
  modify fun s => s.modifyStream slot fun stream =>
    { stream with receiveWindow := stream.receiveWindow - frame.length }
  let s ← get
  refuseIf ((s.stream slot).receiveWindow < 0) .flowControlError
  match stripPaddingHttp2 frame with
  | .error e => throw e
  | .ok payload => do
      let address := (s.stream slot).request.address
      let s := s.modifyStream slot fun stream => { stream with received := stream.received + payload.length }
      let s := s.activate slot
      let s := if payload.length > 0 then s.call service (.body address payload) else s
      set (widen slot frame s)
      if frame.has http2FlagEndStream then
        modify (closeRemote slot)
        let s ← get
        refuseIf ((s.stream slot).announced ∧ (s.stream slot).received ≠ (s.stream slot).contentLength) .protocolError
        set (s.call service (.messageComplete address))
      else pure ()

/-- The priority and the fragment of a block that a frame of headers carries, past the padding. -/
def headersFragment (frame : Http2Frame) : Except Http2Error (Option Http2Priority × Bytes) := do
  let payload ← stripPaddingHttp2 frame
  if frame.has http2FlagPriority then
    if payload.length < http2PrioritySize then .error .frameSizeError
    else do
      let priority ← decodePriorityHttp2 (payload.take http2PrioritySize)
      .ok (some priority, payload.drop http2PrioritySize)
  else .ok (none, payload)

/-- Waits for the continuation of a block. -/
def awaitContinuation (frame : Http2Frame) (s : Http2Connection) : Http2Connection :=
  { s with continuation := frame.streamId, continuationFlags := frame.flags }

/-- Refuses the stream of a frame of headers, whose block still travels through the decoder. -/
def refuseHeaders (frame : Http2Frame) : Act Unit := do
  modify fun s => { writeValue .rstStream frame.streamId Http2Error.refusedStream.code s with refused := frame.streamId }
  match headersFragment frame with
  | .error e => throw e
  | .ok (_, data) => do
      gather data
      if frame.has http2FlagEndHeaders then discardBlock
      else modify (awaitContinuation frame)

/-- Takes a fragment of a block for the stream in a slot. -/
def takeFragment (frame : Http2Frame) (slot : Nat) (data : Bytes) : Act Unit := do
  modify fun s => if frame.has http2FlagEndStream then closeRemote slot s else s
  gather data
  if frame.has http2FlagEndHeaders then do
    let s ← get
    after (blockHttp2 service slot s.block) resetBlock
  else modify (awaitContinuation frame)

/-- Takes the block of a frame of headers for the stream in a slot. -/
def takeHeaders (frame : Http2Frame) (slot : Nat) : Act Unit :=
  match headersFragment frame with
  | .error e => throw e
  | .ok (some priority, data) => do
      prioritiseStream slot priority
      takeFragment service frame slot data
  | .ok (none, data) => takeFragment service frame slot data

/-- Opens the stream of a frame of headers, or refuses it. -/
def openHeaders (frame : Http2Frame) : Act Unit := fun s =>
  match (openStream frame.streamId).run s with
  | (.error .refusedStream, s) => (refuseHeaders frame).run s
  | (.error e, s) => (.error e, s)
  | (.ok slot, s) => (takeHeaders service frame slot).run s

/-- A block on a stream whose headers are complete is a trailer section, which has to close the stream. -/
def continueHeaders (frame : Http2Frame) (slot : Nat) : Act Unit := do
  let s ← get
  if (s.stream slot).headersComplete then
    refuseIf (frame.has http2FlagEndStream = false) .protocolError
    set (s.modifyStream slot fun stream => { stream with request := { stream.request with trailers := true } })
    takeHeaders service frame slot
  else takeHeaders service frame slot

def handleHeaders (frame : Http2Frame) (slot : Option Nat) : Act Unit :=
  match slot with
  | none => openHeaders service frame
  | some slot => continueHeaders service frame slot

def handleContinuation (frame : Http2Frame) : Act Unit := do
  let s ← get
  refuseIf (s.continuation = 0) .protocolError
  gather frame.payload
  if frame.has http2FlagEndHeaders then
    let s ← get
    if s.refused = s.continuation then discardBlock
    else
      match s.findStream s.continuation with
      | none => throw .protocolError
      | some slot => after (blockHttp2 service slot s.block) resetBlock
  else pure ()

def handlePriority (frame : Http2Frame) (slot : Option Nat) : Act Unit :=
  match decodePriorityHttp2 frame.payload with
  | .error e => throw e
  | .ok priority => do
      refuseIf (priority.dependency = frame.streamId) .protocolError
      match slot with
      | some slot => prioritiseStream slot priority
      | none => pure ()

def handleSettings (frame : Http2Frame) : Act Unit :=
  if frame.has http2FlagAck then pure ()
  else do
    applySettings frame.payload
    modify (writeSettings true)
    modify schedule

/-- An increment that overflows the window of a stream resets the stream, one of the connection is an error of it. -/
def handleWindowUpdate (frame : Http2Frame) : Act Unit :=
  let increment := decodeNumberHttp2 frame.payload &&& http2MaxWindowSize
  tryCatch
    (do
      updateWindow frame.streamId increment
      modify schedule)
    fun e =>
      if e = .flowControlError ∧ frame.streamId ≠ 0 then
        modify (writeValue .rstStream frame.streamId Http2Error.flowControlError.code)
      else throw e

/-- Accounts the payload of a frame against the window of the connection. -/
def accountData (frame : Http2Frame) : Act Unit :=
  if frame.type = .data then do
    modify fun s => { s with receiveWindow := s.receiveWindow - frame.length }
    let s ← get
    refuseIf (s.receiveWindow < 0) .flowControlError
  else pure ()

/-- Handles a frame that its stream is allowed to receive. -/
def dispatchFrame (frame : Http2Frame) (slot : Option Nat) : Act Unit :=
  match frame.type with
  | .data =>
      match slot with
      | some slot => handleData service frame slot
      | none => pure ()
  | .headers => handleHeaders service frame slot
  | .continuation => handleContinuation service frame
  | .priority => handlePriority frame slot
  | .rstStream =>
      match slot with
      | some slot => modify (closeStream slot)
      | none => pure ()
  | .settings => handleSettings frame
  | .ping => if frame.has http2FlagAck then pure () else modify (writePing frame.payload)
  | .goaway => modify fun s => { s with goaway := true }
  | .windowUpdate => handleWindowUpdate frame
  | .pushPromise => throw .protocolError
  | .unknown _ => pure ()

/-- The slot of the stream that a frame names, a frame of the connection naming none. -/
def frameSlot (s : Http2Connection) (frame : Http2Frame) : Option Nat :=
  if frame.streamId = 0 then none else s.findStream frame.streamId

def handleFrame (frame : Http2Frame) : Act Unit := do
  let s ← get
  refuseSome (verifyFrameHttp2 frame s.settings)
  refuseIf (s.continuation ≠ 0 ∧ (frame.type ≠ .continuation ∨ frame.streamId ≠ s.continuation)) .protocolError
  accountData frame
  let s ← get
  let slot := s.frameSlot frame
  refuseSome (if frame.streamId ≠ 0 then s.verifyStream frame slot else none)
  dispatchFrame service frame slot

end

end Http2Connection

end Viriatum
