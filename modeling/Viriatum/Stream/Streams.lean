import Viriatum.Stream.Session

/-!
# The table of streams

Opening, closing and prioritising the streams of a session, and the windows of it.
-/

namespace Viriatum

open Library

namespace Http2Connection

/-! ## Opening and closing -/

/-- Opens the stream that a peer asks for and gives its slot back. -/
def openStream (streamId : Nat) : Act Nat := do
  let s ← get
  if streamId % 2 = 0 then throw .protocolError
  else if streamId ≤ s.lastStreamId then throw .protocolError
  else if s.count ≥ s.settings.maxConcurrentStreams ∨ s.count ≥ http2StreamSlots then throw .refusedStream
  else
    let stream : Http2Stream := {
      streamId
      state := .open
      sendWindow := s.remote.initialWindowSize
      receiveWindow := s.settings.initialWindowSize
      priority := { dependency := 0, weight := http2DefaultWeight, exclusive := false }
      request := { address := s.nextAddress, streamId }
      handler := none
      endStream := false
      headersComplete := false
      complete := false
      contentLength := 0
      announced := false
      received := 0
      pending := [] }
    set { s with
      streams := s.streams ++ [stream]
      lastStreamId := streamId
      nextAddress := s.nextAddress + 1
      history := .opened s.nextAddress streamId :: s.history }
    pure s.count

/-- Lets go of the handler that serves the stream in a slot. -/
def unsetHandler (slot : Nat) (s : Http2Connection) : Http2Connection :=
  match (s.stream slot).handler with
  | none => s
  | some _ =>
      ((s.activate slot).record (.called (.unset (s.stream slot).request.address))).modifyStream slot
        fun stream => { stream with handler := none }

/-- The streams without the one in a slot: the ones that hung from it hang from the one it hung from, and the last
of them takes the slot. -/
def removeStream (slot : Nat) (streams : List Http2Stream) : List Http2Stream :=
  let closed := streams.getD slot .unused
  let streams := streams.map fun stream =>
    if stream.priority.dependency = closed.streamId then
      { stream with priority := { stream.priority with dependency := closed.priority.dependency } }
    else stream
  let last := streams.length - 1
  if slot = last then streams.dropLast else (streams.set slot (streams.getD last .unused)).dropLast

/-- Closes the stream in a slot; the fragments that it holds back are released with it. -/
def closeStream (slot : Nat) (s : Http2Connection) : Http2Connection :=
  let s := unsetHandler slot s
  let address := (s.stream slot).request.address
  let s :=
    if s.request.map RequestPointer.address = some address then { s with request := none, handler := none } else s
  { s with streams := removeStream slot s.streams, history := .closed address :: s.history }

/-! ## The tree of priorities -/

/-- Whether the walk up from a stream comes to another one, within as many steps as there are streams. -/
def descends (s : Http2Connection) : (steps streamId ancestorId : Nat) → Bool
  | 0, _, _ => false
  | steps + 1, streamId, ancestorId =>
      if streamId = 0 then false
      else if streamId = ancestorId then true
      else
        match s.findStream streamId with
        | none => false
        | some slot => descends s steps (s.stream slot).priority.dependency ancestorId

/-- Gives the stream with an identifier another dependency, where there is such a stream. -/
def setDependency (streamId dependency : Nat) (s : Http2Connection) : Http2Connection :=
  match s.findStream streamId with
  | none => s
  | some slot =>
      s.modifyStream slot fun stream => { stream with priority := { stream.priority with dependency } }

/-- Hangs every stream that hangs from the dependency from the stream instead. -/
def takeSiblings (streamId dependency : Nat) (s : Http2Connection) : Http2Connection :=
  { s with
    streams := s.streams.map fun stream =>
      if stream.streamId = streamId then stream
      else if stream.priority.dependency ≠ dependency then stream
      else { stream with priority := { stream.priority with dependency := streamId } } }

/-- Places the stream in a slot of the tree at the position described. -/
def prioritiseStream (slot : Nat) (priority : Http2Priority) : Act Unit := do
  let s ← get
  let stream := s.stream slot
  if priority.dependency = stream.streamId then throw .protocolError
  else
    let s :=
      if s.descends s.count priority.dependency stream.streamId then
        setDependency priority.dependency stream.priority.dependency s
      else s
    let s := if priority.exclusive then takeSiblings stream.streamId priority.dependency s else s
    set (s.modifyStream slot fun stream => { stream with priority })

/-! ## Windows -/

/-- Adds an increment to the window of the connection or to the one of a stream. -/
def updateWindow (streamId increment : Nat) : Act Unit := do
  let s ← get
  if increment = 0 then throw .protocolError
  else if streamId = 0 then
    if s.sendWindow > (http2MaxWindowSize : Int) - increment then throw .flowControlError
    else set { s with sendWindow := s.sendWindow + increment }
  else
    match s.findStream streamId with
    | none => pure ()
    | some slot =>
        if (s.stream slot).sendWindow > (http2MaxWindowSize : Int) - increment then throw .flowControlError
        else
          set ((s.modifyStream slot fun stream => { stream with sendWindow := stream.sendWindow + increment }).record
            (.granted (s.stream slot).request.address increment))

/-- Carries a change of the initial window over to the streams; the ones before one that it takes beyond the
largest window stay changed. -/
def adjustStreams (difference : Int) : List Http2Stream → Option Http2Error × List Http2Stream
  | [] => (none, [])
  | stream :: rest =>
      if difference > 0 ∧ stream.sendWindow > (http2MaxWindowSize : Int) - difference then
        (some .flowControlError, stream :: rest)
      else
        let (error, rest) := adjustStreams difference rest
        (error, { stream with sendWindow := stream.sendWindow + difference } :: rest)

/-- Carries a change of the initial window over to every stream. -/
def adjustWindows (difference : Int) : Act Unit := do
  let s ← get
  let (error, streams) := if difference ≠ 0 then adjustStreams difference s.streams else (none, s.streams)
  set { s with streams }
  match error with
  | some e => throw e
  | none => pure ()

/-- Bounds the table of the encoder by the size that the peer is able to keep. -/
def boundEncoder (headerTableSize : Nat) : Act Unit := do
  let s ← get
  if headerTableSize < hpackTableSize then
    match s.encoder.resize headerTableSize with
    | .error _ => throw .compressionError
    | .ok encoder => set { s with encoder }
  else pure ()

def applySettings (data : Bytes) : Act Unit := do
  let s ← get
  let (result, remote) := (decodeSettingsHttp2 data).run s.remote
  set { s with remote, history := .applied remote.initialWindowSize :: s.history }
  match result with
  | .error e => throw e
  | .ok _ => do
      adjustWindows (remote.initialWindowSize - s.remote.initialWindowSize)
      boundEncoder remote.headerTableSize

end Http2Connection

end Viriatum
