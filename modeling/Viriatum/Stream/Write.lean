import Viriatum.Stream.Streams

/-!
# Writing frames

The frames that a session queues on its connection, and the scheduling of the payload that its streams hold back.
-/

namespace Viriatum

open Library

namespace Http2Connection

/-- Queues a buffer that carries frames, with what is called once it has been written. -/
def queueFrames (owner : Option Nat) (frames : List Http2Frame) (callback : Http2Callback) (s : Http2Connection) :
    Http2Connection :=
  { s with
    writeQueue := s.writeQueue ++ [{ data := frames.flatMap Http2Frame.encode, callback }]
    history := (frames.map (Event.wrote owner)).reverse ++ s.history }

def writeValue (type : Http2FrameType) (streamId value : Nat) (s : Http2Connection) : Http2Connection :=
  queueFrames none [encodeValueHttp2 type streamId value] .none s

/-- Tells the peer that the connection is going away, which closes it once the frame is written; the connection that
has already been told is closed at once. -/
def writeGoaway (error : Http2Error) (s : Http2Connection) : Http2Connection :=
  if s.goaway then { s with connectionClosed := true }
  else queueFrames none [encodeGoawayHttp2 s.lastStreamId error.code] .close { s with goaway := true }

/-- Writes the settings of this end, or the acknowledgement of the ones of the peer. -/
def writeSettings (ack : Bool) (s : Http2Connection) : Http2Connection :=
  if ack then queueFrames none [{ type := .settings, flags := http2FlagAck, streamId := 0, payload := [] }] .none s
  else queueFrames none [encodeSettingsHttp2 s.settings] .none s

def writePing (data : Bytes) (s : Http2Connection) : Http2Connection :=
  queueFrames none [{ type := .ping, flags := http2FlagAck, streamId := 0, payload := data.take http2PingSize }] .none s

/-! ## Payload -/

/-- What a round of the flushing of a stream writes of the fragment it holds back first. -/
def flushAllowed (s : Http2Connection) (slot : Nat) (fragment : Http2Pending) : Nat :=
  let window := min (s.stream slot).sendWindow s.sendWindow
  min (min fragment.remaining window.toNat) s.remote.maxFrameSize

/-- Marks that this end has said everything it had to say on a stream. -/
def Http2Stream.completed (stream : Http2Stream) : Http2Stream :=
  { stream with complete := true, state := if stream.state = .open then .halfClosedLocal else stream.state }

/-- Writes a part of the fragment that the stream in the slot holds back first, the header of the frame and the
payload being queued apart. The fragment is taken off once the last part of it goes out, its callback with it. -/
def flushFragment (slot : Nat) (fragment : Http2Pending) (s : Http2Connection) : Http2Connection :=
  let stream := s.stream slot
  let allowed := s.flushAllowed slot fragment
  let complete := allowed = fragment.remaining
  let frame : Http2Frame := {
    type := .data
    flags := if fragment.last ∧ complete then http2FlagEndStream else 0x00
    streamId := stream.streamId
    payload := (fragment.data.drop fragment.offset).take allowed }
  let stream := { stream with
    sendWindow := stream.sendWindow - allowed
    pending :=
      if complete then stream.pending.tail
      else { fragment with offset := fragment.offset + allowed } :: stream.pending.tail }
  let stream := if fragment.last ∧ complete then Http2Stream.completed stream else stream
  { s with
    streams := s.streams.set slot stream
    sendWindow := s.sendWindow - allowed
    writeQueue := s.writeQueue ++
      [ { data := encodeFrameHttp2 allowed .data frame.flags frame.streamId, callback := .none },
        { data := frame.payload, callback := if complete then .stream stream.streamId fragment.tag else .none } ]
    history := .wrote (some stream.request.address) frame :: s.history }

/-- The bound of the rounds that the flushing of a stream takes: each takes a fragment off or shortens the first. -/
def flushRounds (pending : List Http2Pending) : Nat := (pending.map fun p => p.remaining + 1).sum

/-- Writes as much of the payload that the stream in a slot holds back as the windows let through. -/
def flushStream (slot : Nat) : (rounds : Nat) → Http2Connection → Http2Connection
  | 0, s => s
  | rounds + 1, s =>
      match (s.stream slot).pending with
      | [] => s
      | fragment :: _ =>
          if min (s.stream slot).sendWindow s.sendWindow ≤ 0 then s
          else flushStream slot rounds (s.flushFragment slot fragment)

def flush (slot : Nat) (s : Http2Connection) : Http2Connection :=
  flushStream slot (flushRounds (s.stream slot).pending) s

/-! ## Scheduling -/

/-- Whether the walk up from an identifier meets a stream that holds payload back and a window that lets it
through, within as many steps as there are streams. -/
def blockedFrom (s : Http2Connection) : (steps streamId : Nat) → Bool
  | 0, _ => false
  | steps + 1, streamId =>
      if streamId = 0 then false
      else
        match s.findStream streamId with
        | none => false
        | some parent =>
            if (s.stream parent).pending ≠ [] ∧ (s.stream parent).sendWindow > 0 then true
            else blockedFrom s steps (s.stream parent).priority.dependency

/-- Whether a stream is kept from writing by one of the streams it depends on. -/
def blocked (s : Http2Connection) (slot : Nat) : Bool := s.blockedFrom s.count (s.stream slot).priority.dependency

/-- Whether the stream in a slot is able to write. -/
def writable (s : Http2Connection) (slot : Nat) : Bool :=
  (s.stream slot).pending ≠ [] ∧ (s.stream slot).sendWindow > 0 ∧ s.blocked slot = false

/-- The first of the heaviest streams that are able to write. -/
def choose (s : Http2Connection) : Option Nat :=
  (List.range s.count).foldl
    (fun chosen slot =>
      if s.writable slot then
        match chosen with
        | none => some slot
        | some best =>
            if (s.stream slot).priority.weight > (s.stream best).priority.weight then some slot else chosen
      else chosen)
    none

def scheduleRounds : (rounds : Nat) → Http2Connection → Http2Connection
  | 0, s => s
  | rounds + 1, s =>
      match s.choose with
      | none => s
      | some chosen =>
          let s' := s.flush chosen
          if (s'.stream chosen).pending.length = (s.stream chosen).pending.length then s'
          else scheduleRounds rounds s'

/-- Writes the payload that the streams hold back, in the order of the tree and of the weights. -/
def schedule (s : Http2Connection) : Http2Connection := scheduleRounds http2StreamSlots s

end Http2Connection

end Viriatum
