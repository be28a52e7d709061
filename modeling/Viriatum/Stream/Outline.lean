import Viriatum.Library.Moves
import Viriatum.Stream.Steps

/-!
# The outline of a session

An abstract session: the place of each stream in the tree of the priorities and its window, the counters and the
history. It leaves out the bytes, the handlers and the states of the codec. Its moves say what any step of a session
may do, so that what holds of all of them holds of every run.
-/

namespace Viriatum

open Library

structure OutlineStream where
  streamId : Nat
  dependency : Nat
  sendWindow : Int
  address : Nat
deriving DecidableEq, Repr

structure Outline where
  streams : List OutlineStream
  /-- The initial window that the peer has announced. -/
  initialWindow : Nat
  sendWindow : Int
  lastStreamId : Nat
  pushStreamId : Nat
  goaway : Bool
  nextAddress : Nat
  history : List Event
deriving DecidableEq

def Http2Stream.outline (stream : Http2Stream) : OutlineStream where
  streamId := stream.streamId
  dependency := stream.priority.dependency
  sendWindow := stream.sendWindow
  address := stream.request.address

def Http2Connection.outline (s : Http2Connection) : Outline where
  streams := s.streams.map Http2Stream.outline
  initialWindow := s.remote.initialWindowSize
  sendWindow := s.sendWindow
  lastStreamId := s.lastStreamId
  pushStreamId := s.pushStreamId
  goaway := s.goaway
  nextAddress := s.nextAddress
  history := s.history

/-- The kinds of the moves of a session. -/
inductive MoveKind where
  | received (frame : Http2Frame)
  | called
  | began
  | wrote
  | emitted
  | opened (streamId : Nat)
  | promised
  | skipped
  | prioritised
  | closed (streamId : Nat)
  | widened (increment : Nat)
  | granted (streamId increment : Nat)
  | applied
  | spoiled
  | reset (streamId : Nat)
  | away
  | failed (error : Http2Error)
deriving DecidableEq, Repr

namespace OutlineStream

/-- The stream without its window. -/
def place (stream : OutlineStream) : Nat × Nat × Nat := (stream.streamId, stream.dependency, stream.address)

/-- What tells a stream from the others, which no operation changes. -/
def key (stream : OutlineStream) : Nat × Nat := (stream.streamId, stream.address)

end OutlineStream

namespace Outline

def ids (o : Outline) : List Nat := o.streams.map OutlineStream.streamId

def keys (o : Outline) : List (Nat × Nat) := o.streams.map OutlineStream.key

def record (o : Outline) (event : Event) : Outline := { o with history := event :: o.history }

/-- Whether the walk up the tree from a stream comes to another one within a number of steps. -/
def descends (streams : List OutlineStream) : (steps streamId ancestorId : Nat) → Bool
  | 0, _, _ => false
  | steps + 1, streamId, ancestorId =>
      if streamId = 0 then false
      else if streamId = ancestorId then true
      else
        match streams.find? fun stream => stream.streamId = streamId with
        | none => false
        | some stream => descends streams steps stream.dependency ancestorId

/-- Gives the stream with an identifier another dependency. -/
def depend (streams : List OutlineStream) (streamId dependency : Nat) : List OutlineStream :=
  match streams.findIdx? fun stream => stream.streamId = streamId with
  | none => streams
  | some i => streams.modify i fun stream => { stream with dependency }

/-- Hangs every stream that hangs from the dependency from the stream instead. -/
def adopt (streams : List OutlineStream) (streamId dependency : Nat) : List OutlineStream :=
  streams.map fun stream =>
    if stream.streamId = streamId then stream
    else if stream.dependency ≠ dependency then stream
    else { stream with dependency := streamId }

/-- The streams once the one at an index hangs from the dependency. -/
def place (streams : List OutlineStream) (i : Nat) (stream : OutlineStream) (dependency : Nat) (exclusive : Bool) :
    List OutlineStream :=
  let streams :=
    if descends streams streams.length dependency stream.streamId then depend streams dependency stream.dependency
    else streams
  let streams := if exclusive then adopt streams stream.streamId dependency else streams
  streams.modify i fun stream => { stream with dependency }

/-- Hangs a stream from where the one that is closed hung, if it hung from that one. -/
def reparent (closed stream : OutlineStream) : OutlineStream :=
  if stream.dependency = closed.streamId then { stream with dependency := closed.dependency } else stream

def shift (difference : Int) (stream : OutlineStream) : OutlineStream :=
  { stream with sendWindow := stream.sendWindow + difference }

/-- The identifiers and the dependencies of the streams. -/
def tree (o : Outline) : List (Nat × Nat) := o.streams.map fun stream => (stream.streamId, stream.dependency)

/-- Adds a stream to the table. -/
def enrol (o : Outline) (streamId dependency : Nat) : Outline where
  streams := o.streams ++ [{ streamId, dependency, sendWindow := o.initialWindow, address := o.nextAddress }]
  initialWindow := o.initialWindow
  sendWindow := o.sendWindow
  lastStreamId := o.lastStreamId
  pushStreamId := o.pushStreamId
  goaway := o.goaway
  nextAddress := o.nextAddress + 1
  history := .opened o.nextAddress streamId :: o.history

/-- Ends the session with an error of the connection. -/
def fail (o : Outline) (error : Http2Error) : Outline :=
  if o.goaway then o.record (.failed error)
  else
    ({ o with goaway := true }.record (.failed error)).record (.wrote none (encodeGoawayHttp2 o.lastStreamId error.code))

/-- The moves of a session. -/
inductive Move : MoveKind → Outline → Outline → Prop
  | received {o : Outline} (frame : Http2Frame) : Move (.received frame) o (o.record (.received frame))
  | called {o : Outline} (callback : Callback) (hc : ∀ a, callback ≠ .messageBegin a) :
      Move .called o (o.record (.called callback))
  | began {o : Outline} (address : Nat) : Move .began o (o.record (.called (.messageBegin address)))
  /-- A frame is written that carries no payload and neither resets a stream nor ends the session. -/
  | wrote {o : Outline} (owner : Option Nat) (frame : Http2Frame)
      (ht : frame.type ≠ .data ∧ frame.type ≠ .rstStream ∧ frame.type ≠ .goaway)
      (hid : frame.streamId = 0 ∨ frame.streamId ∈ o.ids) : Move .wrote o (o.record (.wrote owner frame))
  /-- A frame of payload is written for a stream, within both windows. -/
  | emitted {o : Outline} (i : Nat) (stream : OutlineStream) (frame : Http2Frame) (hi : o.streams[i]? = some stream)
      (ht : frame.type = .data) (hid : frame.streamId = stream.streamId)
      (hs : (frame.length : Int) ≤ stream.sendWindow) (hc : (frame.length : Int) ≤ o.sendWindow) :
      Move .emitted o ({ o with
        streams := o.streams.set i (shift (-frame.length) stream)
        sendWindow := o.sendWindow - frame.length }.record (.wrote (some stream.address) frame))
  | opened {o : Outline} (streamId : Nat) (hodd : streamId % 2 = 1) (hlast : o.lastStreamId < streamId)
      (hroom : o.streams.length < http2StreamSlots) :
      Move (.opened streamId) o { o.enrol streamId 0 with lastStreamId := streamId }
  /-- A stream is promised on another one. -/
  | promised {o : Outline} (i : Nat) (parent : OutlineStream) (frame : Http2Frame) (streamId : Nat)
      (hi : o.streams[i]? = some parent) (ht : frame.type = .pushPromise ∧ frame.streamId = parent.streamId)
      (hid : streamId = (o.pushStreamId + 2) % 2 ^ 32) (hmax : streamId ≤ http2MaxStreamId)
      (hroom : o.streams.length < http2StreamSlots) :
      Move .promised o ((({ o with pushStreamId := streamId }.record (.wrote (some parent.address) frame)).record
        (.promised parent.streamId streamId o.tree)).enrol streamId parent.streamId)
  /-- The identifiers of promises have run out. -/
  | skipped {o : Outline} (streamId : Nat) (hid : streamId = (o.pushStreamId + 2) % 2 ^ 32)
      (hmax : http2MaxStreamId < streamId) : Move .skipped o { o with pushStreamId := streamId }
  | prioritised {o : Outline} (i : Nat) (stream : OutlineStream) (dependency : Nat) (exclusive : Bool)
      (hi : o.streams[i]? = some stream) (hne : dependency ≠ stream.streamId) :
      Move .prioritised o { o with streams := place o.streams i stream dependency exclusive }
  | closed {o : Outline} (i : Nat) (stream : OutlineStream) (streams : List OutlineStream)
      (hi : o.streams[i]? = some stream)
      (hperm : streams.Perm ((o.streams.eraseIdx i).map (reparent stream))) :
      Move (.closed stream.streamId) o ({ o with streams }.record (.closed stream.address))
  | widened {o : Outline} (increment : Nat) (hpos : 0 < increment)
      (hmax : o.sendWindow + increment ≤ http2MaxWindowSize) :
      Move (.widened increment) o { o with sendWindow := o.sendWindow + increment }
  | granted {o : Outline} (i : Nat) (stream : OutlineStream) (increment : Nat) (hi : o.streams[i]? = some stream)
      (hpos : 0 < increment) (hmax : stream.sendWindow + increment ≤ http2MaxWindowSize) :
      Move (.granted stream.streamId increment) o ({ o with
        streams := o.streams.set i (shift increment stream) }.record (.granted stream.address increment))
  /-- Settings of the peer are applied, the windows of the streams with them. -/
  | applied {o : Outline} (window : Nat) (hw : window ≤ http2MaxWindowSize)
      (hmax : 0 < (window : Int) - o.initialWindow →
        ∀ stream ∈ o.streams, stream.sendWindow + ((window : Int) - o.initialWindow) ≤ http2MaxWindowSize) :
      Move .applied o ({ o with
        streams := o.streams.map (shift ((window : Int) - o.initialWindow))
        initialWindow := window }.record (.applied window))
  /-- Settings of the peer are refused after a part of them has been applied. -/
  | spoiled {o : Outline} (window : Nat) (streams : List OutlineStream) (hw : window ≤ http2MaxWindowSize)
      (hplace : streams.map OutlineStream.place = o.streams.map OutlineStream.place) :
      Move .spoiled o ({ o with streams, initialWindow := window }.record (.applied window))
  | reset {o : Outline} (streamId code : Nat) (hid : streamId ≠ 0) :
      Move (.reset streamId) o (o.record (.wrote none (encodeValueHttp2 .rstStream streamId code)))
  | away {o : Outline} : Move .away o { o with goaway := true }
  | failed {o : Outline} (error : Http2Error) : Move (.failed error) o (o.fail error)

end Outline

end Viriatum
