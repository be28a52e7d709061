import Viriatum.Http.Http2

/-!
# The session of a connection

What a session of HTTP/2 keeps: its streams, its windows, the tables of both directions, the writes queued on the
connection and, for the properties of whole runs, the history of what it has done. The handlers that serve the
streams are any functions from what a session shows them to the operations they call back.
-/

namespace Viriatum

open Library

/-- The largest header block assembled out of a sequence of continuation frames. -/
def http2MaxBlock : Nat := 65536

/-- The size of the buffers that a response is built in. -/
def viriatumHttpSize : Nat := 4096

def viriatumMaxUrlSize : Nat := 4096

def viriatumMaxPathSize : Nat := 1024

def viriatumMaxHeaderSize : Nat := 1024

/-- The slots of the table of streams. -/
def http2StreamSlots : Nat := http2MaxConcurrent

inductive Http2StreamState where
  | idle
  | reservedLocal
  | reservedRemote
  | open
  | halfClosedLocal
  | halfClosedRemote
  | closed
deriving DecidableEq, Repr

/-- The message that the handlers observe for a stream. The address tells it from every other message. -/
structure HttpRequest where
  address : Nat
  streamId : Nat
  method : Nat := 0
  trailers : Bool := false
  scheme : Bytes := bytes "http"
  authority : Bytes := []
  path : Bytes := []
deriving DecidableEq, Repr

/-- A fragment of the payload of a response that waits for the windows. The tag stands for the callback of the
handler and its parameters. -/
structure Http2Pending where
  data : Bytes
  offset : Nat
  last : Bool
  tag : Option Nat
deriving DecidableEq, Repr

namespace Http2Pending

abbrev size (p : Http2Pending) : Nat := p.data.length

def remaining (p : Http2Pending) : Nat := p.size - p.offset

end Http2Pending

structure Http2Stream where
  streamId : Nat
  state : Http2StreamState
  sendWindow : Int
  receiveWindow : Int
  priority : Http2Priority
  request : HttpRequest
  handler : Option Nat
  endStream : Bool
  headersComplete : Bool
  complete : Bool
  contentLength : Nat
  announced : Bool
  received : Nat
  pending : List Http2Pending
deriving DecidableEq, Repr

/-- A slot that is not in use. -/
def Http2Stream.unused : Http2Stream where
  streamId := 0
  state := .idle
  sendWindow := 0
  receiveWindow := 0
  priority := { dependency := 0, weight := 0, exclusive := false }
  request := { address := 0, streamId := 0 }
  handler := none
  endStream := false
  headersComplete := false
  complete := false
  contentLength := 0
  announced := false
  received := 0
  pending := []

/-- What is called once a write of the queue has completed: nothing, the closing of the connection, the structure
that restores a stream and resumes its handler, or the handler itself. -/
inductive Http2Callback where
  | none
  | close
  | stream (streamId : Nat) (tag : Option Nat)
  | handler (tag : Nat)
deriving DecidableEq, Repr

structure QueuedWrite where
  data : Bytes
  callback : Http2Callback
deriving DecidableEq, Repr

/-- The calls that reach a handler, each with the address of the message it is about. -/
inductive Callback where
  | set (address : Nat)
  | unset (address : Nat)
  | messageBegin (address : Nat)
  | url (address : Nat) (data : Bytes)
  | headerField (address : Nat) (data : Bytes)
  | headerValue (address : Nat) (data : Bytes)
  | headersComplete (address : Nat)
  | body (address : Nat) (data : Bytes)
  | messageComplete (address : Nat)
  | written (tag : Nat)
deriving DecidableEq, Repr

/-- What a session has done. The owner of a frame written is the message of the stream it is written for. -/
inductive Event where
  | received (frame : Http2Frame)
  | failed (error : Http2Error)
  | wrote (owner : Option Nat) (frame : Http2Frame)
  | called (callback : Callback)
  | opened (address streamId : Nat)
  /-- A stream is promised on another one, of the tree given as identifiers and their dependencies. -/
  | promised (parentId streamId : Nat) (tree : List (Nat × Nat))
  | closed (address : Nat)
  /-- An increment is added to the window of a stream. -/
  | granted (address increment : Nat)
  /-- Settings of the peer are applied that give the initial window. -/
  | applied (initialWindowSize : Nat)
deriving DecidableEq, Repr

/-- The message that an HTTP connection currently points at. -/
structure RequestPointer where
  address : Nat
  streamId : Nat
deriving DecidableEq, Repr

structure Http2Connection where
  settings : Http2Settings
  remote : Http2Settings
  decoder : HpackTable
  encoder : HpackTable
  /-- The slots of the table in use. -/
  streams : List Http2Stream
  lastStreamId : Nat
  pushStreamId : Nat
  sendWindow : Int
  receiveWindow : Int
  /-- Whether the preface of the connection has been consumed. -/
  preface : Bool
  goaway : Bool
  continuation : Nat
  refused : Nat
  continuationFlags : UInt8
  block : Bytes
  /-- The message and the handler that the HTTP connection points at. -/
  request : Option RequestPointer
  handler : Option Nat
  writeQueue : List QueuedWrite
  connectionClosed : Bool
  /-- The address of the next message to be created. -/
  nextAddress : Nat
  /-- What has been done, the latest first. -/
  history : List Event
deriving DecidableEq

/-- What a handler does with the operations of the connection. -/
inductive HandlerAction where
  /-- Points the connection at the message with the address. -/
  | select (address : Nat)
  /-- Lets another handler serve the connection, or none. -/
  | setHandler (handler : Option Nat)
  /-- Writes the head of a response and flushes it, with the callback of the tag. -/
  | writeFlush (bufferSize statusCode : Nat) (fields : List (Bytes × Bytes)) (last : Bool) (tag : Option Nat)
  /-- Writes the head of a response and queues it as it stands. -/
  | writeConnection (bufferSize statusCode : Nat) (fields : List (Bytes × Bytes)) (last : Bool) (tag : Nat)
  | writeChunk (data : Bytes) (last : Bool) (tag : Option Nat)
  /-- Promises a path on the stream with the identifier. -/
  | pushStream (streamId : Nat) (path : Bytes)
deriving DecidableEq, Repr

/-- The service of a connection: the description of it and what its handlers do at a call, given the session as it
stands. -/
structure Service where
  description : Bytes
  handle : Http2Connection → Callback → List HandlerAction

namespace Http2Connection

abbrev count (s : Http2Connection) : Nat := s.streams.length

/-- The stream in a slot. -/
def stream (s : Http2Connection) (slot : Nat) : Http2Stream := s.streams.getD slot .unused

def modifyStream (s : Http2Connection) (slot : Nat) (f : Http2Stream → Http2Stream) : Http2Connection :=
  { s with streams := s.streams.modify slot f }

def record (s : Http2Connection) (event : Event) : Http2Connection := { s with history := event :: s.history }

/-- The session that takes an HTTP connection over; the connection points at the message of its parser. -/
def create : Http2Connection where
  settings := .create
  remote := .create
  decoder := .create
  encoder := .create
  streams := []
  lastStreamId := 0
  pushStreamId := 0
  sendWindow := http2DefaultWindowSize
  receiveWindow := http2DefaultWindowSize
  preface := false
  goaway := false
  continuation := 0
  refused := 0
  continuationFlags := 0
  block := []
  request := some { address := 0, streamId := 0 }
  handler := none
  writeQueue := []
  connectionClosed := false
  nextAddress := 1
  history := []

/-- Makes the stream in a slot the one that the HTTP connection points at. -/
def activate (s : Http2Connection) (slot : Nat) : Http2Connection :=
  { s with
    request := some { address := (s.stream slot).request.address, streamId := (s.stream slot).request.streamId }
    handler := (s.stream slot).handler }

/-- The slot of the stream with the identifier. -/
def findStream (s : Http2Connection) (streamId : Nat) : Option Nat :=
  s.streams.findIdx? fun stream => stream.streamId = streamId

/-- The slot of the stream that the message of the connection belongs to. -/
def current (s : Http2Connection) : Option Nat :=
  match s.request with
  | none => none
  | some request => s.findStream request.streamId

end Http2Connection

/-- The operations of a session that may end in an error of the connection. -/
abbrev Act := Effect Http2Error Http2Connection

end Viriatum
