import Viriatum.Handlers.FileResponse

/-!
# A connection of the handler of the files

A connection of HTTP/1.1 takes the messages out of its buffer one by one: the handler keeps it locked from a message that
is complete to the callback of the last write of the response, which releases it or closes the connection. The writes are
called back in the order that they are queued in.
-/

namespace Viriatum

open Library

def fileBufferSize : Nat := 262144

/-- The callback of a write. The one of a page deletes the template before it does the same as the other. -/
inductive FileWrite where
  | none
  | cleanup
  | sendChunk
deriving DecidableEq, Repr

/-- The part of the context that the file is sent with. -/
structure FileExchange where
  request : FileRequest
  initialByte : Nat := 0
  finalByte : Nat := 0
  offset : Nat := 0
  opened : Bool := false

/-- A connection, what has been written to it, and the requests that the handler has been given. -/
structure FileConnection where
  lock : Bool := false
  closed : Bool := false
  buffered : List FileRequest := []
  writeQueue : List FileWrite := []
  exchange : Option FileExchange := none
  output : Bytes := []
  served : List FileRequest := []

/-- What comes of the opening of a file that is to be sent, and of a read from it. -/
structure FileReading where
  opens : Bool
  data : Bytes
deriving DecidableEq, Repr

/-- A message that has arrived, or the oldest of the writes that has gone out, with what is there for the message that is
handled next. -/
inductive FileInput where
  | received (request : FileRequest) (sight : Sight)
  | written (reading : FileReading) (sight : Sight)

/-- The file is opened once, and read from the first byte that is wanted. -/
def openFileCache (e : FileExchange) : FileExchange :=
  if e.opened then e else { e with opened := true, offset := e.initialByte }

/-- Reads a part of the file, which is opened first. There is nothing more to be sent where it gives none. -/
def readChunk (reading : FileReading) (e : FileExchange) : Option (Bytes × FileExchange) :=
  if !e.opened && !reading.opens then none
  else
    let e := openFileCache e
    let remaining := spanSize e.offset e.finalByte
    let data := reading.data.take (min remaining fileBufferSize)
    if data = [] then none else some (data, { e with offset := (e.offset + data.length) % 2 ^ 64 })

namespace FileConnection

def write (data : Bytes) (callback : FileWrite) (c : FileConnection) : FileConnection :=
  { c with output := c.output ++ data, writeQueue := c.writeQueue ++ [callback] }

/-- Locks the connection for a message that is complete, and starts the response. -/
def complete (service : FileService) (request : FileRequest) (sight : Sight) (c : FileConnection) : FileConnection :=
  let response := messageCompleteHandlerFile service request sight
  let head := headHandlerFile service request.keepAlive response
  let c := { c with lock := true, served := c.served ++ [request], exchange := some { request } }
  match response.payload with
  | .none => c.write head .cleanup
  | .text data => (c.write head .none).write data .cleanup
  | .span initialByte finalByte =>
      { c with exchange := some { request, initialByte, finalByte } }.write head .sendChunk

/-- Handles the next of the messages in the buffer. -/
def drain (service : FileService) (sight : Sight) (c : FileConnection) : FileConnection :=
  match c.buffered with
  | [] => c
  | request :: buffered => { c with buffered }.complete service request sight

def cleanup (service : FileService) (keepAlive : Bool) (sight : Sight) (c : FileConnection) : FileConnection :=
  if keepAlive then { c with exchange := none, lock := false }.drain service sight
  else { c with exchange := none, closed := true }

def sendChunk (service : FileService) (reading : FileReading) (sight : Sight) (e : FileExchange) (c : FileConnection) :
    FileConnection :=
  match readChunk reading e with
  | none => c.cleanup service e.request.keepAlive sight
  | some (data, e) => { c with exchange := some e }.write data .sendChunk

def step (service : FileService) (c : FileConnection) : FileInput → FileConnection
  | .received request sight =>
      if c.closed then c
      else if c.lock then { c with buffered := c.buffered ++ [request] }
      else { c with buffered := c.buffered ++ [request] }.drain service sight
  | .written reading sight =>
      match c.writeQueue, c.exchange with
      | callback :: writeQueue, some e =>
          match callback with
          | .none => { c with writeQueue }
          | .cleanup => { c with writeQueue }.cleanup service e.request.keepAlive sight
          | .sendChunk => { c with writeQueue }.sendChunk service reading sight e
      | _, _ => c

end FileConnection

/-! ## Under HTTP/2 -/

def sendChunks : List FileReading → FileExchange → Bytes
  | [], _ => []
  | reading :: readings, e =>
      match readChunk reading e with
      | none => []
      | some (data, e) => data ++ sendChunks readings e

/-- The payload of the frames that a response is sent with under HTTP/2, which is what the handler writes behind the
head. -/
def dataPayload (service : FileService) (request : FileRequest) (sight : Sight) (readings : List FileReading) : Bytes :=
  match (messageCompleteHandlerFile service request sight).payload with
  | .none => []
  | .text data => data
  | .span initialByte finalByte => sendChunks readings { request, initialByte, finalByte }

end Viriatum
