import Viriatum.Http.Websocket

/-!
# The websockets of an application

The context of a request that has been upgraded gathers the frames of the client into messages, which the application gets
as events, and writes the frames that the application sends. What is pushed and written is recorded in the order it is.
-/

namespace Viriatum

inductive AsgiWebsocket where
  | connecting
  | connected
  | closed
deriving DecidableEq, Repr

inductive WebsocketEvent where
  | connect
  | receiveText (text : String)
  | receiveBytes (data : Bytes)
  | disconnect (code : UInt16)
deriving DecidableEq, Repr

/-- What leaves the context of a websocket: an event is pushed to the application, or data is written to the connection,
which is closed as soon as it has been sent if that is asked for. -/
inductive WebsocketOutput where
  | event (event : WebsocketEvent)
  | write (data : Bytes) (close : Bool)
deriving DecidableEq, Repr

/-- The part of the context of a request that a websocket takes. -/
structure AsgiContext where
  websocketState : AsgiWebsocket
  websocketBuffer : Bytes
  websocketMessage : Bytes
  websocketOpcode : WebsocketOpcode
  /-- Whether the data of the connection has been redirected to the reader of frames. -/
  upgraded : Bool
  log : List WebsocketOutput
deriving DecidableEq, Repr

/-- The text that bytes encode strictly. -/
def decodeUtf8 (data : Bytes) : Option String := String.fromUTF8? ⟨data.toArray⟩

def viriatumAsgiRejected : Bytes :=
  bytes "HTTP/1.1 403 Forbidden\r\nContent-Length: 0\r\nConnection: close\r\n\r\n"

namespace AsgiContext

def pushEventHandlerAsgi (event : WebsocketEvent) (c : AsgiContext) : AsgiContext :=
  { c with log := c.log ++ [.event event] }

def writeRawHandlerAsgi (data : Bytes) (close : Bool) (c : AsgiContext) : AsgiContext :=
  { c with log := c.log ++ [.write data close] }

def closeWebsocketHandlerAsgi (code : UInt16) (reason : Option Bytes) (c : AsgiContext) : AsgiContext :=
  if c.websocketState = .closed then c
  else
    let c := { c with websocketState := .closed }
    match buildCloseWebsocket code reason with
    | .error _ => c
    | .ok frame => c.writeRawHandlerAsgi frame true

def resetMessage (c : AsgiContext) : AsgiContext := { c with websocketMessage := [], websocketOpcode := .continuation }

def deliverWebsocketHandlerAsgi (c : AsgiContext) : AsgiContext :=
  if c.websocketOpcode = .text then
    match decodeUtf8 c.websocketMessage with
    | none => (c.closeWebsocketHandlerAsgi websocketCloseInvalid (bytes "invalid utf-8 payload")).resetMessage
    | some text => (c.pushEventHandlerAsgi (.receiveText text)).resetMessage
  else (c.pushEventHandlerAsgi (.receiveBytes c.websocketMessage)).resetMessage

/-- The payload of a frame goes behind the ones of its message that came before. -/
def gatherWebsocketHandlerAsgi (frame : WebsocketFrame) (c : AsgiContext) : AsgiContext :=
  if c.websocketMessage.length + frame.payload.length > viriatumWebsocketMaxPayload then
    c.closeWebsocketHandlerAsgi websocketCloseTooLarge (bytes "message is too large")
  else
    let c := { c with websocketMessage := c.websocketMessage ++ frame.payload }
    if frame.fin then c.deliverWebsocketHandlerAsgi else c

def frameWebsocketHandlerAsgi (frame : WebsocketFrame) (c : AsgiContext) : AsgiContext :=
  match frame.opcode with
  | .ping =>
      match buildFrameWebsocket .pong true frame.payload with
      | .error _ => c
      | .ok pong => c.writeRawHandlerAsgi pong false
  | .pong => c
  | .close =>
      (c.pushEventHandlerAsgi (.disconnect (closeCodeWebsocket frame.payload))).closeWebsocketHandlerAsgi
        websocketCloseNormal none
  | .continuation =>
      if c.websocketOpcode = .continuation then
        c.closeWebsocketHandlerAsgi websocketCloseProtocol (bytes "unexpected continuation frame")
      else c.gatherWebsocketHandlerAsgi frame
  | opcode =>
      if c.websocketOpcode ≠ .continuation then
        c.closeWebsocketHandlerAsgi websocketCloseProtocol (bytes "unexpected data frame")
      else { c with websocketOpcode := opcode }.gatherWebsocketHandlerAsgi frame

/-- The rounds of the loop over the frames in the buffer are bounded: every frame takes some of the bytes. -/
def framesWebsocketHandlerAsgi : Nat → AsgiContext → AsgiContext
  | 0, c => c
  | rounds + 1, c =>
      match parseFrameWebsocket c.websocketBuffer with
      | .error message =>
          { c.closeWebsocketHandlerAsgi websocketCloseProtocol (bytes message) with websocketBuffer := [] }
      | .ok none => c
      | .ok (some frame) =>
          let handled := c.frameWebsocketHandlerAsgi frame
          if handled.websocketState = .closed then { handled with websocketBuffer := [] }
          else { handled with websocketBuffer := c.websocketBuffer.drop frame.size }.framesWebsocketHandlerAsgi rounds

def dataHandlerWebsocketAsgi (data : Bytes) (c : AsgiContext) : AsgiContext :=
  let c := { c with websocketBuffer := c.websocketBuffer ++ data }
  c.framesWebsocketHandlerAsgi c.websocketBuffer.length

/-- The fields that the response of the handshake ends with are the key, the protocol and the headers of the
application. -/
def acceptWebsocketHandlerAsgi (fields : Bytes) (c : AsgiContext) : AsgiContext :=
  if c.websocketState = .connecting then
    let head := bytes "HTTP/1.1 101 Switching Protocols\r\nUpgrade: websocket\r\nConnection: Upgrade\r\n"
    { c.writeRawHandlerAsgi (head ++ fields ++ bytes "\r\n") false with
      upgraded := true, websocketState := .connected }
  else c

/-- A message of the application, as a text or as bytes. -/
def sendWebsocketHandlerAsgi (text : Bool) (data : Bytes) (c : AsgiContext) : AsgiContext :=
  if c.websocketState = .connected then
    match buildFrameWebsocket (if text then .text else .binary) true data with
    | .error _ => c
    | .ok frame => c.writeRawHandlerAsgi frame false
  else c

/-- The closing that the application asks for, or that its end takes: a handshake that has not been accepted is refused. -/
def endWebsocketHandlerAsgi (code : UInt16) (reason : Option Bytes) (c : AsgiContext) : AsgiContext :=
  if c.websocketState = .connecting then
    { c with websocketState := .closed }.writeRawHandlerAsgi viriatumAsgiRejected true
  else c.closeWebsocketHandlerAsgi code reason

def doneHandlerAsgi (c : AsgiContext) : AsgiContext := c.endWebsocketHandlerAsgi websocketCloseNormal none

/-- The context as the application is called with a scope of a websocket. -/
def create : AsgiContext := ⟨.connecting, [], [], .continuation, false, [.event .connect]⟩

end AsgiContext

/-- What happens to a websocket: data of the client is read, the application sends one of its messages or its task ends. A
message that the application may not send raises an error in it and does nothing else. -/
inductive WebsocketInput where
  | read (data : Bytes)
  | accept (fields : Bytes)
  | send (text : Bool) (data : Bytes)
  | close (code : UInt16) (reason : Option Bytes)
  | done
deriving DecidableEq, Repr

namespace AsgiContext

def step (c : AsgiContext) : WebsocketInput → AsgiContext
  | .read data => if c.upgraded ∧ data ≠ [] then c.dataHandlerWebsocketAsgi data else c
  | .accept fields => c.acceptWebsocketHandlerAsgi fields
  | .send text data => c.sendWebsocketHandlerAsgi text data
  | .close code reason => c.endWebsocketHandlerAsgi code reason
  | .done => c.doneHandlerAsgi

def run (inputs : List WebsocketInput) (c : AsgiContext) : AsgiContext := inputs.foldl step c

end AsgiContext

end Viriatum
