import Mathlib.Logic.Function.Basic
import Viriatum.Http.HpackTable

/-!
# The proxy

The exchanges that the handler of the proxy carries between the connections of its clients and the ones of the backend:
the two maps that associate the connections, the parameters that a backend connection carries for an exchange and what
happens as either side is lost. What reads a structure that has been released, or calls itself without an end, gives
nothing back.
-/

namespace Viriatum

open Function (update)

def viriatumMaxRead : Nat := 1048576

def viriatumTreRead : Nat := 786432

/-- The size of the buffers that the path and the line of a request are built in. -/
def proxyLineSize : Nat := 1024

def flagKeepAlive : UInt8 := 2

def flagClose : UInt8 := 4

/-- Whether the connection of a message outlives it, by the version of the message and by its connection field. -/
def httpShouldKeepAlive (major minor : Nat) (flags : UInt8) : Bool :=
  if major > 0 ∧ minor > 0 then flags &&& flagClose = 0 else flags &&& flagKeepAlive ≠ 0

/-- What a connection of a client calls as it closes: the handler of HTTP or the one of the proxy. -/
inductive OnClose where
  | closeHandlerStreamHttp
  | closeProxyConnection
deriving DecidableEq, Repr

/-- What follows a write to a client, for the exchange of a message: bytes of the response are taken off the account of
it, or the exchange ends. -/
inductive ProxyCallback where
  | pending (message size : Nat)
  | cleanup (message : Nat) (keepAlive : Bool)
deriving DecidableEq, Repr

/-- A write handed to the connection of a client. A session of HTTP/2 drops the callback of a message that it no longer
serves, unless the write is handed to the connection past the session. -/
structure ProxyWrite where
  callback : ProxyCallback
  direct : Bool
deriving DecidableEq, Repr

/-- An open connection of a client. -/
structure ProxyClient where
  /-- Whether a session of HTTP/2 drives the connection. -/
  session : Bool
  onClose : Option OnClose
  /-- The messages that the handler of the proxy is set on. -/
  messages : List Nat
  writes : List ProxyWrite
deriving DecidableEq, Repr

/-- An open connection to the backend. -/
structure ProxyBackend where
  /-- The message of the exchange that the parameters of the connection belong to. -/
  parameters : Option Nat
  readRegistered : Bool
  /-- The requests queued on the connection. -/
  requests : List Bytes
deriving DecidableEq, Repr

/-- The context of the exchange of a message. -/
structure HandlerProxyContext where
  connection : Nat
  connectionC : Option Nat
  /-- The flag of the message of the client. -/
  keepAlive : Bool
  buffer : Bytes
  outBuffer : Bytes
  pending : Bool
  pendingWrite : Nat
deriving DecidableEq, Repr

/-- The handler of the proxy and the connections that it is given, by their addresses. -/
structure ProxyHandler where
  clients : Nat → Option ProxyClient
  backends : Nat → Option ProxyBackend
  contexts : Nat → Option HandlerProxyContext
  connectionsMap : Nat → Option Nat
  reverseMap : Nat → Option Nat
  onCloseMap : Nat → Option OnClose
  nextMessage : Nat
  /-- The clients whose HTTP connection has been closed by the handler of HTTP, the latest first. -/
  closed : List Nat

/-- What the parser of the message of a client calls. -/
inductive ClientCallback where
  | headerField (data : Bytes)
  | headerValue (data : Bytes)
  | headersComplete
  | body (data : Bytes)
  | messageComplete
deriving DecidableEq, Repr

/-- What the parser of the response of a backend calls. The head of the response is given as what the writing operations
of the client make of it: the status, a field that has been gathered and the end of the section. -/
inductive BackendCallback where
  | line (written : Bytes)
  | field (written : Bytes)
  | headersComplete (written : Bytes)
  | body (data : Bytes)
  | messageComplete (major minor : Nat) (flags : UInt8)
deriving DecidableEq, Repr

/-- What happens to the proxy. -/
inductive ProxyInput where
  | accept (client : Nat) (session : Bool)
  /-- A message of a client is dispatched to the proxy; a connection to the backend is created if it takes one, or the
  creation of it fails. -/
  | request (client : Nat) (keepAlive : Bool) (method path : Bytes) (created : Option Nat)
  | callback (message : Nat) (callback : ClientCallback)
  | data (backend : Nat) (callbacks : List BackendCallback)
  /-- One of the writes of a client completes, the data that carries its callback being of a size. -/
  | written (client index size : Nat)
  /-- The stream of a message is closed. -/
  | unset (message : Nat)
  | lost (backend : Nat)
  | close (client : Nat)
deriving DecidableEq, Repr

namespace ProxyHandler

def start : ProxyHandler where
  clients _ := none
  backends _ := none
  contexts _ := none
  connectionsMap _ := none
  reverseMap _ := none
  onCloseMap _ := none
  nextMessage := 0
  closed := []

variable (s : ProxyHandler)

def setClient (c : Nat) (client : Option ProxyClient) : ProxyHandler := { s with clients := update s.clients c client }

def setBackend (b : Nat) (backend : Option ProxyBackend) : ProxyHandler :=
  { s with backends := update s.backends b backend }

def setContext (message : Nat) (context : Option HandlerProxyContext) : ProxyHandler :=
  { s with contexts := update s.contexts message context }

/-- Queues a write on the connection of a client. -/
def writeClient (c : Nat) (write : ProxyWrite) : Option ProxyHandler :=
  match s.clients c with
  | none => none
  | some client => some (s.setClient c (some { client with writes := client.writes ++ [write] }))

/-! ## The end of an exchange -/

/-- Lets go of the exchange of a message: the parameters of its backend connection are released. -/
def unsetHandler (message : Nat) : Option ProxyHandler :=
  match s.contexts message with
  | none => none
  | some context =>
      match s.clients context.connection with
      | none => none
      | some client =>
          let s := s.setClient context.connection (some { client with messages := client.messages.erase message })
          let s := s.setContext message none
          match context.connectionC with
          | none => some s
          | some b =>
              match s.backends b with
              | none => none
              | some backend => some (s.setBackend b (some { backend with parameters := none }))

/-- Lets go of several exchanges. -/
def unsetAll : List Nat → ProxyHandler → Option ProxyHandler
  | [], s => some s
  | message :: messages, s => (s.unsetHandler message).bind (unsetAll messages)

/-- Releases the HTTP connection of a client, and every message that it serves with it. -/
def closeHandlerStreamHttp (c : Nat) : Option ProxyHandler :=
  match s.clients c with
  | none => none
  | some client => (unsetAll client.messages s).map fun s => { s with closed := c :: s.closed }

/-! ## The loss of a connection -/

/-- Restores the handler that a client was to call as it closed and undoes the association of it with a backend. -/
def restoreClient (c b : Nat) : Option ProxyHandler :=
  match s.clients c with
  | none => none
  | some client =>
      some { s.setClient c (some { client with onClose := s.onCloseMap c }) with
        connectionsMap := update s.connectionsMap c none
        reverseMap := update s.reverseMap b none
        onCloseMap := update s.onCloseMap c none }

/-- What a backend connection calls as it closes. A cleanup that is queued on it for an exchange under way is dropped
with the connection. -/
def closeBackendHandler (b : Nat) (backend : ProxyBackend) : Option ProxyHandler :=
  let restored : Option ProxyHandler :=
    match s.reverseMap b with
    | none => some s
    | some c => s.restoreClient c b
  restored.bind fun s =>
    match backend.parameters with
    | none => some s
    | some message =>
        match s.contexts message with
        | none => none
        | some context => some (s.setContext message (some { context with connectionC := none }))

/-- Closes a backend connection, which has to be an open one. -/
def closeBackend (b : Nat) : Option ProxyHandler :=
  match s.backends b with
  | none => none
  | some backend => (s.closeBackendHandler b backend).map fun s => s.setBackend b none

/-- What a client connection of the proxy calls as it closes, within a depth of recursion. -/
def closeProxyConnection : (depth c : Nat) → ProxyHandler → Option ProxyHandler
  | 0, _, _ => none
  | depth + 1, c, s =>
      let connectionC := s.connectionsMap c
      let propagated : Option ProxyHandler :=
        match s.onCloseMap c with
        | none => some s
        | some onClose =>
            match s.clients c with
            | none => none
            | some client =>
                let s := s.setClient c (some { client with onClose := some onClose })
                match onClose with
                | .closeHandlerStreamHttp => s.closeHandlerStreamHttp c
                | .closeProxyConnection => closeProxyConnection depth c s
      propagated.bind fun s =>
        let undone : Option ProxyHandler :=
          match connectionC with
          | none => some s
          | some b => (s.closeBackend b).map fun s => { s with reverseMap := update s.reverseMap b none }
        undone.map fun s =>
          { s with
            connectionsMap := update s.connectionsMap c none
            onCloseMap := update s.onCloseMap c none }

/-- Closes the connection of a client; one that is closed already stays so. -/
def closeConnection (depth c : Nat) : Option ProxyHandler :=
  match s.clients c with
  | none => some s
  | some client =>
      let called : Option ProxyHandler :=
        match client.onClose with
        | none => some s
        | some .closeHandlerStreamHttp => s.closeHandlerStreamHttp c
        | some .closeProxyConnection => closeProxyConnection depth c s
      called.map fun s => s.setClient c none

/-! ## The start of an exchange -/

/-- Whether an exchange may take a backend connection: one that carries nothing, or whose exchange is over. -/
def reuseBackend (connectionC : Option Nat) (message : Nat) : Option Bool :=
  match connectionC with
  | none => some false
  | some b =>
      match s.backends b with
      | none => none
      | some backend =>
          match backend.parameters with
          | none => some true
          | some other =>
              if other = message then some true
              else (s.contexts other).map fun pending => !pending.pending

/-- Undoes the association of a backend connection that is left behind with its client. -/
def leaveBehind (connectionC : Option Nat) : ProxyHandler :=
  match connectionC with
  | none => s
  | some b => { s with reverseMap := update s.reverseMap b none }

/-- Puts a new backend connection in the maps of a client, which closes it from here on. -/
def associate (c b message : Nat) : Option ProxyHandler :=
  match s.clients c with
  | none => none
  | some client =>
      some { s.setClient c (some { client with onClose := some .closeProxyConnection }) with
        backends := update s.backends b (some { parameters := some message, readRegistered := true, requests := [] })
        connectionsMap := update s.connectionsMap c (some b)
        reverseMap := update s.reverseMap b (some c)
        onCloseMap := update s.onCloseMap c client.onClose }

/-- The line of a request, with the path as a text that ends at the first zero byte. -/
def requestLine (method path : Bytes) : Bytes :=
  method ++ bytes " " ++ path.takeWhile (· ≠ 0) ++ bytes " HTTP/1.1\r\n"

/-- Takes a backend connection for the exchange of a message, or creates one; the creation of it may fail. -/
def takeBackend (message : Nat) (context : HandlerProxyContext) (created : Option Nat) : Option ProxyHandler :=
  let connectionC := s.connectionsMap context.connection
  let context := { context with pending := true, pendingWrite := 0 }
  match s.reuseBackend connectionC message with
  | none => none
  | some true =>
      match connectionC with
      | none => none
      | some b =>
          match s.backends b with
          | none => none
          | some backend =>
              some ((s.setContext message (some { context with connectionC := some b })).setBackend b
                (some { backend with parameters := some message }))
  | some false =>
      let s := s.leaveBehind connectionC
      match created with
      | none => some (s.setContext message (some { context with connectionC := none }))
      | some b =>
          (s.setContext message (some { context with connectionC := some b })).associate context.connection b message

/-- Serves the virtual url of a message. The path and the line are built in buffers of a fixed size. -/
def virtualUrl (message : Nat) (method path : Bytes) (created : Option Nat) : Option ProxyHandler :=
  match s.contexts message with
  | none => none
  | some context =>
      if path.length ≥ proxyLineSize ∨ (requestLine method path).length ≥ proxyLineSize then none
      else
        s.takeBackend message
          { context with buffer := context.buffer ++ requestLine method path ++ bytes "X-Viriatum-Proxy:1\r\n" } created

/-- Sets the handler of the proxy on a message of a client. -/
def setHandler (c : Nat) (client : ProxyClient) (keepAlive : Bool) : ProxyHandler :=
  { s.setClient c (some { client with messages := client.messages ++ [s.nextMessage] }) with
    contexts := update s.contexts s.nextMessage (some {
      connection := c
      connectionC := none
      keepAlive
      buffer := []
      outBuffer := []
      pending := false
      pendingWrite := 0 })
    nextMessage := s.nextMessage + 1 }

/-! ## The message of the client -/

/-- Serves what the parser of the message of a client calls. -/
def clientCallback (message : Nat) (callback : ClientCallback) : Option ProxyHandler :=
  match s.contexts message with
  | none => none
  | some context =>
      let gather := fun data => some (s.setContext message (some { context with buffer := context.buffer ++ data }))
      match callback with
      | .headerField data => gather data
      | .headerValue data => gather (bytes ": " ++ data ++ bytes "\r\n")
      | .headersComplete => gather (bytes "\r\n")
      | .body data => gather data
      | .messageComplete =>
          match context.connectionC with
          | none =>
              -- there is no backend to answer, the error is answered for it
              match s.clients context.connection with
              | none => none
              | some client =>
                  s.writeClient context.connection
                    { callback := .cleanup message context.keepAlive, direct := !client.session }
          | some b =>
              match s.backends b with
              | none => none
              | some backend =>
                  some (s.setBackend b (some { backend with requests := backend.requests ++ [context.buffer] }))

/-! ## The response of the backend -/

/-- Accounts bytes handed to the client; with too many of them the backend is not read any more. -/
def account (message : Nat) (context : HandlerProxyContext) (size : Nat) : ProxyHandler :=
  let pendingWrite := (context.pendingWrite + size) % 2 ^ 64
  let s := s.setContext message (some { context with pendingWrite })
  match context.connectionC with
  | none => s
  | some b =>
      match s.backends b with
      | none => s
      | some backend =>
          if backend.readRegistered ∧ pendingWrite ≥ viriatumMaxRead then
            s.setBackend b (some { backend with readRegistered := false })
          else s

/-- Serves what the parser of the response of a backend calls. -/
def backendCallback (message : Nat) (callback : BackendCallback) : Option ProxyHandler :=
  match s.contexts message with
  | none => none
  | some context =>
      match s.clients context.connection with
      | none => none
      | some client =>
          match callback with
          | .line written => some (s.setContext message (some { context with outBuffer := written }))
          | .field written =>
              some (s.setContext message (some { context with outBuffer := context.outBuffer ++ written }))
          | .headersComplete written =>
              let context := { context with outBuffer := context.outBuffer ++ written }
              (s.writeClient context.connection
                { callback := .pending message context.outBuffer.length, direct := true }).map fun s =>
                  s.account message context context.outBuffer.length
          | .body data =>
              -- the connection to the backend is looked at without a check
              if context.connectionC = none then none
              else
                (s.writeClient context.connection
                  { callback := .pending message data.length, direct := !client.session }).map fun s =>
                    s.account message context data.length
          | .messageComplete major minor flags =>
              (s.writeClient context.connection
                { callback := .cleanup message (httpShouldKeepAlive major minor flags)
                  direct := !client.session }).map fun s =>
                    s.setContext message (some { context with pending := false })

def backendCallbacks (message : Nat) : List BackendCallback → ProxyHandler → Option ProxyHandler
  | [], s => some s
  | callback :: callbacks, s => (s.backendCallback message callback).bind (backendCallbacks message callbacks)

/-- Takes what a backend has sent; a connection that carries no parameters is disabled. -/
def dataBackendHandler (b : Nat) (callbacks : List BackendCallback) : Option ProxyHandler :=
  match s.backends b with
  | none => some s
  | some backend =>
      match backend.parameters with
      | none => some s
      | some message => backendCallbacks message callbacks s

/-! ## Writes that complete -/

/-- Takes written bytes off the account of an exchange; with few of them left the backend is read again. -/
def pendingHandler (message size : Nat) : Option ProxyHandler :=
  match s.contexts message with
  | none => none
  | some context =>
      let pendingWrite := (context.pendingWrite + 2 ^ 64 - size) % 2 ^ 64
      let s := s.setContext message (some { context with pendingWrite })
      match context.connectionC with
      | none => some s
      | some b =>
          match s.backends b with
          | none => none
          | some backend =>
              if backend.readRegistered = false ∧ pendingWrite < viriatumTreRead then
                some (s.setBackend b (some { backend with readRegistered := true }))
              else some s

/-- Ends the exchange of a message once its response has been written. -/
def cleanupHandler (depth message : Nat) (keepAlive : Bool) : Option ProxyHandler :=
  match s.contexts message with
  | none => none
  | some context =>
      (s.unsetHandler message).bind fun s => if keepAlive then some s else s.closeConnection depth context.connection

/-- Completes one of the writes of a client. -/
def completeWrite (depth c index size : Nat) : Option ProxyHandler :=
  match s.clients c with
  | none => some s
  | some client =>
      match client.writes[index]? with
      | none => some s
      | some write =>
          let s := s.setClient c (some { client with writes := client.writes.eraseIdx index })
          match write.callback with
          | .pending message _ =>
              if write.direct = false ∧ s.contexts message = none then some s else s.pendingHandler message size
          | .cleanup message keepAlive =>
              if s.contexts message = none then some s else s.cleanupHandler depth message keepAlive

/-! ## Runs -/

/-- A step of the proxy, within a depth of recursion. What cannot happen in a state leaves it as it is: a connection is
not created at the address of one that is open, and one that is closed is neither read nor closed. -/
def step (depth : Nat) (input : ProxyInput) (s : ProxyHandler) : Option ProxyHandler :=
  match input with
  | .accept c session =>
      if (s.clients c).isSome then some s
      else
        some (s.setClient c (some {
          session, onClose := some .closeHandlerStreamHttp, messages := [], writes := [] }))
  | .request c keepAlive method path created =>
      match s.clients c with
      | none => some s
      | some client =>
          if created.any fun b => (s.backends b).isSome then some s
          else (s.setHandler c client (client.session || keepAlive)).virtualUrl s.nextMessage method path created
  | .callback message callback => if s.contexts message = none then some s else s.clientCallback message callback
  | .data b callbacks => s.dataBackendHandler b callbacks
  | .written c index size => s.completeWrite depth c index size
  | .unset message => if s.contexts message = none then some s else s.unsetHandler message
  | .lost b => if s.backends b = none then some s else s.closeBackend b
  | .close c => s.closeConnection depth c

/-- The proxy after a run, where the run comes to an end. -/
def run (depth : Nat) (inputs : List ProxyInput) (s : ProxyHandler) : Option ProxyHandler :=
  inputs.foldlM (fun s input => step depth input s) s

/-- Whether every step of a run that comes to an end meets a condition on the state that it is taken from. -/
def Along (depth : Nat) (condition : ProxyInput → ProxyHandler → Prop) : List ProxyInput → ProxyHandler → Prop
  | [], _ => True
  | input :: inputs, s =>
      ∀ s', step depth input s = some s' → condition input s ∧ Along depth condition inputs s'

end ProxyHandler

end Viriatum
