import Viriatum.Http.HpackTable

/-!
# The queue of writes of a connection

What is written to a connection is queued and sent once the socket takes it, the values at the head of the queue in a
single call. The kernel may take a part of what it is given, and the callback of a value that is done may write more or
close the connection.
-/

namespace Viriatum

/-- The values that a single call sends at most. -/
def writeBuffersStreamIo : Nat := 8

/-- A value of the queue, with what is left of its bytes. -/
structure IoData where
  data : Bytes
  callback : Option Nat
deriving DecidableEq, Repr

inductive IoAction where
  | write (data : Bytes) (callback : Option Nat)
  | close
deriving DecidableEq, Repr

/-- What the kernel says to a call. It takes a number of bytes, or all of them where there are fewer. -/
inductive SendAnswer where
  | sent (bytes : Nat)
  | wouldBlock
  | failed
deriving DecidableEq, Repr

inductive IoEvent where
  | queued (value : IoData)
  | sent (data : Bytes)
  | called (callback : Nat)
  | closed
deriving DecidableEq, Repr

structure IoConnection where
  /-- Whether the writes go through the library of the secure connections, one value at a time. -/
  secure : Bool
  closed : Bool
  writeRegistered : Bool
  writeValid : Bool
  writeQueue : List IoData
  /-- What has been done, the latest first. -/
  history : List IoEvent
deriving DecidableEq, Repr

/-- What the callbacks do with the connection as it stands. -/
abbrev Reaction := IoConnection → Nat → List IoAction

namespace IoConnection

def create (secure : Bool) : IoConnection where
  secure
  closed := false
  writeRegistered := false
  writeValid := true
  writeQueue := []
  history := []

def record (event : IoEvent) (c : IoConnection) : IoConnection := { c with history := event :: c.history }

/-- The operations of a connection are unset once it is closed, and nothing is told of a call of them. -/
def writeConnection (data : Bytes) (callback : Option Nat) (c : IoConnection) : Option IoConnection :=
  if c.closed then none
  else some { c.record (.queued ⟨data, callback⟩) with
    writeQueue := c.writeQueue ++ [⟨data, callback⟩], writeRegistered := true }

def closeConnection (c : IoConnection) : Option IoConnection :=
  if c.closed then none
  else some { c.record .closed with closed := true, writeRegistered := false }

def act (c : IoConnection) : IoAction → Option IoConnection
  | .write data callback => c.writeConnection data callback
  | .close => c.closeConnection

def perform (actions : List IoAction) (c : IoConnection) : Option IoConnection := actions.foldlM act c

/-- Calls the callback of a value, if it has one. -/
def callback (react : Reaction) (value : IoData) (c : IoConnection) : Option IoConnection :=
  match value.callback with
  | none => some c
  | some callback => (c.record (.called callback)).perform (react (c.record (.called callback)) callback)

/-- The error flag of the write: without an error the queue is done, and after one that is not fatal the handler has to be
called again. -/
inductive WriteError where
  | none
  | fatal
  | again
deriving DecidableEq, Repr

/-- Walks the values that the bytes sent cover, in no more rounds than there are values that were sent. -/
def account (react : Reaction) : (rounds : Nat) → (bytes : Nat) → IoConnection → Option (IoConnection × WriteError)
  | 0, _, c => some (c, .none)
  | rounds + 1, bytes, c =>
      match c.writeQueue with
      | [] => some (c, .none)
      | value :: rest =>
          if bytes < value.data.length then
            some ({ c with writeQueue := { value with data := value.data.drop bytes } :: rest }, .again)
          else do
            let c ← callback react value { c with writeQueue := rest }
            if c.closed then some (c, .again)
            else if bytes - value.data.length = 0 then some (c, .none)
            else account react rounds (bytes - value.data.length) c

/-- The values that are sent together. -/
def gathered (c : IoConnection) : List IoData :=
  if c.secure = false ∧ c.writeQueue.length > 1 then c.writeQueue.take writeBuffersStreamIo else c.writeQueue.take 1

/-- Sends the values at the head of the queue. -/
def send (react : Reaction) (answer : SendAnswer) (c : IoConnection) : Option (IoConnection × WriteError) :=
  match answer with
  | .wouldBlock => some (c, .again)
  | .failed => some (c, .fatal)
  | .sent bytes =>
      let data := (c.gathered.flatMap IoData.data).take bytes
      account react c.gathered.length data.length (c.record (.sent data))

/-- What is done at the end of the write by its error. -/
def conclude (c : IoConnection) : WriteError → Option IoConnection
  | .none => some { c with writeRegistered := false }
  | .fatal => c.closeConnection
  | .again => some (if c.closed then c else { c with writeValid := false })

/-- Sends until the queue is empty or an error is flagged; there is an answer for each of the calls. -/
def writeHandler (react : Reaction) : List SendAnswer → IoConnection → Option IoConnection
  | [], c => if c.writeQueue = [] then c.conclude .none else none
  | answer :: answers, c =>
      if c.writeQueue = [] then c.conclude .none
      else do
        let (c, error) ← c.send react answer
        if error = .none then writeHandler react answers c else c.conclude error

end IoConnection

/-- What happens to a connection: something is done with it, or it may be written to. -/
inductive IoInput where
  | act (action : IoAction)
  | write (answers : List SendAnswer)
deriving DecidableEq, Repr

namespace IoConnection

/-- The handler is not called for a connection that is closed. -/
def step (react : Reaction) (c : IoConnection) : IoInput → Option IoConnection
  | .act action => c.act action
  | .write answers => if c.closed then none else writeHandler react answers c

def run (react : Reaction) (inputs : List IoInput) (c : IoConnection) : Option IoConnection :=
  inputs.foldlM (step react) c

end IoConnection

end Viriatum
