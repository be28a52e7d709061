import Mathlib.Data.List.Nodup
import Mathlib.Logic.Function.Basic

/-!
# The event loop over epoll

The loop handles the outstanding operations, waits for the events, calls the connections that they are for and runs
`on_cycle`. What a callback does, and what the kernel answers, are the inputs of the machine, one at a time; what is left
to do once a callback returns is a stack of tasks.
-/

namespace Viriatum

open Function (update)

def viriatumMaxEvents : Nat := 1024

inductive ConnectionStatus where
  | opened
  | closed
  | handshake
deriving DecidableEq, Repr

/-- What the loop sees of a connection; the queue is counted in values. -/
structure PolledConnection where
  status : ConnectionStatus := .closed
  created : Bool := false
  deleted : Bool := false
  writeRegistered : Bool := false
  writeValid : Bool := false
  isOutstanding : Bool := false
  writeQueue : Nat := 0
deriving DecidableEq, Repr

/-- What is left to do: the tests of the phases of the loop, a callback that is running, the part of the closing that
follows its callback, the sending of the queue of a connection, and the rest of the walk over what has been sent. -/
inductive PollingTask where
  | read (c : Nat)
  | write (c : Nat)
  | readEvent (c : Nat)
  | writeEvent (c : Nat)
  | errorEvent (c : Nat)
  | callback (c : Nat)
  | closing (c : Nat)
  | sending (c : Nat)
  | walked (c count : Nat) (partly : Bool)
deriving DecidableEq, Repr

inductive PollingPhase where
  | polling
  | waiting
  | calling
  | cycling
deriving DecidableEq, Repr

/-- What a callback does to the connections, and to the timeout of the wait. A flush is the write handler being called by
the read handler. -/
inductive PollingOperation where
  | openConnection (c : Nat)
  | handshake (c : Nat)
  | establish (c : Nat)
  | write (c : Nat)
  | addOutstanding (c : Nat)
  | close (c : Nat)
  | flush (c : Nat)
  | setTimeout (timeout : Int)
deriving DecidableEq, Repr

/-- An event of a connection, as the wait gives it. -/
structure PollingEvent where
  connection : Nat
  input : Bool
  output : Bool
  error : Bool
deriving DecidableEq, Repr

/-- The inputs: the return of what is running, an operation of it, what the kernel answers to a send (the values that
have gone out whole, and whether the one that follows them has gone out in part) and the events of a wait. -/
inductive PollingInput where
  | proceed
  | act (operation : PollingOperation)
  | sent (count : Nat) (partly : Bool)
  | wouldBlock
  | broken
  | ready (events : List PollingEvent)
deriving DecidableEq, Repr

/-- What has happened, as far as the life of a connection goes. -/
inductive PollingRecord where
  | called (c : Nat)
  | closed (c : Nat)
  | deleted (c : Nat)
  | swept
deriving DecidableEq, Repr

/-- The state of the loop. What has been put into the buffers of the outstanding operations since they were last taken,
and the log, are kept for the statements alone. -/
structure PollingEpoll where
  connections : Nat → PolledConnection := fun _ => {}
  readOutstanding : List Nat := []
  writeOutstanding : List Nat := []
  removeConnections : List Nat := []
  timeout : Int := -1
  phase : PollingPhase := .cycling
  pending : List PollingTask := []
  freshReads : List Nat := []
  freshWrites : List Nat := []
  log : List PollingRecord := []

namespace PollingEpoll

variable (s : PollingEpoll)

def set (c : Nat) (connection : PolledConnection) : PollingEpoll :=
  { s with connections := update s.connections c connection }

def push (task : PollingTask) : PollingEpoll :=
  { s with pending := task :: s.pending }

def record (entry : PollingRecord) : PollingEpoll :=
  { s with log := s.log ++ [entry] }

/-- Calls a callback of a connection. -/
def call (c : Nat) : PollingEpoll :=
  (s.record (.called c)).push (.callback c)

/-! ## The operations of the connections -/

def registerWrite (c : Nat) : PollingEpoll :=
  let connection := s.connections c
  let s := s.set c { connection with writeRegistered := true }
  if connection.writeRegistered || !connection.writeValid || connection.status ≠ .opened then s
  else { s with writeOutstanding := s.writeOutstanding ++ [c], freshWrites := s.freshWrites ++ [c] }

def addOutstanding (c : Nat) : PollingEpoll :=
  let connection := s.connections c
  if connection.isOutstanding then s
  else
    { s.set c { connection with isOutstanding := true } with
      readOutstanding := s.readOutstanding ++ [c], freshReads := s.freshReads ++ [c] }

def removeConnection (c : Nat) : PollingEpoll :=
  if c ∈ s.removeConnections then s else { s with removeConnections := s.removeConnections ++ [c] }

/-- The first part of a closing: the callback of it is called, unless the connection is closed already. -/
def closeConnection (c : Nat) : PollingEpoll :=
  if (s.connections c).status = .closed then s else (s.record (.called c)).push (.closing c)

/-- The second part of a closing. -/
def closeRest (c : Nat) : PollingEpoll :=
  let s := { s with readOutstanding := s.readOutstanding.erase c, writeOutstanding := s.writeOutstanding.erase c }
  let s := (s.set c { s.connections c with isOutstanding := false, status := .closed }).removeConnection c
  s.record (.closed c)

/-- An operation of a callback. The functions of a closed connection are unset, and a deleted one is gone. -/
def act : PollingOperation → Option PollingEpoll
  | .openConnection c =>
      if (s.connections c).created then none
      else some ((s.set c { status := .opened, created := true }).call c)
  | .handshake c =>
      if (s.connections c).status = .closed then none
      else some (s.set c { s.connections c with status := .handshake })
  | .establish c =>
      if (s.connections c).status = .handshake then some (s.set c { s.connections c with status := .opened })
      else none
  | .write c =>
      if (s.connections c).status = .closed then none
      else some ((s.set c { s.connections c with writeQueue := (s.connections c).writeQueue + 1 }).registerWrite c)
  | .addOutstanding c => if (s.connections c).status = .closed then none else some (s.addOutstanding c)
  | .close c =>
      if !(s.connections c).created || (s.connections c).deleted then none else some (s.closeConnection c)
  | .flush c => if (s.connections c).status = .closed then none else some (s.push (.sending c))
  | .setTimeout timeout => some { s with timeout }

/-! ## The handler of the writes -/

/-- What the handler does with the answer of the kernel to a send. -/
def sendAnswered (c : Nat) : PollingInput → Option PollingEpoll
  | .sent count partly =>
      if count = 0 && !partly || (s.connections c).writeQueue < count + partly.toNat then none
      else some (s.push (.walked c count partly))
  | .wouldBlock => some (s.set c { s.connections c with writeValid := false })
  | .broken => some (s.closeConnection c)
  | _ => none

/-- The top of the loop of the handler: a queue that is empty ends it. -/
def send (c : Nat) (input : PollingInput) : Option PollingEpoll :=
  if (s.connections c).writeQueue = 0 then
    if input = .proceed then some (s.set c { s.connections c with writeRegistered := false }) else none
  else s.sendAnswered c input

/-- The top of the walk over what has been sent, that a callback of the data sent may have closed the connection of. -/
def walk (c count : Nat) (partly : Bool) : PollingEpoll :=
  let connection := s.connections c
  if connection.status = .closed then s
  else if connection.writeQueue = 0 || count = 0 && !partly then s.push (.sending c)
  else if count = 0 then s.set c { connection with writeValid := false }
  else ((s.set c { connection with writeQueue := connection.writeQueue - 1 }).push (.walked c (count - 1) partly)).call c

/-! ## The phases of the loop -/

/-- Goes on with the task on the top of the stack. -/
def resume (task : PollingTask) (input : PollingInput) : Option PollingEpoll :=
  match task, input with
  | .callback c, .act operation => (s.push (.callback c)).act operation
  | .closing c, .act operation => (s.push (.closing c)).act operation
  | .callback _, .proceed => some s
  | .closing c, .proceed => some (s.closeRest c)
  | .sending c, input => s.send c input
  | .walked c count partly, .proceed => some (s.walk c count partly)
  | .read c, .proceed => some (if (s.connections c).status = .opened then s.call c else s)
  | .write c, .proceed =>
      some (if (s.connections c).status = .opened then (s.record (.called c)).push (.sending c) else s)
  | .readEvent c, .proceed =>
      some (if (s.connections c).status = .handshake then (s.push (.read c)).call c else s.push (.read c))
  | .writeEvent c, .proceed => some ((s.set c { s.connections c with writeValid := true }).push (.write c))
  | .errorEvent c, .proceed =>
      some (if (s.connections c).status = .opened then (s.record (.called c)).closeConnection c else s)
  | _, _ => none

/-- Takes the buffers of the outstanding operations, for them to be handled. -/
def takeOutstanding : PollingEpoll :=
  { s with
    connections := fun c =>
      if c ∈ s.readOutstanding then { s.connections c with isOutstanding := false } else s.connections c
    readOutstanding := []
    writeOutstanding := []
    freshReads := []
    freshWrites := []
    phase := .polling
    pending := s.readOutstanding.map .read ++ s.writeOutstanding.map .write }

/-- Takes the events of a wait: the connections to be read, to be written and in error, in this order. -/
def takeEvents (events : List PollingEvent) : PollingEpoll :=
  { s with
    phase := .calling
    pending := (events.filter (·.input)).map (fun event => .readEvent event.connection) ++
      (events.filter (·.output)).map (fun event => .writeEvent event.connection) ++
      (events.filter (·.error)).map (fun event => .errorEvent event.connection) }

/-- Deletes the connections that were closed. -/
def sweep : PollingEpoll :=
  { s with
    connections := fun c =>
      if c ∈ s.removeConnections then { s.connections c with deleted := true } else s.connections c
    removeConnections := []
    phase := .cycling
    log := s.log ++ s.removeConnections.map .deleted ++ [.swept] }

/-- Goes on with the loop, no task being left. -/
def turn (input : PollingInput) : Option PollingEpoll :=
  match s.phase, input with
  | .polling, .proceed => some { s with phase := .waiting }
  | .waiting, .ready events =>
      if viriatumMaxEvents < events.length || events.any fun event => (s.connections event.connection).status = .closed
      then none
      else some (s.takeEvents events)
  | .calling, .proceed => some s.sweep
  | .cycling, .act operation => s.act operation
  | .cycling, .proceed => some s.takeOutstanding
  | _, _ => none

/-- One step of the loop. An input that does not fit the state, and a call of a function that is unset, give none. -/
def step (input : PollingInput) (s : PollingEpoll) : Option PollingEpoll :=
  match s.pending with
  | [] => s.turn input
  | task :: rest => ({ s with pending := rest } : PollingEpoll).resume task input

/-- The loop before anything has been opened. -/
def start : PollingEpoll := {}

/-- The loop after a run, where it goes on until then. -/
def run (inputs : List PollingInput) (s : PollingEpoll) : Option PollingEpoll :=
  inputs.foldlM (fun s input => step input s) s

end PollingEpoll

end Viriatum
