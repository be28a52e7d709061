import Viriatum.Stream.Frames

/-!
# The steps of a session

A session goes on with each frame that the data of the peer carries, with each write that completes and with the
work a handler does on its own. The handlers keep a state that the session does not see, so that every step may
meet another service.
-/

namespace Viriatum

open Library Effect

/-- What happens to a session: a frame of the peer, the header of a frame that is too large, the completion of the
oldest of the writes, or the work of a handler outside of any call. -/
inductive Input where
  | frame (frame : Http2Frame)
  | oversized
  | written
  | work (actions : List HandlerAction)

namespace Http2Connection

/-- What follows an error of the connection: the peer is told the reason. -/
def fail (error : Http2Error) (s : Http2Connection) : Http2Connection :=
  writeGoaway error (s.record (.failed error))

/-- Takes the session over after the preface of the peer, with the settings of this end. -/
def start : Http2Connection := writeSettings false { create with preface := true }

variable (service : Service)

/-- Handles a frame of the peer. -/
def receive (frame : Http2Frame) (s : Http2Connection) : Http2Connection :=
  match (handleFrame service frame).run (s.record (.received frame)) with
  | (.ok _, s) => s
  | (.error e, s) => fail e s

/-- Resumes the handler that waited for a write. -/
def resumeHandler (tag : Option Nat) (s : Http2Connection) : Http2Connection :=
  match tag with
  | some tag => s.call service (.written tag)
  | none => s

/-- Closes the stream in a slot once it has been served in full. -/
def closeServed (slot : Nat) (s : Http2Connection) : Http2Connection :=
  if (s.stream slot).complete ∧ (s.stream slot).pending = [] then closeStream slot s else s

/-- Restores the stream in a slot and resumes the handler of it. -/
def resumeStream (slot : Nat) (tag : Option Nat) (s : Http2Connection) : Http2Connection :=
  let s := resumeHandler service tag (s.activate slot)
  closeServed slot (s.modifyStream slot fun stream => { stream with handler := s.handler })

/-- What is called once a write has completed; a stream that is gone leaves nothing to resume. -/
def resume (s : Http2Connection) : Http2Callback → Http2Connection
  | .none => s
  | .close => { s with connectionClosed := true }
  | .stream streamId tag =>
      match s.findStream streamId with
      | none => s
      | some slot => resumeStream service slot tag s
  | .handler tag => s.call service (.written tag)

/-- Completes the oldest of the writes. -/
def complete (s : Http2Connection) : Http2Connection :=
  match s.writeQueue with
  | [] => s
  | write :: queue => resume service { s with writeQueue := queue } write.callback

def step (input : Input) (s : Http2Connection) : Http2Connection :=
  if s.connectionClosed then s
  else
    match input with
    | .frame frame => receive service frame s
    | .oversized => fail .frameSizeError s
    | .written => complete service s
    | .work actions => performAll (call service) service actions s

/-- The session after a run, whose steps meet a service each. -/
def run (inputs : List (Service × Input)) (s : Http2Connection) : Http2Connection :=
  inputs.foldl (fun s input => step input.1 input.2 s) s

/-- Whether every step of a run meets a condition on the session that it is taken from. -/
def Along (condition : Service → Input → Http2Connection → Prop) : List (Service × Input) → Http2Connection → Prop
  | [], _ => True
  | input :: inputs, s => condition input.1 input.2 s ∧ Along condition inputs (step input.1 input.2 s)

/-! ## Promises -/

/-- Whether an action is a promise that the session takes: one on an open stream, that the peer lets the session make
and that there is an identifier for. -/
def takes (s : Http2Connection) : HandlerAction → Prop
  | .pushStream streamId _ =>
      s.findStream streamId ≠ none ∧ s.remote.enablePush = true ∧
        s.count < s.remote.maxConcurrentStreams ∧ s.count < http2StreamSlots ∧
        (s.pushStreamId + 2) % 2 ^ 32 ≤ http2MaxStreamId
  | _ => False

/-- Whether one of the actions is a promise that the session takes. The actions before it call no handler. -/
def promising (s : Http2Connection) : List HandlerAction → Prop
  | [] => False
  | action :: rest => s.takes action ∨ promising (perform (fun _ s => s) service action s) rest

end Http2Connection

/-- Whether a handler answers a call with a promise that the session takes. -/
def Service.Promises (service : Service) (s : Http2Connection) (callback : Callback) : Prop :=
  s.promising service (service.handle s callback)

end Viriatum
