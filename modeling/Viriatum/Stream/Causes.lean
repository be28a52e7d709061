import Viriatum.Stream.Outline

/-!
# What a frame brings about

The frames that open a stream, that have it refused, that begin a message and that overflow a window, told from the
frame and the session before it.
-/

namespace Viriatum

open Library

/-- The increment that a frame of window update carries. -/
def Http2Frame.increment (frame : Http2Frame) : Nat := decodeNumberHttp2 frame.payload &&& http2MaxWindowSize

namespace Http2Connection

variable (s : Http2Connection) (frame : Http2Frame)

/-- A frame that is well formed and does not break into the block being assembled. -/
def Admits : Prop :=
  verifyFrameHttp2 frame s.settings = none ∧
    (s.continuation = 0 ∨ frame.type = .continuation ∧ frame.streamId = s.continuation)

/-- A frame of headers that asks for a new stream. -/
def Asks : Prop :=
  s.Admits frame ∧ frame.type = .headers ∧ s.findStream frame.streamId = none ∧ frame.streamId % 2 = 1 ∧
    s.lastStreamId < frame.streamId

def Full : Prop := s.count ≥ s.settings.maxConcurrentStreams ∨ s.count ≥ http2StreamSlots

def Opens : Prop := s.Asks frame ∧ ¬ s.Full

def Refuses : Prop := s.Asks frame ∧ s.Full

/-- A stream of the table that has not been given its headers. -/
def Awaits (streamId : Nat) : Prop :=
  ∃ slot, s.findStream streamId = some slot ∧ (s.stream slot).headersComplete = false

/-- A frame of headers that completes the block of a stream. -/
def CompletesHeaders : Prop :=
  s.Admits frame ∧ frame.type = .headers ∧ frame.has http2FlagEndHeaders = true ∧
    ∃ priority data, headersFragment frame = .ok (priority, data) ∧
      (∀ p, priority = some p → p.dependency ≠ frame.streamId) ∧ s.block.length + data.length ≤ http2MaxBlock ∧
      (s.Opens frame ∨ s.Awaits frame.streamId ∧ s.verifyStream frame (s.findStream frame.streamId) = none)

/-- A frame of continuation that completes the block of a stream. -/
def CompletesContinuation : Prop :=
  s.Admits frame ∧ frame.type = .continuation ∧ frame.has http2FlagEndHeaders = true ∧ s.continuation ≠ 0 ∧
    s.block.length + frame.payload.length ≤ http2MaxBlock ∧ s.refused ≠ s.continuation ∧ s.Awaits s.continuation

/-- A frame with which the message of a stream begins. -/
def Begins : Prop := s.CompletesHeaders frame ∨ s.CompletesContinuation frame

/-- A window update that takes the window of a stream beyond the largest one. -/
def Overflows : Prop :=
  s.Admits frame ∧ frame.type = .windowUpdate ∧ frame.streamId ≠ 0 ∧ frame.increment ≠ 0 ∧
    ∃ slot, s.findStream frame.streamId = some slot ∧
      (s.stream slot).sendWindow > (http2MaxWindowSize : Int) - frame.increment

end Http2Connection

/-- The kinds of the moves of a call, the promises only where `promises` holds. -/
def callKinds (promises : Prop) : MoveKind → Prop
  | .called | .wrote | .emitted | .skipped => True
  | .began | .promised => promises
  | _ => False

/-- The kinds of the moves that the handling of a frame makes, when it is not an error. -/
def frameKinds (promises : Prop) (s : Http2Connection) (frame : Http2Frame) : MoveKind → Prop
  | .called | .wrote | .emitted | .skipped | .prioritised | .applied => True
  | .promised => promises
  | .began => promises ∨ s.Begins frame
  | .opened streamId => streamId = frame.streamId ∧ s.Opens frame
  | .closed streamId => streamId = frame.streamId ∧ frame.type = .rstStream
  | .widened increment => frame.type = .windowUpdate ∧ frame.streamId = 0 ∧ increment = frame.increment
  | .granted streamId increment =>
      frame.type = .windowUpdate ∧ streamId = frame.streamId ∧ increment = frame.increment
  | .reset streamId => streamId = frame.streamId ∧ (s.Refuses frame ∨ s.Overflows frame)
  | .away => frame.type = .goaway
  | .received _ | .spoiled | .failed _ => False

/-- The kinds of the moves that the handling of a frame makes before an error. -/
def failureKinds (promises : Prop) (s : Http2Connection) (frame : Http2Frame) (kind : MoveKind) : Prop :=
  frameKinds promises s frame kind ∨ kind = .spoiled ∧ frame.type = .settings

/-- Whether a handler makes a promise in a step that the session takes, the session going away as it does before. -/
def Http2Connection.PromisesIn (service : Service) (input : Input) (s : Http2Connection) : Prop :=
  (∃ s' callback, s'.goaway = s.goaway ∧ service.Promises s' callback) ∨
    ∃ actions, input = .work actions ∧ s.promising service actions

/-- The kinds of the moves of a step that meets no error. -/
def soundKinds (promises : Prop) (s : Http2Connection) : Input → MoveKind → Prop
  | .frame frame, kind => kind = .received frame ∨ frameKinds promises s frame kind
  | .oversized, _ => False
  | .written, kind => callKinds promises kind ∨ ∃ streamId, kind = .closed streamId
  | .work _, kind => callKinds promises kind

/-- The kinds of the moves of a step. -/
def stepKinds (promises : Prop) (s : Http2Connection) : Input → MoveKind → Prop
  | .frame frame, kind => kind = .received frame ∨ failureKinds promises s frame kind ∨ ∃ error, kind = .failed error
  | .oversized, kind => kind = .failed .frameSizeError
  | .written, kind => callKinds promises kind ∨ ∃ streamId, kind = .closed streamId
  | .work _, kind => callKinds promises kind

end Viriatum
