import Mathlib.Data.List.TakeWhile
import Viriatum.Library.Reader
import Viriatum.Python.Finality

/-!
# The messages of a websocket

The frames that the bytes of a client begin with make messages, one after another and with control frames between their
frames. What the application gets and what is written up to the first close frame is told from them.
-/

namespace Viriatum

open Library WebsocketOutput

/-! ## What a client has said -/

/-- The frames that bytes begin with, and what is wrong with the bytes behind them where they are malformed. -/
def framesWebsocket : Nat → Bytes → List WebsocketFrame × Option String
  | 0, _ => ([], none)
  | rounds + 1, data =>
      match parseFrameWebsocket data with
      | .error message => ([], some message)
      | .ok none => ([], none)
      | .ok (some frame) =>
          let rest := framesWebsocket rounds (data.drop frame.size)
          (frame :: rest.1, rest.2)

/-- The frames of the messages, the control frames left out. -/
def dataFrames (frames : List WebsocketFrame) : List WebsocketFrame := frames.filter fun frame => !frame.opcode.isControl

def messages (frames : List WebsocketFrame) : List (List WebsocketFrame) :=
  groups WebsocketFrame.fin [] (dataFrames frames)

/-- The frames of the message that has not ended. -/
def unfinished (frames : List WebsocketFrame) : List WebsocketFrame :=
  remainder WebsocketFrame.fin [] (dataFrames frames)

def payloads (message : List WebsocketFrame) : Bytes := message.flatMap WebsocketFrame.payload

/-- The operation code of the first frame of a message tells what it is. -/
def messageOpcode (message : List WebsocketFrame) : WebsocketOpcode :=
  (message.head?.map WebsocketFrame.opcode).getD .continuation

/-- The frames of a message but the first one continue it. -/
def InOrder (message : List WebsocketFrame) : Prop :=
  (∀ frame ∈ message.head?, frame.opcode ≠ .continuation) ∧ ∀ frame ∈ message.tail, frame.opcode = .continuation

def Encoded (message : List WebsocketFrame) : Prop :=
  messageOpcode message = .text → decodeUtf8 (payloads message) ≠ none

/-- Frames that are no violation of the protocol, and none of them a close frame. -/
structure Proper (frames : List WebsocketFrame) : Prop where
  opened : ∀ frame ∈ frames, frame.opcode ≠ .close
  ordered : ∀ message ∈ unfinished frames :: messages frames, InOrder message
  small : ∀ message ∈ unfinished frames :: messages frames, (payloads message).length ≤ viriatumWebsocketMaxPayload
  encoded : ∀ message ∈ messages frames, Encoded message

instance (message : List WebsocketFrame) : Decidable (InOrder message) :=
  inferInstanceAs (Decidable (_ ∧ _))

instance (message : List WebsocketFrame) : Decidable (Encoded message) :=
  inferInstanceAs (Decidable (_ → _))

instance : DecidablePred Proper := fun frames =>
  decidable_of_iff
    ((∀ frame ∈ frames, frame.opcode ≠ .close) ∧ (∀ message ∈ unfinished frames :: messages frames, InOrder message) ∧
      (∀ message ∈ unfinished frames :: messages frames, (payloads message).length ≤ viriatumWebsocketMaxPayload) ∧
      ∀ message ∈ messages frames, Encoded message)
    ⟨fun ⟨opened, ordered, small, encoded⟩ => ⟨opened, ordered, small, encoded⟩,
      fun ⟨opened, ordered, small, encoded⟩ => ⟨opened, ordered, small, encoded⟩⟩

/-- The frames up to the first one that is a close frame or a violation, behind frames that are proper. -/
def properPart (kept : List WebsocketFrame) : List WebsocketFrame → List WebsocketFrame × Option WebsocketFrame
  | [] => (kept, none)
  | frame :: frames => if Proper (kept ++ [frame]) then properPart (kept ++ [frame]) frames else (kept, some frame)

def messageEvent (message : List WebsocketFrame) : WebsocketEvent :=
  if messageOpcode message = .text then .receiveText ((decodeUtf8 (payloads message)).getD "")
  else .receiveBytes (payloads message)

/-- A frame that the server sends, of a payload that is not over the limit. -/
def serverFrame (opcode : WebsocketOpcode) (payload : Bytes) : Bytes :=
  (0x80 ||| opcode.toByte) :: lengthWebsocket payload.length ++ payload

def pongs (frames : List WebsocketFrame) : List Bytes :=
  (frames.filter fun frame => frame.opcode = .ping).map fun frame => serverFrame .pong frame.payload

/-- What a frame that is a close frame or a violation is told to be in the answer to it. -/
def refusal (kept : List WebsocketFrame) (frame : WebsocketFrame) : UInt16 × Option Bytes :=
  let message := unfinished kept ++ [frame]
  if frame.opcode = .close then (websocketCloseNormal, none)
  else if ¬ InOrder message then
    (websocketCloseProtocol, some (if frame.opcode = .continuation then bytes "unexpected continuation frame"
      else bytes "unexpected data frame"))
  else if (payloads message).length > viriatumWebsocketMaxPayload then
    (websocketCloseTooLarge, some (bytes "message is too large"))
  else (websocketCloseInvalid, some (bytes "invalid utf-8 payload"))

/-- What the application gets from the bytes of a client, and what is written to the client, up to the first close frame
or violation. -/
def conversation (stream : Bytes) : List WebsocketEvent × List Bytes :=
  let (frames, malformed) := framesWebsocket stream.length stream
  let (kept, broken) := properPart [] frames
  let received := (messages kept).map messageEvent
  match broken, malformed with
  | some frame, _ =>
      (if frame.opcode = .close then received ++ [.disconnect (closeCodeWebsocket frame.payload)] else received,
        pongs kept ++ [closeFrame (refusal kept frame).1 (refusal kept frame).2])
  | none, some message => (received, pongs kept ++ [closeFrame websocketCloseProtocol (some (bytes message))])
  | none, none => (received, pongs kept)

/-! ## What a record tells -/

def events (log : List WebsocketOutput) : List WebsocketEvent :=
  log.filterMap fun
    | .event pushed => some pushed
    | .write _ _ => none

def written (log : List WebsocketOutput) : List Bytes :=
  log.filterMap fun
    | .event _ => none
    | .write data _ => some data

/-- A record up to the first close frame. -/
def upToClose (log : List WebsocketOutput) : List WebsocketOutput :=
  log.takeWhile (fun output => !output.isCloseFrame) ++ (log.dropWhile fun output => !output.isCloseFrame).take 1

theorem Unclosed.upToClose {log : List WebsocketOutput} (h : Unclosed log) : upToClose log = log := by
  have htake : log.takeWhile (fun output => !output.isCloseFrame) = log :=
    List.takeWhile_eq_self_iff.mpr fun output hmem => by simpa using (h output hmem).1
  have hdrop : log.dropWhile (fun output => !output.isCloseFrame) = [] :=
    List.dropWhile_eq_nil_iff.mpr fun output hmem => by simpa using (h output hmem).1
  simp [Viriatum.upToClose, htake, hdrop]

theorem Concluded.upToClose {log : List WebsocketOutput} (h : Concluded log) (more : List WebsocketOutput) :
    upToClose (log ++ more) = log := by
  obtain ⟨before, last, rfl, hlast, hbefore, -⟩ := h
  have hall : ∀ output ∈ before, (!output.isCloseFrame) = true := fun output hmem => by simpa using hbefore output hmem
  rw [Viriatum.upToClose, List.append_assoc, List.takeWhile_append_of_pos hall, List.dropWhile_append_of_pos hall]
  simp [hlast]

@[simp] theorem events_append (log more : List WebsocketOutput) : events (log ++ more) = events log ++ events more := by
  simp [events]

@[simp] theorem written_append (log more : List WebsocketOutput) :
    written (log ++ more) = written log ++ written more := by
  simp [written]

@[simp] theorem events_nil : events [] = [] := rfl

@[simp] theorem events_event (pushed : WebsocketEvent) (log : List WebsocketOutput) :
    events (.event pushed :: log) = pushed :: events log := rfl

@[simp] theorem events_write (data : Bytes) (close : Bool) (log : List WebsocketOutput) :
    events (.write data close :: log) = events log := rfl

@[simp] theorem written_nil : written [] = [] := rfl

@[simp] theorem written_event (pushed : WebsocketEvent) (log : List WebsocketOutput) :
    written (.event pushed :: log) = written log := rfl

@[simp] theorem written_write (data : Bytes) (close : Bool) (log : List WebsocketOutput) :
    written (.write data close :: log) = data :: written log := rfl

/-! ## Proper frames, one after another -/

variable {frames kept : List WebsocketFrame} {frame : WebsocketFrame}

theorem dataFrames_concat : dataFrames (frames ++ [frame]) =
    if frame.opcode.isControl then dataFrames frames else dataFrames frames ++ [frame] := by
  cases h : frame.opcode.isControl <;> simp [dataFrames, h]

theorem messages_control (frames : List WebsocketFrame) (h : frame.opcode.isControl) :
    messages (frames ++ [frame]) = messages frames ∧ unfinished (frames ++ [frame]) = unfinished frames := by
  simp [messages, unfinished, dataFrames_concat, h]

theorem messages_data (frames : List WebsocketFrame) (h : ¬ frame.opcode.isControl) :
    messages (frames ++ [frame]) = messages frames ++ (if frame.fin then [unfinished frames ++ [frame]] else []) ∧
      unfinished (frames ++ [frame]) = if frame.fin then [] else unfinished frames ++ [frame] := by
  simp [messages, unfinished, dataFrames_concat, h, groups_concat, remainder_concat]

theorem proper_nil : Proper [] := by
  constructor <;> simp [messages, unfinished, dataFrames, groups, remainder, InOrder, payloads]

theorem proper_control (h : Proper kept) (hcontrol : frame.opcode.isControl) :
    Proper (kept ++ [frame]) ↔ frame.opcode ≠ .close := by
  obtain ⟨hmessages, hunfinished⟩ := messages_control kept hcontrol
  constructor
  · exact fun h => h.opened frame (by simp)
  · intro hclose
    constructor
    case opened =>
      intro other hmem
      rcases List.mem_append.mp hmem with hmem | hmem
      · exact h.opened other hmem
      · rwa [List.mem_singleton.mp hmem]
    case ordered => simpa only [hmessages, hunfinished] using h.ordered
    case small => simpa only [hmessages, hunfinished] using h.small
    case encoded => simpa only [hmessages] using h.encoded

/-- What holds of the messages before holds with another frame just when it holds of the message that the frame goes
to. -/
theorem each_data {Q : List WebsocketFrame → Prop} (hnil : Q []) (h : ∀ message ∈ unfinished kept :: messages kept, Q message)
    (hdata : ¬ frame.opcode.isControl) :
    (∀ message ∈ unfinished (kept ++ [frame]) :: messages (kept ++ [frame]), Q message) ↔
      Q (unfinished kept ++ [frame]) := by
  obtain ⟨hmessages, hunfinished⟩ := messages_data kept hdata
  have hbefore : ∀ message ∈ messages kept, Q message := fun message hmem => h message (List.mem_cons_of_mem _ hmem)
  rw [hmessages, hunfinished]
  cases frame.fin with
  | true =>
      constructor
      · exact fun hall => hall _ (by simp)
      · intro hlast message hmem
        simp only [if_true, List.mem_cons, List.mem_append, List.not_mem_nil, or_false] at hmem
        rcases hmem with rfl | hmem | rfl
        · exact hnil
        · exact hbefore message hmem
        · exact hlast
  | false =>
      constructor
      · exact fun hall => hall _ (by simp)
      · intro hlast message hmem
        simp only [Bool.false_eq_true, if_false, List.append_nil, List.mem_cons] at hmem
        rcases hmem with rfl | hmem
        · exact hlast
        · exact hbefore message hmem

theorem proper_data (h : Proper kept) (hdata : ¬ frame.opcode.isControl) :
    Proper (kept ++ [frame]) ↔ InOrder (unfinished kept ++ [frame]) ∧
      (payloads (unfinished kept ++ [frame])).length ≤ viriatumWebsocketMaxPayload ∧
        (frame.fin → Encoded (unfinished kept ++ [frame])) := by
  obtain ⟨hmessages, -⟩ := messages_data kept hdata
  have hordered := each_data (by simp [InOrder]) h.ordered hdata
  have hsmall := each_data (by simp [payloads]) h.small hdata
  have hencoded : (∀ message ∈ messages (kept ++ [frame]), Encoded message) ↔
      (frame.fin → Encoded (unfinished kept ++ [frame])) := by
    rw [hmessages]
    cases frame.fin with
    | true =>
        simp only [if_true, List.mem_append, List.mem_singleton, true_implies]
        exact ⟨fun hall => hall _ (.inr rfl), fun hlast message hmem =>
          hmem.elim (h.encoded message) fun heq => heq ▸ hlast⟩
    | false => simpa using h.encoded
  constructor
  · exact fun hproper => ⟨hordered.mp hproper.ordered, hsmall.mp hproper.small, hencoded.mp hproper.encoded⟩
  · rintro ⟨hlast, hfits, hdecodes⟩
    constructor
    case opened =>
      intro other hmem
      rcases List.mem_append.mp hmem with hmem | hmem
      · exact h.opened other hmem
      · rw [List.mem_singleton.mp hmem]
        intro hclose
        exact hdata (by rw [hclose]; decide)
    case ordered => exact hordered.mpr hlast
    case small => exact hsmall.mpr hfits
    case encoded => exact hencoded.mpr hdecodes

end Viriatum
