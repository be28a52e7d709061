import Viriatum.Python.Lemmas.Gathers
import Viriatum.Python.Lemmas.Reads

/-!
# What is heard of a client

The messages of a client reach the application, and its pings are answered, up to the first close frame or violation of the
protocol, whatever parts the bytes are read in.
-/

namespace Viriatum

open Library WebsocketOutput

namespace AsgiContext

variable {c : AsgiContext} {kept : List WebsocketFrame}

/-- A websocket as the handshake has been answered; what follows is recorded. -/
def upgrade : AsgiContext := ⟨.connected, [], [], .continuation, true, []⟩

/-- What is pushed and written up to the first close frame, as the bytes of the client are read in parts. -/
def heard (reads : List Bytes) : List WebsocketOutput := upToClose (upgrade.run (reads.map .read)).log

/-- In the closed state the record only grows. -/
theorem consume_closed (hclosed : c.Closed) (rounds : Nat) (held : Bytes) :
    (consume readWebsocket handleWebsocket Closed rounds c held).1.Closed ∧
      ∃ more, (consume readWebsocket handleWebsocket Closed rounds c held).1.log = c.log ++ more := by
  cases rounds with
  | zero => exact ⟨hclosed, [], by simp [consume]⟩
  | succ rounds =>
      cases hparse : parseFrameWebsocket held with
      | error message =>
          have hsame : handleWebsocket c (.error message) = c := closeWebsocketHandlerAsgi_of_closed hclosed _ _
          simp only [consume, readWebsocket, hparse, hsame, if_pos hclosed]
          exact ⟨hclosed, [], by simp⟩
      | ok result =>
          cases result with
          | none =>
              simp only [consume, readWebsocket, hparse]
              exact ⟨hclosed, [], by simp⟩
          | some frame =>
              have hrests := frame_closed hclosed (payload_parseFrameWebsocket hparse)
              have hclosed' : Closed (handleWebsocket c (.ok frame)) := hrests.closed
              simp only [consume, readWebsocket, hparse, if_pos hclosed']
              refine ⟨hclosed', ?_⟩
              rcases hrests.log with ⟨-, output, hlog⟩ | ⟨-, hlog⟩
              · exact ⟨[output], hlog⟩
              · exact ⟨[], by simpa [handleWebsocket] using hlog⟩

theorem proceeds_consume (rounds : Nat) (held : Bytes) :
    (consume readWebsocket handleWebsocket Closed rounds upgrade held).1.Proceeds := by
  have hframes : ((upgrade.setBuffer held).framesWebsocketHandlerAsgi rounds).Proceeds :=
    proceeds_frames rfl rfl (by simp [Unclosed, setBuffer, upgrade]) rounds
  rw [frames_eq_consume] at hframes
  exact hframes

theorem Proceeds.upToClose (h : c.Proceeds) : upToClose c.log = c.log := by
  rcases h.2 with ⟨-, hlog⟩ | ⟨-, hlog⟩
  · exact hlog.upToClose
  · simpa using hlog.upToClose []

/-- What is heard does not depend on the parts that the bytes are read in. -/
theorem heard_eq (reads : List Bytes) :
    heard reads =
      (consume readWebsocket handleWebsocket Closed reads.flatten.length upgrade reads.flatten).1.log := by
  have hreach : ∀ rounds held, (consume readWebsocket handleWebsocket Closed rounds upgrade held).1.Closed →
      ∃ before more, Concluded before ∧
        (consume readWebsocket handleWebsocket Closed rounds upgrade held).1.log = before ++ more := by
    intro rounds held hclosed
    rcases (proceeds_consume rounds held).2 with ⟨hstate, -⟩ | ⟨-, hlog⟩
    · simp [Closed, hstate] at hclosed
    · exact ⟨_, [], hlog, by simp⟩
  have hclosed : ∀ (machine : AsgiContext × Bytes) data, machine.1.Closed →
      (∃ before more, Concluded before ∧ machine.1.log = before ++ more) →
        (Library.feed readWebsocket handleWebsocket Closed machine data).1.Closed ∧
          (∃ before more, Concluded before ∧
            (Library.feed readWebsocket handleWebsocket Closed machine data).1.log = before ++ more) ∧
          upToClose (Library.feed readWebsocket handleWebsocket Closed machine data).1.log = upToClose machine.1.log := by
    rintro machine data hclosed ⟨before, more, hbefore, hlog⟩
    obtain ⟨hstill, later, hlater⟩ :
        (Library.feed readWebsocket handleWebsocket Closed machine data).1.Closed ∧
          ∃ later, (Library.feed readWebsocket handleWebsocket Closed machine data).1.log = machine.1.log ++ later :=
      consume_closed hclosed _ _
    rw [hlog, List.append_assoc] at hlater
    refine ⟨hstill, ⟨before, more ++ later, hbefore, hlater⟩, ?_⟩
    rw [hlater, hlog, hbefore.upToClose, hbefore.upToClose]
  have hrun : upgrade.run (reads.map .read) = ofMachine
      ((reads.filter (· ≠ [])).foldl (Library.feed readWebsocket handleWebsocket Closed) (upgrade, [])) :=
    run_reads (upgrade, []) reads rfl
  have hobserved := observe_feed (fun c : AsgiContext => upToClose c.log)
    (I := fun c : AsgiContext => ∃ before more, Concluded before ∧ c.log = before ++ more) stable_readWebsocket
    (by decide : ¬ Closed upgrade) hreach hclosed (reads.filter (· ≠ []))
  rw [flatten_filter_ne_nil] at hobserved
  rw [heard, hrun]
  exact hobserved.trans (proceeds_consume _ _).upToClose

/-- What the frames at the beginning of bytes make of a websocket, behind frames that are proper. -/
theorem consume_frames (h : Gathers kept c) (hkept : Proper kept) (rounds : Nat) (held : Bytes) :
    let result := (consume readWebsocket handleWebsocket Closed rounds c held).1
    let frames := framesWebsocket rounds held
    let part := properPart kept frames.1
    match part.2, frames.2 with
    | some frame, _ => Refuses part.1 frame result
    | none, some message => result.Closed ∧ events result.log = (messages part.1).map messageEvent ∧
        written result.log = pongs part.1 ++ [closeFrame websocketCloseProtocol (some (bytes message))]
    | none, none => Gathers part.1 result := by
  induction rounds generalizing kept c held with
  | zero => exact h
  | succ rounds ih =>
      cases hparse : parseFrameWebsocket held with
      | error message =>
          have hclosed : Closed (handleWebsocket c (.error message)) := closeWebsocketHandlerAsgi_state _ _
          have hopen : c.websocketState ≠ .closed := by simp [h.state]
          simp only [consume, readWebsocket, framesWebsocket, hparse, properPart, if_pos hclosed]
          refine ⟨hclosed, ?_, ?_⟩
          · simp [handleWebsocket, closeWebsocketHandlerAsgi_of_open hopen, h.received]
          · simp [handleWebsocket, closeWebsocketHandlerAsgi_of_open hopen, h.answered]
      | ok result =>
          cases result with
          | none =>
              simp only [consume, readWebsocket, framesWebsocket, hparse, properPart]
              exact h
          | some frame =>
              simp only [consume, readWebsocket, framesWebsocket, hparse, properPart]
              rcases h.handles hkept (payload_parseFrameWebsocket hparse) with ⟨hproper, hgathers⟩ | ⟨hproper, hrefuses⟩
              · have hopen : ¬ Closed (handleWebsocket c (.ok frame)) := by
                  simp [Closed, handleWebsocket, hgathers.state]
                simp only [if_neg hopen, if_pos hproper]
                exact ih hgathers hproper _
              · have hclosed : Closed (handleWebsocket c (.ok frame)) := hrefuses.state
                simp only [if_pos hclosed, if_neg hproper]
                exact hrefuses

theorem gathers_upgrade : Gathers [] upgrade := by
  constructor <;> rfl

/-- Whatever parts the bytes of a client are read in, the application gets their messages, each of them once and in order,
and every ping is answered, up to the first close frame or violation; and that one is answered with a close frame. -/
theorem heard_conversation (reads : List Bytes) :
    heard reads = heard [reads.flatten] ∧
      (events (heard reads), written (heard reads)) = conversation reads.flatten := by
  refine ⟨by simp [heard_eq], ?_⟩
  have hframes := consume_frames gathers_upgrade proper_nil reads.flatten.length reads.flatten
  rw [heard_eq, conversation]
  dsimp only at hframes ⊢
  generalize (consume readWebsocket handleWebsocket Closed reads.flatten.length upgrade reads.flatten).1 = result
    at hframes ⊢
  generalize framesWebsocket reads.flatten.length reads.flatten = frames at hframes ⊢
  generalize properPart [] frames.1 = part at hframes ⊢
  obtain ⟨kept, broken⟩ := part
  cases broken with
  | some frame =>
      have hrefuses : Refuses kept frame result := hframes
      by_cases hclose : frame.opcode = .close <;>
        simp [hrefuses.received, hrefuses.answered, hclose]
  | none =>
      cases hmalformed : frames.2 with
      | some message =>
          simp only [hmalformed] at hframes ⊢
          rw [hframes.2.1, hframes.2.2]
      | none =>
          simp only [hmalformed] at hframes ⊢
          rw [hframes.received, hframes.answered]

end AsgiContext

end Viriatum
