import Viriatum.Library.Reader
import Viriatum.Python.Finality

/-!
# Reads are fed to a machine

The loop over the frames in the buffer of a websocket as a reader that is fed in parts.
-/

namespace Viriatum

open Library WebsocketOutput

namespace AsgiContext

variable {c : AsgiContext}

/-- A frame, or what is wrong with the bytes where it should be; the rest of the bytes makes no difference then. -/
def readWebsocket (data : Bytes) : Option (Except String WebsocketFrame × Nat) :=
  match parseFrameWebsocket data with
  | .error message => some (.error message, 1)
  | .ok none => none
  | .ok (some frame) => some (.ok frame, frame.size)

def handleWebsocket (c : AsgiContext) : Except String WebsocketFrame → AsgiContext
  | .error message => c.closeWebsocketHandlerAsgi websocketCloseProtocol (bytes message)
  | .ok frame => c.frameWebsocketHandlerAsgi frame

def Closed (c : AsgiContext) : Prop := c.websocketState = .closed

instance : DecidablePred Closed := fun c => inferInstanceAs (Decidable (c.websocketState = .closed))

theorem stable_readWebsocket : Stable readWebsocket where
  takes := by
    intro data item size hread
    unfold readWebsocket at hread
    split at hread
    case h_1 hparse =>
      cases data with
      | nil => simp [parseFrameWebsocket, parseHeaderWebsocket] at hparse
      | cons first data =>
          cases hread
          simp
    case h_2 => cases hread
    case h_3 hparse =>
      cases hread
      exact size_parseFrameWebsocket hparse
  more := by
    intro data item size later hread
    unfold readWebsocket at hread ⊢
    split at hread
    case h_1 hparse => simpa only [parseFrameWebsocket_append later hparse (by simp)] using hread
    case h_2 => cases hread
    case h_3 hparse => simpa only [parseFrameWebsocket_append later hparse (by simp)] using hread

/-- The bytes that are held in the buffer make no difference to what a frame is handled like. -/
def setBuffer (buffer : Bytes) (c : AsgiContext) : AsgiContext := { c with websocketBuffer := buffer }

theorem closeWebsocketHandlerAsgi_setBuffer (code : UInt16) (reason : Option Bytes) (buffer : Bytes) :
    (c.setBuffer buffer).closeWebsocketHandlerAsgi code reason =
      (c.closeWebsocketHandlerAsgi code reason).setBuffer buffer := by
  by_cases h : c.websocketState = .closed
  · have h' : (c.setBuffer buffer).websocketState = .closed := h
    rw [closeWebsocketHandlerAsgi_of_closed h, closeWebsocketHandlerAsgi_of_closed h']
  · have h' : (c.setBuffer buffer).websocketState ≠ .closed := h
    rw [closeWebsocketHandlerAsgi_of_open h, closeWebsocketHandlerAsgi_of_open h']
    rfl

theorem deliverWebsocketHandlerAsgi_setBuffer (buffer : Bytes) :
    (c.setBuffer buffer).deliverWebsocketHandlerAsgi = c.deliverWebsocketHandlerAsgi.setBuffer buffer := by
  have hopcode : (c.setBuffer buffer).websocketOpcode = c.websocketOpcode := rfl
  have hmessage : (c.setBuffer buffer).websocketMessage = c.websocketMessage := rfl
  unfold deliverWebsocketHandlerAsgi
  rw [hopcode, hmessage]
  split
  · split
    · rw [closeWebsocketHandlerAsgi_setBuffer]
      rfl
    · rfl
  · rfl

theorem gatherWebsocketHandlerAsgi_setBuffer (frame : WebsocketFrame) (buffer : Bytes) :
    (c.setBuffer buffer).gatherWebsocketHandlerAsgi frame = (c.gatherWebsocketHandlerAsgi frame).setBuffer buffer := by
  have hmessage : (c.setBuffer buffer).websocketMessage = c.websocketMessage := rfl
  simp only [gatherWebsocketHandlerAsgi, hmessage]
  split
  · exact closeWebsocketHandlerAsgi_setBuffer _ _ _
  · split
    · exact deliverWebsocketHandlerAsgi_setBuffer (c := { c with websocketMessage := _ }) buffer
    · rfl

theorem frameWebsocketHandlerAsgi_setBuffer (frame : WebsocketFrame) (buffer : Bytes) :
    (c.setBuffer buffer).frameWebsocketHandlerAsgi frame = (c.frameWebsocketHandlerAsgi frame).setBuffer buffer := by
  have hopcode : (c.setBuffer buffer).websocketOpcode = c.websocketOpcode := rfl
  have hbegins : ∀ opcode, (if (c.setBuffer buffer).websocketOpcode ≠ .continuation then
      (c.setBuffer buffer).closeWebsocketHandlerAsgi websocketCloseProtocol (bytes "unexpected data frame")
      else { c.setBuffer buffer with websocketOpcode := opcode }.gatherWebsocketHandlerAsgi frame) =
        (if c.websocketOpcode ≠ .continuation then
          c.closeWebsocketHandlerAsgi websocketCloseProtocol (bytes "unexpected data frame")
          else { c with websocketOpcode := opcode }.gatherWebsocketHandlerAsgi frame).setBuffer buffer := by
    intro opcode
    rw [hopcode]
    split
    · exact closeWebsocketHandlerAsgi_setBuffer _ _ _
    · exact gatherWebsocketHandlerAsgi_setBuffer (c := { c with websocketOpcode := opcode }) frame buffer
  unfold frameWebsocketHandlerAsgi
  cases frame.opcode with
  | ping => cases buildFrameWebsocket .pong true frame.payload <;> rfl
  | pong => rfl
  | close => exact closeWebsocketHandlerAsgi_setBuffer (c := c.pushEventHandlerAsgi _) _ _ buffer
  | continuation =>
      dsimp only
      rw [hopcode]
      split
      · exact closeWebsocketHandlerAsgi_setBuffer _ _ _
      · exact gatherWebsocketHandlerAsgi_setBuffer frame buffer
  | text => exact hbegins .text
  | binary => exact hbegins .binary

/-- The loop of the code reads and handles one item after another. -/
theorem frames_eq_consume (rounds : Nat) (buffer : Bytes) :
    (c.setBuffer buffer).framesWebsocketHandlerAsgi rounds =
      let result := consume readWebsocket handleWebsocket Closed rounds c buffer
      result.1.setBuffer result.2 := by
  induction rounds generalizing c buffer with
  | zero => rfl
  | succ rounds ih =>
      have hbuffer : (c.setBuffer buffer).websocketBuffer = buffer := rfl
      simp only [framesWebsocketHandlerAsgi, hbuffer, consume, readWebsocket]
      cases hparse : parseFrameWebsocket buffer with
      | error message =>
          have hclosed : Closed (handleWebsocket c (.error message)) := closeWebsocketHandlerAsgi_state _ _
          simp only [if_pos hclosed]
          rw [closeWebsocketHandlerAsgi_setBuffer]
          rfl
      | ok result =>
          cases result with
          | none => rfl
          | some frame =>
              simp only [frameWebsocketHandlerAsgi_setBuffer]
              by_cases hclosed : Closed (handleWebsocket c (.ok frame))
              · have hclosed' : ((c.frameWebsocketHandlerAsgi frame).setBuffer buffer).websocketState = .closed := hclosed
                simp only [if_pos hclosed]
                rw [if_pos hclosed']
                rfl
              · have hclosed' : ((c.frameWebsocketHandlerAsgi frame).setBuffer buffer).websocketState ≠ .closed := hclosed
                simp only [if_neg hclosed]
                rw [if_neg hclosed']
                exact ih (c := c.frameWebsocketHandlerAsgi frame) (buffer.drop frame.size)

/-- What a machine that is fed with reads is as a context. -/
def ofMachine (machine : AsgiContext × Bytes) : AsgiContext := machine.1.setBuffer machine.2

theorem data_eq_feed (machine : AsgiContext × Bytes) (data : Bytes) :
    (ofMachine machine).dataHandlerWebsocketAsgi data =
      ofMachine (Library.feed readWebsocket handleWebsocket Closed machine data) := by
  have hloop : (ofMachine machine).dataHandlerWebsocketAsgi data =
      (machine.1.setBuffer (machine.2 ++ data)).framesWebsocketHandlerAsgi (machine.2 ++ data).length := rfl
  rw [hloop, frames_eq_consume]
  rfl

/-! ## The data of the connection stays redirected -/

theorem upgraded_close (code : UInt16) (reason : Option Bytes) :
    (c.closeWebsocketHandlerAsgi code reason).upgraded = c.upgraded := by
  by_cases h : c.websocketState = .closed
  · rw [closeWebsocketHandlerAsgi_of_closed h]
  · rw [closeWebsocketHandlerAsgi_of_open h]

theorem upgraded_deliver : c.deliverWebsocketHandlerAsgi.upgraded = c.upgraded := by
  unfold deliverWebsocketHandlerAsgi
  split
  · split
    · exact upgraded_close _ _
    · rfl
  · rfl

theorem upgraded_gather (frame : WebsocketFrame) : (c.gatherWebsocketHandlerAsgi frame).upgraded = c.upgraded := by
  unfold gatherWebsocketHandlerAsgi
  split
  · exact upgraded_close _ _
  · dsimp only
    split
    · exact upgraded_deliver
    · rfl

theorem upgraded_handle (item : Except String WebsocketFrame) : (handleWebsocket c item).upgraded = c.upgraded := by
  cases item with
  | error message => exact upgraded_close _ _
  | ok frame =>
      have hbegins : ∀ opcode, (if c.websocketOpcode ≠ .continuation then
          c.closeWebsocketHandlerAsgi websocketCloseProtocol (bytes "unexpected data frame")
          else { c with websocketOpcode := opcode }.gatherWebsocketHandlerAsgi frame).upgraded = c.upgraded := by
        intro opcode
        split
        · exact upgraded_close _ _
        · exact upgraded_gather frame
      simp only [handleWebsocket, frameWebsocketHandlerAsgi]
      cases frame.opcode with
      | ping => cases buildFrameWebsocket .pong true frame.payload <;> rfl
      | pong => rfl
      | close => exact upgraded_close _ _
      | continuation =>
          dsimp only
          split
          · exact upgraded_close _ _
          · exact upgraded_gather frame
      | text => exact hbegins .text
      | binary => exact hbegins .binary

theorem upgraded_consume (rounds : Nat) (held : Bytes) :
    (consume readWebsocket handleWebsocket Closed rounds c held).1.upgraded = c.upgraded := by
  induction rounds generalizing c held with
  | zero => rfl
  | succ rounds ih =>
      unfold consume
      split
      · rfl
      · split
        · exact upgraded_handle _
        · exact (ih _).trans (upgraded_handle _)

/-- Reads are fed to the machine, but for the empty ones. -/
theorem run_reads (machine : AsgiContext × Bytes) (reads : List Bytes) (h : machine.1.upgraded) :
    (ofMachine machine).run (reads.map .read) =
      ofMachine ((reads.filter (· ≠ [])).foldl (Library.feed readWebsocket handleWebsocket Closed) machine) := by
  induction reads generalizing machine with
  | nil => rfl
  | cons data reads ih =>
      have hupgraded : (ofMachine machine).upgraded = true := h
      have hrun : (ofMachine machine).run ((data :: reads).map .read) =
          ((ofMachine machine).step (.read data)).run (reads.map .read) := rfl
      rw [hrun]
      by_cases hdata : data = []
      · have hstep : (ofMachine machine).step (.read data) = ofMachine machine := by simp [step, hdata]
        rw [hstep, ih machine h]
        simp [hdata]
      · have hstep : (ofMachine machine).step (.read data) = (ofMachine machine).dataHandlerWebsocketAsgi data := by
          simp [step, hupgraded, hdata]
        have hfed : (Library.feed readWebsocket handleWebsocket Closed machine data).1.upgraded = true :=
          (upgraded_consume _ _).trans h
        rw [hstep, data_eq_feed, ih _ hfed]
        simp [hdata]

theorem flatten_filter_ne_nil (reads : List Bytes) : (reads.filter (· ≠ [])).flatten = reads.flatten := by
  induction reads with
  | nil => rfl
  | cons data reads ih => cases data <;> simpa using ih

end AsgiContext

end Viriatum
