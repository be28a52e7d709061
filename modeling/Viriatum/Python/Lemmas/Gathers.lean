import Viriatum.Python.Messages

/-!
# Frames are gathered

What a frame makes of a websocket that has handled proper frames: it goes on gathering, or it refuses the frame.
-/

namespace Viriatum

open Library WebsocketOutput

namespace AsgiContext

variable {c : AsgiContext} {kept : List WebsocketFrame} {frame : WebsocketFrame}

/-- A websocket that has handled frames that are proper: the message that has not ended is gathered, the ones that have are
pushed and the pings are answered. -/
structure Gathers (kept : List WebsocketFrame) (c : AsgiContext) : Prop where
  state : c.websocketState = .connected
  opcode : c.websocketOpcode = messageOpcode (unfinished kept)
  message : c.websocketMessage = payloads (unfinished kept)
  received : events c.log = (messages kept).map messageEvent
  answered : written c.log = pongs kept

/-- A websocket that has answered a close frame or a violation behind frames that are proper. -/
structure Refuses (kept : List WebsocketFrame) (frame : WebsocketFrame) (c : AsgiContext) : Prop where
  state : c.websocketState = .closed
  received : events c.log = (messages kept).map messageEvent ++
    if frame.opcode = .close then [.disconnect (closeCodeWebsocket frame.payload)] else []
  answered : written c.log = pongs kept ++ [closeFrame (refusal kept frame).1 (refusal kept frame).2]

/-- What a frame makes of a websocket: it goes on gathering, or the frame is refused. -/
def Handles (kept : List WebsocketFrame) (frame : WebsocketFrame) (c : AsgiContext) : Prop :=
  Proper (kept ++ [frame]) ∧ Gathers (kept ++ [frame]) c ∨ ¬ Proper (kept ++ [frame]) ∧ Refuses kept frame c

/-- The answer to a violation. The operation code of a frame is set before its payload is gathered. -/
theorem Gathers.refuse (h : Gathers kept c) (hproper : ¬ Proper (kept ++ [frame])) (hclose : frame.opcode ≠ .close)
    {code : UInt16} {reason : Bytes} (hrefusal : refusal kept frame = (code, some reason)) (message : Bytes)
    (opcode : WebsocketOpcode) : Handles kept frame
      ({ c with websocketMessage := message, websocketOpcode := opcode }.closeWebsocketHandlerAsgi code reason) := by
  have hopen : ({ c with websocketMessage := message, websocketOpcode := opcode }).websocketState ≠ .closed := by
    simp [h.state]
  rw [closeWebsocketHandlerAsgi_of_open hopen]
  exact .inr ⟨hproper, rfl, by simp [h.received, hclose], by simp [h.answered, hrefusal]⟩

theorem not_close_of_data (hdata : ¬ frame.opcode.isControl) : frame.opcode ≠ .close := fun hclose =>
  hdata (by rw [hclose]; decide)

theorem not_ping_of_data (hdata : ¬ frame.opcode.isControl) : frame.opcode ≠ .ping := fun hping =>
  hdata (by rw [hping]; decide)

theorem pongs_concat : pongs (kept ++ [frame]) =
    pongs kept ++ if frame.opcode = .ping then [serverFrame .pong frame.payload] else [] := by
  by_cases h : frame.opcode = .ping <;> simp [pongs, h]

/-- The last frame of a message is delivered with the ones before it. -/
theorem Gathers.deliver (h : Gathers kept c) (hkept : Proper kept) (hdata : ¬ frame.opcode.isControl) (hfin : frame.fin)
    (hordered : InOrder (unfinished kept ++ [frame]))
    (hsmall : (payloads (unfinished kept ++ [frame])).length ≤ viriatumWebsocketMaxPayload) :
    Handles kept frame ({ c with
      websocketMessage := payloads (unfinished kept ++ [frame])
      websocketOpcode := messageOpcode (unfinished kept ++ [frame]) }.deliverWebsocketHandlerAsgi) := by
  obtain ⟨hmessages, hunfinished⟩ := messages_data kept hdata
  simp only [hfin, if_true] at hmessages hunfinished
  have hproper := proper_data hkept hdata
  have hpushed : ∀ pushed, messageEvent (unfinished kept ++ [frame]) = pushed → Encoded (unfinished kept ++ [frame]) →
      Handles kept frame ({ c with
        websocketMessage := payloads (unfinished kept ++ [frame])
        websocketOpcode := messageOpcode (unfinished kept ++ [frame]) }.pushEventHandlerAsgi pushed).resetMessage := by
    intro pushed hevent hencoded
    refine .inl ⟨hproper.mpr ⟨hordered, hsmall, fun _ => hencoded⟩, h.state, ?_, ?_, ?_, ?_⟩
    · simp [resetMessage, hunfinished, messageOpcode]
    · simp [resetMessage, hunfinished, payloads]
    · simp [resetMessage, pushEventHandlerAsgi, h.received, hmessages, hevent]
    · simp [resetMessage, pushEventHandlerAsgi, h.answered, pongs_concat, not_ping_of_data hdata]
  simp only [deliverWebsocketHandlerAsgi]
  split
  case isTrue htext =>
    cases hdecode : decodeUtf8 (payloads (unfinished kept ++ [frame])) with
    | none =>
        have hnot : ¬ Proper (kept ++ [frame]) := fun h => (hproper.mp h).2.2 hfin htext hdecode
        have hrefusal : refusal kept frame = (websocketCloseInvalid, some (bytes "invalid utf-8 payload")) := by
          simp [refusal, not_close_of_data hdata, hordered, Nat.not_lt.mpr hsmall]
        have hrefuses := h.refuse hnot (not_close_of_data hdata) hrefusal (payloads (unfinished kept ++ [frame]))
          (messageOpcode (unfinished kept ++ [frame]))
        rcases hrefuses with ⟨hyes, -⟩ | ⟨-, hrefuses⟩
        · exact absurd hyes hnot
        · exact .inr ⟨hnot, hrefuses.state, hrefuses.received, hrefuses.answered⟩
    | some text => exact hpushed _ (by simp [messageEvent, htext, hdecode]) fun _ => by simp [hdecode]
  case isFalse htext =>
    exact hpushed _ (by simp only [messageEvent, htext, if_false]) fun hyes => absurd hyes htext

theorem Gathers.gather (h : Gathers kept c) (hkept : Proper kept) (hdata : ¬ frame.opcode.isControl)
    (hordered : InOrder (unfinished kept ++ [frame])) :
    Handles kept frame
      ({ c with websocketOpcode := messageOpcode (unfinished kept ++ [frame]) }.gatherWebsocketHandlerAsgi frame) := by
  have hproper := proper_data hkept hdata
  have hpayloads : c.websocketMessage ++ frame.payload = payloads (unfinished kept ++ [frame]) := by
    simp [h.message, payloads]
  have hsize : c.websocketMessage.length + frame.payload.length = (payloads (unfinished kept ++ [frame])).length := by
    rw [← hpayloads, List.length_append]
  simp only [gatherWebsocketHandlerAsgi, hsize, hpayloads]
  split
  case isTrue hlarge =>
    have hnot : ¬ Proper (kept ++ [frame]) := fun h => Nat.not_lt.mpr (hproper.mp h).2.1 hlarge
    have hrefusal : refusal kept frame = (websocketCloseTooLarge, some (bytes "message is too large")) := by
      simp [refusal, not_close_of_data hdata, hordered, hlarge]
    exact h.refuse hnot (not_close_of_data hdata) hrefusal c.websocketMessage _
  case isFalse hsmall =>
    split
    case isTrue hfin => exact h.deliver hkept hdata hfin hordered (Nat.le_of_not_lt hsmall)
    case isFalse hfin =>
      obtain ⟨hmessages, hunfinished⟩ := messages_data kept hdata
      simp only [hfin, Bool.false_eq_true, if_false, List.append_nil] at hmessages hunfinished
      refine .inl ⟨hproper.mpr ⟨hordered, Nat.le_of_not_lt hsmall, fun hyes => absurd hyes hfin⟩, h.state, ?_, ?_, ?_, ?_⟩
      · rw [hunfinished]
      · rw [hunfinished]
      · simp [h.received, hmessages]
      · simp [h.answered, pongs_concat, not_ping_of_data hdata]

theorem messageOpcode_unfinished (hkept : Proper kept) :
    messageOpcode (unfinished kept) = .continuation ↔ unfinished kept = [] := by
  have hordered := hkept.ordered (unfinished kept) (by simp)
  cases hunfinished : unfinished kept with
  | nil => simp [messageOpcode]
  | cons first rest =>
      have hfirst : first.opcode ≠ .continuation := hordered.1 first (by simp [hunfinished])
      simp [messageOpcode, hfirst]

/-- A frame continues a message just when one has begun. -/
theorem inOrder_concat (hkept : Proper kept) (frame : WebsocketFrame) :
    InOrder (unfinished kept ++ [frame]) ↔ (frame.opcode = .continuation ↔ unfinished kept ≠ []) := by
  have hordered := hkept.ordered (unfinished kept) (by simp)
  cases hunfinished : unfinished kept with
  | nil => simp [InOrder]
  | cons first rest =>
      rw [hunfinished] at hordered
      have hfirst : first.opcode ≠ .continuation := hordered.1 first (by simp)
      have hrest : ∀ other ∈ rest, other.opcode = .continuation := by simpa using hordered.2
      constructor
      · intro hlast
        have hframe := hlast.2 frame (by simp)
        simp [hframe]
      · intro hlast
        have hframe : frame.opcode = .continuation := by simpa using hlast
        refine ⟨by simpa using hfirst, ?_⟩
        intro other hmem
        simp only [List.cons_append, List.tail_cons, List.mem_append, List.mem_singleton] at hmem
        exact hmem.elim (hrest other) fun heq => heq ▸ hframe

/-- A frame that is proper is gathered, and another one is refused. -/
theorem Gathers.handles (h : Gathers kept c) (hkept : Proper kept)
    (hpayload : frame.payload.length ≤ viriatumWebsocketMaxPayload) :
    Handles kept frame (c.frameWebsocketHandlerAsgi frame) := by
  have hcontrol : frame.opcode.isControl → frame.opcode ≠ .close → ∀ log, events log = events c.log →
      written log = pongs (kept ++ [frame]) → Handles kept frame { c with log } := by
    intro hcontrol hclose log hevents hwritten
    obtain ⟨hmessages, hunfinished⟩ := messages_control kept hcontrol
    exact .inl ⟨(proper_control hkept hcontrol).mpr hclose, h.state, by rw [hunfinished, h.opcode],
      by rw [hunfinished, h.message], by rw [hevents, h.received, hmessages], hwritten⟩
  have hrefused : ∀ text, ¬ frame.opcode.isControl → ¬ InOrder (unfinished kept ++ [frame]) →
      refusal kept frame = (websocketCloseProtocol, some text) →
        Handles kept frame (c.closeWebsocketHandlerAsgi websocketCloseProtocol text) := by
    intro text hdata hordered hrefusal
    exact h.refuse (fun hproper => hordered ((proper_data hkept hdata).mp hproper).1) (not_close_of_data hdata) hrefusal
      c.websocketMessage c.websocketOpcode
  have hbegins : ∀ opcode, frame.opcode = opcode → ¬ opcode.isControl → opcode ≠ .continuation →
      Handles kept frame (if c.websocketOpcode ≠ .continuation then
        c.closeWebsocketHandlerAsgi websocketCloseProtocol (bytes "unexpected data frame")
        else { c with websocketOpcode := opcode }.gatherWebsocketHandlerAsgi frame) := by
    rintro opcode rfl hdata hcontinuation
    have hordered := inOrder_concat hkept frame
    split
    case isTrue hgathering =>
      rw [h.opcode, ne_eq, messageOpcode_unfinished hkept] at hgathering
      have hnot : ¬ InOrder (unfinished kept ++ [frame]) := by simp [hordered, hcontinuation, hgathering]
      exact hrefused _ hdata hnot (by simp [refusal, not_close_of_data hdata, hnot, hcontinuation])
    case isFalse hidle =>
      rw [h.opcode, ne_eq, messageOpcode_unfinished hkept, not_not] at hidle
      have hopcode : messageOpcode (unfinished kept ++ [frame]) = frame.opcode := by simp [hidle, messageOpcode]
      rw [← hopcode]
      exact h.gather hkept hdata (hordered.mpr (by simp [hcontinuation, hidle]))
  unfold frameWebsocketHandlerAsgi
  cases hopcode : frame.opcode with
  | ping =>
      simp only [buildFrameWebsocket_eq hpayload]
      exact hcontrol (by rw [hopcode]; decide) (by simp [hopcode]) _ (by simp)
        (by simp [h.answered, pongs_concat, hopcode, serverFrame])
  | pong => exact hcontrol (by rw [hopcode]; decide) (by simp [hopcode]) _ rfl (by simp [h.answered, pongs_concat, hopcode])
  | close =>
      have hopen : (c.pushEventHandlerAsgi (.disconnect (closeCodeWebsocket frame.payload))).websocketState ≠ .closed := by
        simp [pushEventHandlerAsgi, h.state]
      simp only [closeWebsocketHandlerAsgi_of_open hopen]
      refine .inr ⟨fun hproper => hproper.opened frame (by simp) hopcode, rfl, ?_, ?_⟩
      · simp [pushEventHandlerAsgi, h.received, hopcode]
      · simp [pushEventHandlerAsgi, h.answered, refusal, hopcode]
  | continuation =>
      have hdata : ¬ frame.opcode.isControl := by rw [hopcode]; decide
      have hordered := inOrder_concat hkept frame
      dsimp only
      split
      case isTrue hidle =>
        rw [h.opcode, messageOpcode_unfinished hkept] at hidle
        have hnot : ¬ InOrder (unfinished kept ++ [frame]) := fun hyes => hordered.mp hyes |>.mp hopcode hidle
        exact hrefused _ hdata hnot (by simp [refusal, hnot, hopcode])
      case isFalse hgathering =>
        have hsome : unfinished kept ≠ [] := by rwa [h.opcode, messageOpcode_unfinished hkept] at hgathering
        have hsame : c.websocketOpcode = messageOpcode (unfinished kept ++ [frame]) := by
          cases hunfinished : unfinished kept with
          | nil => exact absurd hunfinished hsome
          | cons first rest => simp [h.opcode, hunfinished, messageOpcode]
        have hgathered := h.gather hkept hdata (hordered.mpr (by simp [hopcode, hsome]))
        rwa [← hsame] at hgathered
  | text => exact hbegins .text hopcode (by decide) (by simp)
  | binary => exact hbegins .binary hopcode (by decide) (by simp)

end AsgiContext

end Viriatum
