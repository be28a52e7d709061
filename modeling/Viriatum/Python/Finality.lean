import Viriatum.Library.Traces
import Viriatum.Python.Lemmas.Websocket

/-!
# Closing a websocket is final

What is recorded after a close frame has been written. The loop over the frames of a read looks at the state after it has
handled a frame, and not before: a read that arrives in the closed state has its first frame handled.
-/

namespace Viriatum

open Library WebsocketOutput

/-- Nothing is written or pushed behind a close frame, and there is at most one of it and at most one disconnection. -/
def Final (log : List WebsocketOutput) : Prop :=
  (∀ before output after, log = before ++ output :: after → output.isCloseFrame → after = []) ∧
    log.countP isDisconnect ≤ 1 ∧ log.countP isCloseFrame ≤ 1

/-- No close frame and no disconnection. -/
def Unclosed (log : List WebsocketOutput) : Prop := ∀ output ∈ log, ¬ output.isCloseFrame ∧ ¬ output.isDisconnect

/-- A close frame stands at the end, and no other one before it. -/
def Concluded (log : List WebsocketOutput) : Prop :=
  ∃ before last, log = before ++ [last] ∧ last.isCloseFrame ∧ (∀ output ∈ before, ¬ output.isCloseFrame) ∧
    before.countP isDisconnect ≤ 1

variable {log : List WebsocketOutput}

theorem Unclosed.countP_isDisconnect (h : Unclosed log) : log.countP isDisconnect = 0 :=
  List.countP_eq_zero.mpr fun output hmem => (h output hmem).2

theorem Unclosed.final (h : Unclosed log) : Final log := by
  refine ⟨?_, ?_, ?_⟩
  · rintro before output after rfl hclose
    exact absurd hclose (h output (by simp)).1
  · simp [h.countP_isDisconnect]
  · simp [List.countP_eq_zero.mpr fun output hmem => (h output hmem).1]

theorem Unclosed.push (h : Unclosed log) {output : WebsocketOutput} (hclose : ¬ output.isCloseFrame)
    (hdisconnect : ¬ output.isDisconnect) : Unclosed (log ++ [output]) := by
  intro other hmem
  rcases List.mem_append.mp hmem with hmem | hmem
  · exact h other hmem
  · obtain rfl : other = output := by simpa using hmem
    exact ⟨hclose, hdisconnect⟩

theorem Unclosed.conclude (h : Unclosed log) {last : WebsocketOutput} (hlast : last.isCloseFrame) :
    Concluded (log ++ [last]) :=
  ⟨log, last, rfl, hlast, fun output hmem => (h output hmem).1,
    by simp [h.countP_isDisconnect]⟩

/-- The close frame of the peer is reported to the application and answered. -/
theorem Unclosed.disconnect (h : Unclosed log) {event last : WebsocketOutput} (hevent : event.isDisconnect)
    (hlast : last.isCloseFrame) : Concluded (log ++ [event] ++ [last]) := by
  refine ⟨log ++ [event], last, rfl, hlast, ?_, ?_⟩
  · intro output hmem
    rcases List.mem_append.mp hmem with hmem | hmem
    · exact (h output hmem).1
    · obtain rfl : output = event := by simpa using hmem
      cases output <;> simp [isCloseFrame, isDisconnect] at hevent ⊢
  · simp [h.countP_isDisconnect, hevent]

theorem Concluded.final (h : Concluded log) : Final log := by
  obtain ⟨before, last, rfl, hlast, hbefore, hdisconnect⟩ := h
  refine ⟨?_, ?_, ?_⟩
  · intro earlier output after heq hclose
    rcases List.eq_nil_or_concat after with rfl | ⟨rest, final, rfl⟩
    · rfl
    · have heq' : before ++ [last] = (earlier ++ output :: rest) ++ [final] := by simpa using heq
      obtain ⟨rfl, -⟩ := List.append_inj' heq' rfl
      exact absurd hclose (hbefore output (by simp))
  · have hother : ¬ last.isDisconnect := by cases last <;> simp [isCloseFrame, isDisconnect] at hlast ⊢
    simpa [hother] using hdisconnect
  · have hnone : before.countP isCloseFrame = 0 := List.countP_eq_zero.mpr hbefore
    simp [hnone, hlast]

/-- What comes behind the close frame breaks the finality of it. -/
theorem Concluded.not_final (h : Concluded log) (output : WebsocketOutput) : ¬ Final (log ++ [output]) := by
  obtain ⟨before, last, rfl, hlast, -, -⟩ := h
  intro hfinal
  have hnil := hfinal.1 before last [output] (by simp) hlast
  cases hnil

namespace AsgiContext

/-- Whether a frame ends a message that goes to the application. -/
def Delivers (c : AsgiContext) (frame : WebsocketFrame) : Prop :=
  frame.fin ∧ c.websocketMessage.length + frame.payload.length ≤ viriatumWebsocketMaxPayload ∧
    (c.websocketOpcode = .text → decodeUtf8 (c.websocketMessage ++ frame.payload) ≠ none)

/-- Whether a frame is one that something is done about: a ping, a close or the end of a message. -/
def Answered (c : AsgiContext) (frame : WebsocketFrame) : Prop :=
  match frame.opcode with
  | .ping | .close => True
  | .pong => False
  | .continuation => c.websocketOpcode ≠ .continuation ∧ c.Delivers frame
  | opcode => c.websocketOpcode = .continuation ∧ { c with websocketOpcode := opcode }.Delivers frame

/-- The read that completes a frame in the closed state is one that the frame is not answered in. -/
def Unanswered (c : AsgiContext) : WebsocketInput → Prop
  | .read data => c.upgraded → data ≠ [] → c.websocketState = .closed →
      ∀ frame, parseFrameWebsocket (c.websocketBuffer ++ data) = .ok (some frame) → ¬ c.Answered frame
  | _ => True

/-- What the record tells by the state of a websocket. -/
structure Sound (c : AsgiContext) : Prop where
  opened : c.websocketState ≠ .closed → Unclosed c.log ∧ (c.upgraded ↔ c.websocketState = .connected)
  closed : c.websocketState = .closed → if c.upgraded then Concluded c.log else Unclosed c.log

variable {c c' : AsgiContext}

theorem Sound.final (h : c.Sound) : Final c.log := by
  by_cases hclosed : c.websocketState = .closed
  · have hlog := h.closed hclosed
    split at hlog
    · exact hlog.final
    · exact hlog.final
  · exact (h.opened hclosed).1.final

/-! ## Frames in the open state -/

/-- What an operation makes of a websocket that is connected: the record stays clear of close frames, or one concludes
it. -/
def Proceeds (c' : AsgiContext) : Prop :=
  c'.upgraded ∧ (c'.websocketState = .connected ∧ Unclosed c'.log ∨ c'.websocketState = .closed ∧ Concluded c'.log)

theorem Proceeds.sound (h : c.Proceeds) : c.Sound := by
  obtain ⟨hupgraded, ⟨hstate, hlog⟩ | ⟨hstate, hlog⟩⟩ := h
  · exact ⟨fun _ => ⟨hlog, by simp [hupgraded, hstate]⟩, fun hclosed => by simp [hstate] at hclosed⟩
  · exact ⟨fun hopen => absurd hstate hopen, fun _ => by simpa [hupgraded] using hlog⟩

theorem proceeds_close (hupgraded : c.upgraded) (hstate : c.websocketState = .connected) (hlog : Unclosed c.log)
    (code : UInt16) (reason : Option Bytes) : (c.closeWebsocketHandlerAsgi code reason).Proceeds := by
  rw [closeWebsocketHandlerAsgi_of_open (by simp [hstate])]
  exact ⟨hupgraded, .inr ⟨rfl, hlog.conclude (isCloseFrame_closeFrame code reason true)⟩⟩

theorem proceeds_deliver (hupgraded : c.upgraded) (hstate : c.websocketState = .connected) (hlog : Unclosed c.log) :
    c.deliverWebsocketHandlerAsgi.Proceeds := by
  have hpush : ∀ event, ¬ (WebsocketOutput.event event).isDisconnect → (c.pushEventHandlerAsgi event).resetMessage.Proceeds :=
    fun event hevent => ⟨hupgraded, .inl ⟨hstate, hlog.push nofun hevent⟩⟩
  unfold deliverWebsocketHandlerAsgi
  split
  · split
    · exact proceeds_close hupgraded hstate hlog _ _
    · exact hpush _ nofun
  · exact hpush _ nofun

theorem proceeds_gather (hupgraded : c.upgraded) (hstate : c.websocketState = .connected) (hlog : Unclosed c.log)
    (frame : WebsocketFrame) : (c.gatherWebsocketHandlerAsgi frame).Proceeds := by
  unfold gatherWebsocketHandlerAsgi
  split
  · exact proceeds_close hupgraded hstate hlog _ _
  · dsimp only
    split
    · exact proceeds_deliver hupgraded hstate hlog
    · exact ⟨hupgraded, .inl ⟨hstate, hlog⟩⟩

theorem proceeds_frame (hupgraded : c.upgraded) (hstate : c.websocketState = .connected) (hlog : Unclosed c.log)
    (frame : WebsocketFrame) : (c.frameWebsocketHandlerAsgi frame).Proceeds := by
  have hdata : ∀ opcode, (if c.websocketOpcode ≠ .continuation then
      c.closeWebsocketHandlerAsgi websocketCloseProtocol (bytes "unexpected data frame")
      else { c with websocketOpcode := opcode }.gatherWebsocketHandlerAsgi frame).Proceeds := by
    intro opcode
    split
    · exact proceeds_close hupgraded hstate hlog _ _
    · exact proceeds_gather (c := { c with websocketOpcode := opcode }) hupgraded hstate hlog frame
  unfold frameWebsocketHandlerAsgi
  cases frame.opcode with
  | ping =>
      cases hpong : buildFrameWebsocket .pong true frame.payload with
      | error message => exact ⟨hupgraded, .inl ⟨hstate, hlog⟩⟩
      | ok pong =>
          have hother : ¬ (write pong false).isCloseFrame := by simp [isCloseFrame, head_buildFrameWebsocket hpong]
          exact ⟨hupgraded, .inl ⟨hstate, hlog.push hother (by intro h; cases h)⟩⟩
  | pong => exact ⟨hupgraded, .inl ⟨hstate, hlog⟩⟩
  | close =>
      have hopen : (c.pushEventHandlerAsgi (.disconnect (closeCodeWebsocket frame.payload))).websocketState ≠ .closed := by
        simp [pushEventHandlerAsgi, hstate]
      dsimp only
      rw [closeWebsocketHandlerAsgi_of_open hopen]
      exact ⟨hupgraded, .inr ⟨rfl, hlog.disconnect rfl (isCloseFrame_closeFrame _ _ true)⟩⟩
  | continuation =>
      dsimp only
      split
      · exact proceeds_close hupgraded hstate hlog _ _
      · exact proceeds_gather hupgraded hstate hlog frame
  | text => exact hdata .text
  | binary => exact hdata .binary

theorem proceeds_frames (hupgraded : c.upgraded) (hstate : c.websocketState = .connected) (hlog : Unclosed c.log)
    (rounds : Nat) : (c.framesWebsocketHandlerAsgi rounds).Proceeds := by
  induction rounds generalizing c with
  | zero => exact ⟨hupgraded, .inl ⟨hstate, hlog⟩⟩
  | succ rounds ih =>
      unfold framesWebsocketHandlerAsgi
      split
      case h_1 => exact proceeds_close hupgraded hstate hlog _ _
      case h_2 => exact ⟨hupgraded, .inl ⟨hstate, hlog⟩⟩
      case h_3 frame _ =>
        obtain ⟨hupgraded', hproceeds⟩ := proceeds_frame hupgraded hstate hlog frame
        dsimp only
        split
        case isTrue hclosed =>
          exact ⟨hupgraded', .inr ⟨hclosed, (hproceeds.resolve_left fun h => by simp [hclosed] at h).2⟩⟩
        case isFalse hopen =>
          obtain ⟨hstate', hlog'⟩ := hproceeds.resolve_right fun h => hopen h.1
          exact ih hupgraded' hstate' hlog'

/-! ## Frames in the closed state -/

/-- What an operation makes of a websocket that is closed: the record is left as it is, unless something is answered. -/
structure Rests (c : AsgiContext) (answers : Prop) (c' : AsgiContext) : Prop where
  closed : c'.websocketState = .closed
  upgraded : c'.upgraded = c.upgraded
  log : answers ∧ (∃ output, c'.log = c.log ++ [output]) ∨ ¬ answers ∧ c'.log = c.log

theorem deliver_closed (hclosed : c.websocketState = .closed) :
    c.Rests (c.websocketOpcode = .text → decodeUtf8 c.websocketMessage ≠ none) c.deliverWebsocketHandlerAsgi := by
  unfold deliverWebsocketHandlerAsgi
  split
  case isTrue htext =>
    cases hdecode : decodeUtf8 c.websocketMessage with
    | none =>
        simp only [closeWebsocketHandlerAsgi_of_closed hclosed]
        exact ⟨hclosed, rfl, .inr ⟨fun h => h htext rfl, rfl⟩⟩
    | some text => exact ⟨hclosed, rfl, .inl ⟨nofun, _, rfl⟩⟩
  case isFalse htext => exact ⟨hclosed, rfl, .inl ⟨fun h => absurd h htext, _, rfl⟩⟩

theorem gather_closed (hclosed : c.websocketState = .closed) (frame : WebsocketFrame) :
    c.Rests (c.Delivers frame) (c.gatherWebsocketHandlerAsgi frame) := by
  unfold gatherWebsocketHandlerAsgi
  split
  case isTrue hlarge =>
    rw [closeWebsocketHandlerAsgi_of_closed hclosed]
    exact ⟨hclosed, rfl, .inr ⟨fun h => absurd hlarge (Nat.not_lt.mpr h.2.1), rfl⟩⟩
  case isFalse hsmall =>
    dsimp only
    split
    case isFalse hfin => exact ⟨hclosed, rfl, .inr ⟨fun h => hfin h.1, rfl⟩⟩
    case isTrue hfin =>
      have hrests := deliver_closed (c := { c with websocketMessage := c.websocketMessage ++ frame.payload }) hclosed
      refine ⟨hrests.closed, hrests.upgraded, ?_⟩
      rcases hrests.log with ⟨hdecodes, hlog⟩ | ⟨hfails, hlog⟩
      · exact .inl ⟨⟨hfin, Nat.le_of_not_lt hsmall, hdecodes⟩, hlog⟩
      · exact .inr ⟨fun h => hfails h.2.2, hlog⟩

/-- A frame that is handled in the closed state is answered just when one of its kind is. -/
theorem frame_closed (hclosed : c.websocketState = .closed) {frame : WebsocketFrame}
    (hpayload : frame.payload.length ≤ viriatumWebsocketMaxPayload) :
    c.Rests (c.Answered frame) (c.frameWebsocketHandlerAsgi frame) := by
  unfold frameWebsocketHandlerAsgi Answered
  cases frame.opcode with
  | ping =>
      simp only [buildFrameWebsocket_eq hpayload]
      exact ⟨hclosed, rfl, .inl ⟨trivial, _, rfl⟩⟩
  | pong => exact ⟨hclosed, rfl, .inr ⟨id, rfl⟩⟩
  | close =>
      have hpushed : (c.pushEventHandlerAsgi (.disconnect (closeCodeWebsocket frame.payload))).websocketState = .closed :=
        hclosed
      dsimp only
      rw [closeWebsocketHandlerAsgi_of_closed hpushed]
      exact ⟨hclosed, rfl, .inl ⟨trivial, _, rfl⟩⟩
  | continuation =>
      dsimp only
      split
      case isTrue hnone =>
        rw [closeWebsocketHandlerAsgi_of_closed hclosed]
        exact ⟨hclosed, rfl, .inr ⟨fun h => h.1 hnone, rfl⟩⟩
      case isFalse hsome => simpa [hsome] using gather_closed hclosed frame
  | text =>
      dsimp only
      split
      case isTrue hsome =>
        rw [closeWebsocketHandlerAsgi_of_closed hclosed]
        exact ⟨hclosed, rfl, .inr ⟨fun h => hsome h.1, rfl⟩⟩
      case isFalse hnone =>
        obtain ⟨hstate, hupgraded, hlog⟩ := gather_closed (c := { c with websocketOpcode := .text }) hclosed frame
        exact ⟨hstate, hupgraded, by simpa [not_not.mp hnone] using hlog⟩
  | binary =>
      dsimp only
      split
      case isTrue hsome =>
        rw [closeWebsocketHandlerAsgi_of_closed hclosed]
        exact ⟨hclosed, rfl, .inr ⟨fun h => hsome h.1, rfl⟩⟩
      case isFalse hnone =>
        obtain ⟨hstate, hupgraded, hlog⟩ := gather_closed (c := { c with websocketOpcode := .binary }) hclosed frame
        exact ⟨hstate, hupgraded, by simpa [not_not.mp hnone] using hlog⟩

/-- The loop over the frames handles the first of them in the closed state, and drops the rest. -/
theorem frames_closed (hclosed : c.websocketState = .closed) (rounds : Nat) :
    c.Rests (∃ frame, parseFrameWebsocket c.websocketBuffer = .ok (some frame) ∧ c.Answered frame)
      (c.framesWebsocketHandlerAsgi (rounds + 1)) := by
  unfold framesWebsocketHandlerAsgi
  split
  case h_1 message hparse =>
    rw [closeWebsocketHandlerAsgi_of_closed hclosed]
    exact ⟨hclosed, rfl, .inr ⟨fun ⟨frame, hframe, _⟩ => by simp [hparse] at hframe, rfl⟩⟩
  case h_2 hparse => exact ⟨hclosed, rfl, .inr ⟨fun ⟨frame, hframe, _⟩ => by simp [hparse] at hframe, rfl⟩⟩
  case h_3 frame hparse =>
    obtain ⟨hstate, hupgraded, hlog⟩ := frame_closed hclosed (payload_parseFrameWebsocket hparse)
    simp only [hstate, if_true]
    refine ⟨rfl, hupgraded, ?_⟩
    rcases hlog with ⟨hanswered, hlog⟩ | ⟨hunanswered, hlog⟩
    · exact .inl ⟨⟨frame, hparse, hanswered⟩, hlog⟩
    · refine .inr ⟨fun ⟨other, hother, hanswered⟩ => ?_, hlog⟩
      obtain rfl : other = frame := by simpa [hparse] using hother.symm
      exact hunanswered hanswered

theorem data_closed (hclosed : c.websocketState = .closed) {data : Bytes} (hdata : data ≠ []) :
    c.Rests (∃ frame, parseFrameWebsocket (c.websocketBuffer ++ data) = .ok (some frame) ∧ c.Answered frame)
      (c.dataHandlerWebsocketAsgi data) := by
  obtain ⟨rounds, hrounds⟩ : ∃ rounds, (c.websocketBuffer ++ data).length = rounds + 1 := by
    cases data with
    | nil => exact absurd rfl hdata
    | cons first data => exact ⟨(c.websocketBuffer ++ data).length, by simp; omega⟩
  rw [dataHandlerWebsocketAsgi, hrounds]
  obtain ⟨hstate, hupgraded, hlog⟩ :=
    frames_closed (c := { c with websocketBuffer := c.websocketBuffer ++ data }) hclosed rounds
  exact ⟨hstate, hupgraded, hlog⟩

/-! ## Runs -/

theorem sound_create : create.Sound :=
  ⟨fun _ => ⟨fun output hmem => by
    obtain rfl : output = .event .connect := by simpa [create] using hmem
    exact ⟨nofun, nofun⟩, by simp [create]⟩, nofun⟩

theorem Sound.proceeds (h : c.Sound) (hupgraded : c.upgraded) (hopen : c.websocketState ≠ .closed) :
    c.websocketState = .connected ∧ Unclosed c.log :=
  ⟨(h.opened hopen).2.mp hupgraded, (h.opened hopen).1⟩

theorem Sound.end (h : c.Sound) (code : UInt16) (reason : Option Bytes) :
    (c.endWebsocketHandlerAsgi code reason).Sound := by
  unfold endWebsocketHandlerAsgi
  split
  case isTrue hconnecting =>
    obtain ⟨hlog, hupgraded⟩ := h.opened (by simp [hconnecting])
    have hnot : c.upgraded = false := by simpa [hconnecting] using hupgraded
    have hrefused : Unclosed (c.log ++ [.write viriatumAsgiRejected true]) := hlog.push (by decide) nofun
    exact ⟨fun hopen => absurd rfl hopen, fun _ => by simpa [writeRawHandlerAsgi, hnot] using hrefused⟩
  case isFalse hnot =>
    by_cases hclosed : c.websocketState = .closed
    · rwa [closeWebsocketHandlerAsgi_of_closed hclosed]
    · obtain ⟨hlog, hupgraded⟩ := h.opened hclosed
      have hconnected : c.websocketState = .connected := by
        cases hstate : c.websocketState <;> simp [hstate] at hnot hclosed ⊢
      exact (proceeds_close (hupgraded.mpr hconnected) hconnected hlog code reason).sound

theorem Sound.step (h : c.Sound) {input : WebsocketInput} (hunanswered : c.Unanswered input) : (c.step input).Sound := by
  cases input with
  | read data =>
      simp only [AsgiContext.step]
      split
      case isFalse => exact h
      case isTrue hread =>
        by_cases hclosed : c.websocketState = .closed
        · obtain ⟨hstate, hupgraded, hlog⟩ := data_closed hclosed hread.2
          rcases hlog with ⟨⟨frame, hframe, hanswered⟩, -⟩ | ⟨-, hlog⟩
          · exact absurd hanswered (hunanswered hread.1 hread.2 hclosed frame hframe)
          · refine ⟨fun hopen => absurd hstate hopen, fun _ => ?_⟩
            rw [hupgraded, hlog]
            exact h.closed hclosed
        · obtain ⟨hconnected, hlog⟩ := h.proceeds hread.1 hclosed
          exact (proceeds_frames (c := { c with websocketBuffer := c.websocketBuffer ++ data }) hread.1 hconnected hlog
            _).sound
  | accept fields =>
      simp only [AsgiContext.step, acceptWebsocketHandlerAsgi]
      split
      case isFalse => exact h
      case isTrue hconnecting =>
        have hlog := (h.opened (by simp [hconnecting])).1
        exact Proceeds.sound ⟨rfl, .inl ⟨rfl, hlog.push (by simp [isCloseFrame, closeByte, bytes]) (by intro h; cases h)⟩⟩
  | send text data =>
      simp only [AsgiContext.step, sendWebsocketHandlerAsgi]
      split
      case isFalse => exact h
      case isTrue hconnected =>
        obtain ⟨hlog, hupgraded⟩ := h.opened (by simp [hconnected])
        split
        case h_1 => exact h
        case h_2 frame hframe =>
          have hother : ¬ (write frame false).isCloseFrame := by
            cases text <;> simpa [isCloseFrame] using fun hhead => by simp [head_buildFrameWebsocket hframe] at hhead
          exact Proceeds.sound ⟨hupgraded.mpr hconnected, .inl ⟨hconnected, hlog.push hother (by intro h; cases h)⟩⟩
  | close code reason => exact h.end code reason
  | done => exact h.end _ _

/-- A read whose frame is answered in the closed state writes or pushes behind the close frame. -/
theorem unanswered_of_final (h : c.Sound) {input : WebsocketInput} (hfinal : Final (c.step input).log) :
    c.Unanswered input := by
  cases input with
  | read data =>
      intro hupgraded hdata hclosed frame hframe hanswered
      have hconcluded : Concluded c.log := by simpa [hupgraded] using h.closed hclosed
      rcases (data_closed hclosed hdata).log with ⟨-, output, hlog⟩ | ⟨hnone, -⟩
      · simp only [step, hupgraded, hdata, ne_eq, not_false_eq_true, and_self, if_true, hlog] at hfinal
        exact hconcluded.not_final output hfinal
      · exact hnone ⟨frame, hframe, hanswered⟩
  | _ => trivial

/-- In every run, whatever is read and whatever the application sends, the close frame is the last thing recorded and is
the only one, exactly when no read completes a frame in the closed state that is answered. -/
theorem final_iff (inputs : List WebsocketInput) :
    (∀ earlier, earlier <+: inputs → Final (create.run earlier).log) ↔ Throughout step Unanswered create inputs :=
  always_iff_throughout (I := fun _ (c : AsgiContext) => c.Sound) (P := fun _ (c : AsgiContext) => Final c.log)
    (fun _ _ _ hsound hunanswered => hsound.step hunanswered) (fun _ _ hsound => hsound.final)
    (fun _ _ _ hsound hfinal => unanswered_of_final hsound hfinal) inputs sound_create

/-- A ping that comes after the application has closed the websocket is answered behind the close frame. -/
theorem not_final : ¬ ∀ inputs : List WebsocketInput, Final (create.run inputs).log := by
  intro h
  have hlate := (h [.accept [], .close 1000 none, .read [0x89, 0x80, 0, 0, 0, 0]]).1
    [.event .connect, .write (bytes "HTTP/1.1 101 Switching Protocols\r\nUpgrade: websocket\r\nConnection: Upgrade\r\n\r\n")
      false] (.write [0x88, 0x02, 0x03, 0xe8] true) [.write [0x8a, 0x00] false] (by decide) (by decide)
  cases hlate

end AsgiContext

end Viriatum
