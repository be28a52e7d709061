import Viriatum.Stream.Lemmas.Gone
import Viriatum.Stream.Resets

/-!
# The grammar of the calls

The calls that a session makes for a message come in the order of a message of HTTP/1: they begin it, hand over its
target and its fields, complete the headers, hand over the body and the trailers, and complete the message. Nothing
follows the completion of a message or the reset of its stream.
-/

namespace Viriatum

open Library

/-! ## The grammar -/

/-- Where a message stands in the order of its calls. -/
inductive MessagePhase where
  | idle
  | begun
  | head
  | headValue
  | body
  | trailers
  | trailerValue
  | complete
deriving DecidableEq, Repr

namespace MessagePhase

def next : MessagePhase → Callback → Option MessagePhase
  | .idle, .messageBegin _ => some .begun
  | .begun, .url _ _ => some .head
  | .head, .headerField _ _ => some .headValue
  | .headValue, .headerValue _ _ => some .head
  | .head, .headersComplete _ => some .body
  | .body, .body _ _ => some .body
  | .body, .headerField _ _ => some .trailerValue
  | .trailerValue, .headerValue _ _ => some .trailers
  | .trailers, .headerField _ _ => some .trailerValue
  | .body, .messageComplete _ => some .complete
  | .trailers, .messageComplete _ => some .complete
  | _, _ => none

/-- The phase after some calls, none when they are out of order. -/
def after : MessagePhase → List Callback → Option MessagePhase
  | phase, [] => some phase
  | phase, callback :: calls => (phase.next callback).bind fun phase => phase.after calls

variable {phase phase' : MessagePhase} {calls more : List Callback} {address : Nat}

theorem after_append : phase.after (calls ++ more) = (phase.after calls).bind fun phase => phase.after more := by
  induction calls generalizing phase with
  | nil => rfl
  | cons callback calls ih =>
      simp only [List.cons_append, after, Option.bind_assoc]
      exact congrArg _ (funext fun phase => ih)

theorem after_complete (h : (complete.after calls).isSome) : calls = [] := by
  cases calls with
  | nil => rfl
  | cons callback calls => cases h

end MessagePhase

/-- The calls follow the order of a message, as far as they go. -/
def Grammatical (calls : List Callback) : Prop := (MessagePhase.idle.after calls).isSome

/-- The calls that a message sees once at most, numbered in their order. -/
def Callback.milestone : Callback → Option Nat
  | .messageBegin _ => some 1
  | .url _ _ => some 2
  | .headersComplete _ => some 3
  | .messageComplete _ => some 4
  | _ => none

/-- The milestone that a phase comes before. -/
def MessagePhase.ahead : MessagePhase → Nat
  | .idle => 1
  | .begun => 2
  | .head | .headValue => 3
  | .body | .trailers | .trailerValue => 4
  | .complete => 5

theorem MessagePhase.milestones {phase : MessagePhase} {calls : List Callback} (h : (phase.after calls).isSome) :
    (calls.filterMap Callback.milestone).Pairwise (· < ·) ∧
      ∀ n ∈ calls.filterMap Callback.milestone, phase.ahead ≤ n := by
  induction calls generalizing phase with
  | nil => simp
  | cons callback calls ih =>
      simp only [after] at h
      cases hnext : phase.next callback with
      | none => simp [hnext] at h
      | some phase' =>
          simp only [hnext, Option.bind_some] at h
          obtain ⟨hpairwise, hahead⟩ := ih h
          have hstep : phase.ahead ≤ phase'.ahead ∧
              ∀ n, callback.milestone = some n → phase.ahead ≤ n ∧ n < phase'.ahead := by
            cases phase <;> cases callback <;>
              simp only [next, reduceCtorEq, Option.some.injEq] at hnext <;> subst hnext <;>
                simp [ahead, Callback.milestone]
          rw [List.filterMap_cons]
          cases hmilestone : callback.milestone with
          | none => exact ⟨hpairwise, fun n hn => Nat.le_trans hstep.1 (hahead n hn)⟩
          | some n =>
              obtain ⟨hle, hlt⟩ := hstep.2 n hmilestone
              refine ⟨List.pairwise_cons.mpr ⟨fun m hm => Nat.lt_of_lt_of_le hlt (hahead m hm), hpairwise⟩, fun m hm => ?_⟩
              rcases List.mem_cons.mp hm with rfl | hm
              · exact hle
              · exact Nat.le_trans hstep.1 (hahead m hm)

/-- Nothing follows the completion of a message. -/
theorem Grammatical.ends {calls more : List Callback} {address : Nat} (h : Grammatical (calls ++ more))
    (hmem : .messageComplete address ∈ calls) : more = [] := by
  obtain ⟨before, later, rfl⟩ := List.append_of_mem hmem
  unfold Grammatical at h
  rw [List.append_assoc, MessagePhase.after_append] at h
  cases hbefore : MessagePhase.idle.after before with
  | none => simp [hbefore] at h
  | some phase =>
      simp only [hbefore, Option.bind_some, List.cons_append, MessagePhase.after] at h
      have hrest : later ++ more = [] := by
        cases phase <;> simp only [MessagePhase.next, Option.bind_none, Option.isSome_none, Bool.false_eq_true,
          Option.bind_some] at h
        · exact MessagePhase.after_complete h
        · exact MessagePhase.after_complete h
      exact (List.append_eq_nil_iff.mp hrest).2

/-! ## The calls of transcripts and promises -/

theorem after_headFields (address : Nat) (fields : List HpackHeader) :
    MessagePhase.head.after (fields.flatMap (Intake.fieldCalls address)) = some .head := by
  induction fields with
  | nil => rfl
  | cons field fields ih => exact ih

theorem after_trailerFields (address : Nat) (fields : List HpackHeader) :
    MessagePhase.trailers.after (fields.flatMap (Intake.fieldCalls address)) = some .trailers := by
  induction fields with
  | nil => rfl
  | cons field fields ih => exact ih

theorem after_parts (address : Nat) (parts : List Bytes) :
    MessagePhase.body.after (parts.map (.body address)) = some .body := by
  induction parts with
  | nil => rfl
  | cons part parts ih => exact ih

theorem after_pseudoCalls (request : HttpRequest) :
    MessagePhase.begun.after (Intake.pseudoCalls request) = some .head := by
  unfold Intake.pseudoCalls
  split <;> rfl

theorem grammatical_ending (address : Nat) (ending : Option Ending) :
    (MessagePhase.body.after (Ending.calls address ending)).isSome := by
  match ending with
  | none => rfl
  | some .headers => rfl
  | some .data => rfl
  | some (.trailers []) => rfl
  | some (.trailers (field :: fields)) =>
      change (MessagePhase.trailers.after (fields.flatMap (Intake.fieldCalls address) ++ [.messageComplete address])).isSome
      rw [MessagePhase.after_append, after_trailerFields]
      rfl

theorem Transcript.grammatical (address streamId : Nat) (t : Transcript) : Grammatical (t.calls address streamId) := by
  unfold Grammatical calls
  rw [head_calls, List.append_assoc, List.append_assoc, List.cons_append]
  change (MessagePhase.begun.after _).isSome
  rw [List.append_assoc, MessagePhase.after_append, after_pseudoCalls, Option.bind_some, MessagePhase.after_append,
    after_headFields, Option.bind_some]
  change (MessagePhase.body.after (t.parts.map (.body address) ++ Ending.calls address t.ending)).isSome
  rw [MessagePhase.after_append, after_parts, Option.bind_some]
  exact grammatical_ending address t.ending

theorem Heard.grammatical {address : Nat} {calls : List Callback} (h : Heard address calls) : Grammatical calls := by
  rcases h with rfl | ⟨path, rfl⟩ | ⟨t, streamId, -, rfl⟩
  · rfl
  · rfl
  · exact t.grammatical address streamId

/-! ## Streams that are reset -/

/-- No stream that has been reset has been opened. -/
def Outline.Unopened (o : Outline) : Prop := ∀ streamId, o.resets streamId → ∀ address, .opened address streamId ∉ o.history

namespace Http2Connection

open Outline

variable {s : Http2Connection} {service : Service} {input : Input} {inputs : List (Service × Input)} {a : Nat}

theorem unopened_step (hh : Honours service input s) (hreleased : s.outline.Released) (hnumbered : s.outline.Numbered)
    (h : s.outline.Unopened) : (step service input s).outline.Unopened := by
  have hkeeps := Moves.keeps (I := fun o => (o.Numbered ∧ o.Unopened) ∧
      (∀ address id, .opened address id ∈ o.history → id % 2 = 1 →
        .opened address id ∈ s.outline.history ∨ s.opening input id) ∧
      ∀ id, o.resets id → s.outline.resets id ∨ s.refusing input id) ?_ (@step_does s service input)
    ⟨⟨hnumbered, h⟩, fun _ _ hmem _ => Or.inl hmem, fun _ hresets => Or.inl hresets⟩
  · exact hkeeps.1.2
  · rintro kind o o' hk hm ⟨⟨ho, hunopened⟩, hopened, hresets⟩
    obtain ⟨events, heq, hadds⟩ := hm.adds
    have hopened' : ∀ address id, .opened address id ∈ o'.history → id % 2 = 1 →
        .opened address id ∈ s.outline.history ∨ s.opening input id := by
      intro address id hmem hodd
      rw [heq, List.mem_append] at hmem
      rcases hmem with hnew | hold
      · have hadd := hadds _ hnew
        cases kind with
        | opened streamId =>
            obtain ⟨address', heq'⟩ := hadd
            cases heq'
            exact Or.inr (kind_opened hk)
        | promised =>
            rcases hadd with ⟨_, _, heq', -⟩ | ⟨_, _, _, heq'⟩ | ⟨address', heq'⟩
            · cases heq'
            · cases heq'
            · cases heq'
              have heven := ho.even
              omega
        | _ => simp [MoveKind.Adds] at hadd
      · exact hopened address id hold hodd
    have hresets' : ∀ id, o'.resets id → s.outline.resets id ∨ s.refusing input id := by
      rintro id ⟨event, hmem, hr⟩
      rw [heq, List.mem_append] at hmem
      rcases hmem with hnew | hold
      · exact Or.inr (kind_reset hh ((hadds event hnew).resets hr ▸ hk))
      · exact hresets id ⟨event, hold, hr⟩
    refine ⟨⟨hm.numbered ho, fun id hr address hmem => ?_⟩, hopened', hresets'⟩
    rcases hresets' id hr with hold | hrefusing
    · obtain ⟨hodd, -⟩ := hreleased.released id hold
      rcases hopened' address id hmem hodd with hbefore | hopening
      · exact h id hold address hbefore
      · exact hh.not_reset hopening hold
    · have hasks := hrefusing
      obtain ⟨frame, -, rfl, ⟨-, -, -, hodd, hlast⟩, -⟩ := hasks
      rcases hopened' address _ hmem hodd with hbefore | hopening
      · have hle := (hnumbered.opened address _ hbefore).2.1 hodd
        exact absurd hlast (Nat.not_lt.mpr hle)
      · exact not_refusing_of_opening hopening hrefusing

theorem unopened_run (h : Along Honours inputs start) : (run inputs start).outline.Unopened := by
  have hkeeps := run_along (I := fun s => (s.outline.Released ∧ s.outline.Numbered) ∧ s.outline.Unopened)
    (fun service input s hh hs => ⟨⟨released_step hh hs.1.1, Moves.keeps (fun _ _ _ _ hm ho => hm.numbered ho) step_does hs.1.2⟩,
      unopened_step hh hs.1.1 hs.1.2 hs.2⟩) inputs h ⟨⟨released_start, numbered_start⟩, ?_⟩
  · exact hkeeps.2
  · rintro id ⟨event, hmem, hr⟩
    have hnone : ∀ event ∈ start.history, event.resets = none := by decide
    cases (hnone event hmem).symm.trans hr

/-! ## Runs -/

/-- A message that is of no stream of the table is gone. -/
theorem gone_of_absent (h : s.Attends) (hnumbered : s.outline.Numbered) (hbelow : a < s.nextAddress)
    (habsent : a ∉ s.outline.addresses) : Gone a (callsOf a s.history) s where
  calls := rfl
  absent _ hslot heq := habsent (heq ▸ List.mem_map_of_mem (List.mem_of_getElem? (outline_stream hslot)))
  below := hbelow
  fresh := h.fresh
  known _ := hnumbered.address_lt

theorem failed_of_suffix (h : ∀ error, .failed error ∉ (run inputs s).history) : ∀ error, .failed error ∉ s.history :=
  fun error hmem => h error ((run_history inputs s).subset hmem)

/-- A message that has been completed is not called for again. -/
theorem callsOf_completed {later : List (Service × Input)} (hheard : Heard a (callsOf a (run later s).history))
    (hcomplete : .messageComplete a ∈ callsOf a s.history) :
    callsOf a (run later s).history = callsOf a s.history := by
  obtain ⟨events, hevents⟩ := run_history later s
  have hgrammatical := hheard.grammatical
  rw [← hevents, callsOf_append] at hgrammatical ⊢
  rw [hgrammatical.ends hcomplete, List.append_nil]

theorem mem_addresses (h : a ∈ s.outline.addresses) : ∃ slot, slot < s.count ∧ (s.stream slot).request.address = a := by
  obtain ⟨stream, hstream, rfl⟩ := List.mem_map.mp h
  obtain ⟨slot, hslot, rfl⟩ := List.mem_iff_getElem.mp hstream
  rw [length_outline] at hslot
  refine ⟨slot, hslot, ?_⟩
  have hat := (List.getElem?_eq_some_iff.mp (outline_stream hslot)).2
  exact (congrArg OutlineStream.address hat).symm

/-- A reset of the peer closes the stream. -/
theorem handleFrame_reset {slot : Nat} {frame : Http2Frame} (ht : frame.type = .rstStream) (hid : frame.streamId ≠ 0)
    (hfind : s.findStream frame.streamId = some slot) :
    Effect.wp (handleFrame service frame) (fun _ s' => s' = closeStream slot s) (fun _ _ => True) s := by
  have hframe : s.frameSlot frame = some slot := (frameSlot_of_ne hid).trans hfind
  unfold handleFrame accountData dispatchFrame
  simp only [Effect.wp_bind, Effect.wp_get, wp_refuseSome, Effect.wp_refuseIf, ht]
  split
  case h_1 => trivial
  case h_2 =>
    split
    case isTrue => trivial
    case isFalse =>
      rw [if_neg (by simp)]
      simp only [Effect.wp_pure]
      split
      case h_1 => trivial
      case h_2 =>
        rw [hframe]
        rfl

theorem closed_mem_closeStream (slot : Nat) (s : Http2Connection) :
    .closed (s.stream slot).request.address ∈ (closeStream slot s).history := by
  have haddress : ((unsetHandler slot s).stream slot).request.address = (s.stream slot).request.address :=
    congrArg (fun core : StreamCore => core.request.address) ((unsetHandler_alike slot s).stream slot).1
  rw [← haddress]
  unfold closeStream
  dsimp only
  split <;> exact List.mem_cons_self

theorem run_closed (h : s.connectionClosed = true) (inputs : List (Service × Input)) : run inputs s = s := by
  induction inputs with
  | nil => rfl
  | cons input inputs ih =>
      have hstep : step input.1 input.2 s = s := by
        unfold step
        rw [if_pos h]
      change run inputs (step input.1 input.2 s) = s
      rw [hstep, ih]

/-- Nothing is called for the message of a stream that the peer resets. -/
theorem callsOf_reset {frame : Http2Frame} {later : List (Service × Input)}
    (hsound : ∀ error, .failed error ∉ (run ((service, .frame frame) :: later) s).history) (h : s.Attends)
    (hnumbered : s.outline.Numbered) (hrecorded : s.outline.Recorded)
    (hheard : Heard a (callsOf a (run ((service, .frame frame) :: later) s).history)) (ht : frame.type = .rstStream)
    (hopened : .opened a frame.streamId ∈ s.history) :
    callsOf a (run ((service, .frame frame) :: later) s).history = callsOf a s.history := by
  obtain ⟨hbelow, -, hstreams⟩ := hnumbered.opened a frame.streamId hopened
  by_cases hin : a ∈ s.outline.addresses
  · obtain ⟨slot, hslot, haddress⟩ := mem_addresses hin
    have hid : (s.stream slot).streamId = frame.streamId :=
      hstreams _ (List.mem_of_getElem? (outline_stream hslot)) haddress
    by_cases hodd : frame.streamId % 2 = 1
    · by_cases hclosed : s.connectionClosed = true
      · rw [run_closed hclosed]
      · have hfind : s.findStream frame.streamId = some slot := by
          cases hfound : s.findStream frame.streamId with
          | none => exact absurd (hid ▸ mem_ids hslot) (findStream_eq_none.mp hfound)
          | some other =>
              obtain ⟨hother, hsame⟩ := findStream_some hfound
              rw [hnumbered.slot_of_asked hother hslot (hsame.symm ▸ hodd) (hsame.trans hid.symm)]
        have hstep : step service (.frame frame) s = closeStream slot (s.record (.received frame)) := by
          have hframe : Effect.wp (handleFrame service frame) (fun _ s' => s' = closeStream slot (s.record (.received frame)))
              (fun _ _ => True) (s.record (.received frame)) :=
            handleFrame_reset ht (by omega) hfind
          have hnone : ∀ error, .failed error ∉ (step service (.frame frame) s).history := failed_of_suffix hsound
          unfold step at hnone ⊢
          rw [if_neg hclosed] at hnone ⊢
          simp only [receive] at hnone ⊢
          unfold Effect.wp at hframe
          split at hframe
          case h_1 hrun =>
            rw [hrun]
            exact hframe
          case h_2 hrun =>
            rw [hrun] at hnone
            exact absurd (failed_mem_fail _ _) (hnone _)
        obtain ⟨-, hnext, hcalls, -⟩ := closeStream_leaves (s := s.record (.received frame)) hslot
        have hkept : callsOf a (step service (.frame frame) s).history = callsOf a s.history := by
          rw [hstep, hcalls]
          have hsilent : ∀ event ∈ [Event.received frame], event.Silent := by simp [Event.Silent]
          exact callsOf_silent hsilent a s.history
        have hgone := closed_mem_closeStream slot (s.record (.received frame))
        have hsame : ((s.record (.received frame)).stream slot).request.address = a := haddress
        rw [hsame, ← hstep] at hgone
        have hnumbered' : (step service (.frame frame) s).outline.Numbered :=
          Moves.keeps (fun _ _ _ _ hm ho => hm.numbered ho) step_does hnumbered
        have hrecorded' : (step service (.frame frame) s).outline.Recorded :=
          (Moves.keeps (I := fun o => o.Numbered ∧ o.Recorded)
            (fun _ _ _ _ hm ho => ⟨hm.numbered ho.1, hm.recorded ho.1 ho.2⟩) step_does ⟨hnumbered, hrecorded⟩).2
        obtain ⟨hbelow', habsent⟩ := hrecorded'.closed a hgone
        have hattends : (step service (.frame frame) s).Attends := by
          rw [hstep]
          exact (h.alike (record_alike (by trivial) s)).close hslot
        have hend := ((gone_of_absent hattends hnumbered' hbelow' habsent).run later).calls
        exact hend.trans hkept
    · have hend : (s.stream slot).endStream = true := h.even slot hslot (by omega)
      have hcomplete : .messageComplete a ∈ callsOf a s.history := by
        have hfollows := h.follows slot hslot
        rw [callsAt, haddress] at hfollows
        cases hfollows with
        | awaiting hwaits =>
            have hcontinuation := h.odd hwaits.1
            rw [← hwaits.2.2, hid] at hcontinuation
            exact absurd hcontinuation hodd
        | promised _ _ _ hcalls =>
            obtain ⟨path, hcalls⟩ := hcalls
            rw [hcalls, ← haddress]
            simp [promisedCalls, Http2Stream.core]
        | receiving _ _ _ _ _ hopen =>
            have hwaits := hopen.mp hend
            have hcontinuation := h.odd hwaits.1
            rw [← hwaits.2.2, hid] at hcontinuation
            exact absurd hcontinuation hodd
        | ended t streamId _ hending _ _ _ hcalls =>
            rw [hcalls, ← haddress]
            exact t.completed hending
      exact callsOf_completed hheard hcomplete
  · exact ((gone_of_absent h hnumbered hbelow hin).run _).calls

/-- What a run tells its handlers: every message in the order of the grammar, each milestone of it once, nothing once
its stream has been closed or reset, and no two streams through one message. -/
structure Orderly (inputs : List (Service × Input)) : Prop where
  grammar : ∀ a, Grammatical (callsOf a (run inputs start).history)
  once : ∀ a, ((callsOf a (run inputs start).history).filterMap Callback.milestone).Pairwise (· < ·)
  closed : ∀ earlier later a, inputs = earlier ++ later → .closed a ∈ (run earlier start).history →
    callsOf a (run inputs start).history = callsOf a (run earlier start).history
  reset : ∀ earlier later a streamId, inputs = earlier ++ later → .opened a streamId ∈ (run inputs start).history →
    (run earlier start).outline.resets streamId →
    callsOf a (run inputs start).history = callsOf a (run earlier start).history
  received : ∀ earlier service frame later a, inputs = earlier ++ (service, .frame frame) :: later →
    frame.type = .rstStream → .opened a frame.streamId ∈ (run earlier start).history →
    callsOf a (run inputs start).history = callsOf a (run earlier start).history
  apart : ∀ a streamId streamId', .opened a streamId ∈ (run inputs start).history →
    .opened a streamId' ∈ (run inputs start).history → streamId = streamId'

/-- A run without an error in which no window of a stream overflows and no refused stream is asked for again calls the
handlers in the order of the grammar. -/
theorem calls_orderly {inputs : List (Service × Input)} (hsound : ∀ error, .failed error ∉ (run inputs start).history)
    (h : Along Honours inputs start) : Orderly inputs := by
  have hattends := attends_run hsound
  have hearlier : ∀ earlier later, inputs = earlier ++ later →
      (∀ error, .failed error ∉ (run earlier start).history) ∧ run inputs start = run later (run earlier start) := by
    rintro earlier later rfl
    rw [run_append] at hsound ⊢
    exact ⟨failed_of_suffix hsound, rfl⟩
  constructor
  case grammar => exact fun a => (hattends.heard a).grammatical
  case once => exact fun a => (MessagePhase.milestones (hattends.heard a).grammatical).1
  case closed =>
    intro earlier later a hinputs hclosed
    obtain ⟨hsound', heq⟩ := hearlier earlier later hinputs
    obtain ⟨hbelow, habsent⟩ := (recorded_run earlier).closed a hclosed
    rw [heq]
    exact ((gone_of_absent (attends_run hsound') (numbered_run earlier) hbelow habsent).run later).calls
  case reset =>
    rintro earlier later a streamId hinputs hopened ⟨event, hmem, hresets⟩
    obtain ⟨-, heq⟩ := hearlier earlier later hinputs
    have hin : event ∈ (run inputs start).history := by
      rw [heq]
      exact (run_history later _).subset hmem
    exact absurd hopened (unopened_run h streamId ⟨event, hin, hresets⟩ a)
  case received =>
    intro earlier service frame later a hinputs ht hopened
    obtain ⟨hsound', heq⟩ := hearlier earlier _ hinputs
    have hheard := hattends.heard a
    rw [heq] at hsound hheard ⊢
    exact callsOf_reset hsound (attends_run hsound') (numbered_run earlier) (recorded_run earlier) hheard ht hopened
  case apart => exact (recorded_run inputs).functional

/-! ## A body after a reset -/

/-- A frame of payload. -/
def payloadFrame (streamId : Nat) (flags : UInt8) (payload : Bytes) : Http2Frame where
  type := .data
  flags
  streamId
  payload

/-- A request, an update of its window and a part of its body. -/
def uploadRun (increment : Nat) : List (Service × Input) :=
  [(mutedService, .frame (rootRequest 1 0 [])), (mutedService, .frame (windowUpdate 1 increment)),
    (mutedService, .frame (payloadFrame 1 http2FlagEndStream [0x61]))]

theorem sound_of_all {s : Http2Connection} (h : (s.history.all fun event =>
    match event with
    | .failed _ => false
    | _ => true) = true) : ∀ error, .failed error ∉ s.history := by
  intro error hmem
  have hevent := List.all_eq_true.mp h _ hmem
  cases hevent

theorem calls_orderly_upload : Orderly (uploadRun 1) := by
  apply calls_orderly
  · exact sound_of_all (by decide +kernel)
  · refine ⟨?_, ?_, ?_, trivial⟩
    · rintro frame hframe
      cases hframe
      refine ⟨fun h => ?_, fun _ event hmem => ?_⟩
      · cases h.2.1
      · have hnone : ∀ event ∈ start.history, event.resets = none := by decide
        rw [hnone event hmem]
        simp
    · rintro frame hframe
      cases hframe
      refine ⟨?_, fun h => ?_⟩
      · rintro ⟨_, _, _, _, slot, hfind, hwindow⟩
        obtain rfl : slot = 0 := Option.some.inj (hfind.symm.trans (by decide +kernel))
        exact absurd hwindow (by decide +kernel)
      · cases h.1.2.1
    · rintro frame hframe
      cases hframe
      refine ⟨fun h => ?_, fun h => ?_⟩
      · cases h.2.1
      · cases h.1.2.1

theorem resets_of_any {s : Http2Connection} {streamId : Nat}
    (h : (s.history.any fun event => event.resets = some streamId) = true) : s.outline.resets streamId := by
  obtain ⟨event, hmem, hevent⟩ := List.any_eq_true.mp h
  exact ⟨event, hmem, of_decide_eq_true hevent⟩

/-- The body of a request is handed over after the reset of the stream whose window overflows. -/
theorem calls_not_orderly : (∀ error, .failed error ∉ (run (uploadRun http2MaxWindowSize) start).history) ∧
    ¬ Orderly (uploadRun http2MaxWindowSize) := by
  refine ⟨sound_of_all (by decide +kernel), fun h => ?_⟩
  have hcalls := h.reset ((uploadRun http2MaxWindowSize).take 2) ((uploadRun http2MaxWindowSize).drop 2) 1 1
    (List.take_append_drop 2 _).symm (by decide +kernel) (resets_of_any (by decide +kernel))
  exact absurd hcalls (by decide +kernel)

end Http2Connection

end Viriatum
