import Viriatum.Stream.Goaway

/-!
# Resets

After the session has reset a stream it writes no frame of a message on it any more. The reset of a refused request
holds as long as its identifier is not taken up again; the reset after an overflow leaves the stream in the table.
-/

namespace Viriatum

open Library

namespace Event

/-- The stream that an event of the history resets. -/
def resets : Event → Option Nat
  | .wrote _ frame => if frame.type = .rstStream then some frame.streamId else none
  | _ => none

/-- The stream that a frame written names, other than by a reset. -/
def names : Event → Option Nat
  | .wrote _ frame =>
      match frame.type with
      | .headers | .continuation | .data | .pushPromise | .windowUpdate => some frame.streamId
      | _ => none
  | _ => none

end Event

/-- No frame names a stream after the reset of it. The latest event comes first. -/
def Settled (history : List Event) : Prop :=
  history.Pairwise fun later earlier => earlier.resets = none ∨ later.names ≠ earlier.resets

instance (history : List Event) : Decidable (Settled history) :=
  inferInstanceAs (Decidable (List.Pairwise _ history))

/-- The streams that have been reset. -/
def Outline.resets (o : Outline) (streamId : Nat) : Prop := ∃ event ∈ o.history, event.resets = some streamId

theorem Settled.append {events history : List Event} (h : Settled history)
    (hnames : ∀ event ∈ events, ∀ streamId, event.names = some streamId →
      (∀ e ∈ history, e.resets ≠ some streamId) ∧ ∀ e ∈ events, e.resets ≠ some streamId) :
    Settled (events ++ history) := by
  induction events with
  | nil => exact h
  | cons event events ih =>
      have hrest := ih fun e hmem streamId hn =>
        ⟨(hnames e (List.mem_cons_of_mem _ hmem) streamId hn).1, fun e' hmem' =>
          (hnames e (List.mem_cons_of_mem _ hmem) streamId hn).2 e' (List.mem_cons_of_mem _ hmem')⟩
      refine List.pairwise_cons.mpr ⟨fun earlier hmem => ?_, hrest⟩
      cases hresets : earlier.resets with
      | none => exact Or.inl rfl
      | some streamId =>
          refine Or.inr fun hnamed => ?_
          obtain ⟨hold, hnew⟩ := hnames event List.mem_cons_self streamId hnamed
          cases List.mem_append.mp hmem with
          | inl hmem => exact hnew earlier (List.mem_cons_of_mem _ hmem) hresets
          | inr hmem => exact hold earlier hmem hresets

/-! ## Moves -/

/-- A frame of a message that a move writes names a stream of the table, or the connection. -/
theorem MoveKind.Adds.names {o : Outline} {kind : MoveKind} {event : Event} (h : kind.Adds o event) {streamId : Nat}
    (hn : event.names = some streamId) : streamId = 0 ∨ streamId ∈ o.ids := by
  cases event with
  | wrote owner frame =>
      have hid : frame.streamId = streamId := by
        simp only [Event.names] at hn
        split at hn
        all_goals simp_all
      rw [← hid]
      rcases h.of_wrote with ⟨_, _, hmem⟩ | ⟨_, _, hmem⟩ | ⟨_, _, hmem⟩ | ⟨_, ht⟩ | ⟨error, _, ht⟩
      · exact hmem
      · exact Or.inr hmem
      · exact Or.inr hmem
      · simp [Event.names, ht] at hn
      · simp [Event.names, ht] at hn
  | _ => cases hn

theorem MoveKind.Adds.resets {o : Outline} {kind : MoveKind} {event : Event} (h : kind.Adds o event) {streamId : Nat}
    (hr : event.resets = some streamId) : kind = .reset streamId := by
  cases event with
  | wrote owner frame =>
      rcases h.of_wrote with ⟨_, ht, _⟩ | ⟨_, ht, _⟩ | ⟨_, ht, _⟩ | ⟨hkind, ht⟩ | ⟨error, _, ht⟩
      · simp [Event.resets, ht.2.1] at hr
      · simp [Event.resets, ht] at hr
      · simp [Event.resets, ht] at hr
      · simp only [Event.resets, ht, if_true, Option.some.injEq] at hr
        exact hr ▸ hkind
      · simp [Event.resets, ht] at hr
  | _ => cases hr

namespace Outline

variable {o o' : Outline} {kind : MoveKind}

/-- A session that has only reset streams of the peer, none of which is in the table. -/
structure Released (o : Outline) : Prop where
  settled : Settled o.history
  even : o.pushStreamId % 2 = 0
  released : ∀ streamId, o.resets streamId → streamId % 2 = 1 ∧ streamId ∉ o.ids

theorem Released.not_names (h : o.Released) {streamId : Nat} (hid : streamId = 0 ∨ streamId ∈ o.ids) :
    ¬ o.resets streamId := by
  intro hresets
  obtain ⟨hodd, hnot⟩ := h.released streamId hresets
  cases hid with
  | inl hzero => omega
  | inr hmem => exact hnot hmem

theorem Move.settled (hm : Move kind o o') (hreset : ∀ streamId, kind = .reset streamId → streamId % 2 = 1 ∧ streamId ∉ o.ids)
    (h : o.Released) : Settled o'.history := by
  obtain ⟨events, heq, hadds⟩ := hm.adds
  rw [heq]
  refine h.settled.append fun event hmem streamId hn => ?_
  have hid := (hadds event hmem).names hn
  refine ⟨fun e hold hresets => h.not_names hid ⟨e, hold, hresets⟩, fun e hnew hresets => ?_⟩
  obtain ⟨hodd, hnot⟩ := hreset streamId ((hadds e hnew).resets hresets)
  cases hid with
  | inl hzero => omega
  | inr hmem => exact hnot hmem

theorem Move.even (hm : Move kind o o') (h : o.pushStreamId % 2 = 0) : o'.pushStreamId % 2 = 0 := by
  cases hm with
  | promised i parent frame streamId hi ht hid =>
      have hpush : streamId % 2 = 0 := by omega
      exact hpush
  | skipped streamId hid =>
      have hpush : streamId % 2 = 0 := by omega
      exact hpush
  | failed error =>
      unfold fail
      split <;> exact h
  | _ => exact h

/-- A move that resets a stream out of the table and takes up no identifier that has been reset. -/
theorem Move.released (hm : Move kind o o')
    (hreset : ∀ streamId, kind = .reset streamId → streamId % 2 = 1 ∧ streamId ∉ o.ids)
    (hopened : ∀ streamId, kind = .opened streamId → ¬ o.resets streamId) (h : o.Released) : o'.Released := by
  refine ⟨hm.settled hreset h, hm.even h.even, ?_⟩
  rintro streamId ⟨event, hmem, hresets⟩
  obtain ⟨events, heq, hadds⟩ := hm.adds
  rw [heq, List.mem_append] at hmem
  have hnew : event ∈ events → kind = .reset streamId := fun hnew => (hadds event hnew).resets hresets
  have hold : event ∈ o.history → o.resets streamId := fun hold => ⟨event, hold, hresets⟩
  have hodd : streamId % 2 = 1 ∧ streamId ∉ o.ids := by
    cases hmem with
    | inl hmem => exact hreset streamId (hnew hmem)
    | inr hmem => exact h.released streamId (hold hmem)
  refine ⟨hodd.1, fun hmem' => ?_⟩
  rcases hm.mem_ids hmem' with hin | hin | ⟨_, hin⟩
  · exact hodd.2 hin
  · cases hmem with
    | inl hmem => cases hin.symm.trans (hnew hmem)
    | inr hmem => exact hopened streamId hin (hold hmem)
  · have heven := h.even
    omega

end Outline

/-! ## Steps -/

namespace Http2Connection

open Outline

variable {s : Http2Connection} {service : Service} {input : Input}

/-- Whether a frame of the peer neither overflows the window of a stream nor asks again for a stream that has been
reset. -/
def Honours (_ : Service) (input : Input) (s : Http2Connection) : Prop :=
  ∀ frame, input = .frame frame →
    ¬ s.Overflows frame ∧ (s.Opens frame → ∀ event ∈ s.history, event.resets ≠ some frame.streamId)

/-- The streams that the frame of a step asks for, when it is taken and when it is refused. -/
def opening (s : Http2Connection) (input : Input) (streamId : Nat) : Prop :=
  ∃ frame, input = .frame frame ∧ streamId = frame.streamId ∧ s.Opens frame

def refusing (s : Http2Connection) (input : Input) (streamId : Nat) : Prop :=
  ∃ frame, input = .frame frame ∧ streamId = frame.streamId ∧ s.Refuses frame

theorem kind_opened {promises : Prop} {streamId : Nat} (h : stepKinds promises s input (.opened streamId)) :
    s.opening input streamId := by
  cases input with
  | frame frame =>
      rcases h with h | (h | h) | ⟨error, h⟩
      · cases h
      · exact ⟨frame, rfl, h.1, h.2⟩
      · cases h.1
      · cases h
  | oversized => cases h
  | written =>
      rcases h with h | ⟨id, h⟩
      · cases h
      · cases h
  | work actions => cases h

theorem kind_reset {promises : Prop} {streamId : Nat} (hh : Honours service input s)
    (h : stepKinds promises s input (.reset streamId)) : s.refusing input streamId := by
  cases input with
  | frame frame =>
      rcases h with h | (h | h) | ⟨error, h⟩
      · cases h
      · exact ⟨frame, rfl, h.1, h.2.resolve_right (hh frame rfl).1⟩
      · cases h.1
      · cases h
  | oversized => cases h
  | written =>
      rcases h with h | ⟨id, h⟩
      · cases h
      · cases h
  | work actions => cases h

/-- A frame is not both taken and refused. -/
theorem not_refusing_of_opening {streamId : Nat} (ho : s.opening input streamId) : ¬ s.refusing input streamId := by
  obtain ⟨frame, rfl, _, hopens⟩ := ho
  rintro ⟨_, hframe, _, hrefuses⟩
  cases hframe
  exact hopens.2 hrefuses.2

theorem Honours.not_reset (hh : Honours service input s) {streamId : Nat} (ho : s.opening input streamId) :
    ¬ s.outline.resets streamId := by
  obtain ⟨frame, hinput, rfl, hopens⟩ := ho
  rintro ⟨event, hmem, hresets⟩
  exact (hh frame hinput).2 hopens event hmem hresets

theorem released_step (hh : Honours service input s) (h : s.outline.Released) :
    (step service input s).outline.Released := by
  -- within the step, what is in the table and what is reset is told from the session before it
  have hkeeps := Moves.keeps (I := fun o => o.Released ∧
      (∀ id ∈ o.ids, id % 2 = 1 → id ∈ s.outline.ids ∨ s.opening input id) ∧
      ∀ id, o.resets id → s.outline.resets id ∨ s.refusing input id) ?_ (@step_does s service input)
    ⟨h, fun _ hmem _ => Or.inl hmem, fun _ hresets => Or.inl hresets⟩
  · exact hkeeps.1
  · rintro kind o o' hk hm ⟨hreleased, htable, hresets⟩
    have hreset : ∀ id, kind = .reset id → id % 2 = 1 ∧ id ∉ o.ids := by
      rintro id rfl
      have hrefusing := kind_reset hh hk
      obtain ⟨frame, _, rfl, ⟨_, _, hfind, hodd, _⟩, _⟩ := kind_reset hh hk
      refine ⟨hodd, fun hmem => ?_⟩
      cases htable _ hmem hodd with
      | inl hold => exact findStream_eq_none.mp hfind hold
      | inr hopening => exact not_refusing_of_opening hopening hrefusing
    have hopened : ∀ id, kind = .opened id → ¬ o.resets id := by
      rintro id rfl hr
      have hopening := kind_opened hk
      cases hresets id hr with
      | inl hold => exact hh.not_reset hopening hold
      | inr hrefusing => exact not_refusing_of_opening hopening hrefusing
    refine ⟨hm.released hreset hopened hreleased, fun id hmem hodd => ?_, ?_⟩
    · rcases hm.mem_ids hmem with hold | rfl | ⟨_, hid⟩
      · exact htable id hold hodd
      · exact Or.inr (kind_opened hk)
      · have heven := hreleased.even
        omega
    · rintro id ⟨event, hmem, hr⟩
      obtain ⟨events, heq, hadds⟩ := hm.adds
      rw [heq, List.mem_append] at hmem
      cases hmem with
      | inl hnew => exact Or.inr (kind_reset hh ((hadds event hnew).resets hr ▸ hk))
      | inr hold => exact hresets id ⟨event, hold, hr⟩

/-! ## Runs -/

theorem released_start : start.outline.Released where
  settled := by decide
  even := rfl
  released := by
    rintro streamId ⟨event, hmem, hresets⟩
    have hnone : ∀ event ∈ start.history, event.resets = none := by decide
    cases (hnone event hmem).symm.trans hresets

/-- An update of the window of a stream, or of the one of the connection. -/
def windowUpdate (streamId increment : Nat) : Http2Frame where
  type := .windowUpdate
  flags := 0x00
  streamId
  payload := encodeNumberHttp2 increment

/-- A request, an update of its window and the head of the response to it. -/
def answeredRun (increment : Nat) : List (Service × Input) :=
  [(mutedService, .frame (rootRequest 1 http2FlagEndStream [])), (mutedService, .frame (windowUpdate 1 increment)),
    (mutedService, .work [.writeFlush 1024 200 [] true none])]

end Http2Connection

end Viriatum
