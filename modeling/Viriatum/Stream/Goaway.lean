import Viriatum.Stream.Acyclic

/-!
# Going away

Once a session has sent or received GOAWAY it takes no request on. Only the sending of a second GOAWAY looks at that:
the session holds to it as long as the peer asks for nothing more and no handler makes a promise.
-/

namespace Viriatum

open Library Effect

namespace Event

/-- Whether an event announces that the session goes away. -/
def announces : Event → Bool
  | .received frame => frame.type = .goaway
  | .wrote _ frame => frame.type = .goaway
  | _ => false

/-- Whether an event takes a request on: a stream enters the table, or the message of one begins. -/
def takesOn : Event → Bool
  | .opened _ _ => true
  | .called (.messageBegin _) => true
  | _ => false

end Event

/-- No request is taken on after the session goes away. The latest event comes first. -/
def Quiet (history : List Event) : Prop :=
  history.Pairwise fun later earlier => earlier.announces = true → later.takesOn = false

instance (history : List Event) : Decidable (Quiet history) :=
  inferInstanceAs (Decidable (List.Pairwise _ history))

theorem Quiet.append (events : List Event) {history : List Event} (h : Quiet history) (he : ∀ event ∈ events, event.takesOn = false) :
    Quiet (events ++ history) := by
  induction events with
  | nil => exact h
  | cons event events ih =>
      have hrest := ih fun e hmem => he e (List.mem_cons_of_mem _ hmem)
      exact List.pairwise_cons.mpr ⟨fun _ _ _ => he event List.mem_cons_self, hrest⟩

theorem Quiet.of_silent {history : List Event} (h : ∀ event ∈ history, event.announces = false) : Quiet history := by
  induction history with
  | nil => exact List.Pairwise.nil
  | cons event history ih =>
      refine List.pairwise_cons.mpr ⟨fun earlier hmem hannounces => ?_, ih fun e hmem => h e (List.mem_cons_of_mem _ hmem)⟩
      cases (h earlier (List.mem_cons_of_mem _ hmem)).symm.trans hannounces

/-! ## Moves -/

/-- Whether a move of the kind takes a request on. -/
def MoveKind.TakesOn (kind : MoveKind) : Prop := kind.Enrols ∨ kind = .began

theorem MoveKind.Adds.idle {o : Outline} {kind : MoveKind} {event : Event} (h : kind.Adds o event)
    (hk : ¬ kind.TakesOn) : event.takesOn = false := by
  cases event with
  | opened address streamId => exact absurd (Or.inl h.of_opened) hk
  | called callback =>
      cases callback with
      | messageBegin address => exact absurd (Or.inr h.of_began) hk
      | _ => rfl
  | _ => rfl

theorem MoveKind.Adds.silent {o : Outline} {kind : MoveKind} {event : Event} (h : kind.Adds o event)
    (hk : ∀ error, kind ≠ .failed error) (hr : ∀ frame, kind = .received frame → frame.type ≠ .goaway) :
    event.announces = false := by
  cases event with
  | received frame => exact decide_eq_false (hr frame h.of_received)
  | wrote owner frame =>
      rcases h.of_wrote with ⟨_, ht, _⟩ | ⟨_, ht, _⟩ | ⟨_, ht, _⟩ | ⟨_, ht⟩ | ⟨error, hfailed, _⟩
      · exact decide_eq_false ht.2.2
      · simp [Event.announces, ht]
      · simp [Event.announces, ht]
      · simp [Event.announces, ht]
      · exact absurd hfailed (hk error)
  | _ => rfl

namespace Outline

variable {o o' : Outline} {kind : MoveKind}

/-- A session that has announced nothing. -/
def Silent (o : Outline) : Prop := ∀ event ∈ o.history, event.announces = false

/-- A session that takes no request on after it has announced that it goes away, and remembers to have announced it. -/
structure Calm (o : Outline) : Prop where
  quiet : Quiet o.history
  away : o.Silent ∨ o.goaway = true

theorem Move.goaway (h : Move kind o o') (hg : o.goaway = true) : o'.goaway = true := by
  cases h with
  | away => rfl
  | failed error =>
      rw [Outline.fail, if_pos hg]
      exact hg
  | _ => exact hg

theorem Move.quiet (h : Move kind o o') (hk : ¬ kind.TakesOn) (hq : Quiet o.history) : Quiet o'.history := by
  obtain ⟨events, heq, hadds⟩ := h.adds
  rw [heq]
  exact Quiet.append _ hq fun event hmem => (hadds event hmem).idle hk

theorem Move.silent (h : Move kind o o') (hk : ∀ error, kind ≠ .failed error)
    (hr : ∀ frame, kind = .received frame → frame.type ≠ .goaway) (hs : o.Silent) : o'.Silent := by
  obtain ⟨events, heq, hadds⟩ := h.adds
  intro event hmem
  rw [heq, List.mem_append] at hmem
  cases hmem with
  | inl hnew => exact (hadds event hnew).silent hk hr
  | inr hold => exact hs event hold

/-- The first announcement of a session may be its last event. -/
theorem Silent.fail (hs : o.Silent) (error : Http2Error) : Calm (o.fail error) := by
  have hfailed : ∀ event ∈ .failed error :: o.history, event.announces = false :=
    List.forall_mem_cons.mpr ⟨rfl, hs⟩
  unfold Outline.fail
  split
  · exact ⟨.of_silent hfailed, Or.inl hfailed⟩
  · exact ⟨Quiet.append [_] (.of_silent hfailed) (by simp [Event.takesOn]), Or.inr rfl⟩

end Outline

/-! ## Steps -/

namespace Http2Connection

variable {s : Http2Connection} {service : Service} {input : Input} {frame : Http2Frame}

/-- Whether the step takes no request on where the session goes away: the frame asks for no stream and begins no
message, and no handler makes a promise. -/
def Heeds (service : Service) (input : Input) (s : Http2Connection) : Prop :=
  s.goaway = true → ¬ s.PromisesIn service input ∧ ∀ frame, input = .frame frame → ¬ s.Opens frame ∧ ¬ s.Begins frame

/-- A step that heeds the announcement makes no move that takes a request on. -/
theorem Heeds.kinds (h : Heeds service input s) (hg : s.goaway = true) {kind : MoveKind}
    (hk : stepKinds (s.PromisesIn service input) s input kind) : ¬ kind.TakesOn := by
  obtain ⟨hpromises, hframe⟩ := h hg
  have hcall : ∀ {kind}, callKinds (s.PromisesIn service input) kind → ¬ kind.TakesOn := by
    rintro kind hk (henrols | rfl)
    · cases kind with
      | opened streamId => exact hk
      | promised => exact hpromises hk
      | _ => exact henrols
    · exact hpromises hk
  cases input with
  | frame frame =>
      obtain ⟨hopens, hbegins⟩ := hframe frame rfl
      rintro (henrols | rfl)
      · rcases hk with rfl | (hk | ⟨rfl, _⟩) | ⟨error, rfl⟩
        · exact henrols
        · cases kind with
          | opened streamId => exact hopens hk.2
          | promised => exact hpromises hk
          | _ => exact henrols
        · exact henrols
        · exact henrols
      · rcases hk with hk | (hk | ⟨hk, _⟩) | ⟨error, hk⟩
        · cases hk
        · exact hk.elim hpromises hbegins
        · cases hk
        · cases hk
  | oversized =>
      cases hk
      rintro (henrols | heq)
      · exact henrols
      · cases heq
  | written =>
      cases hk with
      | inl hk => exact hcall hk
      | inr hk =>
          obtain ⟨streamId, rfl⟩ := hk
          rintro (henrols | heq)
          · exact henrols
          · cases heq
  | work actions => exact hcall hk

/-- The handling of a frame of GOAWAY only marks the session. -/
theorem handleGoaway_spec (ht : frame.type = .goaway) :
    wp (handleFrame service frame) (fun _ t => t.outline = { s.outline with goaway := true })
      (fun _ t => t.outline = s.outline) s := by
  have hdata : ¬ frame.type = .data := by simp [ht]
  unfold handleFrame accountData dispatchFrame
  rw [if_neg hdata]
  simp only [wp_bind, wp_get, wp_refuseSome, wp_refuseIf, wp_pure, ht, wp_modify]
  split
  · trivial
  · split
    · trivial
    · split
      · trivial
      · rfl

theorem receive_goaway (ht : frame.type = .goaway) (hg : s.goaway = false) (hs : s.outline.Silent) :
    (receive service frame s).outline.Calm := by
  have hquiet : Quiet (.received frame :: s.history) := by
    refine List.pairwise_cons.mpr ⟨fun earlier hmem hannounces => ?_, Quiet.of_silent hs⟩
    cases (hs earlier hmem).symm.trans hannounces
  have hspec : wp (handleFrame service frame) _ _ (s.record (.received frame)) := handleGoaway_spec ht
  unfold wp at hspec
  unfold receive
  split at hspec
  case h_1 hrun =>
    rw [hrun]
    dsimp only
    rw [hspec]
    exact ⟨hquiet, Or.inr rfl⟩
  case h_2 error t hrun =>
    rw [hrun]
    dsimp only
    rw [fail_outline, hspec, Outline.fail, if_neg (by simp [outline, record, hg])]
    exact ⟨Quiet.append [_, _] hquiet (by simp [Event.takesOn]), Or.inr rfl⟩

theorem silent_step (hs : s.outline.Silent) (hr : ∀ frame, input = .frame frame → frame.type ≠ .goaway) :
    (step service input s).outline.Calm := by
  obtain ⟨t, hdoes, hstep⟩ := step_ends service input s
  have hsilent : t.outline.Silent := by
    refine Moves.keeps ?_ hdoes hs
    intro kind o o' hk hm ho
    refine hm.silent hk.2 ?_ ho
    rintro frame rfl
    cases input with
    | frame received =>
        rcases hk.1 with hk | (hk | hk) | ⟨error, hk⟩
        · cases hk
          exact hr _ rfl
        · cases hk
        · cases hk.1
        · cases hk
    | oversized => cases hk.1
    | written =>
        rcases hk.1 with hk | ⟨streamId, hk⟩
        · cases hk
        · cases hk
    | work actions => cases hk.1
  rcases hstep with hstep | ⟨error, hstep, _⟩
  · rw [hstep]
    exact ⟨.of_silent hsilent, Or.inl hsilent⟩
  · rw [hstep, fail_outline]
    exact hsilent.fail error

/-- A step that heeds the announcement keeps the session calm. -/
theorem calm_step (h : Heeds service input s) (hs : s.outline.Calm) : (step service input s).outline.Calm := by
  by_cases hg : s.goaway = true
  · have hkeeps := Moves.keeps (I := fun o => Quiet o.history ∧ o.goaway = true)
      (fun kind o o' hk hm ho => ⟨hm.quiet (h.kinds hg hk) ho.1, hm.goaway ho.2⟩)
      (@step_does s service input) ⟨hs.quiet, hg⟩
    exact ⟨hkeeps.1, Or.inr hkeeps.2⟩
  · have hsilent : s.outline.Silent := hs.away.resolve_right hg
    by_cases hr : ∀ frame, input = .frame frame → frame.type ≠ .goaway
    · exact silent_step hsilent hr
    · obtain ⟨frame, hr⟩ := Classical.not_forall.mp hr
      obtain ⟨rfl, ht⟩ := Classical.not_imp.mp hr
      have ht := not_not.mp ht
      unfold step
      split
      · exact hs
      · exact receive_goaway ht (by simpa using hg) hsilent

/-! ## Runs -/

theorem ids_step (h : Heeds service input s) (hg : s.goaway = true) :
    (step service input s).goaway = true ∧ (step service input s).outline.ids ⊆ s.outline.ids := by
  refine Moves.keeps (I := fun o => o.goaway = true ∧ o.ids ⊆ s.outline.ids) ?_ (@step_does s service input)
    ⟨hg, List.Subset.refl _⟩
  intro kind o o' hk hm ho
  have hidle := h.kinds hg hk
  exact ⟨hm.goaway ho.1, List.Subset.trans (hm.ids_subset fun henrols => hidle (Or.inl henrols)) ho.2⟩

theorem ids_run {inputs : List (Service × Input)} (h : Along Heeds inputs s) (hg : s.goaway = true) :
    (run inputs s).outline.ids ⊆ s.outline.ids := by
  have hkeeps := run_along (I := fun t => t.goaway = true ∧ t.outline.ids ⊆ s.outline.ids)
    (fun service input t ht hi => ⟨(ids_step ht hi.1).1, List.Subset.trans (ids_step ht hi.1).2 hi.2⟩) inputs h
    ⟨hg, List.Subset.refl _⟩
  exact hkeeps.2

theorem calm_start : start.outline.Calm := by
  have hsilent : start.outline.Silent := by
    unfold Outline.Silent
    decide
  exact ⟨.of_silent hsilent, Or.inl hsilent⟩

/-- In a run whose steps heed the announcement no request is taken on after it, and no stream enters the table. -/
theorem goaway_quiet {inputs : List (Service × Input)} (h : Along Heeds inputs start) :
    Quiet (run inputs start).history ∧
      ∀ earlier later, inputs = earlier ++ later →
        (∃ event ∈ (run earlier start).history, event.announces = true) →
          ∀ streamId, (run inputs start).findStream streamId ≠ none → (run earlier start).findStream streamId ≠ none := by
  have hcalm : ∀ {inputs}, Along Heeds inputs start → (run inputs start).outline.Calm := fun {inputs} h =>
    run_along (I := fun t => t.outline.Calm) (fun _ _ _ ht hi => calm_step ht hi) inputs h calm_start
  refine ⟨(hcalm h).quiet, ?_⟩
  rintro earlier later rfl ⟨event, hmem, hannounces⟩ streamId hfind
  obtain ⟨hearlier, hlater⟩ := along_append.mp h
  have hg : (run earlier start).goaway = true := by
    cases (hcalm hearlier).away with
    | inl hsilent => cases (hsilent event hmem).symm.trans hannounces
    | inr hg => exact hg
  rw [run_append] at hfind
  intro hnone
  have hids := ids_run hlater hg
  exact hfind (findStream_eq_none.mpr fun hmem => findStream_eq_none.mp hnone (hids hmem))

/-! ## A session that goes on -/

/-- A service that answers nothing. -/
def mutedService : Service where
  description := bytes "viriatum"
  handle := fun _ _ => []

/-- The session after a first request, which is left unanswered. -/
theorem request_told :
    (step mutedService (.frame (rootRequest 1 http2FlagEndStream [])) start).goaway = false ∧
    ((step mutedService (.frame (rootRequest 1 http2FlagEndStream [])) start).findStream 1 = some 0 ∧
      ((step mutedService (.frame (rootRequest 1 http2FlagEndStream [])) start).stream 0).sendWindow ≤
        (http2MaxWindowSize : Int) - 1) ∧
    (step mutedService (.frame (rootRequest 1 http2FlagEndStream [])) start).streams.map Http2Stream.streamId = [1] ∧
    (step mutedService (.frame (rootRequest 1 http2FlagEndStream [])) start).connectionClosed = false ∧
    (step mutedService (.frame (rootRequest 1 http2FlagEndStream [])) start).continuation = 0 ∧
    (step mutedService (.frame (rootRequest 1 http2FlagEndStream [])) start).settings = .create ∧
    (step mutedService (.frame (rootRequest 1 http2FlagEndStream [])) start).remote.enablePush = true ∧
    (step mutedService (.frame (rootRequest 1 http2FlagEndStream [])) start).remote.maxConcurrentStreams =
      http2MaxConcurrent ∧
    (step mutedService (.frame (rootRequest 1 http2FlagEndStream [])) start).pushStreamId = 0 := by
  decide +kernel

/-- A request that is followed by GOAWAY and by a ping. -/
def leavingRun : List (Service × Input) :=
  [(mutedService, .frame (rootRequest 1 http2FlagEndStream [])),
    (mutedService, .frame { type := .goaway, flags := 0x00, streamId := 0, payload := List.replicate 8 0 }),
    (mutedService, .frame { type := .ping, flags := 0x00, streamId := 0, payload := List.replicate 8 0 })]

theorem not_promisesIn_muted (frame : Http2Frame) (s : Http2Connection) :
    ¬ s.PromisesIn mutedService (.frame frame) := by
  rintro (⟨t, callback, _, h⟩ | ⟨actions, h, _⟩)
  · exact h
  · cases h

theorem goaway_quiet_leaving : Quiet (run leavingRun start).history := by
  refine (goaway_quiet ?_).1
  refine ⟨fun hg => ?_, fun hg => ?_, fun _ => ?_, trivial⟩
  · cases hg
  · exact absurd (request_told.1.symm.trans hg) Bool.false_ne_true
  · refine ⟨not_promisesIn_muted _ _, fun frame hframe => ?_⟩
    cases hframe
    constructor
    · intro hopens
      cases hopens.1.2.1
    · intro hbegins
      cases hbegins with
      | inl hheaders => cases hheaders.2.1
      | inr hcontinuation => cases hcontinuation.2.1

/-- A frame of data on a stream that is idle, and a request once GOAWAY has been written. -/
def resumedRun : List (Service × Input) :=
  [(mutedService, .frame { type := .data, flags := 0x00, streamId := 1, payload := [] }),
    (mutedService, .frame (rootRequest 1 http2FlagEndStream []))]

theorem goaway_not_quiet : ¬ Quiet (run resumedRun start).history := by decide +kernel

end Http2Connection

end Viriatum
