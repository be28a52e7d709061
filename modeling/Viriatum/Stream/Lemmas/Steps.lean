import Viriatum.Stream.Lemmas.Frames

/-!
# Steps seen from the outline

The steps of a session make moves of the kinds that the step and the session before it allow, and so do the runs.
-/

namespace Viriatum

open Library Effect

namespace Http2Connection

variable {promises : Prop} {s : Http2Connection} {service : Service} {frame : Http2Frame} {input : Input}

theorem fail_outline (error : Http2Error) (s : Http2Connection) : (fail error s).outline = s.outline.fail error := by
  unfold fail writeGoaway Outline.fail
  by_cases h : s.goaway
  · have ho : s.outline.goaway = true := h
    rw [if_pos ho]
    simp only [record, h, if_true, outline, Outline.record]
  · have ho : ¬ s.outline.goaway = true := h
    rw [if_neg ho]
    simp only [record, h]
    rfl

/-- A frame is handled, or the moves made before the error are followed by the failure of the session. -/
theorem receive_does (frame : Http2Frame)
    (hpromises : ∀ s' callback, s'.goaway = s.goaway → service.Promises s' callback → promises) :
    Does (frameKinds promises s frame) (s.record (.received frame)) (receive service frame s) ∨
      ∃ error t, Does (failureKinds promises s frame) (s.record (.received frame)) t ∧
        receive service frame s = fail error t := by
  have hframe : wp (handleFrame service frame) _ _ (s.record (.received frame)) :=
    handleFrame_does hpromises
  unfold wp at hframe
  unfold receive
  split at hframe
  case h_1 hrun =>
    rw [hrun]
    exact Or.inl hframe
  case h_2 hrun =>
    rw [hrun]
    exact Or.inr ⟨_, _, hframe, rfl⟩

theorem resumeStream_does {slot : Nat} {tag : Option Nat} (hslot : slot < s.count)
    (hpromises : ∀ s' callback, s'.goaway = s.goaway → service.Promises s' callback → promises) :
    Does (fun kind => callKinds promises kind ∨ ∃ streamId, kind = .closed streamId) s
      (resumeStream service slot tag s) := by
  have hcall : Does (callKinds promises) s (resumeHandler service tag (s.activate slot)) := by
    cases tag with
    | none => exact .of_eq outline_activate
    | some tag => exact (Does.of_eq outline_activate).trans (call_does (s := s.activate slot) rfl hpromises (by simp))
  unfold resumeStream
  dsimp only
  generalize resumeHandler service tag (s.activate slot) = t at hcall ⊢
  have hset : Does (callKinds promises) s (t.modifyStream slot fun stream => { stream with handler := t.handler }) :=
    hcall.trans (.of_eq (outline_modifyStream rfl))
  have hlt := (hset.stays hslot).1
  generalize (t.modifyStream slot fun stream => { stream with handler := t.handler }) = u at hset hlt ⊢
  refine (hset.mono fun _ => Or.inl).trans ?_
  unfold closeServed
  split
  · exact closeStream_does hlt (Or.inl trivial) (Or.inr ⟨_, rfl⟩)
  · rfl

theorem complete_does (hpromises : ∀ s' callback, s'.goaway = s.goaway → service.Promises s' callback → promises) :
    Does (fun kind => callKinds promises kind ∨ ∃ streamId, kind = .closed streamId) s (complete service s) := by
  unfold complete
  split
  case h_1 => rfl
  case h_2 write queue _ =>
    have hdrained : ({ s with writeQueue := queue } : Http2Connection).outline = s.outline := rfl
    have hpromises' : ∀ s' callback, s'.goaway = ({ s with writeQueue := queue } : Http2Connection).goaway →
        service.Promises s' callback → promises := hpromises
    generalize ({ s with writeQueue := queue } : Http2Connection) = t at *
    refine (Does.of_eq hdrained).trans ?_
    unfold resume
    split
    case h_1 => rfl
    case h_2 => exact .of_eq rfl
    case h_3 =>
      split
      case h_1 => rfl
      case h_2 slot hfind => exact resumeStream_does (findStream_some hfind).1 hpromises'
    case h_4 => exact (call_does rfl hpromises' (by simp)).mono fun _ => Or.inl

theorem not_failed_of_callKinds {kind : MoveKind} (h : callKinds promises kind) : ∀ error, kind ≠ .failed error := by
  rintro error rfl
  exact h

/-- The moves of a step without an error are no failures. -/
theorem soundKinds_stepKinds {kind : MoveKind} (h : soundKinds promises s input kind) :
    stepKinds promises s input kind ∧ ∀ error, kind ≠ .failed error := by
  cases input with
  | frame frame =>
      cases h with
      | inl h => exact ⟨Or.inl h, by simp [h]⟩
      | inr h =>
          refine ⟨Or.inr (Or.inl (Or.inl h)), ?_⟩
          rintro error rfl
          exact h
  | oversized => cases h
  | written =>
      refine ⟨h, ?_⟩
      cases h with
      | inl h => exact not_failed_of_callKinds h
      | inr h =>
          obtain ⟨streamId, rfl⟩ := h
          simp
  | work actions => exact ⟨h, not_failed_of_callKinds h⟩

/-- A step meets no error, or it fails after moves that are no failures. -/
theorem step_cases (service : Service) (input : Input) (s : Http2Connection) :
    Does (soundKinds (s.PromisesIn service input) s input) s (step service input s) ∨
      ∃ t error, Does (fun kind => stepKinds (s.PromisesIn service input) s input kind ∧ ∀ error, kind ≠ .failed error) s t ∧
        step service input s = fail error t ∧ stepKinds (s.PromisesIn service input) s input (.failed error) := by
  have hpromises : ∀ s' callback, s'.goaway = s.goaway → service.Promises s' callback → s.PromisesIn service input :=
    fun s' callback hg h => Or.inl ⟨s', callback, hg, h⟩
  unfold step
  split
  · exact Or.inl (.refl s)
  · cases input with
    | frame frame =>
        cases receive_does frame hpromises with
        | inl h =>
            have hreceived : Does (soundKinds (s.PromisesIn service (.frame frame)) s (.frame frame)) s
                (s.record (.received frame)) := Does.single (.received frame) (Or.inl rfl)
            exact Or.inl (hreceived.trans (h.mono fun _ hk => Or.inr hk))
        | inr h =>
            obtain ⟨error, t, hdoes, heq⟩ := h
            have hreceived : Does (fun kind => stepKinds (s.PromisesIn service (.frame frame)) s (.frame frame) kind ∧
                ∀ error, kind ≠ .failed error) s (s.record (.received frame)) :=
              Does.single (.received frame) ⟨Or.inl rfl, by simp⟩
            refine Or.inr ⟨t, error, hreceived.trans ?_, heq, Or.inr (Or.inr ⟨error, rfl⟩)⟩
            refine hdoes.mono fun kind hk => ⟨Or.inr (Or.inl hk), ?_⟩
            rintro error rfl
            cases hk with
            | inl hframe => exact hframe
            | inr hspoiled => cases hspoiled.1
    | oversized => exact Or.inr ⟨s, _, .refl s, rfl, rfl⟩
    | written => exact Or.inl (complete_does hpromises)
    | work actions =>
        refine Or.inl (performAll_does (fun h => Or.inr ⟨actions, rfl, h⟩) ?_ rfl)
        intro _ callback t ht
        have hcalled : Does (callKinds True) t (t.record (.called callback)) := record_call trivial trivial
        exact hcalled.trans (callWithin_does ht fun _ _ _ _ => trivial)

/-- A step makes moves that are no failures, and may then fail. -/
theorem step_ends (service : Service) (input : Input) (s : Http2Connection) : ∃ t,
    Does (fun kind => stepKinds (s.PromisesIn service input) s input kind ∧ ∀ error, kind ≠ .failed error) s t ∧
      (step service input s = t ∨ ∃ error, step service input s = fail error t ∧
        stepKinds (s.PromisesIn service input) s input (.failed error)) := by
  rcases step_cases service input s with h | ⟨t, error, h, heq, hk⟩
  · exact ⟨_, h.mono fun _ => soundKinds_stepKinds, Or.inl rfl⟩
  · exact ⟨t, h, Or.inr ⟨error, heq, hk⟩⟩

theorem failed_mem_fail (error : Http2Error) (s : Http2Connection) : .failed error ∈ (fail error s).history := by
  have hfail : (fail error s).history = (s.outline.fail error).history := congrArg Outline.history (fail_outline error s)
  rw [hfail, Outline.fail]
  split <;> simp [Outline.record]

/-- A step that records no error meets none. -/
theorem step_sound (h : ∀ error, .failed error ∉ (step service input s).history) :
    Does (soundKinds (s.PromisesIn service input) s input) s (step service input s) := by
  rcases step_cases service input s with hsound | ⟨t, error, _, heq, _⟩
  · exact hsound
  · exact absurd (heq ▸ failed_mem_fail error t) (h error)

theorem step_does : Does (stepKinds (s.PromisesIn service input) s input) s (step service input s) := by
  obtain ⟨t, hdoes, hstep⟩ := step_ends service input s
  refine (hdoes.mono fun _ => And.left).trans ?_
  rcases hstep with hstep | ⟨error, hstep, hkind⟩
  · exact .of_eq (congrArg _ hstep)
  · rw [hstep]
    exact (Moves.single (.failed error) hkind).trans (Moves.of_eq (fail_outline error t))

theorem run_append (earlier later : List (Service × Input)) (s : Http2Connection) :
    run (earlier ++ later) s = run later (run earlier s) := List.foldl_append

theorem along_append {condition : Service → Input → Http2Connection → Prop} {earlier later : List (Service × Input)} :
    Along condition (earlier ++ later) s ↔ Along condition earlier s ∧ Along condition later (run earlier s) := by
  induction earlier generalizing s with
  | nil => simp [Along, run]
  | cons input earlier ih => simp only [List.cons_append, Along, ih, and_assoc, run, List.foldl_cons]

/-- What every step that meets a condition keeps, a run of such steps keeps. -/
theorem run_along {I : Http2Connection → Prop} {condition : Service → Input → Http2Connection → Prop}
    (hstep : ∀ service input s, condition service input s → I s → I (step service input s))
    (inputs : List (Service × Input)) (halong : Along condition inputs s) (h : I s) : I (run inputs s) := by
  induction inputs generalizing s with
  | nil => exact h
  | cons input inputs ih => exact ih halong.2 (hstep _ _ _ halong.1 h)

/-- What every move keeps, a run keeps. -/
theorem run_keeps {I : Outline → Prop} (hmove : ∀ kind o o', Outline.Move kind o o' → I o → I o')
    (inputs : List (Service × Input)) (h : I s.outline) : I (run inputs s).outline := by
  induction inputs generalizing s with
  | nil => exact h
  | cons input inputs ih =>
      refine ih (s := step input.1 input.2 s) ?_
      exact Moves.keeps (fun kind o o' _ hm ho => hmove kind o o' hm ho) step_does h

end Http2Connection

end Viriatum
