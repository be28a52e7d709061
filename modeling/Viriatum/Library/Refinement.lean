import Mathlib.Logic.Basic

/-!
# Runs that emulate an abstract machine

A machine that may fail takes one input after another and answers each. It emulates an abstract machine, which never
fails, as far as the answers are the same and the states stay related.
-/

namespace Viriatum.Library

variable {σ τ ι ο : Type} (move : σ → ι → Option (σ × ο)) (act : τ → ι → τ × ο) (related : σ → τ → Prop)

/-- From related states on, every input of a run is answered as the abstract machine answers it, and the states that
the two machines are left in are related again. -/
def Emulates : σ → τ → List ι → Prop
  | s, t, [] => related s t
  | s, t, input :: inputs =>
      related s t ∧ ∃ s', move s input = some (s', (act t input).2) ∧ Emulates s' (act t input).1 inputs

/-- Every input of a run meets a condition in the state that it arrives in. -/
def Guarded (condition : σ → ι → Prop) : σ → List ι → Prop
  | _, [] => True
  | s, input :: inputs =>
      condition s input ∧ ∀ s' answer, move s input = some (s', answer) → Guarded condition s' inputs

variable {move act related}

theorem Emulates.start {s : σ} {t : τ} {inputs : List ι} (h : Emulates move act related s t inputs) : related s t := by
  cases inputs with
  | nil => exact h
  | cons input inputs => exact h.1

/-- Where a condition tells of every input whether it is emulated, it tells so of every run. -/
theorem emulates_iff_guarded {condition : σ → ι → Prop}
    (hstep : ∀ s t input, related s t →
      ((∃ s', move s input = some (s', (act t input).2) ∧ related s' (act t input).1) ↔ condition s input))
    {s : σ} {t : τ} (inputs : List ι) (h : related s t) :
    Emulates move act related s t inputs ↔ Guarded move condition s inputs := by
  induction inputs generalizing s t with
  | nil => exact iff_of_true h trivial
  | cons input inputs ih =>
      constructor
      · rintro ⟨_, s', hmove, hrest⟩
        refine ⟨(hstep s t input h).mp ⟨s', hmove, hrest.start⟩, ?_⟩
        intro s'' answer hmove'
        cases hmove.symm.trans hmove'
        exact (ih hrest.start).mp hrest
      · rintro ⟨hcondition, hrest⟩
        obtain ⟨s', hmove, h'⟩ := (hstep s t input h).mpr hcondition
        exact ⟨h, s', hmove, (ih h').mpr (hrest s' _ hmove)⟩

end Viriatum.Library
