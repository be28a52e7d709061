import Mathlib.Data.List.Induction

/-!
# Runs that meet a condition at every step

A machine takes one input after another. What it is to have kept after every input is told apart from the condition
that each input is to meet in the state it arrives in.
-/

namespace Viriatum.Library

variable {σ ι : Type} (step : σ → ι → σ)

/-- Every input of a run meets a condition in the state that it arrives in. -/
def Throughout (condition : σ → ι → Prop) : σ → List ι → Prop
  | _, [] => True
  | s, input :: inputs => condition s input ∧ Throughout condition (step s input) inputs

variable {step} {condition condition' : σ → ι → Prop} {s : σ}

theorem throughout_append {inputs later : List ι} :
    Throughout step condition s (inputs ++ later) ↔
      Throughout step condition s inputs ∧ Throughout step condition (inputs.foldl step s) later := by
  induction inputs generalizing s with
  | nil => simp [Throughout]
  | cons input inputs ih => simp [Throughout, ih, and_assoc]

/-- What every input that meets the condition keeps, a run that meets it throughout keeps. -/
theorem Throughout.keeps {I : List ι → σ → Prop}
    (hkeeps : ∀ past s input, I past s → condition s input → I (past ++ [input]) (step s input)) {past inputs : List ι}
    (h : Throughout step condition s inputs) (hs : I past s) : I (past ++ inputs) (inputs.foldl step s) := by
  induction inputs generalizing s past with
  | nil => simpa using hs
  | cons input inputs ih => simpa using ih h.2 (hkeeps past s input hs h.1)

/-- What every input that meets the condition keeps, whatever came before it. -/
theorem Throughout.invariant {I : σ → Prop} (hkeeps : ∀ s input, I s → condition s input → I (step s input))
    {inputs : List ι} (h : Throughout step condition s inputs) (hs : I s) : I (inputs.foldl step s) := by
  induction inputs generalizing s with
  | nil => exact hs
  | cons input inputs ih => exact ih h.2 (hkeeps s input hs h.1)

/-- What holds after every part of a run exactly when the inputs of it meet a condition: an invariant is kept by the
inputs that meet the condition, and nothing but such an input leads from it to what is to hold. -/
theorem always_iff_throughout {I P : List ι → σ → Prop}
    (hkeeps : ∀ past s input, I past s → condition s input → I (past ++ [input]) (step s input))
    (hP : ∀ past s, I past s → P past s)
    (hneeds : ∀ past s input, I past s → P (past ++ [input]) (step s input) → condition s input) (inputs : List ι)
    (hs : I [] s) :
    (∀ earlier, earlier <+: inputs → P earlier (earlier.foldl step s)) ↔ Throughout step condition s inputs := by
  constructor
  · intro h
    induction inputs using List.reverseRecOn with
    | nil => trivial
    | append_singleton inputs input ih =>
        have hbefore : Throughout step condition s inputs :=
          ih fun earlier hpart => h earlier (hpart.trans (List.prefix_append inputs [input]))
        have hI : I inputs (inputs.foldl step s) := by simpa using hbefore.keeps hkeeps hs
        have hafter : P (inputs ++ [input]) (step (inputs.foldl step s) input) := by
          simpa using h (inputs ++ [input]) (List.prefix_refl _)
        exact throughout_append.mpr ⟨hbefore, hneeds inputs _ input hI hafter, trivial⟩
  · rintro h earlier ⟨later, rfl⟩
    have hearlier : Throughout step condition s earlier := (throughout_append.mp h).1
    exact hP earlier _ (by simpa using hearlier.keeps hkeeps hs)

/-! ## Machines that may halt -/

section Halting

variable {move : ι → σ → Option σ} {condition : ι → σ → Prop} {s s' : σ}

/-- Every step of a run, as far as it goes, meets a condition on its input and on the state that it is taken from. -/
def Meets (move : ι → σ → Option σ) (condition : ι → σ → Prop) : List ι → σ → Prop
  | [], _ => True
  | input :: inputs, s => ∀ s', move input s = some s' → condition input s ∧ Meets move condition inputs s'

instance decidableMeets [∀ input s, Decidable (condition input s)] :
    ∀ inputs s, Decidable (Meets move condition inputs s)
  | [], _ => .isTrue trivial
  | input :: inputs, s =>
      match h : move input s with
      | none => .isTrue fun s' h' => by simp [h] at h'
      | some s' =>
          have : Decidable (Meets move condition inputs s') := decidableMeets inputs s'
          decidable_of_iff (condition input s ∧ Meets move condition inputs s') (by simp [Meets, h])

/-- What every step that meets the condition keeps, a run that comes to an end has kept. -/
theorem Meets.keeps {I : σ → Prop}
    (hkeeps : ∀ input s s', I s → condition input s → move input s = some s' → I s') {inputs : List ι}
    (h : Meets move condition inputs s) (hrun : inputs.foldlM (fun s input => move input s) s = some s') (hs : I s) :
    I s' := by
  induction inputs generalizing s with
  | nil =>
      cases hrun
      exact hs
  | cons input inputs ih =>
      obtain ⟨t, hfirst, hrest⟩ := Option.bind_eq_some_iff.mp hrun
      obtain ⟨hcondition, h⟩ := h t hfirst
      exact ih h hrest (hkeeps input s t hs hcondition hfirst)

end Halting

end Viriatum.Library
