/-!
# Computations that write

A computation on a state that fails or writes, and a machine that keeps what is written in its own state and does the same.
-/

namespace Viriatum.Library

variable {γ σ ε α β : Type}

/-- A computation: the state behind it and what it has written. -/
abbrev Scribe (σ ε β : Type) := σ → Except ε (σ × List β)

namespace Scribe

def nothing : Scribe σ ε β := fun s => .ok (s, [])

def write (written : List β) : Scribe σ ε β := fun s => .ok (s, written)

def andThen (first second : Scribe σ ε β) : Scribe σ ε β := fun s => do
  let (s, before) ← first s
  let (s, behind) ← second s
  .ok (s, before ++ behind)

def each (body : α → Scribe σ ε β) : List α → Scribe σ ε β
  | [] => nothing
  | value :: values => andThen (body value) (each body values)

end Scribe

open Scribe

/-- A machine fails as the computation does, or leads to a related state and writes the same. -/
def WritesAs (related : γ → σ → Prop) (output : γ → List β) (machine : γ → Except ε γ) (scribe : Scribe σ ε β) : Prop :=
  ∀ c s, related c s → match scribe s with
    | .ok (s, written) => ∃ after, machine c = .ok after ∧ related after s ∧ output after = output c ++ written
    | .error e => machine c = .error e

variable {related : γ → σ → Prop} {output : γ → List β} {first second : γ → Except ε γ} {before behind : Scribe σ ε β}

theorem writesAs_nothing : WritesAs related output (.ok : γ → Except ε γ) nothing := fun c _ h => ⟨c, rfl, h, by simp⟩

theorem WritesAs.andThen (hfirst : WritesAs related output first before) (hsecond : WritesAs related output second behind) :
    WritesAs related output (fun c => do second (← first c)) (Scribe.andThen before behind) := by
  intro c s h
  have hbefore := hfirst c s h
  simp only [Scribe.andThen, bind, Except.bind]
  cases hresult : before s with
  | error e =>
      rw [hresult] at hbefore
      dsimp only at hbefore ⊢
      rw [hbefore]
  | ok result =>
      obtain ⟨s', written⟩ := result
      rw [hresult] at hbefore
      obtain ⟨middle, hmiddle, hrelated, hwritten⟩ := hbefore
      have hbehind := hsecond middle s' hrelated
      dsimp only
      cases hresult' : behind s' with
      | error e =>
          rw [hresult'] at hbehind
          dsimp only at hbehind ⊢
          rw [hmiddle]
          exact hbehind
      | ok result =>
          obtain ⟨s'', written'⟩ := result
          rw [hresult'] at hbehind
          obtain ⟨after, hafter, hrelated', hwritten'⟩ := hbehind
          dsimp only
          exact ⟨after, by rw [hmiddle]; exact hafter, hrelated', by rw [hwritten', hwritten, List.append_assoc]⟩

theorem writesAs_each {machine : γ → α → Except ε γ} {body : α → Scribe σ ε β} {values : List α}
    (h : ∀ value ∈ values, WritesAs related output (fun c => machine c value) (body value)) :
    WritesAs related output (fun c => values.foldlM machine c) (each body values) := by
  induction values with
  | nil => exact writesAs_nothing
  | cons value values ih =>
      have hrest := ih fun other hin => h other (List.mem_cons_of_mem _ hin)
      rw [each]
      simpa only [List.foldlM_cons] using (h value List.mem_cons_self).andThen hrest

end Viriatum.Library
