import Mathlib.Logic.Relation

/-!
# Moves of a kind

A machine moves between its states, each move being of a kind. What a run may do is told by the kinds that are
allowed to it.
-/

namespace Viriatum.Library

variable {κ σ : Type} (move : κ → σ → σ → Prop)

/-- Any number of moves, all of them of the kinds allowed. -/
def Moves (allowed : κ → Prop) : σ → σ → Prop :=
  Relation.ReflTransGen fun s s' => ∃ kind, allowed kind ∧ move kind s s'

namespace Moves

variable {move} {allowed allowed' : κ → Prop} {s s' s'' : σ}

@[refl] theorem refl (s : σ) : Moves move allowed s s := Relation.ReflTransGen.refl

theorem of_eq (h : s' = s) : Moves move allowed s s' := by
  rw [h]

theorem trans (h : Moves move allowed s s') (h' : Moves move allowed s' s'') : Moves move allowed s s'' :=
  Relation.ReflTransGen.trans h h'

theorem single {kind : κ} (h : move kind s s') (hk : allowed kind) : Moves move allowed s s' :=
  Relation.ReflTransGen.single ⟨kind, hk, h⟩

theorem tail {kind : κ} (h : Moves move allowed s s') (h' : move kind s' s'') (hk : allowed kind) :
    Moves move allowed s s'' :=
  h.trans (single h' hk)

theorem mono (hsub : ∀ kind, allowed kind → allowed' kind) (h : Moves move allowed s s') :
    Moves move allowed' s s' :=
  Relation.ReflTransGen.mono (fun _ _ ⟨kind, hk, hm⟩ => ⟨kind, hsub kind hk, hm⟩) _ _ h

/-- What every move of the kinds allowed keeps, the moves together keep. -/
theorem keeps {I : σ → Prop} (hmove : ∀ kind s s', allowed kind → move kind s s' → I s → I s')
    (h : Moves move allowed s s') (hs : I s) : I s' := by
  induction h with
  | refl => exact hs
  | tail _ hstep ih =>
      obtain ⟨kind, hk, hm⟩ := hstep
      exact hmove kind _ _ hk hm ih

/-- A relation that every move of the kinds allowed is part of, and that composes, holds between the ends. -/
theorem lift {R : σ → σ → Prop} (hrefl : ∀ s, R s s) (htrans : ∀ s s' s'', R s s' → R s' s'' → R s s'')
    (hmove : ∀ kind s s', allowed kind → move kind s s' → R s s') (h : Moves move allowed s s') : R s s' := by
  induction h with
  | refl => exact hrefl _
  | tail _ hstep ih =>
      obtain ⟨kind, hk, hm⟩ := hstep
      exact htrans _ _ _ ih (hmove kind _ _ hk hm)

end Moves

end Viriatum.Library
