import Mathlib.Logic.Function.Basic

/-!
# Maps that lead back to one another

Two partial maps that associate the same elements, one from either side, and what keeps them so: an association that
replaces another one, and the end of an association.
-/

namespace Viriatum.Library

open Function (update)

variable {α β : Type} [DecidableEq α] [DecidableEq β] {f : α → Option β} {g : β → Option α} {a a' : α} {b : β}

/-- Each of the maps leads back along the other one. -/
def Paired (f : α → Option β) (g : β → Option α) : Prop := ∀ a b, f a = some b ↔ g b = some a

/-- A map without what it gives for an element that another one may have given. -/
def withdraw (g : β → Option α) : Option β → β → Option α
  | none => g
  | some b => update g b none

namespace Paired

omit [DecidableEq α] [DecidableEq β] in
theorem injective (h : Paired f g) (ha : f a = some b) (ha' : f a' = some b) : a = a' :=
  Option.some.inj (((h a b).mp ha).symm.trans ((h a' b).mp ha'))

theorem unpair (h : Paired f g) (hf : f a = some b) : Paired (update f a none) (update g b none) := by
  intro x y
  by_cases hx : x = a
  · subst hx
    by_cases hy : y = b
    · simp [hy]
    · have hg : g y ≠ some x := fun hg => hy (Option.some.inj (((h x y).mpr hg).symm.trans hf))
      simp [hy, hg]
  · by_cases hy : y = b
    · have hne : f x ≠ some b := fun hfx => hx (h.injective hfx hf)
      simp [hx, hy, hne]
    · simp [hx, hy, h x y]

/-- A new association takes the place of the one that the element had. -/
theorem pair (h : Paired f g) (hg : g b = none) :
    Paired (update f a (some b)) (update (withdraw g (f a)) b (some a)) := by
  have hnone : ∀ x, f x ≠ some b := fun x hx => by simp [(h x b).mp hx] at hg
  intro x y
  by_cases hy : y = b
  · subst hy
    by_cases hx : x = a
    · simp [hx]
    · simp [hx, Ne.symm hx, hnone x]
  · by_cases hx : x = a
    · subst hx
      have hleft : withdraw g (f x) y ≠ some x := by
        cases hfx : f x with
        | none => exact fun hgy => by simp [(h x y).mpr hgy] at hfx
        | some b' =>
            by_cases hb : y = b'
            · simp [withdraw, hb]
            · have hne : g y ≠ some x := fun hgy => hb (Option.some.inj (((h x y).mpr hgy).symm.trans hfx))
              simpa [withdraw, hb] using hne
      simp [hy, Ne.symm hy, hleft]
    · have hsame : withdraw g (f a) y = some x ↔ g y = some x := by
        cases hfa : f a with
        | none => rfl
        | some b' =>
            by_cases hb : y = b'
            · subst hb
              have hne : g y ≠ some x := fun hgy => hx (h.injective ((h x y).mpr hgy) hfa)
              simp [withdraw, hne]
            · simp [withdraw, hb]
      simp [hx, hy, h x y, hsame]

end Paired

end Viriatum.Library
