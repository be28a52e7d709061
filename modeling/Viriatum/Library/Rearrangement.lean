import Mathlib.Data.List.Nodup
import Mathlib.Logic.Equiv.Basic

/-!
# Rearrangements

What has been moved about between two places of a sequence, and stays as it is elsewhere.
-/

namespace Viriatum.Library

variable {β : Type} {first last first' last' : Nat} {f g h : Nat → β}

/-- The items between two places are put in another order. -/
def Rearranges (first last : Nat) (f g : Nat → β) : Prop :=
  ∃ σ : Equiv.Perm Nat, (∀ i, ¬ (first ≤ i ∧ i < last) → σ i = i) ∧ g = f ∘ σ

namespace Rearranges

theorem refl (first last : Nat) (f : Nat → β) : Rearranges first last f f := ⟨.refl Nat, fun _ _ => rfl, rfl⟩

theorem trans (hfg : Rearranges first last f g) (hgh : Rearranges first last g h) : Rearranges first last f h := by
  obtain ⟨σ, hσ, rfl⟩ := hfg
  obtain ⟨τ, hτ, rfl⟩ := hgh
  refine ⟨τ.trans σ, fun i hi => ?_, rfl⟩
  rw [Equiv.trans_apply, hτ i hi, hσ i hi]

theorem mono (hfg : Rearranges first last f g) (hfirst : first' ≤ first) (hlast : last ≤ last') :
    Rearranges first' last' f g := by
  obtain ⟨σ, hσ, rfl⟩ := hfg
  exact ⟨σ, fun i hi => hσ i fun hin => hi ⟨Nat.le_trans hfirst hin.1, Nat.lt_of_lt_of_le hin.2 hlast⟩, rfl⟩

theorem swap {i j : Nat} (hi : first ≤ i ∧ i < last) (hj : first ≤ j ∧ j < last) :
    Rearranges first last f (f ∘ Equiv.swap i j) := by
  refine ⟨Equiv.swap i j, fun k hk => ?_, rfl⟩
  apply Equiv.swap_apply_of_ne_of_ne
  · rintro rfl
    exact hk hi
  · rintro rfl
    exact hk hj

theorem symm_fixes {σ : Equiv.Perm Nat} (hσ : ∀ i, ¬ (first ≤ i ∧ i < last) → σ i = i) (i : Nat)
    (hi : ¬ (first ≤ i ∧ i < last)) : σ.symm i = i := by
  rw [Equiv.symm_apply_eq, hσ i hi]

theorem symm (hfg : Rearranges first last f g) : Rearranges first last g f := by
  obtain ⟨σ, hσ, rfl⟩ := hfg
  refine ⟨σ.symm, symm_fixes hσ, ?_⟩
  funext i
  rw [Function.comp_apply, Function.comp_apply, Equiv.apply_symm_apply]

theorem eq_outside (hfg : Rearranges first last f g) {i : Nat} (hi : ¬ (first ≤ i ∧ i < last)) : g i = f i := by
  obtain ⟨σ, hσ, rfl⟩ := hfg
  rw [Function.comp_apply, hσ i hi]

theorem maps {σ : Equiv.Perm Nat} (hσ : ∀ i, ¬ (first ≤ i ∧ i < last) → σ i = i) {i : Nat} (hi : first ≤ i ∧ i < last) :
    first ≤ σ i ∧ σ i < last := by
  by_contra hout
  have hsame := σ.injective (hσ (σ i) hout)
  rw [hsame] at hout
  exact hout hi

/-- What is between the places has been there before. -/
theorem exists_eq (hfg : Rearranges first last f g) {i : Nat} (hi : first ≤ i ∧ i < last) :
    ∃ j, (first ≤ j ∧ j < last) ∧ g i = f j := by
  obtain ⟨σ, hσ, rfl⟩ := hfg
  exact ⟨σ i, maps hσ hi, rfl⟩

theorem perm (hfg : Rearranges first last f g) :
    ((List.range' first (last - first)).map g).Perm ((List.range' first (last - first)).map f) := by
  have hrange : ∀ i, i ∈ List.range' first (last - first) ↔ first ≤ i ∧ i < last := fun i => by
    rw [List.mem_range'_1]
    omega
  obtain ⟨σ, hσ, rfl⟩ := hfg
  rw [← List.map_map]
  apply List.Perm.map
  rw [List.perm_ext_iff_of_nodup (List.Nodup.map σ.injective List.nodup_range') List.nodup_range']
  intro i
  rw [List.mem_map, hrange]
  constructor
  · rintro ⟨j, hj, rfl⟩
    exact maps hσ ((hrange j).mp hj)
  · intro hi
    exact ⟨σ.symm i, (hrange _).mpr (maps (symm_fixes hσ) hi), σ.apply_symm_apply i⟩

end Rearranges

end Viriatum.Library
