import Mathlib.Data.List.Basic

/-!
# Totals

What the places of a list come to under a measure, and what becomes of it when one place is given another content: many
parties each in a state, of which one moves.
-/

namespace Viriatum.Library

variable {α : Type}

/-- The sum of a measure over a list. -/
def total (measure : α → Nat) : List α → Nat
  | [] => 0
  | a :: l => measure a + total measure l

@[simp] theorem total_nil (measure : α → Nat) : total measure [] = 0 := rfl

@[simp] theorem total_cons (measure : α → Nat) (a : α) (l : List α) :
    total measure (a :: l) = measure a + total measure l := rfl

@[simp] theorem total_concat (measure : α → Nat) (l : List α) (a : α) :
    total measure (l ++ [a]) = total measure l + measure a := by
  induction l with
  | nil => simp
  | cons head l ih =>
      simp only [List.cons_append, total_cons, ih]
      omega

/-- What is put in a place adds its measure to the sum, and what was there takes its own away. -/
theorem total_set {l : List α} {i : Nat} {a : α} (h : l[i]? = some a) (b : α) (measure : α → Nat) :
    total measure (l.set i b) + measure a = total measure l + measure b := by
  induction l generalizing i with
  | nil => simp at h
  | cons head l ih =>
      cases i with
      | zero =>
          cases h
          simp only [List.set_cons_zero, total_cons]
          omega
      | succ i =>
          have hih := ih h
          simp only [List.set_cons_succ, total_cons]
          omega

theorem le_total {l : List α} {a : α} (h : a ∈ l) (measure : α → Nat) : measure a ≤ total measure l := by
  induction h with
  | head l => simp
  | tail head _ ih =>
      rw [total_cons]
      omega

theorem total_eq_zero {measure : α → Nat} {l : List α} : total measure l = 0 ↔ ∀ a ∈ l, measure a = 0 := by
  induction l with
  | nil => simp
  | cons head l ih => simp [ih]

theorem count_filterMap {β : Type} [DecidableEq β] {f : α → Option β} {measure : β → α → Nat}
    (h : ∀ b a, measure b a = if f a = some b then 1 else 0) (l : List α) (b : β) :
    (l.filterMap f).count b = total (measure b) l := by
  induction l with
  | nil => rfl
  | cons head l ih =>
      cases hhead : f head with
      | none => simpa [h, hhead] using ih
      | some c =>
          by_cases hc : c = b
          · simp only [List.filterMap_cons, hhead, hc, List.count_cons_self, total_cons, h b head, if_true, ih]
            omega
          · simpa [h, hhead, hc] using ih

end Viriatum.Library
