import Mathlib.Data.List.Basic

/-!
# Rings

A ring of a fixed number of places, of which the newest `count` entries are in use. The entries in use are the
ones of a list, the newest of them first; adding an entry puts it in front of the list and dropping the oldest
takes the last one off.
-/

namespace Viriatum.Library

structure Ring (α : Type) (n : Nat) where
  places : Vector α n
  /-- The place of the newest entry. -/
  head : Fin n
  count : Nat
deriving DecidableEq, Repr

namespace Ring

variable {α : Type} {n : Nat}

/-- The place of the entry that has `i` newer ones. -/
def place (r : Ring α n) (i : Nat) : Fin n := ⟨(r.head + n - i) % n, Nat.mod_lt _ (Nat.zero_lt_of_lt r.head.isLt)⟩

def nth (r : Ring α n) (i : Nat) : α := r.places[r.place i]

/-- The place that follows the newest entry. -/
def next (r : Ring α n) : Fin n := ⟨(r.head + 1) % n, Nat.mod_lt _ (Nat.zero_lt_of_lt r.head.isLt)⟩

def push (r : Ring α n) (a : α) : Ring α n :=
  { places := r.places.set r.next a r.next.isLt, head := r.next, count := r.count + 1 }

def dropOldest (r : Ring α n) : Ring α n := { r with count := r.count - 1 }

/-- The entries in use, the newest first. -/
def toList (r : Ring α n) : List α := (List.range r.count).map r.nth

@[simp] theorem length_toList (r : Ring α n) : r.toList.length = r.count := by
  simp [toList]

@[simp] theorem count_push (r : Ring α n) (a : α) : (r.push a).count = r.count + 1 := rfl

@[simp] theorem count_dropOldest (r : Ring α n) : r.dropOldest.count = r.count - 1 := rfl

theorem getElem?_toList {r : Ring α n} {i : Nat} (h : i < r.count) : r.toList[i]? = some (r.nth i) := by
  simp [toList, h]

theorem toList_dropOldest (r : Ring α n) : r.dropOldest.toList = r.toList.dropLast := by
  have hnth : r.dropOldest.nth = r.nth := rfl
  rw [toList, toList, hnth, count_dropOldest, ← List.map_dropLast]
  cases r.count with
  | zero => rfl
  | succ c => simp [List.range_succ]

private theorem back_from_next {n h i : Nat} (hh : h < n) (hi : i < n) :
    ((h + 1) % n + n - (i + 1)) % n = (h + n - i) % n := by
  rcases Nat.lt_or_ge (h + 1) n with hlt | hge
  · rw [Nat.mod_eq_of_lt hlt]
    congr 1
    omega
  · obtain rfl : n = h + 1 := by omega
    rw [Nat.mod_self, show 0 + (h + 1) - (i + 1) = h - i by omega,
      show h + (h + 1) - i = (h - i) + (h + 1) by omega, Nat.add_mod_right]

private theorem next_ne_back {n h i : Nat} (hh : h < n) (hi : i + 1 < n) : (h + 1) % n ≠ (h + n - i) % n := by
  intro he
  rcases Nat.lt_or_ge h i with hlt | hge
  · rw [Nat.mod_eq_of_lt (by omega), Nat.mod_eq_of_lt (by omega)] at he
    omega
  · rw [show h + n - i = (h - i) + n by omega, Nat.add_mod_right, Nat.mod_eq_of_lt (by omega : h - i < n)] at he
    rcases Nat.lt_or_ge (h + 1) n with hlt | hge
    · rw [Nat.mod_eq_of_lt hlt] at he
      omega
    · obtain rfl : n = h + 1 := by omega
      rw [Nat.mod_self] at he
      omega

theorem place_push_zero (r : Ring α n) (a : α) : (r.push a).place 0 = r.next := by
  ext
  simp [place, push, next]

theorem place_push_succ {r : Ring α n} {i : Nat} (a : α) (h : i < n) : (r.push a).place (i + 1) = r.place i :=
  Fin.ext (back_from_next r.head.isLt h)

theorem next_ne_place {r : Ring α n} {i : Nat} (h : i + 1 < n) : r.next ≠ r.place i :=
  fun he => next_ne_back r.head.isLt h (congrArg Fin.val he)

/-- Adding an entry to a ring with a place free puts it in front of the others. -/
theorem toList_push {r : Ring α n} (a : α) (hc : r.count < n) :
    (r.push a).toList = a :: r.toList := by
  have hzero : (r.push a).nth 0 = a := by
    simp only [nth, place_push_zero]
    simp [push]
  have hsucc : ∀ i ∈ List.range r.count, (r.push a).nth (i + 1) = r.nth i := by
    intro i hi
    have hi := List.mem_range.mp hi
    simp only [nth, place_push_succ a (by omega : i < n)]
    have hne := next_ne_place (r := r) (i := i) (by omega)
    simp only [push, Fin.getElem_fin]
    exact Vector.getElem_set_ne _ _ fun he => hne (Fin.ext he)
  rw [toList, count_push, List.range_succ_eq_map, List.map_cons, hzero, List.map_map, toList]
  congr 1
  exact List.map_congr_left hsucc

theorem place_injective {r : Ring α n} {i j : Nat} (hi : i < n) (hj : j < n) (h : r.place i = r.place j) : i = j := by
  have hh := r.head.isLt
  have he : (r.head + n - i) % n = (r.head + n - j) % n := congrArg Fin.val h
  have hwrap : ∀ k < n, (r.head + n - k) % n = if k ≤ r.head then r.head.val - k else r.head + n - k := by
    intro k hk
    split
    · rw [show r.head.val + n - k = r.head - k + n by omega, Nat.add_mod_right, Nat.mod_eq_of_lt (by omega)]
    · exact Nat.mod_eq_of_lt (by omega)
  rw [hwrap i hi, hwrap j hj] at he
  split at he <;> split at he <;> omega

/-- Takes the place of the oldest entry in use over while the entry is dropped. -/
def release (r : Ring α n) (a : α) : Ring α n :=
  { r with places := r.places.set (r.place (r.count - 1)) a (r.place (r.count - 1)).isLt, count := r.count - 1 }

theorem toList_release {r : Ring α n} (a : α) (hc : r.count ≤ n) : (r.release a).toList = r.toList.dropLast := by
  have hnth : ∀ i ∈ List.range (r.count - 1), (r.release a).nth i = r.nth i := by
    intro i hi
    have hi := List.mem_range.mp hi
    have hne : r.place (r.count - 1) ≠ r.place i := fun he => by
      have := place_injective (by omega) (by omega) he
      omega
    have hplace : (r.release a).place i = r.place i := rfl
    simp only [nth, hplace]
    simp only [release, Fin.getElem_fin]
    exact Vector.getElem_set_ne _ _ fun he => hne (Fin.ext he)
  have hlist : (r.release a).toList = (List.range (r.count - 1)).map (r.release a).nth := rfl
  rw [hlist, List.map_congr_left hnth, toList, ← List.map_dropLast]
  cases r.count with
  | zero => rfl
  | succ c => simp [List.range_succ]

end Ring

end Viriatum.Library
