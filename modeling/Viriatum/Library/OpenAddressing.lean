import Mathlib.Data.List.ReduceOption
import Mathlib.Data.List.Perm.Basic

/-!
# Tables with open addressing

A table is a row of places, each with an item or free. An item goes to the first free place behind the one of its hash,
around the end of the table; what is looked for is looked for past the places that are free.
-/

namespace Viriatum.Library

variable {α : Type}

/-- The places of a table in the order that they are looked at in. -/
def probeOrder (start length : Nat) : List Nat := (List.range length).map fun offset => (start + offset) % length

/-- The first place that passes a test, from a given one on. -/
def probe (test : Option α → Bool) (slots : List (Option α)) (start : Nat) : Option Nat :=
  (probeOrder start slots.length).find? fun place => (slots[place]?).any test

/-- Puts an item into the first free place; there is none in a full table. -/
def place (hash : α → Nat) (slots : List (Option α)) (item : α) : Option (List (Option α)) :=
  (probe Option.isNone slots (hash item % slots.length)).map fun index => slots.set index (some item)

/-- A fresh table of a given length with the items, which are put into it one by one. -/
def rehash (hash : α → Nat) (length : Nat) (items : List α) : Option (List (Option α)) :=
  items.foldlM (place hash) (List.replicate length none)

theorem mem_probeOrder {start length index : Nat} (h : index < length) : index ∈ probeOrder start length := by
  rw [probeOrder, List.mem_map]
  refine ⟨(index + (length - start % length)) % length, List.mem_range.mpr (Nat.mod_lt _ (by omega)), ?_⟩
  have hstart : start % length < length := Nat.mod_lt _ (by omega)
  have hsum : index + (length - start % length) + start % length = index + length := by omega
  calc (start + (index + (length - start % length)) % length) % length
      = (start % length + (index + (length - start % length))) % length := by
        rw [Nat.add_mod_mod, Nat.mod_add_mod]
    _ = index := by rw [Nat.add_comm, hsum, Nat.add_mod_right, Nat.mod_eq_of_lt h]

theorem probe_some {test : Option α → Bool} {slots : List (Option α)} {start index : Nat}
    (h : probe test slots start = some index) : ∃ slot, slots[index]? = some slot ∧ test slot = true := by
  have htest := List.find?_some h
  cases hslot : slots[index]? with
  | none => simp [hslot] at htest
  | some slot => exact ⟨slot, rfl, by simpa [hslot] using htest⟩

/-- What is in the table is found, wherever the search starts. -/
theorem exists_probe {test : Option α → Bool} {slots : List (Option α)} {slot : Option α} (hmem : slot ∈ slots)
    (htest : test slot = true) (start : Nat) : ∃ index, probe test slots start = some index := by
  obtain ⟨index, hindex, rfl⟩ := List.mem_iff_getElem.mp hmem
  rw [← Option.isSome_iff_exists, probe, List.find?_isSome]
  exact ⟨index, mem_probeOrder hindex, by simpa [hindex] using htest⟩

section Entries

variable {slots : List (Option α)} {index : Nat}

theorem reduceOption_split {slot : Option α} (h : slots[index]? = some slot) (slot' : Option α) :
    (slots.set index slot').reduceOption =
      (slots.take index).reduceOption ++ slot'.toList ++ (slots.drop (index + 1)).reduceOption := by
  have hindex : index < slots.length := (List.getElem?_eq_some_iff.mp h).1
  rw [List.set_eq_take_append_cons_drop, if_pos hindex, List.reduceOption_append, List.append_assoc]
  cases slot' with
  | none => simp
  | some item => simp

theorem reduceOption_place (h : slots[index]? = some none) (item : α) :
    (slots.set index (some item)).reduceOption.Perm (item :: slots.reduceOption) := by
  have hbefore := reduceOption_split h none
  have hindex : index < slots.length := (List.getElem?_eq_some_iff.mp h).1
  have hsame : slots.set index none = slots := by
    rw [List.getElem?_eq_getElem hindex, Option.some.injEq] at h
    rw [← h, List.set_getElem_self]
  rw [hsame] at hbefore
  rw [reduceOption_split h, hbefore]
  simp

theorem reduceOption_clear {item : α} (h : slots[index]? = some (some item)) :
    slots.reduceOption.Perm (item :: (slots.set index none).reduceOption) := by
  have hbefore := reduceOption_split h (some item)
  have hindex : index < slots.length := (List.getElem?_eq_some_iff.mp h).1
  have hsame : slots.set index (some item) = slots := by
    rw [List.getElem?_eq_getElem hindex, Option.some.injEq] at h
    rw [← h, List.set_getElem_self]
  rw [hsame] at hbefore
  rw [reduceOption_split h, hbefore]
  simp

theorem exists_none (h : slots.reduceOption.length < slots.length) : none ∈ slots := by
  by_contra hnone
  have hall : ∀ slot ∈ slots, slot.isSome = true := by
    intro slot hmem
    cases slot with
    | none => exact absurd hmem hnone
    | some item => rfl
  have := List.reduceOption_length_eq_iff.mpr hall
  omega

end Entries

variable (hash : α → Nat)

/-- An item finds its place as long as the table is not full. -/
theorem place_spec {slots : List (Option α)} (h : slots.reduceOption.length < slots.length) (item : α) :
    ∃ slots', place hash slots item = some slots' ∧ slots'.length = slots.length ∧
      slots'.reduceOption.Perm (item :: slots.reduceOption) := by
  obtain ⟨index, hindex⟩ := exists_probe (exists_none h) (Option.isNone_none) (hash item % slots.length)
  obtain ⟨slot, hslot, hfree⟩ := probe_some hindex
  rw [Option.isNone_iff_eq_none.mp hfree] at hslot
  exact ⟨slots.set index (some item), by rw [place, hindex, Option.map_some], List.length_set,
    reduceOption_place hslot item⟩

theorem placeAll_spec {items : List α} {slots : List (Option α)}
    (h : slots.reduceOption.length + items.length ≤ slots.length) :
    ∃ slots', items.foldlM (place hash) slots = some slots' ∧ slots'.length = slots.length ∧
      slots'.reduceOption.Perm (items ++ slots.reduceOption) := by
  induction items generalizing slots with
  | nil => exact ⟨slots, rfl, rfl, List.Perm.refl _⟩
  | cons item items ih =>
      rw [List.length_cons] at h
      obtain ⟨slots', hplace, hlength, hperm⟩ := place_spec hash (show _ < slots.length by omega) item
      have hcount : slots'.reduceOption.length = slots.reduceOption.length + 1 := by
        rw [hperm.length_eq, List.length_cons]
      have hroom : slots'.reduceOption.length + items.length ≤ slots'.length := by omega
      obtain ⟨slots'', hrest, hlength', hperm'⟩ := ih hroom
      refine ⟨slots'', ?_, hlength'.trans hlength, ?_⟩
      · simp [hplace, hrest]
      · calc slots''.reduceOption.Perm (items ++ slots'.reduceOption) := hperm'
          _ |>.Perm (items ++ item :: slots.reduceOption) := hperm.append_left items
          _ |>.Perm (item :: items ++ slots.reduceOption) := List.perm_middle

/-- A table that is long enough takes all the items. -/
theorem rehash_spec {items : List α} {length : Nat} (h : items.length ≤ length) :
    ∃ slots, rehash hash length items = some slots ∧ slots.length = length ∧ slots.reduceOption.Perm items := by
  have hnone : (List.replicate length (none : Option α)).reduceOption = [] := by
    simp [List.reduceOption]
  have hroom : (List.replicate length (none : Option α)).reduceOption.length + items.length ≤
      (List.replicate length (none : Option α)).length := by simpa [hnone] using h
  obtain ⟨slots, hslots, hlength, hperm⟩ := placeAll_spec hash hroom
  refine ⟨slots, hslots, by simpa using hlength, ?_⟩
  simpa [hnone] using hperm

end Viriatum.Library
