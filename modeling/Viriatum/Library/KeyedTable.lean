import Viriatum.Library.OpenAddressing

/-!
# Tables with open addressing whose items have keys

An item is put in the place of the one of the same key, or in the first free place behind the one of its key. As long as
nothing is taken out, the search by its key finds it.
-/

namespace Viriatum.Library

variable {α : Type} {key : α → Nat} {slots : List (Option α)} {index : Nat} {item : α}

/-- The first place behind the one of a key that is free or has an item that passes a test. -/
def search (test : α → Bool) (slots : List (Option α)) (k : Nat) : Option Nat :=
  probe (fun slot => slot.all test) slots (k % slots.length)

/-- The first place behind the one of a key that is free or has an item of that key. -/
def searchKey (key : α → Nat) (slots : List (Option α)) (k : Nat) : Option Nat :=
  search (fun item => key item = k) slots k

/-- Every item is found by its key. -/
def Settled (key : α → Nat) (slots : List (Option α)) : Prop :=
  ∀ index item, slots[index]? = some (some item) → searchKey key slots (key item) = some index

theorem settled_replicate {length : Nat} : Settled key (List.replicate length none) := by
  intro index item h
  obtain ⟨_, hget⟩ := List.getElem?_eq_some_iff.mp h
  simp at hget

/-- No two items of the same key are found. -/
theorem Settled.unique (h : Settled key slots) {index' : Nat} {item' : α} (hitem : slots[index]? = some (some item))
    (hitem' : slots[index']? = some (some item')) (hkey : key item = key item') : index = index' ∧ item = item' := by
  have hindex : index = index' := by
    have hfirst := h index item hitem
    rw [hkey, h index' item' hitem'] at hfirst
    exact (Option.some.inj hfirst).symm
  rw [hindex, hitem'] at hitem
  exact ⟨hindex, (Option.some.inj (Option.some.inj hitem)).symm⟩

theorem search_some {test : α → Bool} {k : Nat} (h : search test slots k = some index) :
    index < slots.length ∧ ∀ item, slots[index]? = some (some item) → test item = true := by
  obtain ⟨slot, hslot, htest⟩ := probe_some h
  refine ⟨(List.getElem?_eq_some_iff.mp hslot).1, fun item hitem => ?_⟩
  rw [hslot, Option.some.injEq] at hitem
  rw [hitem] at htest
  exact htest

/-- The search ends in a table with a free place. -/
theorem exists_search (h : none ∈ slots) (test : α → Bool) (k : Nat) : ∃ index, search test slots k = some index :=
  exists_probe h rfl _

/-- What comes before the place that a search finds has items that do not pass. -/
theorem probe_eq_some_iff {test : Option α → Bool} {start : Nat} : probe test slots start = some index ↔
    (slots[index]?).any test = true ∧ ∃ before behind, probeOrder start slots.length = before ++ index :: behind ∧
      ∀ place ∈ before, (slots[place]?).any test = false := by
  rw [probe, List.find?_eq_some_iff_append]
  simp

/-- An item that a sharper test lets through is found by it where it is found by its key. -/
theorem search_of_searchKey (test : α → Bool) {k : Nat} (h : searchKey key slots k = some index)
    (hitem : slots[index]? = some (some item)) (htest : test item = true)
    (hsharper : ∀ item, test item = true → key item = k) : search test slots k = some index := by
  obtain ⟨_, before, behind, horder, hbefore⟩ := probe_eq_some_iff.mp h
  apply probe_eq_some_iff.mpr
  refine ⟨by simp [hitem, htest], before, behind, horder, fun place hplace => ?_⟩
  have hfails := hbefore place hplace
  cases hslot : slots[place]? with
  | none => rfl
  | some slot =>
      rw [hslot] at hfails
      cases slot with
      | none => cases hfails
      | some item' =>
          simp only [Option.any_some, Option.all_some, decide_eq_false_iff_not] at hfails ⊢
          exact Bool.eq_false_iff.mpr fun hpasses => hfails (hsharper item' hpasses)

/-- Putting an item where the search by its key leads keeps all the others where they are found. -/
theorem Settled.set (h : Settled key slots) (hsearch : searchKey key slots (key item) = some index) :
    Settled key (slots.set index (some item)) := by
  have hindex := (search_some hsearch).1
  have hold := (search_some hsearch).2
  -- no place on the way to an item of another key becomes one where the search for it stops
  have hway : ∀ {k : Nat} {place : Nat}, k ≠ key item → (slots[place]?).any (fun slot => slot.all fun x => key x = k) = false →
      ((slots.set index (some item))[place]?).any (fun slot => slot.all fun x => key x = k) = false := by
    intro k place hk hfails
    rcases eq_or_ne index place with rfl | hne
    · rw [List.getElem?_set_self hindex]
      simpa using hk.symm
    · rwa [List.getElem?_set_ne hne]
  intro place item' hitem'
  rcases eq_or_ne index place with rfl | hne
  · rw [List.getElem?_set_self hindex] at hitem'
    cases hitem'
    obtain ⟨_, before, behind, horder, hbefore⟩ := probe_eq_some_iff.mp hsearch
    apply probe_eq_some_iff.mpr
    rw [List.length_set]
    refine ⟨by simp [List.getElem?_set_self hindex], before, behind, horder, fun place hplace => ?_⟩
    have hother : index ≠ place := by
      rintro rfl
      have hfound := (probe_eq_some_iff.mp hsearch).1
      rw [hbefore index hplace] at hfound
      cases hfound
    rw [List.getElem?_set_ne hother]
    exact hbefore place hplace
  · rw [List.getElem?_set_ne hne] at hitem'
    have hfound := h place item' hitem'
    have hkey : key item' ≠ key item := fun heq => by
      rw [heq, hsearch, Option.some.injEq] at hfound
      exact hne hfound
    obtain ⟨_, before, behind, horder, hbefore⟩ := probe_eq_some_iff.mp hfound
    apply probe_eq_some_iff.mpr
    rw [List.length_set]
    refine ⟨by simp [List.getElem?_set_ne hne, hitem'], before, behind, horder, fun place' hplace' => ?_⟩
    exact hway hkey (hbefore place' hplace')

/-- What is in the table once an item has been put into it: the item, and the others of other keys. -/
theorem Settled.mem_set (h : Settled key slots) (hsearch : searchKey key slots (key item) = some index) {item' : α} :
    some item' ∈ slots.set index (some item) ↔ item' = item ∨ some item' ∈ slots ∧ key item' ≠ key item := by
  have hindex := (search_some hsearch).1
  rw [List.mem_iff_getElem?]
  constructor
  · rintro ⟨place, hplace⟩
    rcases eq_or_ne index place with rfl | hne
    · rw [List.getElem?_set_self hindex] at hplace
      cases hplace
      exact .inl rfl
    · rw [List.getElem?_set_ne hne] at hplace
      refine .inr ⟨List.mem_iff_getElem?.mpr ⟨place, hplace⟩, fun heq => ?_⟩
      have hfound := h place item' hplace
      rw [heq, hsearch, Option.some.injEq] at hfound
      exact hne hfound
  · rintro (rfl | ⟨hmem, hkey⟩)
    · exact ⟨index, List.getElem?_set_self hindex⟩
    · obtain ⟨place, hplace⟩ := List.mem_iff_getElem?.mp hmem
      have hne : index ≠ place := by
        rintro rfl
        have hsame := (search_some hsearch).2 item' hplace
        exact hkey (by simpa using hsame)
      exact ⟨place, by rwa [List.getElem?_set_ne hne]⟩

/-- An item of a new key takes one place more. -/
theorem length_set_new (hsearch : searchKey key slots (key item) = some index)
    (hnew : ∀ item', some item' ∈ slots → key item' ≠ key item) :
    (slots.set index (some item)).reduceOption.length = slots.reduceOption.length + 1 := by
  obtain ⟨hindex, hold⟩ := search_some hsearch
  have hslot : slots[index]? = some none := by
    cases hget : slots[index]? with
    | none => exact absurd (List.getElem?_eq_none_iff.mp hget) (Nat.not_le.mpr hindex)
    | some slot =>
        cases slot with
        | none => rfl
        | some item' =>
            have hkey : key item' = key item := by simpa using hold item' hget
            exact absurd hkey (hnew item' (List.mem_iff_getElem?.mpr ⟨index, hget⟩))
  rw [(reduceOption_place hslot item).length_eq, List.length_cons]

/-- An item of a key that there is already takes no more places. -/
theorem Settled.length_set_old (h : Settled key slots) (hsearch : searchKey key slots (key item) = some index)
    {item' : α} (hmem : some item' ∈ slots) (hkey : key item' = key item) :
    (slots.set index (some item)).reduceOption.length = slots.reduceOption.length := by
  obtain ⟨place, hplace⟩ := List.mem_iff_getElem?.mp hmem
  have hfound := h place item' hplace
  rw [hkey, hsearch, Option.some.injEq] at hfound
  subst hfound
  have hsplit := reduceOption_split hplace (some item)
  have hsplit' := reduceOption_split hplace (some item')
  have hsame : slots.set index (some item') = slots := by
    rw [List.getElem?_eq_getElem (search_some hsearch).1, Option.some.injEq] at hplace
    rw [← hplace, List.set_getElem_self]
  rw [hsame] at hsplit'
  rw [hsplit, hsplit']
  simp

end Viriatum.Library
