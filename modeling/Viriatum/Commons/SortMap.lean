import Viriatum.Commons.HashMapRefinement

/-!
# The sort map

A hash map together with the lists of the keys and of the key strings in the order they were set, and when going over
the lists gives the entries of an association list.
-/

namespace Viriatum.Structures

open Library

structure SortMap where
  hashMap : HashMap
  keyList : List Nat
  keyStringList : List Nat
deriving DecidableEq, Repr

def createSortMap (initialSize : Nat) : SortMap :=
  { hashMap := createHashMap initialSize, keyList := [], keyStringList := [] }

/-- The text at an address, while an element has its key string there. -/
def HashMap.string (map : HashMap) (address : Nat) : Option Bytes :=
  (map.elements.reduceOption.find? fun element => element.keyString.address = address).map
    fun element => element.keyString.text

namespace SortMap

variable (map : SortMap)

/-- Sets a value under a string. The key string of an element of the same hash is freed before the copy of the new one
is allocated, at an address where no other element has its own. -/
def set (hash : Bytes → Nat) (call : SetCall) : Option SortMap := do
  let others := map.hashMap.elements.reduceOption.filter fun element => element.key ≠ hash call.text
  if others.any fun element => element.keyString.address = call.keyString.address then none
  else do
    let hashMap ← map.hashMap.set hash call
    let element ← hashMap.getHashMap (hash call.text) call.text
    let element ← element
    some
      { hashMap
        keyList := map.keyList ++ [hash call.text]
        keyStringList := map.keyStringList ++ [element.keyString.address] }

/-- The element that an iterator gives for an index, by the key and the key string there. -/
def getNextElement (index : Nat) : Option (Option HashMapElement) := do
  let key ← map.keyList[index]?
  let keyString ← map.keyStringList[index]?
  let text ← map.hashMap.string keyString
  map.hashMap.getHashMap key text

/-- The elements that an iterator gives up to the end of the list of the keys. -/
def iterate : Option (List (Option HashMapElement)) := (List.range map.keyList.length).mapM map.getNextElement

end SortMap

/-! ## The association list -/

abbrev AssociationList := List (Bytes × Option Nat)

/-- Sets a value in the place of the string, or at the end for a new one. -/
def AssociationList.set (entries : AssociationList) (call : SetCall) : AssociationList :=
  if ∃ entry ∈ entries, entry.1 = call.text then
    entries.map fun entry => if entry.1 = call.text then (call.text, call.value) else entry
  else entries ++ [(call.text, call.value)]

/-- Going over the map reads no string that has been freed and gives the entries in their order. -/
def SortMap.Yields (map : SortMap) (entries : AssociationList) : Prop :=
  ∃ elements, map.iterate = some elements ∧
    elements.map (Option.map fun element => (element.keyString.text, element.value)) = entries.map some

/-- In every state of a run, all of whose calls come to their end, going over the map gives the entries. -/
def SortMap.Refines (hash : Bytes → Nat) : SortMap → AssociationList → List SetCall → Prop
  | map, entries, [] => map.Yields entries
  | map, entries, call :: calls =>
      map.Yields entries ∧ ∃ map', map.set hash call = some map' ∧ Refines hash map' (entries.set call) calls

/-- Two calls with strings of different hashes, whose copies are at different addresses. -/
def Distinct (hash : Bytes → Nat) (call call' : SetCall) : Prop :=
  hash call.text ≠ hash call'.text ∧ call.keyString.address ≠ call'.keyString.address

namespace SortMap

variable {hash : Bytes → Nat} {map map' : SortMap} {done : List SetCall}

def elementOf (hash : Bytes → Nat) (call : SetCall) : HashMapElement :=
  { value := call.value, key := hash call.text, keyString := call.keyString }

/-- The state after calls with distinct strings: an element for each of them, and their keys in the lists. -/
structure Holds (hash : Bytes → Nat) (map : SortMap) (done : List SetCall) : Prop where
  sound : map.hashMap.Sound hash
  elements : ∀ element, some element ∈ map.hashMap.elements ↔ ∃ call ∈ done, element = elementOf hash call
  keyList : map.keyList = done.map fun call => hash call.text
  keyStringList : map.keyStringList = done.map fun call => call.keyString.address
  distinct : done.Pairwise (Distinct hash)

theorem pairwise_distinct_eq (h : done.Pairwise (Distinct hash)) {call call' : SetCall} (hcall : call ∈ done)
    (hcall' : call' ∈ done)
    (hsame : hash call.text = hash call'.text ∨ call.keyString.address = call'.keyString.address) : call = call' := by
  have hsymm : Std.Symm (Distinct hash) := ⟨fun _ _ hdistinct => ⟨hdistinct.1.symm, hdistinct.2.symm⟩⟩
  by_contra hne
  have hdistinct := h.forall hcall hcall' hne
  exact hsame.elim hdistinct.1 hdistinct.2

theorem string_eq {hashMap : HashMap} {element : HashMapElement} (hmem : some element ∈ hashMap.elements)
    (hunique : ∀ other, some other ∈ hashMap.elements → other.keyString.address = element.keyString.address →
      other = element) : hashMap.string element.keyString.address = some element.keyString.text := by
  obtain ⟨other, hfind⟩ : ∃ other, hashMap.elements.reduceOption.find?
      (fun other => other.keyString.address = element.keyString.address) = some other := by
    rw [← Option.isSome_iff_exists, List.find?_isSome]
    exact ⟨element, List.reduceOption_mem_iff.mpr hmem, by simp⟩
  have hother := hunique other (List.reduceOption_mem_iff.mp (List.mem_of_find?_eq_some hfind))
    (by simpa using List.find?_some hfind)
  rw [HashMap.string, hfind, Option.map_some, hother]

/-- What an address leads to is the text of an element that has its key string there. -/
theorem exists_of_string {hashMap : HashMap} {address : Nat} {text : Bytes} (h : hashMap.string address = some text) :
    ∃ element, some element ∈ hashMap.elements ∧ element.keyString.address = address ∧ element.keyString.text = text := by
  obtain ⟨element, hfind, rfl⟩ := Option.map_eq_some_iff.mp h
  exact ⟨element, List.reduceOption_mem_iff.mp (List.mem_of_find?_eq_some hfind),
    by simpa using List.find?_some hfind, rfl⟩

theorem mapM_eq_map {α β : Type} {f : α → Option β} {g : α → β} {items : List α} (h : ∀ item ∈ items, f item = some (g item)) :
    items.mapM f = some (items.map g) := by
  induction items with
  | nil => rfl
  | cons item items ih =>
      rw [List.mapM_cons, h item List.mem_cons_self, ih fun other hmem => h other (List.mem_cons_of_mem _ hmem)]
      rfl

theorem getElem?_mapM {α β : Type} {f : α → Option β} {items : List α} {results : List β}
    (h : items.mapM f = some results) :
    results.length = items.length ∧ ∀ (index : Nat) (item : α), items[index]? = some item → f item = results[index]? := by
  induction items generalizing results with
  | nil =>
      cases h
      exact ⟨rfl, fun index item hitem => by simp at hitem⟩
  | cons item items ih =>
      rw [List.mapM_cons] at h
      obtain ⟨result, hresult, h⟩ := Option.bind_eq_some_iff.mp h
      obtain ⟨results', hresults', h⟩ := Option.bind_eq_some_iff.mp h
      cases h
      obtain ⟨hlength, hget⟩ := ih hresults'
      refine ⟨by simp [hlength], fun index other hother => ?_⟩
      cases index with
      | zero =>
          cases hother
          simpa using hresult
      | succ index => simpa using hget index other (by simpa using hother)

/-- After calls with distinct strings the map is gone over call by call. -/
theorem Holds.iterate (h : map.Holds hash done) : map.iterate = some (done.map fun call => some (elementOf hash call)) := by
  have hnext : ∀ index call, done[index]? = some call → map.getNextElement index = some (some (elementOf hash call)) := by
    intro index call hcall
    have hin := List.mem_of_getElem? hcall
    have hmem : some (elementOf hash call) ∈ map.hashMap.elements := (h.elements _).mpr ⟨call, hin, rfl⟩
    have hstring := string_eq hmem fun other hother haddress => by
      obtain ⟨call', hin', rfl⟩ := (h.elements other).mp hother
      rw [pairwise_distinct_eq h.distinct hin' hin (.inr haddress)]
    have hget := HashMap.getHashMap_of_mem h.sound hmem
    have htext : (elementOf hash call).keyString.text = call.text := rfl
    have haddress : (elementOf hash call).keyString.address = call.keyString.address := rfl
    rw [htext] at hget
    rw [htext, haddress] at hstring
    simp only [getNextElement, h.keyList, h.keyStringList, List.getElem?_map, hcall, Option.map_some, Option.bind_eq_bind,
      Option.bind_some, hstring, hget]
  have hlength : map.keyList.length = done.length := by rw [h.keyList, List.length_map]
  have hall : ∀ index ∈ List.range done.length, map.getNextElement index =
      some ((done.map fun call => some (elementOf hash call)).getD index none) := by
    intro index hindex
    have hlt := List.mem_range.mp hindex
    have hcall := List.getElem?_eq_getElem hlt
    rw [hnext index _ hcall]
    simp [List.getD, hcall]
  rw [SortMap.iterate, hlength, mapM_eq_map hall]
  congr 1
  apply List.ext_getElem
  · simp
  · intro index h₁ h₂
    rw [List.length_map] at h₂
    simp [List.getD, List.getElem?_eq_getElem h₂]

/-- The entries of calls with distinct strings are the calls. -/
theorem entries_set {call : SetCall} (hnew : ∀ other ∈ done, other.text ≠ call.text) :
    AssociationList.set (done.map fun call => (call.text, call.value)) call =
      (done ++ [call]).map fun call => (call.text, call.value) := by
  rw [AssociationList.set, if_neg, List.map_append]
  · rfl
  · rintro ⟨entry, hentry, heq⟩
    obtain ⟨other, hother, rfl⟩ := List.mem_map.mp hentry
    exact hnew other hother heq

/-- A call with a string that is distinct from those before keeps the state. -/
theorem Holds.set (h : map.Holds hash done) {call : SetCall} (hnew : ∀ other ∈ done, Distinct hash other call) :
    ∃ map', map.set hash call = some map' ∧ map'.Holds hash (done ++ [call]) := by
  obtain ⟨hashMap', hset, hsets⟩ := HashMap.set_eq h.sound call
  have hmem : ∀ element, some element ∈ hashMap'.elements ↔ ∃ other ∈ done ++ [call], element = elementOf hash other := by
    intro element
    rw [hsets.mem, h.elements]
    constructor
    · rintro (rfl | ⟨⟨other, hother, rfl⟩, _⟩)
      · exact ⟨call, by simp, rfl⟩
      · exact ⟨other, List.mem_append_left _ hother, rfl⟩
    · rintro ⟨other, hother, rfl⟩
      rcases List.mem_append.mp hother with hother | hother
      · exact .inr ⟨⟨other, hother, rfl⟩, (hnew other hother).1⟩
      · rw [List.mem_singleton.mp hother]
        exact .inl rfl
  have hget := HashMap.getHashMap_of_mem hsets.sound ((hmem (elementOf hash call)).mpr ⟨call, by simp, rfl⟩)
  have hfree : ¬ ((map.hashMap.elements.reduceOption.filter fun element => element.key ≠ hash call.text).any
      fun element => element.keyString.address = call.keyString.address) = true := by
    rw [List.any_eq_true]
    rintro ⟨element, hin, haddress⟩
    obtain ⟨other, hother, rfl⟩ := (h.elements element).mp (List.reduceOption_mem_iff.mp (List.mem_of_mem_filter hin))
    exact (hnew other hother).2 (of_decide_eq_true haddress)
  let map' : SortMap :=
    { hashMap := hashMap'
      keyList := map.keyList ++ [hash call.text]
      keyStringList := map.keyStringList ++ [call.keyString.address] }
  refine ⟨map', ?_, hsets.sound, hmem, ?_, ?_, ?_⟩
  · have hget' : hashMap'.getHashMap (hash call.text) call.text = some (some (elementOf hash call)) := hget
    simp only [SortMap.set]
    rw [if_neg hfree]
    simp only [hset, Option.bind_eq_bind, Option.bind_some, hget']
    rfl
  · simp [map', h.keyList]
  · simp [map', h.keyStringList]
  · rw [List.pairwise_append]
    refine ⟨h.distinct, List.pairwise_singleton _ _, fun other hother call' hcall' => ?_⟩
    rw [List.mem_singleton.mp hcall']
    exact hnew other hother

/-- What a call that comes to its end leaves. -/
theorem of_set {call : SetCall} (h : map.hashMap.Sound hash) (hset : map.set hash call = some map') :
    (∀ element, some element ∈ map.hashMap.elements → element.key ≠ hash call.text →
      element.keyString.address ≠ call.keyString.address) ∧ map.hashMap.Sets hash call map'.hashMap ∧
      map'.keyList = map.keyList ++ [hash call.text] ∧
      map'.keyStringList = map.keyStringList ++ [call.keyString.address] := by
  obtain ⟨hashMap', hset', hsets⟩ := HashMap.set_eq h call
  rw [SortMap.set] at hset
  split at hset
  case isTrue => cases hset
  case isFalse hfree =>
    have hget : hashMap'.getHashMap (hash call.text) call.text = some (some (elementOf hash call)) :=
      HashMap.getHashMap_of_mem hsets.sound ((hsets.mem (elementOf hash call)).mpr (.inl rfl))
    simp only [hset', Option.bind_eq_bind, Option.bind_some, hget, Option.some.injEq] at hset
    subst hset
    refine ⟨fun element hmem hkey haddress => hfree ?_, hsets, rfl, rfl⟩
    rw [List.any_eq_true]
    exact ⟨element, List.mem_filter.mpr ⟨List.reduceOption_mem_iff.mpr hmem, by simpa using hkey⟩, by simpa using haddress⟩

/-- A call after which the map is gone over right has a string that is distinct from those before. -/
theorem Holds.distinct_of_yields (h : map.Holds hash done) {call : SetCall} (hset : map.set hash call = some map')
    (hyields : map'.Yields (AssociationList.set (done.map fun call => (call.text, call.value)) call)) :
    ∀ other ∈ done, Distinct hash other call := by
  obtain ⟨haddress, hsets, hkeyList, hkeyStringList⟩ := of_set h.sound hset
  obtain ⟨elements, hiterate, hentries⟩ := hyields
  obtain ⟨hlength, hget⟩ := getElem?_mapM hiterate
  have hcount : elements.length = done.length + 1 := by
    rw [hlength, List.length_range, hkeyList, h.keyList]
    simp
  -- a string that was there already has no entry of its own, but is gone over once more
  have hnew : ∀ other ∈ done, other.text ≠ call.text := by
    intro other hother htext
    have hsame := congrArg List.length hentries
    rw [AssociationList.set, if_pos ⟨_, List.mem_map.mpr ⟨other, hother, rfl⟩, htext⟩] at hsame
    simp only [List.length_map] at hsame
    omega
  rw [entries_set hnew] at hentries
  intro other hother
  have hhash : hash other.text ≠ hash call.text := by
    intro hhash
    obtain ⟨index, hindex⟩ := List.mem_iff_getElem?.mp hother
    have hlt : index < done.length := (List.getElem?_eq_some_iff.mp hindex).1
    have hentry : (elements[index]?).map (Option.map fun element => (element.keyString.text, element.value)) =
        some (some (other.text, other.value)) := by
      rw [← List.getElem?_map, hentries, List.map_map, List.getElem?_map, List.getElem?_append_left hlt, hindex]
      rfl
    obtain ⟨found, hfound, hentry⟩ := Option.map_eq_some_iff.mp hentry
    obtain ⟨element, rfl, hpair⟩ := Option.map_eq_some_iff.mp hentry
    have hnext := hget index index (List.getElem?_range (by rw [hkeyList, h.keyList]; simp; omega))
    rw [hfound, getNextElement, hkeyList, hkeyStringList, h.keyList, h.keyStringList,
      List.getElem?_append_left (by simpa using hlt), List.getElem?_append_left (by simpa using hlt),
      List.getElem?_map, List.getElem?_map, hindex] at hnext
    simp only [Option.map_some, Option.bind_eq_bind, Option.bind_some] at hnext
    obtain ⟨text, hstring, hnext⟩ := Option.bind_eq_some_iff.mp hnext
    obtain ⟨holder, hmem, hplace, rfl⟩ := exists_of_string hstring
    cases (hsets.mem holder).mp hmem with
    | inl heq =>
        subst heq
        have hgot := HashMap.getHashMap_of_mem hsets.sound hmem
        rw [hhash] at hnext
        have hsame := hnext.symm.trans hgot
        cases hsame
        exact hnew other hother (congrArg Prod.fst hpair).symm
    | inr hold =>
        obtain ⟨other', hother', rfl⟩ := (h.elements holder).mp hold.1
        have hsame := pairwise_distinct_eq h.distinct hother' hother (.inr hplace)
        exact hold.2 (hsame ▸ hhash)
  exact ⟨hhash, haddress (elementOf hash other) ((h.elements _).mpr ⟨other, hother, rfl⟩) hhash⟩

theorem Holds.yields (h : map.Holds hash done) : map.Yields (done.map fun call => (call.text, call.value)) := by
  refine ⟨_, h.iterate, ?_⟩
  rw [List.map_map, List.map_map]
  rfl

theorem refines_iff (calls : List SetCall) (h : map.Holds hash done) :
    map.Refines hash (done.map fun call => (call.text, call.value)) calls ↔ (done ++ calls).Pairwise (Distinct hash) := by
  induction calls generalizing map done with
  | nil =>
      rw [List.append_nil]
      exact iff_of_true h.yields h.distinct
  | cons call calls ih =>
      have hassoc : done ++ call :: calls = done ++ [call] ++ calls := by simp
      rw [SortMap.Refines, hassoc]
      constructor
      · rintro ⟨_, map', hset, hrest⟩
        have hyields : map'.Yields (AssociationList.set (done.map fun call => (call.text, call.value)) call) := by
          cases calls with
          | nil => exact hrest
          | cons call' calls => exact hrest.1
        have hdistinct := h.distinct_of_yields hset hyields
        obtain ⟨map'', hset', h'⟩ := h.set hdistinct
        rw [hset, Option.some.injEq] at hset'
        subst hset'
        rw [entries_set fun other hother heq => (hdistinct other hother).1 (by rw [heq])] at hrest
        exact (ih h').mp hrest
      · intro hpairwise
        have hdistinct : ∀ other ∈ done, Distinct hash other call := fun other hother =>
          (List.pairwise_append.mp (List.pairwise_append.mp hpairwise).1).2.2 other hother call (by simp)
        obtain ⟨map', hset, h'⟩ := h.set hdistinct
        refine ⟨h.yields, map', hset, ?_⟩
        rw [entries_set fun other hother heq => (hdistinct other hother).1 (by rw [heq])]
        exact (ih h').mpr hpairwise

theorem holds_create (hash : Bytes → Nat) (initialSize : Nat) : (createSortMap initialSize).Holds hash [] where
  sound := HashMap.sound_create hash initialSize
  elements element := by simp [createSortMap, createHashMap]
  keyList := rfl
  keyStringList := rfl
  distinct := List.Pairwise.nil

end SortMap

/-- In every state of a run going over the sort map gives the entries of the association list exactly when no two of the
strings set have the same hash, and the copies of them are at different addresses. -/
theorem sort_map_refines (hash : Bytes → Nat) (initialSize : Nat) (calls : List SetCall) :
    (createSortMap initialSize).Refines hash [] calls ↔ calls.Pairwise (Distinct hash) :=
  SortMap.refines_iff calls (SortMap.holds_create hash initialSize)

/-- A string that is set twice is gone over twice. -/
theorem not_sort_map_refines : ¬ ∀ (initialSize : Nat) (calls : List SetCall),
    (createSortMap initialSize).Refines stringHash [] calls := by
  intro h
  have hpairwise := (SortMap.refines_iff _ (SortMap.holds_create stringHash 0)).mp
    (h 0 [{ keyString := ⟨1, [97]⟩, value := some 1 }, { keyString := ⟨1, [97]⟩, value := some 2 }])
  have hdistinct := (List.pairwise_cons.mp hpairwise).1 _ List.mem_cons_self
  exact hdistinct.1 rfl

end Viriatum.Structures
