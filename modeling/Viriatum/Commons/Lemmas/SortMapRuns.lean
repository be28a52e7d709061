import Mathlib.Data.List.Induction
import Viriatum.Commons.SortMap

/-!
# What calls leave of a sort map

The state that any calls lead to, and what follows for the calls where going over the map at the end gives each key once.
-/

namespace Viriatum.Structures

namespace SortMap

variable {hash : Bytes → Nat} {map : SortMap} {calls : List SetCall}

/-- The calls lead from the empty map to this one. -/
def Reached (hash : Bytes → Nat) (map : SortMap) (calls : List SetCall) : Prop :=
  calls.foldlM (fun map call => map.set hash call) (createSortMap 0) = some map

theorem reached_nil (hash : Bytes → Nat) : Reached hash (createSortMap 0) [] := rfl

theorem Reached.concat (h : Reached hash map calls) {call : SetCall} {map' : SortMap}
    (hset : map.set hash call = some map') : Reached hash map' (calls ++ [call]) := by
  rw [Reached] at h ⊢
  rw [List.foldlM_append, h, Option.bind_eq_bind, Option.bind_some, List.foldlM_cons, hset, Option.bind_eq_bind,
    Option.bind_some]
  rfl

theorem Reached.of_concat {call : SetCall} (h : Reached hash map (calls ++ [call])) :
    ∃ before, Reached hash before calls ∧ before.set hash call = some map := by
  rw [Reached, List.foldlM_append] at h
  obtain ⟨before, hbefore, hset⟩ := Option.bind_eq_some_iff.mp h
  rw [List.foldlM_cons] at hset
  obtain ⟨after, hset, heq⟩ := Option.bind_eq_some_iff.mp hset
  cases heq
  exact ⟨before, hbefore, hset⟩

/-- A sound map, whose elements are those of some of the calls, and in whose lists each call stands. -/
structure Follows (hash : Bytes → Nat) (map : SortMap) (calls : List SetCall) : Prop where
  sound : map.hashMap.Sound hash
  elements : ∀ element, some element ∈ map.hashMap.elements → ∃ call ∈ calls, element = elementOf hash call
  keyList : map.keyList = calls.map fun call => hash call.text

theorem Reached.follows (h : Reached hash map calls) : Follows hash map calls := by
  induction calls using List.reverseRecOn generalizing map with
  | nil =>
      cases h
      have hcreate := holds_create hash 0
      exact ⟨hcreate.sound, fun element hmem => (hcreate.elements element).mp hmem, rfl⟩
  | append_singleton calls call ih =>
      obtain ⟨before, hbefore, hset⟩ := h.of_concat
      have hfollows := ih hbefore
      obtain ⟨-, hsets, hkeyList, -⟩ := of_set hfollows.sound hset
      constructor
      · exact hsets.sound
      · intro element hmem
        cases (hsets.mem element).mp hmem with
        | inl heq => exact ⟨call, by simp, heq⟩
        | inr hold =>
            obtain ⟨other, hother, heq⟩ := hfollows.elements element hold.1
            exact ⟨other, List.mem_append_left _ hother, heq⟩
      · rw [hkeyList, hfollows.keyList]
        simp

/-- Where the strings have different hashes, no key string is freed and all the elements are there. -/
theorem Reached.holds (h : Reached hash map calls) (hnodup : (calls.map fun call => hash call.text).Nodup) :
    map.Holds hash calls := by
  induction calls using List.reverseRecOn generalizing map with
  | nil =>
      cases h
      exact holds_create hash 0
  | append_singleton calls call ih =>
      obtain ⟨before, hbefore, hset⟩ := h.of_concat
      rw [List.map_append, List.map_singleton, List.nodup_append] at hnodup
      obtain ⟨hnodup, -, hnew⟩ := hnodup
      have hholds := ih hbefore hnodup
      obtain ⟨haddress, -⟩ := of_set hholds.sound hset
      have hdistinct : ∀ other ∈ calls, Distinct hash other call := fun other hother => by
        have hhash : hash other.text ≠ hash call.text :=
          hnew _ (List.mem_map.mpr ⟨other, hother, rfl⟩) _ (List.mem_singleton.mpr rfl)
        exact ⟨hhash, haddress (elementOf hash other) ((hholds.elements _).mpr ⟨other, hother, rfl⟩) hhash⟩
      obtain ⟨map', hset', hholds'⟩ := hholds.set hdistinct
      cases hset.symm.trans hset'
      exact hholds'

theorem Yields.unique {entries entries' : AssociationList} (h : map.Yields entries) (h' : map.Yields entries') :
    entries = entries' := by
  obtain ⟨elements, hiterate, hentries⟩ := h
  obtain ⟨elements', hiterate', hentries'⟩ := h'
  cases hiterate.symm.trans hiterate'
  exact List.map_injective_iff.mpr (Option.some_injective _) (hentries.symm.trans hentries')

theorem mem_of_getHashMap {hashMap : HashMap} {key : Nat} {text : Bytes} {element : HashMapElement}
    (h : hashMap.getHashMap key text = some (some element)) : some element ∈ hashMap.elements := by
  obtain ⟨index, -, hindex⟩ := Option.map_eq_some_iff.mp h
  exact List.mem_of_getElem? (Option.join_eq_some_iff.mp hindex)

theorem mem_of_getNextElement {index : Nat} {element : HashMapElement}
    (h : map.getNextElement index = some (some element)) : some element ∈ map.hashMap.elements := by
  rw [getNextElement] at h
  obtain ⟨key, -, h⟩ := Option.bind_eq_some_iff.mp h
  obtain ⟨keyString, -, h⟩ := Option.bind_eq_some_iff.mp h
  obtain ⟨text, -, h⟩ := Option.bind_eq_some_iff.mp h
  exact mem_of_getHashMap h

theorem Yields.length {entries : AssociationList} (h : map.Yields entries) : entries.length = map.keyList.length := by
  obtain ⟨elements, hiterate, hentries⟩ := h
  have hlength := congrArg List.length hentries
  rw [List.length_map, List.length_map] at hlength
  rw [← hlength, (getElem?_mapM hiterate).1, List.length_range]

/-- An entry that is gone over is the one of an element. -/
theorem Yields.element {entries : AssociationList} (h : map.Yields entries) {entry : Bytes × Option Nat}
    (hmem : entry ∈ entries) : ∃ element, some element ∈ map.hashMap.elements ∧ element.keyString.text = entry.1 := by
  obtain ⟨elements, hiterate, hentries⟩ := h
  have hentry : some entry ∈ elements.map (Option.map fun element => (element.keyString.text, element.value)) := by
    rw [hentries]
    exact List.mem_map.mpr ⟨entry, hmem, rfl⟩
  obtain ⟨found, hfound, heq⟩ := List.mem_map.mp hentry
  obtain ⟨element, rfl, rfl⟩ := Option.map_eq_some_iff.mp heq
  obtain ⟨index, hindex⟩ := List.mem_iff_getElem?.mp hfound
  obtain ⟨hlength, hget⟩ := getElem?_mapM hiterate
  have hrange : (List.range map.keyList.length)[index]? = some index := by
    have hlt := (List.getElem?_eq_some_iff.mp hindex).1
    rw [hlength, List.length_range] at hlt
    exact List.getElem?_range hlt
  exact ⟨element, mem_of_getNextElement ((hget index index hrange).trans hindex), rfl⟩

/-- Strings that are gone over have different hashes where they are different. -/
theorem Yields.apart (h : map.hashMap.Sound hash) {entries : AssociationList} (hyields : map.Yields entries)
    {entry entry' : Bytes × Option Nat} (hmem : entry ∈ entries) (hmem' : entry' ∈ entries)
    (hhash : hash entry.1 = hash entry'.1) : entry.1 = entry'.1 := by
  obtain ⟨element, helement, htext⟩ := hyields.element hmem
  obtain ⟨element', helement', htext'⟩ := hyields.element hmem'
  have hkey : element.key = element'.key := by rw [h.keys _ helement, h.keys _ helement', htext, htext', hhash]
  obtain ⟨index, hindex⟩ := List.mem_iff_getElem?.mp helement
  obtain ⟨index', hindex'⟩ := List.mem_iff_getElem?.mp helement'
  rw [← htext, ← htext', (h.settled.unique hindex hindex' hkey).2]

/-- Where each string is gone over once, the strings of the calls have different hashes. -/
theorem Follows.nodup (h : Follows hash map calls) {entries : AssociationList} (hyields : map.Yields entries)
    (hnodup : (entries.map Prod.fst).Nodup) : (calls.map fun call => hash call.text).Nodup := by
  have hsubset : entries.map Prod.fst ⊆ calls.map SetCall.text := by
    intro text hmem
    obtain ⟨entry, hentry, rfl⟩ := List.mem_map.mp hmem
    obtain ⟨element, helement, htext⟩ := hyields.element hentry
    obtain ⟨call, hcall, rfl⟩ := h.elements element helement
    exact List.mem_map.mpr ⟨call, hcall, htext⟩
  have hlength : (calls.map SetCall.text).length = (entries.map Prod.fst).length := by
    rw [List.length_map, List.length_map, hyields.length, h.keyList, List.length_map]
  have hperm := (hnodup.subperm hsubset).perm_of_length_le hlength.le
  have htexts : (calls.map SetCall.text).Nodup := hperm.nodup hnodup
  have hmap : (calls.map fun call => hash call.text) = (calls.map SetCall.text).map hash := by
    rw [List.map_map]
    rfl
  rw [hmap]
  apply List.Nodup.map_on _ htexts
  intro text hmem text' hmem' hhash
  obtain ⟨entry, hentry, rfl⟩ := List.mem_map.mp (hperm.mem_iff.mpr hmem)
  obtain ⟨entry', hentry', rfl⟩ := List.mem_map.mp (hperm.mem_iff.mpr hmem')
  exact hyields.apart h.sound hentry hentry' hhash

/-- What is found after calls with different strings. -/
theorem Holds.finds (h : map.Holds hash calls) :
    map.hashMap.Finds hash fun text => ((calls.map fun call => (call.text, call.value)).lookup text).join := by
  rw [HashMap.finds_iff h.sound]
  constructor
  · intro element hmem
    obtain ⟨call, hcall, rfl⟩ := (h.elements element).mp hmem
    have hlookup : (calls.map fun call => (call.text, call.value)).lookup call.text = some call.value := by
      have hentry : (call.text, call.value) ∈ calls.map fun call => (call.text, call.value) :=
        List.mem_map.mpr ⟨call, hcall, rfl⟩
      obtain ⟨value, hvalue⟩ := Option.isSome_iff_exists.mp
        (List.lookup_isSome_iff.mpr ⟨_, hentry, beq_self_eq_true call.text⟩)
      obtain ⟨before, after, heq, -⟩ := List.lookup_eq_some_iff.mp hvalue
      have hmem' : (call.text, value) ∈ calls.map fun call => (call.text, call.value) := by
        rw [heq]
        simp
      obtain ⟨call', hcall', hpair⟩ := List.mem_map.mp hmem'
      cases pairwise_distinct_eq h.distinct hcall' hcall (.inl (by rw [(Prod.mk.inj hpair).1]))
      rw [hvalue, ← (Prod.mk.inj hpair).2]
    exact congrArg Option.join hlookup
  · intro text hnot
    have hnone : (calls.map fun call => (call.text, call.value)).lookup text = none := by
      rw [List.lookup_eq_none_iff]
      intro entry hmem
      obtain ⟨call, hcall, rfl⟩ := List.mem_map.mp hmem
      have hne := hnot (elementOf hash call) ((h.elements _).mpr ⟨call, hcall, rfl⟩)
      simpa using fun heq : text = call.text => hne heq.symm
    rw [hnone]
    rfl

end SortMap

end Viriatum.Structures
