import Mathlib.Data.List.Induction
import Mathlib.Data.List.Nodup

/-!
# Entries by their keys

The entries of a list under each key, the keys in the order of their first entries, and the last value of each key.
-/

namespace Viriatum.Library

variable {κ β : Type} [BEq κ] [LawfulBEq κ]

/-- The values under each key, in the order of their entries. -/
def grouped (entries : List (κ × β)) : List (κ × List β) :=
  (entries.map Prod.fst).eraseDups.map fun key => (key, (entries.filter (·.1 == key)).map Prod.snd)

/-- The last value of each key. -/
def lastValues (entries : List (κ × β)) : List (κ × β) :=
  (entries.map Prod.fst).eraseDups.filterMap fun key => (entries.reverse.lookup key).map (key, ·)

/-! ## The keys -/

theorem eraseDups_concat (keys : List κ) (key : κ) :
    (keys ++ [key]).eraseDups = keys.eraseDups ++ if keys.contains key then [] else [key] := by
  rw [List.eraseDups_append, List.removeAll, List.filter_cons, List.elem_eq_contains]
  cases keys.contains key <;> rfl

theorem nodup_eraseDups (keys : List κ) : keys.eraseDups.Nodup := by
  induction keys using List.reverseRecOn with
  | nil => exact List.nodup_nil
  | append_singleton keys key ih =>
      rw [eraseDups_concat]
      cases hmem : keys.contains key with
      | true => simpa using ih
      | false =>
          have hnew : key ∉ keys := by simpa using hmem
          have hdisjoint : List.Disjoint keys.eraseDups [key] := by simpa using hnew
          exact List.Nodup.append ih (List.nodup_singleton key) hdisjoint

theorem eraseDups_of_nodup {keys : List κ} (h : keys.Nodup) : keys.eraseDups = keys := by
  induction keys using List.reverseRecOn with
  | nil => rfl
  | append_singleton keys key ih =>
      obtain ⟨hkeys, hnew⟩ := List.nodup_concat keys key |>.mp (by simpa using h)
      have hcontains : keys.contains key = false := by simpa using hkeys
      rw [eraseDups_concat, hcontains, ih hnew]
      rfl

/-! ## The last values -/

theorem lookup_reverse_isSome {entries : List (κ × β)} {key : κ} :
    (entries.reverse.lookup key).isSome ↔ key ∈ entries.map Prod.fst := by
  rw [List.lookup_isSome_iff]
  simp only [List.mem_reverse, List.mem_map, beq_iff_eq]
  exact ⟨fun ⟨entry, hmem, heq⟩ => ⟨entry, hmem, heq.symm⟩, fun ⟨entry, hmem, heq⟩ => ⟨entry, hmem, heq.symm⟩⟩

omit [LawfulBEq κ] in
theorem lookup_reverse_concat (entries : List (κ × β)) (key key' : κ) (value : β) :
    (entries ++ [(key, value)]).reverse.lookup key' =
      if key' == key then some value else entries.reverse.lookup key' := by
  rw [List.reverse_append, List.reverse_singleton, List.singleton_append, List.lookup_cons]
  cases key' == key <;> rfl

theorem mem_of_lookup {entries : List (κ × β)} {key : κ} {value : β}
    (h : entries.reverse.lookup key = some value) : (key, value) ∈ entries := by
  obtain ⟨before, after, heq, -⟩ := List.lookup_eq_some_iff.mp h
  rw [← List.mem_reverse, heq]
  simp

theorem lookup_of_nodup {entries : List (κ × β)} (h : (entries.map Prod.fst).Nodup) {key : κ} {value : β}
    (hmem : (key, value) ∈ entries) : entries.reverse.lookup key = some value := by
  obtain ⟨value', hlookup⟩ := Option.isSome_iff_exists.mp
    (lookup_reverse_isSome.mpr (List.mem_map.mpr ⟨_, hmem, rfl⟩))
  have heq := List.inj_on_of_nodup_map h (mem_of_lookup hlookup) hmem rfl
  cases heq
  exact hlookup

theorem mem_lastValues {entries : List (κ × β)} {key : κ} {value : β} :
    (key, value) ∈ lastValues entries ↔ entries.reverse.lookup key = some value := by
  rw [lastValues, List.mem_filterMap]
  constructor
  · rintro ⟨key', -, h⟩
    obtain ⟨value', hlookup, heq⟩ := Option.map_eq_some_iff.mp h
    cases heq
    exact hlookup
  · intro h
    refine ⟨key, ?_, by rw [h]; rfl⟩
    rw [List.mem_eraseDups]
    exact List.mem_map.mpr ⟨_, mem_of_lookup h, rfl⟩

theorem keys_lastValues (entries : List (κ × β)) :
    (lastValues entries).map Prod.fst = (entries.map Prod.fst).eraseDups := by
  have hall : ∀ key ∈ (entries.map Prod.fst).eraseDups,
      ((entries.reverse.lookup key).map (key, ·)).map Prod.fst = some key := by
    intro key hmem
    obtain ⟨value, hvalue⟩ := Option.isSome_iff_exists.mp (lookup_reverse_isSome.mpr (List.mem_eraseDups.mp hmem))
    rw [hvalue]
    rfl
  rw [lastValues, List.map_filterMap]
  calc (entries.map Prod.fst).eraseDups.filterMap _ = (entries.map Prod.fst).eraseDups.filterMap some :=
        List.filterMap_congr hall
    _ = (entries.map Prod.fst).eraseDups := List.filterMap_some

theorem lastValues_of_nodup {entries : List (κ × β)} (h : (entries.map Prod.fst).Nodup) :
    lastValues entries = entries := by
  have hall : ∀ entry ∈ entries, (entries.reverse.lookup entry.1).map (entry.1, ·) = some entry := by
    intro entry hmem
    have hentry : (entry.1, entry.2) ∈ entries := hmem
    rw [lookup_of_nodup h hentry]
    rfl
  rw [lastValues, eraseDups_of_nodup h, List.filterMap_map]
  calc entries.filterMap _ = entries.filterMap some := List.filterMap_congr hall
    _ = entries := List.filterMap_some

/-- An entry that is there already, as the only one under its key, changes nothing. -/
theorem lastValues_concat {entries : List (κ × β)} (h : (entries.map Prod.fst).Nodup) {entry : κ × β}
    (hmem : entry ∈ entries) : lastValues (entries ++ [entry]) = lastValues entries := by
  have hcontains : (entries.map Prod.fst).contains entry.1 = true := by
    simpa using ⟨entry.2, hmem⟩
  rw [lastValues, lastValues, List.map_append, List.map_singleton, eraseDups_concat, hcontains, if_pos rfl,
    List.append_nil]
  apply List.filterMap_congr
  intro key _
  have hconcat := lookup_reverse_concat entries entry.1 key entry.2
  rw [hconcat]
  cases heq : key == entry.1 with
  | false => rfl
  | true =>
      have hentry : (entry.1, entry.2) ∈ entries := hmem
      rw [beq_iff_eq.mp heq, lookup_of_nodup h hentry]
      rfl

end Viriatum.Library
