import Viriatum.Http.HpackTable

/-!
# What the search finds, the index gives back
-/

namespace Viriatum

open Library

namespace HpackRing

theorem findFrom_append (header : HpackHeader) (position index : Nat) (xs ys : List HpackHeader) :
    findFrom header position index (xs ++ ys) =
      match findFrom header position index xs with
      | (index, true) => (index, true)
      | (index, false) => findFrom header (position + xs.length) index ys := by
  induction xs generalizing position index with
  | nil => rfl
  | cons entry xs ih =>
      simp only [List.cons_append, findFrom, ih, List.length_cons]
      rw [show position + (xs.length + 1) = position + 1 + xs.length by omega]
      split_ifs <;> rfl

private theorem getElem?_shift {entries : List HpackHeader} {entry header : HpackHeader} {position found : Nat}
    (h : position + 1 ≤ found ∧ entries[found - (position + 1)]? = some header) :
    position ≤ found ∧ (entry :: entries)[found - position]? = some header := by
  obtain ⟨hle, he⟩ := h
  refine ⟨by omega, ?_⟩
  rw [show found - position = found - (position + 1) + 1 by omega, List.getElem?_cons_succ, he]

/-- A complete match is found at an entry that is the header itself. -/
theorem findFrom_true {header : HpackHeader} {position index found : Nat} {entries : List HpackHeader}
    (h : findFrom header position index entries = (found, true)) :
    position ≤ found ∧ entries[found - position]? = some header := by
  induction entries generalizing position index with
  | nil => cases h
  | cons entry entries ih =>
      rw [findFrom] at h
      simp only at h
      split at h
      · exact getElem?_shift (ih h)
      case isFalse hname =>
        split at h
        · exact getElem?_shift (ih h)
        case isFalse hvalue =>
          cases h
          rw [ne_eq, not_not] at hname hvalue
          refine ⟨le_rfl, ?_⟩
          cases entry
          cases header
          simp_all

/-- Without a complete match the index is the one given, or the one of an entry with the name of the header. -/
theorem findFrom_false {header : HpackHeader} {position index found : Nat} {entries : List HpackHeader}
    (h : findFrom header position index entries = (found, false)) :
    found = index ∨
      ∃ entry, entry.name = header.name ∧ position ≤ found ∧ entries[found - position]? = some entry := by
  induction entries generalizing position index with
  | nil =>
      cases h
      exact .inl rfl
  | cons entry entries ih =>
      rw [findFrom] at h
      simp only at h
      split at h
      · rcases ih h with rfl | ⟨e, hname, hfound⟩
        · exact .inl rfl
        · exact .inr ⟨e, hname, getElem?_shift hfound⟩
      case isFalse hname =>
        rw [ne_eq, not_not] at hname
        split at h
        · rcases ih h with rfl | ⟨e, hname, hfound⟩
          · split
            · exact .inr ⟨entry, hname, le_rfl, by simp⟩
            · exact .inl rfl
          · exact .inr ⟨e, hname, getElem?_shift hfound⟩
        · cases h

end HpackRing

namespace HpackTable

/-- The search walks the combined address space. -/
theorem find_eq (t : HpackTable) (header : HpackHeader) :
    t.find header = HpackRing.findFrom header 1 0 t.space := by
  rw [space, HpackRing.findFrom_append]
  rfl

theorem find_true {t : HpackTable} {header : HpackHeader} {index : Nat} (h : t.find header = (index, true)) :
    0 < index ∧ index ≤ hpackStaticSize + hpackMaxEntries ∧ t.space[index - 1]? = some header := by
  rw [find_eq] at h
  obtain ⟨hle, hget⟩ := HpackRing.findFrom_true h
  have hlt := (List.getElem?_eq_some_iff.mp hget).1
  have := t.length_space_le
  exact ⟨hle, by omega, hget⟩

theorem find_false {t : HpackTable} {header : HpackHeader} {index : Nat} (h : t.find header = (index, false))
    (hne : index ≠ 0) :
    index ≤ hpackStaticSize + hpackMaxEntries ∧
      ∃ entry, entry.name = header.name ∧ t.space[index - 1]? = some entry := by
  rw [find_eq] at h
  rcases HpackRing.findFrom_false h with rfl | ⟨entry, hname, hle, hget⟩
  · exact absurd rfl hne
  · have hlt := (List.getElem?_eq_some_iff.mp hget).1
    have := t.length_space_le
    exact ⟨by omega, entry, hname, hget⟩

theorem Same.space_eq {t u : HpackTable} (h : t.Same u) : t.space = u.space := by
  rw [space, space, h.list_eq]

end HpackTable

end Viriatum
