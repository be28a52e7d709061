import Mathlib.Logic.Function.Basic

/-!
# Caches that hold handles

A cache of slots, each of which holds one value at most. A value has a handle that is open; the handles that are open
besides have owners outside of the cache.
-/

namespace Viriatum.Library

open Function

variable {ι α δ φ : Type} [DecidableEq ι] [DecidableEq δ]

/-- What is held in each of the slots. -/
abbrev SlotCache (ι α : Type) := ι → Option α

/-! ## The handles that are open -/

/-- The open handles are those of the values that are held, each of them another one, and those that are owned outside;
what a handle reaches is what its value is held for. -/
structure Accounted (handle : α → δ) (reached : ι → α → φ → Prop) (cache : SlotCache ι α) (opened : δ → Option φ)
    (owned : List δ) : Prop where
  opened_iff : ∀ d, opened d ≠ none ↔ d ∈ owned ∨ ∃ i value, cache i = some value ∧ handle value = d
  apart : ∀ i j value other, cache i = some value → cache j = some other → handle value = handle other → i = j
  inside : ∀ i value, cache i = some value → handle value ∉ owned
  reaches : ∀ i value file, cache i = some value → opened (handle value) = some file → reached i value file

namespace Accounted

variable {handle : α → δ} {reached : ι → α → φ → Prop} {cache : SlotCache ι α} {opened : δ → Option φ} {owned : List δ}
  {i : ι} {value other : α} {d : δ} {file : φ}

omit [DecidableEq ι] [DecidableEq δ] in
theorem start : Accounted handle reached (fun _ : ι => none) (fun _ : δ => (none : Option φ)) [] where
  opened_iff := by simp
  apart := by simp
  inside := by simp
  reaches := by simp

omit [DecidableEq ι] [DecidableEq δ] in
theorem mono {reached' : ι → α → φ → Prop} (h : Accounted handle reached cache opened owned)
    (hmono : ∀ i value file, reached i value file → reached' i value file) :
    Accounted handle reached' cache opened owned where
  opened_iff := h.opened_iff
  apart := h.apart
  inside := h.inside
  reaches i value file hvalue hfile := hmono i value file (h.reaches i value file hvalue hfile)

omit [DecidableEq ι] [DecidableEq δ] in
/-- The handle of what is held is open. -/
theorem isOpen (h : Accounted handle reached cache opened owned) (hvalue : cache i = some value) :
    ∃ file, opened (handle value) = some file ∧ reached i value file := by
  obtain ⟨file, hfile⟩ := Option.ne_none_iff_exists'.mp ((h.opened_iff _).mpr (.inr ⟨i, value, hvalue, rfl⟩))
  exact ⟨file, hfile, h.reaches i value file hvalue hfile⟩

/-- What is held is let go of, with its handle. -/
theorem release (h : Accounted handle reached cache opened owned) (hvalue : cache i = some value) :
    Accounted handle reached (update cache i none) (update opened (handle value) none) owned := by
  have hothers : ∀ j other, update cache i none j = some other → j ≠ i ∧ cache j = some other := by
    intro j other hother
    by_cases hij : j = i
    · simp [hij] at hother
    · exact ⟨hij, by rwa [update_of_ne hij] at hother⟩
  have hne : ∀ j other, update cache i none j = some other → handle other ≠ handle value := by
    intro j other hother heq
    obtain ⟨hji, hother⟩ := hothers j other hother
    exact hji (h.apart j i other value hother hvalue heq)
  refine ⟨fun d => ?_, fun j k a b ha hb hab => ?_, fun j other hother => h.inside j other (hothers j other hother).2,
    fun j other file hother hfile => ?_⟩
  · by_cases hd : d = handle value
    · simp only [hd, update_self, ne_eq, not_true, false_iff, not_or, not_exists, not_and]
      exact ⟨h.inside i value hvalue, fun j other hother => hne j other hother⟩
    · rw [update_of_ne hd, h.opened_iff d]
      refine or_congr_right ⟨?_, ?_⟩
      · rintro ⟨j, other, hother, rfl⟩
        refine ⟨j, other, ?_, rfl⟩
        have hji : j ≠ i := by
          rintro rfl
          rw [hvalue] at hother
          cases hother
          exact hd rfl
        rwa [update_of_ne hji]
      · rintro ⟨j, other, hother, rfl⟩
        exact ⟨j, other, (hothers j other hother).2, rfl⟩
  · exact h.apart j k a b (hothers j a ha).2 (hothers k b hb).2 hab
  · rw [update_of_ne (hne j other hother)] at hfile
    exact h.reaches j other file (hothers j other hother).2 hfile

/-- A free slot takes a value, whose handle is opened. -/
theorem hold (h : Accounted handle reached cache opened owned) (hfree : cache i = none)
    (hunused : opened (handle value) = none) (hreached : reached i value file) :
    Accounted handle reached (update cache i (some value)) (update opened (handle value) (some file)) owned := by
  have hclosed : ¬(handle value ∈ owned ∨ ∃ j other, cache j = some other ∧ handle other = handle value) := fun hor =>
    (h.opened_iff _).mpr hor hunused
  rw [not_or] at hclosed
  have hheld : ∀ j other, update cache i (some value) j = some other →
      (j = i ∧ other = value) ∨ (j ≠ i ∧ cache j = some other) := by
    intro j other hother
    by_cases hij : j = i
    · simp only [hij, update_self, Option.some.injEq] at hother
      exact .inl ⟨hij, hother.symm⟩
    · exact .inr ⟨hij, by rwa [update_of_ne hij] at hother⟩
  refine ⟨fun d => ?_, fun j k a b ha hb hab => ?_, fun j other hother => ?_, fun j other file' hother hfile => ?_⟩
  · by_cases hd : d = handle value
    · simp only [hd, update_self, ne_eq, reduceCtorEq, not_false_eq_true, true_iff]
      exact .inr ⟨i, value, update_self .., rfl⟩
    · rw [update_of_ne hd, h.opened_iff d]
      refine or_congr_right ⟨?_, ?_⟩
      · rintro ⟨j, other, hother, rfl⟩
        have hji : j ≠ i := by
          rintro rfl
          rw [hfree] at hother
          cases hother
        exact ⟨j, other, by rwa [update_of_ne hji], rfl⟩
      · rintro ⟨j, other, hother, rfl⟩
        rcases hheld j other hother with ⟨-, rfl⟩ | ⟨-, hother⟩
        · exact absurd rfl hd
        · exact ⟨j, other, hother, rfl⟩
  · rcases hheld j a ha with ⟨hji, hav⟩ | ⟨-, haj⟩ <;> rcases hheld k b hb with ⟨hki, hbv⟩ | ⟨-, hbk⟩
    · rw [hji, hki]
    · exact absurd ⟨k, b, hbk, by rw [← hab, hav]⟩ hclosed.2
    · exact absurd ⟨j, a, haj, by rw [hab, hbv]⟩ hclosed.2
    · exact h.apart j k a b haj hbk hab
  · rcases hheld j other hother with ⟨-, rfl⟩ | ⟨-, hother⟩
    · exact hclosed.1
    · exact h.inside j other hother
  · rcases hheld j other hother with ⟨rfl, rfl⟩ | ⟨-, hother⟩
    · rw [update_self] at hfile
      cases hfile
      exact hreached
    · have hne : handle other ≠ handle value := fun heq => hclosed.2 ⟨j, other, hother, heq⟩
      rw [update_of_ne hne] at hfile
      exact h.reaches j other file' hother hfile

omit [DecidableEq δ] in
/-- What is held is replaced by a value of the same handle. -/
theorem renew (h : Accounted handle reached cache opened owned) (hvalue : cache i = some value)
    (hsame : handle other = handle value) (hreached : ∀ file, reached i value file → reached i other file) :
    Accounted handle reached (update cache i (some other)) opened owned := by
  have hheld : ∀ j a, update cache i (some other) j = some a →
      ∃ b, cache j = some b ∧ handle b = handle a ∧ ∀ file, reached j b file → reached j a file := by
    intro j a ha
    by_cases hij : j = i
    · simp only [hij, update_self, Option.some.injEq] at ha
      exact ⟨value, by rw [hij, hvalue], by rw [← ha, hsame], by rw [hij, ← ha]; exact hreached⟩
    · exact ⟨a, by rwa [update_of_ne hij] at ha, rfl, fun _ h => h⟩
  refine ⟨fun d => ?_, fun j k a b ha hb hab => ?_, fun j a ha => ?_, fun j a file ha hfile => ?_⟩
  · rw [h.opened_iff d]
    refine or_congr_right ⟨?_, ?_⟩
    · rintro ⟨j, a, ha, rfl⟩
      by_cases hij : j = i
      · rw [hij, hvalue] at ha
        cases ha
        exact ⟨i, other, update_self .., hsame⟩
      · exact ⟨j, a, by rwa [update_of_ne hij], rfl⟩
    · rintro ⟨j, a, ha, rfl⟩
      obtain ⟨b, hb, heq, -⟩ := hheld j a ha
      exact ⟨j, b, hb, heq⟩
  · obtain ⟨a', ha', haa, -⟩ := hheld j a ha
    obtain ⟨b', hb', hbb, -⟩ := hheld k b hb
    exact h.apart j k a' b' ha' hb' (by rw [haa, hbb, hab])
  · obtain ⟨b, hb, heq, -⟩ := hheld j a ha
    exact heq ▸ h.inside j b hb
  · obtain ⟨b, hb, heq, hreach⟩ := hheld j a ha
    exact hreach file (h.reaches j b file hb (by rwa [heq]))

omit [DecidableEq ι] in
/-- A handle is opened for an owner outside. -/
theorem own (h : Accounted handle reached cache opened owned) (hunused : opened d = none) (file : φ) :
    Accounted handle reached cache (update opened d (some file)) (d :: owned) := by
  have hne : ∀ i value, cache i = some value → handle value ≠ d := by
    rintro i value hvalue rfl
    obtain ⟨_, hfile, -⟩ := h.isOpen hvalue
    rw [hunused] at hfile
    cases hfile
  refine ⟨fun e => ?_, h.apart, fun i value hvalue => ?_, fun i value file' hvalue hfile => ?_⟩
  · by_cases he : e = d
    · simp [he]
    · rw [update_of_ne he, h.opened_iff e]
      simp [he]
  · rw [List.mem_cons, not_or]
    exact ⟨hne i value hvalue, h.inside i value hvalue⟩
  · rw [update_of_ne (hne i value hvalue)] at hfile
    exact h.reaches i value file' hvalue hfile

omit [DecidableEq ι] in
/-- An owner outside lets go of a handle. -/
theorem disown (h : Accounted handle reached cache opened owned) (hd : d ∈ owned) :
    Accounted handle reached cache (update opened d none) (owned.filter (· ≠ d)) := by
  have hne : ∀ i value, cache i = some value → handle value ≠ d := by
    rintro i value hvalue rfl
    exact h.inside i value hvalue hd
  refine ⟨fun e => ?_, h.apart, fun i value hvalue hin => h.inside i value hvalue (List.mem_filter.mp hin).1,
    fun i value file' hvalue hfile => ?_⟩
  · by_cases he : e = d
    · simp only [he, update_self, ne_eq, not_true, List.mem_filter, decide_not, Bool.not_eq_true', decide_eq_false_iff_not,
        and_false, false_or, false_iff, not_exists, not_and]
      exact fun i value hvalue => hne i value hvalue
    · rw [update_of_ne he, h.opened_iff e]
      simp [he]
  · rw [update_of_ne (hne i value hvalue)] at hfile
    exact h.reaches i value file' hvalue hfile

end Accounted

end Viriatum.Library
