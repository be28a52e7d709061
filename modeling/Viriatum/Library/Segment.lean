import Mathlib.Data.List.Basic
import Mathlib.Logic.Function.Basic

/-!
# Linked segments

Places that are linked in both directions: the chain that following one link makes, and the segments that a list whose
places know their two neighbours falls into.
-/

namespace Viriatum.Library

variable {α : Type} {link next previous next' previous' : α → Option (Option α)}

/-- Following the link from a pointer leads through the places, one after the other, and then to the end. -/
def Chain (link : α → Option (Option α)) : Option α → List α → Option α → Prop
  | pointer, [], last => pointer = last
  | pointer, place :: places, last =>
      pointer = some place ∧ ∃ pointer', link place = some pointer' ∧ Chain link pointer' places last

/-- The places know their neighbours, and the two at the ends what lies outside. -/
def Segment (next previous : α → Option (Option α)) : Option α → List α → Option α → Prop
  | _, [], _ => True
  | before, place :: places, after =>
      previous place = some before ∧ next place = some (places.head?.or after) ∧
        Segment next previous (some place) places after

/-- The links once the place of a pointer, if it has one, is linked to another one. -/
def relink [DecidableEq α] (link : α → Option (Option α)) (pointer target : Option α) : α → Option (Option α) :=
  match pointer with
  | none => link
  | some place => Function.update link place (some target)

theorem relink_self [DecidableEq α] {target : Option α} {place : α} : relink link (some place) target place = some target :=
  Function.update_self ..

theorem relink_of_ne [DecidableEq α] {pointer target : Option α} {place : α} (h : pointer ≠ some place) :
    relink link pointer target place = link place := by
  cases pointer with
  | none => rfl
  | some other => exact Function.update_of_ne (fun heq => h (congrArg some heq.symm)) _ _

namespace Chain

variable {pointer last : Option α} {places places' : List α}

theorem append_iff : Chain link pointer (places ++ places') last ↔
    ∃ middle, Chain link pointer places middle ∧ Chain link middle places' last := by
  induction places generalizing pointer with
  | nil => simp [Chain]
  | cons place places ih =>
      simp only [List.cons_append, Chain, ih]
      constructor
      · rintro ⟨heq, pointer', hlink, middle, hfirst, hsecond⟩
        exact ⟨middle, ⟨heq, pointer', hlink, hfirst⟩, hsecond⟩
      · rintro ⟨middle, ⟨heq, pointer', hlink, hfirst⟩, hsecond⟩
        exact ⟨heq, pointer', hlink, middle, hfirst, hsecond⟩

/-- A pointer leads through one list of places to nowhere. -/
theorem eq_of_none (h : Chain link pointer places none) (h' : Chain link pointer places' none) : places = places' := by
  induction places generalizing pointer places' with
  | nil =>
      cases places' with
      | nil => rfl
      | cons place' places' =>
          cases h.symm.trans h'.1
  | cons place places ih =>
      cases places' with
      | nil => cases h'.symm.trans h.1
      | cons place' places' =>
          obtain ⟨rfl, pointer', hlink, hrest⟩ := h
          obtain ⟨heq, pointer'', hlink', hrest'⟩ := h'
          cases heq
          cases hlink.symm.trans hlink'
          rw [ih hrest hrest']

/-- A chain that ends does not come to a place twice. -/
theorem nodup (h : Chain link pointer places none) : places.Nodup := by
  induction places generalizing pointer with
  | nil => exact List.nodup_nil
  | cons place places ih =>
      have hrest := h
      obtain ⟨rfl, pointer', _, htail⟩ := hrest
      refine List.nodup_cons.mpr ⟨fun hmem => ?_, ih htail⟩
      obtain ⟨front, back, rfl⟩ := List.append_of_mem hmem
      obtain ⟨middle, _, hback⟩ := append_iff.mp htail
      have hsame : middle = some place := hback.1
      rw [hsame] at hback
      have hlength := congrArg List.length (eq_of_none hback h)
      simp only [List.length_cons, List.length_append] at hlength
      omega

theorem pointer_eq (h : Chain link pointer places last) : pointer = places.head?.or last := by
  cases places with
  | nil => exact h
  | cons place places => exact h.1

end Chain

namespace Segment

attribute [local simp] Segment

variable {before after before' after' : Option α} {places places' : List α}

theorem append_iff : Segment next previous before (places ++ places') after ↔
    Segment next previous before places (places'.head?.or after) ∧
      Segment next previous (places.getLast?.or before) places' after := by
  induction places generalizing before with
  | nil => simp [Segment]
  | cons place places ih =>
      have hlast : (place :: places).getLast?.or before = places.getLast?.or (some place) := by
        rw [List.getLast?_cons]
        cases places.getLast? <;> rfl
      simp only [List.cons_append, Segment, ih, hlast, List.head?_append, Option.or_assoc, and_assoc]

theorem singleton_iff {place : α} : Segment next previous before [place] after ↔
    previous place = some before ∧ next place = some after := by
  simp [Segment]

/-- A segment is what it is by the links of its places alone. -/
theorem congr (hnext : ∀ place ∈ places, next' place = next place)
    (hprevious : ∀ place ∈ places, previous' place = previous place)
    (h : Segment next previous before places after) : Segment next' previous' before places after := by
  induction places generalizing before with
  | nil => trivial
  | cons place places ih =>
      obtain ⟨hback, hforth, hrest⟩ := h
      refine ⟨?_, ?_, ih ?_ ?_ hrest⟩
      · rw [hprevious place (by simp), hback]
      · rw [hnext place (by simp), hforth]
      · exact fun other hmem => hnext other (List.mem_cons_of_mem _ hmem)
      · exact fun other hmem => hprevious other (List.mem_cons_of_mem _ hmem)

/-- A list linked in both directions is read forwards from its first place and backwards from its last one. -/
theorem iff_chains {first last : Option α} :
    (Segment next previous before places after ∧ first = places.head?.or after ∧ last = places.getLast?.or before) ↔
      Chain next first places after ∧ Chain previous last places.reverse before := by
  induction places generalizing before first with
  | nil => simp [Segment, Chain]
  | cons place places ih =>
      have hlast : (place :: places).getLast?.or before = places.getLast?.or (some place) := by
        rw [List.getLast?_cons]
        cases places.getLast? <;> rfl
      rw [List.reverse_cons, Chain.append_iff, hlast]
      constructor
      · rintro ⟨⟨hback, hforth, hrest⟩, rfl, hend⟩
        obtain ⟨hforwards, hbackwards⟩ := ih.mp ⟨hrest, rfl, hend⟩
        exact ⟨⟨rfl, _, hforth, hforwards⟩, _, hbackwards, rfl, _, hback, rfl⟩
      · rintro ⟨⟨rfl, pointer, hforth, hforwards⟩, middle, hbackwards, rfl, pointer', hback, rfl⟩
        obtain ⟨hrest, rfl, hend⟩ := ih.mpr ⟨hforwards, hbackwards⟩
        exact ⟨⟨hback, hforth, hrest⟩, rfl, hend⟩

theorem nodup (h : Segment next previous none places none) : places.Nodup := by
  have hchains := iff_chains.mp ⟨h, rfl, rfl⟩
  exact hchains.1.nodup

theorem next_of_mem {place : α} (h : Segment next previous before places after) (hmem : place ∈ places) :
    (next place).isSome := by
  induction places generalizing before with
  | nil => cases hmem
  | cons other places ih =>
      obtain ⟨_, hforth, hrest⟩ := h
      cases List.mem_cons.mp hmem with
      | inl heq =>
          rw [heq, hforth]
          rfl
      | inr hmem => exact ih hrest hmem

variable [DecidableEq α]

/-- Another place is put behind a segment. -/
theorem relink_after (after' : Option α) (hnodup : places.Nodup) (h : Segment next previous before places after) :
    Segment (relink next places.getLast? after') previous before places after' := by
  rcases List.eq_nil_or_concat places with rfl | ⟨front, last, rfl⟩
  · trivial
  · rw [List.concat_eq_append] at *
    have hnot : last ∉ front := fun hmem => (List.nodup_append.mp hnodup).2.2 _ hmem _ (by simp) rfl
    obtain ⟨hfront, hlast⟩ := append_iff.mp h
    rw [List.getLast?_concat]
    apply append_iff.mpr
    constructor
    · refine hfront.congr ?_ fun _ _ => rfl
      intro other hmem
      exact Function.update_of_ne (ne_of_mem_of_not_mem hmem hnot) _ _
    · exact singleton_iff.mpr ⟨(singleton_iff.mp hlast).1, Function.update_self ..⟩

/-- Another place is put before a segment. -/
theorem relink_before (before' : Option α) (hnodup : places.Nodup) (h : Segment next previous before places after) :
    Segment next (relink previous places.head? before') before' places after := by
  cases places with
  | nil => trivial
  | cons place places =>
      have hnot := (List.nodup_cons.mp hnodup).1
      obtain ⟨_, hforth, hrest⟩ := h
      refine ⟨Function.update_self .., hforth, hrest.congr (fun _ _ => rfl) ?_⟩
      intro other hmem
      exact Function.update_of_ne (ne_of_mem_of_not_mem hmem hnot) _ _

end Segment

end Viriatum.Library
