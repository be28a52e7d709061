import Viriatum.Commons.ListRefinement
import Viriatum.Commons.Quicksort
import Viriatum.Library.Rearrangement

/-!
# What is sorted

Within its range the quicksort puts the elements in order, and a list is left with its nodes and its links.
-/

namespace Viriatum

open Library

variable {α : Type} {cmp : Comparator α} {first last left right : Nat} {s s' : Elements α} {pivot : α}

/-- A comparator by which of any two values one is not greater than the other. -/
structure Comparator.TotalPreorder (cmp : Comparator α) : Prop where
  total : ∀ a b, cmp a b ≤ 0 ∨ cmp b a ≤ 0
  trans : ∀ a b c, cmp a b ≤ 0 → cmp b c ≤ 0 → cmp a c ≤ 0

/-- There is an element wherever the range goes. -/
def Covers (first last : Nat) (s : Elements α) : Prop := ∀ i, first ≤ i → i < last → (s i).isSome

theorem Covers.mono {first' last' : Nat} (h : Covers first last s) (hfirst : first ≤ first') (hlast : last' ≤ last) :
    Covers first' last' s := fun i hi hi' => h i (Nat.le_trans hfirst hi) (Nat.lt_of_lt_of_le hi' hlast)

theorem Covers.rearranges {first' last' : Nat} (h : Covers first last s) (hs : Rearranges first' last' s s')
    (hfirst : first ≤ first') (hlast : last' ≤ last) : Covers first last s' := by
  intro i hi hi'
  obtain ⟨j, hj, heq⟩ := (hs.mono hfirst hlast).exists_eq ⟨hi, hi'⟩
  rw [heq]
  exact h j hj.1 hj.2

/-- Every element of a range is as asked for. -/
def All (first last : Nat) (P : α → Prop) (s : Elements α) : Prop :=
  ∀ i v, first ≤ i → i < last → s i = some v → P v

theorem All.rearranges {P : α → Prop} (h : All first last P s) (hs : Rearranges first last s s') : All first last P s' := by
  intro i v hi hi' hv
  obtain ⟨j, hj, heq⟩ := hs.exists_eq ⟨hi, hi'⟩
  exact h j v hj.1 hj.2 (heq ▸ hv)

theorem All.elsewhere {first' last' : Nat} {P : α → Prop} (h : All first last P s) (hs : Rearranges first' last' s s')
    (hapart : last ≤ first' ∨ last' ≤ first) : All first last P s' := by
  intro i v hi hi' hv
  apply h i v hi hi'
  rw [← hv]
  exact (hs.eq_outside (by omega)).symm

/-- A call that there is something left to do for. -/
theorem sortQuicksort_succ (cmp : Comparator α) (depth first last : Nat) (s : Elements α) :
    sortQuicksort cmp (depth + 1) first last s =
      if last ≤ (first + 1) % 2 ^ 64 then some s
      else (s first).bind fun pivot =>
        (narrowQuicksort cmp pivot ((first + 1) % 2 ^ 64) last s).bind fun (left, right, s) =>
          (swapQuicksort (ListMemory.countDown left) first s).bind fun s =>
            (sortQuicksort cmp depth first (ListMemory.countDown left) s).bind fun s =>
              sortQuicksort cmp depth right last s :=
  rfl

theorem swap_spec {i j : Nat} (hi : (s i).isSome) (hj : (s j).isSome) :
    swapQuicksort i j s = some (s ∘ Equiv.swap i j) := by
  obtain ⟨v, hv⟩ := Option.isSome_iff_exists.mp hi
  obtain ⟨w, hw⟩ := Option.isSome_iff_exists.mp hj
  rw [swapQuicksort, hv]
  simp only [Option.bind_eq_bind, Option.bind_some, hw]
  congr 1
  funext k
  rw [Function.comp_apply]
  by_cases hkj : k = j
  · rw [hkj, Function.update_self, Equiv.swap_apply_right, hv]
  · rw [Function.update_of_ne hkj]
    by_cases hki : k = i
    · rw [hki, Function.update_self, Equiv.swap_apply_left, hw]
    · rw [Function.update_of_ne hki, Equiv.swap_apply_of_ne_of_ne hki hkj]

/-- The window is narrowed to the place where the greater elements begin. -/
theorem narrow_spec (cmp : Comparator α) (pivot : α) (hle : left ≤ right) (hs : Covers left right s) :
    ∃ place s', narrowQuicksort cmp pivot left right s = some (place, place, s') ∧ left ≤ place ∧ place ≤ right ∧
      Rearranges left right s s' ∧ All left place (fun v => cmp v pivot ≤ 0) s' ∧
      All place right (fun v => ¬ cmp v pivot ≤ 0) s' := by
  fun_induction narrowQuicksort cmp pivot left right s with
  | case1 left right s hlt ih₁ ih₂ =>
      obtain ⟨value, hvalue⟩ := Option.isSome_iff_exists.mp (hs left (Nat.le_refl left) hlt)
      rw [hvalue, Option.bind_eq_bind, Option.bind_some]
      by_cases hsmall : cmp value pivot ≤ 0
      · rw [if_pos hsmall]
        obtain ⟨place, s', hrun, hplace, hplace', hre, hlow, hhigh⟩ :=
          ih₁ (by omega) (hs.mono (by omega) (Nat.le_refl right))
        refine ⟨place, s', hrun, by omega, hplace', hre.mono (by omega) (Nat.le_refl right), ?_, hhigh⟩
        intro i v hi hi' hv
        by_cases heq : i = left
        · rw [heq, hre.eq_outside (by omega), hvalue] at hv
          cases hv
          exact hsmall
        · exact hlow i v (by omega) hi' hv
      · rw [if_neg hsmall]
        have hlast : (s (right - 1)).isSome := hs (right - 1) (by omega) (by omega)
        rw [swap_spec (by rw [hvalue]; rfl) hlast]
        have hswap : Rearranges left right s (s ∘ Equiv.swap left (right - 1)) :=
          .swap ⟨Nat.le_refl left, hlt⟩ ⟨by omega, by omega⟩
        obtain ⟨place, s', hrun, hplace, hplace', hre, hlow, hhigh⟩ := ih₂ (s ∘ Equiv.swap left (right - 1)) (by omega)
          ((hs.rearranges hswap (Nat.le_refl _) (Nat.le_refl _)).mono (Nat.le_refl left) (by omega))
        refine ⟨place, s', hrun, hplace, by omega, hswap.trans (hre.mono (Nat.le_refl left) (by omega)), hlow, ?_⟩
        intro i v hi hi' hv
        by_cases heq : i = right - 1
        · rw [heq, hre.eq_outside (by omega), Function.comp_apply, Equiv.swap_apply_right, hvalue] at hv
          cases hv
          exact hsmall
        · exact hhigh i v hi (by omega) hv
  | case2 left right s hge =>
      have heq : left = right := by omega
      refine ⟨left, s, by rw [heq], Nat.le_refl left, hle, .refl _ _ _, ?_, ?_⟩
      · intro i v hi hi'
        omega
      · intro i v hi hi'
        omega

/-- The elements of a range are in order. -/
def Ordered (cmp : Comparator α) (first last : Nat) (s : Elements α) : Prop :=
  ∀ i j v w, first ≤ i → i < j → j < last → s i = some v → s j = some w → cmp v w ≤ 0

/-- Two ranges in order make one, with an element between them that none of the first is above and none of the second
below. -/
theorem Ordered.join (hcmp : cmp.TotalPreorder) {place : Nat} (hplace : s place = some pivot)
    (hlow : All first place (fun v => cmp v pivot ≤ 0) s) (hhigh : All (place + 1) last (fun v => ¬ cmp v pivot ≤ 0) s)
    (hfirst : Ordered cmp first place s) (hlast : Ordered cmp (place + 1) last s) : Ordered cmp first last s := by
  have hbelow : ∀ i v, first ≤ i → i ≤ place → s i = some v → cmp v pivot ≤ 0 := fun i v hi hi' hv => by
    by_cases heq : i = place
    · rw [heq, hplace] at hv
      cases hv
      exact (hcmp.total pivot pivot).elim id id
    · exact hlow i v hi (by omega) hv
  have habove : ∀ i v, place ≤ i → i < last → s i = some v → cmp pivot v ≤ 0 := fun i v hi hi' hv => by
    by_cases heq : i = place
    · rw [heq, hplace] at hv
      cases hv
      exact (hcmp.total pivot pivot).elim id id
    · exact (hcmp.total v pivot).resolve_left (hhigh i v (by omega) hi' hv)
  intro i j v w hi hij hj hv hw
  by_cases hjplace : j < place
  · exact hfirst i j v w hi hij hjplace hv hw
  · by_cases hiplace : place < i
    · exact hlast i j v w hiplace hij hj hv hw
    · exact hcmp.trans v pivot w (hbelow i v hi (by omega) hv) (habove j w (by omega) hj hw)

/-- A range short of the last number that a size_t holds is sorted, and nothing else is touched. -/
theorem sortQuicksort_spec (cmp : Comparator α) {depth : Nat} (hdepth : last - first < depth) (hlast : last < 2 ^ 64 - 1)
    (hfirst : first < 2 ^ 64 - 1) (hs : Covers first last s) :
    ∃ s', sortQuicksort cmp depth first last s = some s' ∧ Rearranges first last s s' ∧
      (cmp.TotalPreorder → Ordered cmp first last s') := by
  induction depth generalizing first last s with
  | zero => omega
  | succ depth ih =>
      have hnext : (first + 1) % 2 ^ 64 = first + 1 := Nat.mod_eq_of_lt (by omega)
      rw [sortQuicksort_succ, hnext]
      by_cases hshort : last ≤ first + 1
      · rw [if_pos hshort]
        refine ⟨s, rfl, .refl _ _ _, fun _ i j v w hi hij hj => ?_⟩
        omega
      · rw [if_neg hshort]
        obtain ⟨pivot, hpivot⟩ := Option.isSome_iff_exists.mp (hs first (Nat.le_refl first) (by omega))
        obtain ⟨place, s₁, hnarrow, hplace, hplace', hre₁, hlow, hhigh⟩ :=
          narrow_spec cmp pivot (by omega : first + 1 ≤ last) (hs.mono (Nat.le_succ first) (Nat.le_refl last))
        have hdown : ListMemory.countDown place = place - 1 := if_neg (by omega)
        simp only [hpivot, hnarrow, hdown, Option.bind_eq_bind, Option.bind_some]
        have hcovers₁ := hs.rearranges hre₁ (Nat.le_succ first) (Nat.le_refl last)
        have hin : first ≤ place - 1 ∧ place - 1 < last := by omega
        have hin' : first ≤ first ∧ first < last := by omega
        have hswap : Rearranges first last s₁ (s₁ ∘ Equiv.swap (place - 1) first) := .swap hin hin'
        rw [swap_spec (hcovers₁ _ hin.1 hin.2) (hcovers₁ _ hin'.1 hin'.2), Option.bind_some]
        -- the pivot is between the elements that are not greater and those that are
        have hpivot₁ : s₁ first = some pivot := by rw [hre₁.eq_outside (by omega), hpivot]
        generalize hs₂ : s₁ ∘ Equiv.swap (place - 1) first = s₂ at hswap ⊢
        have hpivot₂ : s₂ (place - 1) = some pivot := by
          rw [← hs₂, Function.comp_apply, Equiv.swap_apply_left, hpivot₁]
        have hlow₂ : All first (place - 1) (fun v => cmp v pivot ≤ 0) s₂ := by
          intro i v hi hi' hv
          by_cases heq : i = first
          · rw [heq, ← hs₂, Function.comp_apply, Equiv.swap_apply_right] at hv
            exact hlow (place - 1) v (by omega) (by omega) hv
          · rw [← hs₂, Function.comp_apply, Equiv.swap_apply_of_ne_of_ne (by omega) heq] at hv
            exact hlow i v (by omega) (by omega) hv
        have hhigh₂ : All place last (fun v => ¬ cmp v pivot ≤ 0) s₂ := by
          intro i v hi hi' hv
          rw [← hs₂, Function.comp_apply, Equiv.swap_apply_of_ne_of_ne (by omega) (by omega)] at hv
          exact hhigh i v hi hi' hv
        have hcovers₂ := hcovers₁.rearranges hswap (Nat.le_refl first) (Nat.le_refl last)
        have hbefore : Covers first (place - 1) s₂ := hcovers₂.mono (Nat.le_refl first) (by omega)
        obtain ⟨s₃, hsort₃, hre₃, hordered₃⟩ := ih (by omega) (by omega) hfirst hbefore
        have hcovers₃ := hcovers₂.rearranges hre₃ (Nat.le_refl first) (by omega)
        have hbehind : Covers place last s₃ := hcovers₃.mono (by omega) (Nat.le_refl last)
        obtain ⟨s₄, hsort₄, hre₄, hordered₄⟩ := ih (by omega) hlast (by omega) hbehind
        rw [hsort₃, Option.bind_some, hsort₄]
        refine ⟨s₄, rfl, ?_, fun hcmp => ?_⟩
        · have hwhole₁ := hre₁.mono (Nat.le_succ first) (Nat.le_refl last)
          have hwhole₃ := hre₃.mono (Nat.le_refl first) (by omega : place - 1 ≤ last)
          have hwhole₄ := hre₄.mono (by omega : first ≤ place) (Nat.le_refl last)
          exact ((hwhole₁.trans hswap).trans hwhole₃).trans hwhole₄
        · have hone : place - 1 + 1 = place := by omega
          have hpivot₄ : s₄ (place - 1) = some pivot := by
            rw [hre₄.eq_outside (by omega), hre₃.eq_outside (by omega), hpivot₂]
          have hhigh₄ := (hhigh₂.elsewhere hre₃ (by omega)).rearranges hre₄
          have hlow₄ := (hlow₂.rearranges hre₃).elsewhere hre₄ (by omega)
          have hfirst₄ : Ordered cmp first (place - 1) s₄ := fun i j v w hi hij hj hv hw => by
            rw [hre₄.eq_outside (by omega)] at hv hw
            exact hordered₃ hcmp i j v w hi hij hj hv hw
          rw [← hone] at hhigh₄
          have hlast₄ := hordered₄ hcmp
          rw [← hone] at hlast₄
          exact .join hcmp hpivot₄ hlow₄ hhigh₄ hfirst₄ hlast₄

/-! ## The ranges -/

/-- Wherever a range has its elements, the quicksort on it ends, having touched nothing else: what there is not would end
its run, and what there is elsewhere stays. -/
def StaysInRange (first last : Nat) : Prop :=
  ∀ (α : Type) (cmp : Comparator α) (s : Elements α) (depth : Nat), Covers first last s → last - first < depth →
    ∃ s', sortQuicksort cmp depth first last s = some s' ∧ ∀ i, ¬ (first ≤ i ∧ i < last) → s' i = s i

/-- The number after the first of a range, and after the end of one of two elements or more, are ones of a size_t. -/
def FitsSizeT (first last : Nat) : Prop :=
  (first = 2 ^ 64 - 1 → last = 0) ∧ (last = 2 ^ 64 - 1 → last ≤ first + 1)

instance (first last : Nat) : Decidable (FitsSizeT first last) := inferInstanceAs (Decidable (_ ∧ _))

theorem staysInRange_of_fits (hfirst : first < 2 ^ 64) (hlast : last < 2 ^ 64) (h : FitsSizeT first last) :
    StaysInRange first last := by
  obtain ⟨hstart, hend⟩ := h
  intro α cmp s depth hs hdepth
  by_cases hlong : last ≤ (first + 1) % 2 ^ 64
  · cases depth with
    | zero => cases hdepth
    | succ depth =>
        rw [sortQuicksort_succ, if_pos hlong]
        exact ⟨s, rfl, fun _ _ => rfl⟩
  · have hfirst' : first < 2 ^ 64 - 1 := by
      by_contra hmax
      have hzero := hstart (by omega)
      omega
    have hnext : (first + 1) % 2 ^ 64 = first + 1 := Nat.mod_eq_of_lt (by omega)
    rw [hnext] at hlong
    have hlast' : last < 2 ^ 64 - 1 := by
      by_contra hmax
      exact hlong (hend (by omega))
    obtain ⟨s', hsort, hre, -⟩ := sortQuicksort_spec cmp hdepth hlast' hfirst' hs
    exact ⟨s', hsort, fun i hi => hre.eq_outside hi⟩

/-- From the greatest number of a size_t on the first element is read, which is in no range. -/
theorem not_staysInRange_of_first (h : 0 < last) (hlast : last < 2 ^ 64) : ¬ StaysInRange (2 ^ 64 - 1) last := by
  intro hstays
  have hcovers : Covers (2 ^ 64 - 1) last (fun _ => none : Elements Unit) := fun i hi hi' => by omega
  obtain ⟨s', hsort, -⟩ := hstays Unit (fun _ _ => 0) (fun _ => none) (last - (2 ^ 64 - 1) + 1) hcovers (Nat.lt_succ_self _)
  have hlong : ¬ last ≤ (2 ^ 64 - 1 + 1) % 2 ^ 64 := Nat.not_le.mpr h
  rw [sortQuicksort_succ, if_neg hlong] at hsort
  cases hsort

/-- Up to the greatest number of a size_t, where no element is above the first one, the range that is sorted last begins
at that number. -/
theorem not_staysInRange_of_last (h : first + 1 < 2 ^ 64 - 1) : ¬ StaysInRange first (2 ^ 64 - 1) := by
  intro hstays
  generalize hs : (fun i => if first ≤ i ∧ i < 2 ^ 64 - 1 then some () else none : Elements Unit) = s at *
  have hcovers : Covers first (2 ^ 64 - 1) s := fun i hi hi' => by
    rw [← hs]
    dsimp only
    rw [if_pos ⟨hi, hi'⟩]
    rfl
  obtain ⟨s', hsort, -⟩ := hstays Unit (fun _ _ => 0) s (2 ^ 64 - 1 - first + 1) hcovers (Nat.lt_succ_self _)
  have hnext : (first + 1) % 2 ^ 64 = first + 1 := Nat.mod_eq_of_lt (by omega)
  obtain ⟨pivot, hpivot⟩ := Option.isSome_iff_exists.mp (hcovers first (Nat.le_refl first) (by omega))
  obtain ⟨place, s₁, hnarrow, hplace, hplace', hre₁, -, hhigh⟩ := narrow_spec (fun _ _ => 0) pivot
    (by omega : first + 1 ≤ 2 ^ 64 - 1) (hcovers.mono (Nat.le_succ first) (Nat.le_refl _))
  have hcovers₁ := hcovers.rearranges hre₁ (Nat.le_succ first) (Nat.le_refl _)
  have hend : place = 2 ^ 64 - 1 := by
    by_contra hne
    obtain ⟨v, hv⟩ := Option.isSome_iff_exists.mp (hcovers₁ place (by omega) (by omega))
    exact hhigh place v (Nat.le_refl place) (by omega) hv (Int.le_refl 0)
  have hdown : ListMemory.countDown place = place - 1 := if_neg (by omega)
  rw [sortQuicksort_succ, hnext, if_neg (by omega)] at hsort
  simp only [hpivot, hnarrow, hdown, Option.bind_eq_bind, Option.bind_some] at hsort
  have hin : first ≤ place - 1 ∧ place - 1 < 2 ^ 64 - 1 := by omega
  have hin' : first ≤ first ∧ first < 2 ^ 64 - 1 := by omega
  have hswap : Rearranges first (2 ^ 64 - 1) s₁ (s₁ ∘ Equiv.swap (place - 1) first) := .swap hin hin'
  rw [swap_spec (hcovers₁ _ hin.1 hin.2) (hcovers₁ _ hin'.1 hin'.2), Option.bind_some] at hsort
  have hcovers₂ := hcovers₁.rearranges hswap (Nat.le_refl _) (Nat.le_refl _)
  have hbefore : Covers first (place - 1) (s₁ ∘ Equiv.swap (place - 1) first) :=
    hcovers₂.mono (Nat.le_refl _) (by omega)
  have hdepth : place - 1 - first < 2 ^ 64 - 1 - first := by omega
  obtain ⟨s₃, hsort₃, hre₃, -⟩ := sortQuicksort_spec (fun _ _ : Unit => 0) hdepth (by omega) (by omega) hbefore
  rw [hsort₃, Option.bind_some, hend] at hsort
  -- at the greatest number there is no element
  have hnone : s₃ (2 ^ 64 - 1) = none := by
    rw [hre₃.eq_outside (by omega), hswap.eq_outside (by omega), hre₁.eq_outside (by omega), ← hs]
    exact if_neg (by omega)
  obtain ⟨depth, hnested⟩ : ∃ depth, 2 ^ 64 - 1 - first = depth + 1 := ⟨2 ^ 64 - 1 - first - 1, by omega⟩
  have hwrap : ¬ 2 ^ 64 - 1 ≤ (2 ^ 64 - 1 + 1) % 2 ^ 64 := by decide
  rw [hnested, sortQuicksort_succ, if_neg hwrap, hnone] at hsort
  cases hsort

theorem staysInRange_iff (hfirst : first < 2 ^ 64) (hlast : last < 2 ^ 64) :
    StaysInRange first last ↔ FitsSizeT first last := by
  refine ⟨fun hstays => ⟨fun hmax => ?_, fun hmax => ?_⟩, staysInRange_of_fits hfirst hlast⟩
  · by_contra hpositive
    rw [hmax] at hstays
    exact not_staysInRange_of_first (Nat.pos_of_ne_zero hpositive) hlast hstays
  · by_contra hlong
    rw [hmax] at hstays hlong
    exact not_staysInRange_of_last (Nat.not_le.mp hlong) hstays

/-! ## The lists -/

namespace ListMemory

variable {m m' : ListMemory} {places : List Nat} {pointer : Option Nat} {values : List (Option Nat)}

theorem takeValues_spec (h : Chain m.next pointer places none) : ∃ values,
    m.takeValues places.length pointer = some values ∧ places.map m.value = values.map some := by
  induction places generalizing pointer with
  | nil => exact ⟨[], rfl, rfl⟩
  | cons place places ih =>
      obtain ⟨rfl, pointer', hnext, hrest⟩ := h
      obtain ⟨node, hnode, rfl⟩ := Option.map_eq_some_iff.mp hnext
      have hnode' : m.node (some place) = some node := hnode
      obtain ⟨values, hvalues, hsame⟩ := ih hrest
      refine ⟨node.value :: values, ?_, ?_⟩
      · rw [List.length_cons, takeValues, hnode']
        simp only [Option.bind_eq_bind, Option.bind_some, hvalues]
      · rw [List.map_cons, List.map_cons, hsame, value, hnode]
        rfl

theorem setValue_eq {place : Nat} (item : Option Nat) (h : (m.value place).isSome) :
    ∃ m', m.setValue (some place) item = some m' ∧
      m'.Becomes m.list m.next m.previous (Function.update m.value place (some item)) := by
  obtain ⟨node, hnode⟩ := inUse_iff.mp h
  obtain ⟨hlist, hnext, hprevious, hvalue⟩ := m.becomes_write place (some { node with value := item })
  refine ⟨_, by simp only [setValue, hnode, Option.bind_eq_bind, Option.bind_some], hlist, ?_, ?_, hvalue⟩
  · exact hnext.trans (update_same (by rw [next, hnode]; rfl))
  · exact hprevious.trans (update_same (by rw [previous, hnode]; rfl))

/-- The nodes of a chain are given the values of a sequence, from an index on. -/
theorem putValues_spec {sequence : Elements (Option Nat)} {index : Nat} (h : Chain m.next pointer places none)
    (hvalues : ∀ i < values.length, sequence (index + i) = values[i]?) (hlength : values.length = places.length) :
    ∃ m', putValues sequence places.length index pointer m = some m' ∧ m'.list = m.list ∧ m'.next = m.next ∧
      m'.previous = m.previous ∧ (∀ place, place ∉ places → m'.value place = m.value place) ∧
      places.map m'.value = values.map some := by
  induction places generalizing m pointer values index with
  | nil =>
      cases values with
      | nil => exact ⟨m, rfl, rfl, rfl, rfl, fun _ _ => rfl, rfl⟩
      | cons value values => cases hlength
  | cons place places ih =>
      have hnodup := h.nodup
      obtain ⟨rfl, pointer', hnext, hrest⟩ := h
      cases values with
      | nil => cases hlength
      | cons item values =>
          have hin : (m.value place).isSome := by
            rw [← next_isSome, hnext]
            rfl
          obtain ⟨node, hnode, rfl⟩ := Option.map_eq_some_iff.mp hnext
          have hnode' : m.node (some place) = some node := hnode
          obtain ⟨m₁, hset, hlist₁, hnext₁, hprevious₁, hvalue₁⟩ := setValue_eq item hin
          have hitem : sequence index = some item := hvalues 0 (Nat.succ_pos _)
          have hvalues₁ : ∀ i < values.length, sequence (index + 1 + i) = values[i]? := fun i hi => by
            rw [Nat.add_assoc, Nat.add_comm 1 i, hvalues (i + 1) (Nat.succ_lt_succ hi), List.getElem?_cons_succ]
          obtain ⟨m₂, hput, hlist₂, hnext₂, hprevious₂, hother₂, hvalue₂⟩ :=
            ih (hnext₁ ▸ hrest) hvalues₁ (Nat.succ.inj hlength)
          have hplace : place ∉ places := (List.nodup_cons.mp hnodup).1
          refine ⟨m₂, ?_, hlist₂.trans hlist₁, hnext₂.trans hnext₁, hprevious₂.trans hprevious₁,
            fun other hother => ?_, ?_⟩
          · rw [List.length_cons, putValues, hnode']
            simp only [Option.bind_eq_bind, Option.bind_some, hitem, hset, hput]
          · rw [hother₂ other fun hmem => hother (List.mem_cons_of_mem _ hmem), hvalue₁]
            exact Function.update_of_ne (by rintro rfl; exact hother List.mem_cons_self) _ _
          · rw [List.map_cons, List.map_cons, hvalue₂, hother₂ place hplace, hvalue₁, Function.update_self]

end ListMemory

/-- A sequence with so many elements is that of a list. -/
theorem exists_list {length : Nat} (hs : Covers 0 length s) (hout : ∀ i, length ≤ i → s i = none) :
    ∃ values : List α, values.length = length ∧ s = fun i => values[i]? := by
  refine ⟨List.ofFn fun i : Fin length => (s i).get (hs i (Nat.zero_le _) i.isLt), List.length_ofFn, ?_⟩
  funext i
  rw [List.getElem?_ofFn]
  split
  case isTrue hlt => exact (Option.some_get _).symm
  case isFalse hge => exact hout i (Nat.le_of_not_lt hge)

theorem map_getElem? (values : List α) : (List.range' 0 values.length).map (fun i => values[i]?) = values.map some := by
  apply List.ext_getElem?
  intro i
  rw [List.getElem?_map, List.getElem?_map]
  by_cases hlt : i < values.length
  · rw [List.getElem?_range' hlt, List.getElem?_eq_getElem hlt]
    simp [hlt]
  · rw [List.getElem?_eq_none (by simpa using hlt), List.getElem?_eq_none (Nat.le_of_not_lt hlt)]
    rfl

/-- What a sequence of the values of a list has been sorted into. -/
theorem sortQuicksort_list {values : List α} (hcmp : cmp.TotalPreorder) {depth : Nat} (hdepth : values.length < depth)
    (hsize : values.length < 2 ^ 64 - 1) : ∃ values' : List α,
      sortQuicksort cmp depth 0 values.length (fun i => values[i]?) = some (fun i => values'[i]?) ∧
      values'.Perm values ∧ values'.Pairwise fun a b => cmp a b ≤ 0 := by
  have hcovers : Covers 0 values.length (fun i => values[i]?) := fun i _ hi => by
    dsimp only
    rw [List.getElem?_eq_getElem hi]
    rfl
  have hshort : values.length - 0 < depth := hdepth
  obtain ⟨s', hsort, hre, hordered⟩ := sortQuicksort_spec cmp hshort hsize (by decide) hcovers
  obtain ⟨values', hlength, rfl⟩ := exists_list (hcovers.rearranges hre (Nat.le_refl _) (Nat.le_refl _)) fun i hi => by
    rw [hre.eq_outside (by omega), List.getElem?_eq_none hi]
  refine ⟨values', hsort, ?_, ?_⟩
  · have hperm := hre.perm
    rw [Nat.sub_zero, map_getElem?, ← hlength, map_getElem?] at hperm
    simpa [List.filterMap_map] using hperm.filterMap id
  · rw [List.pairwise_iff_getElem]
    intro i j hi hj hij
    exact hordered hcmp i j _ _ (Nat.zero_le i) hij (by omega) (List.getElem?_eq_getElem hi) (List.getElem?_eq_getElem hj)

/-- Lists whose values have room in a sequence are sorted in place. -/
def SortsLists : Prop :=
  ∀ (cmp : Comparator (Option Nat)) (m : ListMemory) (s : ValueSequence) (depth : Nat), cmp.TotalPreorder →
    m.Represents s → 8 * s.places.length < 2 ^ 64 → s.places.length < depth →
    ∃ (m' : ListMemory) (values values' : List (Option Nat)), m.sortLinkedList cmp depth = some m' ∧
      m'.list = m.list ∧ m'.next = m.next ∧ m'.previous = m.previous ∧
      (∀ place, place ∉ s.places → m'.value place = m.value place) ∧
      s.places.map m.value = values.map some ∧ s.places.map m'.value = values'.map some ∧
      values'.Perm values ∧ values'.Pairwise fun a b => cmp a b ≤ 0

theorem sortsLists : SortsLists := by
  intro cmp m s depth hcmp h hsize hdepth
  obtain ⟨values, htake, hvalues⟩ := ListMemory.takeValues_spec h.forwards
  have hlength : s.places.length = values.length := by simpa using congrArg List.length hvalues
  rw [hlength] at hdepth
  obtain ⟨values', hsort, hperm, hpairwise⟩ := sortQuicksort_list hcmp hdepth (by omega)
  have hput : ∀ i < values'.length, (fun i => values'[i]?) (0 + i) = values'[i]? := fun i _ => by
    dsimp only
    rw [Nat.zero_add]
  obtain ⟨m', hput, hlist, hnext, hprevious, hother, hvalues'⟩ :=
    ListMemory.putValues_spec h.forwards hput (by rw [hperm.length_eq, hlength])
  refine ⟨m', values, values', ?_, hlist, hnext, hprevious, hother, hvalues, hvalues', hperm, hpairwise⟩
  rw [ListMemory.sortLinkedList, ListMemory.toSequenceLinkedList, h.size, htake]
  simp only [Option.bind_eq_bind, Option.bind_some]
  rw [hlength, hsort, Option.bind_some, ← hlength, hput]

/-! ## The comparator of a directory -/

theorem compareNames_neg (first second : List UInt8) : compareNames second first = -compareNames first second := by
  induction first generalizing second with
  | nil => cases second <;> simp [compareNames]
  | cons a first ih =>
      cases second with
      | nil => rfl
      | cons b second =>
          rw [compareNames, compareNames, ih]
          by_cases heq : a = b
          · rw [if_pos heq, if_pos heq.symm]
          · rw [if_neg heq, if_neg (Ne.symm heq)]
            omega

theorem compareNames_trans {first second third : List UInt8} (hfirst : 0 ∉ first)
    (h : compareNames first second ≤ 0) (h' : compareNames second third ≤ 0) : compareNames first third ≤ 0 := by
  induction first generalizing second third with
  | nil =>
      cases third with
      | nil => exact Int.le_refl 0
      | cons c third =>
          rw [compareNames]
          omega
  | cons a first ih =>
      have hpositive : 0 < a.toNat := by
        apply Nat.pos_of_ne_zero
        intro hzero
        have ha : a = 0 := UInt8.toNat_inj.mp hzero
        rw [ha] at hfirst
        exact hfirst List.mem_cons_self
      cases second with
      | nil =>
          rw [compareNames] at h
          omega
      | cons b second =>
          rw [compareNames] at h
          cases third with
          | nil =>
              rw [compareNames] at h' ⊢
              split at h
              case isTrue heq =>
                rw [heq] at hpositive
                omega
              case isFalse => omega
          | cons c third =>
              rw [compareNames] at h' ⊢
              have hne : ∀ {x y : UInt8}, x ≠ y → (x.toNat : Int) - y.toNat ≤ 0 → x.toNat < y.toNat := by
                intro x y hxy hle
                have hvalue : x.toNat ≠ y.toNat := fun heq => hxy (UInt8.toNat_inj.mp heq)
                omega
              by_cases hab : a = b
              · rw [if_pos hab] at h
                rw [hab]
                by_cases hbc : b = c
                · rw [if_pos hbc] at h' ⊢
                  exact ih (fun hmem => hfirst (List.mem_cons_of_mem a hmem)) h h'
                · rwa [if_neg hbc] at h' ⊢
              · rw [if_neg hab] at h
                have hlt := hne hab h
                by_cases hbc : b = c
                · rw [← hbc, if_neg hab]
                  exact h
                · rw [if_neg hbc] at h'
                  have hlt' := hne hbc h'
                  have hac : a ≠ c := by
                    rintro rfl
                    omega
                  rw [if_neg hac]
                  omega

/-- The entries of a directory are put in order by their types, and by their names where these are the same. -/
theorem entryCompareFile_totalPreorder : Comparator.TotalPreorder entryCompareFile where
  total a b := by
    rw [entryCompareFile, entryCompareFile]
    by_cases htype : a.type = b.type
    · rw [if_pos htype, if_pos htype.symm, compareNames_neg]
      omega
    · rw [if_neg htype, if_neg (Ne.symm htype)]
      omega
  trans a b c h h' := by
    have hcode : ∀ {s t : FileType}, s ≠ t → s.code - t.code ≤ 0 → s.code < t.code := by
      intro s t hne hle
      have hcodes : s.code = t.code → s = t := by
        cases s <;> cases t <;> simp [FileType.code]
      have hdifferent : s.code ≠ t.code := fun heq => hne (hcodes heq)
      omega
    rw [entryCompareFile] at h h' ⊢
    by_cases hab : a.type = b.type
    · rw [if_pos hab] at h
      rw [hab]
      by_cases hbc : b.type = c.type
      · rw [if_pos hbc] at h' ⊢
        exact compareNames_trans a.name_ends h h'
      · rwa [if_neg hbc] at h' ⊢
    · rw [if_neg hab] at h
      have hlt := hcode hab h
      by_cases hbc : b.type = c.type
      · rw [← hbc, if_neg hab]
        exact h
      · rw [if_neg hbc] at h'
        have hlt' := hcode hbc h'
        have hac : a.type ≠ c.type := fun heq => by
          rw [heq] at hlt
          omega
        rw [if_neg hac]
        omega

/-- A comparator of the items that values lead to orders the values. -/
theorem Comparator.TotalPreorder.comap {β : Type} {cmp : Comparator β} (h : cmp.TotalPreorder) (item : α → β) :
    Comparator.TotalPreorder fun a b => cmp (item a) (item b) where
  total a b := h.total (item a) (item b)
  trans a b c := h.trans (item a) (item b) (item c)

/-- The listing of a directory is sorted in place, whatever the entries are that its values lead to. -/
theorem directory_sorted (entry : Option Nat → DirectoryEntry) {m : ListMemory} {s : ValueSequence} {depth : Nat}
    (h : m.Represents s) (hsize : 8 * s.places.length < 2 ^ 64) (hdepth : s.places.length < depth) :
    ∃ (m' : ListMemory) (values : List (Option Nat)),
      m.sortLinkedList (fun a b => entryCompareFile (entry a) (entry b)) depth = some m' ∧
      s.places.map m'.value = values.map some ∧ values.Pairwise fun a b => entryCompareFile (entry a) (entry b) ≤ 0 := by
  obtain ⟨m', values, values', hsort, -, -, -, -, -, hvalues', -, hpairwise⟩ :=
    sortsLists _ m s depth (entryCompareFile_totalPreorder.comap entry) h hsize hdepth
  exact ⟨m', values', hsort, hvalues', hpairwise⟩

/-- Lists are sorted in place, and exactly the ranges that the numbers of a size_t go past are not kept to. -/
theorem lists_sorted_ranges_kept (first last : Nat) (hfirst : first < 2 ^ 64) (hlast : last < 2 ^ 64) :
    SortsLists ∧ StaysInRange first last ↔ FitsSizeT first last := by
  rw [staysInRange_iff hfirst hlast]
  exact ⟨fun h => h.2, fun h => ⟨sortsLists, h⟩⟩

theorem lists_sorted_ranges_kept_ten : SortsLists ∧ StaysInRange 0 10 ↔ FitsSizeT 0 10 :=
  lists_sorted_ranges_kept 0 10 (by decide) (by decide)

/-- A range that ends before it begins, at the greatest number of a size_t. -/
theorem not_lists_sorted_ranges_kept : ¬ ∀ first last, first < 2 ^ 64 → last < 2 ^ 64 →
    SortsLists ∧ StaysInRange first last :=
  fun h => not_staysInRange_of_first (by decide) (by decide) (h (2 ^ 64 - 1) 1 (by decide) (by decide)).2

end Viriatum
