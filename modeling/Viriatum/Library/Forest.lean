import Mathlib.Data.Finset.Card
import Mathlib.Logic.Function.Basic
import Mathlib.Logic.Relation

/-!
# Forests

A forest gives some elements a parent. It is grounded when every walk up ends; the lemmas below tell which changes
of the parents keep it grounded and how many steps a walk takes.
-/

namespace Viriatum.Library

abbrev Forest (α : Type) := α → Option α

namespace Forest

variable {α : Type} {p r : Forest α} {a b c x y : α}

def Up (p : Forest α) (a b : α) : Prop := p a = some b

/-- The walk up from `a`, which starts at `a` itself, meets `b`. -/
def Above (p : Forest α) : α → α → Prop := Relation.ReflTransGen (Up p)

/-- Every walk up ends. -/
def Grounded (p : Forest α) : Prop := ∀ a, Acc (fun b a => Up p a b) a

/-! ## Walks -/

theorem Above.step (h : p a = some b) (h' : Above p b c) : Above p a c := Relation.ReflTransGen.head h h'

theorem Above.eq_of_none (h : Above p a b) (ha : p a = none) : a = b := by
  cases h.cases_head with
  | inl h => exact h
  | inr h =>
      obtain ⟨c, hc, _⟩ := h
      simp [Up, ha] at hc

theorem Above.of_ne (h : Above p a b) (hne : a ≠ b) : ∃ c, p a = some c ∧ Above p c b := by
  cases h.cases_head with
  | inl h => exact absurd h hne
  | inr h => exact h

/-- A walk along which nothing changes stays as it is. -/
theorem Above.congr (hr : ∀ z, Above p a z → r z = p z) (h : Above r a b) : Above p a b := by
  induction h with
  | refl => exact Relation.ReflTransGen.refl
  | tail _ hstep ih => exact ih.tail ((hr _ ih).symm.trans hstep)

theorem Grounded.not_cycle (hp : Grounded p) : ¬ Relation.TransGen (Up p) a a := by
  intro h
  induction hp a with
  | intro a _ ih =>
      obtain ⟨b, hab, hba⟩ := Relation.TransGen.head'_iff.mp h
      exact ih b hab (Relation.TransGen.tail' hba hab)

theorem Grounded.not_above (hp : Grounded p) (h : p a = some b) : ¬ Above p b a := by
  intro hba
  exact hp.not_cycle (Relation.TransGen.head' h hba)

theorem Grounded.ne (hp : Grounded p) (h : p a = some b) : a ≠ b := by
  rintro rfl
  exact hp.not_above h Relation.ReflTransGen.refl

/-- Two elements that are above each other are the same. -/
theorem Grounded.antisymm (hp : Grounded p) (hab : Above p a b) (hba : Above p b a) : a = b := by
  by_contra hne
  obtain ⟨c, hc, hcb⟩ := hab.of_ne hne
  exact hp.not_above hc (hcb.trans hba)

/-! ## Changes -/

theorem acc_of_unchanged (h : Acc (fun b a => Up p a b) a) (hr : ∀ z, Above p a z → r z = p z) :
    Acc (fun b a => Up r a b) a := by
  induction h with
  | intro a _ ih =>
      refine Acc.intro a fun b hb => ?_
      have hpb : p a = some b := (hr a Relation.ReflTransGen.refl).symm.trans hb
      exact ih b hpb fun z hz => hr z (Above.step hpb hz)

/-- A forest stays grounded when every parent that changes is one from which the walk ends. -/
theorem Grounded.regraft (hp : Grounded p) (hr : ∀ a, r a = p a ∨ ∀ b, r a = some b → Acc (fun b a => Up r a b) b) :
    Grounded r := by
  intro a
  induction hp a with
  | intro a _ ih =>
      refine Acc.intro a fun b hb => ?_
      cases hr a with
      | inl h => exact ih b (h.symm.trans hb)
      | inr h => exact h b hb

variable [DecidableEq α]

/-- Hangs an element from another one. -/
def hang (p : Forest α) (x y : α) : Forest α := Function.update p x (some y)

theorem hang_of_ne (h : a ≠ x) : hang p x y a = p a := Function.update_of_ne h _ _

theorem hang_self : hang p x y x = some y := Function.update_self _ _ _

theorem unchanged_of_not_above (h : ¬ Above p a x) : ∀ z, Above p a z → hang p x y z = p z := by
  intro z hz
  apply hang_of_ne
  rintro rfl
  exact h hz

theorem Grounded.hang (hp : Grounded p) (h : ¬ Above p y x) : Grounded (hang p x y) := by
  refine hp.regraft fun a => ?_
  by_cases ha : a = x
  · subst ha
    right
    intro b hb
    rw [hang_self, Option.some.injEq] at hb
    subst hb
    exact acc_of_unchanged (hp y) (unchanged_of_not_above h)
  · exact Or.inl (hang_of_ne ha)

/-- An element that hangs from one that it is above is on a cycle. -/
theorem not_grounded_hang (h : Above p y x) : ¬ Grounded (Forest.hang p x y) := by
  intro hg
  have hcycle : ∀ a, Above p a x → Above (Forest.hang p x y) a x := by
    intro a ha
    induction ha using Relation.ReflTransGen.head_induction_on with
    | refl => exact Relation.ReflTransGen.refl
    | @head a c hstep _ ih =>
        by_cases hax : a = x
        · subst hax
          exact Relation.ReflTransGen.refl
        · exact Above.step ((hang_of_ne hax).trans hstep) ih
  exact hg.not_above hang_self (hcycle y h)

/-- An element below `x` that takes the place of `x` is no longer below it. -/
theorem Grounded.not_above_hang (hp : Grounded p) (hx : p x = some c) (hne : a ≠ x) (ha : Above p a x) :
    ¬ Above (Forest.hang p a c) a x := by
  intro h
  obtain ⟨d, hd, hdx⟩ := h.of_ne hne
  rw [hang_self, Option.some.injEq] at hd
  subst hd
  have hca : ¬ Above p c a := fun hca => hp.not_above hx (hca.trans ha)
  exact hp.not_above hx (hdx.congr (unchanged_of_not_above hca))

/-- Hangs `x` from `y` and everything that hung from `y` from `x`. -/
def intrude (p : Forest α) (x y : α) : Forest α := fun a =>
  if a = x then some y else if p a = some y then some x else p a

theorem Grounded.intrude (hp : Grounded p) (h : ¬ Above p y x) : Grounded (intrude p x y) := by
  have hy : ∀ z, Above p y z → Forest.intrude p x y z = p z := by
    intro z hz
    have hzx : z ≠ x := by
      rintro rfl
      exact h hz
    have hzy : p z ≠ some y := fun hzy => hp.not_above hzy hz
    simp [Forest.intrude, hzx, hzy]
  have hyacc := acc_of_unchanged (hp y) hy
  have hxacc : Acc (fun b a => Up (Forest.intrude p x y) a b) x := by
    refine Acc.intro x fun b hb => ?_
    simp only [Up, Forest.intrude, if_true, Option.some.injEq] at hb
    subst hb
    exact hyacc
  refine hp.regraft fun a => ?_
  unfold Forest.intrude
  split
  · right
    intro b hb
    cases hb
    exact hyacc
  · split
    · right
      intro b hb
      cases hb
      exact hxacc
    · exact Or.inl rfl

/-- Takes `x` out, what hung from it hanging from its parent. -/
def prune (p : Forest α) (x : α) : Forest α := fun a =>
  if a = x then none else if p a = some x then p x else p a

theorem Grounded.prune (hp : Grounded p) : Grounded (prune p x) := by
  intro a
  have key : ∀ a, Acc (fun b a => Up (Forest.prune p x) a b) a ∧
      ∀ b, p a = some b → Acc (fun b a => Up (Forest.prune p x) a b) b := by
    intro a
    induction hp a with
    | intro a _ ih =>
        refine ⟨Acc.intro a fun b hb => ?_, fun b hb => (ih b hb).1⟩
        simp only [Up, Forest.prune] at hb
        split at hb
        · cases hb
        · split at hb
          case isTrue h => exact (ih x h).2 b hb
          case isFalse => exact (ih b hb).1
  exact (key a).1

/-! ## Bounded walks -/

/-- Whether the walk up from `a` meets `b` within a number of steps. -/
def meets (p : Forest α) : (steps : Nat) → α → α → Bool
  | 0, _, _ => false
  | steps + 1, a, b =>
      if a = b then true
      else
        match p a with
        | none => false
        | some c => meets p steps c b

theorem above_of_meets {n : Nat} (h : meets p n a b = true) : Above p a b := by
  induction n generalizing a with
  | zero => cases h
  | succ n ih =>
      simp only [meets] at h
      split at h
      case isTrue hab =>
        subst hab
        exact Relation.ReflTransGen.refl
      case isFalse =>
        split at h
        case h_1 => cases h
        case h_2 c hc => exact Above.step hc (ih h)

theorem meets_mono {n m : Nat} (hnm : n ≤ m) (h : meets p n a b = true) : meets p m a b = true := by
  induction n generalizing a m with
  | zero => cases h
  | succ n ih =>
      obtain ⟨m, rfl⟩ : ∃ k, m = k + 1 := ⟨m - 1, by omega⟩
      simp only [meets] at h ⊢
      split at h
      case isTrue hab => rw [if_pos hab]
      case isFalse hab =>
        rw [if_neg hab]
        split at h
        case h_1 => cases h
        case h_2 => exact ih (by omega) h

open Classical in
/-- The elements of a list that a walk up meets. -/
noncomputable def met (p : Forest α) (elements : List α) (a : α) : Finset α :=
  elements.toFinset.filter (Above p a)

theorem mem_met {elements : List α} : x ∈ met p elements a ↔ x ∈ elements ∧ Above p a x := by
  simp [met]

theorem card_met_le {elements : List α} : (met p elements a).card ≤ elements.length := by
  classical
  exact (Finset.card_filter_le _ _).trans (List.toFinset_card_le _)

theorem Grounded.card_met_lt (hp : Grounded p) {elements : List α} (ha : a ∈ elements) (h : p a = some c) :
    (met p elements c).card < (met p elements a).card := by
  apply Finset.card_lt_card
  refine ⟨fun z hz => ?_, fun hsub => ?_⟩
  · rw [mem_met] at hz ⊢
    exact ⟨hz.1, Above.step h hz.2⟩
  · have hac := hsub (mem_met.mpr ⟨ha, Relation.ReflTransGen.refl⟩)
    exact hp.not_above h (mem_met.mp hac).2

/-- As many steps as there are elements are enough for a walk to meet whatever it meets. -/
theorem Grounded.meets_iff (hp : Grounded p) {elements : List α} (hdom : ∀ z, p z ≠ none → z ∈ elements)
    (hb : p b ≠ none) : meets p elements.length a b = true ↔ Above p a b := by
  refine ⟨above_of_meets, fun h => meets_mono (card_met_le : (met p elements a).card ≤ _) ?_⟩
  induction h using Relation.ReflTransGen.head_induction_on with
  | refl =>
      have hpos : 0 < (met p elements b).card :=
        Finset.card_pos.mpr ⟨b, mem_met.mpr ⟨hdom b hb, Relation.ReflTransGen.refl⟩⟩
      obtain ⟨n, hn⟩ : ∃ n, (met p elements b).card = n + 1 := ⟨_, (Nat.succ_pred_eq_of_pos hpos).symm⟩
      simp [hn, meets]
  | @head a c hstep _ ih =>
      have hstep : p a = some c := hstep
      have hlt := hp.card_met_lt (hdom a (by simp [hstep])) hstep
      obtain ⟨n, hn⟩ : ∃ n, (met p elements a).card = n + 1 := ⟨_, (Nat.succ_pred_eq_of_pos (by omega)).symm⟩
      rw [hn, meets]
      split
      · rfl
      · simp only [hstep]
        exact meets_mono (by omega) ih

/-- Whether the walk up from `a` meets an element with a parent that satisfies `P`, within a number of steps. -/
def meetsSome (p : Forest α) (P : α → Bool) : (steps : Nat) → α → Bool
  | 0, _ => false
  | steps + 1, a =>
      match p a with
      | none => false
      | some c => if P a then true else meetsSome p P steps c

omit [DecidableEq α] in
theorem above_of_meetsSome {P : α → Bool} {n : Nat} (h : meetsSome p P n a = true) :
    ∃ b, Above p a b ∧ p b ≠ none ∧ P b = true := by
  induction n generalizing a with
  | zero => cases h
  | succ n ih =>
      simp only [meetsSome] at h
      split at h
      case h_1 => cases h
      case h_2 c hc =>
        split at h
        case isTrue hP => exact ⟨a, Relation.ReflTransGen.refl, by simp [hc], hP⟩
        case isFalse =>
          obtain ⟨b, hb, hrest⟩ := ih h
          exact ⟨b, Above.step hc hb, hrest⟩

omit [DecidableEq α] in
theorem meetsSome_mono {P : α → Bool} {n m : Nat} (hnm : n ≤ m) (h : meetsSome p P n a = true) :
    meetsSome p P m a = true := by
  induction n generalizing a m with
  | zero => cases h
  | succ n ih =>
      obtain ⟨m, rfl⟩ : ∃ k, m = k + 1 := ⟨m - 1, by omega⟩
      simp only [meetsSome] at h ⊢
      split at h
      case h_1 => cases h
      case h_2 =>
        split at h
        case isTrue hP => rw [if_pos hP]
        case isFalse hP =>
          rw [if_neg hP]
          exact ih (by omega) h

theorem Grounded.meetsSome_iff (hp : Grounded p) {P : α → Bool} {elements : List α}
    (hdom : ∀ z, p z ≠ none → z ∈ elements) :
    meetsSome p P elements.length a = true ↔ ∃ b, Above p a b ∧ p b ≠ none ∧ P b = true := by
  refine ⟨above_of_meetsSome, ?_⟩
  rintro ⟨b, hab, hb, hP⟩
  refine meetsSome_mono (card_met_le : (met p elements a).card ≤ _) ?_
  induction hab using Relation.ReflTransGen.head_induction_on with
  | refl =>
      have hpos : 0 < (met p elements b).card :=
        Finset.card_pos.mpr ⟨b, mem_met.mpr ⟨hdom b hb, Relation.ReflTransGen.refl⟩⟩
      obtain ⟨n, hn⟩ : ∃ n, (met p elements b).card = n + 1 := ⟨_, (Nat.succ_pred_eq_of_pos hpos).symm⟩
      obtain ⟨c, hc⟩ := Option.ne_none_iff_exists'.mp hb
      simp [hn, meetsSome, hc, hP]
  | @head a c hstep _ ih =>
      have hstep : p a = some c := hstep
      have hlt := hp.card_met_lt (hdom a (by simp [hstep])) hstep
      obtain ⟨n, hn⟩ : ∃ n, (met p elements a).card = n + 1 := ⟨_, (Nat.succ_pred_eq_of_pos (by omega)).symm⟩
      rw [hn, meetsSome]
      simp only [hstep]
      split
      · rfl
      · exact meetsSome_mono (by omega) ih

/-- The element that the walk up comes to after a number of steps. -/
def ancestor (p : Forest α) : (steps : Nat) → α → Option α
  | 0, a => some a
  | steps + 1, a => (p a).bind (ancestor p steps)

/-- A walk ends at an element without a parent within as many steps as there are elements. -/
theorem Grounded.ends (hp : Grounded p) {elements : List α} (hdom : ∀ z, p z ≠ none → z ∈ elements) (a : α) :
    ∃ steps root, steps ≤ elements.length ∧ ancestor p steps a = some root ∧ p root = none := by
  suffices h : ∃ steps root, steps ≤ (met p elements a).card ∧ ancestor p steps a = some root ∧ p root = none by
    obtain ⟨steps, root, hle, h⟩ := h
    exact ⟨steps, root, hle.trans card_met_le, h⟩
  induction hp a with
  | intro a _ ih =>
      cases hpa : p a with
      | none => exact ⟨0, a, Nat.zero_le _, rfl, hpa⟩
      | some c =>
          obtain ⟨steps, root, hle, hroot⟩ := ih c hpa
          have hlt := hp.card_met_lt (hdom a (by simp [hpa])) hpa
          exact ⟨steps + 1, root, by omega, by simpa [ancestor, hpa] using hroot⟩

end Forest

end Viriatum.Library
