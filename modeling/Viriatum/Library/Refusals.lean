import Viriatum.Library.Traces

/-!
# Calls that are refused

A machine answers each call with whether it has been taken. Where no call that is refused leaves a trace, a run comes to
what the calls that are taken come to by themselves. A call whose items are stored one after the other, up to the first
malformed one, leaves the items before that one behind.
-/

namespace Viriatum.Library

variable {σ ι : Type} (call : σ → ι → σ × Bool)

/-- The state after a call. -/
def proceed (s : σ) (input : ι) : σ := (call s input).1

/-- If a call is refused, the state is what it was before. -/
def Traceless (s : σ) (input : ι) : Prop := (call s input).2 = false → proceed call s input = s

/-- The calls of a run that are taken. -/
def accepted : σ → List ι → List ι
  | _, [] => []
  | s, input :: inputs =>
      if (call s input).2 then input :: accepted (proceed call s input) inputs
      else accepted (proceed call s input) inputs

variable {call} {s : σ}

/-- The calls that are taken lead where the run leads. -/
theorem foldl_accepted {inputs : List ι} (h : Throughout (proceed call) (Traceless call) s inputs) :
    (accepted call s inputs).foldl (proceed call) s = inputs.foldl (proceed call) s := by
  induction inputs generalizing s with
  | nil => rfl
  | cons input inputs ih =>
      obtain ⟨htrace, h⟩ := h
      rw [accepted, List.foldl_cons, ← ih h]
      cases htaken : (call s input).2 with
      | true => rfl
      | false =>
          rw [if_neg Bool.false_ne_true, htrace htaken]

/-- A condition that tells of every call whether it leaves a trace tells so of every run. -/
theorem traceless_iff_throughout {condition : σ → ι → Prop}
    (hcall : ∀ s input, Traceless call s input ↔ condition s input) (inputs : List ι) :
    Throughout (proceed call) (Traceless call) s inputs ↔ Throughout (proceed call) condition s inputs := by
  induction inputs generalizing s with
  | nil => exact Iff.rfl
  | cons input inputs ih => exact and_congr (hcall s input) ih

/-! ## Items that are stored one after the other -/

section Fill

variable {α : Type} (max : Nat) (count : σ → Nat) (malformed : α → Prop) [DecidablePred malformed] (add : σ → α → σ)

/-- Stores items as far as there is room, up to the first malformed one, and gives back whether none has been met. -/
def fill : List α → σ → σ × Bool
  | [], s => (s, true)
  | item :: items, s =>
      if max ≤ count s then (s, true) else if malformed item then (s, false) else fill items (add s item)

/-- The items that are stored: those before the first malformed one, as far as there is room for them. -/
def filled (items : List α) (s : σ) : List α :=
  (items.take (max - count s)).takeWhile fun item => ¬ malformed item

variable {max count malformed add} {items : List α}

theorem fill_eq (hadd : ∀ s item, ¬ malformed item → count (add s item) = count s + 1) (items : List α) (s : σ) :
    fill max count malformed add items s =
      ((filled max count malformed items s).foldl add s,
        !decide (∃ item ∈ items.take (max - count s), malformed item)) := by
  induction items generalizing s with
  | nil => simp [fill, filled]
  | cons item items ih =>
      rw [fill]
      by_cases hfull : max ≤ count s
      · simp [filled, hfull, Nat.sub_eq_zero_of_le hfull]
      · rw [if_neg hfull]
        obtain ⟨room, hroom⟩ := Nat.exists_eq_succ_of_ne_zero (Nat.sub_ne_zero_of_lt (Nat.not_le.mp hfull))
        by_cases hitem : malformed item
        · simp [filled, hroom, hitem]
        · have hrest : max - count (add s item) = room := by
            rw [hadd s item hitem]
            omega
          rw [if_neg hitem, ih, filled, filled, hroom, hrest]
          simp [hitem]

omit [DecidablePred malformed] in
variable (count) in
theorem count_foldl (hadd : ∀ s item, ¬ malformed item → count (add s item) = count s + 1) {items : List α}
    (hitems : ∀ item ∈ items, ¬ malformed item) (s : σ) : count (items.foldl add s) = count s + items.length := by
  induction items generalizing s with
  | nil => rfl
  | cons item items ih =>
      rw [List.foldl_cons, ih (fun item hmem => hitems item (List.mem_cons_of_mem _ hmem)),
        hadd s item (hitems item List.mem_cons_self), List.length_cons]
      omega

/-- Behind an error, the items that are stored are all those before the malformed one. -/
theorem filled_of_malformed (h : ∃ item ∈ items.take (max - count s), malformed item) :
    filled max count malformed items s = items.takeWhile fun item => ¬ malformed item := by
  rw [filled]
  generalize max - count s = room at h ⊢
  induction items generalizing room with
  | nil => simp
  | cons item items ih =>
      cases room with
      | zero => simp at h
      | succ room =>
          rw [List.take_succ_cons] at h ⊢
          by_cases hitem : malformed item
          · simp [hitem]
          · have hrest : ∃ item ∈ items.take room, malformed item := by simpa [hitem] using h
            rw [List.takeWhile_cons, List.takeWhile_cons, ih room hrest]

theorem not_malformed_of_filled {item : α} (h : item ∈ filled max count malformed items s) : ¬ malformed item := by
  simpa using List.all_eq_true.mp List.all_takeWhile item h

/-- Nothing is stored exactly where the first of the items is the malformed one. -/
theorem filled_eq_nil (h : ∃ item ∈ items.take (max - count s), malformed item) :
    filled max count malformed items s = [] ↔ items.head?.any malformed := by
  cases items with
  | nil => simp at h
  | cons item items =>
      cases hroom : max - count s with
      | zero => simp [hroom] at h
      | succ room => simp [filled, hroom, List.takeWhile_cons]

end Fill

end Viriatum.Library
