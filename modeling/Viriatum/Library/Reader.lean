import Mathlib.Data.List.Induction

/-!
# Readers that are fed in parts

A reader makes items out of the symbols at hand, and lacks symbols until an item is complete. A machine handles the items
one after another, and holds the symbols that do not make one yet; what it does with a sequence of symbols does not depend
on the parts that they come in.
-/

namespace Viriatum.Library

variable {α β σ : Type}

/-- What a reader makes of symbols takes some of them, and stays the same with more of them behind. -/
structure Stable (read : List β → Option (α × Nat)) : Prop where
  takes : ∀ {held item size}, read held = some (item, size) → 0 < size ∧ size ≤ held.length
  more : ∀ {held item size} later, read held = some (item, size) → read (held ++ later) = some (item, size)

variable (read : List β → Option (α × Nat)) (handle : σ → α → σ) (final : σ → Prop) [DecidablePred final]

/-- Handles the items that symbols make, one after another, until more symbols are lacking or the state is final; no
symbols are held then. The rounds are bounded. -/
def consume : Nat → σ → List β → σ × List β
  | 0, s, held => (s, held)
  | rounds + 1, s, held =>
      match read held with
      | none => (s, held)
      | some (item, size) =>
          if final (handle s item) then (handle s item, []) else consume rounds (handle s item) (held.drop size)

variable {read handle final} {s : σ} {held later : List β}

/-- As many rounds as there are symbols are enough. -/
theorem consume_rounds (h : Stable read) {rounds rounds' : Nat} (hle : held.length ≤ rounds) (hle' : held.length ≤ rounds') :
    consume read handle final rounds s held = consume read handle final rounds' s held := by
  have hnil : ∀ (s : σ) (rounds : Nat), consume read handle final rounds s [] = (s, []) := by
    intro s rounds
    cases rounds with
    | zero => rfl
    | succ rounds =>
        cases hread : read [] with
        | none => simp [consume, hread]
        | some result =>
            obtain ⟨item, size⟩ := result
            obtain ⟨hpos, hle⟩ := h.takes hread
            exact absurd hle (by simp; omega)
  induction rounds generalizing s held rounds' with
  | zero =>
      obtain rfl : held = [] := List.length_eq_zero_iff.mp (Nat.le_zero.mp hle)
      rw [hnil, hnil]
  | succ rounds ih =>
      cases rounds' with
      | zero =>
          obtain rfl : held = [] := List.length_eq_zero_iff.mp (Nat.le_zero.mp hle')
          rw [hnil, hnil]
      | succ rounds' =>
          simp only [consume]
          cases hread : read held with
          | none => rfl
          | some result =>
              obtain ⟨item, size⟩ := result
              obtain ⟨hpos, -⟩ := h.takes hread
              have hrest : (held.drop size).length ≤ rounds ∧ (held.drop size).length ≤ rounds' := by
                simp only [List.length_drop]
                omega
              simp only [ih hrest.1 hrest.2]

variable (read handle final) in
/-- Symbols that come are handled with the ones that are held. -/
def feed (machine : σ × List β) (part : List β) : σ × List β :=
  let held := machine.2 ++ part
  consume read handle final held.length machine.1 held

/-- Symbols that come behind others are handled as if the others had come first, unless a final state is reached before
them: then they make no difference. -/
theorem consume_append (h : Stable read) (hs : ¬ final s) {rounds : Nat} (hrounds : held.length ≤ rounds) :
    ∀ {more : Nat}, (held ++ later).length ≤ more →
      let result := consume read handle final rounds s held
      if final result.1 then consume read handle final more s (held ++ later) = result ∧ result.2 = []
      else consume read handle final more s (held ++ later) = feed read handle final result later := by
  induction rounds generalizing s held with
  | zero =>
      intro more hmore
      obtain rfl : held = [] := List.length_eq_zero_iff.mp (Nat.le_zero.mp hrounds)
      simp only [consume, if_neg hs, feed]
      exact consume_rounds h hmore (Nat.le_refl _)
  | succ rounds ih =>
      intro more hmore
      cases hread : read held with
      | none =>
          simp only [consume, hread, if_neg hs, feed]
          exact consume_rounds h hmore (Nat.le_refl _)
      | some result =>
          obtain ⟨item, size⟩ := result
          obtain ⟨hpos, hsize⟩ := h.takes hread
          cases more with
          | zero => simp at hmore; simp [hmore.1] at hsize; omega
          | succ more =>
              simp only [consume, hread, h.more later hread]
              split
              case isTrue hfinal => simp
              case isFalse hfinal =>
                rw [List.drop_append_of_le_length hsize]
                apply ih hfinal
                · simp only [List.length_drop]
                  omega
                · simp only [List.length_append, List.length_drop] at hmore ⊢
                  omega

/-- What is observed of the states does not depend on the parts that symbols come in, where a final state that is reached
shows the same whatever comes behind. -/
theorem observe_feed {ω : Type} (observe : σ → ω) {I : σ → Prop} (h : Stable read) (hs : ¬ final s)
    (hreach : ∀ rounds held, final (consume read handle final rounds s held).1 →
      I (consume read handle final rounds s held).1)
    (hfinal : ∀ machine part, final machine.1 → I machine.1 →
      final (feed read handle final machine part).1 ∧ I (feed read handle final machine part).1 ∧
        observe (feed read handle final machine part).1 = observe machine.1) (parts : List (List β)) :
    observe (parts.foldl (feed read handle final) (s, [])).1 =
      observe (consume read handle final parts.flatten.length s parts.flatten).1 := by
  have hfed : let fed := parts.foldl (feed read handle final) (s, [])
      let result := consume read handle final parts.flatten.length s parts.flatten
      final result.1 ∧ final fed.1 ∧ I fed.1 ∧ observe fed.1 = observe result.1 ∨ ¬ final result.1 ∧ fed = result := by
    induction parts using List.reverseRecOn with
    | nil => exact .inr ⟨hs, rfl⟩
    | append_singleton parts part ih =>
        have hparts : (parts ++ [part]).flatten = parts.flatten ++ part := by simp
        have happend : let result := consume read handle final parts.flatten.length s parts.flatten
            let total := consume read handle final (parts.flatten ++ part).length s (parts.flatten ++ part)
            if final result.1 then total = result ∧ result.2 = [] else total = feed read handle final result part :=
          consume_append h hs (Nat.le_refl _) (Nat.le_refl _)
        simp only [List.foldl_append, List.foldl_cons, List.foldl_nil, hparts]
        rcases ih with ⟨hresult, hfed, hI, hsame⟩ | ⟨hresult, hfed⟩
        · obtain ⟨htotal, -⟩ := by simpa only [hresult, if_true] using happend
          obtain ⟨hfed', hI', hsame'⟩ := hfinal _ part hfed hI
          rw [htotal]
          exact .inl ⟨hresult, hfed', hI', hsame'.trans hsame⟩
        · have htotal := by simpa only [hresult, if_false] using happend
          rw [← hfed] at htotal
          by_cases hlast : final (consume read handle final (parts.flatten ++ part).length s (parts.flatten ++ part)).1
          · have hI := hreach _ _ hlast
            rw [htotal] at hlast hI ⊢
            exact .inl ⟨hlast, hlast, hI, rfl⟩
          · exact .inr ⟨hlast, htotal.symm⟩
  rcases hfed with ⟨-, -, -, hsame⟩ | ⟨-, hsame⟩
  · exact hsame
  · rw [hsame]

/-! ## Groups of items -/

variable (ends : α → Bool)

/-- The groups that items make, each of them ended by an item that ends one, behind the items of a group begun before. -/
def groups (pending : List α) : List α → List (List α)
  | [] => []
  | item :: items => if ends item then (pending ++ [item]) :: groups [] items else groups (pending ++ [item]) items

/-- The items of the group that has not ended. -/
def remainder (pending : List α) : List α → List α
  | [] => pending
  | item :: items => if ends item then remainder [] items else remainder (pending ++ [item]) items

variable {ends} {items pending : List α} {item : α}

theorem groups_concat :
    groups ends pending (items ++ [item]) =
      groups ends pending items ++ if ends item then [remainder ends pending items ++ [item]] else [] := by
  induction items generalizing pending with
  | nil => cases h : ends item <;> simp [groups, remainder, h]
  | cons first items ih => cases h : ends first <;> simp [groups, remainder, h, ih]

theorem remainder_concat :
    remainder ends pending (items ++ [item]) = if ends item then [] else remainder ends pending items ++ [item] := by
  induction items generalizing pending with
  | nil => cases h : ends item <;> simp [remainder, h]
  | cons first items ih => cases h : ends first <;> simp [remainder, h, ih]

end Viriatum.Library
