import Viriatum.Library.Bits

/-!
# Code trees

Binary trees with symbols at their leaves. The way down to a leaf, as a sequence of bits, is the word of its symbol.
-/

namespace Viriatum.Library

inductive CodeTree (ν α : Type) where
  | leaf (note : ν) (symbol : α)
  | node (note : ν) (left right : CodeTree ν α)
deriving DecidableEq, Repr

namespace CodeTree

variable {ν α : Type} {t left right : CodeTree ν α} {word word' rest rest' : List Bool} {a b : α}

def symbols : CodeTree ν α → List α
  | leaf _ symbol => [symbol]
  | node _ left right => left.symbols ++ right.symbols

def depth : CodeTree ν α → Nat
  | leaf _ _ => 0
  | node _ left right => max left.depth right.depth + 1

/-- The word leads from the root to the leaf of the symbol. -/
inductive Word : CodeTree ν α → List Bool → α → Prop
  | leaf (note : ν) (symbol : α) : Word (.leaf note symbol) [] symbol
  | left {left right word symbol} (note : ν) : Word left word symbol → Word (.node note left right) (false :: word) symbol
  | right {left right word symbol} (note : ν) : Word right word symbol → Word (.node note left right) (true :: word) symbol

theorem Word.mem (h : Word t word a) : a ∈ t.symbols := by
  induction h with
  | leaf => exact List.mem_singleton.mpr rfl
  | left _ _ ih => exact List.mem_append_left _ ih
  | right _ _ ih => exact List.mem_append_right _ ih

theorem Word.length_le (h : Word t word a) : word.length ≤ t.depth := by
  induction h with
  | leaf => exact Nat.le_refl 0
  | left _ _ ih => exact Nat.succ_le_succ (Nat.le_trans ih (Nat.le_max_left _ _))
  | right _ _ ih => exact Nat.succ_le_succ (Nat.le_trans ih (Nat.le_max_right _ _))

theorem exists_word (h : a ∈ t.symbols) : ∃ word, Word t word a := by
  induction t with
  | leaf note symbol =>
      cases List.mem_singleton.mp h
      exact ⟨[], .leaf note a⟩
  | node note left right ihl ihr =>
      cases List.mem_append.mp h with
      | inl h =>
          obtain ⟨word, hword⟩ := ihl h
          exact ⟨false :: word, .left note hword⟩
      | inr h =>
          obtain ⟨word, hword⟩ := ihr h
          exact ⟨true :: word, .right note hword⟩

/-- Where the symbols are different ones, each has a single word. -/
theorem Word.unique (hnodup : t.symbols.Nodup) (h : Word t word a) (h' : Word t word' a) : word = word' := by
  induction h generalizing word' with
  | leaf =>
      cases h'
      rfl
  | left _ h ih =>
      rw [symbols, List.nodup_append] at hnodup
      cases h' with
      | left _ h' => rw [ih hnodup.1 h']
      | right _ h' => exact absurd rfl (hnodup.2.2 _ h.mem _ h'.mem)
  | right _ h ih =>
      rw [symbols, List.nodup_append] at hnodup
      cases h' with
      | left _ h' => exact absurd rfl (hnodup.2.2 _ h'.mem _ h.mem)
      | right _ h' => rw [ih hnodup.2.1 h']

/-- No word begins another one. -/
theorem Word.prefix_free (h : Word t word a) (h' : Word t word' b) (heq : word ++ rest = word' ++ rest') :
    word = word' ∧ a = b := by
  induction h generalizing word' with
  | leaf =>
      cases h'
      exact ⟨rfl, rfl⟩
  | left _ _ ih =>
      cases h' with
      | left _ h' =>
          obtain ⟨hword, hsymbol⟩ := ih h' (List.cons.inj heq).2
          exact ⟨congrArg (List.cons false) hword, hsymbol⟩
      | right _ _ => cases heq
  | right _ _ ih =>
      cases h' with
      | left _ _ => cases heq
      | right _ h' =>
          obtain ⟨hword, hsymbol⟩ := ih h' (List.cons.inj heq).2
          exact ⟨congrArg (List.cons true) hword, hsymbol⟩

/-- Bits for the whole way down begin with a word. -/
theorem exists_word_of_depth {bits : List Bool} (h : t.depth ≤ bits.length) :
    ∃ word rest a, bits = word ++ rest ∧ Word t word a := by
  induction t generalizing bits with
  | leaf note symbol => exact ⟨[], bits, symbol, rfl, .leaf note symbol⟩
  | node note left right ihl ihr =>
      cases bits with
      | nil => cases h
      | cons bit bits =>
          have hle : max left.depth right.depth ≤ bits.length := Nat.le_of_succ_le_succ h
          cases bit with
          | false =>
              obtain ⟨word, rest, a, hbits, hword⟩ := ihl (Nat.le_trans (Nat.le_max_left _ _) hle)
              exact ⟨false :: word, rest, a, congrArg (List.cons false) hbits, .left note hword⟩
          | true =>
              obtain ⟨word, rest, a, hbits, hword⟩ := ihr (Nat.le_trans (Nat.le_max_right _ _) hle)
              exact ⟨true :: word, rest, a, congrArg (List.cons true) hbits, .right note hword⟩

end CodeTree

end Viriatum.Library
