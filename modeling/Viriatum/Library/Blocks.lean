import Mathlib.Data.List.Induction

/-!
# Texts in blocks

A text is cut into the whole blocks that it has and what is left of it. A function that goes over the blocks one after
another may be given the text in pieces: it keeps its value so far and what is still pending.
-/

namespace Viriatum.Library

variable {α σ : Type} {size : Nat}

/-- The first `count` blocks of a text. -/
def firstBlocks (size : Nat) : (count : Nat) → List α → List (List α)
  | 0, _ => []
  | count + 1, text => text.take size :: firstBlocks size count (text.drop size)

/-- The whole blocks of a text. -/
def blocks (size : Nat) (text : List α) : List (List α) := firstBlocks size (text.length / size) text

/-- What is left of a text after its whole blocks. -/
def leftover (size : Nat) (text : List α) : List α := text.drop (size * (text.length / size))

theorem blocks_of_lt {text : List α} (h : text.length < size) : blocks size text = [] := by
  rw [blocks, Nat.div_eq_of_lt h]
  rfl

theorem leftover_of_lt {text : List α} (h : text.length < size) : leftover size text = text := by
  rw [leftover, Nat.div_eq_of_lt h]
  rfl

@[simp] theorem length_leftover (size : Nat) (text : List α) : (leftover size text).length = text.length % size := by
  rw [leftover, List.length_drop, Nat.mod_def]

theorem length_div_of_block (hsize : 0 < size) {block : List α} (h : block.length = size) (rest : List α) :
    (block ++ rest).length / size = rest.length / size + 1 := by
  rw [List.length_append, h, Nat.add_div_left _ hsize]

theorem blocks_of_block (hsize : 0 < size) {block : List α} (h : block.length = size) (rest : List α) :
    blocks size (block ++ rest) = block :: blocks size rest := by
  rw [blocks, length_div_of_block hsize h, firstBlocks, List.take_left' h, List.drop_left' h]
  rfl

theorem leftover_of_block (hsize : 0 < size) {block : List α} (h : block.length = size) (rest : List α) :
    leftover size (block ++ rest) = leftover size rest := by
  rw [leftover, length_div_of_block hsize h, Nat.mul_succ, Nat.add_comm, ← List.drop_drop, List.drop_left' h]
  rfl

theorem blocks_append (hsize : 0 < size) (text later : List α) :
    blocks size (text ++ later) = blocks size text ++ blocks size (leftover size text ++ later) := by
  by_cases h : text.length < size
  · rw [blocks_of_lt h, leftover_of_lt h]
    rfl
  · have hblock : (text.take size).length = size := by simp; omega
    have hshorter : (text.drop size).length < text.length := by simp; omega
    have ih := blocks_append hsize (text.drop size) later
    rw [← List.take_append_drop size text, List.append_assoc, blocks_of_block hsize hblock, ih,
      blocks_of_block hsize hblock, leftover_of_block hsize hblock]
    rfl
termination_by text.length

theorem leftover_append (hsize : 0 < size) (text later : List α) :
    leftover size (text ++ later) = leftover size (leftover size text ++ later) := by
  by_cases h : text.length < size
  · rw [leftover_of_lt h]
  · have hblock : (text.take size).length = size := by simp; omega
    have hshorter : (text.drop size).length < text.length := by simp; omega
    have ih := leftover_append hsize (text.drop size) later
    rw [← List.take_append_drop size text, List.append_assoc, leftover_of_block hsize hblock, ih,
      leftover_of_block hsize hblock]
termination_by text.length

/-! ## Functions that go over the blocks -/

/-- The value after the whole blocks so far, and the start of the block that is still to be completed. -/
@[ext] structure Absorbed (σ α : Type) (size : Nat) where
  value : σ
  pending : List α
  short : pending.length < size

namespace Absorbed

variable (compress : σ → List α → σ) {s : Absorbed σ α size}

theorem size_pos (s : Absorbed σ α size) : 0 < size := Nat.zero_lt_of_lt s.short

/-- Going on with a further piece of the text. -/
def absorb (s : Absorbed σ α size) (piece : List α) : Absorbed σ α size where
  value := (blocks size (s.pending ++ piece)).foldl compress s.value
  pending := leftover size (s.pending ++ piece)
  short := by
    rw [length_leftover]
    exact Nat.mod_lt _ s.size_pos

theorem absorb_value (s : Absorbed σ α size) (piece : List α) :
    (s.absorb compress piece).value = (blocks size (s.pending ++ piece)).foldl compress s.value := rfl

theorem absorb_pending (s : Absorbed σ α size) (piece : List α) :
    (s.absorb compress piece).pending = leftover size (s.pending ++ piece) := rfl

theorem absorb_nil (s : Absorbed σ α size) : s.absorb compress [] = s := by
  ext1
  · rw [absorb_value, List.append_nil, blocks_of_lt s.short, List.foldl_nil]
  · rw [absorb_pending, List.append_nil, leftover_of_lt s.short]

theorem absorb_append (s : Absorbed σ α size) (piece later : List α) :
    s.absorb compress (piece ++ later) = (s.absorb compress piece).absorb compress later := by
  ext1
  · simp only [absorb_value, absorb_pending]
    rw [← List.append_assoc, blocks_append s.size_pos, List.foldl_append]
  · simp only [absorb_pending]
    rw [← List.append_assoc, leftover_append s.size_pos (s.pending ++ piece)]

/-- However a text is cut into pieces, going on with each of them is going on with the text. -/
theorem foldl_absorb (s : Absorbed σ α size) (pieces : List (List α)) :
    pieces.foldl (absorb compress) s = s.absorb compress pieces.flatten := by
  induction pieces generalizing s with
  | nil => exact (s.absorb_nil compress).symm
  | cons piece pieces ih => rw [List.foldl_cons, ih, List.flatten_cons, absorb_append]

variable {compress}

/-- A piece that does not complete the block only adds to what is pending. -/
theorem absorb_of_lt {piece : List α} (h : (s.pending ++ piece).length < size) :
    s.absorb compress piece = ⟨s.value, s.pending ++ piece, h⟩ := by
  ext1
  · rw [absorb_value, blocks_of_lt h, List.foldl_nil]
  · rw [absorb_pending, leftover_of_lt h]

/-- A piece whose head completes the block goes on after that block. -/
theorem absorb_of_block {head : List α} (h : (s.pending ++ head).length = size) (rest : List α) :
    s.absorb compress (head ++ rest) =
      absorb compress ⟨compress s.value (s.pending ++ head), [], s.size_pos⟩ rest := by
  ext1
  · rw [absorb_value, ← List.append_assoc, blocks_of_block s.size_pos h, List.foldl_cons, absorb_value, List.nil_append]
  · rw [absorb_pending, ← List.append_assoc, leftover_of_block s.size_pos h, absorb_pending, List.nil_append]

end Absorbed

end Viriatum.Library
