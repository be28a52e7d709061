import Mathlib.Data.List.Perm.Basic
import Mathlib.Data.List.Nodup
import Viriatum.Memory.Pool

/-!
# Chunks of a pool

What the taking and the putting back of an item keep of a chunk, and what it does to the items that are in use.
-/

namespace Viriatum

open Library

/-! ## Positions -/

section Positions

variable {α : Type} {test : α → Bool} {items : List α} {start index : Nat}

theorem positionFrom_some (h : positionFrom test items start = some index) :
    start ≤ index ∧ (∃ item, items[index]? = some item ∧ test item = true) ∧
      ∀ j, start ≤ j → j < index → ∀ item, items[j]? = some item → test item = false := by
  rw [positionFrom, Option.map_eq_some_iff] at h
  obtain ⟨offset, hoffset, rfl⟩ := h
  obtain ⟨hlt, htest, hbefore⟩ := List.findIdx?_eq_some_iff_getElem.mp hoffset
  rw [List.length_drop] at hlt
  have hlast : offset + start < items.length := by omega
  have hat : items[offset + start]? = some items[offset + start] := List.getElem?_eq_getElem hlast
  refine ⟨by omega, ⟨_, hat, ?_⟩, fun j hj hlast item hitem => ?_⟩
  · simpa [Nat.add_comm] using htest
  · have hfalse := hbefore (j - start) (by omega)
    obtain ⟨hin, rfl⟩ := List.getElem?_eq_some_iff.mp hitem
    have hplace : start + (j - start) = j := by omega
    simpa [hplace] using hfalse

theorem positionFrom_none (h : positionFrom test items start = none) :
    ∀ j, start ≤ j → ∀ item, items[j]? = some item → test item = false := by
  rw [positionFrom, Option.map_eq_none_iff, List.findIdx?_eq_none_iff] at h
  intro j hj item hitem
  have hmem : item ∈ items.drop start := by
    rw [List.mem_iff_getElem?]
    refine ⟨j - start, ?_⟩
    have hplace : start + (j - start) = j := by omega
    rw [List.getElem?_drop, hplace, hitem]
  simpa using h item hmem

end Positions

/-- The numbers that pass a test, where the test is changed for one of them. -/
theorem filter_range_perm {n index : Nat} {p q : Nat → Bool} (hindex : index < n) (hp : p index = true)
    (hq : q index = false) (hsame : ∀ i, i ≠ index → p i = q i) :
    ((List.range n).filter p).Perm (index :: (List.range n).filter q) := by
  have hnot : index ∉ (List.range n).filter q := by simp [hq]
  rw [List.perm_ext_iff_of_nodup (List.nodup_range.filter _) (List.nodup_cons.mpr ⟨hnot, List.nodup_range.filter _⟩)]
  intro i
  by_cases hi : i = index
  · subst hi
    simp [hp, hindex]
  · simp [hi, hsame i hi]

namespace MemoryChunk

/-- The items of a chunk that are in use. -/
def used (chunk : MemoryChunk) : List MemoryItem :=
  ((List.range chunkSize).filter fun index => chunk.bitmap.getD index false).map chunk.item

/-- What a chunk knows of its items is true. -/
structure Sound (size : Nat) (chunk : MemoryChunk) : Prop where
  length : chunk.bitmap.length = chunkSize
  itemSize : chunk.itemSize = size
  itemAlloc : chunk.itemAlloc = chunk.bitmap.count true
  full : chunk.isFull = true ↔ false ∉ chunk.bitmap
  free_lt : chunk.free < chunkSize
  free : chunk.isFull = false → chunk.bitmap[chunk.free]? = some false
  lowest : chunk.isFull = false → ∀ index, index < chunk.free → chunk.bitmap[index]? = some true
  fits : chunk.buffer + size * chunkSize ≤ 2 ^ 64

variable {size index : Nat} {chunk : MemoryChunk}

theorem sound_create {block : ChunkBlock} (hfits : block.buffer + size * chunkSize ≤ 2 ^ 64) (index : Nat) :
    (createChunk block size index).Sound size := by
  have hpos : 0 < chunkSize := by decide
  refine ⟨List.length_replicate, rfl, ?_, ?_, hpos, ?_, ?_, hfits⟩
  · simp [createChunk, List.count_replicate]
  · simp [createChunk, List.mem_replicate]
    omega
  · simp [createChunk, hpos]
  · simp [createChunk]

theorem used_create (block : ChunkBlock) (size index : Nat) : (createChunk block size index).used = [] := by
  have hnone : ∀ index, (List.replicate chunkSize false).getD index false = false := by
    intro index
    rw [List.getD_eq_getElem?_getD, List.getElem?_replicate]
    split <;> rfl
  simp only [used, createChunk, hnone, List.filter_false, List.map_nil]

/-- An item is taken from a chunk that has one. -/
theorem Sound.take (h : chunk.Sound size) (hfull : chunk.isFull = false) : chunk.takeItem.Sound size := by
  have hfree := h.free hfull
  have hlength : (chunk.bitmap.set chunk.free true).length = chunkSize := by rw [List.length_set, h.length]
  have hat : ∀ index, (chunk.bitmap.set chunk.free true)[index]? =
      if chunk.free = index then some true else chunk.bitmap[index]? := by
    intro index
    rw [List.getElem?_set]
    by_cases hindex : chunk.free = index
    · simp [← hindex, h.length, h.free_lt]
    · simp [hindex]
  have hcount : (chunk.bitmap.set chunk.free true).count true = chunk.bitmap.count true + 1 := by
    have hin : chunk.free < chunk.bitmap.length := by rw [h.length]; exact h.free_lt
    have hvalue : chunk.bitmap[chunk.free] = false := by
      rw [List.getElem?_eq_getElem hin, Option.some.injEq] at hfree
      exact hfree
    rw [List.count_set hin]
    simp [hvalue]
  cases hnext : positionFrom (! ·) (chunk.bitmap.set chunk.free true) (chunk.free + 1) with
  | none =>
      have hafter := positionFrom_none hnext
      have hall : false ∉ chunk.bitmap.set chunk.free true := by
        intro hmem
        obtain ⟨index, hindex⟩ := List.mem_iff_getElem?.mp hmem
        have hlater : ¬ chunk.free + 1 ≤ index := fun hle => by simpa using hafter index hle false hindex
        rw [hat] at hindex
        by_cases hsame : chunk.free = index
        · simp [hsame] at hindex
        · rw [if_neg hsame, h.lowest hfull index (by omega)] at hindex
          cases hindex
      refine ⟨by simpa [takeItem] using hlength, h.itemSize, ?_, ?_, ?_, ?_, ?_, h.fits⟩
      · simp only [takeItem, hcount, h.itemAlloc]
      · simp only [takeItem, hnext]
        simpa using hall
      · simpa [takeItem, hnext] using h.free_lt
      · simp [takeItem, hnext]
      · simp [takeItem, hnext]
  | some next =>
      obtain ⟨hle, ⟨bit, hbit, htest⟩, hbetween⟩ := positionFrom_some hnext
      have hbitFalse : bit = false := by simpa using htest
      rw [hbitFalse] at hbit
      refine ⟨by simpa [takeItem] using hlength, h.itemSize, ?_, ?_, ?_, ?_, ?_, h.fits⟩
      · simp only [takeItem, hcount, h.itemAlloc]
      · have hmem : false ∈ chunk.bitmap.set chunk.free true := List.mem_of_getElem? hbit
        simp [takeItem, hnext, hfull, hmem]
      · have hlt := (List.getElem?_eq_some_iff.mp hbit).1
        simp only [takeItem, hnext, Option.getD_some]
        omega
      · intro _
        simpa [takeItem, hnext] using hbit
      · intro _ index hindex
        simp only [takeItem, hnext, Option.getD_some] at hindex ⊢
        rw [hat]
        by_cases hsame : chunk.free = index
        · simp [hsame]
        · rw [if_neg hsame]
          by_cases hbefore : index < chunk.free
          · exact h.lowest hfull index hbefore
          · have hlt : index < chunk.bitmap.length := by
              have hlast := (List.getElem?_eq_some_iff.mp hbit).1
              rw [List.length_set] at hlast
              omega
            have hvalue := hbetween index (by omega) hindex chunk.bitmap[index]
              (by rw [hat, if_neg hsame, List.getElem?_eq_getElem hlt])
            rw [List.getElem?_eq_getElem hlt]
            simpa using hvalue

theorem used_take (h : chunk.Sound size) (hfull : chunk.isFull = false) :
    chunk.takeItem.used.Perm (chunk.item chunk.free :: chunk.used) := by
  have hitem : chunk.takeItem.item = chunk.item := rfl
  have hin : chunk.free < chunk.bitmap.length := by rw [h.length]; exact h.free_lt
  rw [used, used, hitem, ← List.map_cons]
  refine (filter_range_perm h.free_lt ?_ ?_ fun index hne => ?_).map _
  · simp [takeItem, List.getD_eq_getElem?_getD, hin]
  · simp [List.getD_eq_getElem?_getD, h.free hfull]
  · simp [takeItem, List.getD_eq_getElem?_getD, Ne.symm hne]

/-- An item is put back into a chunk; where the chunk is full, its index is not left below the item. -/
theorem Sound.release (h : chunk.Sound size) (hused : chunk.bitmap[index]? = some true)
    (hindex : chunk.isFull = true → index ≤ chunk.free) : (chunk.releaseItem index).Sound size := by
  obtain ⟨hin, hvalue⟩ := List.getElem?_eq_some_iff.mp hused
  have hlength : (chunk.bitmap.set index false).length = chunkSize := by rw [List.length_set, h.length]
  have hat : ∀ i, (chunk.bitmap.set index false)[i]? = if index = i then some false else chunk.bitmap[i]? := by
    intro i
    rw [List.getElem?_set]
    by_cases hi : index = i
    · simp [← hi, hin]
    · simp [hi]
  have hfullAll : chunk.isFull = true → ∀ i, i < chunkSize → chunk.bitmap[i]? = some true := by
    intro hfull i hi
    have hlt : i < chunk.bitmap.length := by rw [h.length]; exact hi
    rw [List.getElem?_eq_getElem hlt]
    cases hbit : chunk.bitmap[i] with
    | true => rfl
    | false => exact absurd (hbit ▸ List.getElem_mem hlt) (h.full.mp hfull)
  have hmem : false ∈ chunk.bitmap.set index false := List.mem_of_getElem? (by rw [hat, if_pos rfl])
  refine ⟨hlength, h.itemSize, ?_, ?_, ?_, ?_, ?_, h.fits⟩
  · simp [releaseItem, h.itemAlloc, List.count_set hin, hvalue]
  · simp [releaseItem, hmem]
  · have := h.free_lt
    simp only [releaseItem]
    split <;> omega
  · intro _
    simp only [releaseItem]
    rw [hat]
    split
    case isTrue => simp
    case isFalse hnot =>
      by_cases hsame : index = chunk.free
      · simp [hsame]
      · rw [if_neg hsame]
        cases hfull : chunk.isFull with
        | true =>
            have := hindex hfull
            omega
        | false => exact h.free hfull
  · intro _ i hi
    simp only [releaseItem] at hi ⊢
    have hbelow : i ≠ index ∧ i < chunk.free := by
      split at hi <;> omega
    rw [hat, if_neg (Ne.symm hbelow.1)]
    cases hfull : chunk.isFull with
    | true => exact hfullAll hfull i (Nat.lt_trans hbelow.2 h.free_lt)
    | false => exact h.lowest hfull i hbelow.2

theorem used_release (h : chunk.Sound size) (hused : chunk.bitmap[index]? = some true) :
    chunk.used.Perm (chunk.item index :: (chunk.releaseItem index).used) := by
  have hitem : (chunk.releaseItem index).item = chunk.item := rfl
  have hin : index < chunk.bitmap.length := (List.getElem?_eq_some_iff.mp hused).1
  have hlt : index < chunkSize := by rw [← h.length]; exact hin
  rw [used, used, hitem, ← List.map_cons]
  refine (filter_range_perm hlt ?_ ?_ fun i hne => ?_).map _
  · simp [List.getD_eq_getElem?_getD, hused]
  · simp [releaseItem, List.getD_eq_getElem?_getD, hin]
  · simp [releaseItem, List.getD_eq_getElem?_getD, Ne.symm hne]

theorem used_length_le (chunk : MemoryChunk) : chunk.used.length ≤ chunkSize := by
  rw [used, List.length_map]
  have hle := List.length_filter_le (fun index => chunk.bitmap.getD index false) (List.range chunkSize)
  rwa [List.length_range] at hle

/-- The count of a chunk is the number of its items in use. -/
theorem used_length (h : chunk.Sound size) : chunk.used.length = chunk.itemAlloc := by
  have hbits : (List.range chunkSize).map (fun index => chunk.bitmap.getD index false) = chunk.bitmap := by
    apply List.ext_getElem
    · simp [h.length]
    · intro index hlt hlt'
      simp [List.getD_eq_getElem?_getD, hlt']
  rw [used, List.length_map, h.itemAlloc, ← List.countP_eq_length_filter]
  conv_rhs => rw [← hbits]
  rw [List.count, List.countP_map]
  refine List.countP_congr fun index _ => ?_
  simp

theorem mem_used {item : MemoryItem} (h : chunk.Sound size) :
    item ∈ chunk.used ↔ ∃ index, chunk.bitmap[index]? = some true ∧ item = chunk.item index := by
  simp only [used, List.mem_map, List.mem_filter, List.mem_range]
  constructor
  · rintro ⟨index, ⟨hlt, hbit⟩, rfl⟩
    have hlt' : index < chunk.bitmap.length := by rw [h.length]; exact hlt
    refine ⟨index, ?_, rfl⟩
    rw [List.getElem?_eq_getElem hlt']
    simpa [List.getD_eq_getElem?_getD, hlt'] using hbit
  · rintro ⟨index, hbit, rfl⟩
    have hlt : index < chunk.bitmap.length := (List.getElem?_eq_some_iff.mp hbit).1
    rw [h.length] at hlt
    exact ⟨index, ⟨hlt, by simp [List.getD_eq_getElem?_getD, hbit]⟩, rfl⟩

/-- The buffer of an item lies in the buffer of its chunk. -/
theorem item_buffer (h : chunk.Sound size) (hsize : 0 < size) (hindex : index < chunkSize) :
    (chunk.item index).buffer = chunk.buffer + size * index ∧
      chunk.buffer + size * index < chunk.buffer + size * chunkSize := by
  have hfits := h.fits
  have hlt : size * index < size * chunkSize := Nat.mul_lt_mul_of_pos_left hindex hsize
  refine ⟨?_, by omega⟩
  rw [item, h.itemSize]
  exact Nat.mod_eq_of_lt (by omega)

end MemoryChunk

end Viriatum
