import Mathlib.Data.List.Perm.Basic
import Mathlib.Data.List.Nodup
import Viriatum.Memory.Lemmas.Chunk

/-!
# What the calls keep of a pool

A pool is sound where its counts, its map and the indexes of the free chunks and items are what the bitmaps make them. A
call of a sound pool comes to an end, leaves it sound and takes one item or puts it back.
-/

namespace Viriatum

open Library

/-! ## Lists -/

section Lists

variable {α β : Type} {items : List α} {index : Nat} {item item' : α} {f : α → List β} {b : β}

theorem flatMap_set_cons (h : items[index]? = some item) (hf : (f item').Perm (b :: f item)) :
    ((items.set index item').flatMap f).Perm (b :: items.flatMap f) := by
  obtain ⟨hindex, hitem⟩ := List.getElem?_eq_some_iff.mp h
  have hsplit : items.take index ++ item :: items.drop (index + 1) = items := by
    rw [← hitem, List.getElem_cons_drop, List.take_append_drop]
  rw [List.set_eq_take_append_cons_drop, if_pos hindex, List.flatMap_append, List.flatMap_cons]
  conv_rhs => rw [← hsplit, List.flatMap_append, List.flatMap_cons]
  calc ((items.take index).flatMap f ++ (f item' ++ (items.drop (index + 1)).flatMap f)).Perm
        ((items.take index).flatMap f ++ (b :: f item ++ (items.drop (index + 1)).flatMap f)) :=
        (hf.append_right _).append_left _
    _ |>.Perm (b :: ((items.take index).flatMap f ++ (f item ++ (items.drop (index + 1)).flatMap f))) :=
        List.perm_middle

theorem flatMap_set_uncons (h : items[index]? = some item) (hf : (f item).Perm (b :: f item')) :
    (items.flatMap f).Perm (b :: (items.set index item').flatMap f) := by
  obtain ⟨hindex, hitem⟩ := List.getElem?_eq_some_iff.mp h
  have hback : (items.set index item').set index item = items := by
    rw [List.set_set, ← hitem, List.set_getElem_self]
  have hat : (items.set index item')[index]? = some item' := by rw [List.getElem?_set_self hindex]
  have hperm := flatMap_set_cons hat hf
  rwa [hback] at hperm

end Lists

/-! ## Sound pools -/

def MemoryChunk.block (chunk : MemoryChunk) : ChunkBlock := ⟨chunk.pointer, chunk.buffer⟩

/-- Two blocks that are both allocated for chunks of a number of bytes. -/
def Apart (bytes : Nat) (a b : ChunkBlock) : Prop :=
  a.pointer ≠ b.pointer ∧ (a.buffer + bytes ≤ b.buffer ∨ b.buffer + bytes ≤ a.buffer)

theorem Apart.symm {bytes : Nat} {a b : ChunkBlock} (h : Apart bytes a b) : Apart bytes b a :=
  ⟨Ne.symm h.1, Or.symm h.2⟩

/-- What the allocator gives for the chunks of a call: blocks that lie in memory, apart from each other and from those of
the pool. -/
structure Fresh (size : Nat) (blocks : Nat → ChunkBlock) (pool : MemoryPool) : Prop where
  apart : (pool.chunks.map MemoryChunk.block ++ (List.range pool.increment).map blocks).Pairwise
    (Apart (size * chunkSize % 2 ^ 64))
  fits : ∀ index, index < pool.increment → (blocks index).buffer + size * chunkSize % 2 ^ 64 ≤ 2 ^ 64

namespace MemoryPool

/-- The items of a pool that are in use. -/
def used (pool : MemoryPool) : List MemoryItem := pool.chunks.flatMap MemoryChunk.used

structure Sound (size : Nat) (pool : MemoryPool) : Prop where
  chunk : ∀ chunk ∈ pool.chunks, chunk.Sound size
  index : ∀ (i : Nat) chunk, pool.chunks[i]? = some chunk → chunk.index = i
  apart : (pool.chunks.map MemoryChunk.block).Pairwise (Apart (size * chunkSize))
  free_le : pool.free ≤ pool.chunks.length
  before : ∀ i < pool.free, ∀ chunk, pool.chunks[i]? = some chunk → chunk.isFull = true
  first : ∀ chunk, pool.chunks[pool.free]? = some chunk → chunk.isFull = false
  chunkAlloc : pool.chunkAlloc = pool.chunks.countP fun chunk => chunk.itemAlloc ≠ 0
  room : pool.chunks.length ≤ pool.chunkMaxSize
  length : pool.bufferItemMap.length = pool.chunkMaxSize * chunkMargin
  map : pool.bufferItemMap.reduceOption.Perm pool.used

variable {size : Nat} {pool : MemoryPool} (nullsZero : Bool)

theorem used_length_le (pool : MemoryPool) : pool.used.length ≤ pool.chunks.length * chunkSize := by
  rw [used]
  induction pool.chunks with
  | nil => simp
  | cons chunk chunks ih =>
      have hchunk := chunk.used_length_le
      rw [List.flatMap_cons, List.length_append, List.length_cons, Nat.succ_mul]
      omega

theorem sound_empty : ({} : MemoryPool).Sound size :=
  ⟨by simp, by simp, by simp, by simp, by simp, by simp, by simp, by simp, by simp, by simp [used, List.reduceOption]⟩

theorem sound_alloc : allocMemoryPool.Sound size := by
  refine ⟨?_, ?_, ?_, ?_, ?_, ?_, ?_, ?_, ?_, ?_⟩ <;> simp [allocMemoryPool, used, List.reduceOption]

/-! ## Growing -/

theorem chunkSize_lt_margin : chunkSize < chunkMargin := by decide

theorem resize_grow (h : pool.Sound size) {chunkMaxSize : Nat} (hgrow : pool.chunkMaxSize < chunkMaxSize) :
    ∃ pool', pool.resizeMemoryPool nullsZero chunkMaxSize = some pool' ∧ pool'.Sound size ∧
      pool'.chunks = pool.chunks ∧ pool'.free = pool.free ∧ pool'.chunkMaxSize = chunkMaxSize := by
  have hused := pool.used_length_le
  have hitems : pool.bufferItemMap.reduceOption.length ≤ chunkMaxSize * chunkMargin := by
    have hroom := h.room
    have hmargin := chunkSize_lt_margin
    rw [h.map.length_eq]
    calc pool.used.length ≤ pool.chunks.length * chunkSize := hused
      _ ≤ chunkMaxSize * chunkMargin := Nat.mul_le_mul (by omega) (by omega)
  obtain ⟨slots, hslots, hlength, hperm⟩ := rehash_spec MemoryItem.buffer hitems
  refine ⟨{ pool with isNull := nullsZero && chunkMaxSize = 0, bufferItemMap := slots, chunkMaxSize }, ?_,
    ⟨h.chunk, h.index, h.apart, h.free_le, h.before, h.first, h.chunkAlloc, ?_, hlength, hperm.trans h.map⟩, rfl, rfl, rfl⟩
  · rw [resizeMemoryPool, if_neg (by omega), hslots]
    simp [hgrow]
  · have := h.room
    simp only
    omega

theorem increment_pos (pool : MemoryPool) : 0 < pool.increment := by
  rw [increment]
  split <;> omega

/-- Chunks are created behind those of a pool. -/
theorem sound_created (h : pool.Sound size) {blocks : Nat → ChunkBlock}
    (hfull : pool.free = pool.chunks.length) (hsize : size * chunkSize < 2 ^ 64) (hfresh : Fresh size blocks pool) (hroom : pool.chunks.length + pool.increment ≤ pool.chunkMaxSize) :
    ({ pool with chunks := pool.chunks ++ pool.createdChunks size blocks } : MemoryPool).Sound size ∧
      ({ pool with chunks := pool.chunks ++ pool.createdChunks size blocks } : MemoryPool).used = pool.used := by
  have hbytes : size * chunkSize % 2 ^ 64 = size * chunkSize := Nat.mod_eq_of_lt hsize
  have hapart := hfresh.apart
  have hfits := hfresh.fits
  rw [hbytes] at hapart hfits
  have hcreated : ∀ chunk ∈ pool.createdChunks size blocks, chunk.Sound size ∧ chunk.isFull = false ∧
      chunk.itemAlloc = 0 ∧ chunk.used = [] := by
    intro chunk hmem
    obtain ⟨index, hindex, rfl⟩ := List.mem_map.mp hmem
    exact ⟨MemoryChunk.sound_create (hfits index (List.mem_range.mp hindex)) _, rfl, rfl, MemoryChunk.used_create _ _ _⟩
  have hlength : (pool.createdChunks size blocks).length = pool.increment := by simp [createdChunks]
  have hused : ({ pool with chunks := pool.chunks ++ pool.createdChunks size blocks } : MemoryPool).used = pool.used := by
    have hnone : (pool.createdChunks size blocks).flatMap MemoryChunk.used = [] := by
      rw [List.flatMap_eq_nil_iff]
      exact fun chunk hmem => (hcreated chunk hmem).2.2.2
    rw [used, used, List.flatMap_append, hnone, List.append_nil]
  refine ⟨⟨?_, ?_, ?_, ?_, ?_, ?_, ?_, ?_, h.length, hused ▸ h.map⟩, hused⟩
  · intro chunk hmem
    rcases List.mem_append.mp hmem with hmem | hmem
    · exact h.chunk chunk hmem
    · exact (hcreated chunk hmem).1
  · intro i chunk hchunk
    dsimp only at hchunk
    rw [List.getElem?_append] at hchunk
    split at hchunk
    case isTrue => exact h.index i chunk hchunk
    case isFalse hlater =>
      obtain ⟨hin, rfl⟩ := List.getElem?_eq_some_iff.mp hchunk
      simp [createdChunks, createChunk]
      omega
  · have hblocks : (pool.createdChunks size blocks).map MemoryChunk.block = (List.range pool.increment).map blocks := by
      simp [createdChunks, createChunk, MemoryChunk.block, Function.comp_def]
    rw [List.map_append, hblocks]
    exact hapart
  · simp [hfull]
  · intro i hi chunk hchunk
    dsimp only at hi hchunk
    rw [List.getElem?_append_left (by omega)] at hchunk
    exact h.before i hi chunk hchunk
  · intro chunk hchunk
    dsimp only at hchunk
    rw [hfull, List.getElem?_append_right (Nat.le_refl _)] at hchunk
    exact (hcreated chunk (List.mem_of_getElem? hchunk)).2.1
  · have hnone : (pool.createdChunks size blocks).countP (fun chunk => chunk.itemAlloc ≠ 0) = 0 := by
      rw [List.countP_eq_zero]
      intro chunk hmem
      simp [(hcreated chunk hmem).2.2.1]
    rw [List.countP_append, hnone, h.chunkAlloc, Nat.add_zero]
  · simp only [List.length_append, hlength]
    exact hroom

/-! ## Shrinking -/

theorem not_full_of_empty {chunk : MemoryChunk} (h : chunk.Sound size) (hempty : chunk.itemAlloc = 0) :
    chunk.isFull = false := by
  have hcount := h.itemAlloc
  rw [hempty, eq_comm, List.count_eq_zero] at hcount
  cases hfull : chunk.isFull with
  | false => rfl
  | true =>
      have hpos : 0 < chunk.bitmap.length := by
        rw [h.length]
        decide
      have hnone := h.full.mp hfull
      have hmem : chunk.bitmap[0] ∈ chunk.bitmap := List.getElem_mem hpos
      cases hbit : chunk.bitmap[0] with
      | true => exact absurd (hbit ▸ hmem) hcount
      | false => exact absurd (hbit ▸ hmem) hnone

theorem used_of_empty {chunk : MemoryChunk} (h : chunk.Sound size) (hempty : chunk.itemAlloc = 0) : chunk.used = [] := by
  rw [← List.length_eq_zero_iff, MemoryChunk.used_length h, hempty]

/-- The chunks in use, and the ones that are not. -/
def valid (pool : MemoryPool) : List MemoryChunk := pool.chunks.filter fun chunk => chunk.itemAlloc ≠ 0

def empty (pool : MemoryPool) : List MemoryChunk := pool.chunks.filter fun chunk => chunk.itemAlloc = 0

theorem valid_append_empty (pool : MemoryPool) : (pool.valid ++ pool.empty).Perm pool.chunks := by
  have hperm := List.filter_append_perm (fun chunk : MemoryChunk => decide (chunk.itemAlloc ≠ 0)) pool.chunks
  simpa [valid, empty] using hperm

theorem valid_length (h : pool.Sound size) : pool.valid.length = pool.chunkAlloc := by
  rw [valid, h.chunkAlloc, List.countP_eq_length_filter]

/-- The chunks that are kept, in their new order. -/
def kept (pool : MemoryPool) (chunkMaxSize : Nat) : List MemoryChunk :=
  pool.valid ++ pool.empty.take (chunkMaxSize - pool.valid.length)

theorem shrunkChunks_eq {chunkMaxSize : Nat} (hvalid : pool.valid.length ≤ chunkMaxSize) :
    shrunkChunks pool.chunks chunkMaxSize =
      (pool.kept chunkMaxSize).mapIdx fun index chunk => { chunk with index } := by
  have hlength := pool.valid_append_empty.length_eq
  rw [List.length_append] at hlength
  have hkept : (pool.kept chunkMaxSize).length = min pool.chunks.length chunkMaxSize := by
    rw [kept, List.length_append, List.length_take]
    omega
  have htake : (pool.kept chunkMaxSize).take (min pool.chunks.length chunkMaxSize) = pool.kept chunkMaxSize :=
    List.take_of_length_le (Nat.le_of_eq hkept)
  have hfilling : (if pool.valid.length ≤ chunkMaxSize then pool.empty.take (chunkMaxSize - pool.valid.length)
      else pool.empty) = pool.empty.take (chunkMaxSize - pool.valid.length) := if_pos hvalid
  rw [← htake, kept, ← hfilling]
  rfl

theorem mem_kept {chunkMaxSize : Nat} {chunk : MemoryChunk} (h : chunk ∈ pool.kept chunkMaxSize) :
    chunk ∈ pool.chunks := by
  rw [kept, List.mem_append] at h
  rcases h with h | h
  · exact List.mem_of_mem_filter h
  · exact List.mem_of_mem_filter (List.mem_of_mem_take h)

theorem used_kept (h : pool.Sound size) (chunkMaxSize : Nat) :
    ((pool.kept chunkMaxSize).flatMap MemoryChunk.used).Perm pool.used := by
  have hnone : ∀ chunk ∈ pool.empty, chunk.used = [] := by
    intro chunk hmem
    have hempty : chunk.itemAlloc = 0 := by simpa using List.of_mem_filter hmem
    exact used_of_empty (h.chunk chunk (List.mem_of_mem_filter hmem)) hempty
  have htaken : (pool.empty.take (chunkMaxSize - pool.valid.length)).flatMap MemoryChunk.used = [] := by
    rw [List.flatMap_eq_nil_iff]
    exact fun chunk hmem => hnone chunk (List.mem_of_mem_take hmem)
  have hall : pool.empty.flatMap MemoryChunk.used = [] := by
    rw [List.flatMap_eq_nil_iff]
    exact hnone
  have hperm := pool.valid_append_empty.flatMap_right MemoryChunk.used
  rw [List.flatMap_append, hall, List.append_nil] at hperm
  rwa [kept, List.flatMap_append, htaken, List.append_nil]

/-- What does not depend on the positions of the chunks is the same of the chunks in their new places. -/
theorem map_reindexed {β : Type} {f : MemoryChunk → β} (hf : ∀ chunk index, f { chunk with index } = f chunk)
    (chunks : List MemoryChunk) : (chunks.mapIdx fun index chunk => { chunk with index }).map f = chunks.map f := by
  apply List.ext_getElem?
  intro i
  rw [List.getElem?_map, List.getElem?_map, List.getElem?_mapIdx, Option.map_map]
  cases chunks[i]? with
  | none => rfl
  | some chunk => simp [hf]

theorem used_shrunk (h : pool.Sound size) {chunkMaxSize : Nat} (hvalid : pool.valid.length ≤ chunkMaxSize) :
    ((shrunkChunks pool.chunks chunkMaxSize).flatMap MemoryChunk.used).Perm pool.used := by
  have hsame := map_reindexed (f := MemoryChunk.used) (fun _ _ => rfl) (pool.kept chunkMaxSize)
  rw [shrunkChunks_eq hvalid, List.flatMap_def, hsame, ← List.flatMap_def]
  exact used_kept h chunkMaxSize

theorem blocks_shrunk (h : pool.Sound size) {chunkMaxSize : Nat} (hvalid : pool.valid.length ≤ chunkMaxSize) :
    ((shrunkChunks pool.chunks chunkMaxSize).map MemoryChunk.block).Pairwise (Apart (size * chunkSize)) := by
  have hsub : (pool.kept chunkMaxSize).Sublist (pool.valid ++ pool.empty) :=
    List.Sublist.append (List.Sublist.refl _) (List.take_sublist _ _)
  have hall : ((pool.valid ++ pool.empty).map MemoryChunk.block).Pairwise (Apart (size * chunkSize)) :=
    (pool.valid_append_empty.map MemoryChunk.block).symm.pairwise h.apart fun hab => hab.symm
  rw [shrunkChunks_eq hvalid, map_reindexed fun _ _ => rfl]
  exact hall.sublist (hsub.map _)

theorem count_shrunk (h : pool.Sound size) {chunkMaxSize : Nat} (hvalid : pool.valid.length ≤ chunkMaxSize) :
    pool.chunkAlloc = (shrunkChunks pool.chunks chunkMaxSize).countP fun chunk => chunk.itemAlloc ≠ 0 := by
  have hsame := map_reindexed (f := MemoryChunk.itemAlloc) (fun _ _ => rfl) (pool.kept chunkMaxSize)
  have hcount : ∀ chunks : List MemoryChunk, (chunks.countP fun chunk => chunk.itemAlloc ≠ 0) =
      (chunks.map MemoryChunk.itemAlloc).countP fun itemAlloc => itemAlloc ≠ 0 := by
    intro chunks
    rw [List.countP_map]
    rfl
  have hvalidAll : pool.valid.countP (fun chunk => chunk.itemAlloc ≠ 0) = pool.valid.length := by
    rw [List.countP_eq_length]
    intro chunk hmem
    exact (List.mem_filter.mp hmem).2
  have hemptyNone : (pool.empty.take (chunkMaxSize - pool.valid.length)).countP
      (fun chunk => chunk.itemAlloc ≠ 0) = 0 := by
    rw [List.countP_eq_zero]
    intro chunk hmem
    have hempty : chunk.itemAlloc = 0 := by simpa using List.of_mem_filter (List.mem_of_mem_take hmem)
    simp [hempty]
  rw [shrunkChunks_eq hvalid, hcount, hsame, ← hcount, kept, List.countP_append, hvalidAll, hemptyNone, valid_length h,
    Nat.add_zero]

theorem shrunk_at {chunkMaxSize : Nat} (hvalid : pool.valid.length ≤ chunkMaxSize) {i : Nat} {chunk : MemoryChunk}
    (h : (shrunkChunks pool.chunks chunkMaxSize)[i]? = some chunk) :
    ∃ chunk', (pool.kept chunkMaxSize)[i]? = some chunk' ∧ chunk = { chunk' with index := i } := by
  rw [shrunkChunks_eq hvalid, List.getElem?_mapIdx, Option.map_eq_some_iff] at h
  obtain ⟨chunk', hchunk', rfl⟩ := h
  exact ⟨chunk', hchunk', rfl⟩

/-- The first chunk that is not full: one in use, or one behind them. -/
theorem first_kept (h : pool.Sound size) {chunkMaxSize i : Nat} {chunk : MemoryChunk}
    (hchunk : (pool.kept chunkMaxSize)[i]? = some chunk) :
    (i < (pool.valid.findIdx fun chunk => !chunk.isFull) → chunk.isFull = true) ∧
      (i = (pool.valid.findIdx fun chunk => !chunk.isFull) → chunk.isFull = false) := by
  have hle : (pool.valid.findIdx fun chunk => !chunk.isFull) ≤ pool.valid.length := List.findIdx_le_length
  constructor
  · intro hi
    have hnot := List.not_of_lt_findIdx hi
    rw [kept, List.getElem?_append_left (by omega), List.getElem?_eq_getElem (by omega), Option.some.injEq] at hchunk
    rw [hchunk] at hnot
    simpa using hnot
  · intro hi
    by_cases hin : i < pool.valid.length
    · have htest := List.findIdx_getElem (w := hi ▸ hin)
      rw [kept, List.getElem?_append_left hin, List.getElem?_eq_getElem hin, Option.some.injEq] at hchunk
      simp only [← hi, hchunk] at htest
      simpa using htest
    · have hmem : chunk ∈ pool.empty := by
        rw [kept, List.getElem?_append_right (by omega)] at hchunk
        exact List.mem_of_mem_take (List.mem_of_getElem? hchunk)
      have hempty : chunk.itemAlloc = 0 := by simpa using List.of_mem_filter hmem
      exact not_full_of_empty (h.chunk chunk (List.mem_of_mem_filter hmem)) hempty

/-- A pool that gets smaller keeps its items, as long as there is room for the chunks in use. -/
theorem resize_shrink (h : pool.Sound size) {chunkMaxSize : Nat} (hshrink : chunkMaxSize < pool.chunkMaxSize)
    (hvalid : pool.chunkAlloc ≤ chunkMaxSize) :
    ∃ pool', pool.resizeMemoryPool nullsZero chunkMaxSize = some pool' ∧ pool'.Sound size ∧
      pool'.used.Perm pool.used := by
  rw [← valid_length h] at hvalid
  have hlength := pool.valid_append_empty.length_eq
  rw [List.length_append] at hlength
  have hkept : (pool.kept chunkMaxSize).length = min pool.chunks.length chunkMaxSize ∧
      pool.valid.length ≤ (pool.kept chunkMaxSize).length := by
    rw [kept, List.length_append, List.length_take]
    omega
  have hshrunk : (shrunkChunks pool.chunks chunkMaxSize).length = (pool.kept chunkMaxSize).length := by
    rw [shrunkChunks_eq hvalid, List.length_mapIdx]
  have hused : pool.bufferItemMap.reduceOption.length ≤ chunkMaxSize * chunkMargin := by
    have hmargin := chunkSize_lt_margin
    have hnumber := used_length_le { pool with chunks := pool.kept chunkMaxSize }
    have hperm := (used_kept h chunkMaxSize).length_eq
    rw [used] at hnumber
    dsimp only at hnumber
    rw [h.map.length_eq]
    calc pool.used.length ≤ (pool.kept chunkMaxSize).length * chunkSize := by omega
      _ ≤ chunkMaxSize * chunkMargin := Nat.mul_le_mul (by omega) (by omega)
  obtain ⟨slots, hslots, hslotsLength, hperm⟩ := rehash_spec MemoryItem.buffer hused
  have hfirst : (pool.valid.findIdx fun chunk => !chunk.isFull) ≤ pool.valid.length := List.findIdx_le_length
  refine ⟨{ pool with
      isNull := nullsZero && chunkMaxSize = 0
      chunks := shrunkChunks pool.chunks chunkMaxSize
      free := pool.valid.findIdx fun chunk => !chunk.isFull
      bufferItemMap := slots
      chunkMaxSize }, ?_, ⟨?_, ?_, blocks_shrunk h hvalid, ?_, ?_, ?_, count_shrunk h hvalid, ?_, hslotsLength, ?_⟩,
      used_shrunk h hvalid⟩
  · have hnot : ¬ pool.chunkMaxSize < chunkMaxSize := by omega
    rw [resizeMemoryPool, if_neg (by omega), hslots]
    simp [hnot, valid]
  · intro chunk hmem
    obtain ⟨i, hi⟩ := List.mem_iff_getElem?.mp hmem
    obtain ⟨chunk', hchunk', rfl⟩ := shrunk_at hvalid hi
    have hchunk := h.chunk chunk' (mem_kept (List.mem_of_getElem? hchunk'))
    exact ⟨hchunk.length, hchunk.itemSize, hchunk.itemAlloc, hchunk.full, hchunk.free_lt, hchunk.free, hchunk.lowest,
      hchunk.fits⟩
  · intro i chunk hchunk
    obtain ⟨chunk', -, rfl⟩ := shrunk_at hvalid hchunk
    rfl
  · dsimp only
    omega
  · intro i hi chunk hchunk
    obtain ⟨chunk', hchunk', rfl⟩ := shrunk_at hvalid hchunk
    exact (first_kept h hchunk').1 hi
  · intro chunk hchunk
    obtain ⟨chunk', hchunk', rfl⟩ := shrunk_at hvalid hchunk
    exact (first_kept h hchunk').2 rfl
  · dsimp only
    omega
  · exact (hperm.trans h.map).trans (used_shrunk h hvalid).symm

theorem resize_sound (h : pool.Sound size) {chunkMaxSize : Nat} (hvalid : pool.chunkAlloc ≤ chunkMaxSize) :
    ∃ pool', pool.resizeMemoryPool nullsZero chunkMaxSize = some pool' ∧ pool'.Sound size ∧
      pool'.used.Perm pool.used := by
  rcases Nat.lt_trichotomy chunkMaxSize pool.chunkMaxSize with hlt | heq | hgt
  · exact resize_shrink nullsZero h hlt hvalid
  · exact ⟨pool, by rw [resizeMemoryPool, if_pos heq], h, List.Perm.refl _⟩
  · obtain ⟨pool', hresize, hsound, hchunks, -⟩ := resize_grow nullsZero h hgt
    refine ⟨pool', hresize, hsound, ?_⟩
    rw [used, hchunks]
    exact List.Perm.refl _

end MemoryPool

end Viriatum
