import Viriatum.Memory.Lemmas.Pool

/-!
# The calls of a pool

What a call that gives out a buffer and one that takes it back do to a sound pool.
-/

namespace Viriatum

open Library

namespace MemoryPool

variable {size : Nat} {pool : MemoryPool} (nullsZero : Bool) {blocks : Nat → ChunkBlock}

/-! ## Getting ready -/

theorem extend_sound (h : pool.Sound size) (hfull : pool.free = pool.chunks.length) (hsize : size * chunkSize < 2 ^ 64)
    (hfresh : Fresh size blocks pool) :
    ∃ pool', pool.extend nullsZero size blocks = some pool' ∧ pool'.Sound size ∧ pool'.used.Perm pool.used ∧
      pool'.free < pool'.chunks.length := by
  have hincrement := pool.increment_pos
  have hlast : ∀ resized : MemoryPool, resized.Sound size → resized.chunks = pool.chunks → resized.free = pool.free →
      pool.chunks.length + pool.increment ≤ resized.chunkMaxSize →
      ∃ pool', (some resized).map (fun resized =>
          ({ resized with chunks := resized.chunks ++ pool.createdChunks size blocks } : MemoryPool)) = some pool' ∧
        pool'.Sound size ∧ pool'.used.Perm pool.used ∧ pool'.free < pool'.chunks.length := by
    intro resized hresized hchunks hfree hroom
    have hsame : resized.increment = pool.increment := by rw [increment, increment, hchunks]
    have hcreated : resized.createdChunks size blocks = pool.createdChunks size blocks := by
      rw [createdChunks, createdChunks, hsame, hchunks]
    have hfresh' : Fresh size blocks resized :=
      ⟨by rw [hchunks, hsame]; exact hfresh.apart, by rw [hsame]; exact hfresh.fits⟩
    obtain ⟨hsound, hused⟩ := sound_created hresized (by rw [hfree, hchunks, hfull]) hsize hfresh'
      (by rw [hsame, hchunks]; exact hroom)
    rw [hcreated] at hsound hused
    refine ⟨_, rfl, hsound, ?_, ?_⟩
    · rw [hused, used, hchunks]
      exact List.Perm.refl _
    · simp [hfree, hfull, hchunks, createdChunks]
      omega
  rw [extend]
  by_cases hroom : pool.chunks.length + pool.increment > pool.chunkMaxSize
  · obtain ⟨resized, hresize, hsound, hchunks, hfree, hmax⟩ := resize_grow nullsZero h hroom
    rw [if_pos hroom, hresize]
    exact hlast resized hsound hchunks hfree (Nat.le_of_eq hmax.symm)
  · rw [if_neg hroom]
    exact hlast pool h rfl rfl (by omega)

theorem prepare_sound (h : pool.Sound size) (hsize : size * chunkSize < 2 ^ 64)
    (hfresh : pool.free = pool.chunks.length → Fresh size blocks pool) :
    ∃ pool', pool.prepare nullsZero size blocks = some pool' ∧ pool'.Sound size ∧ pool'.used.Perm pool.used ∧
      pool'.free < pool'.chunks.length := by
  rw [prepare]
  by_cases hnull : (pool.isNull && pool.chunks.isEmpty) = true
  · have hchunks : pool.chunks = [] := List.isEmpty_iff.mp (Bool.and_eq_true_iff.mp hnull).2
    have hfree : pool.free = pool.chunks.length := by
      have hle := h.free_le
      simp only [hchunks, List.length_nil] at hle ⊢
      omega
    have hfresh' : Fresh size blocks allocMemoryPool := by
      have hnone := hfresh hfree
      have hsame : allocMemoryPool.increment = pool.increment ∧ allocMemoryPool.chunks = pool.chunks := by
        rw [increment, increment, hchunks]
        exact ⟨rfl, rfl⟩
      exact ⟨by rw [hsame.1, hsame.2]; exact hnone.apart, by rw [hsame.1]; exact hnone.fits⟩
    obtain ⟨pool', hextend, hsound, hused, hlt⟩ := extend_sound nullsZero sound_alloc rfl hsize hfresh'
    have hsame : pool.used = allocMemoryPool.used := by rw [used, used, hchunks]; rfl
    refine ⟨pool', ?_, hsound, hsame ▸ hused, hlt⟩
    rw [if_pos hnull, ← hextend]
    rfl
  · rw [if_neg hnull]
    by_cases hfull : pool.free = pool.chunks.length
    · rw [if_pos hfull]
      exact extend_sound nullsZero h hfull hsize (hfresh hfull)
    · rw [if_neg hfull]
      exact ⟨pool, rfl, h, List.Perm.refl _, Nat.lt_of_le_of_ne h.free_le hfull⟩

/-! ## Changing a chunk -/

section Chunk

variable {chunk : MemoryChunk} (chunk' : MemoryChunk) {position : Nat} (hat : pool.chunks[position]? = some chunk)
include hat

theorem set_at (i : Nat) :
    (pool.chunks.set position chunk')[i]? = if i = position then some chunk' else pool.chunks[i]? := by
  have hin := (List.getElem?_eq_some_iff.mp hat).1
  rw [List.getElem?_set]
  by_cases hi : position = i
  · simp [← hi, hin]
  · simp [hi, Ne.symm hi]

/-- A chunk that is replaced by one in its place leaves the blocks as they are. -/
theorem blocks_set (hblock : chunk'.block = chunk.block) :
    (pool.chunks.set position chunk').map MemoryChunk.block = pool.chunks.map MemoryChunk.block := by
  obtain ⟨hin, hchunk⟩ := List.getElem?_eq_some_iff.mp hat
  have hin' : position < (pool.chunks.map MemoryChunk.block).length := by simpa using hin
  have hsame : chunk.block = (pool.chunks.map MemoryChunk.block)[position] := by
    rw [List.getElem_map, hchunk]
  rw [List.map_set, hblock, hsame, List.set_getElem_self]

theorem count_set :
    (pool.chunks.set position chunk').countP (fun chunk => chunk.itemAlloc ≠ 0) +
        (if chunk.itemAlloc = 0 then 0 else 1) =
      pool.chunks.countP (fun chunk => chunk.itemAlloc ≠ 0) + (if chunk'.itemAlloc = 0 then 0 else 1) := by
  obtain ⟨hin, hchunk⟩ := List.getElem?_eq_some_iff.mp hat
  have hpos : chunk.itemAlloc ≠ 0 → 0 < pool.chunks.countP fun chunk => chunk.itemAlloc ≠ 0 := fun hused =>
    List.countP_pos_iff.mpr ⟨chunk, List.mem_of_getElem? hat, by simpa using hused⟩
  rw [List.countP_set hin, hchunk]
  generalize pool.chunks.countP (fun chunk => chunk.itemAlloc ≠ 0) = count at hpos ⊢
  by_cases hempty : chunk.itemAlloc = 0
  · simp [hempty]
  · have hcount := hpos hempty
    by_cases hempty' : chunk'.itemAlloc = 0
    · simp [hempty, hempty']
      omega
    · simp [hempty, hempty']
      omega

end Chunk

/-! ## Giving out a buffer -/

theorem takeItem_isFull {chunk : MemoryChunk} (hfull : chunk.isFull = false) :
    chunk.takeItem.isFull = true ↔ chunk.takeItem.free = chunk.free := by
  simp only [MemoryChunk.takeItem, hfull, Bool.false_or]
  cases hnext : positionFrom (! ·) (chunk.bitmap.set chunk.free true) (chunk.free + 1) with
  | none => simp
  | some next =>
      have hle := (positionFrom_some hnext).1
      simp
      omega

/-- The first chunk with a free item is known once an item has been taken. -/
theorem taken_indexes (h : pool.Sound size) {chunk : MemoryChunk} (hat : pool.chunks[pool.free]? = some chunk)
    (slots : List (Option MemoryItem)) :
    (pool.taken chunk slots).free ≤ pool.chunks.length ∧
      (∀ i < (pool.taken chunk slots).free, ∀ chunk', (pool.chunks.set pool.free chunk.takeItem)[i]? = some chunk' →
        chunk'.isFull = true) ∧
      ∀ chunk', (pool.chunks.set pool.free chunk.takeItem)[(pool.taken chunk slots).free]? = some chunk' →
        chunk'.isFull = false := by
  have hset := set_at chunk.takeItem hat
  have hfree : (pool.taken chunk slots).free = if chunk.takeItem.isFull then
      (positionFrom (fun chunk => !chunk.isFull) (pool.chunks.set pool.free chunk.takeItem) (pool.free + 1)).getD
        (pool.chunks.set pool.free chunk.takeItem).length else pool.free := by
    have hiff := takeItem_isFull (h.first chunk hat)
    simp only [taken, hiff]
  have hbefore : ∀ i < pool.free, ∀ chunk', (pool.chunks.set pool.free chunk.takeItem)[i]? = some chunk' →
      chunk'.isFull = true := by
    intro i hi chunk' hchunk'
    rw [hset, if_neg (by omega)] at hchunk'
    exact h.before i hi chunk' hchunk'
  rw [hfree]
  cases hfull : chunk.takeItem.isFull with
  | false =>
      rw [if_neg (by simp)]
      refine ⟨h.free_le, hbefore, fun chunk' hchunk' => ?_⟩
      rw [hset, if_pos rfl] at hchunk'
      cases hchunk'
      exact hfull
  | true =>
      rw [if_pos rfl]
      cases hnext : positionFrom (fun chunk => !chunk.isFull) (pool.chunks.set pool.free chunk.takeItem)
          (pool.free + 1) with
      | none =>
          have hafter := positionFrom_none hnext
          rw [Option.getD_none, List.length_set]
          refine ⟨Nat.le_refl _, fun i hi chunk' hchunk' => ?_, fun chunk' hchunk' => ?_⟩
          · rcases Nat.lt_trichotomy i pool.free with hlt | rfl | hgt
            · exact hbefore i hlt chunk' hchunk'
            · rw [hset, if_pos rfl] at hchunk'
              cases hchunk'
              exact hfull
            · simpa using hafter i hgt chunk' hchunk'
          · have hlast := (List.getElem?_eq_some_iff.mp hchunk').1
            simp at hlast
      | some next =>
          obtain ⟨hle, ⟨chunk'', hchunk'', htest⟩, hbetween⟩ := positionFrom_some hnext
          have hlast := (List.getElem?_eq_some_iff.mp hchunk'').1
          rw [List.length_set] at hlast
          rw [Option.getD_some]
          refine ⟨Nat.le_of_lt hlast, fun i hi chunk' hchunk' => ?_, fun chunk' hchunk' => ?_⟩
          · rcases Nat.lt_trichotomy i pool.free with hlt | rfl | hgt
            · exact hbefore i hlt chunk' hchunk'
            · rw [hset, if_pos rfl] at hchunk'
              cases hchunk'
              exact hfull
            · simpa using hbetween i hgt hi chunk' hchunk'
          · rw [hchunk''] at hchunk'
            cases hchunk'
            simpa using htest

theorem taken_sound (h : pool.Sound size) {chunk : MemoryChunk} (hat : pool.chunks[pool.free]? = some chunk)
    {slots : List (Option MemoryItem)} (hlength : slots.length = pool.bufferItemMap.length)
    (hslots : slots.reduceOption.Perm (chunk.item chunk.free :: pool.bufferItemMap.reduceOption)) :
    (pool.taken chunk slots).Sound size ∧
      (pool.taken chunk slots).used.Perm (chunk.item chunk.free :: pool.used) := by
  have hchunk := h.chunk chunk (List.mem_of_getElem? hat)
  have hnot := h.first chunk hat
  have hset := set_at chunk.takeItem hat
  have hused : (pool.taken chunk slots).used.Perm (chunk.item chunk.free :: pool.used) :=
    flatMap_set_cons hat (MemoryChunk.used_take hchunk hnot)
  have hindexes := taken_indexes h hat slots
  refine ⟨⟨?_, ?_, ?_, ?_, hindexes.2.1, hindexes.2.2, ?_, ?_, hlength.trans h.length, ?_⟩, hused⟩
  · intro chunk' hmem
    rcases List.mem_or_eq_of_mem_set hmem with hmem | rfl
    · exact h.chunk chunk' hmem
    · exact hchunk.take hnot
  · intro i chunk' hchunk'
    have hchunk' : (pool.chunks.set pool.free chunk.takeItem)[i]? = some chunk' := hchunk'
    rw [hset] at hchunk'
    split at hchunk'
    case isTrue hi =>
      cases hchunk'
      rw [hi]
      exact h.index pool.free chunk hat
    case isFalse => exact h.index i chunk' hchunk'
  · have hblocks := blocks_set chunk.takeItem hat rfl
    simp only [taken, hblocks]
    exact h.apart
  · have hle := hindexes.1
    simpa [taken] using hle
  · have hcount := count_set chunk.takeItem hat
    have htaken : chunk.takeItem.itemAlloc ≠ 0 := Nat.succ_ne_zero _
    rw [if_neg htaken, ← h.chunkAlloc] at hcount
    simp only [taken]
    split at hcount <;> simp_all
  · simpa [taken] using h.room
  · exact hslots.trans ((List.Perm.cons _ h.map).trans hused.symm)

theorem Sound.hasRoom (h : pool.Sound size) (hlt : pool.free < pool.chunks.length) :
    pool.bufferItemMap.reduceOption.length < pool.bufferItemMap.length := by
  have hmargin := chunkSize_lt_margin
  have hnumber := pool.used_length_le
  have hmax := h.room
  rw [h.map.length_eq, h.length]
  calc pool.used.length ≤ pool.chunks.length * chunkSize := hnumber
    _ < pool.chunks.length * chunkMargin := Nat.mul_lt_mul_of_pos_left hmargin (by omega)
    _ ≤ pool.chunkMaxSize * chunkMargin := Nat.mul_le_mul_right _ hmax

/-- The buffer that is given out is the one of the lowest free item of the first chunk that has one. -/
theorem palloc_eq {ready : MemoryPool} (hready : pool.prepare nullsZero size blocks = some ready) {chunk : MemoryChunk}
    (hat : ready.chunks[ready.free]? = some chunk)
    (hroom : ready.bufferItemMap.reduceOption.length < ready.bufferItemMap.length) :
    ∃ slots, pool.palloc nullsZero size blocks = some ((chunk.item chunk.free).buffer, ready.taken chunk slots) ∧
      slots.length = ready.bufferItemMap.length ∧
      slots.reduceOption.Perm (chunk.item chunk.free :: ready.bufferItemMap.reduceOption) := by
  obtain ⟨slots, hslots, hlength, hperm⟩ := place_spec MemoryItem.buffer hroom (chunk.item chunk.free)
  refine ⟨slots, ?_, hlength, hperm⟩
  rw [palloc, hready]
  simp [hat, hslots]

theorem prepare_eq (hlt : pool.free < pool.chunks.length) : pool.prepare nullsZero size blocks = some pool := by
  have hsome : pool.chunks.isEmpty = false := by
    rw [List.isEmpty_eq_false_iff]
    intro hnil
    simp [hnil] at hlt
  have hfull : pool.free ≠ pool.chunks.length := Nat.ne_of_lt hlt
  simp [prepare, hsome, hfull]

/-- A buffer is given out of a sound pool. -/
theorem palloc_sound (h : pool.Sound size) (hsize : size * chunkSize < 2 ^ 64)
    (hfresh : pool.free = pool.chunks.length → Fresh size blocks pool) :
    ∃ buffer pool', pool.palloc nullsZero size blocks = some (buffer, pool') ∧ pool'.Sound size ∧
      ∃ item, item.buffer = buffer ∧ pool'.used.Perm (item :: pool.used) := by
  obtain ⟨ready, hready, hsound, hused, hlt⟩ := prepare_sound nullsZero h hsize hfresh
  have hat : ready.chunks[ready.free]? = some (ready.chunks[ready.free]) := List.getElem?_eq_getElem hlt
  obtain ⟨slots, hpalloc, hlength, hperm⟩ := palloc_eq nullsZero hready hat (hsound.hasRoom hlt)
  obtain ⟨hsound', hused'⟩ := taken_sound hsound hat hlength hperm
  exact ⟨_, _, hpalloc, hsound', _, rfl, hused'.trans (hused.cons _)⟩

/-! ## Items and their buffers -/

theorem pairwise_at (h : pool.Sound size) {i j : Nat} (hij : i < j) {a b : MemoryChunk}
    (ha : pool.chunks[i]? = some a) (hb : pool.chunks[j]? = some b) : Apart (size * chunkSize) a.block b.block := by
  obtain ⟨hi, rfl⟩ := List.getElem?_eq_some_iff.mp ha
  obtain ⟨hj, rfl⟩ := List.getElem?_eq_some_iff.mp hb
  have hall := List.pairwise_iff_getElem.mp h.apart i j (by simpa using hi) (by simpa using hj) hij
  simpa using hall

theorem apart_at (h : pool.Sound size) {i j : Nat} (hij : i ≠ j) {a b : MemoryChunk}
    (ha : pool.chunks[i]? = some a) (hb : pool.chunks[j]? = some b) : Apart (size * chunkSize) a.block b.block := by
  rcases Nat.lt_or_gt_of_ne hij with hlt | hgt
  · exact pairwise_at h hlt ha hb
  · exact (pairwise_at h hgt hb ha).symm

theorem mem_used_at {item : MemoryItem} (h : pool.Sound size) (hmem : item ∈ pool.used) :
    ∃ (position : Nat) (chunk : MemoryChunk) (index : Nat), pool.chunks[position]? = some chunk ∧
      chunk.bitmap[index]? = some true ∧ index < chunkSize ∧ item = chunk.item index := by
  obtain ⟨chunk, hchunk, hitem⟩ := List.mem_flatMap.mp hmem
  obtain ⟨position, hposition⟩ := List.mem_iff_getElem?.mp hchunk
  obtain ⟨index, hbit, rfl⟩ := (MemoryChunk.mem_used (h.chunk chunk hchunk)).mp hitem
  have hlt := (List.getElem?_eq_some_iff.mp hbit).1
  rw [(h.chunk chunk hchunk).length] at hlt
  exact ⟨position, chunk, index, hposition, hbit, hlt, rfl⟩

/-- The buffers of a pool are those of one item each. -/
theorem item_unique (h : pool.Sound size) (hsize : 0 < size) {i j a b : Nat} {chunk chunk' : MemoryChunk}
    (hi : pool.chunks[i]? = some chunk) (hj : pool.chunks[j]? = some chunk') (ha : a < chunkSize) (hb : b < chunkSize)
    (hsame : (chunk.item a).buffer = (chunk'.item b).buffer) : i = j ∧ chunk = chunk' ∧ a = b := by
  obtain ⟨hbuffer, hinside⟩ := MemoryChunk.item_buffer (h.chunk chunk (List.mem_of_getElem? hi)) hsize ha
  obtain ⟨hbuffer', hinside'⟩ := MemoryChunk.item_buffer (h.chunk chunk' (List.mem_of_getElem? hj)) hsize hb
  have hposition : i = j := by
    by_contra hij
    have hapart := (apart_at h hij hi hj).2
    simp only [MemoryChunk.block] at hapart
    omega
  subst hposition
  rw [hi, Option.some.injEq] at hj
  subst hj
  have hoffset : size * a = size * b := by omega
  exact ⟨rfl, rfl, Nat.eq_of_mul_eq_mul_left hsize hoffset⟩

theorem chunk_of_mem_used {chunk : MemoryChunk} {item : MemoryItem} (h : item ∈ chunk.used) :
    item.chunk = chunk.pointer := by
  obtain ⟨index, -, rfl⟩ := List.mem_map.mp h
  rfl

/-- No buffer belongs to two of the items in use. -/
theorem used_nodup (h : pool.Sound size) (hsize : 0 < size) : (pool.used.map MemoryItem.buffer).Nodup := by
  have hnodup : pool.used.Nodup := by
    rw [used, List.nodup_flatMap]
    constructor
    · intro chunk _
      refine List.Nodup.map_on (fun i _ j _ hij => ?_) (List.nodup_range.filter _)
      exact congrArg MemoryItem.index hij
    · have hpointers := List.pairwise_map.mp h.apart
      refine hpointers.imp fun {a b} hapart item ha hb => ?_
      exact hapart.1 ((chunk_of_mem_used ha).symm.trans (chunk_of_mem_used hb))
  refine hnodup.map_on fun item hitem item' hitem' hsame => ?_
  obtain ⟨i, chunk, a, hi, -, ha, rfl⟩ := mem_used_at h hitem
  obtain ⟨j, chunk', b, hj, -, hb, rfl⟩ := mem_used_at h hitem'
  obtain ⟨-, rfl, rfl⟩ := item_unique h hsize hi hj ha hb hsame
  rfl

/-! ## Taking a buffer back -/

theorem released_sound (h : pool.Sound size) {position index : Nat} {chunk : MemoryChunk}
    (hat : pool.chunks[position]? = some chunk) (hused : chunk.bitmap[index]? = some true)
    (hindex : chunk.isFull = true → index ≤ chunk.free) {slots : List (Option MemoryItem)}
    (hlength : slots.length = pool.bufferItemMap.length)
    (hslots : pool.bufferItemMap.reduceOption.Perm (chunk.item index :: slots.reduceOption)) :
    ({ pool.released position index chunk slots with
        chunkAlloc := if (chunk.releaseItem index).itemAlloc = 0 then pool.chunkAlloc - 1 else pool.chunkAlloc } :
        MemoryPool).Sound size ∧
      pool.used.Perm (chunk.item index :: (pool.released position index chunk slots).used) := by
  have hchunk := h.chunk chunk (List.mem_of_getElem? hat)
  have hset := set_at (chunk.releaseItem index) hat
  have hposition := h.index position chunk hat
  have hin := (List.getElem?_eq_some_iff.mp hat).1
  have hle := h.free_le
  have hperm : pool.used.Perm (chunk.item index :: (pool.released position index chunk slots).used) :=
    flatMap_set_uncons hat (MemoryChunk.used_release hchunk hused)
  have hkept : ∀ i chunk', i ≠ position → (pool.chunks.set position (chunk.releaseItem index))[i]? = some chunk' →
      pool.chunks[i]? = some chunk' := by
    intro i chunk' hi hchunk'
    rwa [hset, if_neg hi] at hchunk'
  have hitems : chunk.itemAlloc ≠ 0 := by
    rw [hchunk.itemAlloc, ← Nat.pos_iff_ne_zero, List.count_pos_iff]
    exact List.mem_of_getElem? hused
  refine ⟨⟨?_, ?_, ?_, ?_, ?_, ?_, ?_, ?_, hlength.trans h.length, ?_⟩, hperm⟩
  · intro chunk' hmem
    rcases List.mem_or_eq_of_mem_set hmem with hmem | rfl
    · exact h.chunk chunk' hmem
    · exact hchunk.release hused hindex
  · intro i chunk' hchunk'
    have hchunk' : (pool.chunks.set position (chunk.releaseItem index))[i]? = some chunk' := hchunk'
    by_cases hi : i = position
    · rw [hset, if_pos hi] at hchunk'
      cases hchunk'
      rw [hi]
      exact hposition
    · exact h.index i chunk' (hkept i chunk' hi hchunk')
  · have hblocks := blocks_set (chunk.releaseItem index) hat rfl
    simp only [released, hblocks]
    exact h.apart
  · simp only [released, List.length_set]
    split <;> omega
  · intro i hi chunk' hchunk'
    simp only [released, hposition] at hi hchunk'
    have hbelow : i ≠ position ∧ i < pool.free := by
      split at hi <;> omega
    exact h.before i hbelow.2 chunk' (hkept i chunk' hbelow.1 hchunk')
  · intro chunk' hchunk'
    simp only [released, hposition] at hchunk'
    by_cases hfirst : position < pool.free
    · rw [if_pos hfirst, hset, if_pos rfl] at hchunk'
      cases hchunk'
      rfl
    · rw [if_neg hfirst] at hchunk'
      by_cases hsame : pool.free = position
      · rw [hset, if_pos hsame] at hchunk'
        cases hchunk'
        rfl
      · exact h.first chunk' (hkept _ chunk' hsame hchunk')
  · have hcount := count_set (chunk.releaseItem index) hat
    rw [if_neg hitems, ← h.chunkAlloc] at hcount
    simp only [released]
    split at hcount <;> simp_all
    omega
  · simpa [released] using h.room
  · exact (List.Perm.cons_inv (hslots.symm.trans (h.map.trans hperm)))

/-- The position of an item in its chunk, found by the address of its buffer. -/
theorem index_of_buffer {chunk : MemoryChunk} (h : chunk.Sound size) (hsize : 0 < size) {index : Nat}
    (hindex : index < chunkSize) :
    ((chunk.item index).buffer + (2 ^ 64 - chunk.buffer)) % 2 ^ 64 / chunk.itemSize = index := by
  obtain ⟨hbuffer, hinside⟩ := MemoryChunk.item_buffer h hsize hindex
  have hfits := h.fits
  have hsum : chunk.buffer + size * index + (2 ^ 64 - chunk.buffer) = size * index + 2 ^ 64 := by omega
  rw [hbuffer, h.itemSize, hsum, Nat.add_mod_right, Nat.mod_eq_of_lt (by omega), Nat.mul_div_cancel_left _ hsize]

/-- A buffer that is in use is found in the map, and put back into its chunk. -/
theorem pfree_eq (h : pool.Sound size) (hsize : 0 < size) {position index : Nat} {chunk : MemoryChunk}
    (hat : pool.chunks[position]? = some chunk) (hbit : chunk.bitmap[index]? = some true) (hlt : index < chunkSize) :
    ∃ slots, pool.pfree nullsZero (chunk.item index).buffer =
        (if (chunk.releaseItem index).itemAlloc = 0 then
          let less := { pool.released position index chunk slots with chunkAlloc := pool.chunkAlloc - 1 }
          if less.chunkAlloc = less.chunkMaxSize / 3 then less.resizeMemoryPool nullsZero (less.chunkMaxSize / 2)
          else some less
        else some (pool.released position index chunk slots)) ∧
      slots.length = pool.bufferItemMap.length ∧
      pool.bufferItemMap.reduceOption.Perm (chunk.item index :: slots.reduceOption) := by
  have hchunk := h.chunk chunk (List.mem_of_getElem? hat)
  have hmem : chunk.item index ∈ pool.used :=
    List.mem_flatMap.mpr ⟨chunk, List.mem_of_getElem? hat, (MemoryChunk.mem_used hchunk).mpr ⟨index, hbit, rfl⟩⟩
  have hslot : some (chunk.item index) ∈ pool.bufferItemMap := by
    have hreduced := h.map.mem_iff.mpr hmem
    exact List.reduceOption_mem_iff.mp hreduced
  obtain ⟨place, hplace⟩ : ∃ place, probe (fun slot => slot.any fun item => item.buffer = (chunk.item index).buffer)
      pool.bufferItemMap ((chunk.item index).buffer % pool.bufferItemMap.length) = some place :=
    exists_probe hslot (by simp) _
  obtain ⟨slot, hslotAt, htest⟩ := probe_some hplace
  have hfound : slot = some (chunk.item index) := by
    cases slot with
    | none => simp at htest
    | some item =>
        have hsame : item.buffer = (chunk.item index).buffer := by simpa using htest
        have hitem : item ∈ pool.used :=
          h.map.mem_iff.mp (List.reduceOption_mem_iff.mpr (List.mem_of_getElem? hslotAt))
        exact congrArg some (List.inj_on_of_nodup_map (used_nodup h hsize) hitem hmem hsame)
  subst hfound
  have hpointer : pool.chunks.findIdx? (fun chunk' => chunk'.pointer = (chunk.item index).chunk) = some position := by
    rw [List.findIdx?_eq_some_iff_getElem]
    obtain ⟨hin, hself⟩ := List.getElem?_eq_some_iff.mp hat
    refine ⟨hin, by rw [hself]; simp [MemoryChunk.item], fun j hj => ?_⟩
    have hapart := (pairwise_at h hj (List.getElem?_eq_getElem (by omega)) hat).1
    have hne : pool.chunks[j].pointer ≠ chunk.pointer := hapart
    simp [MemoryChunk.item, hne]
  have hsizeNe : chunk.itemSize ≠ 0 := by
    rw [hchunk.itemSize]
    omega
  refine ⟨pool.bufferItemMap.set place none, ?_, List.length_set, reduceOption_clear hslotAt⟩
  rw [pfree, hplace]
  simp only [Option.bind_eq_bind, Option.bind_some, hslotAt, Option.join_some, hpointer, hat, if_neg hsizeNe,
    index_of_buffer hchunk hsize hlt]
  rfl

/-- A buffer that is in use is taken back, into a chunk that is not full or at most at its index. -/
theorem pfree_sound (h : pool.Sound size) (hsize : 0 < size) {item : MemoryItem} (hmem : item ∈ pool.used)
    (hindex : ∀ chunk ∈ pool.chunks, chunk.isFull = true → ∀ index, index < chunkSize →
      (chunk.item index).buffer = item.buffer → index ≤ chunk.free) :
    ∃ pool', pool.pfree nullsZero item.buffer = some pool' ∧ pool'.Sound size ∧ pool.used.Perm (item :: pool'.used) := by
  obtain ⟨position, chunk, index, hat, hbit, hlt, rfl⟩ := mem_used_at h hmem
  obtain ⟨slots, hpfree, hlength, hslots⟩ := pfree_eq nullsZero h hsize hat hbit hlt
  obtain ⟨hsound, hperm⟩ := released_sound h hat hbit
    (fun hfull => hindex chunk (List.mem_of_getElem? hat) hfull index hlt rfl) hlength hslots
  rw [hpfree]
  by_cases hempty : (chunk.releaseItem index).itemAlloc = 0
  · rw [if_pos hempty]
    rw [if_pos hempty] at hsound
    dsimp only
    split
    case isTrue hshrink =>
      have hroom : pool.chunkAlloc - 1 ≤ pool.chunkMaxSize / 2 := by
        have hshrink : pool.chunkAlloc - 1 = pool.chunkMaxSize / 3 := hshrink
        omega
      obtain ⟨pool', hresize, hsound', hperm'⟩ := resize_sound nullsZero hsound hroom
      exact ⟨pool', hresize, hsound', hperm.trans (List.Perm.cons _ hperm'.symm)⟩
    case isFalse => exact ⟨_, rfl, hsound, hperm⟩
  · rw [if_neg hempty]
    rw [if_neg hempty] at hsound
    exact ⟨_, rfl, hsound, hperm⟩

end MemoryPool

end Viriatum
