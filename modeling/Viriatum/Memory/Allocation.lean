import Viriatum.Memory.Lemmas.Calls
import Viriatum.Library.Traces

/-!
# No buffer is given out twice

The buffers of a pool that are given out and not yet taken back are those of its items in use, through every run in which
nothing is taken back above the index of a chunk that is full.
-/

namespace Viriatum

open Library

namespace PoolRun

/-- A call that is made as it is to be: the blocks of the allocator are fresh, and what is taken back has been given out. -/
def Legal (size : Nat) (r : PoolRun) : PoolCall → Prop
  | .palloc blocks => r.pool.free = r.pool.chunks.length → Fresh size blocks r.pool
  | .pfree buffer => buffer ∈ r.allocated

/-- A buffer that is taken back is not one above the index of its chunk, where the chunk is full. -/
def Ordered (r : PoolRun) : PoolCall → Prop
  | .palloc _ => True
  | .pfree buffer =>
      ∀ chunk ∈ r.pool.chunks, chunk.isFull = true → ∀ index, index < chunkSize → (chunk.item index).buffer = buffer →
        index ≤ chunk.free

/-- The buffers of the items of a chunk that are given out. -/
def owned (allocated : List Nat) (chunk : MemoryChunk) : List Nat :=
  (List.range chunkSize).filter fun index => (chunk.item index).buffer ∈ allocated

/-- What is to hold of a pool: every call has come to an end, no buffer has been given out twice, the counts of the chunks
and the map are those of the buffers that are given out, and none of these belongs to a chunk that is gone. -/
structure Right (r : PoolRun) : Prop where
  returns : r.returns = true
  distinct : r.allocated.Nodup
  itemAlloc : ∀ chunk ∈ r.pool.chunks, chunk.itemAlloc = (owned r.allocated chunk).length
  chunkAlloc : r.pool.chunkAlloc = r.pool.chunks.countP fun chunk => owned r.allocated chunk ≠ []
  map : (r.pool.bufferItemMap.reduceOption.map MemoryItem.buffer).Perm r.allocated
  items : ∀ item ∈ r.pool.bufferItemMap.reduceOption, ∃ chunk ∈ r.pool.chunks, ∃ index < chunkSize, item = chunk.item index
  alive : ∀ buffer ∈ r.allocated, ∃ chunk ∈ r.pool.chunks, ∃ index < chunkSize, (chunk.item index).buffer = buffer

/-- What is known of a run. -/
structure Sound (size : Nat) (r : PoolRun) : Prop where
  returns : r.returns = true
  pool : r.pool.Sound size
  allocated : r.allocated.Perm (r.pool.used.map MemoryItem.buffer)

variable {size : Nat} {r : PoolRun}

theorem sound_create : ({} : PoolRun).Sound size := ⟨rfl, MemoryPool.sound_empty, List.Perm.refl _⟩

theorem mem_owned (h : r.Sound size) (hsize : 0 < size) {chunk : MemoryChunk} (hchunk : chunk ∈ r.pool.chunks)
    {index : Nat} (hindex : index < chunkSize) :
    (chunk.item index).buffer ∈ r.allocated ↔ chunk.bitmap.getD index false = true := by
  obtain ⟨position, hat⟩ := List.mem_iff_getElem?.mp hchunk
  rw [h.allocated.mem_iff, List.mem_map]
  constructor
  · rintro ⟨item, hitem, hbuffer⟩
    obtain ⟨position', chunk', index', hat', hbit, hindex', rfl⟩ := MemoryPool.mem_used_at h.pool hitem
    obtain ⟨-, rfl, rfl⟩ := MemoryPool.item_unique h.pool hsize hat' hat hindex' hindex hbuffer
    simp [List.getD_eq_getElem?_getD, hbit]
  · intro hbit
    refine ⟨chunk.item index, List.mem_flatMap.mpr ⟨chunk, hchunk, List.mem_map.mpr ⟨index, ?_, rfl⟩⟩, rfl⟩
    simp only [List.mem_filter, List.mem_range]
    exact ⟨hindex, hbit⟩

theorem owned_length (h : r.Sound size) (hsize : 0 < size) {chunk : MemoryChunk} (hchunk : chunk ∈ r.pool.chunks) :
    (owned r.allocated chunk).length = chunk.itemAlloc := by
  have hsame : owned r.allocated chunk =
      (List.range chunkSize).filter fun index => chunk.bitmap.getD index false := by
    refine List.filter_congr fun index hindex => ?_
    rw [Bool.eq_iff_iff, decide_eq_true_iff]
    exact mem_owned h hsize hchunk (List.mem_range.mp hindex)
  rw [hsame, ← MemoryChunk.used_length (h.pool.chunk chunk hchunk), MemoryChunk.used, List.length_map]

theorem Sound.right (h : r.Sound size) (hsize : 0 < size) : r.Right := by
  refine ⟨h.returns, ?_, fun chunk hchunk => (owned_length h hsize hchunk).symm, ?_, ?_, ?_, ?_⟩
  · exact h.allocated.nodup_iff.mpr (MemoryPool.used_nodup h.pool hsize)
  · rw [h.pool.chunkAlloc]
    refine List.countP_congr fun chunk hchunk => ?_
    have hlength := owned_length h hsize hchunk
    rw [← hlength]
    simp [List.length_eq_zero_iff]
  · exact (h.pool.map.map MemoryItem.buffer).trans h.allocated.symm
  · intro item hitem
    obtain ⟨position, chunk, index, hat, -, hindex, rfl⟩ := MemoryPool.mem_used_at h.pool (h.pool.map.mem_iff.mp hitem)
    exact ⟨chunk, List.mem_of_getElem? hat, index, hindex, rfl⟩
  · intro buffer hbuffer
    obtain ⟨item, hitem, rfl⟩ := List.mem_map.mp (h.allocated.mem_iff.mp hbuffer)
    obtain ⟨position, chunk, index, hat, -, hindex, rfl⟩ := MemoryPool.mem_used_at h.pool hitem
    exact ⟨chunk, List.mem_of_getElem? hat, index, hindex, rfl⟩

theorem step_sound (nullsZero : Bool) (hsize : 0 < size ∧ size * chunkSize < 2 ^ 64) (h : r.Sound size)
    {call : PoolCall} (hlegal : r.Legal size call) (hordered : r.Ordered call) :
    (r.step nullsZero size call).Sound size := by
  cases call with
  | palloc blocks =>
      obtain ⟨buffer, pool, hpalloc, hsound, item, rfl, hused⟩ := MemoryPool.palloc_sound nullsZero h.pool hsize.2 hlegal
      rw [step, hpalloc]
      refine ⟨h.returns, hsound, ?_⟩
      exact (h.allocated.cons _).trans (hused.map MemoryItem.buffer).symm
  | pfree buffer =>
      obtain ⟨item, hitem, rfl⟩ := List.mem_map.mp (h.allocated.mem_iff.mp hlegal)
      obtain ⟨pool, hpfree, hsound, hused⟩ := MemoryPool.pfree_sound nullsZero h.pool hsize.1 hitem hordered
      rw [step, hpfree]
      refine ⟨h.returns, hsound, ?_⟩
      have hall := (h.allocated.trans (hused.map MemoryItem.buffer)).erase item.buffer
      simpa using hall

/-- A block for every chunk that may be created. -/
def farBlocks (index : Nat) : ChunkBlock := ⟨index, index * chunkSize⟩

theorem legal_fresh : ({} : PoolRun).Legal 1 (.palloc farBlocks) := by
  intro _
  refine ⟨?_, ?_⟩
  · simp [MemoryPool.increment, List.range_one]
  · intro index hindex
    have hzero : index = 0 := by simpa [MemoryPool.increment] using hindex
    simp [hzero, farBlocks, chunkSize]

theorem room_one : 0 < 1 ∧ 1 * chunkSize < 2 ^ 64 := by
  rw [chunkSize]
  omega

/-- A pool that has a chunk alone. -/
structure Alone (chunk : MemoryChunk) (r : PoolRun) : Prop where
  sound : r.Sound 1
  chunks : r.pool.chunks = [chunk]

variable {chunk : MemoryChunk}

theorem Alone.chunkSound (h : r.Alone chunk) : chunk.Sound 1 := h.sound.pool.chunk chunk (by simp [h.chunks])

theorem full_iff (h : chunk.Sound size) : chunk.isFull = true ↔ chunk.itemAlloc = chunkSize := by
  rw [h.full, h.itemAlloc, ← h.length, List.count_eq_length]
  constructor
  · intro hnone bit hbit
    cases bit with
    | true => rfl
    | false => exact absurd hbit hnone
  · intro hall hmem
    cases hall false hmem

theorem not_full_of_lt (h : chunk.Sound size) (hlt : chunk.itemAlloc < chunkSize) : chunk.isFull = false := by
  rw [← Bool.not_eq_true, full_iff h]
  omega

theorem Alone.free (h : r.Alone chunk) (hfull : chunk.isFull = false) : r.pool.free = 0 := by
  have hbefore := h.sound.pool.before 0
  by_contra hfree
  have hcontra := hbefore (Nat.pos_of_ne_zero hfree) chunk (by simp [h.chunks])
  rw [hfull] at hcontra
  cases hcontra

/-- An item of a chunk that is alone is given out, by a pool that is ready to. -/
theorem palloc_alone {pool ready : MemoryPool} {nullsZero : Bool} (blocks : Nat → ChunkBlock)
    (hready : pool.prepare nullsZero 1 blocks = some ready) (hroom : ready.bufferItemMap.reduceOption.length <
      ready.bufferItemMap.length) (hchunks : ready.chunks = [chunk]) (hfree : ready.free = 0) :
    ∃ pool', pool.palloc nullsZero 1 blocks = some ((chunk.item chunk.free).buffer, pool') ∧
      pool'.chunks = [chunk.takeItem] := by
  have hat : ready.chunks[ready.free]? = some chunk := by simp [hchunks, hfree]
  obtain ⟨slots, hpalloc, -, -⟩ := MemoryPool.palloc_eq nullsZero hready hat hroom
  exact ⟨_, hpalloc, by simp [MemoryPool.taken, hchunks, hfree]⟩

theorem alone_first :
    (({} : PoolRun).step false 1 (.palloc farBlocks)).Alone (createChunk (farBlocks 0) 1 0).takeItem := by
  have hsound : (({} : PoolRun).step false 1 (.palloc farBlocks)).Sound 1 :=
    step_sound false room_one sound_create legal_fresh trivial
  refine ⟨hsound, ?_⟩
  obtain ⟨ready, hready, hreadySound, -, hlt⟩ :=
    MemoryPool.prepare_sound false MemoryPool.sound_empty room_one.2 legal_fresh
  have hchunks : ready.chunks = [createChunk (farBlocks 0) 1 0] ∧ ready.free = 0 := by
    have hcomputed : ({} : MemoryPool).prepare false 1 farBlocks =
        some { MemoryPool.allocMemoryPool with chunks := [createChunk (farBlocks 0) 1 0] } := rfl
    rw [hcomputed, Option.some.injEq] at hready
    rw [← hready]
    exact ⟨rfl, rfl⟩
  obtain ⟨pool', hpalloc, hchunks'⟩ := palloc_alone _ hready (hreadySound.hasRoom hlt) hchunks.1 hchunks.2
  rw [step, hpalloc]
  exact hchunks'

theorem Alone.ready (h : r.Alone chunk) (hlt : chunk.itemAlloc < chunkSize) :
    r.pool.free < r.pool.chunks.length ∧ r.pool.free = 0 := by
  have hfree := h.free (not_full_of_lt h.chunkSound hlt)
  rw [hfree, h.chunks]
  exact ⟨Nat.zero_lt_one, rfl⟩

theorem Alone.legal (h : r.Alone chunk) (hlt : chunk.itemAlloc < chunkSize) : r.Legal 1 (.palloc farBlocks) := by
  intro hfull
  have hready := (h.ready hlt).1
  omega

theorem Alone.palloc (h : r.Alone chunk) (hlt : chunk.itemAlloc < chunkSize) :
    (r.step false 1 (.palloc farBlocks)).Alone chunk.takeItem ∧
      (r.step false 1 (.palloc farBlocks)).allocated = (chunk.item chunk.free).buffer :: r.allocated := by
  obtain ⟨hready, hfree⟩ := h.ready hlt
  obtain ⟨pool', hpalloc, hchunks⟩ := palloc_alone farBlocks
    (MemoryPool.prepare_eq false hready) (h.sound.pool.hasRoom hready) h.chunks hfree
  have hsound := step_sound false room_one h.sound (h.legal hlt) trivial
  rw [step, hpalloc] at hsound ⊢
  exact ⟨⟨hsound, hchunks⟩, rfl⟩

/-- The chunk is filled by as many calls as it has items. -/
theorem alone_filled {count : Nat} (hcount : 0 < count) (hle : count ≤ chunkSize) :
    ∃ chunk : MemoryChunk, ((List.replicate count (PoolCall.palloc farBlocks)).foldl (step false 1) {}).Alone chunk ∧
      chunk.itemAlloc = count ∧ chunk.buffer = 0 ∧
      Throughout (step false 1) (fun r call => r.Legal 1 call) {} (List.replicate count (PoolCall.palloc farBlocks)) := by
  induction count with
  | zero => omega
  | succ count ih =>
      by_cases hfirst : count = 0
      · subst hfirst
        rw [Nat.zero_add, List.replicate_one, List.foldl_cons, List.foldl_nil]
        have hitems : (createChunk (farBlocks 0) 1 0).takeItem.itemAlloc = 1 ∧
            (createChunk (farBlocks 0) 1 0).takeItem.buffer = 0 := by
          simp [createChunk, MemoryChunk.takeItem, farBlocks]
        exact ⟨_, alone_first, hitems.1, hitems.2, legal_fresh, trivial⟩
      · obtain ⟨chunk, halone, hitems, hbuffer, hlegal⟩ := ih (by omega) (by omega)
        have hlt : chunk.itemAlloc < chunkSize := by omega
        have hcalls : List.replicate (count + 1) (PoolCall.palloc farBlocks) =
            List.replicate count (PoolCall.palloc farBlocks) ++ [.palloc farBlocks] := List.replicate_succ'
        rw [hcalls, throughout_append, List.foldl_append, List.foldl_cons, List.foldl_nil]
        generalize (List.replicate count (PoolCall.palloc farBlocks)).foldl (step false 1) {} = filled at halone ⊢
        have hitems' : chunk.takeItem.itemAlloc = count + 1 := by simp [MemoryChunk.takeItem, hitems]
        obtain ⟨halone', -⟩ := halone.palloc hlt
        exact ⟨chunk.takeItem, halone', hitems', hbuffer, hlegal, halone.legal hlt, trivial⟩

/-- What takes back an item of a full chunk that is alone. -/
theorem Alone.pfree (h : r.Alone chunk) (hfull : chunk.isFull = true) {index : Nat} (hindex : index < chunkSize) :
    ∃ slots, r.step false 1 (.pfree (chunk.item index).buffer) =
        { r with
          pool := r.pool.released 0 index chunk slots
          allocated := r.allocated.erase (chunk.item index).buffer } ∧
      slots.length = r.pool.bufferItemMap.length ∧
      r.pool.bufferItemMap.reduceOption.Perm (chunk.item index :: slots.reduceOption) := by
  have hchunk := h.chunkSound
  have hat : r.pool.chunks[0]? = some chunk := by simp [h.chunks]
  have hbit : chunk.bitmap[index]? = some true := by
    have hin : index < chunk.bitmap.length := by rw [hchunk.length]; exact hindex
    rw [List.getElem?_eq_getElem hin]
    cases hvalue : chunk.bitmap[index] with
    | true => rfl
    | false => exact absurd (hvalue ▸ List.getElem_mem hin) (hchunk.full.mp hfull)
  obtain ⟨slots, hpfree, hlength, hperm⟩ := MemoryPool.pfree_eq false h.sound.pool Nat.zero_lt_one hat hbit hindex
  refine ⟨slots, ?_, hlength, hperm⟩
  have hrest : (chunk.releaseItem index).itemAlloc ≠ 0 := by
    have hitems := (full_iff hchunk).mp hfull
    have hmany : 1 < chunkSize := by decide
    simp only [MemoryChunk.releaseItem]
    omega
  rw [step, hpfree, if_neg hrest]

theorem Alone.mem_allocated (h : r.Alone chunk) (hfull : chunk.isFull = true) {index : Nat} (hindex : index < chunkSize) :
    (chunk.item index).buffer ∈ r.allocated := by
  have hchunk := h.chunkSound
  rw [mem_owned h.sound Nat.zero_lt_one (by simp [h.chunks]) hindex]
  have hin : index < chunk.bitmap.length := by rw [hchunk.length]; exact hindex
  cases hvalue : chunk.bitmap[index] with
  | true => simp [List.getD_eq_getElem?_getD, hin, hvalue]
  | false => exact absurd (hvalue ▸ List.getElem_mem hin) (hchunk.full.mp hfull)

/-- The first item of a full chunk is taken back and given out again: the index of the chunk stays on it. -/
theorem Alone.refill (h : r.Alone chunk) (hfull : chunk.isFull = true) :
    ∃ chunk', (([PoolCall.pfree (chunk.item 0).buffer, .palloc farBlocks]).foldl (step false 1) r).Alone chunk' ∧
      chunk'.isFull = true ∧ chunk'.free = 0 ∧
      Throughout (step false 1) (fun r call => r.Legal 1 call) r [.pfree (chunk.item 0).buffer, .palloc farBlocks] := by
  have hpos : 0 < chunkSize := by decide
  have hlegal : r.Legal 1 (.pfree (chunk.item 0).buffer) := h.mem_allocated hfull hpos
  have hordered : r.Ordered (.pfree (chunk.item 0).buffer) := by
    intro chunk' hchunk' _ index hindex hbuffer
    have hsame : chunk' = chunk := by simpa [h.chunks] using hchunk'
    subst hsame
    have hat : r.pool.chunks[0]? = some chunk' := by simp [h.chunks]
    have hzero := (MemoryPool.item_unique h.sound.pool Nat.zero_lt_one hat hat hindex hpos hbuffer).2.2
    omega
  have hsound := step_sound false room_one h.sound hlegal hordered
  obtain ⟨slots, hpfree, -, -⟩ := h.pfree hfull hpos
  have hreleased : (r.step false 1 (.pfree (chunk.item 0).buffer)).Alone (chunk.releaseItem 0) :=
    ⟨hsound, by simp [hpfree, MemoryPool.released, h.chunks]⟩
  have hitems := (full_iff h.chunkSound).mp hfull
  have hlt : (chunk.releaseItem 0).itemAlloc < chunkSize := by
    simp only [MemoryChunk.releaseItem]
    omega
  have hfree : (chunk.releaseItem 0).free = 0 := by
    simp only [MemoryChunk.releaseItem]
    split <;> omega
  obtain ⟨halone, -⟩ := hreleased.palloc hlt
  have hfull' : (chunk.releaseItem 0).takeItem.isFull = true := by
    rw [full_iff halone.chunkSound]
    simp only [MemoryChunk.takeItem, MemoryChunk.releaseItem]
    omega
  have hindex := (MemoryPool.takeItem_isFull (not_full_of_lt hreleased.chunkSound hlt)).mp hfull'
  exact ⟨_, halone, hfull', hindex.trans hfree, hlegal, hreleased.legal hlt, trivial⟩

/-- An item above the index of a full chunk is taken back: the item that the index is on is given out twice. -/
theorem Alone.twice (h : r.Alone chunk) (hfull : chunk.isFull = true) (hfree : chunk.free = 0) :
    ¬ (([PoolCall.pfree (chunk.item 1).buffer, .palloc farBlocks]).foldl (step false 1) r).allocated.Nodup ∧
      Throughout (step false 1) (fun r call => r.Legal 1 call) r [.pfree (chunk.item 1).buffer, .palloc farBlocks] := by
  have hpos : 0 < chunkSize ∧ 1 < chunkSize := by decide
  have hlegal : r.Legal 1 (.pfree (chunk.item 1).buffer) := h.mem_allocated hfull hpos.2
  have hat : r.pool.chunks[0]? = some chunk := by simp [h.chunks]
  have hindex : chunk.index = 0 := h.sound.pool.index 0 chunk hat
  have hlast : r.pool.free = 1 := by
    have hle := h.sound.pool.free_le
    have hfirst := h.sound.pool.first chunk
    rw [h.chunks, List.length_singleton] at hle
    by_contra hne
    have hzero : r.pool.free = 0 := by omega
    have hnot := hfirst (by rw [hzero, hat])
    rw [hfull] at hnot
    cases hnot
  obtain ⟨slots, hpfree, hlength, hperm⟩ := h.pfree hfull hpos.2
  have hroom : slots.reduceOption.length < slots.length := by
    have hcount := hperm.length_eq
    have hmap := h.sound.pool.map.length_eq
    have hused := r.pool.used_length_le
    have hmax := h.sound.pool.room
    have hmargin := MemoryPool.chunkSize_lt_margin
    have hroom' := h.sound.pool.length
    rw [List.length_cons] at hcount
    rw [h.chunks, List.length_singleton] at hused hmax
    have hmargin' : 1 * chunkMargin ≤ r.pool.chunkMaxSize * chunkMargin := Nat.mul_le_mul_right _ hmax
    omega
  have hchunks : (r.pool.released 0 1 chunk slots).chunks = [chunk.releaseItem 1] ∧
      (r.pool.released 0 1 chunk slots).free = 0 := by simp [MemoryPool.released, h.chunks, hindex, hlast]
  have hready : (r.pool.released 0 1 chunk slots).free < (r.pool.released 0 1 chunk slots).chunks.length := by
    rw [hchunks.1, hchunks.2]
    exact Nat.zero_lt_one
  obtain ⟨pool', hpalloc, -⟩ := palloc_alone farBlocks (MemoryPool.prepare_eq false hready) hroom hchunks.1
    hchunks.2
  have hsame : ((chunk.releaseItem 1).item (chunk.releaseItem 1).free).buffer = (chunk.item 0).buffer := by
    have hzero : (chunk.releaseItem 1).free = 0 := by simp [MemoryChunk.releaseItem, hfree]
    rw [hzero]
    rfl
  have hother : (chunk.item 0).buffer ≠ (chunk.item 1).buffer := by
    intro heq
    have hcontra := (MemoryPool.item_unique h.sound.pool Nat.zero_lt_one hat hat hpos.1 hpos.2 heq).2.2
    omega
  refine ⟨?_, hlegal, ?_, trivial⟩
  · have hmem : (chunk.item 0).buffer ∈ r.allocated.erase (chunk.item 1).buffer :=
      (List.mem_erase_of_ne hother).mpr (h.mem_allocated hfull hpos.1)
    rw [List.foldl_cons, List.foldl_cons, List.foldl_nil, hpfree, step, hpalloc, hsame]
    simp [hmem]
  · rw [hpfree]
    intro hfullPool
    exact absurd hfullPool (Nat.ne_of_lt hready)

end PoolRun

end Viriatum
