import Mathlib.Algebra.Group.Nat.Defs
import Viriatum.Library.OpenAddressing

/-!
# The memory pool

A pool gives out the items of its chunks. A chunk knows the lowest of its free items, the pool the first of the chunks
that has one, and the map of the pool tells of a buffer which item it belongs to.
-/

namespace Viriatum

open Library

def chunkSize : Nat := 10240

/-- The places of the map for each chunk: the size of the chunk times its factor. -/
def chunkMargin : Nat := 14336

structure MemoryItem where
  index : Nat
  chunk : Nat
  buffer : Nat
deriving DecidableEq, Repr

/-- What the allocator gives for a chunk: the place of its structure, and of its buffer. -/
structure ChunkBlock where
  pointer : Nat
  buffer : Nat
deriving DecidableEq, Repr

structure MemoryChunk where
  pointer : Nat
  index : Nat
  bitmap : List Bool := List.replicate chunkSize false
  isFull : Bool := false
  free : Nat := 0
  buffer : Nat
  itemAlloc : Nat := 0
  itemSize : Nat
deriving DecidableEq, Repr

def MemoryChunk.item (chunk : MemoryChunk) (index : Nat) : MemoryItem :=
  ⟨index, chunk.pointer, (chunk.buffer + chunk.itemSize * index) % 2 ^ 64⟩

def createChunk (block : ChunkBlock) (size index : Nat) : MemoryChunk :=
  { pointer := block.pointer, index, buffer := block.buffer, itemSize := size }

/-- The pool. The lengths of its list and of its map are the counts of the chunks and of the items that there is room
for; its chunks are not there before the first of the calls. -/
structure MemoryPool where
  isNull : Bool := true
  chunks : List MemoryChunk := []
  bufferItemMap : List (Option MemoryItem) := []
  free : Nat := 0
  chunkAlloc : Nat := 0
  chunkMaxSize : Nat := 0
deriving DecidableEq, Repr

/-- The first position from a given one on with what passes a test. -/
def positionFrom {α : Type} (test : α → Bool) (items : List α) (start : Nat) : Option Nat :=
  ((items.drop start).findIdx? test).map (· + start)

namespace MemoryPool

/-- Sets up a pool of the default size. -/
def allocMemoryPool : MemoryPool :=
  { isNull := false, chunkMaxSize := 4, bufferItemMap := List.replicate (4 * chunkMargin) none }

/-- The chunks of a pool that gets smaller: those in use, then as many of the others as there is room for. -/
def shrunkChunks (chunks : List MemoryChunk) (chunkMaxSize : Nat) : List MemoryChunk :=
  let valid := chunks.filter fun chunk => chunk.itemAlloc ≠ 0
  let empty := chunks.filter fun chunk => chunk.itemAlloc = 0
  let filling := if valid.length ≤ chunkMaxSize then empty.take (chunkMaxSize - valid.length) else empty
  ((valid ++ filling).take (min chunks.length chunkMaxSize)).mapIdx fun index chunk => { chunk with index }

/-- Resizes the pool; it does not come to an end where the map has no room. No bytes at all may be allocated as nothing,
as the platform has it. -/
def resizeMemoryPool (nullsZero : Bool) (pool : MemoryPool) (chunkMaxSize : Nat) : Option MemoryPool :=
  if chunkMaxSize = pool.chunkMaxSize then some pool
  else
    let isGrow := pool.chunkMaxSize < chunkMaxSize
    (rehash MemoryItem.buffer (chunkMaxSize * chunkMargin) pool.bufferItemMap.reduceOption).map fun bufferItemMap =>
      { pool with
        isNull := nullsZero && chunkMaxSize = 0
        chunks := if isGrow then pool.chunks else shrunkChunks pool.chunks chunkMaxSize
        free := if isGrow then pool.free
          else (pool.chunks.filter fun chunk => chunk.itemAlloc ≠ 0).findIdx fun chunk => !chunk.isFull
        bufferItemMap
        chunkMaxSize }

def increment (pool : MemoryPool) : Nat := if pool.chunks.length > 0 then pool.chunks.length else 1

/-- The chunks that are created, as many as there are or one, behind those of the pool. -/
def createdChunks (size : Nat) (blocks : Nat → ChunkBlock) (pool : MemoryPool) : List MemoryChunk :=
  (List.range pool.increment).map fun index => createChunk (blocks index) size (pool.chunks.length + index)

def extend (nullsZero : Bool) (size : Nat) (blocks : Nat → ChunkBlock) (pool : MemoryPool) : Option MemoryPool :=
  let chunkCount := pool.chunks.length + pool.increment
  let resized := if chunkCount > pool.chunkMaxSize then resizeMemoryPool nullsZero pool chunkCount else some pool
  resized.map fun resized => { resized with chunks := resized.chunks ++ pool.createdChunks size blocks }

/-- A pool that has been set up, and has a chunk to give an item of. -/
def prepare (nullsZero : Bool) (size : Nat) (blocks : Nat → ChunkBlock) (pool : MemoryPool) : Option MemoryPool :=
  let pool := if pool.isNull && pool.chunks.isEmpty then allocMemoryPool else pool
  if pool.free = pool.chunks.length then pool.extend nullsZero size blocks else some pool

end MemoryPool

/-- Takes the lowest free item of a chunk. The index is left where it is in a chunk that has no other. -/
def MemoryChunk.takeItem (chunk : MemoryChunk) : MemoryChunk :=
  let bitmap := chunk.bitmap.set chunk.free true
  let next := positionFrom (! ·) bitmap (chunk.free + 1)
  { chunk with
    bitmap
    itemAlloc := chunk.itemAlloc + 1
    free := next.getD chunk.free
    isFull := chunk.isFull || next.isNone }

/-- Puts an item back into a chunk. -/
def MemoryChunk.releaseItem (chunk : MemoryChunk) (index : Nat) : MemoryChunk :=
  { chunk with
    bitmap := chunk.bitmap.set index false
    isFull := false
    itemAlloc := chunk.itemAlloc - 1
    free := if index < chunk.free then index else chunk.free }

namespace MemoryPool

/-- The pool once an item of its first free chunk has been taken, and been given its place in the map. -/
def taken (pool : MemoryPool) (chunk : MemoryChunk) (bufferItemMap : List (Option MemoryItem)) : MemoryPool :=
  let chunks := pool.chunks.set pool.free chunk.takeItem
  { pool with
    chunks
    chunkAlloc := if chunk.itemAlloc = 0 then pool.chunkAlloc + 1 else pool.chunkAlloc
    free :=
      if chunk.takeItem.free = chunk.free then
        (positionFrom (fun chunk => !chunk.isFull) chunks (pool.free + 1)).getD chunks.length
      else pool.free
    bufferItemMap }

/-- Gives out a buffer. There is no result where the loop over the map does not come to an end, or a chunk is read that is
not there. -/
def palloc (nullsZero : Bool) (size : Nat) (blocks : Nat → ChunkBlock) (pool : MemoryPool) :
    Option (Nat × MemoryPool) := do
  let pool ← pool.prepare nullsZero size blocks
  let chunk ← pool.chunks[pool.free]?
  let item := chunk.item chunk.free
  let bufferItemMap ← place MemoryItem.buffer pool.bufferItemMap item
  return (item.buffer, pool.taken chunk bufferItemMap)

/-- The pool once an item of a chunk has been put back. -/
def released (pool : MemoryPool) (position index : Nat) (chunk : MemoryChunk)
    (bufferItemMap : List (Option MemoryItem)) : MemoryPool :=
  { pool with
    chunks := pool.chunks.set position (chunk.releaseItem index)
    free := if chunk.index < pool.free then chunk.index else pool.free
    bufferItemMap }

/-- Takes a buffer back; there is no result where it is not in the map, or the chunk of its item is gone. -/
def pfree (nullsZero : Bool) (buffer : Nat) (pool : MemoryPool) : Option MemoryPool := do
  let index ← probe (fun slot => slot.any fun item => item.buffer = buffer) pool.bufferItemMap
    (buffer % pool.bufferItemMap.length)
  let item ← (pool.bufferItemMap[index]?).join
  let bufferItemMap := pool.bufferItemMap.set index none
  let position ← pool.chunks.findIdx? fun chunk => chunk.pointer = item.chunk
  let chunk ← pool.chunks[position]?
  -- The index is found by a division by the size of the items.
  if chunk.itemSize = 0 then none
  else
    let indexC := (buffer + (2 ^ 64 - chunk.buffer)) % 2 ^ 64 / chunk.itemSize
    let pool := pool.released position indexC chunk bufferItemMap
    if (chunk.releaseItem indexC).itemAlloc = 0 then
      let pool := { pool with chunkAlloc := pool.chunkAlloc - 1 }
      if pool.chunkAlloc = pool.chunkMaxSize / 3 then resizeMemoryPool nullsZero pool (pool.chunkMaxSize / 2)
      else some pool
    else some pool

end MemoryPool

/-! ## Runs -/

inductive PoolCall where
  | palloc (blocks : Nat → ChunkBlock)
  | pfree (buffer : Nat)

/-- A pool, and the buffers that it has given out and not been given back. -/
structure PoolRun where
  pool : MemoryPool := {}
  allocated : List Nat := []
  returns : Bool := true
deriving DecidableEq, Repr

def PoolRun.step (nullsZero : Bool) (size : Nat) (r : PoolRun) : PoolCall → PoolRun
  | .palloc blocks =>
      match r.pool.palloc nullsZero size blocks with
      | some (buffer, pool) => { r with pool, allocated := buffer :: r.allocated }
      | none => { r with returns := false }
  | .pfree buffer =>
      match r.pool.pfree nullsZero buffer with
      | some pool => { r with pool, allocated := r.allocated.erase buffer }
      | none => { r with returns := false }

end Viriatum
