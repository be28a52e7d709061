import Mathlib.Algebra.Group.Nat.Defs
import Viriatum.Library.Refinement

/-!
# Memory streams

A stream over a buffer in memory that grows as it is written to, and the array of bytes that it is to be.
-/

namespace Viriatum

open Library

/-- `SIZE_MEMORY_STREAM` -/
def sizeMemoryStream : Nat := 4096

/-- The counters are of 64 bits, and the size of the buffer is the number of its cells. A cell that nothing has been
written to has no value. -/
structure MemoryStream where
  buffer : List (Option UInt8)
  size : Nat
  position : Nat
deriving DecidableEq, Repr

def createMemoryStream : MemoryStream := { buffer := [], size := 0, position := 0 }

/-- The calls on an open stream. -/
inductive StreamCall where
  | open
  | write (data : List UInt8)
  | seek (target : UInt64)
  | read (size : UInt64)
  | size
  | tell
deriving DecidableEq, Repr

/-- What a call hands back: the number that it returns and the bytes that it puts into the caller's buffer. -/
inductive StreamAnswer where
  | nothing
  | count (n : Nat)
  | bytes (data : List (Option UInt8))
deriving DecidableEq, Repr

/-- `memcpy` to a place in some cells, which touches nothing if there is nothing to copy. -/
def copyTo (cells : List (Option UInt8)) (position : Nat) (data : List (Option UInt8)) : Option (List (Option UInt8)) :=
  if data = [] then some cells
  else if position + data.length ≤ cells.length then
    some (cells.take position ++ data ++ cells.drop (position + data.length))
  else none

/-- `memcpy` from a place in some cells. -/
def copyFrom (cells : List (Option UInt8)) (position count : Nat) : Option (List (Option UInt8)) :=
  if count = 0 then some []
  else if position + count ≤ cells.length then some ((cells.drop position).take count)
  else none

/-- `REALLOC` -/
def realloc (cells : List (Option UInt8)) (size : Nat) : List (Option UInt8) :=
  cells.take size ++ List.replicate (size - cells.length) none

namespace MemoryStream

variable (s : MemoryStream)

def openMemoryStream : MemoryStream := { buffer := List.replicate sizeMemoryStream none, size := 0, position := 0 }

def readMemoryStream (size : Nat) : Option (MemoryStream × List (Option UInt8)) := do
  let remaining := (s.size + 2 ^ 64 - s.position) % 2 ^ 64
  let count := if size > remaining then remaining else size
  let data ← copyFrom s.buffer s.position count
  return ({ s with position := (s.position + count) % 2 ^ 64 }, data)

def writeMemoryStream (data : List UInt8) : Option (MemoryStream × Nat) := do
  let size := data.length
  let remaining := (s.buffer.length + 2 ^ 64 - s.position) % 2 ^ 64
  let extra := size - remaining
  let allocation := if extra > sizeMemoryStream then extra else sizeMemoryStream
  let buffer := if size > remaining then realloc s.buffer ((s.buffer.length + allocation) % 2 ^ 64) else s.buffer
  let buffer ← copyTo buffer s.position (data.map some)
  return ({ buffer, size := (s.size + size) % 2 ^ 64, position := (s.position + size) % 2 ^ 64 }, size)

def seekMemoryStream (target : UInt64) : MemoryStream := { s with position := target.toNat }

/-- A call, unless it touches memory out of the buffer. -/
def call : StreamCall → Option (MemoryStream × StreamAnswer)
  | .open => some (openMemoryStream, .nothing)
  | .write data => (s.writeMemoryStream data).map fun (s', count) => (s', .count count)
  | .seek target => some (s.seekMemoryStream target, .nothing)
  | .read size => (s.readMemoryStream size.toNat).map fun (s', data) => (s', .bytes data)
  | .size => some (s, .count s.size)
  | .tell => some (s, .count s.position)

end MemoryStream

/-! ## The array of bytes -/

/-- An array that grows with what is written to it, and a position, which may be anywhere. What lies between the end of
the array and a position behind it that is written to has no value. -/
structure ByteArrayStream where
  contents : List (Option UInt8)
  position : Nat

namespace ByteArrayStream

variable (a : ByteArrayStream)

def empty : ByteArrayStream := { contents := [], position := 0 }

def write (data : List UInt8) : ByteArrayStream :=
  if data = [] then a
  else
    { contents := (a.contents ++ List.replicate (a.position - a.contents.length) none).take a.position ++
        data.map some ++ a.contents.drop (a.position + data.length)
      position := a.position + data.length }

def read (size : Nat) : List (Option UInt8) := (a.contents.drop a.position).take size

def call : StreamCall → ByteArrayStream × StreamAnswer
  | .open => (empty, .nothing)
  | .write data => (a.write data, .count data.length)
  | .seek target => ({ a with position := target.toNat }, .nothing)
  | .read size => ({ a with position := a.position + (a.read size.toNat).length }, .bytes (a.read size.toNat))
  | .size => (a, .count a.contents.length)
  | .tell => (a, .count a.position)

end ByteArrayStream

end Viriatum
