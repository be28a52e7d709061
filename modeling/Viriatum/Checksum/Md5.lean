import Mathlib.Data.Nat.Bitwise
import Viriatum.Library.FixedBuffer
import Viriatum.Library.Octets

/-!
# The MD5 digest

The context of a digest takes the data in pieces of any sizes: whole blocks go to the compression straight from the
caller's data, and the start of a block waits in the buffer of the context.
-/

namespace Viriatum

open Library

namespace Md5

/-- The bytes that the code writes out of an unsigned int, the lowest one first. -/
def wordBytes (word : Nat) : List UInt8 :=
  [UInt8.ofNat word, UInt8.ofNat (word >>> 8), UInt8.ofNat (word >>> 16), UInt8.ofNat (word >>> 24)]

/-! ## The compression -/

def F (x y z : UInt32) : UInt32 := z ^^^ (x &&& (y ^^^ z))

def G (x y z : UInt32) : UInt32 := y ^^^ (z &&& (x ^^^ y))

def H (x y z : UInt32) : UInt32 := x ^^^ y ^^^ z

def I (x y z : UInt32) : UInt32 := y ^^^ (x ||| ~~~z)

inductive Register where
  | a
  | b
  | c
  | d

@[ext] structure Registers where
  a : UInt32
  b : UInt32
  c : UInt32
  d : UInt32
deriving DecidableEq, Repr

def Registers.get (r : Registers) : Register → UInt32
  | .a => r.a
  | .b => r.b
  | .c => r.c
  | .d => r.d

def Registers.set (r : Registers) (register : Register) (value : UInt32) : Registers :=
  match register with
  | .a => { r with a := value }
  | .b => { r with b := value }
  | .c => { r with c := value }
  | .d => { r with d := value }

/-- What one step is given: the function, the registers in the order of the step, the word of the block, the constant
and the width of the rotation. -/
structure Step where
  f : UInt32 → UInt32 → UInt32 → UInt32
  a : Register
  b : Register
  c : Register
  d : Register
  x : Nat
  t : UInt32
  s : UInt32

/-- `STEP` -/
def Step.run (block : List UInt8) (r : Registers) (step : Step) : Registers :=
  let a := r.get step.a + (step.f (r.get step.b) (r.get step.c) (r.get step.d) + wordAt block step.x + step.t)
  let a := a <<< step.s ||| (a &&& 0xffffffff) >>> (32 - step.s)
  r.set step.a (a + r.get step.b)

/-- Round 1. -/
def round1 : List Step :=
  [⟨F, .a, .b, .c, .d, 0, 0xd76aa478, 7⟩, ⟨F, .d, .a, .b, .c, 1, 0xe8c7b756, 12⟩,
   ⟨F, .c, .d, .a, .b, 2, 0x242070db, 17⟩, ⟨F, .b, .c, .d, .a, 3, 0xc1bdceee, 22⟩,
   ⟨F, .a, .b, .c, .d, 4, 0xf57c0faf, 7⟩, ⟨F, .d, .a, .b, .c, 5, 0x4787c62a, 12⟩,
   ⟨F, .c, .d, .a, .b, 6, 0xa8304613, 17⟩, ⟨F, .b, .c, .d, .a, 7, 0xfd469501, 22⟩,
   ⟨F, .a, .b, .c, .d, 8, 0x698098d8, 7⟩, ⟨F, .d, .a, .b, .c, 9, 0x8b44f7af, 12⟩,
   ⟨F, .c, .d, .a, .b, 10, 0xffff5bb1, 17⟩, ⟨F, .b, .c, .d, .a, 11, 0x895cd7be, 22⟩,
   ⟨F, .a, .b, .c, .d, 12, 0x6b901122, 7⟩, ⟨F, .d, .a, .b, .c, 13, 0xfd987193, 12⟩,
   ⟨F, .c, .d, .a, .b, 14, 0xa679438e, 17⟩, ⟨F, .b, .c, .d, .a, 15, 0x49b40821, 22⟩]

/-- Round 2. -/
def round2 : List Step :=
  [⟨G, .a, .b, .c, .d, 1, 0xf61e2562, 5⟩, ⟨G, .d, .a, .b, .c, 6, 0xc040b340, 9⟩,
   ⟨G, .c, .d, .a, .b, 11, 0x265e5a51, 14⟩, ⟨G, .b, .c, .d, .a, 0, 0xe9b6c7aa, 20⟩,
   ⟨G, .a, .b, .c, .d, 5, 0xd62f105d, 5⟩, ⟨G, .d, .a, .b, .c, 10, 0x02441453, 9⟩,
   ⟨G, .c, .d, .a, .b, 15, 0xd8a1e681, 14⟩, ⟨G, .b, .c, .d, .a, 4, 0xe7d3fbc8, 20⟩,
   ⟨G, .a, .b, .c, .d, 9, 0x21e1cde6, 5⟩, ⟨G, .d, .a, .b, .c, 14, 0xc33707d6, 9⟩,
   ⟨G, .c, .d, .a, .b, 3, 0xf4d50d87, 14⟩, ⟨G, .b, .c, .d, .a, 8, 0x455a14ed, 20⟩,
   ⟨G, .a, .b, .c, .d, 13, 0xa9e3e905, 5⟩, ⟨G, .d, .a, .b, .c, 2, 0xfcefa3f8, 9⟩,
   ⟨G, .c, .d, .a, .b, 7, 0x676f02d9, 14⟩, ⟨G, .b, .c, .d, .a, 12, 0x8d2a4c8a, 20⟩]

/-- Round 3. -/
def round3 : List Step :=
  [⟨H, .a, .b, .c, .d, 5, 0xfffa3942, 4⟩, ⟨H, .d, .a, .b, .c, 8, 0x8771f681, 11⟩,
   ⟨H, .c, .d, .a, .b, 11, 0x6d9d6122, 16⟩, ⟨H, .b, .c, .d, .a, 14, 0xfde5380c, 23⟩,
   ⟨H, .a, .b, .c, .d, 1, 0xa4beea44, 4⟩, ⟨H, .d, .a, .b, .c, 4, 0x4bdecfa9, 11⟩,
   ⟨H, .c, .d, .a, .b, 7, 0xf6bb4b60, 16⟩, ⟨H, .b, .c, .d, .a, 10, 0xbebfbc70, 23⟩,
   ⟨H, .a, .b, .c, .d, 13, 0x289b7ec6, 4⟩, ⟨H, .d, .a, .b, .c, 0, 0xeaa127fa, 11⟩,
   ⟨H, .c, .d, .a, .b, 3, 0xd4ef3085, 16⟩, ⟨H, .b, .c, .d, .a, 6, 0x04881d05, 23⟩,
   ⟨H, .a, .b, .c, .d, 9, 0xd9d4d039, 4⟩, ⟨H, .d, .a, .b, .c, 12, 0xe6db99e5, 11⟩,
   ⟨H, .c, .d, .a, .b, 15, 0x1fa27cf8, 16⟩, ⟨H, .b, .c, .d, .a, 2, 0xc4ac5665, 23⟩]

/-- Round 4. -/
def round4 : List Step :=
  [⟨I, .a, .b, .c, .d, 0, 0xf4292244, 6⟩, ⟨I, .d, .a, .b, .c, 7, 0x432aff97, 10⟩,
   ⟨I, .c, .d, .a, .b, 14, 0xab9423a7, 15⟩, ⟨I, .b, .c, .d, .a, 5, 0xfc93a039, 21⟩,
   ⟨I, .a, .b, .c, .d, 12, 0x655b59c3, 6⟩, ⟨I, .d, .a, .b, .c, 3, 0x8f0ccc92, 10⟩,
   ⟨I, .c, .d, .a, .b, 10, 0xffeff47d, 15⟩, ⟨I, .b, .c, .d, .a, 1, 0x85845dd1, 21⟩,
   ⟨I, .a, .b, .c, .d, 8, 0x6fa87e4f, 6⟩, ⟨I, .d, .a, .b, .c, 15, 0xfe2ce6e0, 10⟩,
   ⟨I, .c, .d, .a, .b, 6, 0xa3014314, 15⟩, ⟨I, .b, .c, .d, .a, 13, 0x4e0811a1, 21⟩,
   ⟨I, .a, .b, .c, .d, 4, 0xf7537e82, 6⟩, ⟨I, .d, .a, .b, .c, 11, 0xbd3af235, 10⟩,
   ⟨I, .c, .d, .a, .b, 2, 0x2ad7d2bb, 15⟩, ⟨I, .b, .c, .d, .a, 9, 0xeb86d391, 21⟩]

def steps : List Step := round1 ++ round2 ++ round3 ++ round4

/-- One turn of the loop of the compression. -/
def compress (r : Registers) (block : List UInt8) : Registers :=
  let r' := steps.foldl (Step.run block) r
  ⟨r'.a + r.a, r'.b + r.b, r'.c + r.c, r'.d + r.d⟩

/-- A number of turns of the loop, each over the next block. -/
def compressAll : Nat → Registers → List UInt8 → Registers × List UInt8
  | 0, r, pointer => (r, pointer)
  | count + 1, r, pointer => compressAll count (compress r pointer) (pointer.drop 64)

end Md5

open Md5

/-! ## The context -/

/-- The context: the number of bytes taken so far, its low 29 bits apart from the high ones. -/
structure Md5Context where
  low : Nat
  high : Nat
  registers : Registers
  buffer : FixedBuffer 64

def initMd5 (context : Md5Context) : Md5Context :=
  { context with low := 0, high := 0, registers := ⟨0x67452301, 0xefcdab89, 0x98badcfe, 0x10325476⟩ }

/-- Compresses a number of bytes of some data, a multiple of the size of a block, and leaves the data after them. -/
def bodyMd5 (context : Md5Context) (data : List UInt8) (size : Nat) : Md5Context × List UInt8 :=
  let (registers, pointer) := compressAll (size / 64) context.registers data
  ({ context with registers }, pointer)

namespace Md5Context

/-- The bytes in the buffer. -/
def used (context : Md5Context) : Nat := context.low &&& 0x3f

theorem used_eq (context : Md5Context) : context.used = context.low % 64 := Nat.and_two_pow_sub_one_eq_mod context.low 6

theorem used_lt (context : Md5Context) : context.used < 64 := by
  rw [used_eq]
  exact Nat.mod_lt _ (by decide)

end Md5Context

/-- The end of an update, with nothing in the buffer: the whole blocks are compressed where they stand and the rest is
kept. -/
def updateBlocks (context : Md5Context) (data : List UInt8) : Md5Context :=
  let size := data.length
  if h : 64 ≤ size then
    let (context, data) := bodyMd5 context data (size - size % 64)
    { context with buffer := context.buffer.write 0 (data.take (size % 64)) (by
        have : size % 64 < 64 := Nat.mod_lt _ (by decide)
        rw [List.length_take]
        omega) }
  else { context with buffer := context.buffer.write 0 data (by omega) }

def updateMd5 (context : Md5Context) (data : List UInt8) : Md5Context :=
  let size := data.length
  let used := context.used
  let low := (context.low + size) % 2 ^ 64 &&& 0x1fffffff
  let high := if low < context.low then (context.high + 1) % 2 ^ 32 else context.high
  let updated := { context with low, high := (high + size >>> 29) % 2 ^ 32 }
  if used = 0 then updateBlocks updated data
  else
    let free := 64 - used
    if h : size < free then { updated with buffer := context.buffer.write used data (by omega) }
    else
      let buffer := context.buffer.write used (data.take free) (by
        have := context.used_lt
        rw [List.length_take]
        omega)
      let (updated, _) := bodyMd5 { updated with buffer } buffer.bytes 64
      updateBlocks updated (data.drop free)

/-- The end of a digest, with at least eight bytes left in the buffer: zeros, the length in bits and the last block. -/
def finishMd5 (context : Md5Context) (used : Nat) (h : used ≤ 56) : List UInt8 :=
  let buffer := context.buffer.write used (List.replicate (64 - used - 8) 0) (by rw [List.length_replicate]; omega)
  let low := context.low <<< 3 % 2 ^ 32
  let buffer := buffer.write 56 (wordBytes low ++ wordBytes context.high) (by simp [wordBytes])
  let (context, _) := bodyMd5 { context with low, buffer } buffer.bytes 64
  let r := context.registers
  wordBytes r.a.toNat ++ wordBytes r.b.toNat ++ wordBytes r.c.toNat ++ wordBytes r.d.toNat

def finalMd5 (context : Md5Context) : List UInt8 :=
  let used := context.used
  have hused : used < 64 := context.used_lt
  let buffer := context.buffer.write used [0x80] hused
  let used := used + 1
  let free := 64 - used
  if h : free < 8 then
    let buffer := buffer.write used (List.replicate free 0) (by rw [List.length_replicate]; omega)
    let (context, _) := bodyMd5 { context with buffer } buffer.bytes 64
    finishMd5 context 0 (by decide)
  else finishMd5 { context with buffer } used (by omega)

/-- The digest of some data given in pieces. -/
def md5Pieces (context : Md5Context) (pieces : List (List UInt8)) : List UInt8 :=
  finalMd5 (pieces.foldl updateMd5 (initMd5 context))

end Viriatum
