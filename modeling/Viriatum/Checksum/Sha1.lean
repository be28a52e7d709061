import Mathlib.Data.Nat.Bitwise
import Viriatum.Library.FixedBuffer
import Viriatum.Library.Octets

/-!
# The SHA-1 digest

The context of a digest takes the data in pieces of any sizes and counts their bits in two words of 32 bits.
-/

namespace Viriatum

open Library

namespace Sha1

/-! ## The transformation of a block -/

inductive Register where
  | a
  | b
  | c
  | d
  | e

@[ext] structure Registers where
  a : UInt32
  b : UInt32
  c : UInt32
  d : UInt32
  e : UInt32
deriving DecidableEq, Repr

def Registers.get (r : Registers) : Register → UInt32
  | .a => r.a
  | .b => r.b
  | .c => r.c
  | .d => r.d
  | .e => r.e

def Registers.set (r : Registers) (register : Register) (value : UInt32) : Registers :=
  match register with
  | .a => { r with a := value }
  | .b => { r with b := value }
  | .c => { r with c := value }
  | .d => { r with d := value }
  | .e => { r with e := value }

/-- `ROL` -/
def rol (value bits : UInt32) : UInt32 := value <<< bits ||| value >>> (32 - bits)

/-- `BLK_0`: the word of the block in the order of its bytes. -/
def blk0 (l : List UInt32) (i : Nat) : UInt32 :=
  rol (l.getD i 0) 24 &&& 0xff00ff00 ||| rol (l.getD i 0) 8 &&& 0x00ff00ff

/-- `BLK`: the next word of the schedule, which takes the place of the oldest one. -/
def blk (l : List UInt32) (i : Nat) : UInt32 :=
  rol (l.getD ((i + 13) &&& 15) 0 ^^^ l.getD ((i + 8) &&& 15) 0 ^^^ l.getD ((i + 2) &&& 15) 0 ^^^ l.getD (i &&& 15) 0) 1

/-- What one round is given: the word of the schedule, the function and the constant, the registers in the order of the
round and its number. -/
structure Round where
  word : List UInt32 → Nat → UInt32
  f : UInt32 → UInt32 → UInt32 → UInt32
  k : UInt32
  v : Register
  w : Register
  x : Register
  y : Register
  z : Register
  i : Nat

def R0 (v w x y z : Register) (i : Nat) : Round := ⟨blk0, fun w x y => w &&& (x ^^^ y) ^^^ y, 0x5a827999, v, w, x, y, z, i⟩

def R1 (v w x y z : Register) (i : Nat) : Round := ⟨blk, fun w x y => w &&& (x ^^^ y) ^^^ y, 0x5a827999, v, w, x, y, z, i⟩

def R2 (v w x y z : Register) (i : Nat) : Round := ⟨blk, fun w x y => w ^^^ x ^^^ y, 0x6ed9eba1, v, w, x, y, z, i⟩

def R3 (v w x y z : Register) (i : Nat) : Round :=
  ⟨blk, fun w x y => (w ||| x) &&& y ||| w &&& x, 0x8f1bbcdc, v, w, x, y, z, i⟩

def R4 (v w x y z : Register) (i : Nat) : Round := ⟨blk, fun w x y => w ^^^ x ^^^ y, 0xca62c1d6, v, w, x, y, z, i⟩

/-- A round over the registers and the sixteen words of the block. -/
def Round.run (s : Registers × List UInt32) (round : Round) : Registers × List UInt32 :=
  let (r, l) := s
  let word := round.word l round.i
  let z := r.get round.z +
    (round.f (r.get round.w) (r.get round.x) (r.get round.y) + word + round.k + rol (r.get round.v) 5)
  ((r.set round.z z).set round.w (rol (r.get round.w) 30), l.set (round.i &&& 15) word)

def rounds : List Round :=
  [R0 .a .b .c .d .e 0, R0 .e .a .b .c .d 1, R0 .d .e .a .b .c 2, R0 .c .d .e .a .b 3, R0 .b .c .d .e .a 4,
   R0 .a .b .c .d .e 5, R0 .e .a .b .c .d 6, R0 .d .e .a .b .c 7, R0 .c .d .e .a .b 8, R0 .b .c .d .e .a 9,
   R0 .a .b .c .d .e 10, R0 .e .a .b .c .d 11, R0 .d .e .a .b .c 12, R0 .c .d .e .a .b 13, R0 .b .c .d .e .a 14,
   R0 .a .b .c .d .e 15, R1 .e .a .b .c .d 16, R1 .d .e .a .b .c 17, R1 .c .d .e .a .b 18, R1 .b .c .d .e .a 19,
   R2 .a .b .c .d .e 20, R2 .e .a .b .c .d 21, R2 .d .e .a .b .c 22, R2 .c .d .e .a .b 23, R2 .b .c .d .e .a 24,
   R2 .a .b .c .d .e 25, R2 .e .a .b .c .d 26, R2 .d .e .a .b .c 27, R2 .c .d .e .a .b 28, R2 .b .c .d .e .a 29,
   R2 .a .b .c .d .e 30, R2 .e .a .b .c .d 31, R2 .d .e .a .b .c 32, R2 .c .d .e .a .b 33, R2 .b .c .d .e .a 34,
   R2 .a .b .c .d .e 35, R2 .e .a .b .c .d 36, R2 .d .e .a .b .c 37, R2 .c .d .e .a .b 38, R2 .b .c .d .e .a 39,
   R3 .a .b .c .d .e 40, R3 .e .a .b .c .d 41, R3 .d .e .a .b .c 42, R3 .c .d .e .a .b 43, R3 .b .c .d .e .a 44,
   R3 .a .b .c .d .e 45, R3 .e .a .b .c .d 46, R3 .d .e .a .b .c 47, R3 .c .d .e .a .b 48, R3 .b .c .d .e .a 49,
   R3 .a .b .c .d .e 50, R3 .e .a .b .c .d 51, R3 .d .e .a .b .c 52, R3 .c .d .e .a .b 53, R3 .b .c .d .e .a 54,
   R3 .a .b .c .d .e 55, R3 .e .a .b .c .d 56, R3 .d .e .a .b .c 57, R3 .c .d .e .a .b 58, R3 .b .c .d .e .a 59,
   R4 .a .b .c .d .e 60, R4 .e .a .b .c .d 61, R4 .d .e .a .b .c 62, R4 .c .d .e .a .b 63, R4 .b .c .d .e .a 64,
   R4 .a .b .c .d .e 65, R4 .e .a .b .c .d 66, R4 .d .e .a .b .c 67, R4 .c .d .e .a .b 68, R4 .b .c .d .e .a 69,
   R4 .a .b .c .d .e 70, R4 .e .a .b .c .d 71, R4 .d .e .a .b .c 72, R4 .c .d .e .a .b 73, R4 .b .c .d .e .a 74,
   R4 .a .b .c .d .e 75, R4 .e .a .b .c .d 76, R4 .d .e .a .b .c 77, R4 .c .d .e .a .b 78, R4 .b .c .d .e .a 79]

/-- `_transform_sha1` -/
def transform (state : Registers) (buffer : List UInt8) : Registers :=
  let (r, _) := rounds.foldl Round.run (state, (List.range 16).map (wordAt buffer))
  ⟨state.a + r.a, state.b + r.b, state.c + r.c, state.d + r.d, state.e + r.e⟩

end Sha1

open Sha1

/-! ## The context -/

/-- The context: the low word of the number of bits comes first. -/
structure Sha1Context where
  state : Registers
  count0 : Nat
  count1 : Nat
  buffer : FixedBuffer 64

def initSha1 (context : Sha1Context) : Sha1Context :=
  { context with
    state := ⟨0x67452301, 0xefcdab89, 0x98badcfe, 0x10325476, 0xc3d2e1f0⟩
    count0 := 0
    count1 := 0 }

namespace Sha1Context

/-- The bytes in the buffer. -/
def used (context : Sha1Context) : Nat := (context.count0 >>> 3) &&& 63

theorem used_eq (context : Sha1Context) : context.used = context.count0 / 8 % 64 := by
  rw [used, show 63 = 2 ^ 6 - 1 from rfl, Nat.and_two_pow_sub_one_eq_mod, Nat.shiftRight_eq_div_pow]

theorem used_lt (context : Sha1Context) : context.used < 64 := by
  rw [used_eq]
  exact Nat.mod_lt _ (by decide)

end Sha1Context

/-- The transformation of the whole blocks that stand one after another, and the data after them. -/
def transformBlocks : (count : Nat) → Registers → List UInt8 → Registers × List UInt8
  | 0, state, data => (state, data)
  | count + 1, state, data => transformBlocks count (transform state data) (data.drop 64)

theorem transformBlocks_rest (count : Nat) (state : Registers) (data : List UInt8) :
    (transformBlocks count state data).2 = data.drop (64 * count) := by
  induction count generalizing state data with
  | zero => rfl
  | succ count ih => rw [transformBlocks, ih, List.drop_drop, Nat.mul_succ, Nat.add_comm]

def updateSha1 (context : Sha1Context) (data : List UInt8) : Sha1Context :=
  let size := data.length
  let j := context.used
  let bits := (size <<< 3) % 2 ^ 64
  let count0 := (context.count0 + bits) % 2 ^ 32
  -- a word of 32 bits is compared with a size of 64
  let count1 := if count0 < bits then (context.count1 + 1) % 2 ^ 32 else context.count1
  let updated := { context with count0, count1 := (count1 + size >>> 29) % 2 ^ 32 }
  have hj : j < 64 := context.used_lt
  if h : 63 < j + size then
    let i := 64 - j
    let buffer := context.buffer.write j (data.take i) (by rw [List.length_take]; omega)
    let state := transform context.state buffer.bytes
    let s := transformBlocks ((size - i) / 64) state (data.drop i)
    { updated with
      state := s.1
      buffer := buffer.write 0 s.2 (by rw [transformBlocks_rest, List.length_drop, List.length_drop]; omega) }
  else { updated with buffer := context.buffer.write j data (by omega) }

/-- The bytes of a word, the highest one first. -/
def wordBytesHigh (word : Nat) : List UInt8 :=
  [UInt8.ofNat (word >>> 24), UInt8.ofNat (word >>> 16), UInt8.ofNat (word >>> 8), UInt8.ofNat word]

/-- Bytes of zero, one at a time, up to the place of the count in a block. Each moves the count by a byte, so that no
more than a block of them is put. -/
def padSha1 : (fuel : Nat) → Sha1Context → Sha1Context
  | 0, context => context
  | fuel + 1, context => if context.count0 &&& 504 = 448 then context else padSha1 fuel (updateSha1 context [0])

def finalSha1 (context : Sha1Context) : List UInt8 :=
  let finalcount := wordBytesHigh context.count1 ++ wordBytesHigh context.count0
  let context := padSha1 64 (updateSha1 context [0x80])
  let r := (updateSha1 context finalcount).state
  [r.a, r.b, r.c, r.d, r.e].flatMap fun word => wordBytesHigh word.toNat

/-- The digest of some data given in pieces. -/
def sha1Pieces (context : Sha1Context) (pieces : List (List UInt8)) : List UInt8 :=
  finalSha1 (pieces.foldl updateSha1 (initSha1 context))

end Viriatum
