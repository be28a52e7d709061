import Mathlib.Analysis.Complex.Trigonometric
import Viriatum.Checksum.Md5
import Viriatum.Library.Blocks

/-!
# The message digest of RFC 1321

The digest by its definition: the message is padded and its blocks are processed in order.
-/

namespace Viriatum.Rfc1321

open Library Md5

def F (x y z : UInt32) : UInt32 := x &&& y ||| ~~~x &&& z

def G (x y z : UInt32) : UInt32 := x &&& z ||| y &&& ~~~z

def H (x y z : UInt32) : UInt32 := x ^^^ y ^^^ z

def I (x y z : UInt32) : UInt32 := y ^^^ (x ||| ~~~z)

/-- The table: the integer parts of `2 ^ 32` times the absolute values of the sines of the whole numbers. -/
noncomputable def T (i : ℕ) : UInt32 := UInt32.ofNat ⌊4294967296 * |Real.sin i|⌋₊

def rotateLeft (x s : UInt32) : UInt32 := x <<< s ||| x >>> (32 - s)

/-! ## The operations, sixteen to a round -/

def function (i : ℕ) : UInt32 → UInt32 → UInt32 → UInt32 :=
  match i / 16 with
  | 0 => F
  | 1 => G
  | 2 => H
  | _ => I

/-- The index of the word of the block. -/
def word (i : ℕ) : ℕ :=
  match i / 16 with
  | 0 => i % 16
  | 1 => (5 * i + 1) % 16
  | 2 => (3 * i + 5) % 16
  | _ => 7 * i % 16

def shift (i : ℕ) : UInt32 :=
  match i / 16 with
  | 0 => [7, 12, 17, 22].getD (i % 4) 0
  | 1 => [5, 9, 14, 20].getD (i % 4) 0
  | 2 => [4, 11, 16, 23].getD (i % 4) 0
  | _ => [6, 10, 15, 21].getD (i % 4) 0

/-- The operation `[abcd k s i]` with the constant `t`. The registers are passed on in the order that they have in the
next operation, which is `[dabc]`. -/
def operation (block : List UInt8) (t : UInt32) (r : Registers) (i : ℕ) : Registers :=
  ⟨r.d, r.b + rotateLeft (r.a + function i r.b r.c r.d + wordAt block (word i) + t) (shift i), r.b, r.c⟩

noncomputable def processBlock (r : Registers) (block : List UInt8) : Registers :=
  let r' := (List.range 64).foldl (fun r i => operation block (T (i + 1)) r i) r
  ⟨r.a + r'.a, r.b + r'.b, r.c + r'.c, r.d + r'.d⟩

/-! ## The digest -/

/-- A single bit and zeros up to eight bytes before the end of a block, and the length in bits, the low bytes first. -/
def padding (length : ℕ) : List UInt8 :=
  [0x80] ++ List.replicate ((119 - length % 64) % 64) 0 ++ (octets 8 (8 * length)).reverse

noncomputable def digest (message : List UInt8) : List UInt8 :=
  let r := (blocks 64 (message ++ padding message.length)).foldl processBlock
    ⟨0x67452301, 0xefcdab89, 0x98badcfe, 0x10325476⟩
  [r.a, r.b, r.c, r.d].flatMap fun word => (octets 4 word.toNat).reverse

end Viriatum.Rfc1321
