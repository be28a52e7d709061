import Mathlib.Tactic.Ring
import Viriatum.Checksum.Sha1
import Viriatum.Library.Blocks

/-!
# SHA-1 in pieces

What the updates of a context leave, when the data is given in pieces: the state, the start of a block and the count of
the bits, which an update may miss by a carry.
-/

namespace Viriatum

open Library Sha1

namespace Sha1

theorem transform_take (state : Registers) (data : List UInt8) : transform state (data.take 64) = transform state data := by
  have hword : ∀ n < 16, wordAt (data.take 64) n = wordAt data n := by
    intro n hn
    rw [wordAt, wordAt, List.drop_take, List.take_take, Nat.min_eq_left (by omega)]
  have hwords : (List.range 16).map (wordAt (data.take 64)) = (List.range 16).map (wordAt data) :=
    List.map_congr_left fun n hn => hword n (List.mem_range.mp hn)
  rw [transform, transform, hwords]

end Sha1

theorem transformBlocks_state (count : ℕ) (state : Registers) (data : List UInt8) :
    (transformBlocks count state data).1 = (firstBlocks 64 count data).foldl transform state := by
  induction count generalizing state data with
  | zero => rfl
  | succ count ih => rw [transformBlocks, ih, firstBlocks, List.foldl_cons, transform_take]

namespace Sha1Context

variable {context : Sha1Context}

/-- The value after the whole blocks and the start of a block that a context holds. -/
def absorbed (context : Sha1Context) : Absorbed Registers UInt8 64 where
  value := context.state
  pending := context.buffer.bytes.take context.used
  short := by
    rw [List.length_take]
    exact Nat.lt_of_le_of_lt (Nat.min_le_left _ _) context.used_lt

theorem length_pending (context : Sha1Context) : context.absorbed.pending.length = context.used := by
  have hused := context.used_lt
  rw [absorbed, List.length_take, context.buffer.length_bytes]
  omega

theorem words_updateSha1 (context : Sha1Context) (data : List UInt8) :
    (updateSha1 context data).count0 = (context.count0 + 8 * data.length % 2 ^ 64) % 2 ^ 32 ∧
      (updateSha1 context data).count1 =
        ((if (context.count0 + 8 * data.length % 2 ^ 64) % 2 ^ 32 < 8 * data.length % 2 ^ 64
          then (context.count1 + 1) % 2 ^ 32 else context.count1) + data.length >>> 29) % 2 ^ 32 := by
  have hbits : data.length <<< 3 = 8 * data.length := by rw [Nat.shiftLeft_eq, Nat.mul_comm]
  by_cases hsize : 63 < context.used + data.length
  · simp only [updateSha1, hsize, ↓reduceDIte, hbits, and_self]
  · simp only [updateSha1, hsize, ↓reduceDIte, hbits, and_self]

theorem used_updateSha1 (context : Sha1Context) (data : List UInt8) :
    (updateSha1 context data).used = (context.used + data.length) % 64 := by
  rw [used_eq, used_eq, (words_updateSha1 context data).1]
  omega

theorem pending_updateSha1 (context : Sha1Context) (data : List UInt8) : (updateSha1 context data).absorbed.pending =
    (updateSha1 context data).buffer.bytes.take (updateSha1 context data).used := rfl

/-- What an update makes of a context, whatever the number of bytes in its buffer. -/
theorem absorbed_updateSha1 (context : Sha1Context) (data : List UInt8) :
    (updateSha1 context data).absorbed = context.absorbed.absorb transform data := by
  have hlt := context.used_lt
  by_cases hsize : 63 < context.used + data.length
  · have hhead : (data.take (64 - context.used)).length = 64 - context.used := by
      rw [List.length_take]
      omega
    have hblock : (context.absorbed.pending ++ data.take (64 - context.used)).length = 64 := by
      rw [List.length_append, length_pending, hhead]
      omega
    have hfull : context.used + (data.take (64 - context.used)).length = 64 := by omega
    have hrest : (data.drop (64 - context.used)).length = data.length - (64 - context.used) := List.length_drop
    conv_rhs => rw [← List.take_append_drop (64 - context.used) data, Absorbed.absorb_of_block hblock]
    ext1
    · simp only [absorbed, updateSha1, hsize, ↓reduceDIte, transformBlocks_state]
      rw [FixedBuffer.write_full _ _ hfull, ← hrest]
      rfl
    · have hend : (context.used + data.length) % 64 = 0 + (leftover 64 (data.drop (64 - context.used))).length := by
        rw [length_leftover, hrest]
        omega
      rw [pending_updateSha1, used_updateSha1]
      simp only [updateSha1, hsize, ↓reduceDIte, transformBlocks_rest, ← hrest]
      exact FixedBuffer.take_write _ _ hend
  · have hfits : (context.absorbed.pending ++ data).length < 64 := by
      rw [List.length_append, length_pending]
      omega
    rw [Absorbed.absorb_of_lt hfits]
    ext1
    · simp only [absorbed, updateSha1, hsize, ↓reduceDIte]
    · rw [pending_updateSha1, used_updateSha1, Nat.mod_eq_of_lt (by omega)]
      simp only [updateSha1, hsize, ↓reduceDIte]
      exact FixedBuffer.take_write _ _ rfl

/-! ## The count -/

/-- The number of bits taken so far, as the two words of the context tell it. -/
def count (context : Sha1Context) : ℕ := context.count0 + 2 ^ 32 * context.count1

/-- The words that count the bits are in their bounds. -/
structure Counted (context : Sha1Context) : Prop where
  count0 : context.count0 < 2 ^ 32
  count1 : context.count1 < 2 ^ 32

end Sha1Context

/-- An update whose number of bits does not fit into a word of 32 bits, and whose low word does not overflow, is taken
to overflow. -/
def Miscounts (count0 size : ℕ) : Prop := 2 ^ 32 ≤ 8 * size % 2 ^ 64 ∧ count0 + 8 * size % 2 ^ 32 < 2 ^ 32

instance (count0 size : ℕ) : Decidable (Miscounts count0 size) := inferInstanceAs (Decidable (_ ∧ _))

namespace Sha1Context

variable {context : Sha1Context}

theorem counted_updateSha1 (context : Sha1Context) (data : List UInt8) : (updateSha1 context data).Counted := by
  obtain ⟨h0, h1⟩ := words_updateSha1 context data
  constructor
  · rw [h0]
    exact Nat.mod_lt _ (by decide)
  · rw [h1]
    exact Nat.mod_lt _ (by decide)

theorem Counted.count_updateSha1 (h : context.Counted) (data : List UInt8) :
    (updateSha1 context data).count = (context.count + 8 * data.length +
      2 ^ 32 * if Miscounts context.count0 data.length then 1 else 0) % 2 ^ 64 := by
  obtain ⟨hcount0, hcount1⟩ := h
  obtain ⟨h0, h1⟩ := words_updateSha1 context data
  have hshift : data.length >>> 29 = data.length / 2 ^ 29 := Nat.shiftRight_eq_div_pow ..
  rw [count, h0, h1, hshift, count]
  generalize data.length = size at *
  by_cases hmiscounts : Miscounts context.count0 size
  · rw [if_pos hmiscounts]
    obtain ⟨hbits, hlow⟩ := hmiscounts
    split <;> omega
  · rw [if_neg hmiscounts]
    rw [Miscounts, not_and_or] at hmiscounts
    split <;> omega

end Sha1Context

/-! ## A run of updates -/

/-- The number of updates that miscount, after a number of bytes and for updates of the given sizes. -/
def miscounts : (length : ℕ) → List ℕ → ℕ
  | _, [] => 0
  | length, size :: sizes =>
      (if Miscounts (8 * length % 2 ^ 32) size then 1 else 0) + miscounts (length + size) sizes

namespace Sha1Context

variable {context : Sha1Context}

theorem absorbed_pieces (context : Sha1Context) (pieces : List (List UInt8)) :
    (pieces.foldl updateSha1 context).absorbed = context.absorbed.absorb transform pieces.flatten := by
  rw [← Absorbed.foldl_absorb]
  induction pieces generalizing context with
  | nil => rfl
  | cons piece pieces ih => rw [List.foldl_cons, List.foldl_cons, ih, absorbed_updateSha1]

/-- The count after the updates is the number of bits, and one of the high word for every update that miscounts. -/
theorem Counted.pieces (h : context.Counted) {length missed : ℕ}
    (hcount : context.count = (8 * length + 2 ^ 32 * missed) % 2 ^ 64) (pieces : List (List UInt8)) :
    (pieces.foldl updateSha1 context).Counted ∧ (pieces.foldl updateSha1 context).count =
      (8 * (length + pieces.flatten.length) +
        2 ^ 32 * (missed + miscounts length (pieces.map List.length))) % 2 ^ 64 := by
  induction pieces generalizing context length missed with
  | nil => exact ⟨h, hcount⟩
  | cons piece pieces ih =>
      have hlow : context.count0 = 8 * length % 2 ^ 32 := by
        have hcount0 := h.count0
        rw [count] at hcount
        omega
      have hnext := h.count_updateSha1 piece
      rw [hcount, hlow, Nat.add_assoc, Nat.mod_add_mod] at hnext
      have hstep : (updateSha1 context piece).count = (8 * (length + piece.length) +
          2 ^ 32 * (missed + if Miscounts (8 * length % 2 ^ 32) piece.length then 1 else 0)) % 2 ^ 64 := by
        rw [hnext]
        congr 1
        ring
      obtain ⟨hcounted, hrest⟩ := ih (counted_updateSha1 context piece) hstep
      refine ⟨hcounted, ?_⟩
      rw [List.foldl_cons, hrest, List.flatten_cons, List.length_append, List.map_cons, miscounts]
      congr 1
      ring

end Sha1Context

/-! ## The end of a digest -/

namespace Sha1Context

variable {context : Sha1Context}

/-- The loop of the padding stops when the count is that of fifty six bytes. -/
theorem and_eq (context : Sha1Context) : context.count0 &&& 504 = 8 * context.used := by
  have hshift : context.count0 &&& 504 = ((context.count0 >>> 3) &&& 63) <<< 3 := by
    apply Nat.eq_of_testBit_eq
    intro i
    rw [show 504 = 63 <<< 3 from rfl, Nat.testBit_and, Nat.testBit_shiftLeft, Nat.testBit_shiftLeft, Nat.testBit_and,
      Nat.testBit_shiftRight]
    by_cases hi : 3 ≤ i
    · simp [hi]
    · simp [hi]
  rw [hshift, Nat.shiftLeft_eq, Nat.mul_comm]
  rfl

/-- Enough bytes of zero are put. -/
theorem absorbed_padSha1 {fuel : ℕ} (h : (120 - context.used) % 64 ≤ fuel) : (padSha1 fuel context).absorbed =
    context.absorbed.absorb transform (List.replicate ((120 - context.used) % 64) 0) := by
  induction fuel generalizing context with
  | zero =>
      rw [Nat.le_zero.mp h, List.replicate_zero, Absorbed.absorb_nil]
      rfl
  | succ fuel ih =>
      have hlt := context.used_lt
      rw [padSha1, and_eq]
      split
      · next hstop =>
        rw [show (120 - context.used) % 64 = 0 by omega, List.replicate_zero, Absorbed.absorb_nil]
      · next hgo =>
        have hused := context.used_updateSha1 [0]
        rw [List.length_singleton] at hused
        have hnumber : (120 - context.used) % 64 = 1 + (120 - (updateSha1 context [0]).used) % 64 := by omega
        rw [ih (by omega), absorbed_updateSha1, ← Absorbed.absorb_append, hnumber, List.replicate_add]
        rfl

end Sha1Context

/-- A single bit, zeros up to eight bytes before the end of a block and the length in bits, the high bytes first. -/
def sha1Padding (length : ℕ) : List UInt8 :=
  [0x80] ++ List.replicate ((119 - length % 64) % 64) 0 ++ octets 8 (8 * length)

/-- The state after the whole blocks of a text. -/
def sha1State (text : List UInt8) : Registers :=
  (blocks 64 text).foldl transform ⟨0x67452301, 0xefcdab89, 0x98badcfe, 0x10325476, 0xc3d2e1f0⟩

def sha1DigestBytes (r : Registers) : List UInt8 := [r.a, r.b, r.c, r.d, r.e].flatMap fun word => octets 4 word.toNat

/-- The digest of a text by its definition. -/
def sha1Digest (text : List UInt8) : List UInt8 := sha1DigestBytes (sha1State (text ++ sha1Padding text.length))

theorem wordBytesHigh_eq (word : ℕ) : wordBytesHigh word = octets 4 word := by
  simp [wordBytesHigh, octets, Nat.shiftRight_eq_div_pow, Nat.div_div_eq_div_mul]

namespace Sha1Context

variable {context : Sha1Context}

/-- The bytes of the two words of the count are those of the number of bits. -/
theorem Counted.countBytes (h : context.Counted) {bits : ℕ} (hcount : context.count = bits % 2 ^ 64) :
    wordBytesHigh context.count1 ++ wordBytesHigh context.count0 = octets 8 bits := by
  rw [wordBytesHigh_eq, wordBytesHigh_eq, octets_eight h.count0 hcount.symm]

theorem Counted.finalSha1_eq (h : context.Counted) {length : ℕ} (hcount : context.count = 8 * length % 2 ^ 64) :
    finalSha1 context = sha1DigestBytes (context.absorbed.absorb transform (sha1Padding length)).value := by
  have hused : context.used = length % 64 := by
    rw [used_eq]
    rw [count] at hcount
    omega
  have hmark := context.used_updateSha1 [0x80]
  rw [List.length_singleton] at hmark
  have hnumber : (119 - length % 64) % 64 = (120 - (updateSha1 context [0x80]).used) % 64 := by omega
  have hpadding : (updateSha1 (padSha1 64 (updateSha1 context [0x80]))
      (wordBytesHigh context.count1 ++ wordBytesHigh context.count0)).absorbed =
        context.absorbed.absorb transform (sha1Padding length) := by
    rw [absorbed_updateSha1, absorbed_padSha1 (by omega), absorbed_updateSha1, h.countBytes hcount, sha1Padding,
      Absorbed.absorb_append, Absorbed.absorb_append, hnumber]
  rw [← hpadding, finalSha1, sha1DigestBytes]
  simp only [wordBytesHigh_eq, absorbed]

end Sha1Context

/-! ## The digest of the whole data -/

/-- The updates with some pieces leave the state after the whole blocks of the data, the rest of the data in the buffer
and the number of its bits modulo `2 ^ 64`. -/
def Leaves (context : Sha1Context) (pieces : List (List UInt8)) : Prop :=
  let context' := pieces.foldl updateSha1 (initSha1 context)
  context'.state = sha1State pieces.flatten ∧
    context'.buffer.bytes.take context'.used = leftover 64 pieces.flatten ∧
      context'.count = 8 * pieces.flatten.length % 2 ^ 64

theorem sound_pieces (context : Sha1Context) (pieces : List (List UInt8)) :
    (pieces.foldl updateSha1 (initSha1 context)).Counted ∧
      (pieces.foldl updateSha1 (initSha1 context)).absorbed =
        Absorbed.absorb transform ⟨sha1State [], [], by decide⟩ pieces.flatten ∧
      (pieces.foldl updateSha1 (initSha1 context)).count =
        (8 * pieces.flatten.length + 2 ^ 32 * miscounts 0 (pieces.map List.length)) % 2 ^ 64 := by
  have hstart : (initSha1 context).Counted := ⟨Nat.two_pow_pos 32, Nat.two_pow_pos 32⟩
  have habsorbed : (initSha1 context).absorbed = ⟨sha1State [], [], by decide⟩ := by
    ext1
    · rfl
    · simp [Sha1Context.absorbed, Sha1Context.used, initSha1]
  have hzero : (initSha1 context).count = (8 * 0 + 2 ^ 32 * 0) % 2 ^ 64 := rfl
  obtain ⟨hcounted, hcount⟩ := hstart.pieces hzero pieces
  rw [Nat.zero_add, Nat.zero_add] at hcount
  exact ⟨hcounted, by rw [Sha1Context.absorbed_pieces, habsorbed], hcount⟩

/-- The state and the buffer are always right, and the count where the carries that are missed cancel out. -/
theorem leaves_iff (context : Sha1Context) (pieces : List (List UInt8)) :
    Leaves context pieces ↔ 2 ^ 32 ∣ miscounts 0 (pieces.map List.length) := by
  obtain ⟨_, habsorbed, hcount⟩ := sound_pieces context pieces
  have hstate : (pieces.foldl updateSha1 (initSha1 context)).state = sha1State pieces.flatten :=
    congrArg Absorbed.value habsorbed
  have hpending := congrArg Absorbed.pending habsorbed
  rw [Absorbed.absorb_pending, List.nil_append] at hpending
  rw [Leaves, hcount]
  constructor
  · rintro ⟨_, _, h⟩
    omega
  · intro h
    exact ⟨hstate, hpending, by omega⟩

/-- A single update counts right when its number of bits, modulo `2 ^ 64`, fits into the low word. -/
theorem leaves_single_iff (context : Sha1Context) (text : List UInt8) :
    Leaves context [text] ↔ text.length % 2 ^ 61 < 2 ^ 29 := by
  rw [leaves_iff, List.map_singleton, miscounts, miscounts, Nat.mul_zero, Nat.zero_mod, Nat.add_zero]
  split
  · next h =>
    rw [Miscounts] at h
    omega
  · next h =>
    rw [Miscounts] at h
    omega

theorem sha1Pieces_eq {context : Sha1Context} {pieces : List (List UInt8)} (h : Leaves context pieces) :
    sha1Pieces context pieces = sha1Digest pieces.flatten := by
  obtain ⟨hcounted, habsorbed, _⟩ := sound_pieces context pieces
  rw [sha1Pieces, hcounted.finalSha1_eq h.2.2, habsorbed, ← Absorbed.absorb_append]
  rfl

/-- What the pieces leave is right exactly when the carries that the updates miss cancel out; and it is, and so is what
a single update with the whole data leaves, and their digests are equal, exactly when in addition the whole data has
less than `2 ^ 29` bytes, modulo `2 ^ 61`. -/
theorem sha1_streaming (context : Sha1Context) (pieces : List (List UInt8)) :
    (Leaves context pieces ↔ 2 ^ 32 ∣ miscounts 0 (pieces.map List.length)) ∧
      (Leaves context pieces ∧ Leaves context [pieces.flatten] ∧
          sha1Pieces context pieces = sha1Pieces context [pieces.flatten] ↔
        2 ^ 32 ∣ miscounts 0 (pieces.map List.length) ∧ pieces.flatten.length % 2 ^ 61 < 2 ^ 29) := by
  refine ⟨leaves_iff context pieces, ?_⟩
  rw [leaves_iff, leaves_single_iff]
  constructor
  · rintro ⟨hpieces, hsingle, _⟩
    exact ⟨hpieces, hsingle⟩
  · rintro ⟨hpieces, hsingle⟩
    have hwhole := sha1Pieces_eq ((leaves_single_iff context pieces.flatten).mpr hsingle)
    rw [List.flatten_singleton] at hwhole
    exact ⟨hpieces, hsingle, (sha1Pieces_eq ((leaves_iff context pieces).mpr hpieces)).trans hwhole.symm⟩

/-- An update of half a gibibyte is counted as twice its size. -/
theorem not_sha1_streaming : ¬ ∀ context pieces, Leaves context pieces := by
  intro h
  have hbuffer : (List.replicate 64 (0 : UInt8)).length = 64 := List.length_replicate
  have hleaves := h ⟨⟨0, 0, 0, 0, 0⟩, 0, 0, ⟨_, hbuffer⟩⟩ [List.replicate (2 ^ 29) 0]
  rw [leaves_single_iff, List.length_replicate] at hleaves
  omega

end Viriatum
