import Viriatum.Checksum.Rfc1321
import Viriatum.Library.Sines

/-!
# MD5 in pieces

Whatever the pieces that the data is given in, the digest is the one of RFC 1321.
-/

namespace Viriatum

open Library Md5

/-! ## The compression is the processing of a block -/

namespace Md5

theorem F_eq (x y z : UInt32) : F x y z = Rfc1321.F x y z := by
  apply UInt32.toBitVec_inj.mp
  ext i
  simp only [F, Rfc1321.F, UInt32.toBitVec_xor, UInt32.toBitVec_and, UInt32.toBitVec_or, UInt32.toBitVec_not,
    BitVec.getElem_xor, BitVec.getElem_and, BitVec.getElem_or, BitVec.getElem_not]
  cases x.toBitVec[i] <;> cases y.toBitVec[i] <;> cases z.toBitVec[i] <;> rfl

theorem G_eq (x y z : UInt32) : G x y z = Rfc1321.G x y z := by
  apply UInt32.toBitVec_inj.mp
  ext i
  simp only [G, Rfc1321.G, UInt32.toBitVec_xor, UInt32.toBitVec_and, UInt32.toBitVec_or, UInt32.toBitVec_not,
    BitVec.getElem_xor, BitVec.getElem_and, BitVec.getElem_or, BitVec.getElem_not]
  cases x.toBitVec[i] <;> cases y.toBitVec[i] <;> cases z.toBitVec[i] <;> rfl

theorem and_ones (w : UInt32) : w &&& 0xffffffff = w := by
  apply UInt32.toBitVec_inj.mp
  exact BitVec.and_allOnes

/-- A step gives its register the value of the operation. -/
theorem run_eq (block : List UInt8) (r : Registers) (step : Step) :
    step.run block r = r.set step.a (r.get step.b + Rfc1321.rotateLeft
      (r.get step.a + step.f (r.get step.b) (r.get step.c) (r.get step.d) + wordAt block step.x + step.t) step.s) := by
  simp only [Step.run, and_ones, Rfc1321.rotateLeft, UInt32.add_assoc]
  rw [UInt32.add_comm (r.get step.b)]

/-- The constant of a step. -/
def constant (i : ℕ) : UInt32 := (steps.map Step.t).getD i 0

theorem constant_eq (i : Fin 64) : Rfc1321.T (i + 1) = constant i := by
  have hnear : ∀ i : Fin 64, Sines.Near (i + 1) (constant i).toNat := by decide +kernel
  have hfloor := Sines.floor_sin (hnear i)
  rw [Rfc1321.T]
  push_cast at hfloor ⊢
  rw [hfloor, UInt32.ofNat_toNat]

/-- The function that the code has for an operation. -/
def function (i : ℕ) : UInt32 → UInt32 → UInt32 → UInt32 :=
  match i / 16 with
  | 0 => F
  | 1 => G
  | 2 => H
  | _ => I

theorem function_eq (i : ℕ) : function i = Rfc1321.function i := by
  have hF : F = Rfc1321.F := by
    funext x y z
    exact F_eq x y z
  have hG : G = Rfc1321.G := by
    funext x y z
    exact G_eq x y z
  rw [function, Rfc1321.function, hF, hG]
  rfl

/-- The four steps of the code that make up a turn of the registers. -/
def fourSteps (n : ℕ) : List Step :=
  [⟨function (4 * n), .a, .b, .c, .d, Rfc1321.word (4 * n), constant (4 * n), Rfc1321.shift (4 * n)⟩,
   ⟨function (4 * n + 1), .d, .a, .b, .c, Rfc1321.word (4 * n + 1), constant (4 * n + 1), Rfc1321.shift (4 * n + 1)⟩,
   ⟨function (4 * n + 2), .c, .d, .a, .b, Rfc1321.word (4 * n + 2), constant (4 * n + 2), Rfc1321.shift (4 * n + 2)⟩,
   ⟨function (4 * n + 3), .b, .c, .d, .a, Rfc1321.word (4 * n + 3), constant (4 * n + 3), Rfc1321.shift (4 * n + 3)⟩]

theorem steps_eq : steps = (List.range 16).flatMap fourSteps := rfl

theorem run_fourSteps (block : List UInt8) (r : Registers) (n : ℕ) :
    (fourSteps n).foldl (Step.run block) r =
      [4 * n, 4 * n + 1, 4 * n + 2, 4 * n + 3].foldl (fun r i => Rfc1321.operation block (constant i) r i) r := by
  cases r
  simp only [fourSteps, List.foldl_cons, List.foldl_nil, run_eq, Registers.get, Registers.set, function_eq,
    Rfc1321.operation]

theorem compress_eq (r : Registers) (block : List UInt8) : compress r block = Rfc1321.processBlock r block := by
  have hrange : List.range 64 = (List.range 16).flatMap fun n => [4 * n, 4 * n + 1, 4 * n + 2, 4 * n + 3] := rfl
  have hconstants : (List.range 64).foldl (fun r i => Rfc1321.operation block (Rfc1321.T (i + 1)) r i) r =
      (List.range 64).foldl (fun r i => Rfc1321.operation block (constant i) r i) r := by
    apply List.foldl_ext
    intro r i hi
    rw [← constant_eq ⟨i, List.mem_range.mp hi⟩]
  have hsteps : steps.foldl (Step.run block) r =
      (List.range 64).foldl (fun r i => Rfc1321.operation block (constant i) r i) r := by
    rw [steps_eq, hrange, List.foldl_flatMap, List.foldl_flatMap]
    simp only [run_fourSteps]
  rw [compress, Rfc1321.processBlock, hsteps, hconstants]
  simp only [UInt32.add_comm]

/-- A turn of the loop reads a block only. -/
theorem compress_take (r : Registers) (pointer : List UInt8) : compress r (pointer.take 64) = compress r pointer := by
  have hwords : ∀ step ∈ steps, step.x < 16 := by decide
  have hword : ∀ n < 16, wordAt (pointer.take 64) n = wordAt pointer n := by
    intro n hn
    rw [wordAt, wordAt, List.drop_take, List.take_take, Nat.min_eq_left (by omega)]
  have hrun : steps.foldl (Step.run (pointer.take 64)) r = steps.foldl (Step.run pointer) r := by
    apply List.foldl_ext
    intro r step hstep
    rw [Step.run, Step.run, hword step.x (hwords step hstep)]
  rw [compress, compress, hrun]

theorem compressAll_eq (count : ℕ) (r : Registers) (pointer : List UInt8) :
    compressAll count r pointer =
      ((firstBlocks 64 count pointer).foldl Rfc1321.processBlock r, pointer.drop (64 * count)) := by
  induction count generalizing r pointer with
  | zero => rfl
  | succ count ih =>
      rw [compressAll, ih, firstBlocks, List.foldl_cons, ← compress_eq, compress_take, List.drop_drop, Nat.mul_succ,
        Nat.add_comm]

theorem bodyMd5_block (context : Md5Context) {block : List UInt8} (h : block.length = 64) :
    (bodyMd5 context block 64).1 =
      { context with registers := Rfc1321.processBlock context.registers block } := by
  rw [bodyMd5, compressAll_eq]
  simp [firstBlocks, List.take_of_length_le (Nat.le_of_eq h)]

theorem bodyMd5_blocks (context : Md5Context) (data : List UInt8) :
    bodyMd5 context data (data.length - data.length % 64) =
      ({ context with registers := (blocks 64 data).foldl Rfc1321.processBlock context.registers }, leftover 64 data) := by
  have hcount : (data.length - data.length % 64) / 64 = data.length / 64 := by omega
  rw [bodyMd5, compressAll_eq, hcount]
  rfl

end Md5

/-! ## The updates -/

namespace Md5Context

variable {context : Md5Context} {data : List UInt8}

/-- The value after the whole blocks and the start of a block that a context holds. -/
def absorbed (context : Md5Context) : Absorbed Registers UInt8 64 where
  value := context.registers
  pending := context.buffer.bytes.take context.used
  short := by
    rw [List.length_take]
    exact Nat.lt_of_le_of_lt (Nat.min_le_left _ _) context.used_lt

/-- The number of bytes taken so far, as far as the words of the context hold it. -/
def count (context : Md5Context) : ℕ := context.low + 2 ^ 29 * context.high

/-- The words that count the bytes are in their bounds. -/
structure Counted (context : Md5Context) : Prop where
  low : context.low < 2 ^ 29
  high : context.high < 2 ^ 32

theorem updateBlocks_eq (context : Md5Context) (data : List UInt8) : updateBlocks context data =
    { context with
      registers := (blocks 64 data).foldl Rfc1321.processBlock context.registers
      buffer := context.buffer.write 0 (leftover 64 data) (by
        have : data.length % 64 < 64 := Nat.mod_lt _ (by decide)
        rw [length_leftover]
        omega) } := by
  rw [updateBlocks]
  split
  · have htake : (leftover 64 data).take (data.length % 64) = leftover 64 data :=
      List.take_of_length_le (Nat.le_of_eq (length_leftover 64 data))
    simp only [bodyMd5_blocks, htake]
  · next h =>
    have hshort : data.length < 64 := by omega
    simp only [blocks_of_lt hshort, leftover_of_lt hshort, List.foldl_nil]

/-- The end of an update, in a context whose count is already the one after it. -/
theorem absorbed_updateBlocks (hlow : context.low % 64 = data.length % 64) :
    (updateBlocks context data).absorbed =
      Absorbed.absorb Rfc1321.processBlock ⟨context.registers, [], by decide⟩ data := by
  rw [updateBlocks_eq]
  ext1
  · rfl
  · have hused : context.used = 0 + (leftover 64 data).length := by
      rw [used_eq, hlow, length_leftover, Nat.zero_add]
    simp only [absorbed, used] at hused ⊢
    exact FixedBuffer.take_write _ _ hused

theorem low_update (context : Md5Context) (size : ℕ) :
    (context.low + size) % 2 ^ 64 &&& 0x1fffffff = (context.low + size) % 2 ^ 29 := by
  rw [show 0x1fffffff = 2 ^ 29 - 1 from rfl, Nat.and_two_pow_sub_one_eq_mod]
  omega

theorem length_pending (context : Md5Context) : context.absorbed.pending.length = context.used := by
  have hused := context.used_lt
  rw [absorbed, List.length_take, context.buffer.length_bytes]
  omega

/-- What an update makes of a context, whatever the number of bytes in its buffer. -/
theorem absorbed_updateMd5 (context : Md5Context) (data : List UInt8) :
    (updateMd5 context data).absorbed = context.absorbed.absorb Rfc1321.processBlock data := by
  have hused := context.used_eq
  have hlt := context.used_lt
  by_cases hempty : context.used = 0
  · have hlow : ((context.low + data.length) % 2 ^ 64 &&& 0x1fffffff) % 64 = data.length % 64 := by
      rw [low_update]
      omega
    simp only [updateMd5, hempty, ↓reduceIte]
    rw [absorbed_updateBlocks hlow]
    simp only [absorbed, hempty, List.take_zero]
  · by_cases hshort : data.length < 64 - context.used
    · have hfits : (context.absorbed.pending ++ data).length < 64 := by
        rw [List.length_append, length_pending]
        omega
      have hpending : ((context.low + data.length) % 2 ^ 64 &&& 0x1fffffff) &&& 0x3f = context.used + data.length := by
        rw [low_update, show 0x3f = 2 ^ 6 - 1 from rfl, Nat.and_two_pow_sub_one_eq_mod]
        omega
      simp only [updateMd5, hempty, ↓reduceIte, hshort, ↓reduceDIte]
      rw [Absorbed.absorb_of_lt hfits]
      ext1
      · rfl
      · simp only [absorbed, used] at hpending ⊢
        exact FixedBuffer.take_write _ _ hpending
    · have hhead : (data.take (64 - context.used)).length = 64 - context.used := by
        rw [List.length_take]
        omega
      have hblock : (context.absorbed.pending ++ data.take (64 - context.used)).length = 64 := by
        rw [List.length_append, length_pending, hhead]
        omega
      have hlow : ((context.low + data.length) % 2 ^ 64 &&& 0x1fffffff) % 64 =
          (data.drop (64 - context.used)).length % 64 := by
        rw [low_update, List.length_drop]
        omega
      have hfull : context.used + (data.take (64 - context.used)).length = 64 := by omega
      have hbuffer := context.buffer.write_full (Nat.le_of_eq hfull) hfull
      simp only [updateMd5, hempty, ↓reduceIte, hshort, ↓reduceDIte]
      rw [bodyMd5_block _ (FixedBuffer.length_bytes _), absorbed_updateBlocks hlow, hbuffer]
      conv_rhs => rw [← List.take_append_drop (64 - context.used) data, Absorbed.absorb_of_block hblock]
      rfl

/-- The words that count the bytes after an update. -/
theorem words_updateMd5 (context : Md5Context) (data : List UInt8) :
    (updateMd5 context data).low = (context.low + data.length) % 2 ^ 29 ∧
      (updateMd5 context data).high =
        ((if (context.low + data.length) % 2 ^ 29 < context.low then (context.high + 1) % 2 ^ 32 else context.high) +
          data.length >>> 29) % 2 ^ 32 := by
  rw [← low_update]
  by_cases hempty : context.used = 0
  · simp only [updateMd5, hempty, ↓reduceIte]
    rw [updateBlocks_eq]
    exact ⟨rfl, rfl⟩
  · by_cases hshort : data.length < 64 - context.used
    · simp only [updateMd5, hempty, ↓reduceIte, hshort, ↓reduceDIte, and_self]
    · simp only [updateMd5, hempty, ↓reduceIte, hshort, ↓reduceDIte]
      rw [updateBlocks_eq]
      exact ⟨rfl, rfl⟩

theorem counted_updateMd5 (context : Md5Context) (data : List UInt8) : (updateMd5 context data).Counted := by
  obtain ⟨hlow, hhigh⟩ := words_updateMd5 context data
  constructor
  · rw [hlow]
    exact Nat.mod_lt _ (by decide)
  · rw [hhigh]
    exact Nat.mod_lt _ (by decide)

theorem Counted.count_updateMd5 (h : context.Counted) (data : List UInt8) :
    (updateMd5 context data).count = (context.count + data.length) % 2 ^ 61 := by
  obtain ⟨hlow, hhigh⟩ := h
  obtain ⟨hlow', hhigh'⟩ := words_updateMd5 context data
  have hshift : data.length >>> 29 = data.length / 2 ^ 29 := Nat.shiftRight_eq_div_pow ..
  simp only [count, hlow', hhigh', hshift]
  split <;> omega

/-! ## A run of updates -/

theorem absorbed_pieces (context : Md5Context) (pieces : List (List UInt8)) :
    (pieces.foldl updateMd5 context).absorbed = context.absorbed.absorb Rfc1321.processBlock pieces.flatten := by
  rw [← Absorbed.foldl_absorb]
  induction pieces generalizing context with
  | nil => rfl
  | cons piece pieces ih => rw [List.foldl_cons, List.foldl_cons, ih, absorbed_updateMd5]

theorem Counted.pieces (h : context.Counted) (pieces : List (List UInt8)) :
    (pieces.foldl updateMd5 context).Counted ∧
      (pieces.foldl updateMd5 context).count = (context.count + pieces.flatten.length) % 2 ^ 61 := by
  induction pieces generalizing context with
  | nil =>
      refine ⟨h, ?_⟩
      obtain ⟨hlow, hhigh⟩ := h
      simp only [List.foldl_nil, List.flatten_nil, List.length_nil, count]
      omega
  | cons piece pieces ih =>
      obtain ⟨hcounted, hcount⟩ := ih (counted_updateMd5 context piece)
      refine ⟨hcounted, ?_⟩
      rw [List.foldl_cons, hcount, h.count_updateMd5, List.flatten_cons, List.length_append]
      omega

/-! ## The end of a digest -/

theorem wordBytes_eq (word : ℕ) : wordBytes word = (octets 4 word).reverse := by
  simp [wordBytes, octets, Nat.shiftRight_eq_div_pow, Nat.div_div_eq_div_mul]

/-- The bytes of the two words of the count are those of the length in bits. -/
theorem Counted.lengthBytes (h : context.Counted) {length : ℕ} (hcount : context.count = length % 2 ^ 61) :
    wordBytes (context.low <<< 3 % 2 ^ 32) ++ wordBytes context.high = (octets 8 (8 * length)).reverse := by
  obtain ⟨hlow, hhigh⟩ := h
  rw [count] at hcount
  have hbits : context.low <<< 3 % 2 ^ 32 = 8 * context.low := by
    rw [Nat.shiftLeft_eq]
    omega
  rw [octets_eight (show 8 * context.low < 2 ^ 32 by omega)
    (show 8 * length % 2 ^ 64 = 8 * context.low + 2 ^ 32 * context.high by omega), List.reverse_append, wordBytes_eq,
    wordBytes_eq, hbits]

/-- The bytes of a digest. -/
def digestBytes (r : Registers) : List UInt8 := [r.a, r.b, r.c, r.d].flatMap fun word => (octets 4 word.toNat).reverse

theorem finishMd5_eq (context : Md5Context) (used : ℕ) (h : used ≤ 56) : finishMd5 context used h =
    digestBytes (Rfc1321.processBlock context.registers (context.buffer.bytes.take used ++
      List.replicate (56 - used) (0 : UInt8) ++ (wordBytes (context.low <<< 3 % 2 ^ 32) ++ wordBytes context.high))) := by
  simp only [finishMd5, show 64 - used - 8 = 56 - used by omega]
  rw [bodyMd5_block _ (FixedBuffer.length_bytes _), FixedBuffer.write_full _ _ (by simp [wordBytes]),
    FixedBuffer.take_write _ _ (by rw [List.length_replicate]; omega)]
  simp only [digestBytes, wordBytes_eq, List.flatMap_cons, List.flatMap_nil, List.append_nil, List.append_assoc]

/-- The end of a digest goes on with the padding. -/
theorem Counted.finalMd5_eq (h : context.Counted) {length : ℕ} (hcount : context.count = length % 2 ^ 61) :
    finalMd5 context = digestBytes (context.absorbed.absorb Rfc1321.processBlock (Rfc1321.padding length)).value := by
  have hlt := context.used_lt
  have hused : context.used = length % 64 := by
    rw [used_eq]
    rw [count] at hcount
    omega
  have hmark : context.used + 1 = context.used + [(0x80 : UInt8)].length := rfl
  by_cases hfree : 64 - (context.used + 1) < 8
  · -- no room for the length: the padding takes two more blocks
    have hpadding : Rfc1321.padding length = [0x80] ++ List.replicate (64 - (context.used + 1)) 0 ++
        (List.replicate 56 0 ++ (octets 8 (8 * length)).reverse) := by
      have hnumber : (119 - length % 64) % 64 = 64 - (context.used + 1) + 56 := by omega
      rw [Rfc1321.padding, hnumber, List.replicate_add]
      simp only [List.append_assoc]
    have hfirst : (context.absorbed.pending ++ ([0x80] ++ List.replicate (64 - (context.used + 1)) 0)).length = 64 := by
      rw [List.length_append, length_pending]
      simp
      omega
    have hzeros : 64 = context.used + 1 + (List.replicate (64 - (context.used + 1)) (0 : UInt8)).length := by
      rw [List.length_replicate]
      omega
    have hsecond : ([] ++ (List.replicate 56 0 ++ (octets 8 (8 * length)).reverse)).length = 64 := by simp
    rw [hpadding, Absorbed.absorb_of_block hfirst, ← List.append_nil (List.replicate 56 0 ++ _),
      Absorbed.absorb_of_block hsecond, Absorbed.absorb_nil, ← h.lengthBytes hcount]
    simp only [finalMd5, hfree, ↓reduceDIte]
    rw [finishMd5_eq, bodyMd5_block _ (FixedBuffer.length_bytes _), FixedBuffer.write_full _ _ hzeros.symm,
      FixedBuffer.take_write _ _ hmark]
    simp only [absorbed, List.append_assoc, List.take_zero]
  · have hpadding : Rfc1321.padding length =
        [0x80] ++ List.replicate (56 - (context.used + 1)) 0 ++ (octets 8 (8 * length)).reverse := by
      rw [Rfc1321.padding]
      congr 3
      omega
    have hblock : (context.absorbed.pending ++ Rfc1321.padding length).length = 64 := by
      rw [hpadding, List.length_append, length_pending]
      simp
      omega
    rw [← List.append_nil (Rfc1321.padding length), Absorbed.absorb_of_block hblock, Absorbed.absorb_nil, hpadding,
      ← h.lengthBytes hcount]
    simp only [finalMd5, hfree, ↓reduceDIte]
    rw [finishMd5_eq]
    simp only [FixedBuffer.take_write _ _ hmark]
    simp only [absorbed, List.append_assoc]

end Md5Context

/-- Whatever the pieces, the digest is the one of the whole data. -/
theorem md5Pieces_eq (context : Md5Context) (pieces : List (List UInt8)) :
    md5Pieces context pieces = Rfc1321.digest pieces.flatten := by
  have hstart : (initMd5 context).Counted := ⟨Nat.two_pow_pos 29, Nat.two_pow_pos 32⟩
  obtain ⟨hcounted, hcount⟩ := hstart.pieces pieces
  have hzero : (initMd5 context).count = 0 := rfl
  have habsorbed : (initMd5 context).absorbed =
      ⟨⟨0x67452301, 0xefcdab89, 0x98badcfe, 0x10325476⟩, [], by decide⟩ := by
    ext1
    · rfl
    · simp [Md5Context.absorbed, Md5Context.used, initMd5]
  rw [hzero, Nat.zero_add] at hcount
  rw [md5Pieces, hcounted.finalMd5_eq hcount, Md5Context.absorbed_pieces, ← Absorbed.absorb_append, habsorbed]
  rfl

end Viriatum
