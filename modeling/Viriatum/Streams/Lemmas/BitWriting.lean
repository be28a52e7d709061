import Viriatum.Streams.BitStream

/-!
# The writing of bits

What a bit stream has been given to write: the bits of the file, those of the bytes in the buffer and those of the byte
that is not full yet.
-/

namespace Viriatum

open Library

namespace BitStream

variable {s : BitStream} {bits : List Bool}

def writtenBits (s : BitStream) : List Bool :=
  octetBits s.stream.contents ++ octetBits (s.buffer.take s.byteCounterWrite) ++
    toBits s.currentByteOffsetWrite s.currentByteWrite.toNat

/-- A stream that is being written to, at the end of its file. -/
structure Writing (s : BitStream) : Prop where
  position : s.stream.position = s.stream.contents.length
  length : s.buffer.length = bitStreamBufferSize
  counter : s.byteCounterWrite < bitStreamBufferSize
  offset : s.currentByteOffsetWrite ≤ bitStreamItemSize

theorem writeFileStream_end {stream : FileStream} (h : stream.position = stream.contents.length) (data : List UInt8) :
    stream.writeFileStream data =
      { contents := stream.contents ++ data, position := stream.position + data.length } := by
  rw [FileStream.writeFileStream, h, List.take_length, List.drop_eq_nil_of_le (by omega), List.append_nil]

/-- Putting the current byte into the buffer makes it one of the bytes there. -/
theorem octetBits_set (h : s.Writing) (byte : UInt8) :
    octetBits ((s.buffer.set s.byteCounterWrite byte).take (s.byteCounterWrite + 1)) =
      octetBits (s.buffer.take s.byteCounterWrite) ++ toBits 8 byte.toNat := by
  have hlt : s.byteCounterWrite < s.buffer.length := by
    rw [h.length]
    exact h.counter
  rw [List.take_add_one, List.getElem?_set_self hlt, List.take_set_of_le (Nat.le_refl _), octetBits_append]
  simp [octetBits]

/-- Writing the bytes of the buffer to the file. -/
theorem writeBuffer_full (hposition : s.stream.position = s.stream.contents.length)
    (hlength : s.buffer.length = bitStreamBufferSize) (hoffset : s.currentByteOffsetWrite = 0) :
    ∃ s', s.writeBuffer = some s' ∧ s'.Writing ∧ s'.writtenBits = s.writtenBits ∧ s'.currentByteOffsetWrite = 0 ∧
      s'.currentByteWrite = s.currentByteWrite := by
  rw [writeBuffer, if_neg (by omega)]
  have hempty : 0 < bitStreamBufferSize := by decide
  refine ⟨_, rfl, ⟨?_, hlength, hempty, by rw [hoffset]; exact Nat.zero_le _⟩, ?_, hoffset, rfl⟩
  · rw [writeFileStream_end hposition, List.length_append, hposition]
  · rw [writtenBits, writtenBits, writeFileStream_end hposition, octetBits_append, List.take_zero]
    simp [hoffset, octetBits]

/-- The current byte goes into the buffer once it is full. -/
theorem Writing.flush (h : s.Writing) : ∃ s', s.flushWriteBitStream = some s' ∧ s'.Writing ∧
    s'.writtenBits = s.writtenBits ∧ (s.currentByteOffsetWrite < bitStreamItemSize → s' = s) ∧
    (s.currentByteOffsetWrite = bitStreamItemSize → s'.currentByteOffsetWrite = 0 ∧ s'.currentByteWrite = 0) := by
  rw [flushWriteBitStream]
  by_cases hfull : s.currentByteOffsetWrite = bitStreamItemSize
  · have hlt : s.byteCounterWrite < s.buffer.length := by
      rw [h.length]
      exact h.counter
    have hbits : octetBits s.stream.contents ++
        octetBits ((s.buffer.set s.byteCounterWrite s.currentByteWrite).take (s.byteCounterWrite + 1)) = s.writtenBits := by
      rw [octetBits_set h, writtenBits, hfull, List.append_assoc]
      rfl
    rw [if_neg (not_not.mpr hfull), if_pos hlt]
    dsimp only
    split
    · obtain ⟨s', hwrite, hwriting, hsame, hoffset, hbyte⟩ := writeBuffer_full
        (s := { s with
          buffer := s.buffer.set s.byteCounterWrite s.currentByteWrite
          byteCounterWrite := s.byteCounterWrite + 1
          currentByteOffsetWrite := 0
          currentByteWrite := 0 }) h.position (by simpa using h.length) rfl
      refine ⟨s', hwrite, hwriting, hsame.trans ?_, fun hlt => absurd hfull (Nat.ne_of_lt hlt), fun _ => ⟨hoffset, hbyte⟩⟩
      rw [← hbits, writtenBits]
      simp
    · next hne =>
      refine ⟨_, rfl, ⟨h.position, by simpa using h.length, ?_, Nat.zero_le _⟩, ?_,
        fun hlt => absurd hfull (Nat.ne_of_lt hlt), fun _ => ⟨rfl, rfl⟩⟩
      · exact Nat.lt_of_le_of_ne h.counter hne
      · rw [← hbits, writtenBits]
        simp
  · rw [if_pos hfull]
    exact ⟨s, rfl, h, rfl, fun _ => rfl, fun heq => absurd heq hfull⟩

/-- The bits that are put below those of the current byte. -/
theorem toBits_current {offset written n value : Nat} (current : UInt8) (hroom : offset + written ≤ 8)
    (hvalue : value < 2 ^ written) (hn : n = offset + written) :
    toBits n (UInt8.ofNat (current.toNat <<< written ||| value)).toNat =
      toBits offset current.toNat ++ toBits written value := by
  rw [hn, toBits_ofNat_le _ hroom, toBits_shiftLeft_or hvalue]

/-- A byte of which some bits are written adds them. -/
theorem Writing.writeByte (h : s.Writing) (hoffset : s.currentByteOffsetWrite < bitStreamItemSize) {byte size : Nat}
    (hsize : size ≤ 8) (hbyte : byte < 2 ^ size) :
    ∃ s', s.writeByteBitStream byte size = some s' ∧ s'.Writing ∧ s'.currentByteOffsetWrite < bitStreamItemSize ∧
      s'.writtenBits = s.writtenBits ++ toBits size byte := by
  have hitem : bitStreamItemSize = 8 := rfl
  rw [hitem] at hoffset ⊢
  have havailable : (bitStreamItemSize + 256 - s.currentByteOffsetWrite) % 256 = 8 - s.currentByteOffsetWrite := by
    rw [hitem]
    omega
  rw [writeByteBitStream, havailable]
  by_cases hzero : size = 0
  · rw [if_pos hzero]
    exact ⟨s, rfl, h, hoffset, by rw [hzero, toBits_zero, List.append_nil]⟩
  by_cases hover : size > 8 - s.currentByteOffsetWrite
  · -- the bits that have no room in the current byte begin the next one
    simp only [if_pos hover, if_neg hzero]
    generalize hroom : 8 - s.currentByteOffsetWrite = room at hover ⊢
    have hsplit : size = room + (size - room) := by omega
    have hhigh : byte >>> (size - room) < 2 ^ room := by
      rw [Nat.shiftRight_eq_div_pow, Nat.div_lt_iff_lt_mul (Nat.two_pow_pos _), ← Nat.pow_add, ← hsplit]
      exact hbyte
    rw [if_neg (by omega)]
    have hcurrent : s.currentByteOffsetWrite + room = 8 := by omega
    have hmod : (s.currentByteOffsetWrite + room) % 256 = 8 := by omega
    obtain ⟨s₁, hflush, hwriting, hbits, -, hempty⟩ := Writing.flush
      (s := { s with
        currentByteWrite := UInt8.ofNat (s.currentByteWrite.toNat <<< room ||| byte >>> (size - room))
        currentByteOffsetWrite := (s.currentByteOffsetWrite + room) % 256 })
      ⟨h.position, h.length, h.counter, by rw [hmod, hitem]⟩
    obtain ⟨hoffset₁, hbyte₁⟩ := hempty hmod
    rw [hflush]
    simp only [Option.bind_eq_bind, Option.bind_some]
    rw [if_neg (by omega), hoffset₁, hbyte₁]
    have hlow : byte &&& (1 <<< (size - room) - 1) = byte % 2 ^ (size - room) := by
      rw [Nat.one_shiftLeft, Nat.and_two_pow_sub_one_eq_mod]
    have hmod' : (0 + (size - room)) % 256 = size - room := by omega
    rw [hmod']
    refine ⟨_, rfl, ⟨hwriting.position, hwriting.length, hwriting.counter, by rw [hitem]; dsimp only; omega⟩,
      by dsimp only; omega, ?_⟩
    have hfirst := toBits_current (n := 8) s.currentByteWrite (Nat.le_of_eq hcurrent) hhigh hcurrent.symm
    have hbits₁ : s₁.writtenBits = s.writtenBits ++ toBits room (byte >>> (size - room)) := by
      rw [hbits, writtenBits, writtenBits, hmod, hfirst]
      simp
    have hsecond : toBits (size - room) (UInt8.ofNat ((0 : UInt8).toNat ||| byte &&& (1 <<< (size - room) - 1))).toNat =
        toBits (size - room) byte := by
      rw [toBits_ofNat_le _ (by omega), hlow, UInt8.toNat_zero, Nat.zero_or, toBits_mod]
    have hwhole : toBits size byte = toBits room (byte >>> (size - room)) ++ toBits (size - room) byte := by
      conv_lhs => rw [hsplit, toBits_add]
      rw [Nat.shiftRight_eq_div_pow]
    rw [hwhole, ← List.append_assoc, ← hbits₁, writtenBits, writtenBits, hsecond, hoffset₁, toBits_zero, List.append_nil]
  · -- the bits have room in the current byte
    simp only [if_neg hover, if_neg hzero, Nat.shiftRight_zero]
    have hmod : (s.currentByteOffsetWrite + size) % 256 = s.currentByteOffsetWrite + size := by omega
    rw [if_neg (by omega), hmod]
    obtain ⟨s₁, hflush, hwriting, hbits, hsame, hempty⟩ := Writing.flush
      (s := { s with
        currentByteWrite := UInt8.ofNat (s.currentByteWrite.toNat <<< size ||| byte)
        currentByteOffsetWrite := s.currentByteOffsetWrite + size })
      ⟨h.position, h.length, h.counter, by rw [hitem]; dsimp only; omega⟩
    rw [hflush]
    simp only [Option.bind_eq_bind, Option.bind_some, ↓reduceIte]
    refine ⟨s₁, rfl, hwriting, ?_, ?_⟩
    · by_cases hfull : s.currentByteOffsetWrite + size = 8
      · rw [(hempty hfull).1]
        decide
      · rw [hsame (by dsimp only; omega)]
        dsimp only
        omega
    · have hroom : s.currentByteOffsetWrite + size ≤ 8 := by omega
      have hcurrent := toBits_current s.currentByteWrite hroom hbyte rfl
      rw [hbits, writtenBits, writtenBits]
      dsimp only
      rw [hcurrent]
      simp

/-- A word of which some bits are written adds them. -/
theorem Writing.writeWord (h : s.Writing) (hoffset : s.currentByteOffsetWrite < bitStreamItemSize) {word size : Nat}
    (hsize : size ≤ 16) (hword : word < 2 ^ size) :
    ∃ s', s.writeWordBitStream word size = some s' ∧ s'.Writing ∧ s'.currentByteOffsetWrite < bitStreamItemSize ∧
      s'.writtenBits = s.writtenBits ++ toBits size word := by
  have hitem : bitStreamItemSize = 8 := rfl
  have hlow : word &&& 0x00ff = word % 2 ^ 8 := Nat.and_two_pow_sub_one_eq_mod word 8
  rw [writeWordBitStream]
  simp only [hitem, hlow]
  by_cases hbig : size > 8
  · have hsplit : size = size - 8 + 8 := by omega
    have hhigh : word >>> 8 < 2 ^ (size - 8) := by
      rw [Nat.shiftRight_eq_div_pow, Nat.div_lt_iff_lt_mul (Nat.two_pow_pos _), ← Nat.pow_add, ← hsplit]
      exact hword
    have hmod : word >>> 8 % 256 = word >>> 8 := by
      have hle : 2 ^ (size - 8) ≤ 2 ^ 8 := Nat.pow_le_pow_right (by decide) (by omega)
      exact Nat.mod_eq_of_lt (Nat.lt_of_lt_of_le hhigh hle)
    rw [if_pos hbig, if_pos hbig, hmod]
    obtain ⟨s₁, hwrite, hwriting, hoffset₁, hbits⟩ := h.writeByte hoffset (by omega) hhigh
    obtain ⟨s₂, hwrite₂, hwriting₂, hoffset₂, hbits₂⟩ := hwriting.writeByte hoffset₁ (Nat.le_refl 8)
      (Nat.mod_lt word (Nat.two_pow_pos 8))
    rw [hwrite, Option.bind_eq_bind, Option.bind_some, hwrite₂]
    refine ⟨s₂, rfl, hwriting₂, hoffset₂, ?_⟩
    have hwhole : toBits size word = toBits (size - 8) (word >>> 8) ++ toBits 8 (word % 2 ^ 8) := by
      conv_lhs => rw [hsplit, toBits_add]
      rw [Nat.shiftRight_eq_div_pow, toBits_mod]
    rw [hbits₂, hbits, hwhole, List.append_assoc]
  · have hmod : word % 2 ^ 8 = word :=
      Nat.mod_eq_of_lt (Nat.lt_of_lt_of_le hword (Nat.pow_le_pow_right (by decide) (by omega)))
    rw [if_neg hbig, if_neg hbig, Option.bind_eq_bind, Option.bind_some, hmod]
    exact h.writeByte hoffset (by omega) hword

/-- Closing the stream fills the last byte up with zeros. -/
theorem Writing.close (h : s.Writing) (hoffset : s.currentByteOffsetWrite < bitStreamItemSize) :
    ∃ file padding, s.closeBitStream = some file ∧ octetBits file = s.writtenBits ++ List.replicate padding false ∧
      padding < 8 := by
  have hitem : bitStreamItemSize = 8 := rfl
  rw [closeBitStream]
  by_cases hpartial : s.currentByteOffsetWrite > 0
  · have hlt : s.byteCounterWrite < s.buffer.length ∧ s.currentByteOffsetWrite ≤ bitStreamItemSize := by
      rw [h.length]
      exact ⟨h.counter, h.offset⟩
    rw [writeBuffer, if_pos hpartial, if_pos hlt]
    refine ⟨_, 8 - s.currentByteOffsetWrite, rfl, ?_, by omega⟩
    have hbyte : toBits 8 (UInt8.ofNat (s.currentByteWrite.toNat <<< (8 - s.currentByteOffsetWrite))).toNat =
        toBits s.currentByteOffsetWrite s.currentByteWrite.toNat ++
          List.replicate (8 - s.currentByteOffsetWrite) false := by
      have height : 8 = s.currentByteOffsetWrite + (8 - s.currentByteOffsetWrite) := by omega
      rw [toBits_ofNat_le _ (Nat.le_refl 8), ← toBits_shiftLeft, ← height]
    dsimp only
    rw [writeFileStream_end h.position, octetBits_append, octetBits_set h, hitem, hbyte, writtenBits]
    simp
  · obtain ⟨s', hwrite, hwriting, hbits, hoffset', hbyte⟩ := writeBuffer_full h.position h.length (by omega)
    refine ⟨s'.stream.contents, 0, by rw [hwrite]; rfl, ?_, by decide⟩
    have hcounter : s'.byteCounterWrite = 0 := by
      rw [writeBuffer, if_neg hpartial] at hwrite
      cases hwrite
      rfl
    rw [← hbits, writtenBits, hcounter, hoffset']
    simp [octetBits]

theorem writing_create (buffer : Fin bitStreamBufferSize → UInt8) :
    (createBitStream buffer { contents := [], position := 0 }).Writing where
  position := rfl
  length := by simp only [createBitStream, List.length_ofFn]
  counter := by
    simp only [createBitStream]
    decide
  offset := Nat.zero_le _

end BitStream

end Viriatum
