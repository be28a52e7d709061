import Viriatum.Streams.BitStream

/-!
# The reading of bits

Which bytes of its file a bit stream has in its buffer, and what is read from it at a place of the file.
-/

namespace Viriatum

open Library

/-- The bytes that the buffer holds, by the place of the first one and their number, how many of them have been taken, and
how many bits of the one taken last are left. -/
structure ReadWindow where
  first : Nat
  loaded : Nat
  current : Nat
  offset : Nat
deriving DecidableEq, Repr

namespace ReadWindow

variable (w : ReadWindow) (length : Nat)

def start : ReadWindow := { first := 0, loaded := 0, current := 0, offset := 0 }

/-- The window that begins at a place of a file of a length. -/
def fill (first : Nat) (offset : Nat) : ReadWindow :=
  { first, loaded := min bitStreamBufferSize (length - first), current := 1, offset }

/-- A byte is taken where no bit is left. -/
def flush : ReadWindow :=
  if w.offset ≠ 0 then w
  else if w.current = w.loaded then fill length (w.first + w.loaded) 8
  else { w with current := w.current + 1, offset := 8 }

def readByte (size : Nat) : ReadWindow :=
  if size = 0 then w
  else if size ≤ (w.flush length).offset then { w.flush length with offset := (w.flush length).offset - size }
  else
    let next := { w.flush length with offset := 0 : ReadWindow }.flush length
    { next with offset := next.offset - (size - (w.flush length).offset) }

def readWord (size : Nat) : ReadWindow :=
  if size > 8 then (w.readByte length (size - 8)).readByte length 8 else w.readByte length size

/-- The bytes to go back over for some bits. -/
def bytesBack (size : Nat) : Nat := (BitStream.seekTarget (size - (8 - w.offset))).1

/-- Going back leads to a byte that is in the buffer, fewer than 256 bytes before, or to the one just before them. -/
def Reaches (size : Nat) : Prop :=
  size < 8 - w.offset ∨ w.bytesBack size < w.current ∧ w.bytesBack size < 256 ∨ w.bytesBack size = w.current

instance (size : Nat) : Decidable (w.Reaches size) := inferInstanceAs (Decidable (_ ∨ _ ∧ _ ∨ _))

def seek (size : Nat) : ReadWindow :=
  if size < 8 - w.offset then { w with offset := w.offset + size }
  else if w.bytesBack size ≥ w.current then fill length (w.first - 1) (BitStream.seekTarget (size - (8 - w.offset))).2
  else { w with current := w.current - w.bytesBack size, offset := (BitStream.seekTarget (size - (8 - w.offset))).2 }

end ReadWindow

namespace BitStream

variable {file : List UInt8} {s : BitStream} {w : ReadWindow} {p : Nat}

/-- The stream is at a place of its file, by its window. Once the file is at its end, the window is empty. -/
structure Aligned (file : List UInt8) (s : BitStream) (w : ReadWindow) (p : Nat) : Prop where
  contents : s.stream.contents = file
  position : s.stream.position = w.first + w.loaded
  length : s.buffer.length = bitStreamBufferSize
  buffer : ∀ i < w.loaded, s.buffer[i]? = file[w.first + i]?
  counter : s.byteCounterRead = (w.loaded : Int) - w.current
  current : s.byteCurrentRead = w.current
  offset : s.currentByteOffsetRead = w.offset
  byte : 0 < w.current → w.current ≤ w.loaded → file[w.first + w.current - 1]? = some s.currentByteRead
  place : p + w.offset = 8 * (w.first + w.current)
  offset_le : w.offset ≤ 8
  started : w.current = 0 → w.offset = 0 ∧ w.first = 0
  within : w.first + w.loaded ≤ file.length
  loaded_le : w.loaded ≤ bitStreamBufferSize
  past : w.loaded < w.current → w.loaded = 0 ∧ w.first = file.length

/-- A value of so many bits has those that the file has from a place on, as far as the file goes. -/
def Agrees (file : List UInt8) (p n v : Nat) : Prop :=
  v < 2 ^ n ∧ ∀ i, i < n → ∀ bit, (octetBits file)[p + i]? = some bit → v.testBit (n - 1 - i) = bit

theorem agrees_zero (file : List UInt8) (p : Nat) : Agrees file p 0 0 := ⟨Nat.one_pos, fun _ h => absurd h (Nat.not_lt_zero _)⟩

/-- Two values that follow each other make one. -/
theorem Agrees.append {m n u v : Nat} (hu : Agrees file p m u) (hv : Agrees file (p + m) n v) :
    Agrees file p (m + n) (u <<< n ||| v) := by
  have hsum : u <<< n ||| v = u * 2 ^ n + v := by rw [← Nat.shiftLeft_add_eq_or_of_lt hv.1, Nat.shiftLeft_eq]
  constructor
  · rw [hsum, Nat.pow_add]
    calc u * 2 ^ n + v < u * 2 ^ n + 2 ^ n := Nat.add_lt_add_left hv.1 _
      _ = (u + 1) * 2 ^ n := by rw [Nat.add_mul, Nat.one_mul]
      _ ≤ 2 ^ m * 2 ^ n := Nat.mul_le_mul_right _ hu.1
  · intro i hi bit hbit
    rw [Nat.testBit_or, Nat.testBit_shiftLeft]
    cases Nat.lt_or_ge i m with
    | inl hlt =>
        have hindex : m + n - 1 - i - n = m - 1 - i := by omega
        have hlow : v.testBit (m + n - 1 - i) = false := Nat.testBit_lt_two_pow
          (Nat.lt_of_lt_of_le hv.1 (Nat.pow_le_pow_right (by decide) (by omega)))
        rw [hlow, Bool.or_false, hindex, hu.2 i hlt bit hbit, decide_eq_true (by omega), Bool.true_and]
    | inr hge =>
        have hindex : m + n - 1 - i = n - 1 - (i - m) := by omega
        have hplace : p + i = p + m + (i - m) := by omega
        rw [hplace] at hbit
        rw [decide_eq_false (by omega), Bool.false_and, Bool.false_or, hindex, hv.2 (i - m) (by omega) bit hbit]

/-- Where the file goes on for all the bits, the value is the one of them. -/
theorem Agrees.eq {n v : Nat} (h : Agrees file p n v) (hroom : p + n ≤ 8 * file.length) :
    v = ofBits (((octetBits file).drop p).take n) := by
  have hlength : (((octetBits file).drop p).take n).length = n := by
    rw [List.length_take, List.length_drop, length_octetBits]
    omega
  apply eq_ofBits_of_testBit
  · rw [hlength]
    exact h.1
  · intro i hi
    rw [hlength] at hi
    have hlt : p + i < (octetBits file).length := by
      rw [length_octetBits]
      omega
    rw [hlength, List.getElem?_take_of_lt hi, List.getElem?_drop, List.getElem?_eq_getElem hlt,
      h.2 i hi _ (List.getElem?_eq_getElem hlt)]

theorem masks_eq {n : Nat} (h : n ≤ 8) : masks.getD n 0 = 2 ^ n - 1 := by
  have hall : ∀ n : Fin 9, masks.getD n 0 = 2 ^ n.val - 1 := by decide
  exact hall ⟨n, Nat.lt_succ_of_le h⟩

/-- The bits of the byte taken last. -/
theorem Aligned.peek (h : Aligned file s w p) (hoffset : 0 < w.offset) {n : Nat} (hn : n ≤ w.offset) :
    Agrees file p n (s.currentByteRead.toNat >>> (w.offset - n) &&& masks.getD n 0) := by
  have hle := h.offset_le
  have hplace := h.place
  have hcurrent : 0 < w.current := Nat.pos_of_ne_zero fun hzero => absurd (h.started hzero).1 (by omega)
  rw [masks_eq (Nat.le_trans hn hle), Nat.and_two_pow_sub_one_eq_mod]
  refine ⟨Nat.mod_lt _ (Nat.two_pow_pos n), fun i hi bit hbit => ?_⟩
  have hindex : p + i = 8 * (w.first + w.current - 1) + (8 - w.offset + i) := by omega
  rw [hindex, getElem?_octetBits file _ (by omega), Option.map_eq_some_iff] at hbit
  obtain ⟨byte, hbyte, rfl⟩ := hbit
  have hlt := (List.getElem?_eq_some_iff.mp hbyte).1
  have hloaded : w.current ≤ w.loaded := by
    by_contra hpast
    obtain ⟨-, hfirst⟩ := h.past (Nat.lt_of_not_le hpast)
    omega
  cases (h.byte hcurrent hloaded).symm.trans hbyte
  rw [Nat.testBit_mod_two_pow, Nat.testBit_shiftRight, decide_eq_true (by omega), Bool.true_and]
  congr 1
  omega

/-- Reading from the file fills the buffer. -/
theorem fillBuffer_spec (file : List UInt8) (hlength : s.buffer.length = bitStreamBufferSize) (first : Nat) :
    (s.fillBuffer ((file.drop first).take bitStreamBufferSize)).length = bitStreamBufferSize ∧
      ∀ i < min bitStreamBufferSize (file.length - first),
        (s.fillBuffer ((file.drop first).take bitStreamBufferSize))[i]? = file[first + i]? := by
  constructor
  · rw [fillBuffer, List.length_append, List.length_drop, List.length_take, List.length_drop, hlength]
    omega
  · intro i hi
    have hlt : i < ((file.drop first).take bitStreamBufferSize).length := by
      rw [List.length_take, List.length_drop]
      exact hi
    rw [fillBuffer, List.getElem?_append_left hlt, List.getElem?_take_of_lt (Nat.lt_of_lt_of_le hi (Nat.min_le_left _ _)),
      List.getElem?_drop]

theorem length_taken (first : Nat) : ((file.drop first).take bitStreamBufferSize).length =
    min bitStreamBufferSize (file.length - first) := by rw [List.length_take, List.length_drop]

/-- The next byte is taken. -/
theorem Aligned.flush (h : Aligned file s w p) (hroom : p < 8 * (file.length + bitStreamBufferSize)) :
    ∃ s', s.flushReadBitStream = some s' ∧ Aligned file s' (w.flush file.length) p ∧
      0 < (w.flush file.length).offset := by
  rw [flushReadBitStream, ReadWindow.flush, h.offset]
  by_cases hoffset : w.offset = 0
  · rw [if_neg (not_not.mpr hoffset), if_neg (not_not.mpr hoffset)]
    have hplace := h.place
    rw [hoffset, Nat.add_zero] at hplace
    by_cases hempty : w.current = w.loaded
    · -- all the bytes of the buffer have been taken
      have hcounter : s.byteCounterRead = 0 := by rw [h.counter, hempty]; omega
      rw [if_pos hcounter, if_pos hempty, readBuffer, FileStream.readFileStream, h.contents, h.position]
      obtain ⟨hlength, hbuffer⟩ := fillBuffer_spec file h.length (w.first + w.loaded)
      obtain ⟨byte, hbyte⟩ : ∃ byte,
          (s.fillBuffer ((file.drop (w.first + w.loaded)).take bitStreamBufferSize))[0]? = some byte :=
        ⟨_, List.getElem?_eq_getElem (by rw [hlength]; decide)⟩
      dsimp only
      rw [hbyte]
      refine ⟨_, rfl, ?_, by simp [ReadWindow.fill]⟩
      have hwithin := h.within
      constructor
      · rfl
      · dsimp only [ReadWindow.fill]
        rw [length_taken]
      · exact hlength
      · exact hbuffer
      · dsimp only [ReadWindow.fill]
        rw [length_taken]
        rfl
      · rfl
      · rfl
      · intro _ hloaded
        dsimp only [ReadWindow.fill] at hloaded ⊢
        rw [Nat.add_sub_cancel, ← Nat.add_zero (w.first + w.loaded), ← hbuffer 0 hloaded, hbyte]
      · dsimp only [ReadWindow.fill]
        rw [hplace, hempty]
        omega
      · exact Nat.le_refl 8
      · exact fun hzero => absurd hzero (Nat.one_ne_zero)
      · dsimp only [ReadWindow.fill]
        omega
      · exact Nat.min_le_left _ _
      · intro hpast
        dsimp only [ReadWindow.fill] at hpast ⊢
        have hpositive : 0 < bitStreamBufferSize := by decide
        omega
    · have hcounter : s.byteCounterRead ≠ 0 := by
        rw [h.counter]
        omega
      rw [if_neg hcounter, if_neg hempty]
      dsimp only
      rw [h.current]
      have hlt : w.current < s.buffer.length := by
        rw [h.length]
        cases Nat.lt_or_ge w.current w.loaded with
        | inl hlt => exact Nat.lt_of_lt_of_le hlt h.loaded_le
        | inr hge =>
            obtain ⟨-, hfirst⟩ := h.past (by omega)
            omega
      rw [List.getElem?_eq_getElem hlt]
      refine ⟨_, rfl, ?_, by simp⟩
      constructor
      · exact h.contents
      · exact h.position
      · exact h.length
      · exact h.buffer
      · dsimp only
        rw [h.counter]
        omega
      · rfl
      · rfl
      · intro _ hloaded
        dsimp only at hloaded ⊢
        have hindex : w.first + (w.current + 1) - 1 = w.first + w.current := by omega
        rw [hindex, ← h.buffer w.current hloaded, List.getElem?_eq_getElem hlt]
      · dsimp only
        omega
      · exact Nat.le_refl 8
      · exact fun hzero => absurd hzero (Nat.succ_ne_zero _)
      · exact h.within
      · exact h.loaded_le
      · intro hpast
        dsimp only at hpast ⊢
        exact h.past (by omega)
  · rw [if_pos hoffset, if_pos hoffset]
    exact ⟨s, rfl, h, Nat.pos_of_ne_zero hoffset⟩

/-- Some bits of the byte taken last are used up. -/
theorem Aligned.advance (h : Aligned file s w p) {n : Nat} (hn : n ≤ w.offset) :
    Aligned file { s with currentByteOffsetRead := w.offset - n } { w with offset := w.offset - n } (p + n) := by
  have hplace := h.place
  refine { h with offset := rfl, place := ?_, offset_le := ?_, started := ?_ }
  · dsimp only
    omega
  · exact Nat.le_trans (Nat.sub_le _ _) h.offset_le
  · intro hzero
    dsimp only
    rw [(h.started hzero).1, Nat.zero_sub]
    exact ⟨rfl, (h.started hzero).2⟩

theorem Agrees.of_eq {n v v' : Nat} (h : Agrees file p n v) (heq : v = v') : Agrees file p n v' := heq ▸ h

/-- The value of a whole byte needs no mask. -/
theorem shift_masked (byte : UInt8) {n : Nat} (hn : n ≤ 8) :
    byte.toNat >>> (8 - n) &&& masks.getD n 0 = byte.toNat >>> (8 - n) := by
  rw [masks_eq hn, Nat.and_two_pow_sub_one_eq_mod, Nat.mod_eq_of_lt]
  rw [Nat.shiftRight_eq_div_pow, Nat.div_lt_iff_lt_mul (Nat.two_pow_pos _), ← Nat.pow_add]
  have hsum : n + (8 - n) = 8 := by omega
  rw [hsum]
  exact byte.toNat_lt

/-- Up to a byte's bits are read across two bytes of the file. -/
theorem Aligned.readByte (h : Aligned file s w p) {n : Nat} (hn : n ≤ 8)
    (hroom : p + n ≤ 8 * (file.length + bitStreamBufferSize)) :
    ∃ s' v, s.readByteBitStream n = some (s', v) ∧ Aligned file s' (w.readByte file.length n) (p + n) ∧
      Agrees file p n v := by
  rw [readByteBitStream, ReadWindow.readByte]
  by_cases hzero : n = 0
  · rw [if_pos hzero, if_pos hzero, hzero]
    exact ⟨s, 0, rfl, h, agrees_zero file p⟩
  rw [if_neg hzero, if_neg hzero]
  obtain ⟨s₁, hflush, h₁, hoffset₁⟩ := h.flush (by omega)
  rw [hflush]
  simp only [Option.bind_eq_bind, Option.bind_some, h₁.offset]
  generalize w.flush file.length = w₁ at h₁ hoffset₁ ⊢
  by_cases hfits : n ≤ w₁.offset
  · rw [if_neg (Nat.not_lt.mpr hfits), if_pos hfits]
    simp only [if_neg (Nat.not_lt.mpr hfits), ↓reduceIte]
    exact ⟨_, _, rfl, h₁.advance hfits, h₁.peek hoffset₁ hfits⟩
  · have hover : n > w₁.offset := Nat.lt_of_not_le hfits
    have hextra : n - w₁.offset ≠ 0 := by omega
    rw [if_neg hfits]
    simp only [if_pos hover, if_neg hextra]
    have hpeek := h₁.peek hoffset₁ (Nat.le_refl w₁.offset)
    have hadvance := h₁.advance (Nat.le_refl w₁.offset)
    obtain ⟨s₂, hflush₂, h₂, hoffset₂⟩ := hadvance.flush (by omega)
    have hfull : (ReadWindow.flush { w₁ with offset := w₁.offset - w₁.offset } file.length).offset = 8 := by
      rw [ReadWindow.flush, Nat.sub_self, if_neg (not_not.mpr rfl)]
      split <;> rfl
    simp only [Nat.sub_self] at hflush₂ h₂ hfull hpeek ⊢
    rw [hflush₂]
    simp only [Option.bind_some, h₂.offset, hfull]
    generalize ReadWindow.flush { w₁ with offset := 0 } file.length = w₂ at h₂ hfull ⊢
    rw [if_neg (by omega)]
    have hsecond := h₂.peek (n := n - w₁.offset) (by omega) (by omega)
    rw [hfull, shift_masked _ (by omega)] at hsecond
    have hwhole := hpeek.append hsecond
    have hsum : w₁.offset + (n - w₁.offset) = n := by omega
    have hadvance₂ := h₂.advance (n := n - w₁.offset) (by omega)
    rw [hfull, Nat.add_assoc, hsum] at hadvance₂
    rw [hsum] at hwhole
    refine ⟨_, _, rfl, hadvance₂, hwhole.of_eq (Nat.mod_eq_of_lt ?_).symm⟩
    exact Nat.lt_of_lt_of_le hwhole.1 (Nat.pow_le_pow_right (by decide) hn)

/-- A word is read. -/
theorem Aligned.readWord (h : Aligned file s w p) {n : Nat} (hn : n ≤ 16)
    (hroom : p + n ≤ 8 * (file.length + bitStreamBufferSize)) :
    ∃ s' v, s.readWordBitStream n = some (s', v) ∧ Aligned file s' (w.readWord file.length n) (p + n) ∧
      Agrees file p n v := by
  have hitem : bitStreamItemSize = 8 := rfl
  have hword : ∀ {v : Nat}, v < 2 ^ n → v % 65536 = v := fun hv =>
    Nat.mod_eq_of_lt (Nat.lt_of_lt_of_le hv (Nat.pow_le_pow_right (by decide) hn : 2 ^ n ≤ 2 ^ 16))
  rw [readWordBitStream, ReadWindow.readWord]
  simp only [hitem]
  by_cases hbig : n > 8
  · obtain ⟨s₁, upper, hread, h₁, hupper⟩ := h.readByte (n := n - 8) (by omega) (by omega)
    obtain ⟨s₂, lower, hread₂, h₂, hlower⟩ := h₁.readByte (Nat.le_refl 8) (by omega)
    simp only [if_pos hbig, hread, Option.bind_eq_bind, Option.bind_some, hread₂]
    have hwhole := hupper.append hlower
    have hsum : n - 8 + 8 = n := by omega
    rw [Nat.add_assoc, hsum] at h₂
    rw [hsum] at hwhole
    refine ⟨s₂, _, rfl, h₂, hwhole.of_eq ?_⟩
    rw [Nat.add_comm, Nat.shiftLeft_add_eq_or_of_lt hlower.1, hword hwhole.1]
  · obtain ⟨s₁, lower, hread, h₁, hlower⟩ := h.readByte (n := n) (by omega) hroom
    simp only [if_neg hbig, Option.bind_eq_bind, Option.bind_some, hread]
    refine ⟨s₁, _, rfl, h₁, hlower.of_eq ?_⟩
    rw [Nat.zero_shiftLeft, Nat.add_zero, hword hlower.1]

/-! ## Going back -/

theorem seekTarget_spec (remaining : Nat) : 8 * (seekTarget remaining).1 + (seekTarget remaining).2 = remaining + 8 ∧
    0 < (seekTarget remaining).2 ∧ (seekTarget remaining).2 ≤ 8 := by
  have hitem : bitStreamItemSize = 8 := rfl
  rw [seekTarget, hitem]
  split
  case isTrue hwhole =>
    dsimp only
    omega
  case isFalse hpart =>
    dsimp only
    omega

/-- Going back by no bits changes nothing. -/
theorem Aligned.seek_zero (h : Aligned file s w p) : w.seek file.length 0 = w := by
  have hle := h.offset_le
  rw [ReadWindow.seek]
  split
  · rfl
  · next hfull =>
    have height : w.offset = 8 := by omega
    have hcurrent : w.current ≠ 0 := fun hzero => absurd (h.started hzero).1 (by omega)
    have hback : w.bytesBack 0 = 0 := by
      rw [ReadWindow.bytesBack, height]
      rfl
    rw [hback, if_neg (by omega), height, Nat.sub_zero]
    obtain ⟨first, loaded, current, offset⟩ := w
    cases height
    rfl

/-- Going back to a byte that is reached leads to the place before the bits. -/
theorem Aligned.seek (h : Aligned file s w p) {n : Nat} (hn : n ≤ p)
    (hroom : p ≤ 8 * (file.length + bitStreamBufferSize)) (hreaches : w.Reaches n) :
    ∃ s', s.seekBitStream n = some s' ∧ Aligned file s' (w.seek file.length n) (p - n) := by
  have hitem : bitStreamItemSize = 8 := rfl
  have hplace := h.place
  have hle := h.offset_le
  rw [seekBitStream]
  simp only [hitem, h.offset]
  by_cases hzero : n = 0
  · rw [if_pos hzero, hzero, h.seek_zero]
    exact ⟨s, rfl, h⟩
  have hcurrent : w.current ≠ 0 := fun hstart => by
    obtain ⟨hoffset, hfirst⟩ := h.started hstart
    omega
  rw [if_neg hzero, ReadWindow.seek]
  by_cases hsame : n < 8 - w.offset
  · rw [if_pos hsame, if_pos hsame]
    have hmod : (w.offset + n) % 256 = w.offset + n := by omega
    rw [hmod]
    refine ⟨_, rfl, { h with offset := rfl, place := ?_, offset_le := ?_, started := fun hstart => absurd hstart hcurrent }⟩
    · dsimp only
      omega
    · dsimp only
      omega
  rw [if_neg hsame, if_neg hsame]
  have hback : w.bytesBack n = (seekTarget (n - (8 - w.offset))).1 := rfl
  obtain ⟨htarget, hpositive, height⟩ := seekTarget_spec (n - (8 - w.offset))
  rw [ReadWindow.Reaches] at hreaches
  rw [← hback] at htarget
  rw [← hback, h.current]
  generalize w.bytesBack n = back at *
  generalize (seekTarget (n - (8 - w.offset))).2 = offset at *
  rcases hreaches.resolve_left hsame with ⟨hlt, hsmall⟩ | heq
  · -- the byte is still in the buffer
    have hmod : back % 256 = back := Nat.mod_eq_of_lt hsmall
    rw [if_neg (Nat.not_le.mpr hlt), if_neg (Nat.not_le.mpr hlt)]
    simp only [hmod]
    have hindex : w.current - back - 1 < s.buffer.length := by
      rw [h.length]
      cases Nat.lt_or_ge w.loaded w.current with
      | inl hpast =>
          obtain ⟨-, hfirst⟩ := h.past hpast
          omega
      | inr hloaded =>
          have hbuffer := h.loaded_le
          omega
    rw [List.getElem?_eq_getElem hindex]
    refine ⟨_, rfl, { h with
      counter := ?_, current := rfl, offset := rfl, byte := ?_, place := ?_, offset_le := height, started := ?_, past := ?_ }⟩
    · dsimp only
      rw [h.counter]
      omega
    · intro _ hloaded
      dsimp only at hloaded ⊢
      have hin : w.current - back - 1 < w.loaded := by omega
      have hplace' : w.first + (w.current - back) - 1 = w.first + (w.current - back - 1) := by omega
      rw [hplace', ← h.buffer _ hin, List.getElem?_eq_getElem hindex]
    · dsimp only
      omega
    · intro hstart
      dsimp only at hstart
      omega
    · intro hpast
      dsimp only at hpast ⊢
      exact h.past (by omega)
  · -- the byte is the one before the first of the buffer
    have hfirst : 0 < w.first := by omega
    have hge : back ≥ w.current := Nat.le_of_eq heq.symm
    have hwithin := h.within
    have htell : (s.stream.tellFileStream : Int) -
        ((w.current : Int) + s.byteCounterRead + ((w.current : Int) - back + 1)) = ((w.first - 1 : Nat) : Int) := by
      rw [FileStream.tellFileStream, h.position, h.counter, heq]
      omega
    rw [if_pos hge, if_pos hge]
    simp only [htell]
    have hseek : s.stream.seekFileStream ((w.first - 1 : Nat) : Int) = { contents := file, position := w.first - 1 } := by
      rw [FileStream.seekFileStream, if_neg (by omega), h.contents, Int.toNat_natCast]
    rw [hseek, FileStream.readFileStream]
    dsimp only
    obtain ⟨hlength, hbuffer⟩ := fillBuffer_spec file h.length (w.first - 1)
    have hsize : 0 < bitStreamBufferSize := by decide
    have hloaded : 0 < min bitStreamBufferSize (file.length - (w.first - 1)) := by omega
    have hbyte := hbuffer 0 hloaded
    rw [List.getElem?_eq_getElem (by rw [hlength]; exact hsize)] at hbyte ⊢
    refine ⟨_, rfl, ?_⟩
    constructor
    · rfl
    · dsimp only [ReadWindow.fill]
      rw [length_taken]
    · exact hlength
    · exact hbuffer
    · dsimp only [ReadWindow.fill]
      rw [length_taken]
      rfl
    · rfl
    · rfl
    · intro _ _
      exact hbyte.symm
    · dsimp only [ReadWindow.fill]
      omega
    · exact height
    · exact fun hstart => absurd hstart Nat.one_ne_zero
    · dsimp only [ReadWindow.fill]
      omega
    · exact Nat.min_le_left _ _
    · intro hpast
      dsimp only [ReadWindow.fill] at hpast
      omega

end BitStream

end Viriatum
