import Viriatum.Library.Refinement
import Viriatum.Streams.Lemmas.BitReading
import Viriatum.Streams.Lemmas.BitWriting

/-!
# Reading back what has been written

Words of some bits are written and read back, with the bits that have been read gone back over in between.
-/

namespace Viriatum

open Library BitStream

/-! ## Words, written and read -/

/-- Words and the numbers of bits of them. -/
abbrev BitWords := List (Nat × Nat)

def wordBits (words : BitWords) : List Bool := words.flatMap fun word => toBits word.2 word.1

/-- Words of so many bits each. -/
def Fitting (sizes : List Nat) (words : BitWords) : Prop :=
  words.map Prod.snd = sizes ∧ ∀ word ∈ words, word.1 < 2 ^ word.2

/-- The file that words are written to. -/
def writeWords (buffer : Fin bitStreamBufferSize → UInt8) (words : BitWords) : Option (List UInt8) := do
  let s ← words.foldlM (fun s word => s.writeWordBitStream word.1 word.2)
    (createBitStream buffer { contents := [], position := 0 })
  s.closeBitStream

def openBitStream (buffer : Fin bitStreamBufferSize → UInt8) (file : List UInt8) : BitStream :=
  createBitStream buffer { contents := file, position := 0 }

def readWords : BitStream → List Nat → Option (List Nat)
  | _, [] => some []
  | s, size :: sizes => do
      let (s, word) ← s.readWordBitStream size
      let words ← readWords s sizes
      some (word :: words)

/-! ## Reading and going back -/

inductive BitCall where
  | read (size : Nat)
  | seek (size : Nat)
deriving DecidableEq, Repr

def BitStream.call (s : BitStream) : BitCall → Option (BitStream × Option Nat)
  | .read size => (s.readWordBitStream size).map fun (s, word) => (s, some word)
  | .seek size => (s.seekBitStream size).map fun s => (s, none)

/-- The calls on a place in a sequence of bits. -/
def bitAct (bits : List Bool) (p : Nat) : BitCall → Nat × Option Nat
  | .read size => (p + size, some (ofBits ((bits.drop p).take size)))
  | .seek size => (p - size, none)

/-- Words are read up to the end of the bits, and gone back over to the first of them. -/
def Within (total : Nat) : Nat → List BitCall → Prop
  | _, [] => True
  | p, .read size :: calls => size ≤ 16 ∧ p + size ≤ total ∧ Within total (p + size) calls
  | p, .seek size :: calls => size ≤ p ∧ Within total (p - size) calls

/-- Whatever word is read next, it is the one at the place. -/
def ReadsAt (bits : List Bool) (s : BitStream) (p : Nat) : Prop :=
  ∀ size, size ≤ 16 → p + size ≤ bits.length → ∃ s', s.readWordBitStream size = some (s', ofBits ((bits.drop p).take size))

/-- The words are read back from the file that they are written to, and so are their bits after each of the calls. -/
def ReadsBack (words : BitWords) (calls : List BitCall) : Prop :=
  ∀ buffer buffer', ∃ file, writeWords buffer words = some file ∧
    readWords (openBitStream buffer' file) (words.map Prod.snd) = some (words.map Prod.fst) ∧
    Emulates BitStream.call (bitAct (wordBits words)) (ReadsAt (wordBits words)) (openBitStream buffer' file) 0 calls

/-- Each time that is gone back, a byte is reached that is in the buffer, fewer than 256 bytes before, or the one just
before those. -/
def ReadWindow.Keeps (length : Nat) : ReadWindow → List BitCall → Prop
  | _, [] => True
  | w, .read size :: calls => Keeps length (w.readWord length size) calls
  | w, .seek size :: calls => w.Reaches size ∧ Keeps length (w.seek length size) calls

instance instDecidableKeeps (length : Nat) : ∀ (w : ReadWindow) (calls : List BitCall), Decidable (w.Keeps length calls)
  | _, [] => inferInstanceAs (Decidable True)
  | w, .read size :: calls => instDecidableKeeps length (w.readWord length size) calls
  | w, .seek size :: calls =>
      have := instDecidableKeeps length (w.seek length size) calls
      inferInstanceAs (Decidable (_ ∧ _))

instance instDecidableWithinBits (total : Nat) : ∀ (p : Nat) (calls : List BitCall), Decidable (Within total p calls)
  | _, [] => inferInstanceAs (Decidable True)
  | p, .read size :: calls =>
      have := instDecidableWithinBits total (p + size) calls
      inferInstanceAs (Decidable (_ ∧ _ ∧ _))
  | p, .seek size :: calls =>
      have := instDecidableWithinBits total (p - size) calls
      inferInstanceAs (Decidable (_ ∧ _))

/-! ## The file -/

theorem length_wordBits (words : BitWords) : (wordBits words).length = (words.map Prod.snd).sum := by
  induction words with
  | nil => rfl
  | cons word words ih =>
      rw [wordBits, List.flatMap_cons, List.length_append, toBits_length, ← wordBits, ih, List.map_cons, List.sum_cons]

/-- Any bits are those of some words of the sizes. -/
theorem exists_words (sizes : List Nat) {bits : List Bool} (h : bits.length = sizes.sum) :
    ∃ words, Fitting sizes words ∧ wordBits words = bits := by
  induction sizes generalizing bits with
  | nil =>
      have hnil : bits = [] := List.length_eq_zero_iff.mp h
      exact ⟨[], ⟨rfl, fun _ hmem => absurd hmem List.not_mem_nil⟩, hnil.symm⟩
  | cons size sizes ih =>
      rw [List.sum_cons] at h
      have htake : (bits.take size).length = size := by
        rw [List.length_take]
        omega
      have hdrop : (bits.drop size).length = sizes.sum := by
        rw [List.length_drop]
        omega
      obtain ⟨words, ⟨hsizes, hfits⟩, hbits⟩ := ih hdrop
      have hword := toBits_ofBits (bits.take size)
      have hlt := ofBits_lt (bits.take size)
      rw [htake] at hword hlt
      refine ⟨(ofBits (bits.take size), size) :: words, ⟨by rw [List.map_cons, hsizes], fun word hmem => ?_⟩, ?_⟩
      · cases hmem with
        | head => exact hlt
        | tail _ hmem => exact hfits word hmem
      · rw [wordBits, List.flatMap_cons, ← wordBits, hbits, hword, List.take_append_drop]

/-- The bits of the file are those of the words, filled up with zeros. -/
structure Written (words : BitWords) (file : List UInt8) : Prop where
  bits : ∃ padding, octetBits file = wordBits words ++ List.replicate padding false
  length : file.length = ((words.map Prod.snd).sum + 7) / 8

theorem Written.room {words : BitWords} {file : List UInt8} (h : Written words file) :
    (wordBits words).length ≤ 8 * file.length := by
  rw [length_wordBits, h.length]
  omega

theorem writeWords_eq {sizes : List Nat} {words : BitWords} (hwords : Fitting sizes words) (hsizes : ∀ size ∈ sizes, size ≤ 16)
    (buffer : Fin bitStreamBufferSize → UInt8) : ∃ file, writeWords buffer words = some file ∧ Written words file := by
  have hrun : ∀ (words : BitWords) (s : BitStream), s.Writing → s.currentByteOffsetWrite < bitStreamItemSize →
      (∀ word ∈ words, word.2 ≤ 16 ∧ word.1 < 2 ^ word.2) →
      ∃ s', words.foldlM (fun s word => s.writeWordBitStream word.1 word.2) s = some s' ∧ s'.Writing ∧
        s'.currentByteOffsetWrite < bitStreamItemSize ∧ s'.writtenBits = s.writtenBits ++ wordBits words := by
    intro words
    induction words with
    | nil => exact fun s h hoffset _ => ⟨s, rfl, h, hoffset, by simp [wordBits]⟩
    | cons word words ih =>
        intro s h hoffset hall
        obtain ⟨hsize, hword⟩ := hall word List.mem_cons_self
        obtain ⟨s₁, hwrite, h₁, hoffset₁, hbits₁⟩ := h.writeWord hoffset hsize hword
        obtain ⟨s', hrest, h', hoffset', hbits'⟩ := ih s₁ h₁ hoffset₁ fun word hmem => hall word (List.mem_cons_of_mem _ hmem)
        refine ⟨s', by rw [List.foldlM_cons, hwrite]; exact hrest, h', hoffset', ?_⟩
        rw [hbits', hbits₁, wordBits, wordBits, List.flatMap_cons, List.append_assoc]
  have hall : ∀ word ∈ words, word.2 ≤ 16 ∧ word.1 < 2 ^ word.2 := fun word hmem =>
    ⟨hsizes word.2 (by rw [← hwords.1]; exact List.mem_map.mpr ⟨word, hmem, rfl⟩), hwords.2 word hmem⟩
  have hstart : (createBitStream buffer { contents := [], position := 0 }).currentByteOffsetWrite <
      bitStreamItemSize := by
    simp only [createBitStream]
    decide
  obtain ⟨s, hwrite, hwriting, hoffset, hbits⟩ := hrun words _ (writing_create buffer) hstart hall
  obtain ⟨file, padding, hclose, hfile, hpadding⟩ := hwriting.close hoffset
  have hempty : (createBitStream buffer { contents := [], position := 0 }).writtenBits = [] := by
    simp [createBitStream, writtenBits, octetBits]
  rw [hbits, hempty, List.nil_append] at hfile
  refine ⟨file, by rw [writeWords, hwrite]; exact hclose, ⟨padding, hfile⟩, ?_⟩
  have hlength := congrArg List.length hfile
  rw [length_octetBits, List.length_append, List.length_replicate, length_wordBits] at hlength
  omega

/-! ## Reading on -/

variable {words : BitWords} {file : List UInt8} {s : BitStream} {w : ReadWindow} {p : Nat}

theorem aligned_open (buffer : Fin bitStreamBufferSize → UInt8) (file : List UInt8) :
    Aligned file (openBitStream buffer file) .start 0 where
  contents := rfl
  position := rfl
  length := by simp only [openBitStream, createBitStream, List.length_ofFn]
  buffer _ h := absurd h (Nat.not_lt_zero _)
  counter := rfl
  current := rfl
  offset := rfl
  byte h := absurd h (Nat.lt_irrefl 0)
  place := rfl
  offset_le := Nat.zero_le _
  started _ := ⟨rfl, rfl⟩
  within := Nat.zero_le _
  loaded_le := Nat.zero_le _
  past h := absurd h (Nat.lt_irrefl 0)

/-- What is read of the file within the bits of the words is of those. -/
theorem Written.read (hwritten : Written words file) (h : Aligned file s w p) {size : Nat} (hsize : size ≤ 16)
    (hroom : p + size ≤ (wordBits words).length) :
    ∃ s', s.readWordBitStream size = some (s', ofBits (((wordBits words).drop p).take size)) ∧
      Aligned file s' (w.readWord file.length size) (p + size) := by
  have hfile := hwritten.room
  obtain ⟨s', value, hread, h', hvalue⟩ := h.readWord hsize (by omega)
  obtain ⟨padding, hbits⟩ := hwritten.bits
  have heq := hvalue.eq (by omega)
  rw [hbits, List.drop_append_of_le_length (by omega), List.take_append_of_le_length (by rw [List.length_drop]; omega)] at heq
  rw [heq] at hread
  exact ⟨s', hread, h'⟩

theorem Written.readsAt (hwritten : Written words file) (h : Aligned file s w p) : ReadsAt (wordBits words) s p := by
  intro size hsize hroom
  obtain ⟨s', hread, -⟩ := hwritten.read h hsize hroom
  exact ⟨s', hread⟩

/-- The words are read one after the other. -/
theorem Written.readWords (hwritten : Written words file) (before after : BitWords) (hwords : words = before ++ after)
    (hsizes : ∀ word ∈ words, word.2 ≤ 16 ∧ word.1 < 2 ^ word.2) (h : Aligned file s w (wordBits before).length) :
    Viriatum.readWords s (after.map Prod.snd) = some (after.map Prod.fst) := by
  induction after generalizing before s w with
  | nil => rfl
  | cons word after ih =>
      obtain ⟨hsize, hvalue⟩ := hsizes word (by rw [hwords]; simp)
      have hbits : wordBits words = wordBits before ++ (toBits word.2 word.1 ++ wordBits after) := by
        rw [hwords, wordBits, List.flatMap_append, List.flatMap_cons]
        rfl
      have hroom : (wordBits before).length + word.2 ≤ (wordBits words).length := by
        rw [hbits, List.length_append, List.length_append, toBits_length]
        omega
      obtain ⟨s', hread, h'⟩ := hwritten.read h hsize hroom
      have htaken : ((wordBits words).drop (wordBits before).length).take word.2 = toBits word.2 word.1 := by
        rw [hbits, List.drop_left, List.take_left' (toBits_length _ _)]
      rw [htaken, ← eq_ofBits hvalue] at hread
      have hbefore : (wordBits (before ++ [word])).length = (wordBits before).length + word.2 := by
        rw [wordBits, List.flatMap_append, List.length_append, ← wordBits]
        simp
      rw [← hbefore] at h'
      have hrest := ih (before ++ [word]) (by rw [hwords]; simp) h'
      rw [List.map_cons, Viriatum.readWords, hread]
      simp only [Option.bind_eq_bind, Option.bind_some, hrest]
      rfl

/-- Where what is gone back to is reached, the bits are those of the words. -/
theorem Written.emulates (hwritten : Written words file) (calls : List BitCall) (h : Aligned file s w p)
    (hroom : p ≤ (wordBits words).length) (hwithin : Within (wordBits words).length p calls)
    (hkeeps : w.Keeps file.length calls) :
    Emulates BitStream.call (bitAct (wordBits words)) (ReadsAt (wordBits words)) s p calls := by
  induction calls generalizing s w p with
  | nil => exact hwritten.readsAt h
  | cons call calls ih =>
      refine ⟨hwritten.readsAt h, ?_⟩
      cases call with
      | read size =>
          obtain ⟨hsize, hend, hrest⟩ := hwithin
          obtain ⟨s', hread, h'⟩ := hwritten.read h hsize hend
          exact ⟨s', by rw [BitStream.call, hread]; rfl, ih h' hend hrest hkeeps⟩
      | seek size =>
          obtain ⟨hsize, hrest⟩ := hwithin
          have hfile := hwritten.room
          obtain ⟨s', hseek, h'⟩ := h.seek hsize (by omega) hkeeps.1
          have hback : p - size ≤ (wordBits words).length := Nat.le_trans (Nat.sub_le p size) hroom
          exact ⟨s', by rw [BitStream.call, hseek]; rfl, ih h' hback hrest hkeeps.2⟩

/-! ## Going astray -/

/-- Short of the end of the file the byte taken last is in the buffer. -/
theorem BitStream.Aligned.inside (h : Aligned file s w p) (hoffset : w.offset < 8) (hp : p ≤ 8 * file.length) :
    w.current ≤ w.loaded := by
  by_contra hpast
  obtain ⟨hempty, hfirst⟩ := h.past (Nat.lt_of_not_le hpast)
  have hplace := h.place
  omega

/-- So it is with bits left of the byte, where they are bits of the file. -/
theorem BitStream.Aligned.inside_before (h : Aligned file s w p) (hp : p < 8 * file.length) : w.current ≤ w.loaded := by
  by_contra hpast
  obtain ⟨hempty, hfirst⟩ := h.past (Nat.lt_of_not_le hpast)
  have hplace := h.place
  have hle := h.offset_le
  omega

theorem ReadWindow.flush_offset (w : ReadWindow) (length : Nat) (h : w.offset ≤ 8) : (w.flush length).offset ≤ 8 := by
  rw [flush]
  split
  · exact h
  · split <;> exact Nat.le_refl 8

theorem ReadWindow.readByte_offset (w : ReadWindow) (length : Nat) (h : w.offset ≤ 8) {size : Nat} (hsize : 0 < size) :
    (w.readByte length size).offset < 8 := by
  have hflush := w.flush_offset length h
  rw [readByte, if_neg (Nat.ne_of_gt hsize)]
  split
  · dsimp only
    omega
  · exact Nat.lt_of_le_of_lt (Nat.sub_le_sub_right (flush_offset _ length (Nat.zero_le 8)) _) (by omega)

theorem ReadWindow.readWord_offset (w : ReadWindow) (length : Nat) (h : w.offset ≤ 8) {size : Nat} (hsize : 0 < size) :
    (w.readWord length size).offset < 8 := by
  rw [readWord]
  split
  · next hbig =>
    have hfirst := w.readByte_offset length h (Nat.sub_pos_of_lt hbig)
    exact readByte_offset _ length (Nat.le_of_lt hfirst) (by decide)
  · exact w.readByte_offset length h hsize

/-- One bit is read of the byte taken last. -/
theorem readWord_one (hoffset : 0 < s.currentByteOffsetRead) : ∃ s', s.readWordBitStream 1 =
    some (s', (s.currentByteRead.toNat.testBit (s.currentByteOffsetRead - 1)).toNat) := by
  have hflush : s.flushReadBitStream = some s := if_pos (Nat.ne_of_gt hoffset)
  have hbit : s.currentByteRead.toNat >>> (s.currentByteOffsetRead - 1) &&& masks.getD 1 0 =
      (s.currentByteRead.toNat.testBit (s.currentByteOffsetRead - 1)).toNat := by
    rw [masks_eq (by decide), Nat.and_two_pow_sub_one_eq_mod, pow_one, Nat.toNat_testBit, Nat.shiftRight_eq_div_pow]
  have hitem : ¬ 1 > bitStreamItemSize := by decide
  rw [readWordBitStream]
  simp only [if_neg hitem, Option.bind_eq_bind, Option.bind_some, readByteBitStream, hflush, Nat.one_ne_zero,
    ↓reduceIte, if_neg (Nat.not_lt.mpr hoffset), hbit]
  refine ⟨_, congrArg some (congrArg (Prod.mk _) ?_)⟩
  have hle := Bool.toNat_le (s.currentByteRead.toNat.testBit (s.currentByteOffsetRead - 1))
  rw [Nat.zero_shiftLeft, Nat.add_zero]
  omega

theorem BitStream.Aligned.reaches_zero (h : Aligned file s w p) : w.Reaches 0 := by
  have hle := h.offset_le
  by_cases hfull : w.offset = 8
  · have hcurrent : w.current ≠ 0 := fun hstart => absurd (h.started hstart).1 (by omega)
    have hnone : w.bytesBack 0 = 0 := by
      rw [ReadWindow.bytesBack, hfull]
      rfl
    refine Or.inr (Or.inl ?_)
    rw [hnone]
    exact ⟨Nat.pos_of_ne_zero hcurrent, by decide⟩
  · exact Or.inl (by omega)

/-- Going back to a byte that is not reached leads to another one of the file, of which the next bit is read. -/
theorem BitStream.Aligned.astray (h : Aligned file s w p) (hinside : w.current ≤ w.loaded) {size : Nat} (hsize : size ≤ p)
    (hreaches : ¬ w.Reaches size) : ∃ s' s'' q bit, s.seekBitStream size = some s' ∧
      s'.readWordBitStream 1 = some (s'', bit.toNat) ∧ (octetBits file)[q]? = some bit ∧ q ≠ p - size := by
  have hitem : bitStreamItemSize = 8 := rfl
  have hplace := h.place
  have hle := h.offset_le
  have hcurrent : w.current ≠ 0 := fun hstart => by
    obtain ⟨hoffset, hfirst⟩ := h.started hstart
    apply hreaches
    apply Or.inl
    omega
  have hback : w.bytesBack size = (seekTarget (size - (8 - w.offset))).1 := rfl
  obtain ⟨htarget, hpositive, height⟩ := seekTarget_spec (size - (8 - w.offset))
  have hzero : size ≠ 0 := by
    rintro rfl
    exact hreaches h.reaches_zero
  rw [ReadWindow.Reaches, not_or, not_or, not_and] at hreaches
  obtain ⟨hsame, hnear, hbefore⟩ := hreaches
  -- the stream takes the byte of the file at a wrong place
  have hbyte : ∃ s' index, s.seekBitStream size = some s' ∧ file[index]? = some s'.currentByteRead ∧
      s'.currentByteOffsetRead = (seekTarget (size - (8 - w.offset))).2 ∧
      index + 1 + w.bytesBack size ≠ w.first + w.current := by
    rw [seekBitStream]
    simp only [hitem, h.offset, if_neg hzero, if_neg hsame, ← hback, h.current]
    rw [← hback] at htarget
    generalize w.bytesBack size = back at *
    generalize (seekTarget (size - (8 - w.offset))).2 = offset at *
    have hwithin := h.within
    have hloaded := h.loaded_le
    by_cases hneed : back ≥ w.current
    · have hbeyond : back > w.current := Nat.lt_of_le_of_ne hneed (Ne.symm hbefore)
      rw [if_pos hneed]
      have htell : (s.stream.tellFileStream : Int) -
          ((w.current : Int) + s.byteCounterRead + ((w.current : Int) - back + 1)) =
            ((w.first + (back - w.current - 1) : Nat) : Int) := by
        rw [FileStream.tellFileStream, h.position, h.counter]
        omega
      simp only [htell]
      generalize hmoved : w.first + (back - w.current - 1) = position
      have hseek : s.stream.seekFileStream (position : Int) = { contents := file, position } := by
        rw [FileStream.seekFileStream, if_neg (by omega), h.contents, Int.toNat_natCast]
      rw [hseek, FileStream.readFileStream]
      dsimp only
      obtain ⟨hlength, hbuffer⟩ := fillBuffer_spec file h.length position
      have hfirst : 0 < bitStreamBufferSize := by decide
      cases Nat.lt_or_ge position file.length with
      | inl hlt =>
          have hbyte := hbuffer 0 (by omega)
          rw [List.getElem?_eq_getElem (by rw [hlength]; exact hfirst)] at hbyte ⊢
          exact ⟨_, position, rfl, hbyte.symm, rfl, by omega⟩
      | inr hend =>
          -- nothing is read, and the first byte of the buffer is still there
          have hnone : (file.drop position).take bitStreamBufferSize = [] := by
            rw [List.drop_eq_nil_of_le hend, List.take_nil]
          have hstale := h.buffer 0 (by omega)
          rw [hnone, fillBuffer, List.nil_append, List.length_nil, List.drop_zero]
          rw [List.getElem?_eq_getElem (by rw [h.length]; exact hfirst)] at hstale ⊢
          exact ⟨_, w.first, rfl, hstale.symm, rfl, by omega⟩
    · rw [if_neg hneed]
      have hfar : ¬ back < 256 := hnear (Nat.lt_of_not_le hneed)
      have hrest : back % 256 < 256 := Nat.mod_lt _ (by decide)
      have hin : w.current - back % 256 - 1 < w.loaded := by omega
      have hbyte := h.buffer _ hin
      dsimp only
      rw [List.getElem?_eq_getElem (by rw [h.length]; omega)] at hbyte ⊢
      exact ⟨_, w.first + (w.current - back % 256 - 1), rfl, hbyte.symm, rfl, by omega⟩
  obtain ⟨s', index, hseek, hbyte, hoffset, hindex⟩ := hbyte
  obtain ⟨s'', hread⟩ := readWord_one (s := s') (by rw [hoffset]; exact hpositive)
  refine ⟨s', s'', 8 * index + (8 - s'.currentByteOffsetRead), _, hseek, hread, ?_, ?_⟩
  · rw [getElem?_octetBits file index (by omega), hbyte, Option.map_some]
    congr 2
    omega
  · rw [hoffset]
    rw [← hback] at htarget
    omega

/-- Of all words of the sizes, some tell a place of their bits from any other one. -/
theorem exists_words_at {sizes : List Nat} {place : Nat} (h : place < sizes.sum) :
    ∃ words, Fitting sizes words ∧ (wordBits words)[place]? = some true ∧
      ∀ other bit, other ≠ place → (wordBits words)[other]? = some bit → bit = false := by
  have hlength : ((List.replicate sizes.sum false).set place true).length = sizes.sum := by simp
  obtain ⟨words, hfits, hbits⟩ := exists_words sizes hlength
  refine ⟨words, hfits, ?_, fun other bit hother hbit => ?_⟩
  · rw [hbits, List.getElem?_set_self (by simpa using h)]
  · rw [hbits, List.getElem?_set_ne (Ne.symm hother)] at hbit
    exact List.eq_of_mem_replicate (List.mem_of_getElem? hbit)

/-- Where the bits of all words of the sizes are read back, what is gone back to is reached. -/
theorem keeps_of_emulates {sizes : List Nat} {length : Nat} (hlength : length = (sizes.sum + 7) / 8) (calls : List BitCall)
    (hinside : w.current ≤ w.loaded) (hroom : p ≤ sizes.sum) (hwithin : Within sizes.sum p calls)
    (h : ∀ words, Fitting sizes words → ∃ file s, Written words file ∧ Aligned file s w p ∧
      Emulates BitStream.call (bitAct (wordBits words)) (ReadsAt (wordBits words)) s p calls) :
    w.Keeps length calls := by
  have hfile : ∀ {words file}, Fitting sizes words → Written words file →
      file.length = length ∧ (wordBits words).length = sizes.sum := fun hwords hwritten => by
    rw [hwritten.length, length_wordBits, hwords.1]
    exact ⟨hlength.symm, rfl⟩
  induction calls generalizing w p with
  | nil => trivial
  | cons call calls ih =>
      cases call with
      | read size =>
          obtain ⟨hsize, hend, hrest⟩ := hwithin
          apply ih (w := w.readWord length size) (p := p + size) _ hend hrest
          · intro words hwords
            obtain ⟨file, s, hwritten, haligned, -, s', hcall, hemulates⟩ := h words hwords
            obtain ⟨hfile, htotal⟩ := hfile hwords hwritten
            obtain ⟨s'', hread, haligned'⟩ := hwritten.read haligned hsize (by omega)
            rw [BitStream.call, hread] at hcall
            cases hcall
            rw [hfile] at haligned'
            exact ⟨file, s', hwritten, haligned', hemulates⟩
          · obtain ⟨words, hwords, -⟩ := exists_words sizes (List.length_replicate (n := sizes.sum) (a := false))
            obtain ⟨file, s, hwritten, haligned, -⟩ := h words hwords
            obtain ⟨hfile, htotal⟩ := hfile hwords hwritten
            obtain ⟨s'', -, haligned'⟩ := hwritten.read haligned hsize (by omega)
            have hfits := hwritten.room
            rw [hfile] at haligned'
            cases Nat.eq_zero_or_pos size with
            | inl hzero =>
                have hsame : w.readWord length size = w := by
                  rw [hzero]
                  rfl
                rwa [hsame]
            | inr hpositive =>
                exact haligned'.inside (w.readWord_offset length haligned.offset_le hpositive) (by omega)
      | seek size =>
          obtain ⟨hsize, hrest⟩ := hwithin
          have hreaches : w.Reaches size := by
            by_contra hastray
            have hpositive : size ≠ 0 := by
              rintro rfl
              obtain ⟨words, hwords, -⟩ := exists_words sizes (List.length_replicate (n := sizes.sum) (a := false))
              obtain ⟨file, s, hwritten, haligned, -⟩ := h words hwords
              exact hastray haligned.reaches_zero
            have hlt : p - size < sizes.sum := by omega
            obtain ⟨words, hwords, hplace, hother⟩ := exists_words_at hlt
            obtain ⟨file, s, hwritten, haligned, -, s', hcall, hemulates⟩ := h words hwords
            obtain ⟨hfile, htotal⟩ := hfile hwords hwritten
            obtain ⟨t, t', q, bit, hseek, hread, hbit, hne⟩ := haligned.astray hinside hsize hastray
            rw [BitStream.call, hseek] at hcall
            cases hcall
            -- the bit that is read is not the one at the place, which is the only one of the words
            have hroom' : p - size + 1 ≤ (wordBits words).length := by omega
            obtain ⟨t'', hread'⟩ := hemulates.start 1 (by decide) hroom'
            rw [hread] at hread'
            have htrue : ((wordBits words).drop (p - size)).take 1 = [true] := by
              rw [List.take_one, List.head?_drop, hplace]
              rfl
            obtain ⟨padding, hbits⟩ := hwritten.bits
            have hfalse : bit = false := by
              rw [hbits, List.getElem?_append] at hbit
              split at hbit
              · exact hother q bit hne hbit
              · exact List.eq_of_mem_replicate (List.mem_of_getElem? hbit)
            have hvalue := congrArg (Option.map Prod.snd) hread'
            dsimp only [Option.map, bitAct] at hvalue
            rw [htrue, hfalse] at hvalue
            cases hvalue
          refine ⟨hreaches, ?_⟩
          apply ih (w := w.seek length size) (p := p - size) _ (Nat.le_trans (Nat.sub_le p size) hroom) hrest
          · intro words hwords
            obtain ⟨file, s, hwritten, haligned, -, s', hcall, hemulates⟩ := h words hwords
            obtain ⟨hfile, htotal⟩ := hfile hwords hwritten
            have hfits := hwritten.room
            obtain ⟨s'', hseek, haligned'⟩ := haligned.seek hsize (by omega) hreaches
            rw [BitStream.call, hseek] at hcall
            cases hcall
            rw [hfile] at haligned'
            exact ⟨file, s', hwritten, haligned', hemulates⟩
          · obtain ⟨words, hwords, -⟩ := exists_words sizes (List.length_replicate (n := sizes.sum) (a := false))
            obtain ⟨file, s, hwritten, haligned, -⟩ := h words hwords
            obtain ⟨hfile, htotal⟩ := hfile hwords hwritten
            have hfits := hwritten.room
            obtain ⟨s'', -, haligned'⟩ := haligned.seek hsize (by omega) hreaches
            rw [hfile] at haligned'
            by_cases hzero : size = 0
            · subst hzero
              rw [← hfile, haligned.seek_zero]
              exact hinside
            · exact haligned'.inside_before (by omega)

/-- Exactly which ways of reading and going back give the bits of whatever words have been written. -/
theorem bit_streams_read_back (sizes : List Nat) (hsizes : ∀ size ∈ sizes, size ≤ 16) (calls : List BitCall)
    (hcalls : Within sizes.sum 0 calls) : (∀ words, Fitting sizes words → ReadsBack words calls) ↔
      ReadWindow.start.Keeps ((sizes.sum + 7) / 8) calls := by
  have hstart : ReadWindow.start.current ≤ ReadWindow.start.loaded := Nat.le_refl 0
  constructor
  · intro h
    apply keeps_of_emulates rfl calls hstart (Nat.zero_le _) hcalls
    intro words hwords
    obtain ⟨file, hwritten, hfile⟩ := writeWords_eq hwords hsizes fun _ => 0
    obtain ⟨file', hwritten', -, hemulates⟩ := h words hwords (fun _ => 0) fun _ => 0
    cases hwritten.symm.trans hwritten'
    exact ⟨file, _, hfile, aligned_open _ file, hemulates⟩
  · intro hkeeps words hwords buffer buffer'
    obtain ⟨file, hwritten, hfile⟩ := writeWords_eq hwords hsizes buffer
    have hsized : ∀ word ∈ words, word.2 ≤ 16 ∧ word.1 < 2 ^ word.2 := fun word hmem =>
      ⟨hsizes word.2 (by rw [← hwords.1]; exact List.mem_map.mpr ⟨word, hmem, rfl⟩), hwords.2 word hmem⟩
    have hopen := aligned_open buffer' file
    have htotal : (wordBits words).length = sizes.sum := by rw [length_wordBits, hwords.1]
    refine ⟨file, hwritten, hfile.readWords [] words rfl hsized hopen, ?_⟩
    apply hfile.emulates calls hopen (Nat.zero_le _)
    · rwa [htotal]
    · rwa [hfile.length, hwords.1]

theorem bit_streams_read_back_byte : (∀ words, Fitting [8] words → ReadsBack words [.read 8, .seek 3, .read 3]) ↔
    ReadWindow.start.Keeps 1 [.read 8, .seek 3, .read 3] :=
  bit_streams_read_back [8] (by decide) [.read 8, .seek 3, .read 3] (by decide)

/-- Going back over 258 bytes at once leads to another place. -/
theorem not_bit_streams_read_back : ¬ ∀ (sizes : List Nat) (calls : List BitCall) (words : BitWords),
    (∀ size ∈ sizes, size ≤ 16) → Within sizes.sum 0 calls → Fitting sizes words → ReadsBack words calls := by
  intro h
  have hkeeps : ReadWindow.start.Keeps 258 (List.replicate 129 (.read 16) ++ [.seek 2064]) := by
    have hwithin : Within 2064 0 (List.replicate 129 (.read 16) ++ [.seek 2064]) := by decide +kernel
    have hsizes : ∀ size ∈ List.replicate 129 16, size ≤ 16 := fun size hmem => Nat.le_of_eq (List.eq_of_mem_replicate hmem)
    have hlength : 258 = ((List.replicate 129 16).sum + 7) / 8 := by simp
    apply keeps_of_emulates (p := 0) hlength _ (Nat.le_refl 0) (Nat.zero_le _)
    · simpa using hwithin
    · intro words hwords
      obtain ⟨file, hwritten, hfile⟩ := writeWords_eq hwords hsizes fun _ => 0
      obtain ⟨file', hwritten', -, hemulates⟩ := h _ (List.replicate 129 (.read 16) ++ [.seek 2064]) words hsizes
        (by simpa using hwithin) hwords (fun _ => 0) fun _ => 0
      cases hwritten.symm.trans hwritten'
      exact ⟨file, _, hfile, aligned_open _ file, hemulates⟩
  exact absurd hkeeps (by decide +kernel)

end Viriatum
