import Viriatum.Commons.Lemmas.HuffmanPrefixes
import Viriatum.Commons.Lemmas.HuffmanRuns
import Viriatum.Streams.BitRoundTrip

/-!
# What is compressed is decompressed

Which streams both decoders give back from what the encoder makes of them.
-/

namespace Viriatum

open Library BitStream

variable {root : HuffmanNode} {s data : List UInt8} {bits : List Bool} {huffman : Huffman} {file : List UInt8}

namespace Huffman

/-- What the table decoder does with its bit stream: a prefix is read for each byte, and what is not of its code is gone
back over. -/
def tableCalls (huffman : Huffman) (data : List UInt8) : List BitCall :=
  data.flatMap fun byte => [.read huffman.prefixSize, .seek (huffman.prefixSize - huffman.lengthOf byte)]

/-- The symbols of a stream, with the bits of their codes, are found by the table. -/
def Tabled (huffman : Huffman) (root : HuffmanNode) : Prop :=
  ∀ {path tail : List Bool} {symbol}, root.Word path symbol → (path ++ tail).length = huffman.prefixSize →
    huffman.prefixTable[ofBits (path ++ tail)]? = some (some { code := symbol, extra := tail.length })

/-- A prefix that is read at the place of a word begins with it. -/
theorem agrees_word {before word after : List Bool} {n value : Nat} (h : Agrees file before.length n value)
    (hfile : octetBits file = before ++ (word ++ after)) (hle : word.length ≤ n) :
    ∃ tail : List Bool, (word ++ tail).length = n ∧ value = ofBits (word ++ tail) := by
  have htake : (toBits n value).take word.length = word := by
    apply List.ext_getElem?
    intro i
    by_cases hlt : i < word.length
    · have hbit : (octetBits file)[before.length + i]? = some word[i] := by
        rw [hfile, List.getElem?_append_right (Nat.le_add_right _ _), Nat.add_sub_cancel_left,
          List.getElem?_append_left hlt, List.getElem?_eq_getElem hlt]
      rw [List.getElem?_take_of_lt hlt, getElem?_toBits value (by omega), h.2 i (by omega) _ hbit,
        List.getElem?_eq_getElem hlt]
    · rw [List.getElem?_eq_none (by simpa using Nat.le_trans (Nat.min_le_left _ _) (Nat.le_of_not_lt hlt)),
        List.getElem?_eq_none (Nat.le_of_not_lt hlt)]
  have hsplit : word ++ (toBits n value).drop word.length = toBits n value := by
    conv_rhs => rw [← List.take_append_drop word.length (toBits n value), htake]
  refine ⟨(toBits n value).drop word.length, ?_, ?_⟩
  · rw [hsplit, toBits_length]
  · rw [hsplit, ofBits_toBits, Nat.mod_eq_of_lt h.1]

/-- The bytes are those that the table decoder writes, where all it goes back to is reached. -/
theorem decodeTable_spells (h : huffman.Codes root s) (hsize : huffman.prefixSize ≤ 16) (htabled : huffman.Tabled root)
    (hroot : ∀ {word byte}, root.Word word byte → word ≠ []) (hbits : SpellsWords root data bits)
    {before padding : List Bool} (hfile : octetBits file = before ++ (bits ++ padding)) (hcount : huffman.bitCount = before.length + bits.length)
    {stream : BitStream} {w : ReadWindow} (haligned : Aligned file stream w before.length)
    (hkeeps : w.Keeps file.length (huffman.tableCalls data)) {output : HuffmanOutput} (houtput : output.AtEnd) :
    huffman.decodeTable (data.length + 1) stream before.length output = some (output.bytes ++ data) := by
  induction hbits generalizing before stream w output with
  | nil =>
      rw [decodeTable, if_pos (by simpa using hcount.symm), houtput.close, List.append_nil]
  | @cons byte data word bits hword _ ih =>
      have hpositive := List.length_pos_iff.mpr (hroot hword)
      have hle : word.length ≤ huffman.prefixSize := by
        rw [h.prefixSize]
        exact hword.length_le
      rw [List.length_append] at hcount
      have hgo : ¬ before.length = huffman.bitCount := by omega
      have htotal := congrArg List.length hfile
      rw [length_octetBits, List.length_append, List.length_append, List.length_append] at htotal
      have hbuffer : bitStreamBufferSize = 4096 := rfl
      obtain ⟨stream₁, value, hread, haligned₁, hvalue⟩ := haligned.readWord hsize (by omega)
      rw [List.append_assoc] at hfile
      obtain ⟨tail, htail, rfl⟩ := agrees_word hvalue hfile hle
      have hextra : huffman.prefixSize - huffman.lengthOf byte = tail.length := by
        rw [h.lengthOf hword, ← htail, List.length_append, Nat.add_sub_cancel_left]
      rw [tableCalls, List.flatMap_cons, hextra] at hkeeps
      obtain ⟨hreaches, hrest⟩ := hkeeps
      rw [List.length_append] at htail
      obtain ⟨stream₂, hseek, haligned₂⟩ := haligned₁.seek (n := tail.length) (by omega) (by omega) hreaches
      have hplace : before.length + huffman.prefixSize - tail.length = (before ++ word).length := by
        rw [List.length_append]
        omega
      rw [hplace] at haligned₂
      have hback : ∀ k : BitStream → Option (List UInt8),
          (if tail.length > 0 then (stream₁.seekBitStream tail.length).bind k else k stream₁) = k stream₂ := by
        intro k
        split
        case isTrue => rw [hseek, Option.bind_some]
        case isFalse hnone =>
          rw [Nat.eq_zero_of_not_pos hnone, seekBitStream] at hseek
          have hsame : stream₁ = stream₂ := by simpa using hseek
          rw [hsame]
      obtain ⟨hput, hbytes⟩ := houtput.put byte
      rw [← List.append_assoc] at hfile
      have hnext := ih hfile (by rw [List.length_append]; omega) haligned₂ hrest hput
      have hprogress : before.length + (huffman.prefixSize - tail.length) = (before ++ word).length := by
        rw [List.length_append]
        omega
      rw [List.length_cons, decodeTable, if_neg hgo]
      simp only [hread, Option.bind_eq_bind, Option.bind_some, htabled hword (by rw [List.length_append]; exact htail),
        hprogress]
      calc _ = huffman.decodeTable (data.length + 1) stream₂ (before ++ word).length (output.put byte) :=
            hback fun stream => huffman.decodeTable (data.length + 1) stream (before ++ word).length (output.put byte)
        _ = some (output.bytes ++ byte :: data) := by rw [hnext, hbytes, List.append_assoc, List.singleton_append]

/-- Whatever the table decoder writes it has found in the table. -/
theorem decodeTable_codes {fuel total : Nat} {stream : BitStream} {output : HuffmanOutput} {result : List UInt8}
    (houtput : output.AtEnd) (h : huffman.decodeTable fuel stream total output = some result) :
    ∃ rest, result = output.bytes ++ rest ∧ ∀ byte ∈ rest, ∃ (word : Nat) (entry : PrefixEntry),
      huffman.prefixTable[word]? = some (some entry) ∧ entry.code = byte := by
  induction fuel generalizing stream total output with
  | zero => cases h
  | succ fuel ih =>
      rw [decodeTable] at h
      split at h
      case isTrue =>
        cases h
        exact ⟨[], by rw [houtput.close, List.append_nil], fun _ hmem => absurd hmem List.not_mem_nil⟩
      case isFalse =>
        simp only [Option.bind_eq_bind, Option.bind_eq_some_iff] at h
        obtain ⟨⟨stream₁, word⟩, -, found, hfound, entry, rfl, h⟩ := h
        obtain ⟨hput, hbytes⟩ := houtput.put entry.code
        have hrest : ∃ stream₂ total', huffman.decodeTable fuel stream₂ total' (output.put entry.code) = some result := by
          split at h
          case isTrue =>
            obtain ⟨stream₂, -, h⟩ := Option.bind_eq_some_iff.mp h
            exact ⟨stream₂, _, h⟩
          case isFalse => exact ⟨stream₁, _, h⟩
        obtain ⟨stream₂, total', hrun⟩ := hrest
        obtain ⟨rest, hresult, hcodes⟩ := ih hput hrun
        refine ⟨entry.code :: rest, by rw [hresult, hbytes, List.append_assoc, List.singleton_append], ?_⟩
        intro byte hmem
        cases hmem with
        | head => exact ⟨word, entry, hfound, rfl⟩
        | tail _ hmem => exact hcodes byte hmem

/-- The encoder leaves the count of the bits of the codes. -/
theorem encode_count {coded : Huffman} {stream : BitStream}
    (h : huffman.encodeHuffman { contents := data, position := 0 } stream = some (coded, file)) :
    coded = { huffman with bitCount := huffman.codedSize data } := by
  rw [encodeHuffman, foldlM_buffers, Option.bind_eq_bind, Option.bind_eq_some_iff] at h
  obtain ⟨state, hrun, h⟩ := h
  have hcount := foldlM_encodeByte hrun
  rw [Option.bind_eq_bind, Option.bind_eq_some_iff] at h
  obtain ⟨written, -, h⟩ := h
  cases h
  rw [hcount, Nat.zero_add]
  rfl

theorem Codes.withTable (h : huffman.Codes root s) (prefixTable : List (Option PrefixEntry)) :
    { huffman with prefixTable }.Codes root s :=
  { h with }

theorem generatePrefix_eq_some {tabled : Huffman} (h : huffman.generatePrefixHuffman = some tabled) :
    ∃ prefixTable, tabled = { huffman with prefixTable } := by
  rw [generatePrefixHuffman] at h
  split at h
  · cases h
  · rw [Option.bind_eq_bind, Option.bind_eq_some_iff] at h
    obtain ⟨table, -, h⟩ := h
    cases h
    exact ⟨table, rfl⟩

/-- With two different bytes the root is no leaf. -/
theorem Codes.word_ne (h : huffman.Codes root s) (htwo : ∃ a ∈ s, ∃ b ∈ s, a ≠ b) {word : List Bool} {byte : UInt8}
    (hword : root.Word word byte) : word ≠ [] := by
  rintro rfl
  cases hword
  obtain ⟨a, ha, b, hb, hne⟩ := htwo
  have hsame : ∀ other ∈ s, other = byte := fun other hother => List.mem_singleton.mp ((h.mem other).mpr hother)
  exact hne ((hsame a ha).trans (hsame b hb).symm)

/-- With a single one it is, and no bit is written. -/
theorem Codes.codedSize_zero (h : huffman.Codes root s) (hone : ¬ ∃ a ∈ s, ∃ b ∈ s, a ≠ b) : huffman.codedSize s = 0 := by
  cases root with
  | leaf note symbol =>
      have hlength : ∀ byte ∈ s, huffman.lengthOf byte = 0 := by
        intro byte hmem
        obtain ⟨word, hword⟩ := CodeTree.exists_word ((h.mem byte).mpr hmem)
        rw [h.lengthOf hword]
        cases hword
        rfl
      rw [Huffman.codedSize, List.map_congr_left hlength]
      simp
  | node note left right =>
      obtain ⟨wordl, -, a, -, hl⟩ := CodeTree.exists_word_of_depth
        (Nat.le_of_eq (List.length_replicate (a := false)).symm : left.depth ≤ _)
      obtain ⟨wordr, -, b, -, hr⟩ := CodeTree.exists_word_of_depth
        (Nat.le_of_eq (List.length_replicate (a := false)).symm : right.depth ≤ _)
      have hnodup := h.nodup
      rw [CodeTree.symbols, List.nodup_append] at hnodup
      have hal : a ∈ s := (h.mem a).mp (List.mem_append_left _ hl.mem)
      have hbr : b ∈ s := (h.mem b).mp (List.mem_append_right _ hr.mem)
      exact absurd ⟨a, hal, b, hbr, hnodup.2.2 a hl.mem b hr.mem⟩ hone

end Huffman

/-! ## The streams -/

/-- What the encoder makes of a stream is taken back by both of the decoders. -/
def HuffmanReadsBack (s : List UInt8) : Prop :=
  ∀ buffer buffer', ∃ huffman tabled coded file,
    createHuffman.generateTableHuffman { contents := s, position := 0 } = some huffman ∧
    huffman.generatePrefixHuffman = some tabled ∧
    tabled.encodeHuffman { contents := s, position := 0 } (createBitStream buffer { contents := [], position := 0 }) =
      some (coded, file) ∧
    coded.decodeTreeHuffman { contents := file, position := 0 } = some s ∧
    ∃ fuel, coded.decodeTableHuffman fuel (openBitStream buffer' file) = some s

/-- A stream of two different bytes at least. -/
def Mixed (s : List UInt8) : Prop := ∃ a ∈ s, ∃ b ∈ s, a ≠ b

/-- The codes of a stream have sixteen bits at most, and all that the table decoder goes back to is reached. -/
def HuffmanFits (s : List UInt8) : Prop :=
  ∃ huffman, createHuffman.generateTableHuffman { contents := s, position := 0 } = some huffman ∧
    huffman.prefixSize ≤ 16 ∧
    ReadWindow.start.Keeps ((huffman.codedSize s + 7) / 8) (huffman.tableCalls s)

theorem huffman_readsBack (hmixed : Mixed s) (hfits : HuffmanFits s) : HuffmanReadsBack s := by
  intro buffer buffer'
  obtain ⟨huffman, htable, hsize, hkeeps⟩ := hfits
  have hne : s ≠ [] := by
    rintro rfl
    obtain ⟨a, ha, -⟩ := hmixed
    cases ha
  obtain ⟨huffman', root, htable', hcodes⟩ := Huffman.generateTable_codes hne
  rw [htable] at htable'
  cases htable'
  obtain ⟨bits, hbits⟩ := exists_spells fun byte hbyte => (hcodes.mem byte).mpr hbyte
  obtain ⟨table, hprefix, hfinds⟩ := Huffman.generatePrefix_finds hcodes hsize
  have hcodes' := hcodes.withTable table
  obtain ⟨file, padding, hencode, hfile, hpadding⟩ := Huffman.encode_spells hcodes' hsize hbits buffer
  have hcodes'' := hcodes'.withCount bits.length
  have hroot : ∀ {word byte}, root.Word word byte → word ≠ [] := fun hword => hcodes.word_ne hmixed hword
  have hlength : file.length = (huffman.codedSize s + 7) / 8 := by
    have htotal := congrArg List.length hfile
    rw [length_octetBits, List.length_append, List.length_replicate] at htotal
    rw [hcodes.codedSize hbits]
    omega
  refine ⟨huffman, _, _, file, htable, hprefix, hencode, Huffman.decodeTree_spells hcodes'' hroot hbits rfl hfile,
    s.length + 1, ?_⟩
  have hfile' : octetBits file = [] ++ (bits ++ List.replicate padding false) := hfile
  exact Huffman.decodeTable_spells hcodes'' hsize hfinds hroot hbits hfile' (Nat.zero_add _).symm
    (aligned_open buffer' file) (hlength ▸ hkeeps) HuffmanOutput.atEnd_start

theorem mixed_of_readsBack (h : HuffmanReadsBack s) : Mixed s := by
  by_contra hone
  obtain ⟨huffman, tabled, coded, file, htable, hprefix, hencode, htree, -⟩ := h (fun _ => 0) fun _ => 0
  have hne : s ≠ [] := by
    rintro rfl
    rw [Huffman.generateTable_none] at htable
    cases htable
  obtain ⟨huffman', root, htable', hcodes⟩ := Huffman.generateTable_codes hne
  rw [htable] at htable'
  cases htable'
  obtain ⟨table, rfl⟩ := Huffman.generatePrefix_eq_some hprefix
  have hcodes' := hcodes.withTable table
  rw [Huffman.encode_count hencode] at htree
  have hempty := Huffman.decodeTree_empty (hcodes'.withCount _) (hcodes'.codedSize_zero hone) file
  exact hne (Option.some.inj (htree.symm.trans hempty))

theorem prefixSize_of_readsBack (h : HuffmanReadsBack s) : ∃ huffman,
    createHuffman.generateTableHuffman { contents := s, position := 0 } = some huffman ∧ huffman.prefixSize ≤ 16 := by
  obtain ⟨a, ha, -⟩ := mixed_of_readsBack h
  obtain ⟨huffman, root, htable, hcodes⟩ := Huffman.generateTable_codes (List.ne_nil_of_mem ha)
  refine ⟨huffman, htable, ?_⟩
  by_contra hlong
  obtain ⟨huffman', tabled, coded, file, htable', hprefix, hencode, -, fuel, hdecode⟩ := h (fun _ => 0) fun _ => 0
  rw [htable] at htable'
  cases htable'
  obtain ⟨symbol, hmem, hmisses⟩ := Huffman.generatePrefix_misses hcodes (Nat.lt_of_not_le hlong) hprefix
  rw [Huffman.encode_count hencode] at hdecode
  obtain ⟨rest, hrest, hcodes'⟩ := Huffman.decodeTable_codes HuffmanOutput.atEnd_start hdecode
  rw [HuffmanOutput.bytes_start, List.nil_append] at hrest
  obtain ⟨word, entry, hentry, hsymbol⟩ := hcodes' symbol (hrest ▸ hmem)
  exact hmisses word entry hentry hsymbol

/-! ## Short codes -/

/-- A bit is left only of a byte that has been taken. -/
def ReadWindow.Begun (w : ReadWindow) : Prop := w.offset ≤ 8 ∧ (w.current = 0 → w.offset = 0)

namespace ReadWindow

variable {w : ReadWindow} {length size : Nat}

theorem Begun.flush (h : w.Begun) (length : Nat) : (w.flush length).Begun ∧ 0 < (w.flush length).current := by
  rw [ReadWindow.flush]
  split
  case isTrue hleft => exact ⟨h, Nat.pos_of_ne_zero fun hzero => hleft (h.2 hzero)⟩
  case isFalse =>
    split
    · exact ⟨⟨Nat.le_refl 8, fun hzero => absurd hzero Nat.one_ne_zero⟩, Nat.one_pos⟩
    · exact ⟨⟨Nat.le_refl 8, fun hzero => absurd hzero (Nat.succ_ne_zero _)⟩, Nat.succ_pos _⟩

theorem Begun.readByte (h : w.Begun) (length : Nat) (hsize : 0 < size) :
    (w.readByte length size).Begun ∧ 0 < (w.readByte length size).current := by
  obtain ⟨hflush, hcurrent⟩ := h.flush length
  rw [ReadWindow.readByte, if_neg (Nat.ne_of_gt hsize)]
  split
  case isTrue =>
    refine ⟨⟨Nat.le_trans (Nat.sub_le _ _) hflush.1, fun hzero => ?_⟩, hcurrent⟩
    exact absurd hzero (Nat.ne_of_gt hcurrent)
  case isFalse =>
    have hempty : ReadWindow.Begun { w.flush length with offset := 0 } := ⟨Nat.zero_le 8, fun _ => rfl⟩
    obtain ⟨hnext, hcurrent'⟩ := hempty.flush length
    refine ⟨⟨Nat.le_trans (Nat.sub_le _ _) hnext.1, fun hzero => ?_⟩, hcurrent'⟩
    exact absurd hzero (Nat.ne_of_gt hcurrent')

theorem Begun.readWord (h : w.Begun) (length : Nat) (hsize : 0 < size) :
    (w.readWord length size).Begun ∧ 0 < (w.readWord length size).current := by
  rw [ReadWindow.readWord]
  split
  case isTrue hbig => exact (h.readByte length (Nat.sub_pos_of_lt hbig)).1.readByte length (by decide)
  case isFalse => exact h.readByte length hsize

theorem Begun.seek (h : w.Begun) (hcurrent : 0 < w.current) : (w.seek length size).Begun := by
  have hle := h.1
  obtain ⟨-, -, height⟩ := seekTarget_spec (size - (8 - w.offset))
  rw [ReadWindow.seek]
  split
  case isTrue hsame =>
    refine ⟨?_, fun hzero => absurd hzero (Nat.ne_of_gt hcurrent)⟩
    dsimp only
    omega
  case isFalse =>
    split
    case isTrue => exact ⟨height, fun hzero => absurd hzero Nat.one_ne_zero⟩
    case isFalse hlt =>
      refine ⟨height, fun hzero => ?_⟩
      dsimp only at hzero
      omega

/-- No more than nine bits back from a byte that has been begun there is at most one byte to go back over. -/
theorem reaches_of_short (hoffset : w.offset < 8) (hcurrent : 0 < w.current) (hsize : size ≤ 9) : w.Reaches size := by
  obtain ⟨htarget, hpositive, -⟩ := seekTarget_spec (size - (8 - w.offset))
  have hback : w.bytesBack size = (seekTarget (size - (8 - w.offset))).1 := rfl
  rw [Reaches, hback]
  omega

end ReadWindow

theorem Huffman.keeps_of_short (h : huffman.Codes root s) (hmixed : Mixed s) (hsize : huffman.prefixSize ≤ 10)
    (data : List UInt8) (hdata : ∀ byte ∈ data, byte ∈ s) (length : Nat) {w : ReadWindow} (hw : w.Begun) :
    w.Keeps length (huffman.tableCalls data) := by
  induction data generalizing w with
  | nil => trivial
  | cons byte data ih =>
      obtain ⟨word, hword⟩ := CodeTree.exists_word ((h.mem byte).mpr (hdata byte List.mem_cons_self))
      have hpositive := List.length_pos_iff.mpr (h.word_ne hmixed hword)
      have hle : word.length ≤ huffman.prefixSize := by
        rw [h.prefixSize]
        exact hword.length_le
      have hprefix : 0 < huffman.prefixSize := by omega
      obtain ⟨hread, hcurrent⟩ := hw.readWord length hprefix
      have hoffset := w.readWord_offset length hw.1 hprefix
      have hshort : huffman.prefixSize - huffman.lengthOf byte ≤ 9 := by
        rw [h.lengthOf hword]
        omega
      rw [Huffman.tableCalls, List.flatMap_cons]
      exact ⟨ReadWindow.reaches_of_short hoffset hcurrent hshort,
        ih (fun other hother => hdata other (List.mem_cons_of_mem byte hother)) (hread.seek hcurrent)⟩

theorem fits_of_short (hmixed : Mixed s) {huffman : Huffman}
    (h : createHuffman.generateTableHuffman { contents := s, position := 0 } = some huffman)
    (hsize : huffman.prefixSize ≤ 10) : HuffmanFits s := by
  have hsome := hmixed
  obtain ⟨a, ha, -⟩ := hsome
  obtain ⟨huffman', root, htable, hcodes⟩ := Huffman.generateTable_codes (List.ne_nil_of_mem ha)
  rw [h] at htable
  cases htable
  refine ⟨huffman, h, Nat.le_trans hsize (by decide), ?_⟩
  exact Huffman.keeps_of_short hcodes hmixed hsize s (fun _ hmem => hmem) _ ⟨Nat.zero_le 8, fun _ => rfl⟩

/-! ## Which streams are read back -/

/-- Streams of two bytes at least are read back where the codes fit. What is read back has such codes, up to what the
table decoder goes back to, and exactly the streams of two bytes at least are among those whose codes have ten bits at
most. -/
theorem huffman_streams_read_back (s : List UInt8) : (Mixed s ∧ HuffmanFits s → HuffmanReadsBack s) ∧
    (HuffmanReadsBack s → Mixed s ∧ ∃ huffman,
      createHuffman.generateTableHuffman { contents := s, position := 0 } = some huffman ∧ huffman.prefixSize ≤ 16) ∧
    ∀ huffman, createHuffman.generateTableHuffman { contents := s, position := 0 } = some huffman →
      huffman.prefixSize ≤ 10 → (HuffmanReadsBack s ↔ Mixed s) := by
  refine ⟨fun h => huffman_readsBack h.1 h.2, fun h => ⟨mixed_of_readsBack h, prefixSize_of_readsBack h⟩, ?_⟩
  intro huffman htable hsize
  exact ⟨mixed_of_readsBack, fun hmixed => huffman_readsBack hmixed (fits_of_short hmixed htable hsize)⟩

/-- A stream of a single byte has a code without any bit, and nothing is given back. -/
theorem not_huffman_streams_read_back : ¬ ∀ s : List UInt8, s ≠ [] → HuffmanReadsBack s := by
  intro h
  obtain ⟨a, ha, b, hb, hne⟩ := mixed_of_readsBack (h [97] (List.cons_ne_nil _ _))
  exact hne ((List.mem_singleton.mp ha).trans (List.mem_singleton.mp hb).symm)

end Viriatum
