import Viriatum.Commons.Lemmas.HuffmanTree
import Viriatum.Streams.Lemmas.BitWriting

/-!
# The encoder and the walk down the tree

The bits that the encoder writes are the words of the bytes, and the walk takes them apart.
-/

namespace Viriatum

open Library BitStream

/-! ## The output -/

namespace HuffmanOutput

variable {output : HuffmanOutput}

/-- What has been put out, written or not. -/
def bytes (output : HuffmanOutput) : List UInt8 := output.stream.contents ++ output.outBuffer

def AtEnd (output : HuffmanOutput) : Prop := output.stream.position = output.stream.contents.length

theorem atEnd_start : start.AtEnd := rfl

theorem bytes_start : start.bytes = [] := rfl

theorem AtEnd.put (h : output.AtEnd) (code : UInt8) :
    (output.put code).AtEnd ∧ (output.put code).bytes = output.bytes ++ [code] := by
  rw [HuffmanOutput.put]
  split
  · rw [writeFileStream_end h]
    refine ⟨?_, ?_⟩
    · have hposition : output.stream.position = output.stream.contents.length := h
      simp only [AtEnd, List.length_append, hposition]
    · simp [bytes]
  · exact ⟨h, by simp [bytes]⟩

theorem AtEnd.close (h : output.AtEnd) : output.close = output.bytes := by
  rw [HuffmanOutput.close, bytes]
  split
  · rw [writeFileStream_end h]
  · next hempty =>
    have hnil : output.outBuffer = [] := List.length_eq_zero_iff.mp (by omega)
    rw [hnil, List.append_nil]

end HuffmanOutput

/-! ## The words of a sequence -/

/-- The bits are the words of the bytes, one after the other. -/
inductive SpellsWords (root : HuffmanNode) : List UInt8 → List Bool → Prop
  | nil : SpellsWords root [] []
  | cons {byte data word bits} : root.Word word byte → SpellsWords root data bits →
      SpellsWords root (byte :: data) (word ++ bits)

variable {root : HuffmanNode} {s data : List UInt8} {bits : List Bool} {huffman : Huffman}

theorem exists_spells (h : ∀ byte ∈ data, byte ∈ root.symbols) : ∃ bits, SpellsWords root data bits := by
  induction data with
  | nil => exact ⟨[], .nil⟩
  | cons byte data ih =>
      obtain ⟨word, hword⟩ := CodeTree.exists_word (h byte List.mem_cons_self)
      obtain ⟨bits, hbits⟩ := ih fun other hother => h other (List.mem_cons_of_mem _ hother)
      exact ⟨word ++ bits, .cons hword hbits⟩

namespace Huffman

/-- The bits of the code of a byte. -/
def lengthOf (huffman : Huffman) (byte : UInt8) : Nat := ((huffman.nodes byte).map (·.bitCount)).getD 0

def codedSize (huffman : Huffman) (data : List UInt8) : Nat := (data.map huffman.lengthOf).sum

theorem Codes.lengthOf (h : huffman.Codes root s) {word : List Bool} {byte : UInt8} (hword : root.Word word byte) :
    huffman.lengthOf byte = word.length := by
  rw [Huffman.lengthOf, h.node hword]
  rfl

theorem Codes.codedSize (h : huffman.Codes root s) (hbits : SpellsWords root data bits) :
    huffman.codedSize data = bits.length := by
  induction hbits with
  | nil => rfl
  | cons hword _ ih =>
      rw [Huffman.codedSize] at ih ⊢
      rw [List.map_cons, List.sum_cons, ih, h.lengthOf hword, List.length_append]

/-! ## The encoder -/

/-- The count of the bits does not matter to the codes. -/
theorem Codes.withCount (h : huffman.Codes root s) (bitCount : Nat) : { huffman with bitCount }.Codes root s :=
  { h with }

/-- The encoder of some bytes only counts. -/
theorem foldlM_encodeByte {stream : BitStream} {result : Huffman × BitStream}
    (h : data.foldlM encodeByte (huffman, stream) = some result) :
    result.1 = { huffman with bitCount := huffman.bitCount + huffman.codedSize data } := by
  induction data generalizing huffman stream with
  | nil =>
      cases h
      rfl
  | cons byte data ih =>
      rw [List.foldlM_cons, Option.bind_eq_bind, Option.bind_eq_some_iff] at h
      obtain ⟨state, hbyte, hrest⟩ := h
      rw [encodeByte, Option.bind_eq_bind, Option.bind_eq_some_iff] at hbyte
      obtain ⟨node, hnode, hbyte⟩ := hbyte
      rw [Option.bind_eq_bind, Option.bind_eq_some_iff] at hbyte
      obtain ⟨stream', hwrite, hbyte⟩ := hbyte
      cases hbyte
      rw [ih hrest]
      have hlength : huffman.lengthOf byte = node.bitCount := by
        rw [Huffman.lengthOf, hnode]
        rfl
      have hsame : ({ huffman with bitCount := huffman.bitCount + node.bitCount } : Huffman).codedSize data =
          huffman.codedSize data := rfl
      rw [hsame]
      simp only [Huffman.codedSize, List.map_cons, List.sum_cons, hlength, Nat.add_assoc]

/-- Words of sixteen bits at most are written as they are. -/
theorem foldlM_encodeByte_spells (h : huffman.Codes root s) (hsize : huffman.prefixSize ≤ 16)
    (hbits : SpellsWords root data bits) {stream : BitStream} (hwriting : stream.Writing) (hoffset : stream.currentByteOffsetWrite < bitStreamItemSize) :
    ∃ stream', data.foldlM encodeByte (huffman, stream) =
        some ({ huffman with bitCount := huffman.bitCount + bits.length }, stream') ∧ stream'.Writing ∧
      stream'.currentByteOffsetWrite < bitStreamItemSize ∧ stream'.writtenBits = stream.writtenBits ++ bits := by
  induction hbits generalizing huffman stream with
  | nil => exact ⟨stream, rfl, hwriting, hoffset, (List.append_nil _).symm⟩
  | @cons byte data word bits hword _ ih =>
      have hle : word.length ≤ 16 := by
        have hdepth := hword.length_le
        rw [← h.prefixSize] at hdepth
        exact Nat.le_trans hdepth hsize
      have hcode : pathCode word = ofBits word :=
        Nat.mod_eq_of_lt (Nat.lt_of_lt_of_le (ofBits_lt word) (Nat.pow_le_pow_right (by decide) hle))
      obtain ⟨stream₁, hwrite, hwriting₁, hoffset₁, hbits₁⟩ := hwriting.writeWord hoffset hle (ofBits_lt word)
      rw [toBits_ofBits] at hbits₁
      obtain ⟨stream₂, hrest, hwriting₂, hoffset₂, hbits₂⟩ := ih (h.withCount (huffman.bitCount + word.length)) hsize
        hwriting₁ hoffset₁
      refine ⟨stream₂, ?_, hwriting₂, hoffset₂, ?_⟩
      · rw [List.foldlM_cons, encodeByte, h.node hword]
        simp only [Option.bind_eq_bind, Option.bind_some, hcode, hwrite, hrest, List.length_append, Nat.add_assoc]
      · rw [hbits₂, hbits₁, List.append_assoc]

theorem foldlM_buffers {σ : Type} (f : σ → UInt8 → Option σ) (state : σ) (s : List UInt8) :
    (FileStream.buffers { contents := s, position := 0 }).foldlM (fun state buffer => buffer.foldlM f state) state =
      s.foldlM f state := by
  have hflatten : ∀ (buffers : List (List UInt8)) (state : σ),
      buffers.foldlM (fun state buffer => buffer.foldlM f state) state = buffers.flatten.foldlM f state := by
    intro buffers
    induction buffers with
    | nil => exact fun _ => rfl
    | cons buffer buffers ih =>
        intro state
        rw [List.foldlM_cons, List.flatten_cons, List.foldlM_append]
        exact congrArg _ (funext ih)
  rw [hflatten, flatten_buffers_start]

/-- The file that the encoder leaves has the words of the bytes, filled up to a whole byte. -/
theorem encode_spells (h : huffman.Codes root s) (hsize : huffman.prefixSize ≤ 16) (hbits : SpellsWords root data bits)
    (buffer : Fin bitStreamBufferSize → UInt8) : ∃ file padding,
      huffman.encodeHuffman { contents := data, position := 0 } (createBitStream buffer { contents := [], position := 0 }) =
        some ({ huffman with bitCount := bits.length }, file) ∧
      octetBits file = bits ++ List.replicate padding false ∧ padding < 8 := by
  obtain ⟨stream, hrun, hwriting, hoffset, hwritten⟩ := foldlM_encodeByte_spells (h.withCount 0) hsize hbits
    (writing_create buffer) (Nat.succ_pos 7)
  obtain ⟨file, padding, hclose, hfile, hpadding⟩ := hwriting.close hoffset
  refine ⟨file, padding, ?_, ?_, hpadding⟩
  · rw [encodeHuffman, foldlM_buffers, hrun]
    simp only [Option.bind_eq_bind, Option.bind_some, hclose, Nat.zero_add]
  · rw [hfile, hwritten]
    simp [writtenBits, createBitStream, octetBits]

/-! ## The walk -/

/-- A bit is taken as long as the bits of the stream are not at their end. -/
def takeBit (huffman : Huffman) (root : HuffmanNode) (state : TreeDecoder) (bit : Bool) : Option TreeDecoder :=
  if state.totalCount = huffman.bitCount then some state else percolate root state bit

theorem percolateByte_eq (root : HuffmanNode) (code : UInt8) (left : Nat) (state : TreeDecoder) :
    huffman.percolateByte root code left state = (toBits left code.toNat).foldlM (huffman.takeBit root) state := by
  induction left generalizing state with
  | zero => rfl
  | succ left ih =>
      rw [percolateByte, toBits, List.foldlM_cons, takeBit]
      split
      case isTrue hend =>
        have hrest : ∀ bits : List Bool, bits.foldlM (huffman.takeBit root) state = some state := by
          intro bits
          induction bits with
          | nil => rfl
          | cons bit bits ihbits =>
              rw [List.foldlM_cons, takeBit, if_pos hend]
              exact ihbits
        exact (hrest _).symm
      case isFalse => exact congrArg _ (funext ih)

theorem foldlM_percolateByte (root : HuffmanNode) (file : List UInt8) (state : TreeDecoder) :
    file.foldlM (fun state code => huffman.percolateByte root code huffmanByteSize state) state =
      (octetBits file).foldlM (huffman.takeBit root) state := by
  induction file generalizing state with
  | nil => rfl
  | cons code file ih =>
      rw [List.foldlM_cons, percolateByte_eq, octetBits, List.flatMap_cons, List.foldlM_append]
      exact congrArg _ (funext ih)

theorem takeBit_end {state : TreeDecoder} (h : state.totalCount = huffman.bitCount) (bits : List Bool) :
    bits.foldlM (huffman.takeBit root) state = some state := by
  induction bits with
  | nil => rfl
  | cons bit bits ih =>
      rw [List.foldlM_cons, takeBit, if_pos h]
      exact ih

theorem percolate_leaf {left right : HuffmanNode} {value note total : Nat} {bit : Bool} {symbol : UInt8}
    {output : HuffmanOutput} (h : (if bit then right else left) = .leaf note symbol) :
    percolate root { node := .node value left right, totalCount := total, output } bit =
      some { node := root, totalCount := total + 1, output := output.put symbol } := by
  rw [percolate]
  dsimp only
  rw [h]

theorem percolate_node {left right left' right' : HuffmanNode} {value note total : Nat} {bit : Bool} {output : HuffmanOutput}
    (h : (if bit then right else left) = .node note left' right') :
    percolate root { node := .node value left right, totalCount := total, output } bit =
      some { node := .node note left' right', totalCount := total + 1, output } := by
  rw [percolate]
  dsimp only
  rw [h]

/-- One bit of a word is taken, and the rest of it below. -/
theorem takeBit_cons {left right below : HuffmanNode} {value total : Nat} {bit : Bool} {word : List Bool} {byte : UInt8}
    {output : HuffmanOutput} (hselect : (if bit then right else left) = below) (hword : below.Word word byte)
    (hroom : total + (word.length + 1) ≤ huffman.bitCount)
    (hbelow : word ≠ [] → word.foldlM (huffman.takeBit root) { node := below, totalCount := total + 1, output } =
      some { node := root, totalCount := total + 1 + word.length, output := output.put byte }) :
    (bit :: word).foldlM (huffman.takeBit root) { node := .node value left right, totalCount := total, output } =
      some { node := root, totalCount := total + (word.length + 1), output := output.put byte } := by
  have hgo : ¬ total = huffman.bitCount := by omega
  have hcount : ∀ n, total + 1 + n = total + (n + 1) := fun n => by omega
  rw [List.foldlM_cons, takeBit, if_neg hgo]
  cases hword with
  | leaf note symbol =>
      rw [percolate_leaf hselect]
      rfl
  | left note hword =>
      rw [percolate_node hselect, Option.bind_eq_bind, Option.bind_some, hbelow (List.cons_ne_nil _ _), hcount]
  | right note hword =>
      rw [percolate_node hselect, Option.bind_eq_bind, Option.bind_some, hbelow (List.cons_ne_nil _ _), hcount]

/-- A word leads down to its leaf, and the walk begins again. -/
theorem takeBit_word {node : HuffmanNode} {word : List Bool} {byte : UInt8} (hword : node.Word word byte) (hne : word ≠ [])
    {total : Nat} (hroom : total + word.length ≤ huffman.bitCount) (output : HuffmanOutput) :
    word.foldlM (huffman.takeBit root) { node, totalCount := total, output } =
      some { node := root, totalCount := total + word.length, output := output.put byte } := by
  induction hword generalizing total with
  | leaf => exact absurd rfl hne
  | left note hword ih =>
      rw [List.length_cons] at hroom ⊢
      exact takeBit_cons rfl hword hroom fun hne => ih hne (by omega)
  | right note hword ih =>
      rw [List.length_cons] at hroom ⊢
      exact takeBit_cons rfl hword hroom fun hne => ih hne (by omega)

/-- The words of some bytes are taken apart. -/
theorem takeBit_spells (hroot : ∀ {word byte}, root.Word word byte → word ≠ []) (hbits : SpellsWords root data bits)
    {total : Nat} (hroom : total + bits.length ≤ huffman.bitCount) {output : HuffmanOutput} (houtput : output.AtEnd) :
    ∃ output', bits.foldlM (huffman.takeBit root) { node := root, totalCount := total, output } =
        some { node := root, totalCount := total + bits.length, output := output' } ∧ output'.AtEnd ∧
      output'.bytes = output.bytes ++ data := by
  induction hbits generalizing total output with
  | nil => exact ⟨output, rfl, houtput, (List.append_nil _).symm⟩
  | @cons byte data word bits hword _ ih =>
      rw [List.length_append] at hroom ⊢
      obtain ⟨hput, hbytes⟩ := houtput.put byte
      have hrest : total + word.length + bits.length ≤ huffman.bitCount := by omega
      obtain ⟨output', hrun, hend, hdata⟩ := ih hrest hput
      refine ⟨output', ?_, hend, ?_⟩
      · rw [List.foldlM_append, takeBit_word hword (hroot hword) (by omega), Option.bind_eq_bind, Option.bind_some, hrun,
          Nat.add_assoc]
      · rw [hdata, hbytes, List.append_assoc, List.singleton_append]

/-- The bytes are those that the tree decoder writes. -/
theorem decodeTree_spells (h : huffman.Codes root s) (hroot : ∀ {word byte}, root.Word word byte → word ≠ [])
    (hbits : SpellsWords root data bits) (hcount : huffman.bitCount = bits.length) {file : List UInt8} {padding : List Bool}
    (hfile : octetBits file = bits ++ padding) :
    huffman.decodeTreeHuffman { contents := file, position := 0 } = some data := by
  have hroom : 0 + bits.length ≤ huffman.bitCount := by omega
  obtain ⟨output, hrun, hend, hdata⟩ := takeBit_spells hroot hbits hroom HuffmanOutput.atEnd_start
  rw [decodeTreeHuffman, h.root]
  simp only [Option.bind_eq_bind, Option.bind_some]
  rw [foldlM_buffers, foldlM_percolateByte, hfile, List.foldlM_append, hrun, Option.bind_eq_bind, Option.bind_some,
    takeBit_end (by dsimp only; omega), Option.bind_some, hend.close, hdata, HuffmanOutput.bytes_start, List.nil_append]

/-- Without any bit the tree decoder writes nothing. -/
theorem decodeTree_empty (h : huffman.Codes root s) (hcount : huffman.bitCount = 0) (file : List UInt8) :
    huffman.decodeTreeHuffman { contents := file, position := 0 } = some [] := by
  rw [decodeTreeHuffman, h.root]
  simp only [Option.bind_eq_bind, Option.bind_some]
  rw [foldlM_buffers, foldlM_percolateByte, takeBit_end hcount.symm, Option.bind_some, HuffmanOutput.atEnd_start.close,
    HuffmanOutput.bytes_start]

end Huffman

end Viriatum
