import Mathlib.Logic.Function.Basic
import Viriatum.Library.CodeTree
import Viriatum.Streams.BitStream

/-!
# Huffman compression of files

The tree of the bytes of a stream by how often they occur, the codes it gives them, the tables of prefixes, the encoder
and the two decoders.
-/

namespace Viriatum

open Library

def huffmanByteSize : Nat := 8

def huffmanBufferSize : Nat := 4096

def huffmanSymbolSize : Nat := 256

/-- The value of a node is how often its symbols occur. -/
abbrev HuffmanNode := CodeTree Nat UInt8

def HuffmanNode.value : HuffmanNode → Nat
  | .leaf value _ => value
  | .node value _ _ => value

/-- What the node of a symbol carries once the tree is allocated. -/
structure HuffmanCode where
  code : Nat
  bitCount : Nat
deriving DecidableEq, Repr

structure PrefixEntry where
  code : UInt8
  extra : Nat
deriving DecidableEq, Repr

/-- An entry of the tables that has not been filled is what `MALLOC` left there. -/
structure Huffman where
  bitCount : Nat
  prefixSize : Nat
  root : Option HuffmanNode
  nodes : UInt8 → Option HuffmanCode
  freqs : UInt8 → Nat
  prefixTable : List (Option PrefixEntry)

def createHuffman : Huffman where
  bitCount := 0
  prefixSize := 0
  root := none
  nodes _ := none
  freqs _ := 0
  prefixTable := []

def huffmanSymbols : List UInt8 := (List.range huffmanSymbolSize).map UInt8.ofNat

/-- What is read of a stream until nothing is left, a buffer at a time. -/
def FileStream.buffers (s : FileStream) : List (List UInt8) :=
  if (s.readFileStream huffmanBufferSize).2 = [] then []
  else (s.readFileStream huffmanBufferSize).2 :: (s.readFileStream huffmanBufferSize).1.buffers
termination_by s.contents.length - s.position
decreasing_by
  rename_i hdata
  have hlength := List.length_pos_iff.mpr hdata
  simp only [FileStream.readFileStream, List.length_take, List.length_drop] at hlength ⊢
  omega

/-! ## The queue -/

/-- The difference is taken of two numbers of 64 bits and handed back as one of 32. -/
def compareHuffman (first second : HuffmanNode) : Int := ((first.value : Int) - second.value).bmod (2 ^ 32)

def pushPriorityQueue (value : HuffmanNode) : List HuffmanNode → List HuffmanNode
  | [] => [value]
  | entry :: queue =>
      if compareHuffman value entry < 0 then value :: entry :: queue else entry :: pushPriorityQueue value queue

theorem pushPriorityQueue_perm (value : HuffmanNode) (queue : List HuffmanNode) :
    (pushPriorityQueue value queue).Perm (value :: queue) := by
  induction queue with
  | nil => exact .refl _
  | cons entry queue ih =>
      rw [pushPriorityQueue]
      split
      · exact .refl _
      · exact (ih.cons entry).trans (.swap value entry queue)

/-- The two nodes in front are put below a new one, as long as there are two. -/
def groupNodes : List HuffmanNode → List HuffmanNode
  | left :: right :: queue =>
      groupNodes (pushPriorityQueue (.node (left.value + right.value) left right) queue)
  | queue => queue
termination_by queue => queue.length
decreasing_by
  rw [(pushPriorityQueue_perm _ _).length_eq]
  simp

namespace Huffman

variable (huffman : Huffman)

/-! ## The tree and the tables -/

def calcFreqsHuffman (stream : FileStream) : Huffman :=
  { huffman with
    freqs := stream.buffers.foldl
      (fun freqs buffer => buffer.foldl (fun freqs byte => Function.update freqs byte (freqs byte + 1)) freqs) fun _ => 0 }

/-- The codes are numbers of sixteen bits. -/
def allocateTreeHuffman (huffman : Huffman) : HuffmanNode → Nat → Nat → Huffman
  | .leaf _ symbol, code, bitCount =>
      { huffman with
        nodes := Function.update huffman.nodes symbol (some { code, bitCount })
        prefixSize := if bitCount > huffman.prefixSize then bitCount else huffman.prefixSize }
  | .node _ left right, code, bitCount =>
      ((huffman.allocateTreeHuffman left ((code <<< 1 ||| 0) % 65536) (bitCount + 1)).allocateTreeHuffman right
        ((code <<< 1 ||| 1) % 65536) (bitCount + 1))

/-- Without any byte there is no root, which is used all the same. -/
def generateTableHuffman (stream : FileStream) : Option Huffman :=
  let huffman := huffman.calcFreqsHuffman stream
  let (huffman, queue) := huffmanSymbols.foldl
    (fun (huffman, queue) symbol =>
      if huffman.freqs symbol = 0 then (huffman, queue)
      else
        ({ huffman with nodes := Function.update huffman.nodes symbol (some { code := 0, bitCount := 0 }) },
          pushPriorityQueue (.leaf (huffman.freqs symbol) symbol) queue))
    (huffman, [])
  match groupNodes queue with
  | [] => none
  | root :: _ => some ({ huffman with root := some root }.allocateTreeHuffman root 0 0)

def fillPrefixHuffman (symbol : UInt8) (extra : Nat) :
    Nat → Nat → List (Option PrefixEntry) → Option (List (Option PrefixEntry))
  | 0, code, table =>
      if code < table.length then some (table.set code (some { code := symbol, extra })) else none
  | count + 1, code, table => do
      let table ← fillPrefixHuffman symbol extra count (code <<< 1 % 65536 ||| 1) table
      fillPrefixHuffman symbol extra count (code <<< 1 % 65536) table

def fillSymbol (table : List (Option PrefixEntry)) (symbol : UInt8) : Option (List (Option PrefixEntry)) :=
  match huffman.nodes symbol with
  | none => some table
  | some node =>
      let extra := huffman.prefixSize - node.bitCount
      fillPrefixHuffman symbol extra extra node.code table

/-- The size of the tables is an `int`. -/
def generatePrefixHuffman : Option Huffman :=
  if huffman.prefixSize ≥ 31 then none
  else do
    let table ← huffmanSymbols.foldlM huffman.fillSymbol (List.replicate (1 <<< huffman.prefixSize) none)
    some { huffman with prefixTable := table }

/-! ## The encoder -/

def encodeByte : Huffman × BitStream → UInt8 → Option (Huffman × BitStream)
  | (huffman, bitStream), byte => do
      let node ← huffman.nodes byte
      let bitStream ← bitStream.writeWordBitStream node.code node.bitCount
      some ({ huffman with bitCount := huffman.bitCount + node.bitCount }, bitStream)

/-- The encoder leaves the count of the bits and the file. -/
def encodeHuffman (input : FileStream) (output : BitStream) : Option (Huffman × List UInt8) := do
  let (huffman, bitStream) ← input.buffers.foldlM (fun state buffer => buffer.foldlM encodeByte state)
    ({ huffman with bitCount := 0 }, output)
  let file ← bitStream.closeBitStream
  some (huffman, file)

end Huffman

/-! ## The decoders -/

/-- The file that is written to, and what has not been written yet. -/
structure HuffmanOutput where
  stream : FileStream
  outBuffer : List UInt8
deriving DecidableEq, Repr

namespace HuffmanOutput

def start : HuffmanOutput := { stream := { contents := [], position := 0 }, outBuffer := [] }

def put (output : HuffmanOutput) (code : UInt8) : HuffmanOutput :=
  if output.outBuffer.length + 1 = huffmanBufferSize then
    { stream := output.stream.writeFileStream (output.outBuffer ++ [code]), outBuffer := [] }
  else { output with outBuffer := output.outBuffer ++ [code] }

def close (output : HuffmanOutput) : List UInt8 :=
  if output.outBuffer.length > 0 then (output.stream.writeFileStream output.outBuffer).contents
  else output.stream.contents

end HuffmanOutput

/-- Where the walk down the tree is, the bits it has taken and what it has written. -/
structure TreeDecoder where
  node : HuffmanNode
  totalCount : Nat
  output : HuffmanOutput
deriving DecidableEq, Repr

namespace Huffman

variable (huffman : Huffman)

/-- Below a leaf there is nothing to look at. -/
def percolate (root : HuffmanNode) (state : TreeDecoder) (bit : Bool) : Option TreeDecoder :=
  match state.node with
  | .leaf _ _ => none
  | .node _ left right =>
      match if bit then right else left with
      | .leaf _ symbol =>
          some { node := root, totalCount := state.totalCount + 1, output := state.output.put symbol }
      | node => some { state with node, totalCount := state.totalCount + 1 }

/-- The bits of a byte that are left are taken until the bits of the stream are at their end. -/
def percolateByte (root : HuffmanNode) (code : UInt8) : Nat → TreeDecoder → Option TreeDecoder
  | 0, state => some state
  | left + 1, state =>
      if state.totalCount = huffman.bitCount then some state
      else do
        let state ← percolate root state (code.toNat.testBit left)
        percolateByte root code left state

def decodeTreeHuffman (input : FileStream) : Option (List UInt8) := do
  let root ← huffman.root
  let state ← input.buffers.foldlM
    (fun state buffer => buffer.foldlM (fun state code => huffman.percolateByte root code huffmanByteSize state) state)
    { node := root, totalCount := 0, output := .start }
  some state.output.close

/-- The loop goes on until the bits of the stream are at their end, for at most a number of symbols here. -/
def decodeTable : Nat → BitStream → Nat → HuffmanOutput → Option (List UInt8)
  | 0, _, _, _ => none
  | fuel + 1, bitStream, totalCount, output =>
      if totalCount = huffman.bitCount then some output.close
      else do
        let (bitStream, word) ← bitStream.readWordBitStream huffman.prefixSize
        let entry ← huffman.prefixTable[word]?
        let { code, extra } ← entry
        let bitStream ← if extra > 0 then bitStream.seekBitStream extra else some bitStream
        decodeTable fuel bitStream (totalCount + (huffman.prefixSize - extra)) (output.put code)

def decodeTableHuffman (fuel : Nat) (input : BitStream) : Option (List UInt8) :=
  huffman.decodeTable fuel input 0 .start

end Huffman

end Viriatum
