import Mathlib.Data.List.Nodup
import Viriatum.Commons.Huffman

/-!
# The tree of a stream

The symbols of the tree are the bytes of the stream, and the node of each of them carries its word.
-/

namespace Viriatum

open Library

/-! ## Reading the stream -/

theorem FileStream.flatten_buffers (s : FileStream) : s.buffers.flatten = s.contents.drop s.position := by
  fun_induction FileStream.buffers s with
  | case1 s hempty =>
      simp only [readFileStream, List.take_eq_nil_iff] at hempty
      rw [List.flatten_nil, hempty.resolve_left (by decide)]
  | case2 s hdata ih =>
      have hrest : ∀ data : List UInt8, data.drop (data.take huffmanBufferSize).length = data.drop huffmanBufferSize := by
        intro data
        rw [List.length_take]
        cases Nat.le_total huffmanBufferSize data.length with
        | inl hle => rw [Nat.min_eq_left hle]
        | inr hle => rw [Nat.min_eq_right hle, List.drop_length, List.drop_eq_nil_of_le hle]
      rw [List.flatten_cons, ih]
      simp only [readFileStream]
      rw [← List.drop_drop, hrest, List.take_append_drop]

theorem flatten_buffers_start (s : List UInt8) : (FileStream.buffers { contents := s, position := 0 }).flatten = s :=
  FileStream.flatten_buffers _

theorem calcFreqs_freqs (huffman : Huffman) (s : List UInt8) :
    (huffman.calcFreqsHuffman { contents := s, position := 0 }).freqs = fun byte => s.count byte := by
  have hcount : ∀ (s : List UInt8) (freqs : UInt8 → Nat),
      s.foldl (fun freqs byte => Function.update freqs byte (freqs byte + 1)) freqs =
        fun byte => freqs byte + s.count byte := by
    intro s
    induction s with
    | nil => exact fun freqs => rfl
    | cons byte s ih =>
        intro freqs
        rw [List.foldl_cons, ih]
        funext other
        rw [List.count_cons]
        by_cases heq : byte = other
        · subst heq
          simp only [Function.update_self, beq_self_eq_true, ↓reduceIte]
          omega
        · rw [Function.update_of_ne (Ne.symm heq)]
          simp [heq]
  rw [Huffman.calcFreqsHuffman]
  dsimp only
  rw [← List.foldl_flatten, flatten_buffers_start, hcount]
  funext byte
  exact Nat.zero_add _

theorem mem_huffmanSymbols (byte : UInt8) : byte ∈ huffmanSymbols :=
  List.mem_map.mpr ⟨byte.toNat, List.mem_range.mpr byte.toNat_lt, UInt8.ofNat_toNat⟩

theorem nodup_huffmanSymbols : huffmanSymbols.Nodup := by
  apply List.Nodup.map_on _ List.nodup_range
  intro a ha b hb heq
  have hvalue := congrArg UInt8.toNat heq
  rw [UInt8.toNat_ofNat', UInt8.toNat_ofNat'] at hvalue
  have hlt : ∀ {n}, n ∈ List.range huffmanSymbolSize → n < 2 ^ 8 := fun h => List.mem_range.mp h
  rwa [Nat.mod_eq_of_lt (hlt ha), Nat.mod_eq_of_lt (hlt hb)] at hvalue

/-! ## The queue -/

/-- The symbols below the nodes of a queue. -/
def queueSymbols (queue : List HuffmanNode) : List UInt8 := queue.flatMap CodeTree.symbols

theorem queueSymbols_push (value : HuffmanNode) (queue : List HuffmanNode) :
    (queueSymbols (pushPriorityQueue value queue)).Perm (value.symbols ++ queueSymbols queue) :=
  (pushPriorityQueue_perm value queue).flatMap_right CodeTree.symbols

/-- Grouping leads to a single tree of the same symbols. -/
theorem groupNodes_spec (queue : List HuffmanNode) (h : queue ≠ []) :
    ∃ root, groupNodes queue = [root] ∧ (CodeTree.symbols root).Perm (queueSymbols queue) := by
  fun_induction groupNodes queue with
  | case1 left right queue ih =>
      have hne : pushPriorityQueue (.node (left.value + right.value) left right) queue ≠ [] := fun hnil => by
        have hlength := (pushPriorityQueue_perm (.node (left.value + right.value) left right) queue).length_eq
        rw [hnil] at hlength
        cases hlength
      obtain ⟨root, hroot, hperm⟩ := ih hne
      refine ⟨root, hroot, hperm.trans ((queueSymbols_push _ queue).trans ?_)⟩
      simp [queueSymbols, CodeTree.symbols]
  | case2 queue hshort =>
      cases queue with
      | nil => exact absurd rfl h
      | cons root queue =>
          cases queue with
          | nil => exact ⟨root, rfl, by simp [queueSymbols]⟩
          | cons right queue => exact absurd rfl (hshort root right queue)

/-! ## The codes -/

variable {t : HuffmanNode} {word : List Bool} {byte : UInt8}

/-- The code of a way down the tree, of which sixteen bits are kept. -/
def pathCode (path : List Bool) : Nat := ofBits path % 65536

theorem pathCode_left (path : List Bool) : (pathCode path <<< 1 ||| 0) % 65536 = pathCode (path ++ [false]) := by
  rw [pathCode, pathCode, ofBits_concat, Nat.or_zero, Nat.shiftLeft_eq]
  simp only [pow_one, Bool.toNat_false]
  omega

theorem pathCode_right (path : List Bool) : (pathCode path <<< 1 ||| 1) % 65536 = pathCode (path ++ [true]) := by
  have hor : (ofBits path % 65536) <<< 1 ||| 1 = ofBits path % 65536 * 2 + 1 := by
    rw [← Nat.shiftLeft_add_eq_or_of_lt (by decide : 1 < 2 ^ 1), Nat.shiftLeft_eq, pow_one]
  rw [pathCode, pathCode, ofBits_concat, hor, Bool.toNat_true]
  omega

namespace Huffman

variable (huffman : Huffman)

attribute [local simp] allocateTreeHuffman

theorem allocateTree_other (t : HuffmanNode) (code bitCount : Nat) (h : byte ∉ t.symbols) :
    (huffman.allocateTreeHuffman t code bitCount).nodes byte = huffman.nodes byte := by
  induction t generalizing huffman code bitCount with
  | leaf _ symbol => exact Function.update_of_ne (fun heq => h (List.mem_singleton.mpr heq)) _ _
  | node _ left right ihl ihr =>
      rw [CodeTree.symbols, List.mem_append, not_or] at h
      rw [allocateTreeHuffman, ihr _ _ _ h.2, ihl _ _ _ h.1]

/-- The node of a symbol carries the way down to it. -/
theorem allocateTree_nodes (hnodup : t.symbols.Nodup) (h : t.Word word byte) (path : List Bool) :
    (huffman.allocateTreeHuffman t (pathCode path) path.length).nodes byte =
      some { code := pathCode (path ++ word), bitCount := (path ++ word).length } := by
  induction h generalizing huffman path with
  | leaf =>
      rw [allocateTreeHuffman, List.append_nil]
      exact Function.update_self _ _ _
  | @left left right word symbol _ h ih =>
      rw [CodeTree.symbols, List.nodup_append] at hnodup
      have hright : symbol ∉ right.symbols := fun hmem => hnodup.2.2 _ h.mem _ hmem rfl
      have hpath : path.length + 1 = (path ++ [false]).length := by simp
      rw [allocateTreeHuffman, allocateTree_other _ _ _ _ hright, pathCode_left, hpath, ih _ hnodup.1]
      simp
  | right _ h ih =>
      rw [CodeTree.symbols, List.nodup_append] at hnodup
      have hpath : path.length + 1 = (path ++ [true]).length := by simp
      rw [allocateTreeHuffman, pathCode_right, hpath, ih _ hnodup.2.1]
      simp

theorem allocateTree_prefixSize (t : HuffmanNode) (code bitCount : Nat) :
    (huffman.allocateTreeHuffman t code bitCount).prefixSize = max huffman.prefixSize (bitCount + t.depth) := by
  induction t generalizing huffman code bitCount with
  | leaf _ _ =>
      rw [allocateTreeHuffman]
      simp only [CodeTree.depth]
      split <;> omega
  | node _ left right ihl ihr =>
      rw [allocateTreeHuffman, ihr, ihl, CodeTree.depth]
      omega

theorem allocateTree_root (t : HuffmanNode) (code bitCount : Nat) :
    (huffman.allocateTreeHuffman t code bitCount).root = huffman.root := by
  induction t generalizing huffman code bitCount with
  | leaf _ _ => rfl
  | node _ left right ihl ihr => rw [allocateTreeHuffman, ihr, ihl]

/-- The tree of a stream, its symbols and what their nodes carry. -/
structure Codes (huffman : Huffman) (tree : HuffmanNode) (s : List UInt8) : Prop where
  root : huffman.root = some tree
  nodup : tree.symbols.Nodup
  mem : ∀ byte, byte ∈ tree.symbols ↔ byte ∈ s
  node : ∀ {word byte}, tree.Word word byte → huffman.nodes byte = some { code := pathCode word, bitCount := word.length }
  none : ∀ byte, byte ∉ s → huffman.nodes byte = none
  prefixSize : huffman.prefixSize = tree.depth

/-- The leaves that the symbols are given. -/
theorem foldl_symbols (symbols : List UInt8) (huffman : Huffman) (queue : List HuffmanNode) :
    let result := symbols.foldl
      (fun (huffman, queue) symbol =>
        if huffman.freqs symbol = 0 then (huffman, queue)
        else
          ({ huffman with nodes := Function.update huffman.nodes symbol (some { code := 0, bitCount := 0 }) },
            pushPriorityQueue (.leaf (huffman.freqs symbol) symbol) queue))
      (huffman, queue)
    (∃ nodes, result.1 = { huffman with nodes } ∧ ∀ byte, huffman.freqs byte = 0 → nodes byte = huffman.nodes byte) ∧
      (queueSymbols result.2).Perm (symbols.filter (fun byte => huffman.freqs byte ≠ 0) ++ queueSymbols queue) := by
  induction symbols generalizing huffman queue with
  | nil => exact ⟨⟨huffman.nodes, rfl, fun _ _ => rfl⟩, .refl _⟩
  | cons symbol symbols ih =>
      rw [List.foldl_cons]
      by_cases hzero : huffman.freqs symbol = 0
      · simp only [if_pos hzero]
        have hskip : (symbol :: symbols).filter (fun byte => huffman.freqs byte ≠ 0) =
            symbols.filter fun byte => huffman.freqs byte ≠ 0 := List.filter_cons_of_neg (by simpa using hzero)
        rw [hskip]
        exact ih huffman queue
      · simp only [if_neg hzero]
        have hkeep : (symbol :: symbols).filter (fun byte => huffman.freqs byte ≠ 0) =
            symbol :: symbols.filter fun byte => huffman.freqs byte ≠ 0 := List.filter_cons_of_pos (by simpa using hzero)
        rw [hkeep]
        obtain ⟨⟨nodes, hresult, hnodes⟩, hperm⟩ := ih
          { huffman with nodes := Function.update huffman.nodes symbol (some { code := 0, bitCount := 0 }) }
          (pushPriorityQueue (.leaf (huffman.freqs symbol) symbol) queue)
        refine ⟨⟨nodes, hresult, fun byte hbyte => ?_⟩, hperm.trans ?_⟩
        · rw [hnodes byte hbyte]
          exact Function.update_of_ne (by rintro rfl; exact hzero hbyte) _ _
        · have hpush := queueSymbols_push (.leaf (huffman.freqs symbol) symbol) queue
          exact (hpush.append_left _).trans List.perm_middle

/-- The queue holds a leaf for each byte of the stream. -/
theorem generateTable_queue (s : List UInt8) : ∃ nodes queue, (∀ byte, byte ∉ s → nodes byte = none) ∧
    (queueSymbols queue).Nodup ∧ (∀ byte, byte ∈ queueSymbols queue ↔ byte ∈ s) ∧
    createHuffman.generateTableHuffman { contents := s, position := 0 } =
      match groupNodes queue with
      | [] => none
      | root :: _ => some ({ createHuffman with
          nodes, freqs := fun byte => s.count byte, root := some root }.allocateTreeHuffman root 0 0) := by
  obtain ⟨⟨nodes, hresult, hnodes⟩, hperm⟩ := foldl_symbols huffmanSymbols
    { createHuffman with freqs := fun byte => s.count byte } []
  have hstart : createHuffman.calcFreqsHuffman { contents := s, position := 0 } =
      { createHuffman with freqs := fun byte => s.count byte } := by
    rw [← calcFreqs_freqs createHuffman s]
    rfl
  rw [generateTableHuffman]
  dsimp only
  rw [hstart]
  generalize List.foldl _ _ huffmanSymbols = result at hresult hperm ⊢
  obtain ⟨huffman, queue⟩ := result
  cases hresult
  refine ⟨nodes, queue, fun byte hbyte => hnodes byte (List.count_eq_zero.mpr hbyte), ?_, fun byte => ?_, rfl⟩
  · rw [hperm.nodup_iff, queueSymbols, List.flatMap_nil, List.append_nil]
    exact nodup_huffmanSymbols.filter _
  · rw [hperm.mem_iff, queueSymbols, List.flatMap_nil, List.append_nil, List.mem_filter]
    simp [mem_huffmanSymbols, List.count_eq_zero]

theorem generateTable_none : createHuffman.generateTableHuffman { contents := [], position := 0 } = none := by
  obtain ⟨nodes, queue, -, -, hmem, heq⟩ := generateTable_queue []
  cases queue with
  | nil =>
      simp [heq, groupNodes]
  | cons root queue =>
      obtain ⟨word, rest, byte, -, hword⟩ :=
        CodeTree.exists_word_of_depth (Nat.le_of_eq (List.length_replicate (a := false)).symm : root.depth ≤ _)
      have hin : byte ∈ queueSymbols (root :: queue) := List.mem_flatMap.mpr ⟨root, List.mem_cons_self, hword.mem⟩
      exact absurd ((hmem byte).mp hin) List.not_mem_nil

theorem generateTable_codes {s : List UInt8} (h : s ≠ []) :
    ∃ huffman root, createHuffman.generateTableHuffman { contents := s, position := 0 } = some huffman ∧
      huffman.Codes root s := by
  obtain ⟨nodes, queue, hnone, hnodup, hmem, heq⟩ := generateTable_queue s
  have hne : queue ≠ [] := by
    rintro rfl
    obtain ⟨byte, hbyte⟩ := List.exists_mem_of_ne_nil s h
    exact absurd ((hmem byte).mpr hbyte) List.not_mem_nil
  obtain ⟨root, hroot, hperm⟩ := groupNodes_spec queue hne
  rw [hroot] at heq
  have hnodup' := hperm.nodup_iff.mpr hnodup
  have hmem' : ∀ byte, byte ∈ CodeTree.symbols root ↔ byte ∈ s := fun byte => hperm.mem_iff.trans (hmem byte)
  refine ⟨_, root, heq, ?_⟩
  constructor
  · rw [allocateTree_root]
  · exact hnodup'
  · exact hmem'
  · exact fun hword => allocateTree_nodes _ hnodup' hword []
  · intro byte hbyte
    rw [allocateTree_other _ _ _ _ fun hin => hbyte ((hmem' byte).mp hin)]
    exact hnone byte hbyte
  · rw [allocateTree_prefixSize]
    exact (Nat.zero_max _).trans (Nat.zero_add _)

end Huffman

end Viriatum
