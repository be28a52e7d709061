import Viriatum.Http.Lemmas.HpackExact

/-!
# A decoder that announces the size of its table

The other end of the header compression as its specification has it: the sizes that the decoder announces, the update
that an encoder owes it after a reduction, and the reading of a block without any limit but the one of the table.
-/

namespace Viriatum

open Library

/-! ## Integers and strings -/

/-- The continuation of an integer, the least of its parts first. -/
def readContinuation : Bytes → Option (Nat × Bytes)
  | [] => none
  | byte :: rest =>
      if byte.toNat < 128 then some (byte.toNat, rest)
      else (readContinuation rest).map fun (value, rest) => (byte.toNat - 128 + 128 * value, rest)

def readInteger (prefixBits : Nat) : Bytes → Option (Nat × Bytes)
  | [] => none
  | byte :: rest =>
      let value := byte.toNat % 2 ^ prefixBits
      if value < 2 ^ prefixBits - 1 then some (value, rest)
      else (readContinuation rest).map fun (more, rest) => (value + more, rest)

/-- A string that is coded has a symbol for every bit at most. -/
def readString (data : Bytes) : Option (Bytes × Bytes) := do
  let (length, rest) ← readInteger 7 data
  if length > rest.length then none
  else if 128 ≤ (data.getD 0 0).toNat then do
    let value ← (decodeHuffman (8 * length) (rest.take length)).toOption
    some (value, rest.drop length)
  else some (rest.take length, rest.drop length)

/-! ## The decoder -/

/-- A decoder: its table, the maximum size that is in use, the last that it has announced and the smallest it has announced
since the last block. -/
structure HpackPeer where
  entries : List HpackHeader := []
  size : Nat := hpackTableSize
  announced : Nat := hpackTableSize
  smallest : Option Nat := none
deriving DecidableEq, Repr

namespace HpackPeer

/-- Announces some sizes one after the other. -/
def announce (peer : HpackPeer) (sizes : List Nat) : HpackPeer :=
  sizes.foldl (fun peer size =>
    { peer with announced := size, smallest := some (peer.smallest.elim size fun least => min least size) }) peer

/-- The size that the next block is to come down to. -/
def due (peer : HpackPeer) : Option Nat := peer.smallest.filter (· < peer.size)

def resize (peer : HpackPeer) (size : Nat) : HpackPeer :=
  { peer with size, entries := HpackRing.fitting size peer.entries }

def insert (peer : HpackPeer) (header : HpackHeader) : HpackPeer :=
  { peer with entries := HpackRing.fitting peer.size (header :: peer.entries) }

/-- The entry that an index refers to, of the static table or of the one of the decoder. -/
def lookup (peer : HpackPeer) (index : Nat) : Option HpackHeader :=
  if index = 0 then none else (hpackStaticTable ++ peer.entries)[index - 1]?

/-- The updates at the front of a block, none of them above the size announced. -/
def readUpdates : (rounds : Nat) → HpackPeer → Bytes → Option (List Nat × HpackPeer × Bytes)
  | 0, peer, data => some ([], peer, data)
  | rounds + 1, peer, data =>
      if (data.getD 0 0) &&& 0xe0 = 0x20 then do
        let (size, rest) ← readInteger 5 data
        if size > peer.announced then none
        else do
          let (sizes, peer, rest) ← readUpdates rounds (peer.resize size) rest
          some (size :: sizes, peer, rest)
      else some ([], peer, data)

/-- The name of a literal field: a string of its own, or the name of an entry. -/
def readName (peer : HpackPeer) (index : Nat) (data : Bytes) : Option (Bytes × Bytes) :=
  if index = 0 then readString data else (peer.lookup index).map fun entry => (entry.name, data)

def readField (peer : HpackPeer) (data : Bytes) : Option (HpackHeader × HpackPeer × Bytes) :=
  let byte := data.getD 0 0
  if byte &&& 0x80 ≠ 0 then do
    let (index, rest) ← readInteger 7 data
    let header ← peer.lookup index
    some (header, peer, rest)
  else if byte &&& 0xe0 = 0x20 then none
  else do
    let indexing := byte &&& 0x40 ≠ 0
    let (index, rest) ← readInteger (if indexing then 6 else 4) data
    let (name, rest) ← peer.readName index rest
    let (value, rest) ← readString rest
    some (⟨name, value⟩, if indexing then peer.insert ⟨name, value⟩ else peer, rest)

def readFields : (rounds : Nat) → HpackPeer → Bytes → Option (List HpackHeader × HpackPeer)
  | _, peer, [] => some ([], peer)
  | 0, _, _ => none
  | rounds + 1, peer, data => do
      let (header, peer, rest) ← peer.readField data
      let (headers, peer) ← readFields rounds peer rest
      some (header :: headers, peer)

/-- Reads a block: the updates, the first of which is to come down to the smallest size announced if that is below the one
in use, and the fields. -/
def read (peer : HpackPeer) (data : Bytes) : Option (List HpackHeader × HpackPeer) := do
  let (sizes, resized, rest) ← readUpdates data.length peer data
  if peer.due.elim true fun size => sizes.head?.elim false (· ≤ size) then
    readFields rest.length { resized with smallest := none } rest
  else none

/-- The block begins with an update to a size within the limit. -/
def BeginsWithin (data : Bytes) (limit : Nat) : Prop :=
  (data.getD 0 0) &&& 0xe0 = 0x20 ∧ ∃ size rest, readInteger 5 data = some (size, rest) ∧ size ≤ limit

end HpackPeer

/-! ## What the encoder writes is read -/

theorem readContinuation_bytes {rounds value : Nat} (hrounds : value ≤ rounds) (rest : Bytes) :
    readContinuation (continuationBytes rounds value ++ rest) = some (value, rest) := by
  induction rounds generalizing value with
  | zero =>
      have hzero : value = 0 := by omega
      subst hzero
      rfl
  | succ rounds ih =>
      rw [continuationBytes]
      by_cases hgo : value ≥ 128
      · have hdiv : value >>> 7 = value / 128 := Nat.shiftRight_eq_div_pow value 7
        have hmod : value &&& 0x7f = value % 128 := Nat.and_two_pow_sub_one_eq_mod value 7
        have hbyte : (UInt8.ofNat (value % 128 ||| 0x80)).toNat = value % 128 + 128 := by
          have hlt := Nat.mod_lt value (by decide : 0 < 128)
          revert hlt
          generalize value % 128 = m
          revert m
          decide
        rw [if_pos hgo, hdiv, hmod, List.cons_append, readContinuation, hbyte, if_neg (by omega), ih (by omega)]
        simp only [Option.map_some, Option.some.injEq, Prod.mk.injEq, and_true]
        omega
      · have hbyte : (UInt8.ofNat value).toNat = value := by
          rw [UInt8.toNat_ofNat']
          exact Nat.mod_eq_of_lt (by omega)
        rw [if_neg hgo, List.singleton_append, readContinuation, hbyte, if_pos (by omega)]

theorem readInteger_bytes {prefixBits flags : Nat} (value : Nat) (hp : prefixBits ≤ 8) (hf : flags % 2 ^ prefixBits = 0)
    (rest : Bytes) : readInteger prefixBits (integerBytes prefixBits flags value ++ rest) = some (value, rest) := by
  have hpos := Nat.two_pow_pos prefixBits
  have hbyte : ∀ m < 2 ^ prefixBits, (UInt8.ofNat (flags ||| m)).toNat % 2 ^ prefixBits = m := by
    intro m hm
    have hprefix := prefix_of_flags hp hf hm
    rwa [Nat.and_two_pow_sub_one_eq_mod] at hprefix
  simp only [integerBytes, Nat.one_shiftLeft]
  by_cases hlt : value < 2 ^ prefixBits - 1
  · rw [if_pos hlt, List.singleton_append, readInteger, hbyte value (by omega), if_pos hlt]
  · rw [if_neg hlt, List.cons_append, readInteger, hbyte _ (by omega), if_neg (by omega),
      readContinuation_bytes le_rfl]
    simp only [Option.map_some, Option.some.injEq, Prod.mk.injEq, and_true]
    omega

theorem huffmanLength_pos (byte : UInt8) : 0 < huffmanLength byte :=
  (huffman_code (Nat.lt_succ_of_lt byte.toNat_lt)).1

theorem huffmanWords_ge (value : Bytes) : value.length ≤ (value.map huffmanLength).sum := by
  induction value with
  | nil => simp
  | cons byte value ih =>
      have hbyte := huffmanLength_pos byte
      rw [List.map_cons, List.sum_cons, List.length_cons]
      omega

private theorem coded_flag : (∀ m < 2 ^ 7, 128 ≤ (UInt8.ofNat (0x80 ||| m)).toNat) ∧
    ∀ m < 2 ^ 7, ¬ 128 ≤ (UInt8.ofNat (0x00 ||| m)).toNat := by
  decide

theorem readString_bytes (value rest : Bytes) :
    readString (stringLead value ++ stringTail value ++ rest) = some (value, rest) := by
  unfold stringLead stringTail
  split
  case isTrue =>
    obtain ⟨m, tail, hm, hhead⟩ := integerBytes_head 7 0x80 (sizeHuffman value)
    obtain ⟨coded, pad, hcoded, hsize, hpad, hbits⟩ := encodeHuffman_spec value (le_refl (sizeHuffman value))
    have hbytes : huffmanBytes value = coded := by simp [huffmanBytes, hcoded]
    have hinteger := readInteger_bytes (sizeHuffman value) (by decide : 7 ≤ 8)
      (by decide : 0x80 % 2 ^ 7 = 0) (coded ++ rest)
    have hfirst := coded_flag.1 m hm
    have hlong : value.length ≤ 8 * sizeHuffman value := by
      have hwords := huffmanWords_ge value
      rw [sizeHuffman]
      omega
    rw [List.append_assoc, hbytes]
    rw [hhead, List.cons_append] at hinteger ⊢
    simp only [readString, hinteger, Option.bind_eq_bind, Option.bind_some, List.getD_cons_zero]
    rw [if_neg (by rw [List.length_append]; omega), if_pos hfirst, ← hsize, List.take_left, List.drop_left, hsize,
      decodeHuffman_of_bits hpad hbits hlong]
    rfl
  case isFalse =>
    obtain ⟨m, tail, hm, hhead⟩ := integerBytes_head 7 0x00 value.length
    have hinteger := readInteger_bytes value.length (by decide : 7 ≤ 8)
      (by decide : 0x00 % 2 ^ 7 = 0) (value ++ rest)
    have hfirst := coded_flag.2 m hm
    rw [List.append_assoc]
    rw [hhead, List.cons_append] at hinteger ⊢
    simp only [readString, hinteger, Option.bind_eq_bind, Option.bind_some, List.getD_cons_zero]
    rw [if_neg (by rw [List.length_append]; omega), if_neg hfirst, List.take_left, List.drop_left]

namespace HpackPeer

/-- A field that is not inserted is read by a decoder that holds the entries of the encoder. -/
theorem readField_bytes {peer : HpackPeer} {table : HpackTable} (hsame : peer.entries = table.list)
    (header : HpackHeader) (rest : Bytes) :
    peer.readField (fieldBytes table header ++ rest) = some (header, peer, rest) := by
  have hspace : hpackStaticTable ++ peer.entries = table.space := by rw [hsame, HpackTable.space]
  obtain ⟨index, complete, hfind⟩ : ∃ index complete, table.find header = (index, complete) := ⟨_, _, rfl⟩
  cases complete with
  | true =>
      obtain ⟨hpos, -, hget⟩ := HpackTable.find_true hfind
      have hbytes : fieldBytes table header = integerBytes 7 0x80 index := by
        simp [fieldBytes, fieldLead, fieldTail, hfind]
      obtain ⟨m, tail, hm, hhead⟩ := integerBytes_head 7 0x80 index
      have hinteger := readInteger_bytes index (by decide : 7 ≤ 8) (by decide : 0x80 % 2 ^ 7 = 0) rest
      rw [hbytes]
      rw [hhead, List.cons_append] at hinteger ⊢
      have hlookup : peer.lookup index = some header := by rw [lookup, if_neg (by omega), hspace, hget]
      simp only [readField, List.getD_cons_zero]
      rw [if_pos (indexed_flag m hm).1, hinteger]
      simp [hlookup]
  | false =>
      have hbytes : fieldBytes table header = integerBytes 4 0x00 index ++
          ((if index = 0 then stringLead header.name ++ stringTail header.name else []) ++
            (stringLead header.value ++ stringTail header.value)) := by
        simp [fieldBytes, fieldLead, fieldTail, hfind]
      obtain ⟨m, tail, hm, hhead⟩ := integerBytes_head 4 0x00 index
      have hname : peer.readName index ((if index = 0 then stringLead header.name ++ stringTail header.name else []) ++
          (stringLead header.value ++ stringTail header.value ++ rest)) =
          some (header.name, stringLead header.value ++ stringTail header.value ++ rest) := by
        by_cases hzero : index = 0
        · rw [readName, if_pos hzero, if_pos hzero, readString_bytes]
        · obtain ⟨-, entry, hname, hget⟩ := HpackTable.find_false hfind hzero
          have hlookup : peer.lookup index = some entry := by rw [lookup, if_neg hzero, hspace, hget]
          rw [readName, if_neg hzero, if_neg hzero, hlookup, Option.map_some, hname, List.nil_append]
      have hinteger := readInteger_bytes index (by decide : 4 ≤ 8) (by decide : 0x00 % 2 ^ 4 = 0)
        ((if index = 0 then stringLead header.name ++ stringTail header.name else []) ++
          (stringLead header.value ++ stringTail header.value ++ rest))
      rw [hbytes, List.append_assoc, List.append_assoc]
      rw [hhead, List.cons_append] at hinteger ⊢
      obtain ⟨hindexed, hupdate, hinsert⟩ := literal_flag m hm
      simp only [readField, List.getD_cons_zero]
      rw [if_neg (by simpa using hindexed), if_neg hupdate]
      simp only [hinsert, ne_eq, not_true_eq_false, if_false, hinteger, Option.bind_eq_bind, Option.bind_some, hname, readString_bytes]

theorem readFields_bytes (peer : HpackPeer) {table : HpackTable} (hsame : peer.entries = table.list)
    {headers : List HpackHeader} {rounds : Nat} (hrounds : (blockBytes table headers).length ≤ rounds) :
    readFields rounds peer (blockBytes table headers) = some (headers, peer) := by
  induction headers generalizing rounds with
  | nil => cases rounds <;> rfl
  | cons header headers ih =>
      obtain ⟨byte, tail, hbytes, -⟩ := fieldBytes_head table header
      have hfield := readField_bytes hsame header (blockBytes table headers)
      rw [blockBytes_cons, hbytes, List.cons_append] at hrounds ⊢
      rw [hbytes, List.cons_append] at hfield
      cases rounds with
      | zero => simp at hrounds
      | succ rounds =>
          rw [List.length_cons, List.length_append] at hrounds
          have hrest := ih (show (blockBytes table headers).length ≤ rounds by omega)
          simp [readFields, hfield, hrest]

/-- No block begins with an update. -/
theorem blockBytes_head (table : HpackTable) (headers : List HpackHeader) :
    ((blockBytes table headers).getD 0 0) &&& 0xe0 ≠ 0x20 := by
  cases headers with
  | nil =>
      show (0 : UInt8) &&& 0xe0 ≠ 0x20
      decide
  | cons header headers =>
      obtain ⟨byte, tail, hbytes, hbyte⟩ := fieldBytes_head table header
      rw [blockBytes_cons, hbytes]
      exact hbyte

theorem readUpdates_bytes (rounds : Nat) (peer : HpackPeer) (table : HpackTable) (headers : List HpackHeader) :
    readUpdates rounds peer (blockBytes table headers) = some ([], peer, blockBytes table headers) := by
  cases rounds with
  | zero => rfl
  | succ rounds => rw [readUpdates, if_neg (blockBytes_head table headers)]

/-- A block is read by a decoder that holds the entries of the encoder and to which no update is due. -/
theorem read_bytes {peer : HpackPeer} {table : HpackTable} (hsame : peer.entries = table.list) (hdue : peer.due = none)
    (headers : List HpackHeader) :
    peer.read (blockBytes table headers) = some (headers, { peer with smallest := none }) := by
  rw [read, readUpdates_bytes]
  simp only [Option.bind_eq_bind, Option.bind_some, hdue, Option.elim_none, if_true]
  exact readFields_bytes { peer with smallest := none } hsame le_rfl

theorem not_beginsWithin (table : HpackTable) (headers : List HpackHeader) (limit : Nat) :
    ¬ BeginsWithin (blockBytes table headers) limit := fun h => blockBytes_head table headers h.1

@[simp] theorem announce_entries (peer : HpackPeer) (sizes : List Nat) :
    (peer.announce sizes).entries = peer.entries := by
  induction sizes generalizing peer with
  | nil => rfl
  | cons size sizes ih => exact ih _

end HpackPeer

end Viriatum
