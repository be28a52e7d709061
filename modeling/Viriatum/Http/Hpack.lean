import Viriatum.Library.Effect
import Viriatum.Http.HpackTable

/-!
# The header compression

The integers, the strings and the blocks of the header compression. A buffer to be written is the bytes written
to it so far and its size; a buffer to be read is what is left of it to be read.
-/

namespace Viriatum

open Library

def hpackMaxInteger : Nat := 0x0fffffff

/-! ## Integers -/

/-- Accumulates the continuation bytes, each of seven bits of the value and one of continuation. -/
def decodeContinuation : (result shift : Nat) → Bytes → Except HpackError (Nat × Bytes)
  | _, _, [] => .error .truncatedInteger
  | result, shift, byte :: rest =>
      if shift > 21 then .error .overflowingInteger
      else
        let result := result + (byte.toNat &&& 0x7f) <<< shift
        if result > hpackMaxInteger then .error .overflowingInteger
        else if byte &&& 0x80 = 0 then .ok (result, rest)
        else decodeContinuation result (shift + 7) rest

def decodeInteger (prefixBits : Nat) : Bytes → Except HpackError (Nat × Bytes)
  | [] => .error .truncatedInteger
  | byte :: rest =>
      let mask := 1 <<< prefixBits - 1
      let result := byte.toNat &&& mask
      if result < mask then .ok (result, rest) else decodeContinuation result 0 rest

def putInteger (bufferSize : Nat) (byte : UInt8) (buffer : Bytes) : Except HpackError Bytes :=
  if buffer.length ≥ bufferSize then .error .noSpaceForInteger else .ok (buffer ++ [byte])

/-- Writes the continuation bytes of the value; a round takes seven bits off it, so there are no more of them
than the value. -/
def encodeContinuation (bufferSize : Nat) : (rounds value : Nat) → Bytes → Except HpackError Bytes
  | 0, value, buffer => putInteger bufferSize (UInt8.ofNat value) buffer
  | rounds + 1, value, buffer =>
      if value ≥ 128 then do
        let buffer ← putInteger bufferSize (UInt8.ofNat (value &&& 0x7f ||| 0x80)) buffer
        encodeContinuation bufferSize rounds (value >>> 7) buffer
      else putInteger bufferSize (UInt8.ofNat value) buffer

/-- Writes an integer; without space for all of it the buffer is left at the position it was at. -/
def encodeInteger (bufferSize prefixBits flags value : Nat) : Effect HpackError Bytes Unit := do
  let buffer ← get
  let mask := 1 <<< prefixBits - 1
  let written :=
    if value < mask then putInteger bufferSize (UInt8.ofNat (flags ||| value)) buffer
    else do
      let buffer ← putInteger bufferSize (UInt8.ofNat (flags ||| mask)) buffer
      encodeContinuation bufferSize (value - mask) (value - mask) buffer
  match written with
  | .ok buffer => set buffer
  | .error e => throw e

/-! ## Strings -/

def decodeString (bufferSize : Nat) (data : Bytes) : Except HpackError (Bytes × Bytes) :=
  match data with
  | [] => .error .truncatedString
  | byte :: _ => do
      let huffman := byte &&& 0x80 ≠ 0
      let (length, rest) ← decodeInteger 7 data
      if length > rest.length then .error .truncatedString
      else if huffman then do
        let string ← decodeHuffman bufferSize (rest.take length)
        .ok (string, rest.drop length)
      else if length > bufferSize then .error .stringAboveAccepted
      else .ok (rest.take length, rest.drop length)

/-- Writes a string, coded when that is shorter. The length stays written when there is no space for the rest. -/
def encodeString (bufferSize : Nat) (value : Bytes) : Effect HpackError Bytes Unit := do
  let huffmanSize := sizeHuffman value
  if huffmanSize < value.length then
    encodeInteger bufferSize 7 0x80 huffmanSize
    let buffer ← get
    match encodeHuffman (bufferSize - buffer.length) value with
    | .ok coded => set (buffer ++ coded)
    | .error e => throw e
  else
    encodeInteger bufferSize 7 0x00 value.length
    let buffer ← get
    if value.length > bufferSize - buffer.length then throw .noSpaceForString
    else set (buffer ++ value)

/-! ## Blocks -/

/-- The name of a literal field: a string of its own or the name of an entry. -/
def decodeName (table : HpackTable) (index : Nat) (rest : Bytes) : Except HpackError (Bytes × Bytes) :=
  if index = 0 then decodeString hpackMaxNameSize rest
  else do
    let indexed ← table.get index
    if indexed.name.length > hpackMaxNameSize then .error .nameAboveAccepted
    else .ok (indexed.name, rest)

/-- Reads a field: the header, the table after it and what is left of the block. -/
def decodeField (table : HpackTable) (byte : UInt8) (data : Bytes) :
    Except HpackError (HpackHeader × HpackTable × Bytes) :=
  if byte &&& 0x80 ≠ 0 then do
    let (index, rest) ← decodeInteger 7 data
    let header ← table.get index
    .ok (header, table, rest)
  else do
    let indexing := byte &&& 0x40 ≠ 0
    let (index, rest) ← decodeInteger (if indexing then 6 else 4) data
    let (name, rest) ← decodeName table index rest
    let (value, rest) ← decodeString hpackMaxValueSize rest
    .ok (⟨name, value⟩, if indexing then table.insert ⟨name, value⟩ else table, rest)

section Decode

variable {ε σ : Type} (callback : HpackHeader → Effect ε σ Unit) (refuse : HpackError → ε)

/-- The loop over the representations of a block, `field` telling whether one of them was a field. A round
reads a byte at least, so there are no more rounds than bytes; what is left unread is given back. -/
def decodeRepresentations : (rounds listSize : Nat) → (field : Bool) → Bytes → Effect ε (HpackTable × σ) Bytes
  | _, _, _, [] => pure []
  | 0, _, _, data => pure data
  | rounds + 1, listSize, field, byte :: rest => do
      let (table, s) ← get
      if byte &&& 0xe0 = 0x20 then
        if field then throw (refuse .sizeUpdateAfterField)
        else
          match decodeInteger 5 (byte :: rest) with
          | .error e => throw (refuse e)
          | .ok (maxSize, rest) =>
              match table.resize maxSize with
              | .error e => throw (refuse e)
              | .ok table => do
                  set (table, s)
                  decodeRepresentations rounds listSize field rest
      else
        match decodeField table byte (byte :: rest) with
        | .error e => throw (refuse e)
        | .ok (header, table, rest) => do
            set (table, s)
            let listSize := listSize + header.size
            if listSize > hpackMaxHeaderListSize then throw (refuse .listAboveAccepted)
            else
              Effect.second (callback header)
              decodeRepresentations rounds listSize true rest

/-- Decodes a block, handing each field to the callback; what is left unread of it is given back. -/
def decodeHpack (data : Bytes) : Effect ε (HpackTable × σ) Bytes :=
  decodeRepresentations callback refuse data.length 0 false data

end Decode

/-- Encodes a field, as an index when one of the tables holds it. -/
def encodeHpack (bufferSize : Nat) (header : HpackHeader) (indexing : Bool) :
    Effect HpackError (HpackTable × Bytes) Unit := do
  let (table, _) ← get
  let (index, complete) := table.find header
  if complete then Effect.second (encodeInteger bufferSize 7 0x80 index)
  else
    Effect.second (if indexing then encodeInteger bufferSize 6 0x40 index else encodeInteger bufferSize 4 0x00 index)
    Effect.second (if index = 0 then encodeString bufferSize header.name else pure ())
    Effect.second (encodeString bufferSize header.value)
    if indexing then modify fun (table, buffer) => (table.insert header, buffer)

end Viriatum
