import Viriatum.Library.BitStrings

/-!
# Bit streams

A stream of bits over a stream of bytes: words of some bits are written and read through a buffer, and what has been
read can be gone back over.
-/

namespace Viriatum

/-! ## The stream below -/

/-- An open file. -/
structure FileStream where
  contents : List UInt8
  position : Nat
deriving DecidableEq, Repr

namespace FileStream

variable (s : FileStream)

/-- `fread` hands back fewer bytes than asked for only at the end of the file. -/
def readFileStream (size : Nat) : FileStream × List UInt8 :=
  let data := (s.contents.drop s.position).take size
  ({ s with position := s.position + data.length }, data)

def writeFileStream (data : List UInt8) : FileStream :=
  { contents := s.contents.take s.position ++ data ++ s.contents.drop (s.position + data.length)
    position := s.position + data.length }

/-- `fseek` refuses a place before the start. -/
def seekFileStream (target : Int) : FileStream := if target < 0 then s else { s with position := target.toNat }

def tellFileStream : Nat := s.position

end FileStream

/-! ## The bit stream -/

def bitStreamItemSize : Nat := 8

def bitStreamBufferSize : Nat := 4096

def masks : List Nat := [0x00, 0x01, 0x03, 0x07, 0x0f, 0x1f, 0x3f, 0x7f, 0xff]

/-- The counter of the bytes to be read goes below zero at the end of the file. -/
structure BitStream where
  stream : FileStream
  buffer : List UInt8
  currentByteRead : UInt8
  currentByteWrite : UInt8
  currentByteOffsetRead : Nat
  currentByteOffsetWrite : Nat
  byteCounterRead : Int
  byteCurrentRead : Nat
  byteCounterWrite : Nat
deriving DecidableEq, Repr

/-- The buffer comes from `MALLOC` with anything in it. -/
def createBitStream (buffer : Fin bitStreamBufferSize → UInt8) (stream : FileStream) : BitStream where
  stream := stream
  buffer := List.ofFn buffer
  currentByteRead := 0
  currentByteWrite := 0
  currentByteOffsetRead := 0
  currentByteOffsetWrite := 0
  byteCounterRead := 0
  byteCurrentRead := 0
  byteCounterWrite := 0

namespace BitStream

variable (s : BitStream)

/-- Puts bytes into the buffer at its start. -/
def fillBuffer (data : List UInt8) : List UInt8 := data ++ s.buffer.drop data.length

/-! ### Reading -/

/-- `_read_bit_stream` -/
def readBuffer : BitStream :=
  let (stream, data) := s.stream.readFileStream bitStreamBufferSize
  { s with stream, buffer := s.fillBuffer data, byteCounterRead := data.length, byteCurrentRead := 0 }

def flushReadBitStream : Option BitStream :=
  if s.currentByteOffsetRead ≠ 0 then some s
  else do
    let s := if s.byteCounterRead = 0 then s.readBuffer else s
    let byte ← s.buffer[s.byteCurrentRead]?
    some { s with
      currentByteRead := byte
      byteCounterRead := s.byteCounterRead - 1
      byteCurrentRead := s.byteCurrentRead + 1
      currentByteOffsetRead := bitStreamItemSize }

/-- A shift by more than the bits of a byte has no meaning. -/
def readByteBitStream (size : Nat) : Option (BitStream × Nat) :=
  if size = 0 then some (s, 0)
  else do
    let s ← s.flushReadBitStream
    let available := s.currentByteOffsetRead
    let extra := if size > available then size - available else 0
    let size := if size > available then available else size
    let byte := (s.currentByteRead.toNat >>> (available - size)) &&& masks.getD size 0
    let s := { s with currentByteOffsetRead := available - size }
    if extra = 0 then some (s, byte)
    else do
      let s ← s.flushReadBitStream
      if extra > s.currentByteOffsetRead then none
      else
        let byte := (byte <<< extra ||| s.currentByteRead.toNat >>> (s.currentByteOffsetRead - extra)) % 256
        some ({ s with currentByteOffsetRead := s.currentByteOffsetRead - extra }, byte)

def readWordBitStream (size : Nat) : Option (BitStream × Nat) := do
  let (s, upper) ← if size > bitStreamItemSize then s.readByteBitStream (size - bitStreamItemSize) else some (s, 0)
  let (s, lower) ← s.readByteBitStream (if size > bitStreamItemSize then bitStreamItemSize else size)
  some (s, (lower + upper <<< bitStreamItemSize) % 65536)

/-! ### Going back -/

/-- The bytes to go back over, and the offset in the byte that they lead to. -/
def seekTarget (remaining : Nat) : Nat × Nat :=
  if remaining % bitStreamItemSize = 0 then (remaining / bitStreamItemSize, bitStreamItemSize)
  else (remaining / bitStreamItemSize + 1, remaining % bitStreamItemSize)

def seekBitStream (size : Nat) : Option BitStream :=
  let available := bitStreamItemSize - s.currentByteOffsetRead
  if size = 0 then some s
  else if size < available then
    some { s with currentByteOffsetRead := (s.currentByteOffsetRead + size) % 256 }
  else do
    let (byteCount, offsetFirst) := seekTarget (size - available)
    let moved :=
      if byteCount ≥ s.byteCurrentRead then
        let totalRead : Int := s.byteCurrentRead + s.byteCounterRead
        let diffRead : Int := s.byteCurrentRead - byteCount + 1
        let stream := s.stream.seekFileStream (s.stream.tellFileStream - (totalRead + diffRead))
        let (stream, data) := stream.readFileStream bitStreamBufferSize
        { s with stream, buffer := s.fillBuffer data, byteCounterRead := data.length - 1, byteCurrentRead := 1 }
      else
        { s with
          byteCurrentRead := s.byteCurrentRead - byteCount % 256
          byteCounterRead := s.byteCounterRead + (byteCount % 256 : Nat) }
    let byte ← moved.buffer[moved.byteCurrentRead - 1]?
    some { moved with currentByteRead := byte, currentByteOffsetRead := offsetFirst }

/-! ### Writing -/

/-- `_write_bit_stream` -/
def writeBuffer : Option BitStream := do
  let s ← if s.currentByteOffsetWrite > 0 then
      if s.byteCounterWrite < s.buffer.length ∧ s.currentByteOffsetWrite ≤ bitStreamItemSize then
        some { s with
          buffer := s.buffer.set s.byteCounterWrite
            (UInt8.ofNat (s.currentByteWrite.toNat <<< (bitStreamItemSize - s.currentByteOffsetWrite)))
          byteCounterWrite := s.byteCounterWrite + 1
          currentByteOffsetWrite := 0
          currentByteWrite := 0 }
      else none
    else some s
  some { s with stream := s.stream.writeFileStream (s.buffer.take s.byteCounterWrite), byteCounterWrite := 0 }

def flushWriteBitStream : Option BitStream :=
  if s.currentByteOffsetWrite ≠ bitStreamItemSize then some s
  else if s.byteCounterWrite < s.buffer.length then
    let s := { s with
      buffer := s.buffer.set s.byteCounterWrite s.currentByteWrite
      byteCounterWrite := s.byteCounterWrite + 1
      currentByteOffsetWrite := 0
      currentByteWrite := 0 }
    if s.byteCounterWrite = bitStreamBufferSize then s.writeBuffer else some s
  else none

/-- The counts are of eight bits; a shift by all the bits of an integer has no meaning. -/
def writeByteBitStream (byte size : Nat) : Option BitStream :=
  let available := (bitStreamItemSize + 256 - s.currentByteOffsetWrite) % 256
  let extra := if size > available then size - available else 0
  let written := if size > available then available else size
  if size = 0 then some s
  else if written > 31 ∨ extra > 30 then none
  else do
    let s ← { s with
      currentByteWrite := UInt8.ofNat (s.currentByteWrite.toNat <<< written ||| byte >>> extra)
      currentByteOffsetWrite := (s.currentByteOffsetWrite + written) % 256 : BitStream }.flushWriteBitStream
    if extra = 0 then some s
    else
      some { s with
        currentByteWrite := UInt8.ofNat (s.currentByteWrite.toNat ||| byte &&& (1 <<< extra - 1))
        currentByteOffsetWrite := (s.currentByteOffsetWrite + extra) % 256 }

def writeWordBitStream (word size : Nat) : Option BitStream := do
  let s ← if size > bitStreamItemSize then s.writeByteBitStream (word >>> 8 % 256) (size - bitStreamItemSize) else some s
  s.writeByteBitStream (word &&& 0x00ff) (if size > bitStreamItemSize then bitStreamItemSize else size)

/-- Closes the stream; what is left is the file. -/
def closeBitStream : Option (List UInt8) := do
  let s ← s.writeBuffer
  some s.stream.contents

end BitStream

end Viriatum
