import Mathlib.Data.List.Basic

/-!
# Arrays of bytes of a fixed size
-/

namespace Viriatum.Library

/-- An array of `size` bytes. -/
structure FixedBuffer (size : Nat) where
  bytes : List UInt8
  length_bytes : bytes.length = size

namespace FixedBuffer

variable {size : Nat} (buffer : FixedBuffer size)

/-- Writing bytes from an offset on, all within the array. -/
def write (offset : Nat) (data : List UInt8) (h : offset + data.length ≤ size) : FixedBuffer size where
  bytes := buffer.bytes.take offset ++ data ++ buffer.bytes.drop (offset + data.length)
  length_bytes := by
    rw [List.length_append, List.length_append, List.length_take, List.length_drop, buffer.length_bytes]
    omega

/-- What stands before the end of what has been written. -/
theorem take_write {n offset : Nat} {data : List UInt8} (h : offset + data.length ≤ size)
    (hn : n = offset + data.length) : (buffer.write offset data h).bytes.take n = buffer.bytes.take offset ++ data := by
  have hend : (buffer.bytes.take offset ++ data).length = n := by
    rw [List.length_append, List.length_take, buffer.length_bytes]
    omega
  rw [write, List.take_left' hend]

theorem write_full {offset : Nat} {data : List UInt8} (h : offset + data.length ≤ size)
    (hfull : offset + data.length = size) : (buffer.write offset data h).bytes = buffer.bytes.take offset ++ data := by
  have htake := buffer.take_write h hfull.symm
  rwa [List.take_of_length_le (by simp [length_bytes])] at htake

end FixedBuffer

end Viriatum.Library
