import Viriatum.Library.Bits

/-!
# The bits of bytes

The bits of a sequence of bytes, the most significant one of each byte first.
-/

namespace Viriatum.Library

def octetBits (data : List UInt8) : List Bool := data.flatMap fun byte => toBits 8 byte.toNat

@[simp] theorem length_octetBits (data : List UInt8) : (octetBits data).length = 8 * data.length := by
  induction data with
  | nil => rfl
  | cons byte rest ih =>
      rw [octetBits, List.flatMap_cons, List.length_append, toBits_length, ← octetBits, ih, List.length_cons]
      omega

theorem octetBits_append (data rest : List UInt8) : octetBits (data ++ rest) = octetBits data ++ octetBits rest :=
  List.flatMap_append

theorem getElem?_toBits {n i : Nat} (v : Nat) (h : i < n) : (toBits n v)[i]? = some (v.testBit (n - 1 - i)) := by
  induction n generalizing i with
  | zero => cases h
  | succ n ih =>
      cases i with
      | zero => rfl
      | succ i =>
          have hindex : n + 1 - 1 - (i + 1) = n - 1 - i := by omega
          rw [toBits, List.getElem?_cons_succ, ih (Nat.lt_of_succ_lt_succ h), hindex]

theorem getElem?_octetBits (data : List UInt8) (index : Nat) {bit : Nat} (hbit : bit < 8) :
    (octetBits data)[8 * index + bit]? = (data[index]?).map fun byte => byte.toNat.testBit (7 - bit) := by
  induction data generalizing index with
  | nil => simp [octetBits]
  | cons byte rest ih =>
      rw [octetBits, List.flatMap_cons, ← octetBits]
      cases index with
      | zero =>
          rw [List.getElem?_append_left (by simpa using hbit), Nat.mul_zero, Nat.zero_add,
            getElem?_toBits byte.toNat hbit]
          rfl
      | succ index =>
          have hindex : 8 * (index + 1) + bit - (toBits 8 byte.toNat).length = 8 * index + bit := by
            rw [toBits_length]
            omega
          rw [List.getElem?_append_right (by rw [toBits_length]; omega), hindex, ih, List.getElem?_cons_succ]

theorem eq_ofBits {n v : Nat} (hv : v < 2 ^ n) : v = ofBits (toBits n v) := by
  rw [ofBits_toBits, Nat.mod_eq_of_lt hv]

theorem ofBits_append_mul (xs ys : List Bool) : ofBits (xs ++ ys) = ofBits xs * 2 ^ ys.length + ofBits ys := by
  induction ys using List.reverseRecOn with
  | nil => simp
  | append_singleton ys bit ih =>
      rw [← List.append_assoc, ofBits_concat, ofBits_concat, ih, List.length_append, List.length_singleton, Nat.pow_succ]
      calc 2 * (ofBits xs * 2 ^ ys.length + ofBits ys) + bit.toNat
          = ofBits xs * 2 ^ ys.length * 2 + (2 * ofBits ys + bit.toNat) := by omega
        _ = ofBits xs * (2 ^ ys.length * 2) + (2 * ofBits ys + bit.toNat) := by rw [Nat.mul_assoc]

/-- A number of so many bits is told by them. -/
theorem eq_ofBits_of_testBit {bits : List Bool} {v : Nat} (hv : v < 2 ^ bits.length)
    (h : ∀ i, i < bits.length → bits[i]? = some (v.testBit (bits.length - 1 - i))) : v = ofBits bits := by
  have hbits : toBits bits.length v = bits := by
    apply List.ext_getElem?
    intro i
    cases Nat.lt_or_ge i bits.length with
    | inl hlt => rw [getElem?_toBits v hlt, h i hlt]
    | inr hle => rw [List.getElem?_eq_none (by simpa using hle), List.getElem?_eq_none hle]
  rw [eq_ofBits hv, hbits]

/-- The low bits of a number are those of what is left of it below a power of two. -/
theorem toBits_mod_le {m n : Nat} (v : Nat) (h : m ≤ n) : toBits m (v % 2 ^ n) = toBits m v :=
  toBits_congr fun i hi => by simp [Nat.testBit_mod_two_pow, Nat.lt_of_lt_of_le hi h]

theorem toBits_ofNat_le {n : Nat} (v : Nat) (h : n ≤ 8) : toBits n (UInt8.ofNat v).toNat = toBits n v := by
  rw [UInt8.toNat_ofNat']
  exact toBits_mod_le v h

theorem toBits_shiftLeft (m n v : Nat) : toBits (m + n) (v <<< n) = toBits m v ++ List.replicate n false := by
  have hzero : toBits n 0 = List.replicate n false := by
    induction n with
    | zero => rfl
    | succ n ih => rw [toBits, ih, Nat.zero_testBit, List.replicate_succ]
  have hor := toBits_shiftLeft_or (m := m) (v := v) (Nat.two_pow_pos n)
  rwa [Nat.or_zero, hzero] at hor

end Viriatum.Library
