import Mathlib.Data.List.Induction
import Mathlib.Data.Nat.Bitwise

/-!
# Numbers as sequences of bits

The bits of a number, the most significant one first, and the number that a sequence of bits stands for.
-/

namespace Viriatum.Library

/-- The `n` low bits of `v`, the most significant one first. -/
def toBits : Nat → Nat → List Bool
  | 0, _ => []
  | n + 1, v => v.testBit n :: toBits n v

/-- The number whose bits are the given ones, the most significant one first. -/
def ofBits (bits : List Bool) : Nat := bits.foldl (fun v b => 2 * v + b.toNat) 0

@[simp] theorem toBits_zero (v : Nat) : toBits 0 v = [] := rfl

@[simp] theorem toBits_length (n v : Nat) : (toBits n v).length = n := by
  induction n with
  | zero => rfl
  | succ n ih => simp [toBits, ih]

/-- Two numbers that agree on their `n` low bits have the same sequence of them. -/
theorem toBits_congr {n v w : Nat} (h : ∀ i < n, v.testBit i = w.testBit i) : toBits n v = toBits n w := by
  induction n with
  | zero => rfl
  | succ n ih =>
      simp only [toBits]
      rw [h n (by omega), ih fun i hi => h i (by omega)]

theorem toBits_mod (n v : Nat) : toBits n (v % 2 ^ n) = toBits n v :=
  toBits_congr fun i hi => by simp [Nat.testBit_mod_two_pow, hi]

/-- The high bits of a number followed by its low ones. -/
theorem toBits_add (m n v : Nat) : toBits (m + n) v = toBits m (v / 2 ^ n) ++ toBits n v := by
  induction m with
  | zero => simp
  | succ m ih =>
      rw [show m + 1 + n = (m + n) + 1 by omega]
      simp only [toBits, List.cons_append, ih, Nat.testBit_div_two_pow]

/-- A number shifted to the left makes room for the bits that are put below it. -/
theorem toBits_shiftLeft_or {m n v w : Nat} (hw : w < 2 ^ n) :
    toBits (m + n) (v <<< n ||| w) = toBits m v ++ toBits n w := by
  rw [toBits_add]
  congr 1
  · refine toBits_congr fun i _ => ?_
    have hwi : w.testBit (i + n) = false :=
      Nat.testBit_lt_two_pow (Nat.lt_of_lt_of_le hw (Nat.pow_le_pow_right (by omega) (by omega)))
    simp [Nat.testBit_div_two_pow, Nat.testBit_shiftLeft, hwi]
  · refine toBits_congr fun i hi => ?_
    simp [Nat.testBit_shiftLeft, Nat.not_le.mpr hi]

theorem toBits_take {k n : Nat} (v : Nat) (h : k ≤ n) : (toBits n v).take k = toBits k (v / 2 ^ (n - k)) := by
  have hn : n = k + (n - k) := by omega
  conv_lhs => rw [hn, toBits_add]
  simp

theorem ofBits_append (xs ys : List Bool) : ofBits (xs ++ ys) = ys.foldl (fun v b => 2 * v + b.toNat) (ofBits xs) := by
  simp [ofBits, List.foldl_append]

@[simp] theorem ofBits_nil : ofBits [] = 0 := rfl

@[simp] theorem ofBits_concat (xs : List Bool) (b : Bool) : ofBits (xs ++ [b]) = 2 * ofBits xs + b.toNat := by
  simp [ofBits_append]

theorem ofBits_lt (bits : List Bool) : ofBits bits < 2 ^ bits.length := by
  induction bits using List.reverseRecOn with
  | nil => simp
  | append_singleton xs b ih =>
      rw [ofBits_concat, List.length_append, List.length_singleton, Nat.pow_succ]
      have hb : b.toNat ≤ 1 := Bool.toNat_le b
      omega

/-- The number that the `n` low bits of `v` stand for. -/
theorem ofBits_toBits (n v : Nat) : ofBits (toBits n v) = v % 2 ^ n := by
  induction n generalizing v with
  | zero => simp [Nat.mod_one]
  | succ n ih =>
      rw [toBits_add n 1 v, show toBits 1 v = [v.testBit 0] from rfl, ofBits_concat, ih]
      have hb : (v.testBit 0).toNat = v % 2 := by
        rw [Nat.testBit_zero]
        rcases Nat.mod_two_eq_zero_or_one v with h | h <;> simp [h]
      rw [hb, pow_one, Nat.pow_succ, Nat.mul_comm (2 ^ n) 2, Nat.mod_mul]
      omega

theorem toBits_ofBits (bits : List Bool) : toBits bits.length (ofBits bits) = bits := by
  induction bits using List.reverseRecOn with
  | nil => rfl
  | append_singleton xs b ih =>
      rw [ofBits_concat, List.length_append, List.length_singleton, toBits_add]
      have hd : (2 * ofBits xs + b.toNat) / 2 ^ 1 = ofBits xs := by
        have := Bool.toNat_le b
        omega
      rw [hd, ih]
      cases b <;> simp [toBits, Nat.testBit_zero, Nat.add_mod]

/-! ## Tables packed into a number -/

/-- A table of digits as one number, the first digit the lowest one. -/
def packed (base : Nat) (digits : List Nat) : Nat := digits.foldr (fun digit rest => digit + base * rest) 0

def digitAt (base number index : Nat) : Nat := number / base ^ index % base

theorem digitAt_packed {base : Nat} {digits : List Nat} (h : ∀ digit ∈ digits, digit < base) (index : Nat) :
    digitAt base (packed base digits) index = digits.getD index 0 := by
  induction digits generalizing index with
  | nil => simp [digitAt, packed]
  | cons digit digits ih =>
      have hdigit := h digit List.mem_cons_self
      cases index with
      | zero =>
          rw [digitAt, Nat.pow_zero, Nat.div_one, packed, List.foldr_cons, Nat.add_mul_mod_self_left,
            Nat.mod_eq_of_lt hdigit]
          rfl
      | succ index =>
          have hrest := ih (fun digit hmem => h digit (List.mem_cons_of_mem _ hmem)) index
          rw [digitAt, packed, List.foldr_cons, Nat.pow_succ', ← Nat.div_div_eq_div_mul,
            Nat.add_mul_div_left _ _ (Nat.zero_lt_of_lt hdigit), Nat.div_eq_of_lt hdigit, Nat.zero_add]
          exact hrest

end Viriatum.Library
