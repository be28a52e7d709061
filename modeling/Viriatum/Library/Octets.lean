import Mathlib.Data.List.Induction
import Mathlib.Tactic.Ring

/-!
# Octets

Numbers as sequences of octets in network order, the most significant one first.
-/

namespace Viriatum.Library

/-- What holds of the two hundred and fifty six values holds of every byte. -/
theorem forall_byte {p : UInt8 → Prop} (h : ∀ n : Fin 256, p (UInt8.ofNat n)) (b : UInt8) : p b := by
  have hb := h ⟨b.toNat, b.toNat_lt⟩
  rwa [UInt8.ofNat_toNat] at hb

/-- The low octets of a number, of which there are `width`. -/
def octets : (width : Nat) → Nat → List UInt8
  | 0, _ => []
  | width + 1, n => octets width (n / 256) ++ [UInt8.ofNat n]

/-- The number that the octets stand for. -/
def ofOctets (data : List UInt8) : Nat := data.foldl (fun n byte => n * 256 + byte.toNat) 0

/-- The word of four bytes, the lowest one first, at an index among the words of a block. -/
def wordAt (block : List UInt8) (index : Nat) : UInt32 :=
  UInt32.ofNat (ofOctets ((block.drop (index * 4)).take 4).reverse)

@[simp] theorem length_octets (width n : Nat) : (octets width n).length = width := by
  induction width generalizing n with
  | zero => rfl
  | succ width ih => simp [octets, ih]

@[simp] theorem ofOctets_concat (data : List UInt8) (byte : UInt8) :
    ofOctets (data ++ [byte]) = ofOctets data * 256 + byte.toNat := by
  simp [ofOctets]

theorem ofOctets_octets (width n : Nat) : ofOctets (octets width n) = n % 256 ^ width := by
  induction width generalizing n with
  | zero => simp [octets, ofOctets, Nat.mod_one]
  | succ width ih =>
      rw [octets, ofOctets_concat, ih, Nat.pow_succ', Nat.mod_mul, UInt8.toNat_ofNat']
      ring

theorem octets_ofOctets (data : List UInt8) : octets data.length (ofOctets data) = data := by
  induction data using List.reverseRecOn with
  | nil => rfl
  | append_singleton data byte ih =>
      have hlow : (ofOctets data * 256 + byte.toNat) / 256 = ofOctets data := by
        have := byte.toNat_lt
        omega
      have hbyte : UInt8.ofNat (ofOctets data * 256 + byte.toNat) = byte := by
        apply UInt8.toNat.inj
        have := byte.toNat_lt
        rw [UInt8.toNat_ofNat']
        omega
      rw [List.length_append, List.length_singleton, octets, ofOctets_concat, hlow, ih, hbyte]

theorem octets_mod (width n : Nat) : octets width (n % 256 ^ width) = octets width n := by
  have hdata := octets_ofOctets (octets width n)
  rwa [length_octets, ofOctets_octets] at hdata

/-- The high octets of a number come before the low ones. -/
theorem octets_add (high low n : Nat) : octets (high + low) n = octets high (n / 256 ^ low) ++ octets low n := by
  induction low generalizing n with
  | zero => simp [octets]
  | succ low ih =>
      rw [← Nat.add_assoc, octets, octets, ih, Nat.div_div_eq_div_mul, Nat.pow_succ', List.append_assoc]

/-- A number of two words in their octets. -/
theorem octets_eight {n low high : Nat} (hlow : low < 2 ^ 32) (h : n % 2 ^ 64 = low + 2 ^ 32 * high) :
    octets 8 n = octets 4 high ++ octets 4 low := by
  have hdiv : (low + 2 ^ 32 * high) / 256 ^ 4 = high := by omega
  have hmod : (low + 2 ^ 32 * high) % 256 ^ 4 = low := by omega
  rw [← octets_mod 8, show 256 ^ 8 = 2 ^ 64 from rfl, h, octets_add 4 4, hdiv, ← octets_mod 4 (low + 2 ^ 32 * high), hmod]

theorem ofOctets_lt (data : List UInt8) : ofOctets data < 256 ^ data.length := by
  induction data using List.reverseRecOn with
  | nil => simp [ofOctets]
  | append_singleton data byte ih =>
      have := byte.toNat_lt
      rw [List.length_append, List.length_singleton, ofOctets_concat, Nat.pow_succ]
      omega

end Viriatum.Library
