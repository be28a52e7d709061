import Viriatum.Library.Octets

/-!
# The parts of a text that are texts

Where the form of a text in UTF-8 may be cut: at its end, and before each byte that starts the form of a character.
-/

namespace Viriatum.Library

/-- The bytes are the form of some characters. -/
def Utf8 (data : List UInt8) : Prop := data.toByteArray.IsValidUTF8

instance (data : List UInt8) : Decidable (Utf8 data) := inferInstanceAs (Decidable data.toByteArray.IsValidUTF8)

/-- A byte of the form of a character, other than its first one. -/
def Continues (byte : UInt8) : Prop := byte &&& 0xc0 = 0x80

instance (byte : UInt8) : Decidable (Continues byte) := inferInstanceAs (Decidable (_ = _))

/-- The bytes that continue a character, over all of their values. -/
theorem continuing_bytes :
    (∀ n : Fin 256, Continues (UInt8.ofNat n) → ¬ (UInt8.ofNat n).IsUTF8FirstByte) ∧
      ∀ n < 64, Continues (UInt8.ofNat n + 128) := by
  decide +kernel

theorem not_first_of_continues (byte : UInt8) : Continues byte → ¬ byte.IsUTF8FirstByte := by
  revert byte
  exact forall_byte continuing_bytes.1

theorem continues_low (n : Nat) : Continues (UInt8.ofNat (n % 64) + 128) :=
  continuing_bytes.2 (n % 64) (Nat.mod_lt n (by decide))

theorem tail_continues (c : Char) : ∀ byte ∈ (String.utf8EncodeChar c).tail, Continues byte := by
  unfold String.utf8EncodeChar
  simp only
  split_ifs <;> simp [continues_low]

namespace Utf8

variable {data : List UInt8}

/-- Each byte of a text either starts the form of a character or continues one. -/
theorem first_or_continues (h : Utf8 data) : ∀ byte ∈ data, byte.IsUTF8FirstByte ∨ Continues byte := by
  obtain ⟨chars, hchars⟩ := h
  rw [List.utf8Encode, List.toByteArray_inj] at hchars
  subst hchars
  intro byte hbyte
  obtain ⟨c, -, hc⟩ := List.mem_flatMap.mp hbyte
  have hfirst := UInt8.isUTF8FirstByte_getElem_zero_utf8EncodeChar (c := c)
  have htail := tail_continues c
  cases hencode : String.utf8EncodeChar c with
  | nil => simp [hencode] at hc
  | cons first rest =>
      simp only [hencode, List.getElem_cons_zero, List.tail_cons] at hfirst htail
      rw [hencode] at hc
      cases hc with
      | head => exact .inl hfirst
      | tail _ hrest => exact .inr (htail byte hrest)

theorem toByteArray_take (data : List UInt8) (k : Nat) : data.toByteArray.extract 0 k = (data.take k).toByteArray := by
  apply ByteArray.ext
  simp

/-- A front of a text is a text when nothing is left out of its last character. -/
theorem take_iff (h : Utf8 data) {k : Nat} (hk : k ≤ data.length) :
    Utf8 (data.take k) ↔ k = data.length ∨ ∃ hlt : k < data.length, data[k].IsUTF8FirstByte := by
  have hvalid := String.Pos.Raw.isValid_iff_isUTF8FirstByte (s := ⟨data.toByteArray, h⟩) (p := ⟨k⟩)
  rw [String.Pos.Raw.isValid_iff_isValidUTF8_extract_zero, toByteArray_take] at hvalid
  simpa [Utf8, String.Pos.Raw.le_iff, String.Pos.Raw.lt_iff, String.Pos.Raw.ext_iff, String.getUTF8Byte, hk,
    String.utf8ByteSize] using hvalid

/-- The front that ends before some bytes that continue is the longest one of its texts. -/
theorem le_of_continues (h : Utf8 data) {k n : Nat} (hn : n < data.length)
    (hcontinues : ∀ m, k < m → m ≤ n → Continues (data.getD m 0)) {j : Nat} (hj : j ≤ n) (hcut : Utf8 (data.take j)) :
    j ≤ k := by
  apply Nat.le_of_not_lt
  intro hkj
  have hlt : j < data.length := Nat.lt_of_le_of_lt hj hn
  have hbyte := hcontinues j hkj hj
  rw [List.getD_eq_getElem?_getD, List.getElem?_eq_getElem hlt, Option.getD_some] at hbyte
  cases (h.take_iff (Nat.le_of_lt hlt)).mp hcut with
  | inl heq => omega
  | inr hfirst =>
      obtain ⟨_, hfirst⟩ := hfirst
      exact not_first_of_continues _ hbyte hfirst

end Utf8

end Viriatum.Library
