import Mathlib.Algebra.Group.Nat.Defs
import Mathlib.Data.List.Basic

/-!
# Texts in base 64

The decoding of a text of base 64: groups of four digits of six bits, the last of which may be padded.
-/

namespace Viriatum.Library.Base64

/-- The value of a digit. -/
def digit (byte : UInt8) : Option Nat :=
  if 65 ≤ byte ∧ byte ≤ 90 then some (byte.toNat - 65)
  else if 97 ≤ byte ∧ byte ≤ 122 then some (byte.toNat - 71)
  else if 48 ≤ byte ∧ byte ≤ 57 then some (byte.toNat + 4)
  else if byte = 43 then some 62
  else if byte = 47 then some 63
  else none

def pad : UInt8 := 61

/-- The bits of four digits. -/
def group (a b c d : Nat) : Nat := a * 2 ^ 18 + b * 2 ^ 12 + c * 2 ^ 6 + d

/-- The bytes of the bits of a group. -/
def groupBytes (number : Nat) : List UInt8 :=
  [UInt8.ofNat (number / 2 ^ 16), UInt8.ofNat (number / 2 ^ 8), UInt8.ofNat number]

/-- The bytes that a text stands for, if it is a text of base 64. -/
def decode : List UInt8 → Option (List UInt8)
  | [] => some []
  | a :: b :: c :: d :: rest => do
      let a ← digit a
      let b ← digit b
      if rest = [] ∧ c = pad ∧ d = pad then some ((groupBytes (group a b 0 0)).take 1)
      else
        let c ← digit c
        if rest = [] ∧ d = pad then some ((groupBytes (group a b c 0)).take 2)
        else
          let d ← digit d
          let data ← decode rest
          some (groupBytes (group a b c d) ++ data)
  | _ => none

@[simp] theorem digit_pad : digit pad = none := rfl

theorem ne_pad_of_digit {byte : UInt8} {value : Nat} (h : digit byte = some value) : byte ≠ pad := by
  rintro rfl
  rw [digit_pad] at h
  cases h

/-- The first group of a text that is decoded. -/
theorem decode_cons {a b c d : UInt8} {rest data : List UInt8} (h : decode (a :: b :: c :: d :: rest) = some data) :
    ∃ a' b', digit a = some a' ∧ digit b = some b' ∧
      (rest = [] ∧ c = pad ∧ d = pad ∧ data = (groupBytes (group a' b' 0 0)).take 1 ∨
        ∃ c', digit c = some c' ∧
          (rest = [] ∧ d = pad ∧ data = (groupBytes (group a' b' c' 0)).take 2 ∨
            ∃ d' data', digit d = some d' ∧ decode rest = some data' ∧
              data = groupBytes (group a' b' c' d') ++ data')) := by
  simp only [decode, Option.bind_eq_bind, Option.bind_eq_some_iff] at h
  obtain ⟨a', ha, b', hb, h⟩ := h
  refine ⟨a', b', ha, hb, ?_⟩
  split at h
  case isTrue hpadding =>
    cases h
    exact Or.inl ⟨hpadding.1, hpadding.2.1, hpadding.2.2, rfl⟩
  case isFalse =>
    simp only [Option.bind_eq_some_iff] at h
    obtain ⟨c', hc, h⟩ := h
    refine Or.inr ⟨c', hc, ?_⟩
    split at h
    case isTrue hpadding =>
      cases h
      exact Or.inl ⟨hpadding.1, hpadding.2, rfl⟩
    case isFalse =>
      simp only [Option.bind_eq_some_iff] at h
      obtain ⟨d', hd, data', hrest, h⟩ := h
      cases h
      exact Or.inr ⟨d', data', hd, hrest, rfl⟩

theorem ne_zero_of_digit {byte : UInt8} {value : Nat} (h : digit byte = some value) : byte ≠ 0 := by
  rintro rfl
  cases h

/-- A text has no zero byte. -/
theorem not_mem_zero {text data : List UInt8} (h : decode text = some data) : 0 ∉ text := by
  have hpad : (0 : UInt8) ≠ pad := by decide
  induction text using decode.induct generalizing data with
  | case1 => simp
  | case2 a b c d rest ih =>
      obtain ⟨a', b', ha, hb, hlast | ⟨c', hc, hlast | ⟨d', data', hd, hrest, _⟩⟩⟩ := decode_cons h
      · obtain ⟨rfl, rfl, rfl, _⟩ := hlast
        simp [(ne_zero_of_digit ha).symm, (ne_zero_of_digit hb).symm, hpad]
      · obtain ⟨rfl, rfl, _⟩ := hlast
        simp [(ne_zero_of_digit ha).symm, (ne_zero_of_digit hb).symm, (ne_zero_of_digit hc).symm, hpad]
      · simp [(ne_zero_of_digit ha).symm, (ne_zero_of_digit hb).symm, (ne_zero_of_digit hc).symm,
          (ne_zero_of_digit hd).symm, ih hrest]
  | case3 text hne hshort =>
      rw [decode] at h
      · cases h
      · exact hne
      · exact hshort

/-- How a text that is not empty ends: in three bytes behind at least another one, up to two of them padding. -/
structure Ends (text data front : List UInt8) (b c d : UInt8) (count : Nat) : Prop where
  text_eq : text = front ++ [b, c, d]
  front_ne : front ≠ []
  digit_ne : b ≠ pad
  padding : count = 0 ∧ d ≠ pad ∨ count = 1 ∧ d = pad ∧ c ≠ pad ∨ count = 2 ∧ d = pad ∧ c = pad
  length : data.length + count = 3 * (text.length / 4)

theorem Ends.count_le {text data front : List UInt8} {b c d : UInt8} {count : Nat}
    (h : Ends text data front b c d count) : count ≤ 2 := by
  rcases h.padding with ⟨rfl, _⟩ | ⟨rfl, _⟩ | ⟨rfl, _⟩ <;> omega

theorem Ends.prepend {text data front : List UInt8} {b c d : UInt8} {count : Nat}
    (h : Ends text data front b c d count) (w x y z : UInt8) (number : Nat) :
    Ends (w :: x :: y :: z :: text) (groupBytes number ++ data) (w :: x :: y :: z :: front) b c d count where
  text_eq := by rw [h.text_eq]; rfl
  front_ne := by simp
  digit_ne := h.digit_ne
  padding := h.padding
  length := by
    have := h.length
    simp only [groupBytes, List.length_cons, List.cons_append, List.nil_append]
    omega

theorem ends_of_decode {text data : List UInt8} (h : decode text = some data) (hne : text ≠ []) :
    ∃ front b c d count, Ends text data front b c d count := by
  induction text using decode.induct generalizing data with
  | case1 => exact absurd rfl hne
  | case2 a b c d rest ih =>
      obtain ⟨a', b', _, hb, hlast | ⟨c', hc, hlast | ⟨d', data', hd, hrest, rfl⟩⟩⟩ := decode_cons h
      · obtain ⟨rfl, rfl, rfl, rfl⟩ := hlast
        exact ⟨[a], b, _, _, 2, rfl, by simp, ne_pad_of_digit hb, by simp, by simp [groupBytes]⟩
      · obtain ⟨rfl, rfl, rfl⟩ := hlast
        exact ⟨[a], b, c, _, 1, rfl, by simp, ne_pad_of_digit hb, by simp [ne_pad_of_digit hc], by simp [groupBytes]⟩
      · by_cases hnil : rest = []
        · subst hnil
          cases hrest
          exact ⟨[a], b, c, d, 0, rfl, by simp, ne_pad_of_digit hb, by simp [ne_pad_of_digit hd], by simp [groupBytes]⟩
        · obtain ⟨front, x, y, z, count, hends⟩ := ih hrest hnil
          exact ⟨_, x, y, z, count, hends.prepend a b c d (group a' b' c' d')⟩
  | case3 text _ hshort =>
      rw [decode] at h
      · cases h
      · exact hne
      · exact hshort

/-! ## Encoding -/

/-- The digit of a value. -/
def character (value : Nat) : UInt8 :=
  if value < 26 then UInt8.ofNat (65 + value)
  else if value < 52 then UInt8.ofNat (71 + value)
  else if value < 62 then UInt8.ofNat (value - 4)
  else if value = 62 then 43
  else 47

/-- The four digits of the bits of a group. -/
def groupDigits (number : Nat) : List UInt8 :=
  [character (number / 2 ^ 18 % 64), character (number / 2 ^ 12 % 64), character (number / 2 ^ 6 % 64),
    character (number % 64)]

/-- The bits of three bytes. -/
def groupNumber (a b c : UInt8) : Nat := a.toNat * 2 ^ 16 + b.toNat * 2 ^ 8 + c.toNat

/-- The digits of the bytes, without the padding. -/
def digits : List UInt8 → List UInt8
  | [] => []
  | [a] => (groupDigits (groupNumber a 0 0)).take 2
  | [a, b] => (groupDigits (groupNumber a b 0)).take 3
  | a :: b :: c :: rest => groupDigits (groupNumber a b c) ++ digits rest

/-- How many bytes are missing in the last group of so many. -/
def padding (length : Nat) : Nat := (3 - length % 3) % 3

def encode (data : List UInt8) : List UInt8 := digits data ++ List.replicate (padding data.length) pad

theorem digit_character {value : Nat} (h : value < 64) : digit (character value) = some value := by
  have hall : ∀ value < 64, digit (character value) = some value := by decide
  exact hall value h

theorem groupBytes_groupNumber (a b c : UInt8) : groupBytes (groupNumber a b c) = [a, b, c] := by
  have ha := a.toNat_lt
  have hb := b.toNat_lt
  have hc := c.toNat_lt
  have hfirst : groupNumber a b c / 2 ^ 16 = a.toNat := by
    rw [groupNumber]
    omega
  have hsecond : groupNumber a b c / 2 ^ 8 % 256 = b.toNat := by
    rw [groupNumber]
    omega
  have hthird : groupNumber a b c % 256 = c.toNat := by
    rw [groupNumber]
    omega
  have hmod : ∀ n : Nat, UInt8.ofNat n = UInt8.ofNat (n % 256) := fun n => UInt8.ofNat_mod_size.symm
  rw [groupBytes, hfirst, hmod (_ / 2 ^ 8), hsecond, hmod (groupNumber a b c), hthird]
  simp

/-- The values of the digits of a group make up the group. -/
theorem group_digits {number : Nat} (h : number < 2 ^ 24) :
    group (number / 2 ^ 18 % 64) (number / 2 ^ 12 % 64) (number / 2 ^ 6 % 64) (number % 64) = number := by
  rw [group]
  omega

theorem groupNumber_lt (a b c : UInt8) : groupNumber a b c < 2 ^ 24 := by
  have ha := a.toNat_lt
  have hb := b.toNat_lt
  have hc := c.toNat_lt
  rw [groupNumber]
  omega

theorem decode_groupDigits {number : Nat} (h : number < 2 ^ 24) (rest : List UInt8) :
    decode (groupDigits number ++ rest) = (decode rest).map (groupBytes number ++ ·) := by
  have hmod : ∀ n : Nat, n % 64 < 64 := fun n => Nat.mod_lt n (by decide)
  have hthird := ne_pad_of_digit (digit_character (hmod (number / 2 ^ 6)))
  have hfourth := ne_pad_of_digit (digit_character (hmod number))
  simp only [groupDigits, List.cons_append, List.nil_append, decode, digit_character (hmod _), Option.bind_eq_bind,
    Option.bind_some, hthird, hfourth, and_false, if_false, group_digits h]
  cases decode rest <;> rfl

/-- What is encoded is decoded again. -/
theorem decode_encode (data : List UInt8) : decode (encode data) = some data := by
  have hmod : ∀ n : Nat, n % 64 < 64 := fun n => Nat.mod_lt n (by decide)
  induction data using digits.induct with
  | case1 => rfl
  | case2 a =>
      have hlow : group (groupNumber a 0 0 / 2 ^ 18 % 64) (groupNumber a 0 0 / 2 ^ 12 % 64) 0 0 = groupNumber a 0 0 := by
        have ha := a.toNat_lt
        simp only [group, groupNumber, UInt8.toNat_zero]
        omega
      have hbytes := groupBytes_groupNumber a 0 0
      simp [encode, digits, padding, groupDigits, decode, digit_character (hmod _), hlow, hbytes, pad, -Nat.reducePow]
  | case3 a b =>
      have hlow : group (groupNumber a b 0 / 2 ^ 18 % 64) (groupNumber a b 0 / 2 ^ 12 % 64) (groupNumber a b 0 / 2 ^ 6 % 64)
          0 = groupNumber a b 0 := by
        have ha := a.toNat_lt
        have hb := b.toNat_lt
        simp only [group, groupNumber, UInt8.toNat_zero]
        omega
      have hbytes := groupBytes_groupNumber a b 0
      have hthird := ne_pad_of_digit (digit_character (hmod (groupNumber a b 0 / 2 ^ 6)))
      simp [encode, digits, padding, groupDigits, decode, digit_character (hmod _), hlow, hbytes, hthird, -Nat.reducePow]
  | case4 a b c rest ih =>
      have hpadding : padding (a :: b :: c :: rest).length = padding rest.length := by
        simp only [padding, List.length_cons]
        omega
      rw [encode, hpadding, digits, List.append_assoc, decode_groupDigits (groupNumber_lt a b c), ← encode, ih,
        groupBytes_groupNumber]
      rfl

theorem length_digits (data : List UInt8) : (digits data).length + padding data.length = (data.length + 2) / 3 * 4 := by
  induction data using digits.induct with
  | case1 => rfl
  | case2 a => simp [digits, groupDigits, padding]
  | case3 a b => simp [digits, groupDigits, padding]
  | case4 a b c rest ih =>
      simp only [digits, groupDigits, padding, List.length_append, List.length_cons, List.length_nil] at ih ⊢
      omega

theorem length_encode (data : List UInt8) : (encode data).length = (data.length + 2) / 3 * 4 := by
  rw [encode, List.length_append, List.length_replicate, length_digits]

/-- A text that is decoded is digits with up to two bytes of padding behind them. -/
structure Padded (text data digits : List UInt8) (count : Nat) : Prop where
  text_eq : text = digits ++ List.replicate count pad
  plain : pad ∉ digits
  count_le : count ≤ 2
  groups : 4 ∣ text.length
  length : data.length + count = 3 * (text.length / 4)

theorem padded_of_decode {text data : List UInt8} (h : decode text = some data) :
    ∃ digits count, Padded text data digits count := by
  have hplain : ∀ {byte : UInt8} {value : Nat}, digit byte = some value → pad ≠ byte :=
    fun hdigit => (ne_pad_of_digit hdigit).symm
  induction text using decode.induct generalizing data with
  | case1 =>
      cases h
      exact ⟨[], 0, rfl, by simp, by simp, by simp, rfl⟩
  | case2 a b c d rest ih =>
      obtain ⟨a', b', ha, hb, hlast | ⟨c', hc, hlast | ⟨d', data', hd, hrest, rfl⟩⟩⟩ := decode_cons h
      · obtain ⟨rfl, rfl, rfl, rfl⟩ := hlast
        exact ⟨[a, b], 2, rfl, by simp [hplain ha, hplain hb], Nat.le_refl 2, by simp, by simp [groupBytes]⟩
      · obtain ⟨rfl, rfl, rfl⟩ := hlast
        exact ⟨[a, b, c], 1, rfl, by simp [hplain ha, hplain hb, hplain hc], by simp, by simp, by simp [groupBytes]⟩
      · obtain ⟨digits, count, hpadded⟩ := ih hrest
        have hgroups := hpadded.groups
        have hlength := hpadded.length
        refine ⟨a :: b :: c :: d :: digits, count, ?_, ?_, hpadded.count_le, ?_, ?_⟩
        · rw [hpadded.text_eq]
          rfl
        · simp [hplain ha, hplain hb, hplain hc, hplain hd, hpadded.plain]
        · simp only [List.length_cons]
          omega
        · simp only [groupBytes, List.length_append, List.length_cons, List.length_nil]
          omega
  | case3 text hne hshort =>
      rw [decode] at h
      · cases h
      · exact hne
      · exact hshort

end Viriatum.Library.Base64
