import Viriatum.Http.Huffman
import Viriatum.Library.Base64

/-!
# The decoder of base 64

The decoder takes any bytes for digits and never refuses a text; one whose length or padding does not add up makes it
leave its buffers.
-/

namespace Viriatum

open Library

/-- What a run of the code may not do: to leave a buffer, or to use what has never been set. -/
inductive Fault where
  | outOfBounds
  | unset
deriving DecidableEq, Repr

/-- The value of a digit; any other byte stands for zero. -/
def lookupFastBase64 (value : UInt8) : Nat :=
  if value ≥ 65 ∧ value ≤ 90 then value.toNat - 65
  else if value ≥ 97 ∧ value ≤ 122 then value.toNat - 71
  else if value ≥ 48 ∧ value ≤ 57 then value.toNat + 4
  else if value = 43 then 62
  else if value = 47 then 63
  else 0

/-- The number of padding bytes at the end, the first byte of the text not being looked at. The index that the scan
starts from is an unsigned int, whatever the length. -/
def getPaddingCount (encoded : Bytes) : Nat :=
  let index := (encoded.length + (2 ^ 32 - 1)) % 2 ^ 32
  (((encoded.take (index + 1)).drop 1).reverse.takeWhile (· = 61)).length

/-- Writes the next byte of a buffer. -/
def putByte (size : Nat) (byte : UInt8) (buffer : Bytes) : Except Fault Bytes :=
  if buffer.length ≥ size then .error .outOfBounds else .ok (buffer ++ [byte])

/-- Writes the next byte of a buffer up to the position `valid`. -/
def putWithin (size valid : Nat) (byte : UInt8) (buffer : Bytes) : Except Fault Bytes :=
  if buffer.length ≤ valid then putByte size byte buffer else .ok buffer

/-- Writes the bytes of a group, the first one wherever it falls. -/
def putGroup (size valid number : Nat) (buffer : Bytes) : Except Fault Bytes := do
  let buffer ← putByte size (UInt8.ofNat (number >>> 16 % 256)) buffer
  let buffer ← putWithin size valid (UInt8.ofNat (number >>> 8 % 256)) buffer
  putWithin size valid (UInt8.ofNat (number % 256)) buffer

def groupNumber (a b c d : UInt8) : Nat :=
  lookupFastBase64 a <<< 18 + lookupFastBase64 b <<< 12 + lookupFastBase64 c <<< 6 + lookupFastBase64 d

/-- The loop over the groups of a text that a zero byte follows. -/
def decodeGroups (size valid : Nat) : Bytes → Bytes → Except Fault Bytes
  | [], buffer => .ok buffer
  | [_], _ => .error .outOfBounds
  | [_, _], _ => .error .outOfBounds
  | [a, b, c], buffer => putGroup size valid (groupNumber a b c 0) buffer
  | a :: b :: c :: d :: rest, buffer => do
      let buffer ← putGroup size valid (groupNumber a b c d) buffer
      decodeGroups size valid rest buffer

/-- Decodes a text into a buffer allocated for it. The scan for the padding of an empty text starts at the largest
index; a size below zero is too large to be allocated. -/
def decodeBase64 (encoded : Bytes) : Except Fault Bytes :=
  let paddingCount := getPaddingCount encoded
  if encoded = [] then .error .outOfBounds
  else if paddingCount > encoded.length / 4 * 3 then .error .outOfBounds
  else do
    let size := encoded.length / 4 * 3 - paddingCount
    let buffer ← decodeGroups size (size - paddingCount) encoded []
    if buffer.length < size then .error .unset else .ok buffer

/-- A computation that goes on past another one has seen it through. -/
theorem Except.bind_ok {ε α β : Type} {m : Except ε α} {f : α → Except ε β} {b : β} (h : m >>= f = .ok b) :
    ∃ a, m = .ok a ∧ f a = .ok b := by
  cases m with
  | error e => cases h
  | ok a => exact ⟨a, rfl, h⟩

theorem Except.bind_ok_iff {ε α β : Type} {m : Except ε α} {f : α → Except ε β} {b : β} :
    m >>= f = .ok b ↔ ∃ a, m = .ok a ∧ f a = .ok b := by
  constructor
  · exact Except.bind_ok
  · rintro ⟨a, rfl, h⟩
    exact h

/-! ## Texts of base 64 -/

theorem lookupFastBase64_of_digit {value : UInt8} {v : Nat} (h : Base64.digit value = some v) :
    lookupFastBase64 value = v := by
  unfold Base64.digit at h
  unfold lookupFastBase64
  split_ifs at h ⊢ <;> simp_all

theorem lookupFastBase64_pad : lookupFastBase64 Base64.pad = 0 := rfl

/-- Up to the length that the index takes, the whole text is scanned. -/
theorem getPaddingCount_short {encoded : Bytes} (hne : encoded ≠ []) (hshort : encoded.length ≤ 2 ^ 32) :
    getPaddingCount encoded = ((encoded.drop 1).reverse.takeWhile (· = 61)).length := by
  have hpos := List.length_pos_of_ne_nil hne
  have hindex : (encoded.length + (2 ^ 32 - 1)) % 2 ^ 32 + 1 = encoded.length := by omega
  rw [getPaddingCount, hindex, List.take_length]

theorem getPaddingCount_of_ends {encoded data front : Bytes} {b c d : UInt8} {count : Nat}
    (h : Base64.Ends encoded data front b c d count) (hshort : encoded.length ≤ 2 ^ 32) :
    getPaddingCount encoded = count := by
  have hdrop : (encoded.drop 1).reverse = d :: c :: b :: (front.drop 1).reverse := by
    rw [h.text_eq, List.drop_append_of_le_length (List.length_pos_of_ne_nil h.front_ne)]
    simp
  have hb : b ≠ 61 := h.digit_ne
  have hne : encoded ≠ [] := by simp [h.text_eq]
  rw [getPaddingCount_short hne hshort, hdrop]
  rcases h.padding with ⟨rfl, hd⟩ | ⟨rfl, rfl, hc⟩ | ⟨rfl, rfl, rfl⟩
  · have hd : d ≠ 61 := hd
    simp [hd]
  · have hc : c ≠ 61 := hc
    simp [Base64.pad, hc]
  · simp [Base64.pad, hb]

theorem groupBytes_eq (number : Nat) : Base64.groupBytes number =
    [UInt8.ofNat (number >>> 16 % 256), UInt8.ofNat (number >>> 8 % 256), UInt8.ofNat (number % 256)] := by
  have hmod : ∀ n : Nat, UInt8.ofNat (n % 256) = UInt8.ofNat n := fun n => UInt8.ofNat_mod_size
  simp only [Base64.groupBytes, Nat.shiftRight_eq_div_pow, hmod]

/-- As many bytes of a group are written as the position leaves, the first one of them always. -/
theorem putGroup_eq {size valid number : Nat} {buffer : Bytes} {count : Nat} (hcount : count ≤ 2)
    (hvalid : valid = buffer.length + (3 - count) - count ∨ count = 0 ∧ buffer.length + 2 ≤ valid)
    (hsize : buffer.length + (3 - count) ≤ size) :
    putGroup size valid number buffer = .ok (buffer ++ (Base64.groupBytes number).take (3 - count)) := by
  have hput : ∀ (byte : UInt8) (data : Bytes), data.length < size → putByte size byte data = .ok (data ++ [byte]) :=
    fun byte data hlt => if_neg (by omega)
  have hwithin : ∀ (byte : UInt8) (data : Bytes), data.length < size → data.length ≤ valid →
      putWithin size valid byte data = .ok (data ++ [byte]) := fun byte data hlt hle => by
    rw [putWithin, if_pos hle, hput byte data hlt]
  have hpast : ∀ (byte : UInt8) (data : Bytes), valid < data.length → putWithin size valid byte data = .ok data :=
    fun byte data hlt => if_neg (by omega)
  rw [putGroup, groupBytes_eq, hput _ _ (by omega)]
  simp only [bind, Except.bind]
  match count, hcount with
  | 0, _ =>
      rw [hwithin _ _ (by simp; omega) (by simp; omega)]
      simp only
      rw [hwithin _ _ (by simp; omega) (by simp; omega)]
      simp
  | 1, _ =>
      rw [hwithin _ _ (by simp; omega) (by simp; omega)]
      simp only
      rw [hpast _ _ (by simp; omega)]
      simp
  | 2, _ =>
      rw [hpast _ _ (by simp; omega)]
      simp only
      rw [hpast _ _ (by simp; omega)]
      simp

theorem groupNumber_eq (a b c d : UInt8) : groupNumber a b c d =
    Base64.group (lookupFastBase64 a) (lookupFastBase64 b) (lookupFastBase64 c) (lookupFastBase64 d) := by
  simp only [groupNumber, Base64.group, Nat.shiftLeft_eq]

/-- The groups of a text of base 64 are decoded into the buffer as the text is. -/
theorem decodeGroups_of_decode {text data : Bytes} (h : Base64.decode text = some data) {count : Nat} (buffer : Bytes)
    (hcount : count ≤ 2) (hlength : data.length + count = 3 * (text.length / 4)) (hne : text ≠ []) :
    decodeGroups (buffer.length + data.length) (buffer.length + data.length - count) text buffer =
      .ok (buffer ++ data) := by
  induction text using Base64.decode.induct generalizing data buffer with
  | case1 => exact absurd rfl hne
  | case2 a b c d rest ih =>
      obtain ⟨a', b', ha, hb, hlast | ⟨c', hc, hlast | ⟨d', data', hd, hrest, rfl⟩⟩⟩ := Base64.decode_cons h
      · obtain ⟨rfl, rfl, rfl, rfl⟩ := hlast
        obtain rfl : count = 2 := by
          simp only [Base64.groupBytes, List.take_succ_cons, List.length_cons, List.length_nil, List.take_zero] at hlength
          omega
        rw [decodeGroups, groupNumber_eq, lookupFastBase64_of_digit ha, lookupFastBase64_of_digit hb,
          lookupFastBase64_pad, putGroup_eq (le_refl 2) (by simp [Base64.groupBytes]) (by simp [Base64.groupBytes])]
        rfl
      · obtain ⟨rfl, rfl, rfl⟩ := hlast
        obtain rfl : count = 1 := by
          simp only [Base64.groupBytes, List.take_succ_cons, List.length_cons, List.length_nil, List.take_zero] at hlength
          omega
        rw [decodeGroups, groupNumber_eq, lookupFastBase64_of_digit ha, lookupFastBase64_of_digit hb,
          lookupFastBase64_of_digit hc, lookupFastBase64_pad, putGroup_eq (by omega : 1 ≤ 2)
            (by simp [Base64.groupBytes]) (by simp [Base64.groupBytes])]
        rfl
      · have hgroup : (Base64.groupBytes (Base64.group a' b' c' d')).length = 3 := rfl
        rw [List.length_append, hgroup, List.length_cons, List.length_cons, List.length_cons, List.length_cons] at hlength
        have hroom : rest ≠ [] → 4 ≤ rest.length := fun hrest_ne => by
          obtain ⟨front, x, y, z, k, hends⟩ := Base64.ends_of_decode hrest hrest_ne
          have hfront := List.length_pos_of_ne_nil hends.front_ne
          rw [hends.text_eq]
          simp only [List.length_append, List.length_cons, List.length_nil]
          omega
        rw [decodeGroups, groupNumber_eq, lookupFastBase64_of_digit ha, lookupFastBase64_of_digit hb,
          lookupFastBase64_of_digit hc, lookupFastBase64_of_digit hd, List.length_append, hgroup]
        by_cases hnil : rest = []
        · subst hnil
          cases hrest
          obtain rfl : count = 0 := by
            simp only [List.length_nil] at hlength
            omega
          rw [putGroup_eq (by omega : 0 ≤ 2) (by simp) (by simp)]
          simp [bind, Except.bind, decodeGroups, Base64.groupBytes]
        · have hlong := hroom hnil
          have hdiv : (rest.length + 1 + 1 + 1 + 1) / 4 = rest.length / 4 + 1 := by omega
          have hrest_length : data'.length + count = 3 * (rest.length / 4) := by omega
          rw [putGroup_eq (by omega : 0 ≤ 2) (Or.inr ⟨rfl, by omega⟩) (by omega)]
          have hnext := ih hrest (buffer ++ Base64.groupBytes (Base64.group a' b' c' d')) hrest_length hnil
          rw [List.length_append, hgroup, Nat.add_assoc, List.append_assoc] at hnext
          exact hnext
  | case3 text _ hshort =>
      rw [Base64.decode] at h
      · cases h
      · exact hne
      · exact hshort

theorem decodeBase64_of_decode {text data : Bytes} (h : Base64.decode text = some data) (hne : text ≠ [])
    (hshort : text.length ≤ 2 ^ 32) : decodeBase64 text = .ok data := by
  obtain ⟨front, b, c, d, count, hends⟩ := Base64.ends_of_decode h hne
  have hlength := hends.length
  have hdecode := decodeGroups_of_decode h [] hends.count_le hlength hne
  simp only [List.length_nil, Nat.zero_add, List.nil_append] at hdecode
  rw [decodeBase64, getPaddingCount_of_ends hends hshort, if_neg hne, if_neg (by omega),
    show text.length / 4 * 3 - count = data.length by omega]
  dsimp only
  rw [hdecode]
  exact if_neg (Nat.lt_irrefl _)

/-! ## The size of what is decoded -/

theorem putByte_length {size : Nat} {byte : UInt8} {buffer buffer' : Bytes} (h : putByte size byte buffer = .ok buffer') :
    buffer'.length ≤ size := by
  rw [putByte] at h
  split at h
  case isTrue => cases h
  case isFalse hroom =>
    cases h
    rw [List.length_append, List.length_singleton]
    omega

theorem putWithin_length {size valid : Nat} {byte : UInt8} {buffer buffer' : Bytes} (hle : buffer.length ≤ size)
    (h : putWithin size valid byte buffer = .ok buffer') : buffer'.length ≤ size := by
  rw [putWithin] at h
  split at h
  · exact putByte_length h
  · cases h
    exact hle

theorem putGroup_length {size valid number : Nat} {buffer buffer' : Bytes}
    (h : putGroup size valid number buffer = .ok buffer') : buffer'.length ≤ size := by
  obtain ⟨first, hfirst, h⟩ := Except.bind_ok h
  obtain ⟨second, hsecond, h⟩ := Except.bind_ok h
  exact putWithin_length (putWithin_length (putByte_length hfirst) hsecond) h

theorem decodeGroups_length {size valid : Nat} {text buffer data : Bytes} (hbuffer : buffer.length ≤ size)
    (h : decodeGroups size valid text buffer = .ok data) : data.length ≤ size := by
  induction text, buffer using decodeGroups.induct with
  | case1 buffer =>
      cases h
      exact hbuffer
  | case2 => cases h
  | case3 => cases h
  | case4 a b c buffer => exact putGroup_length h
  | case5 a b c d rest buffer ih =>
      obtain ⟨buffer', hgroup, h⟩ := Except.bind_ok h
      exact ih buffer' (putGroup_length hgroup) h

theorem decodeBase64_length {text data : Bytes} (h : decodeBase64 text = .ok data) : data.length ≤ text.length := by
  unfold decodeBase64 at h
  dsimp only at h
  split_ifs at h
  obtain ⟨buffer, hgroups, h⟩ := Except.bind_ok h
  split_ifs at h
  cases h
  have := decodeGroups_length (Nat.zero_le _) hgroups
  omega

end Viriatum
