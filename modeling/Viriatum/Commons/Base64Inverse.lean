import Mathlib.Data.List.TakeWhile
import Viriatum.Commons.Base64
import Viriatum.Http.HpackTable

/-!
# Base 64 both ways

The encoder, and which texts and which bytes the two functions treat as base 64 asks for.
-/

namespace Viriatum

open Library

def base64Characters : Bytes := bytes "ABCDEFGHIJKLMNOPQRSTUVWXYZabcdefghijklmnopqrstuvwxyz0123456789+/"

def calculateEncodedBufferLength (bufferLength : Nat) : Nat :=
  let paddingCount := if bufferLength % 3 > 0 then 3 - bufferLength % 3 else 0
  (bufferLength + paddingCount) * 4 % 2 ^ 64 / 3

/-- Writes the next byte of a buffer if there is one. -/
def putAvailable (size : Nat) (available : Bool) (byte : UInt8) (buffer : Bytes) : Except Fault Bytes :=
  if available then putByte size byte buffer else .ok buffer

/-- Writes the characters of the first `count` bytes of a number. -/
def putCharacters (size number count : Nat) (encoded : Bytes) : Except Fault Bytes := do
  let encoded ← putByte size (base64Characters.getD (number >>> 18 % 64) 0) encoded
  let encoded ← putByte size (base64Characters.getD (number >>> 12 % 64) 0) encoded
  let encoded ← putAvailable size (count > 1) (base64Characters.getD (number >>> 6 % 64) 0) encoded
  putAvailable size (count > 2) (base64Characters.getD (number % 64) 0) encoded

/-- The loop over the bytes, three at a time. -/
def encodeGroups (size : Nat) : Bytes → Bytes → Except Fault Bytes
  | [], encoded => .ok encoded
  | [a], encoded => putCharacters size (a.toNat <<< 16) 1 encoded
  | [a, b], encoded => putCharacters size (a.toNat <<< 16 + b.toNat <<< 8) 2 encoded
  | a :: b :: c :: rest, encoded => do
      let encoded ← putCharacters size (a.toNat <<< 16 + b.toNat <<< 8 + c.toNat) 3 encoded
      encodeGroups size rest encoded

def putPadding (size : Nat) : Nat → Bytes → Except Fault Bytes
  | 0, encoded => .ok encoded
  | count + 1, encoded => do
      let encoded ← putByte size Base64.pad encoded
      putPadding size count encoded

/-- Encodes the bytes into a buffer allocated for them. The count that the padding is made by is taken of the length as
an unsigned int. -/
def encodeBase64 (buffer : Bytes) : Except Fault Bytes := do
  let size := calculateEncodedBufferLength buffer.length
  let padCount := buffer.length % 2 ^ 32 % 3
  let encoded ← encodeGroups size buffer []
  let encoded ← putPadding size (if padCount > 0 then 3 - padCount else 0) encoded
  if encoded.length < size then .error .unset else .ok encoded

/-- What a call of the decoder returns: its error code, zero for none, and the buffer. -/
structure Base64Outcome where
  error : Nat
  buffer : Bytes
deriving DecidableEq, Repr

/-- The call has one return, which raises no error. -/
def decodeBase64Call (encoded : Bytes) : Except Fault Base64Outcome := do
  let buffer ← decodeBase64 encoded
  .ok { error := 0, buffer }

/-- The bytes come back when what they are encoded to is decoded. -/
def RoundTrips (data : Bytes) : Prop :=
  ∃ text, encodeBase64 data = .ok text ∧ decodeBase64Call text = .ok { error := 0, buffer := data }

/-- The decoder stays within its buffers, and refuses the text or returns what it stands for. -/
def DecodesOrRefuses (text : Bytes) : Prop :=
  ∃ outcome, decodeBase64Call text = .ok outcome ∧
    (outcome.error ≠ 0 ∨ Base64.decode text = some outcome.buffer)

/-- The bytes that are encoded without fault into a text whose padding the decoder finds. -/
def Encodable (data : Bytes) : Prop :=
  data ≠ [] ∧ (data.length ≤ 3 * 2 ^ 30 ∨ 3 ∣ data.length ∧ 3 ∣ data.length / 2 ^ 32 ∧ data.length < 2 ^ 62)

/-- The texts of base 64 whose padding the decoder finds. -/
def Decodable64 (text : Bytes) : Prop :=
  text ≠ [] ∧ (Base64.decode text).isSome ∧ (text.length ≤ 2 ^ 32 ∨ text.getLast? ≠ some Base64.pad)

/-! ## The encoder -/

theorem base64Characters_getD {value : Nat} (h : value < 64) :
    base64Characters.getD value 0 = Base64.character value := by
  have hall : ∀ value < 64, base64Characters.getD value 0 = Base64.character value := by decide +kernel
  exact hall value h

theorem putByte_ok {size : Nat} {byte : UInt8} {buffer out : Bytes} :
    putByte size byte buffer = .ok out ↔ buffer.length + 1 ≤ size ∧ out = buffer ++ [byte] := by
  rw [putByte]
  split
  case isTrue hfull =>
    constructor
    · intro h
      cases h
    · rintro ⟨hroom, _⟩
      omega
  case isFalse hroom =>
    rw [Except.ok.injEq]
    constructor
    · rintro rfl
      exact ⟨by omega, rfl⟩
    · rintro ⟨_, rfl⟩
      rfl

theorem putAvailable_ok {size : Nat} {available : Bool} {byte : UInt8} {buffer out : Bytes} :
    putAvailable size available byte buffer = .ok out ↔
      (available = true → buffer.length + 1 ≤ size) ∧ out = buffer ++ if available then [byte] else [] := by
  cases available with
  | false => simp [putAvailable, eq_comm]
  | true => simp [putAvailable, putByte_ok]

theorem putCharacters_ok {size number count : Nat} {buffer out : Bytes} (hpos : 1 ≤ count) (hcount : count ≤ 3) :
    putCharacters size number count buffer = .ok out ↔
      buffer.length + (count + 1) ≤ size ∧ out = buffer ++ (Base64.groupDigits number).take (count + 1) := by
  have hmod : ∀ n : Nat, n % 64 < 64 := fun n => Nat.mod_lt n (by decide)
  simp only [putCharacters, Except.bind_ok_iff, putByte_ok, putAvailable_ok, base64Characters_getD (hmod _),
    Nat.shiftRight_eq_div_pow, Base64.groupDigits]
  constructor
  · rintro ⟨_, ⟨_, rfl⟩, _, ⟨hsecond, rfl⟩, _, ⟨hthird, rfl⟩, hfourth, rfl⟩
    have hcases : count = 1 ∨ count = 2 ∨ count = 3 := by omega
    rcases hcases with rfl | rfl | rfl
    · have hroom := hsecond
      simp only [List.length_append, List.length_singleton] at hroom
      exact ⟨by omega, by simp⟩
    · have hroom := hthird (by decide)
      simp at hroom
      exact ⟨by omega, by simp⟩
    · have hroom := hfourth (by decide)
      simp at hroom
      exact ⟨by omega, by simp⟩
  · rintro ⟨hroom, rfl⟩
    refine ⟨_, ⟨by omega, rfl⟩, _, ⟨by simp; omega, rfl⟩, _, ⟨?_, rfl⟩, ?_, ?_⟩
    · simp only [decide_eq_true_eq, List.length_append, List.length_singleton]
      omega
    · intro h
      simp only [decide_eq_true_eq] at h
      simp only [List.length_append, List.length_singleton, decide_eq_true_eq, show count > 1 by omega, if_true]
      omega
    · have hcases : count = 1 ∨ count = 2 ∨ count = 3 := by omega
      rcases hcases with rfl | rfl | rfl <;> simp

theorem encodeGroups_ok {size : Nat} {data buffer out : Bytes} :
    encodeGroups size data buffer = .ok out ↔
      (data ≠ [] → buffer.length + (Base64.digits data).length ≤ size) ∧ out = buffer ++ Base64.digits data := by
  have hnumber : ∀ a b c : UInt8, a.toNat <<< 16 + b.toNat <<< 8 + c.toNat = Base64.groupNumber a b c := by
    intro a b c
    rw [Base64.groupNumber, Nat.shiftLeft_eq, Nat.shiftLeft_eq]
  induction data using Base64.digits.induct generalizing buffer with
  | case1 => simp [encodeGroups, Base64.digits, eq_comm]
  | case2 a =>
      have h := hnumber a 0 0
      simp only [UInt8.toNat_zero, Nat.zero_shiftLeft, Nat.add_zero] at h
      rw [encodeGroups, h, putCharacters_ok (by decide) (by decide)]
      simp [Base64.digits, Base64.groupDigits]
  | case3 a b =>
      have h := hnumber a b 0
      simp only [UInt8.toNat_zero, Nat.add_zero] at h
      rw [encodeGroups, h, putCharacters_ok (by decide) (by decide)]
      simp [Base64.digits, Base64.groupDigits]
  | case4 a b c rest ih =>
      rw [encodeGroups, Except.bind_ok_iff, hnumber]
      simp only [putCharacters_ok (by decide : 1 ≤ 3) (by decide : 3 ≤ 3), ih, Base64.digits, Base64.groupDigits]
      constructor
      · rintro ⟨_, ⟨hroom, rfl⟩, hrest, rfl⟩
        simp only [List.take_succ_cons, List.take_zero, List.length_append, List.length_cons, List.length_nil] at hrest ⊢
        refine ⟨fun _ => ?_, by simp⟩
        by_cases hnil : rest = []
        · subst hnil
          simp only [Base64.digits, List.length_nil]
          omega
        · have := hrest hnil
          omega
      · rintro ⟨hroom, rfl⟩
        have hroom := hroom (by simp)
        simp only [List.length_append, List.length_cons, List.length_nil] at hroom
        refine ⟨_, ⟨by omega, rfl⟩, fun _ => ?_, by simp⟩
        simp only [List.take_succ_cons, List.take_zero, List.length_append, List.length_cons, List.length_nil]
        omega

theorem putPadding_ok {size count : Nat} {buffer out : Bytes} (hfits : buffer.length ≤ size) :
    putPadding size count buffer = .ok out ↔
      buffer.length + count ≤ size ∧ out = buffer ++ List.replicate count Base64.pad := by
  induction count generalizing buffer with
  | zero => simp [putPadding, hfits, eq_comm]
  | succ count ih =>
      rw [putPadding, Except.bind_ok_iff]
      constructor
      · rintro ⟨_, hput, h⟩
        obtain ⟨hroom, rfl⟩ := putByte_ok.mp hput
        have hlength : (buffer ++ [Base64.pad]).length = buffer.length + 1 := by simp
        obtain ⟨hroom', rfl⟩ := (ih (by omega)).mp h
        exact ⟨by omega, by simp [List.replicate_succ]⟩
      · rintro ⟨hroom, rfl⟩
        have hlength : (buffer ++ [Base64.pad]).length = buffer.length + 1 := by simp
        refine ⟨_, putByte_ok.mpr ⟨by omega, rfl⟩, (ih (by omega)).mpr ⟨by omega, ?_⟩⟩
        simp [List.replicate_succ]

theorem calculateEncodedBufferLength_eq (length : Nat) :
    calculateEncodedBufferLength length = (length + Base64.padding length) * 4 % 2 ^ 64 / 3 := by
  have hpadding : (if length % 3 > 0 then 3 - length % 3 else 0) = Base64.padding length := by
    rw [Base64.padding]
    split_ifs <;> omega
  simp only [calculateEncodedBufferLength, hpadding]

theorem padding_spec (length : Nat) : Base64.padding length < 3 ∧ 3 ∣ length + Base64.padding length := by
  rw [Base64.padding]
  omega

theorem padding_short {length : Nat} :
    Base64.padding (length % 2 ^ 32) = Base64.padding length ↔ 3 ∣ length / 2 ^ 32 := by
  have hsum : length % 3 = (length / 2 ^ 32 + length % 2 ^ 32) % 3 := by omega
  have hcounts : ∀ high low count short : Nat, length % 3 = (high + low) % 3 → count < 3 ∧ 3 ∣ length + count →
      short < 3 ∧ 3 ∣ low + short → (short = count ↔ 3 ∣ high) := by
    omega
  exact hcounts _ _ _ _ hsum (padding_spec length) (padding_spec _)

/-- What is written fills the buffer exactly when the size has not been cut and the two counts of the padding agree. -/
theorem fills_iff {length written : Nat} (h : written + Base64.padding length = (length + 2) / 3 * 4) :
    (written ≤ (length + Base64.padding length) * 4 % 2 ^ 64 / 3 ∧
      written + Base64.padding (length % 2 ^ 32) = (length + Base64.padding length) * 4 % 2 ^ 64 / 3) ↔
      (length + Base64.padding length) * 4 < 2 ^ 64 ∧ 3 ∣ length / 2 ^ 32 := by
  obtain ⟨hlt, hdvd⟩ := padding_spec length
  rw [← padding_short]
  generalize Base64.padding (length % 2 ^ 32) = short
  generalize Base64.padding length = count at h hlt hdvd ⊢
  have hwhole : (length + 2) / 3 * 4 * 3 = (length + count) * 4 := by omega
  constructor
  · rintro ⟨hroom, hwritten⟩
    have hsize : (length + count) * 4 < 2 ^ 64 := by omega
    rw [Nat.mod_eq_of_lt hsize] at hwritten
    exact ⟨hsize, by omega⟩
  · rintro ⟨hsize, hsame⟩
    rw [Nat.mod_eq_of_lt hsize, hsame]
    omega

/-- The encoder ends well exactly when its counts agree, and then it has written the text of the bytes. -/
theorem encodeBase64_ok {data text : Bytes} : encodeBase64 data = .ok text ↔
    (data.length + Base64.padding data.length) * 4 < 2 ^ 64 ∧ 3 ∣ data.length / 2 ^ 32 ∧ text = Base64.encode data := by
  have hpadCount : (if data.length % 2 ^ 32 % 3 > 0 then 3 - data.length % 2 ^ 32 % 3 else 0) =
      Base64.padding (data.length % 2 ^ 32) := by
    rw [Base64.padding]
    split_ifs <;> omega
  have hfills := fills_iff (Base64.length_digits data)
  rw [← and_assoc, ← hfills]
  simp only [encodeBase64, Except.bind_ok_iff, encodeGroups_ok, calculateEncodedBufferLength_eq, hpadCount,
    List.nil_append, List.length_nil, Nat.zero_add]
  generalize (data.length + Base64.padding data.length) * 4 % 2 ^ 64 / 3 = size at hfills ⊢
  constructor
  · rintro ⟨_, ⟨hroom, rfl⟩, padded, hpadding, hout⟩
    have hroom : (Base64.digits data).length ≤ size := by
      cases data with
      | nil => exact Nat.zero_le size
      | cons byte rest => exact hroom (List.cons_ne_nil byte rest)
    obtain ⟨hroom', rfl⟩ := (putPadding_ok hroom).mp hpadding
    rw [List.length_append, List.length_replicate] at hout
    split at hout
    case isTrue => cases hout
    case isFalse hfull =>
      cases hout
      have hwritten : (Base64.digits data).length + Base64.padding (data.length % 2 ^ 32) = size := by omega
      refine ⟨⟨hroom, hwritten⟩, ?_⟩
      rw [Base64.encode, padding_short.mpr (hfills.mp ⟨hroom, hwritten⟩).2]
  · rintro ⟨⟨hroom, hwritten⟩, rfl⟩
    have hencode : Base64.encode data =
        Base64.digits data ++ List.replicate (Base64.padding (data.length % 2 ^ 32)) Base64.pad := by
      rw [Base64.encode, padding_short.mpr (hfills.mp ⟨hroom, hwritten⟩).2]
    refine ⟨_, ⟨fun _ => hroom, rfl⟩, _, (putPadding_ok hroom).mpr ⟨by omega, rfl⟩, ?_⟩
    rw [hencode, List.length_append, List.length_replicate, hwritten]
    exact if_neg (Nat.lt_irrefl size)

/-! ## The decoder on any text -/

theorem decodeBase64_size {text data : Bytes} (h : decodeBase64 text = .ok data) :
    text ≠ [] ∧ text.length / 4 * 3 ≤ data.length + getPaddingCount text := by
  unfold decodeBase64 at h
  dsimp only at h
  split_ifs at h with hne
  obtain ⟨buffer, _, h⟩ := Except.bind_ok h
  split_ifs at h
  cases h
  exact ⟨hne, by omega⟩

theorem getPaddingCount_plain {text : Bytes}
    (h : Base64.pad ∉ text.take ((text.length + (2 ^ 32 - 1)) % 2 ^ 32 + 1)) : getPaddingCount text = 0 := by
  rw [getPaddingCount, List.length_eq_zero_iff, List.takeWhile_eq_nil_iff]
  intro hpos hpad
  rw [decide_eq_true_eq] at hpad
  have hmem := List.get_mem _ ⟨0, hpos⟩
  rw [hpad, List.mem_reverse] at hmem
  exact h (List.mem_of_mem_drop hmem)

/-- Past the length that the index takes, the padding is out of its sight. -/
theorem getPaddingCount_long {text data digits : Bytes} {count : Nat} (h : Base64.Padded text data digits count)
    (hlong : 2 ^ 32 < text.length) : getPaddingCount text = 0 := by
  apply getPaddingCount_plain
  have hgroups := h.groups
  have hcount := h.count_le
  have hlength : text.length = digits.length + count := by
    rw [h.text_eq, List.length_append, List.length_replicate]
  rw [h.text_eq, List.take_append_of_le_length (by rw [← h.text_eq]; omega)]
  intro hmem
  exact h.plain (List.mem_of_mem_take hmem)

theorem getLast?_padded {text data digits : Bytes} {count : Nat} (h : Base64.Padded text data digits count) :
    text.getLast? = some Base64.pad ↔ count ≠ 0 := by
  cases count with
  | zero =>
      rw [h.text_eq, List.replicate_zero, List.append_nil]
      simp only [ne_eq, not_true_eq_false, iff_false]
      intro hlast
      exact h.plain (List.mem_of_getLast? hlast)
  | succ count => simp [h.text_eq, List.getLast?_append, List.getLast?_replicate]

theorem decodesOrRefuses_iff {text : Bytes} : DecodesOrRefuses text ↔ Decodable64 text := by
  constructor
  · rintro ⟨outcome, hcall, hend⟩
    obtain ⟨buffer, hdecode, hcall⟩ := Except.bind_ok hcall
    cases hcall
    have hsome := hend.resolve_left (fun h => h rfl)
    obtain ⟨hne, hsize⟩ := decodeBase64_size hdecode
    obtain ⟨digits, count, hpadded⟩ := Base64.padded_of_decode hsome
    refine ⟨hne, by rw [hsome]; rfl, ?_⟩
    by_cases hshort : text.length ≤ 2 ^ 32
    · exact .inl hshort
    · have hnone := getPaddingCount_long hpadded (by omega)
      have hlength := hpadded.length
      dsimp only at hlength
      refine .inr fun hlast => (getLast?_padded hpadded).mp hlast ?_
      omega
  · rintro ⟨hne, hsome, hfound⟩
    obtain ⟨data, hdecode⟩ := Option.isSome_iff_exists.mp hsome
    refine ⟨{ error := 0, buffer := data }, ?_, .inr hdecode⟩
    apply Except.bind_ok_iff.mpr
    refine ⟨data, ?_, rfl⟩
    by_cases hshort : text.length ≤ 2 ^ 32
    · exact decodeBase64_of_decode hdecode hne hshort
    · obtain ⟨digits, count, hpadded⟩ := Base64.padded_of_decode hdecode
      obtain rfl : count = 0 := by
        by_contra hcount
        exact hfound.resolve_left hshort ((getLast?_padded hpadded).mpr hcount)
      have hlength := hpadded.length
      have hgroups := decodeGroups_of_decode hdecode [] (Nat.zero_le 2) hlength hne
      simp only [List.length_nil, Nat.zero_add, List.nil_append] at hgroups
      rw [decodeBase64, getPaddingCount_long hpadded (by omega), if_neg hne, if_neg (Nat.not_lt_zero _),
        show text.length / 4 * 3 - 0 = data.length by omega]
      dsimp only
      rw [hgroups]
      exact if_neg (Nat.lt_irrefl _)

theorem roundTrips_iff {data : Bytes} : RoundTrips data ↔ Encodable data := by
  have hdecode := Base64.decode_encode data
  obtain ⟨digits, count, hpadded⟩ := Base64.padded_of_decode hdecode
  have hlength := Base64.length_encode data
  have hcount := hpadded.length
  have hempty : Base64.encode data = [] ↔ data = [] := by
    rw [← List.length_eq_zero_iff, ← List.length_eq_zero_iff, hlength]
    omega
  have hlast := getLast?_padded hpadded
  have hback : RoundTrips data ↔ (data.length + Base64.padding data.length) * 4 < 2 ^ 64 ∧ 3 ∣ data.length / 2 ^ 32 ∧
      Decodable64 (Base64.encode data) := by
    rw [← decodesOrRefuses_iff]
    constructor
    · rintro ⟨text, hencode, hcall⟩
      obtain ⟨hlt, hdvd, rfl⟩ := encodeBase64_ok.mp hencode
      exact ⟨hlt, hdvd, _, hcall, .inr hdecode⟩
    · rintro ⟨hlt, hdvd, outcome, hcall, hend⟩
      refine ⟨_, encodeBase64_ok.mpr ⟨hlt, hdvd, rfl⟩, ?_⟩
      obtain ⟨buffer, hbuffer, hcode⟩ := Except.bind_ok hcall
      cases hcode
      have hsame := hend.resolve_left (fun h => h rfl)
      rw [hdecode, Option.some.injEq] at hsame
      rw [hcall, hsame]
  rw [hback, Decodable64, ne_eq, hempty, hdecode, ne_eq, hlast, Encodable, hlength]
  simp only [Option.isSome_some, true_and, not_not, Base64.padding]
  constructor
  · rintro ⟨hlt, hdvd, hne, hfound⟩
    refine ⟨hne, ?_⟩
    omega
  · rintro ⟨hne, hfits⟩
    have := List.length_pos_of_ne_nil hne
    refine ⟨?_, ?_, hne, ?_⟩ <;> omega

/-- The bytes come back where they are encodable, and a text is decoded or refused where it is a text of base 64 whose
padding is found. -/
theorem base64_inverse (data text : Bytes) :
    (RoundTrips data ↔ Encodable data) ∧ (DecodesOrRefuses text ↔ Decodable64 text) :=
  ⟨roundTrips_iff, decodesOrRefuses_iff⟩

/-- No bytes do not come back, and four bytes out of the alphabet are decoded as zeros. -/
theorem not_base64_inverse : ¬ ((∀ data, RoundTrips data) ∧ ∀ text, DecodesOrRefuses text) := by
  rintro ⟨_, hdecodes⟩
  obtain ⟨outcome, hcall, hend⟩ := hdecodes (bytes "!!!!")
  have hzeros : decodeBase64Call (bytes "!!!!") = .ok { error := 0, buffer := [0, 0, 0] } := by decide
  rw [hzeros] at hcall
  cases hcall
  revert hend
  decide

end Viriatum
