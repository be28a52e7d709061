import Viriatum.Commons.Percent
import Viriatum.Library.Octets

/-!
# The percent coding both ways

The encoder, and which texts the decoder decodes or refuses as it should.
-/

namespace Viriatum

open Http2Connection Library

/-- `isalphanum` -/
def isAlphanum (byte : UInt8) : Bool :=
  48 ≤ byte ∧ byte ≤ 57 ∨ 97 ≤ byte ∧ byte ≤ 122 ∨ 65 ≤ byte ∧ byte ≤ 90

/-- `to_hex` -/
def toHex (code : UInt8) : UInt8 := (bytes "0123456789abcdef").getD (code &&& 15).toNat 0

/-- What the encoder writes for a byte. -/
def encodeByte (byte : UInt8) : Bytes :=
  if isAlphanum byte ∨ byte = 45 ∨ byte = 95 ∨ byte = 46 ∨ byte = 126 then [byte]
  else if byte = 32 then [43]
  else [37, toHex (byte >>> 4), toHex (byte &&& 15)]

/-- Encodes the bytes of a buffer into another one, which is closed with a zero byte, and hands back the length. -/
def encodePercent (data : Bytes) (target : Buffer) : Except Fault (Buffer × Nat) := do
  let encoded := data.flatMap encodeByte
  let written ← target.write (encoded ++ [0])
  .ok (written, encoded.length)

/-- `url_encode` -/
def urlEncode (data : Bytes) : Except Fault (Buffer × Nat) := encodePercent data (Buffer.fresh (data.length * 3 + 1))

/-- `url_decode` -/
def urlDecode (buffer : Buffer) (length : Nat) : Except Fault PercentOutcome :=
  decodePercent buffer length (Buffer.fresh (length + 1))

/-! ## Encoding and decoding -/

theorem length_encodeByte_le (byte : UInt8) : (encodeByte byte).length ≤ 3 := by
  rw [encodeByte]
  split
  · simp
  · split <;> simp

theorem length_encoded_le (data : Bytes) : (data.flatMap encodeByte).length ≤ data.length * 3 := by
  induction data with
  | nil => simp
  | cons byte data ih =>
      have := length_encodeByte_le byte
      rw [List.flatMap_cons, List.length_append, List.length_cons]
      omega

/-- A byte is decoded from what is written for it. -/
theorem decode_encodeByte (byte : UInt8) (rest : Bytes) :
    percentDecode (encodeByte byte ++ rest) = (percentDecode rest).map (byte :: ·) := by
  have hdigits : ∀ byte : UInt8, toHex (byte >>> 4) ≠ 0 ∧ toHex (byte &&& 15) ≠ 0 ∧
      decodedByte (toHex (byte >>> 4)) (toHex (byte &&& 15)) = byte := forall_byte (by decide +kernel)
  have hplain : ∀ byte : UInt8, (isAlphanum byte ∨ byte = 45 ∨ byte = 95 ∨ byte = 46 ∨ byte = 126) →
      byte ≠ 37 ∧ byte ≠ 43 := forall_byte (by decide +kernel)
  rw [encodeByte]
  split
  · next h =>
    obtain ⟨hpercent, hplus⟩ := hplain byte h
    rw [List.singleton_append, percentDecode_plain hpercent, if_neg hplus]
  · split
    · next h =>
      rw [List.singleton_append, percentDecode_plain (by decide), if_pos rfl, h]
    · obtain ⟨hhigh, hlow, hbyte⟩ := hdigits byte
      simp only [List.cons_append, List.nil_append, percentDecode, hhigh, hlow, or_self, ↓reduceIte, hbyte]

theorem decode_encoded (data : Bytes) : percentDecode (data.flatMap encodeByte) = some data := by
  induction data with
  | nil => rfl
  | cons byte data ih => rw [List.flatMap_cons, decode_encodeByte, ih, Option.map_some]

theorem decodePercent_of_loop {buffer target : Buffer} {length : Nat} {decoded : Bytes}
    (hloop : decodePercentLoop buffer length = .ok (decoded, true)) (hfits : decoded.length + 1 ≤ target.length) :
    decodePercent buffer length target =
      .ok { error := none, buffer := (decoded ++ [0]).map some ++ target.drop (decoded.length + 1) } := by
  rw [decodePercent, hloop]
  simp only [bind, Except.bind]
  simp only [↓reduceIte]
  rw [Buffer.write_eq (by simpa using hfits), List.length_append, List.length_singleton]

/-- What is encoded is decoded again: the decoder writes the data and closes it with a zero byte. -/
def RoundTripsPercent (data : Bytes) : Prop :=
  ∃ encoded length rest, urlEncode data = .ok (encoded, length) ∧ decodePercentLoop encoded length = .ok (data, true) ∧
    urlDecode encoded length = .ok { error := none, buffer := (data ++ [0]).map some ++ rest }

theorem roundTripsPercent (data : Bytes) : RoundTripsPercent data := by
  have hlength := length_encoded_le data
  have hdecoded := length_of_percentDecode (decode_encoded data)
  obtain ⟨rest, hwritten⟩ : ∃ rest, (Buffer.fresh (data.length * 3 + 1)).write (data.flatMap encodeByte ++ [0]) =
      .ok ((data.flatMap encodeByte).map some ++ rest) := by
    refine ⟨some 0 :: (Buffer.fresh (data.length * 3 + 1)).drop (data.flatMap encodeByte ++ [0]).length, ?_⟩
    rw [Buffer.write_eq (by simpa [Buffer.fresh] using hlength)]
    simp
  have hloop := decodePercentLoop_of_decode (decode_encoded data) rest
  have hencode : urlEncode data =
      .ok ((data.flatMap encodeByte).map some ++ rest, (data.flatMap encodeByte).length) := by
    rw [urlEncode, encodePercent, hwritten]
    rfl
  exact ⟨_, _, _, hencode, hloop, decodePercent_of_loop hloop (by simpa [Buffer.fresh] using hdecoded)⟩

/-! ## The texts that the decoder takes -/

def isHex (byte : UInt8) : Bool :=
  48 ≤ byte ∧ byte ≤ 57 ∨ 97 ≤ byte ∧ byte ≤ 102 ∨ 65 ≤ byte ∧ byte ≤ 70

/-- Two hexadecimal digits follow every percent sign. -/
def WellEscaped (text : Bytes) : Prop :=
  ∀ index : Nat, text[index]? = some 37 →
    ∃ high low, text[index + 1]? = some high ∧ text[index + 2]? = some low ∧ isHex high ∧ isHex low

/-- Of the sequences that the decoder goes over, one has a zero byte in place of a digit. -/
def HasZeroDigit : Bytes → Prop
  | [] => False
  | 37 :: high :: low :: rest => high = 0 ∨ low = 0 ∨ HasZeroDigit rest
  | [37] => False
  | [37, high] => high = 0
  | _ :: rest => HasZeroDigit rest

theorem WellEscaped.of_append (front : Bytes) {text : Bytes} (h : WellEscaped (front ++ text)) : WellEscaped text := by
  intro index hindex
  have hlater : ∀ k, (front ++ text)[front.length + k]? = text[k]? := fun k => by
    rw [List.getElem?_append_right (Nat.le_add_right _ _), Nat.add_sub_cancel_left]
  have hescape := h (front.length + index) (by rw [hlater, hindex])
  rwa [Nat.add_assoc, Nat.add_assoc, hlater, hlater] at hescape

theorem ne_zero_of_isHex {byte : UInt8} (h : isHex byte) : byte ≠ 0 := by
  rintro rfl
  cases h

theorem decode_of_wellEscaped {text : Bytes} (h : WellEscaped text) : ∃ decoded, percentDecode text = some decoded := by
  induction text using percentDecode.induct with
  | case1 => exact ⟨[], rfl⟩
  | case2 high low rest hzero =>
      obtain ⟨high', low', hhigh, hlow, hhex, hhex'⟩ := h 0 rfl
      cases hhigh
      cases hlow
      exact absurd hzero (not_or.mpr ⟨ne_zero_of_isHex hhex, ne_zero_of_isHex hhex'⟩)
  | case3 high low rest hzero ih =>
      obtain ⟨decoded, hdecoded⟩ := ih (WellEscaped.of_append [37, high, low] h)
      exact ⟨_, by rw [percentDecode, if_neg hzero, hdecoded]; rfl⟩
  | case4 =>
      obtain ⟨_, _, hhigh, _⟩ := h 0 rfl
      cases hhigh
  | case5 high =>
      obtain ⟨_, _, _, hlow, _⟩ := h 0 rfl
      cases hlow
  | case6 byte rest h1 h2 h3 ih =>
      obtain ⟨decoded, hdecoded⟩ := ih (WellEscaped.of_append [byte] h)
      exact ⟨_, by rw [percentDecode_plain (plain_of_cases h1 h2 h3), hdecoded]; rfl⟩

/-- The decoder over a text that nothing follows. -/
def decodeAlone (text : Bytes) : Except Fault (Bytes × Bool) := decodePercentLoop (text.map some) text.length

theorem decodeAlone_plain {byte : UInt8} (h : byte ≠ 37) (rest : Bytes) : decodeAlone (byte :: rest) =
    (decodeAlone rest).map fun (decoded, whole) => ((if byte = 43 then 32 else byte) :: decoded, whole) := by
  unfold decodeAlone
  rw [List.map_cons, List.length_cons]
  conv_lhs => unfold decodePercentLoop
  simp only [if_neg h]
  rfl

theorem decodeAlone_escaped {high low : UInt8} (hhigh : high ≠ 0) (hlow : low ≠ 0) (rest : Bytes) :
    decodeAlone (37 :: high :: low :: rest) =
      (decodeAlone rest).map fun (decoded, whole) => (decodedByte high low :: decoded, whole) := by
  simp only [decodeAlone, List.map_cons, List.length_cons, decodePercentLoop, if_neg hhigh, if_neg hlow, ↓reduceIte]
  rfl

theorem zeroDigit_plain {byte : UInt8} (h : byte ≠ 37) (rest : Bytes) :
    HasZeroDigit (byte :: rest) ↔ HasZeroDigit rest := by
  rw [HasZeroDigit]
  · simp_all
  · simp_all
  · simp_all

theorem map_ok_iff {f : Bytes → Bytes} {outcome : Except Fault (Bytes × Bool)} {whole : Bool} :
    (∃ decoded, (outcome.map fun (decoded, whole) => (f decoded, whole)) = .ok (decoded, whole)) ↔
      ∃ decoded, outcome = .ok (decoded, whole) := by
  cases outcome with
  | error fault => simp [Except.map]
  | ok outcome =>
      obtain ⟨decoded, whole'⟩ := outcome
      simp [Except.map]

/-- A text is refused without a look behind its end exactly when a sequence of it has a zero byte for a digit. -/
theorem refused_iff (text : Bytes) : (∃ decoded, decodeAlone text = .ok (decoded, false)) ↔ HasZeroDigit text := by
  induction text using percentDecode.induct with
  | case1 => simp [decodeAlone, decodePercentLoop, HasZeroDigit]
  | case2 high low rest hzero =>
      refine iff_of_true ⟨[], ?_⟩ ?_
      · simp only [decodeAlone, List.map_cons, List.length_cons, decodePercentLoop, ↓reduceIte]
        cases hzero with
        | inl hhigh => rw [if_pos hhigh]
        | inr hlow => rw [if_pos hlow, ite_self]
      · rw [HasZeroDigit, ← or_assoc]
        exact .inl hzero
  | case3 high low rest hzero ih =>
      obtain ⟨hhigh, hlow⟩ := not_or.mp hzero
      rw [decodeAlone_escaped hhigh hlow, map_ok_iff, ih, HasZeroDigit]
      simp [hhigh, hlow]
  | case4 => simp [decodeAlone, decodePercentLoop, HasZeroDigit]
  | case5 high =>
      by_cases hhigh : high = 0
      · simp [decodeAlone, decodePercentLoop, HasZeroDigit, hhigh]
      · simp [decodeAlone, decodePercentLoop, HasZeroDigit, hhigh]
  | case6 byte rest h1 h2 h3 ih =>
      have hbyte := plain_of_cases h1 h2 h3
      rw [decodeAlone_plain hbyte, map_ok_iff, ih, zeroDigit_plain hbyte]

theorem of_map_ok {f : Bytes → Bytes} {outcome : Except Fault (Bytes × Bool)} {decoded : Bytes} {whole : Bool}
    (h : (outcome.map fun (decoded, whole) => (f decoded, whole)) = .ok (decoded, whole)) :
    ∃ decoded', outcome = .ok (decoded', whole) ∧ decoded = f decoded' := by
  cases outcome with
  | error fault => cases h
  | ok outcome =>
      cases h
      exact ⟨_, rfl, rfl⟩

/-- No more is written than there is of the text. -/
theorem length_of_decodeAlone {text decoded : Bytes} {whole : Bool} (h : decodeAlone text = .ok (decoded, whole)) :
    decoded.length ≤ text.length := by
  induction text using percentDecode.induct generalizing decoded with
  | case1 =>
      cases h
      exact Nat.le_refl 0
  | case2 high low rest hzero =>
      have hrefused : decodeAlone (37 :: high :: low :: rest) = .ok ([], false) := by
        simp only [decodeAlone, List.map_cons, List.length_cons, decodePercentLoop, ↓reduceIte]
        cases hzero with
        | inl hhigh => rw [if_pos hhigh]
        | inr hlow => rw [if_pos hlow, ite_self]
      cases hrefused.symm.trans h
      exact Nat.zero_le _
  | case3 high low rest hzero ih =>
      obtain ⟨hhigh, hlow⟩ := not_or.mp hzero
      rw [decodeAlone_escaped hhigh hlow] at h
      obtain ⟨decoded', hrest, rfl⟩ := of_map_ok h
      have := ih hrest
      simp only [List.length_cons]
      omega
  | case4 => cases h
  | case5 high =>
      by_cases hhigh : high = 0
      · subst hhigh
        cases h
        exact Nat.zero_le _
      · simp only [decodeAlone, List.map_cons, List.map_nil, List.length_cons, decodePercentLoop, ↓reduceIte, hhigh] at h
        cases h
  | case6 byte rest h1 h2 h3 ih =>
      rw [decodeAlone_plain (plain_of_cases h1 h2 h3)] at h
      obtain ⟨decoded', hrest, rfl⟩ := of_map_ok h
      have := ih hrest
      simp only [List.length_cons]
      omega

/-- Something is left out of what is written exactly where the text has a sequence. -/
theorem length_lt_iff {text decoded : Bytes} (h : percentDecode text = some decoded) :
    decoded.length < text.length ↔ 37 ∈ text := by
  induction text using percentDecode.induct generalizing decoded with
  | case1 =>
      cases h
      simp
  | case2 high low rest hzero => simp [percentDecode, hzero] at h
  | case3 high low rest hzero ih =>
      simp only [percentDecode, if_neg hzero, Option.map_eq_some_iff] at h
      obtain ⟨decoded', hrest, rfl⟩ := h
      have := length_of_percentDecode hrest
      refine iff_of_true ?_ List.mem_cons_self
      simp only [List.length_cons]
      omega
  | case4 => simp [percentDecode] at h
  | case5 => simp [percentDecode] at h
  | case6 byte rest h1 h2 h3 ih =>
      have hbyte := plain_of_cases h1 h2 h3
      rw [percentDecode_plain hbyte, Option.map_eq_some_iff] at h
      obtain ⟨decoded', hrest, rfl⟩ := h
      rw [List.length_cons, List.length_cons, Nat.succ_lt_succ_iff, ih hrest, List.mem_cons]
      exact ⟨.inr, fun hmem => hmem.resolve_left (Ne.symm hbyte)⟩

/-- The decoder keeps to a text: it reads the bytes of the text only, writes at most as many, and refuses the text if a
percent sign in it is not followed by two hexadecimal digits. -/
def KeepsTo (text : Bytes) : Prop :=
  ∃ decoded whole, decodeAlone text = .ok (decoded, whole) ∧ decoded.length ≤ text.length ∧
    (¬ WellEscaped text → whole = false)

/-- It does so when the zero byte that closes what it writes is counted too. -/
def KeepsToClosed (text : Bytes) : Prop :=
  ∃ decoded whole, decodeAlone text = .ok (decoded, whole) ∧
    (if whole then decoded ++ [0] else decoded).length ≤ text.length ∧ (¬ WellEscaped text → whole = false)

theorem decodeAlone_of_decode {text decoded : Bytes} (h : percentDecode text = some decoded) :
    decodeAlone text = .ok (decoded, true) := by
  have hloop := decodePercentLoop_of_decode h []
  rwa [List.append_nil] at hloop

theorem keepsTo_iff (text : Bytes) : KeepsTo text ↔ WellEscaped text ∨ HasZeroDigit text := by
  constructor
  · rintro ⟨decoded, whole, hdecode, _, hrefuses⟩
    by_cases hescaped : WellEscaped text
    · exact .inl hescaped
    · rw [hrefuses hescaped] at hdecode
      exact .inr ((refused_iff text).mp ⟨decoded, hdecode⟩)
  · rintro (hescaped | hzero)
    · obtain ⟨decoded, hdecode⟩ := decode_of_wellEscaped hescaped
      exact ⟨decoded, true, decodeAlone_of_decode hdecode, length_of_percentDecode hdecode,
        fun hnot => absurd hescaped hnot⟩
    · obtain ⟨decoded, hdecode⟩ := (refused_iff text).mpr hzero
      exact ⟨decoded, false, hdecode, length_of_decodeAlone hdecode, fun _ => rfl⟩

theorem keepsToClosed_iff (text : Bytes) :
    KeepsToClosed text ↔ WellEscaped text ∧ 37 ∈ text ∨ HasZeroDigit text := by
  constructor
  · rintro ⟨decoded, whole, hdecode, hlength, hrefuses⟩
    cases whole with
    | false => exact .inr ((refused_iff text).mp ⟨decoded, hdecode⟩)
    | true =>
        have hescaped : WellEscaped text := by
          by_contra hnot
          cases hrefuses hnot
        obtain ⟨decoded', hdecode'⟩ := decode_of_wellEscaped hescaped
        cases hdecode.symm.trans (decodeAlone_of_decode hdecode')
        rw [if_pos rfl, List.length_append, List.length_singleton] at hlength
        exact .inl ⟨hescaped, (length_lt_iff hdecode').mp hlength⟩
  · rintro (⟨hescaped, hmem⟩ | hzero)
    · obtain ⟨decoded, hdecode⟩ := decode_of_wellEscaped hescaped
      refine ⟨decoded, true, decodeAlone_of_decode hdecode, ?_, fun hnot => absurd hescaped hnot⟩
      rw [if_pos rfl, List.length_append, List.length_singleton]
      exact (length_lt_iff hdecode).mpr hmem
    · obtain ⟨decoded, hdecode⟩ := (refused_iff text).mpr hzero
      exact ⟨decoded, false, hdecode, length_of_decodeAlone hdecode, fun _ => rfl⟩

/-- Data comes back from its encoding, and the decoder keeps to a text exactly when two hexadecimal digits follow every
percent sign of it or a sequence of it has a zero byte for a digit. With the closing zero byte counted, the text has to
have a percent sign in the first case. -/
theorem percent_coding (data text : Bytes) :
    RoundTripsPercent data ∧ (KeepsTo text ↔ WellEscaped text ∨ HasZeroDigit text) ∧
      (KeepsToClosed text ↔ WellEscaped text ∧ 37 ∈ text ∨ HasZeroDigit text) :=
  ⟨roundTripsPercent data, keepsTo_iff text, keepsToClosed_iff text⟩

/-- A percent sign at the end makes the decoder read on behind the text. -/
theorem not_percent_coding : ¬ ∀ data text, RoundTripsPercent data ∧ KeepsTo text := by
  intro h
  obtain ⟨decoded, whole, hdecode, _⟩ := (h [] [97, 37]).2
  cases hdecode

end Viriatum
