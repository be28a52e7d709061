import Viriatum.Http.Lemmas.HpackExact

/-!
# Integers and strings of the header compression

What is written of an integer or of a string is read back up to its end, and what is longer or cut short is refused
before the accumulated value wraps around.
-/

namespace Viriatum

open Library Effect

/-! ## The accumulation in a word -/

/-- The continuation bytes accumulated in a word of so many bits. -/
def decodeContinuationIn (width : Nat) : (result shift : Nat) → Bytes → Except HpackError (Nat × Bytes)
  | _, _, [] => .error .truncatedInteger
  | result, shift, byte :: rest =>
      if shift > 21 then .error .overflowingInteger
      else
        let result := (result + (byte.toNat &&& 0x7f) <<< shift % 2 ^ width) % 2 ^ width
        if result > hpackMaxInteger then .error .overflowingInteger
        else if byte &&& 0x80 = 0 then .ok (result, rest)
        else decodeContinuationIn width result (shift + 7) rest

def decodeIntegerIn (width prefixBits : Nat) : Bytes → Except HpackError (Nat × Bytes)
  | [] => .error .truncatedInteger
  | byte :: rest =>
      let mask := 1 <<< prefixBits - 1
      let result := byte.toNat &&& mask
      if result < mask then .ok (result, rest) else decodeContinuationIn width result 0 rest

/-- Below the limit of the codec a word of twenty nine bits has room for one more continuation byte. -/
theorem decodeContinuationIn_eq {width : Nat} (hwidth : 29 ≤ width) (data : Bytes) (i result : Nat)
    (hresult : result ≤ hpackMaxInteger) :
    decodeContinuationIn width result (7 * i) data = decodeContinuation result (7 * i) data := by
  induction data generalizing i result with
  | nil => rfl
  | cons byte rest ih =>
      rw [decodeContinuationIn, decodeContinuation]
      split
      case isTrue => rfl
      case isFalse hshift =>
        have hpow : 2 ^ (7 * i) ≤ 2 ^ 21 := Nat.pow_le_pow_right (by decide) (by omega)
        have hlow : byte.toNat &&& 0x7f < 128 := by
          have hmod : byte.toNat &&& 0x7f = byte.toNat % 128 := Nat.and_two_pow_sub_one_eq_mod byte.toNat 7
          omega
        have hadd : (byte.toNat &&& 0x7f) <<< (7 * i) < 2 ^ 28 := by
          rw [Nat.shiftLeft_eq]
          calc (byte.toNat &&& 0x7f) * 2 ^ (7 * i) ≤ (byte.toNat &&& 0x7f) * 2 ^ 21 := Nat.mul_le_mul_left _ hpow
            _ < 128 * 2 ^ 21 := Nat.mul_lt_mul_of_pos_right hlow (by decide)
        have hword : (2 : Nat) ^ 29 ≤ 2 ^ width := Nat.pow_le_pow_right (by decide) hwidth
        simp only [hpackMaxInteger] at hresult
        have hterm : (byte.toNat &&& 0x7f) <<< (7 * i) % 2 ^ width = (byte.toNat &&& 0x7f) <<< (7 * i) :=
          Nat.mod_eq_of_lt (by omega)
        have hsum : (result + (byte.toNat &&& 0x7f) <<< (7 * i)) % 2 ^ width = result + (byte.toNat &&& 0x7f) <<< (7 * i) :=
          Nat.mod_eq_of_lt (by omega)
        simp only [hterm, hsum]
        split
        case isTrue => rfl
        case isFalse hmax =>
          split
          case isTrue => rfl
          case isFalse =>
            have hnext : 7 * i + 7 = 7 * (i + 1) := by ring
            rw [hnext]
            exact ih (i + 1) _ (Nat.le_of_not_lt hmax)

/-! ## What is accepted -/

/-- What is read of a continuation is within the limit, and each part of it is cut short. -/
theorem decodeContinuation_accepted {data rest : Bytes} {i result v : Nat} (hi : i ≤ 4)
    (h : decodeContinuation result (7 * i) data = .ok (v, rest)) :
    v ≤ hpackMaxInteger ∧ ∃ used, data = used ++ rest ∧ used.length + i ≤ 4 ∧
      ∀ k < used.length, decodeContinuation result (7 * i) (used.take k) = .error .truncatedInteger := by
  induction data generalizing i result with
  | nil => cases h
  | cons byte data ih =>
      rw [decodeContinuation] at h
      split at h
      case isTrue => cases h
      case isFalse hshift =>
        dsimp only at h
        split at h
        case isTrue => cases h
        case isFalse hmax =>
          split at h
          case isTrue hlast =>
            cases h
            refine ⟨Nat.le_of_not_lt hmax, [byte], rfl, ?_, fun k hk => ?_⟩
            · rw [List.length_singleton]
              omega
            · cases Nat.lt_one_iff.mp hk
              rfl
          case isFalse hgo =>
            have hnext : 7 * i + 7 = 7 * (i + 1) := by ring
            rw [hnext] at h
            obtain ⟨hle, used, rfl, hlength, hcut⟩ := ih (by omega) h
            refine ⟨hle, byte :: used, rfl, ?_, fun k hk => ?_⟩
            · rw [List.length_cons]
              omega
            · cases k with
              | zero => rfl
              | succ k =>
                  rw [List.take_succ_cons, decodeContinuation, if_neg hshift]
                  dsimp only
                  rw [if_neg hmax, if_neg hgo, hnext]
                  exact hcut k (Nat.lt_of_succ_lt_succ hk)

theorem prefix_le {prefixBits : Nat} (hp : prefixBits ≤ 8) : 1 <<< prefixBits - 1 ≤ hpackMaxInteger := by
  have hpow : 2 ^ prefixBits ≤ 2 ^ 8 := Nat.pow_le_pow_right (by decide) hp
  rw [Nat.one_shiftLeft, hpackMaxInteger]
  omega

theorem decodeInteger_accepted {prefixBits v : Nat} {data rest : Bytes} (hp : prefixBits ≤ 8)
    (h : decodeInteger prefixBits data = .ok (v, rest)) :
    v ≤ hpackMaxInteger ∧ ∃ used, data = used ++ rest ∧ used.length ≤ 5 ∧
      ∀ k < used.length, decodeInteger prefixBits (used.take k) = .error .truncatedInteger := by
  cases data with
  | nil => cases h
  | cons byte data =>
      simp only [decodeInteger] at h
      split at h
      case isTrue hlt =>
        cases h
        refine ⟨Nat.le_trans (Nat.le_of_lt hlt) (prefix_le hp), [byte], rfl, by simp, fun k hk => ?_⟩
        cases Nat.lt_one_iff.mp hk
        rfl
      case isFalse hge =>
        obtain ⟨hle, used, rfl, hlength, hcut⟩ := decodeContinuation_accepted (i := 0) (Nat.zero_le 4) h
        refine ⟨hle, byte :: used, rfl, ?_, fun k hk => ?_⟩
        · rw [List.length_cons]
          omega
        · cases k with
          | zero => rfl
          | succ k =>
              simp only [List.take_succ_cons, decodeInteger, if_neg hge]
              exact hcut k (Nat.lt_of_succ_lt_succ hk)

/-! ## What is written -/

/-- The bits of the flags are those of the first byte that are above the prefix. -/
theorem flags_kept {prefixBits flags m : Nat} (hp : prefixBits ≤ 8) (hflags : flags < 256) (hf : flags % 2 ^ prefixBits = 0)
    (hm : m < 2 ^ prefixBits) : (UInt8.ofNat (flags ||| m)).toNat / 2 ^ prefixBits * 2 ^ prefixBits = flags := by
  have hpow : 2 ^ prefixBits ≤ 2 ^ 8 := Nat.pow_le_pow_right (by decide) hp
  have hbyte : flags ||| m < 2 ^ 8 := Nat.or_lt_two_pow hflags (Nat.lt_of_lt_of_le hm hpow)
  rw [UInt8.toNat_ofNat', Nat.mod_eq_of_lt hbyte, Nat.or_div_two_pow, Nat.div_eq_of_lt hm, Nat.or_zero]
  exact Nat.div_mul_cancel (Nat.dvd_of_mod_eq_zero hf)

/-- Some bytes are written to a buffer that has room for them, and to no other one. -/
def Writes (m : Nat → Effect HpackError Bytes Unit) (coded : Bytes) : Prop :=
  ∀ n buffer, if buffer.length + coded.length ≤ n then (m n).run buffer = (.ok (), buffer ++ coded)
    else ∃ e left, (m n).run buffer = (.error e, left)

theorem writes_of_puts {m : Nat → Effect HpackError Bytes Unit} {lead tail : Bytes} (h : ∀ n, Puts n (m n) lead tail) :
    Writes m (lead ++ tail) := by
  intro n buffer
  have hspec := (h n).spec buffer
  unfold wp at hspec
  split at hspec
  case h_1 written hrun =>
    rw [if_pos hspec.2, hrun, hspec.1]
  case h_2 e left hrun =>
    rw [if_neg (Nat.not_le.mpr hspec.1)]
    exact ⟨e, left, hrun⟩

/-- A string of either form is read back. -/
theorem decodeString_raw {m : Nat} {value : Bytes} (hlength : value.length ≤ hpackMaxInteger) (hm : value.length ≤ m)
    (rest : Bytes) : decodeString m (integerBytes 7 0x00 value.length ++ (value ++ rest)) = .ok (value, rest) := by
  have hcode : IntegerCode 7 0x00 value.length _ := integerBytes_code (by decide) (by decide) hlength
  obtain ⟨low, tail, hlow, hhead⟩ := hcode.head
  have hdecode := hcode.decode (value ++ rest)
  rw [hhead, List.cons_append] at hdecode ⊢
  have hroom : ¬ value.length > (value ++ rest).length := by
    rw [List.length_append]
    omega
  rw [decodeString, hdecode]
  simp only [bind, Except.bind]
  rw [if_neg hroom, if_neg (by simpa using string_flag.2 low hlow), if_neg (by omega), List.take_left, List.drop_left]

theorem decodeString_coded {m : Nat} {value : Bytes} (hlength : sizeHuffman value ≤ hpackMaxInteger)
    (hm : value.length ≤ m) (rest : Bytes) :
    decodeString m (integerBytes 7 0x80 (sizeHuffman value) ++ (huffmanBytes value ++ rest)) = .ok (value, rest) := by
  obtain ⟨coded, pad, hcoded, hsize, hpad, hbits⟩ := encodeHuffman_spec value (le_refl (sizeHuffman value))
  have hbytes : huffmanBytes value = coded := by simp [huffmanBytes, hcoded]
  have hcode : IntegerCode 7 0x80 (sizeHuffman value) _ := integerBytes_code (by decide) (by decide) hlength
  obtain ⟨low, tail, hlow, hhead⟩ := hcode.head
  have hdecode := hcode.decode (coded ++ rest)
  rw [hbytes]
  rw [hhead, List.cons_append] at hdecode ⊢
  have hroom : ¬ sizeHuffman value > (coded ++ rest).length := by
    rw [List.length_append]
    omega
  rw [decodeString, hdecode]
  simp only [bind, Except.bind]
  rw [if_neg hroom, if_pos (string_flag.1 low hlow), ← hsize, List.take_left, List.drop_left,
    decodeHuffman_of_bits hpad hbits hm]

/-! ## The codec -/

/-- The integers of a prefix of so many bits: those within the limit are written below the flags and read back up to
their end; what is accepted is within the limit and takes five bytes at most, of which none can be missing; and no
word of twenty nine bits or more wraps around. -/
structure IntegerCodec (prefixBits : Nat) : Prop where
  written : ∀ flags value, flags < 256 → flags % 2 ^ prefixBits = 0 → value ≤ hpackMaxInteger → ∃ head tail,
    Writes (fun n => encodeInteger n prefixBits flags value) (head :: tail) ∧
      head.toNat / 2 ^ prefixBits * 2 ^ prefixBits = flags ∧
      ∀ rest, decodeInteger prefixBits (head :: tail ++ rest) = .ok (value, rest)
  accepted : ∀ data value rest, decodeInteger prefixBits data = .ok (value, rest) →
    value ≤ hpackMaxInteger ∧ ∃ used, data = used ++ rest ∧ used.length ≤ 5 ∧
      ∀ k < used.length, decodeInteger prefixBits (used.take k) = .error .truncatedInteger
  wraps : ∀ width data, 29 ≤ width → decodeIntegerIn width prefixBits data = decodeInteger prefixBits data

theorem integerCodec {prefixBits : Nat} (hp : prefixBits ≤ 8) : IntegerCodec prefixBits where
  written flags value hflags hf hvalue := by
    have hcode := integerBytes_code hp hf hvalue
    obtain ⟨low, tail, hlow, hhead⟩ := hcode.head
    have hwrites := writes_of_puts fun n => encodeInteger_puts n prefixBits flags value
    rw [List.append_nil, hhead] at hwrites
    have hdecode := hcode.decode
    rw [hhead] at hdecode
    exact ⟨_, tail, hwrites, flags_kept hp hflags hf hlow, hdecode⟩
  accepted data value rest h := decodeInteger_accepted hp h
  wraps width data hwidth := by
    cases data with
    | nil => rfl
    | cons byte rest =>
        simp only [decodeIntegerIn, decodeInteger]
        split
        case isTrue => rfl
        case isFalse =>
          have hmask : byte.toNat &&& 1 <<< prefixBits - 1 ≤ hpackMaxInteger :=
            Nat.le_trans Nat.and_le_right (prefix_le hp)
          exact decodeContinuationIn_eq hwidth rest 0 _ hmask

/-- A string whose length, in the form that is written, is within the limit is read back up to its end, into a buffer
that has room for it. Each of the two forms is. -/
structure StringCodec (value : Bytes) : Prop where
  written : min (sizeHuffman value) value.length ≤ hpackMaxInteger → ∃ coded,
    Writes (fun n => encodeString n value) coded ∧
      ∀ m rest, value.length ≤ m → decodeString m (coded ++ rest) = .ok (value, rest)
  raw : value.length ≤ hpackMaxInteger → ∃ lead, Writes (fun n => encodeInteger n 7 0x00 value.length) lead ∧
    ∀ m rest, value.length ≤ m → decodeString m (lead ++ (value ++ rest)) = .ok (value, rest)
  coded : sizeHuffman value ≤ hpackMaxInteger → ∃ lead body,
    Writes (fun n => encodeInteger n 7 0x80 (sizeHuffman value)) lead ∧
    encodeHuffman (sizeHuffman value) value = .ok body ∧
    ∀ m rest, value.length ≤ m → decodeString m (lead ++ (body ++ rest)) = .ok (value, rest)

theorem stringCodec (value : Bytes) : StringCodec value where
  written hlimit := by
    refine ⟨_, writes_of_puts fun n => encodeString_puts n value, fun m rest hm => ?_⟩
    rw [stringLead, stringTail, List.append_assoc]
    split
    case isTrue hshorter => exact decodeString_coded (by omega) hm rest
    case isFalse hlonger => exact decodeString_raw (by omega) hm rest
  raw hlimit := by
    have hwrites := writes_of_puts fun n => encodeInteger_puts n 7 0x00 value.length
    rw [List.append_nil] at hwrites
    exact ⟨_, hwrites, fun m rest hm => decodeString_raw hlimit hm rest⟩
  coded hlimit := by
    have hwrites := writes_of_puts fun n => encodeInteger_puts n 7 0x80 (sizeHuffman value)
    rw [List.append_nil] at hwrites
    obtain ⟨body, pad, hbody, -, -, -⟩ := encodeHuffman_spec value (le_refl (sizeHuffman value))
    have hbytes : huffmanBytes value = body := by simp [huffmanBytes, hbody]
    exact ⟨_, body, hwrites, hbody, fun m rest hm => hbytes ▸ decodeString_coded hlimit hm rest⟩

/-- The integers of every prefix and the strings. -/
theorem hpack_literals : (∀ prefixBits, 1 ≤ prefixBits → prefixBits ≤ 8 → IntegerCodec prefixBits) ∧
    ∀ value, StringCodec value :=
  ⟨fun _ _ hp => integerCodec hp, stringCodec⟩

end Viriatum
