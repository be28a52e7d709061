import Mathlib.Tactic.Ring
import Viriatum.Http.Hpack
import Viriatum.Http.Lemmas.HpackTable
import Viriatum.Http.Lemmas.Huffman

/-!
# What is encoded is decoded

The bytes written for an integer, for a string and for a field are read back, whatever follows them.
-/

namespace Viriatum

open Library Effect

/-! ## Integers -/

theorem low_byte {m : Nat} (h : m < 128) :
    (UInt8.ofNat m).toNat &&& 0x7f = m ∧ UInt8.ofNat m &&& 0x80 = 0 := by
  revert m
  decide

theorem high_byte {m : Nat} (h : m < 128) :
    (UInt8.ofNat (m ||| 0x80)).toNat &&& 0x7f = m ∧ UInt8.ofNat (m ||| 0x80) &&& 0x80 ≠ 0 := by
  revert m
  decide

theorem putInteger_eq {n : Nat} {buffer : Bytes} (byte : UInt8) (h : buffer.length < n) :
    putInteger n byte buffer = .ok (buffer ++ [byte]) := if_neg (by omega)

/-- The bytes are read as the continuation of an integer, up to `k` of them going on. -/
structure ContinuationCode (k value : Nat) (coded : Bytes) : Prop where
  length_le : coded.length ≤ k + 1
  decode : ∀ i result rest, i + k ≤ 3 → result + value * 2 ^ (7 * i) ≤ hpackMaxInteger →
    decodeContinuation result (7 * i) (coded ++ rest) = .ok (result + value * 2 ^ (7 * i), rest)

theorem ContinuationCode.last {value : Nat} (k : Nat) (h : value < 128) :
    ContinuationCode k value [UInt8.ofNat value] where
  length_le := by simp
  decode i result rest hi hmax := by
    obtain ⟨hvalue, hstop⟩ := low_byte h
    rw [List.singleton_append, decodeContinuation, if_neg (by omega), hvalue, Nat.shiftLeft_eq]
    simp only
    rw [if_neg (by omega), if_pos hstop]

theorem ContinuationCode.next {k value : Nat} {coded : Bytes} (h : ContinuationCode k (value / 128) coded) :
    ContinuationCode (k + 1) value (UInt8.ofNat (value % 128 ||| 0x80) :: coded) where
  length_le := by simpa using h.length_le
  decode i result rest hi hmax := by
    obtain ⟨hvalue, hgo⟩ := high_byte (Nat.mod_lt value (by decide : 0 < 128))
    have hsplit : value * 2 ^ (7 * i) = value % 128 * 2 ^ (7 * i) + value / 128 * 2 ^ (7 * (i + 1)) := by
      calc value * 2 ^ (7 * i) = (value % 128 + 128 * (value / 128)) * 2 ^ (7 * i) := by
            rw [Nat.mod_add_div]
        _ = value % 128 * 2 ^ (7 * i) + value / 128 * 2 ^ (7 * (i + 1)) := by ring
    rw [List.cons_append, decodeContinuation, if_neg (by omega), hvalue, Nat.shiftLeft_eq]
    simp only
    rw [if_neg (by omega), if_neg hgo, show 7 * i + 7 = 7 * (i + 1) by ring,
      h.decode (i + 1) _ rest (by omega) (by omega), hsplit, Nat.add_assoc]

theorem encodeContinuation_spec {n k rounds : Nat} (value : Nat) (buffer : Bytes) (hr : value ≤ rounds)
    (hv : value < 128 ^ (k + 1)) (hn : buffer.length + k < n) :
    ∃ coded, encodeContinuation n rounds value buffer = .ok (buffer ++ coded) ∧ ContinuationCode k value coded := by
  induction rounds generalizing k value buffer with
  | zero => exact ⟨_, putInteger_eq _ (by omega), .last k (by omega)⟩
  | succ rounds ih =>
      rw [encodeContinuation]
      split
      case isTrue hgo =>
        obtain ⟨k, rfl⟩ : ∃ j, k = j + 1 := by
          cases k with
          | zero => omega
          | succ j => exact ⟨j, rfl⟩
        have hdiv : value >>> 7 = value / 128 := Nat.shiftRight_eq_div_pow value 7
        have hmod : value &&& 0x7f = value % 128 := Nat.and_two_pow_sub_one_eq_mod value 7
        rw [hdiv, hmod, putInteger_eq _ (by omega)]
        obtain ⟨coded, hcoded, hcode⟩ := ih (k := k) (value / 128)
          (buffer ++ [UInt8.ofNat (value % 128 ||| 0x80)]) (by omega)
          (by
            rw [Nat.pow_succ] at hv
            omega)
          (by
            rw [List.length_append, List.length_singleton]
            omega)
        refine ⟨UInt8.ofNat (value % 128 ||| 0x80) :: coded, ?_, hcode.next⟩
        rw [List.append_assoc] at hcoded
        exact hcoded
      case isFalse hstop => exact ⟨_, putInteger_eq _ (by omega), .last k (by omega)⟩

/-- The bytes are read as an integer, the first of them having the given flags above the prefix. -/
structure IntegerCode (prefixBits flags value : Nat) (coded : Bytes) : Prop where
  length_le : coded.length ≤ 5
  head : ∃ m rest, m < 2 ^ prefixBits ∧ coded = UInt8.ofNat (flags ||| m) :: rest
  decode : ∀ rest, decodeInteger prefixBits (coded ++ rest) = .ok (value, rest)

/-- The prefix of the first byte is read back out of the flags that sit above it. -/
theorem prefix_of_flags {prefixBits flags m : Nat} (hp : prefixBits ≤ 8) (hf : flags % 2 ^ prefixBits = 0)
    (hm : m < 2 ^ prefixBits) : (UInt8.ofNat (flags ||| m)).toNat &&& (2 ^ prefixBits - 1) = m := by
  rw [Nat.and_two_pow_sub_one_eq_mod, UInt8.toNat_ofNat', Nat.mod_mod_of_dvd _ (Nat.pow_dvd_pow 2 hp),
    Nat.or_mod_two_pow, hf, Nat.zero_or, Nat.mod_eq_of_lt hm]

/-- An integer within the range of the codec is written in five bytes at most. -/
theorem encodeInteger_spec {n prefixBits flags value : Nat} {buffer : Bytes} (hp : prefixBits ≤ 8)
    (hf : flags % 2 ^ prefixBits = 0) (hv : value ≤ hpackMaxInteger) (hn : buffer.length + 5 ≤ n) :
    wp (encodeInteger n prefixBits flags value)
      (fun _ written => ∃ coded, written = buffer ++ coded ∧ IntegerCode prefixBits flags value coded)
      (fun _ _ => False) buffer := by
  have hpos := Nat.two_pow_pos prefixBits
  simp only [encodeInteger, wp_bind, wp_get, Nat.one_shiftLeft]
  by_cases hlt : value < 2 ^ prefixBits - 1
  · rw [if_pos hlt, putInteger_eq _ (by omega)]
    refine ⟨_, rfl, ⟨by simp, ⟨value, [], by omega, rfl⟩, fun rest => ?_⟩⟩
    rw [List.singleton_append, decodeInteger]
    simp only [Nat.one_shiftLeft]
    rw [prefix_of_flags hp hf (by omega), if_pos hlt]
  · rw [if_neg hlt, putInteger_eq _ (by omega)]
    obtain ⟨coded, hcoded, hcode⟩ := encodeContinuation_spec (n := n) (k := 3)
      (value - (2 ^ prefixBits - 1)) (buffer ++ [UInt8.ofNat (flags ||| (2 ^ prefixBits - 1))])
      le_rfl
      (by
        simp only [hpackMaxInteger] at hv
        omega)
      (by
        rw [List.length_append, List.length_singleton]
        omega)
    have hlength := hcode.length_le
    have hcont := hcode.decode 0 (2 ^ prefixBits - 1)
    simp only [bind, Except.bind, hcoded]
    refine ⟨UInt8.ofNat (flags ||| (2 ^ prefixBits - 1)) :: coded, by simp, ?_, ?_, fun rest => ?_⟩
    · rw [List.length_cons]
      omega
    · exact ⟨2 ^ prefixBits - 1, coded, by omega, rfl⟩
    · rw [List.cons_append, decodeInteger]
      simp only [Nat.one_shiftLeft]
      rw [prefix_of_flags hp hf (by omega), if_neg (by omega), show (0 : Nat) = 7 * 0 from rfl,
        hcont rest (by omega) (by omega)]
      congr 2
      omega

/-! ## Strings -/

/-- The bytes are read as a string. -/
structure StringCode (value coded : Bytes) : Prop where
  length_le : coded.length ≤ 5 + value.length
  decode : ∀ bufferSize rest, value.length ≤ bufferSize → decodeString bufferSize (coded ++ rest) = .ok (value, rest)

theorem string_flag : (∀ m < 2 ^ 7, UInt8.ofNat (0x80 ||| m) &&& 0x80 ≠ 0) ∧
    ∀ m < 2 ^ 7, UInt8.ofNat (0x00 ||| m) &&& 0x80 = 0 := by
  decide

theorem encodeString_spec {n : Nat} {value buffer : Bytes} (hv : value.length ≤ hpackMaxInteger)
    (hn : buffer.length + 5 + value.length ≤ n) :
    wp (encodeString n value) (fun _ written => ∃ coded, written = buffer ++ coded ∧ StringCode value coded)
      (fun _ _ => False) buffer := by
  simp only [encodeString, wp_ite, wp_bind]
  split
  case isTrue hshorter =>
    refine (encodeInteger_spec (n := n) (by decide) (by decide) (by omega) (by omega)).mono
      (fun _ written hw => ?_) (fun _ _ h => h.elim)
    obtain ⟨coded, rfl, hcode⟩ := hw
    have hlength := hcode.length_le
    obtain ⟨body, pad, hbody, hsize, hpad, hbits⟩ :=
      encodeHuffman_spec (n := n - (buffer ++ coded).length) value (by
        rw [List.length_append]
        omega)
    simp only [wp_get, hbody, wp_set]
    refine ⟨coded ++ body, by simp, ?_, fun bufferSize rest hle => ?_⟩
    · rw [List.length_append]
      omega
    · obtain ⟨m, tail, hm, hhead⟩ := hcode.head
      have hdecode := hcode.decode (body ++ rest)
      rw [hhead, List.cons_append] at hdecode
      rw [hhead, List.append_assoc, List.cons_append, decodeString, hdecode]
      show (if sizeHuffman value > (body ++ rest).length then _ else _) = _
      rw [if_neg (by rw [List.length_append]; omega), if_pos (string_flag.1 m hm), ← hsize, List.take_left,
        List.drop_left, decodeHuffman_of_bits hpad hbits hle]
      rfl
  case isFalse =>
    refine (encodeInteger_spec (n := n) (by decide) (by decide) hv (by omega)).mono
      (fun _ written hw => ?_) (fun _ _ h => h.elim)
    obtain ⟨coded, rfl, hcode⟩ := hw
    have hlength := hcode.length_le
    simp only [wp_get, wp_throw, wp_set]
    rw [if_neg (by rw [List.length_append]; omega)]
    refine ⟨coded ++ value, by simp, ?_, fun bufferSize rest hle => ?_⟩
    · rw [List.length_append]
      omega
    · obtain ⟨m, tail, hm, hhead⟩ := hcode.head
      have hdecode := hcode.decode (value ++ rest)
      rw [hhead, List.cons_append] at hdecode
      rw [hhead, List.append_assoc, List.cons_append, decodeString, hdecode]
      show (if value.length > (value ++ rest).length then _ else _) = _
      rw [if_neg (by rw [List.length_append]; omega), if_neg (by simpa using string_flag.2 m hm),
        if_neg (by omega), List.take_left, List.drop_left]

/-! ## Fields -/

/-- A field that the codec accepts: the name and the value are within their sizes. -/
structure HpackHeader.Within (header : HpackHeader) : Prop where
  name_le : header.name.length ≤ hpackMaxNameSize
  value_le : header.value.length ≤ hpackMaxValueSize

instance (header : HpackHeader) : Decidable header.Within :=
  decidable_of_iff (header.name.length ≤ hpackMaxNameSize ∧ header.value.length ≤ hpackMaxValueSize)
    ⟨fun h => ⟨h.1, h.2⟩, fun h => ⟨h.1, h.2⟩⟩

/-- The table of the encoder after a field. -/
def HpackTable.after (table : HpackTable) (header : HpackHeader) (indexing : Bool) : HpackTable :=
  if (table.find header).2 = false ∧ indexing then table.insert header else table

theorem HpackTable.Same.after {t u : HpackTable} (h : t.Same u) (header : HpackHeader) (indexing : Bool) :
    (t.after header indexing).Same (u.after header indexing) := by
  rw [HpackTable.after, HpackTable.after, HpackTable.find_eq, HpackTable.find_eq, h.space_eq]
  split
  · exact h.insert header
  · exact h

/-- The bytes are read as a field by a decoder whose table is the same as the one of the encoder. -/
structure FieldCode (table : HpackTable) (header : HpackHeader) (indexing : Bool) (coded : Bytes) : Prop where
  length_le : coded.length ≤ header.size
  decode : ∃ byte tail, coded = byte :: tail ∧ byte &&& 0xe0 ≠ 0x20 ∧ ∀ rest, ∀ decoder : HpackTable,
    table.Same decoder →
      decodeField decoder byte (byte :: (tail ++ rest)) = .ok (header, decoder.after header indexing, rest)

theorem indexed_flag : ∀ m < 2 ^ 7, UInt8.ofNat (0x80 ||| m) &&& 0x80 ≠ 0 ∧
    UInt8.ofNat (0x80 ||| m) &&& 0xe0 ≠ 0x20 := by
  decide

private theorem inserted_flag : ∀ m < 2 ^ 6, UInt8.ofNat (0x40 ||| m) &&& 0x80 = 0 ∧
    UInt8.ofNat (0x40 ||| m) &&& 0xe0 ≠ 0x20 ∧ UInt8.ofNat (0x40 ||| m) &&& 0x40 ≠ 0 := by
  decide

theorem literal_flag : ∀ m < 2 ^ 4, UInt8.ofNat (0x00 ||| m) &&& 0x80 = 0 ∧
    UInt8.ofNat (0x00 ||| m) &&& 0xe0 ≠ 0x20 ∧ UInt8.ofNat (0x00 ||| m) &&& 0x40 = 0 := by
  decide

/-- A name written after its index is read back: as the one of the entry found, or as a string of its own. -/
theorem decodeName_spec {table decoder : HpackTable} {header : HpackHeader} {index : Nat} {coded : Bytes}
    (hsame : table.Same decoder) (hfind : table.find header = (index, false)) (hw : header.Within)
    (hcode : if index = 0 then StringCode header.name coded else coded = []) (rest : Bytes) :
    decodeName decoder index (coded ++ rest) = .ok (header.name, rest) := by
  rw [decodeName]
  split
  case isTrue hzero =>
    rw [if_pos hzero] at hcode
    exact hcode.decode _ rest hw.name_le
  case isFalse hfound =>
    rw [if_neg hfound] at hcode
    obtain ⟨_, entry, hname, hget⟩ := HpackTable.find_false hfind hfound
    rw [hsame.space_eq] at hget
    have hle := hw.name_le
    rw [HpackTable.get_eq (by omega) hget, hcode]
    show (if entry.name.length > hpackMaxNameSize then _ else _) = _
    rw [hname, if_neg (by omega)]
    rfl

/-- A literal field: the index of its name, the name when it has none, and the value. -/
theorem fieldCode_literal {table : HpackTable} {header : HpackHeader} {index flags : Nat} {indexing : Bool}
    {first name value : Bytes} (hfind : table.find header = (index, false)) (hw : header.Within)
    (hflags : flags = if indexing then 0x40 else 0x00)
    (hfirst : IntegerCode (if indexing then 6 else 4) flags index first)
    (hname : if index = 0 then StringCode header.name name else name = [])
    (hvalue : StringCode header.value value) : FieldCode table header indexing (first ++ name ++ value) where
  length_le := by
    have := hfirst.length_le
    have := hvalue.length_le
    have hlen : name.length ≤ 5 + header.name.length := by
      split at hname
      · exact hname.length_le
      · simp [hname]
    simp only [List.length_append, HpackHeader.size, hpackEntryOverhead]
    omega
  decode := by
    obtain ⟨m, tail, hm, hhead⟩ := hfirst.head
    have hflag : UInt8.ofNat (flags ||| m) &&& 0x80 = 0 ∧ UInt8.ofNat (flags ||| m) &&& 0xe0 ≠ 0x20 ∧
        (UInt8.ofNat (flags ||| m) &&& 0x40 ≠ 0 ↔ indexing = true) := by
      cases indexing with
      | true =>
          subst hflags
          obtain ⟨h1, h2, h3⟩ := inserted_flag m hm
          exact ⟨h1, h2, by simpa using h3⟩
      | false =>
          subst hflags
          obtain ⟨h1, h2, h3⟩ := literal_flag m hm
          exact ⟨h1, h2, by simpa using h3⟩
    refine ⟨UInt8.ofNat (flags ||| m), tail ++ name ++ value, by simp [hhead], hflag.2.1, fun rest decoder hsame => ?_⟩
    have hinteger := hfirst.decode (name ++ (value ++ rest))
    rw [hhead, List.cons_append] at hinteger
    have hfind' : decoder.find header = (index, false) := by
      rw [HpackTable.find_eq, ← hsame.space_eq, ← HpackTable.find_eq, hfind]
    rw [decodeField, if_neg (by simpa using hflag.1)]
    simp only [hflag.2.2, List.append_assoc, hinteger, bind, Except.bind]
    rw [decodeName_spec hsame hfind hw hname]
    simp only [hvalue.decode _ rest hw.value_le]
    rw [HpackTable.after, hfind']
    simp

/-- A field that one of the tables holds: its index. -/
theorem fieldCode_indexed {table : HpackTable} {header : HpackHeader} {index : Nat} {indexing : Bool} {coded : Bytes}
    (hfind : table.find header = (index, true)) (hcode : IntegerCode 7 0x80 index coded) :
    FieldCode table header indexing coded where
  length_le := by
    have := hcode.length_le
    simp only [HpackHeader.size, hpackEntryOverhead]
    omega
  decode := by
    obtain ⟨hpos, _, hget⟩ := HpackTable.find_true hfind
    obtain ⟨m, tail, hm, hhead⟩ := hcode.head
    refine ⟨_, tail, hhead, (indexed_flag m hm).2, fun rest decoder hsame => ?_⟩
    have hdecode := hcode.decode rest
    rw [hhead, List.cons_append] at hdecode
    rw [hsame.space_eq] at hget
    rw [decodeField, if_pos (indexed_flag m hm).1, hdecode]
    simp only [bind, Except.bind, HpackTable.get_eq hpos hget]
    rw [HpackTable.after, HpackTable.find_eq, ← hsame.space_eq, ← HpackTable.find_eq, hfind]
    simp

theorem encodeHpack_spec {n : Nat} {table : HpackTable} {buffer : Bytes} {header : HpackHeader}
    (hw : header.Within) (indexing : Bool) (hn : buffer.length + header.size ≤ n) :
    wp (encodeHpack n header indexing)
      (fun _ s => ∃ coded, s = (table.after header indexing, buffer ++ coded) ∧
        FieldCode table header indexing coded)
      (fun _ _ => False) (table, buffer) := by
  have hsize : header.size = header.name.length + header.value.length + 32 := rfl
  have hname := hw.name_le
  have hvalue := hw.value_le
  simp only [hpackMaxNameSize, hpackMaxValueSize] at hname hvalue
  have hmax : hpackMaxInteger = 268435455 := rfl
  obtain ⟨index, complete, hfind⟩ : ∃ index complete, table.find header = (index, complete) := ⟨_, _, rfl⟩
  simp only [encodeHpack, wp_bind, wp_get, hfind]
  cases complete with
  | true =>
      obtain ⟨_, hle, _⟩ := HpackTable.find_true hfind
      simp only [hpackStaticSize, hpackMaxEntries, hpackTableSize, hpackEntryOverhead] at hle
      simp only [if_true, wp_second]
      refine (encodeInteger_spec (n := n) (by decide) (by decide) (by omega) (by omega)).mono
        (fun _ written hwritten => ?_) (fun _ _ h => h.elim)
      obtain ⟨coded, rfl, hcode⟩ := hwritten
      refine ⟨coded, ?_, fieldCode_indexed hfind hcode⟩
      rw [HpackTable.after, hfind]
      simp
  | false =>
      have hindex : index ≤ hpackMaxInteger := by
        by_cases h0 : index = 0
        · omega
        · have := (HpackTable.find_false hfind h0).1
          simp only [hpackStaticSize, hpackMaxEntries, hpackTableSize, hpackEntryOverhead] at this
          omega
      have hafter : table.after header indexing = if indexing then table.insert header else table := by
        rw [HpackTable.after, hfind]
        simp
      have hfirst : wp (if indexing then encodeInteger n 6 0x40 index else encodeInteger n 4 0x00 index)
          (fun _ written => ∃ first, written = buffer ++ first ∧
            IntegerCode (if indexing then 6 else 4) (if indexing then 0x40 else 0x00) index first)
          (fun _ _ => False) buffer := by
        cases indexing with
        | true => exact encodeInteger_spec (by decide) (by decide) hindex (by omega)
        | false => exact encodeInteger_spec (by decide) (by decide) hindex (by omega)
      have hname : ∀ written : Bytes, written.length + 5 + header.name.length ≤ n →
          wp (if index = 0 then encodeString n header.name else pure ())
            (fun _ written' => ∃ name, written' = written ++ name ∧
              if index = 0 then StringCode header.name name else name = [])
            (fun _ _ => False) written := by
        intro written hle
        split
        · exact encodeString_spec (by omega) hle
        · exact ⟨[], by simp, rfl⟩
      simp only [Bool.false_eq_true, if_false, wp_bind, wp_second]
      refine hfirst.mono ?_ fun _ _ h => h.elim
      rintro _ _ ⟨first, rfl, hfirst⟩
      have hfirst_length := hfirst.length_le
      refine (hname _ (by rw [List.length_append]; omega)).mono ?_ fun _ _ h => h.elim
      rintro _ _ ⟨name, rfl, hname⟩
      have hname_length : name.length ≤ 5 + header.name.length := by
        split at hname
        · exact hname.length_le
        · simp [hname]
      refine (encodeString_spec (n := n) (by omega) ?_).mono ?_ fun _ _ h => h.elim
      · simp only [List.length_append]
        omega
      · rintro _ _ ⟨value, rfl, hvalue⟩
        have hfield := fieldCode_literal hfind hw rfl hfirst hname hvalue
        cases indexing with
        | true => exact ⟨first ++ name ++ value, by simp [hafter], hfield⟩
        | false => exact ⟨first ++ name ++ value, by simp [hafter], hfield⟩

/-! ## The loop of the decoder -/

section Decode

variable {ε σ : Type} {callback : HpackHeader → Effect ε σ Unit} {refuse : HpackError → ε}

/-- A round that reads a field inserts it, accounts it and hands it to the callback. -/
theorem wp_decodeRepresentations_field {rounds listSize : Nat} {field : Bool} {byte : UInt8} {data rest : Bytes}
    {header : HpackHeader} {table table' : HpackTable} {s : σ} {Q : Bytes → HpackTable × σ → Prop}
    {E : ε → HpackTable × σ → Prop} (hbyte : byte &&& 0xe0 ≠ 0x20)
    (hfield : decodeField table byte (byte :: data) = .ok (header, table', rest))
    (hsize : listSize + header.size ≤ hpackMaxHeaderListSize) :
    wp (decodeRepresentations callback refuse (rounds + 1) listSize field (byte :: data)) Q E (table, s) =
      wp (callback header)
        (fun _ s' => wp (decodeRepresentations callback refuse rounds (listSize + header.size) true rest) Q E
          (table', s'))
        (fun e s' => E e (table', s')) s := by
  rw [decodeRepresentations]
  simp only [wp_bind, wp_get]
  rw [if_neg hbyte, hfield]
  simp only [wp_bind, wp_set]
  rw [if_neg (by omega)]
  simp only [wp_bind, wp_second]

/-- What the callback keeps of the state next to the table, the decoding of a block keeps. -/
theorem decodeRepresentations_keeps {I : σ → Prop}
    (hcallback : ∀ header s, I s → wp (callback header) (fun _ => I) (fun _ => I) s) {rounds listSize : Nat}
    {field : Bool} {data : Bytes} {table : HpackTable} {s : σ} (hs : I s) :
    wp (decodeRepresentations callback refuse rounds listSize field data) (fun _ p => I p.2) (fun _ p => I p.2)
      (table, s) := by
  induction rounds generalizing listSize field data table s with
  | zero => cases data <;> exact hs
  | succ rounds ih =>
      cases data with
      | nil => exact hs
      | cons byte rest =>
          rw [decodeRepresentations]
          simp only [wp_bind, wp_get, wp_ite]
          split
          · split
            · exact hs
            · split
              · exact hs
              · split
                · exact hs
                · exact ih hs
          · split
            · exact hs
            · simp only [wp_bind, wp_set, wp_ite]
              split
              · exact hs
              · simp only [wp_second]
                exact (hcallback _ _ hs).mono (fun _ _ h => ih h) fun _ _ h => h

theorem decodeHpack_keeps {I : σ → Prop}
    (hcallback : ∀ header s, I s → wp (callback header) (fun _ => I) (fun _ => I) s) {data : Bytes}
    {table : HpackTable} {s : σ} (hs : I s) :
    wp (decodeHpack callback refuse data) (fun _ p => I p.2) (fun _ p => I p.2) (table, s) :=
  decodeRepresentations_keeps hcallback hs

end Decode

end Viriatum
