import Viriatum.Http.Lemmas.HpackSize

/-!
# What is accepted is what was encoded

The decoder refuses the bytes of what is above its limits; what it accepts of the bytes of the encoder it reads back
as it was.
-/

namespace Viriatum

open Library Effect

/-! ## Integers -/

theorem decodeContinuation_exact {i result rounds value r : Nat} {rest rest' : Bytes} (hr : value ≤ rounds)
    (h : decodeContinuation result (7 * i) (continuationBytes rounds value ++ rest) = .ok (r, rest')) :
    r = result + value * 2 ^ (7 * i) ∧ rest' = rest := by
  induction rounds generalizing i result value with
  | zero =>
      obtain ⟨hvalue, hstop⟩ := low_byte (show value < 128 by omega)
      simp only [continuationBytes, List.singleton_append, decodeContinuation, hvalue, hstop, Nat.shiftLeft_eq] at h
      split_ifs at h
      cases h
      exact ⟨rfl, rfl⟩
  | succ rounds ih =>
      rw [continuationBytes] at h
      split at h
      case isTrue hgo =>
        have hdiv : value >>> 7 = value / 128 := Nat.shiftRight_eq_div_pow value 7
        have hmod : value &&& 0x7f = value % 128 := Nat.and_two_pow_sub_one_eq_mod value 7
        obtain ⟨hvalue, hnext⟩ := high_byte (Nat.mod_lt value (by decide : 0 < 128))
        simp only [hdiv, hmod, List.cons_append, decodeContinuation, hvalue, hnext, Nat.shiftLeft_eq,
          if_false] at h
        split_ifs at h
        rw [show 7 * i + 7 = 7 * (i + 1) by ring] at h
        obtain ⟨rfl, rfl⟩ := ih (by omega) h
        refine ⟨?_, rfl⟩
        calc result + value % 128 * 2 ^ (7 * i) + value / 128 * 2 ^ (7 * (i + 1))
            = result + (value % 128 + 128 * (value / 128)) * 2 ^ (7 * i) := by ring
          _ = result + value * 2 ^ (7 * i) := by rw [Nat.mod_add_div]
      case isFalse hlast =>
        obtain ⟨hvalue, hstop⟩ := low_byte (show value < 128 by omega)
        simp only [List.singleton_append, decodeContinuation, hvalue, hstop, Nat.shiftLeft_eq] at h
        split_ifs at h
        cases h
        exact ⟨rfl, rfl⟩

theorem decodeInteger_exact {prefixBits flags value r : Nat} {rest rest' : Bytes} (hp : prefixBits ≤ 8)
    (hf : flags % 2 ^ prefixBits = 0)
    (h : decodeInteger prefixBits (integerBytes prefixBits flags value ++ rest) = .ok (r, rest')) :
    r = value ∧ rest' = rest := by
  have hpos := Nat.two_pow_pos prefixBits
  simp only [integerBytes, Nat.one_shiftLeft] at h
  split at h
  case isTrue hlt =>
    simp only [List.singleton_append, decodeInteger, Nat.one_shiftLeft] at h
    rw [prefix_of_flags hp hf (by omega), if_pos hlt] at h
    cases h
    exact ⟨rfl, rfl⟩
  case isFalse hge =>
    simp only [List.cons_append, decodeInteger, Nat.one_shiftLeft] at h
    rw [prefix_of_flags hp hf (by omega), if_neg (by omega), show (0 : Nat) = 7 * 0 from rfl] at h
    obtain ⟨rfl, rfl⟩ := decodeContinuation_exact le_rfl h
    exact ⟨by omega, rfl⟩

/-! ## Strings -/

namespace HuffmanDecoder

/-- A result that the size of the buffer bounds, and that stays the same in a larger buffer. -/
theorem step_stays {n : Nat} {d d' : HuffmanDecoder} {bit : Bool} (h : d.step n bit = .ok d') :
    (d.buffer.length ≤ n → d'.buffer.length ≤ n) ∧ ∀ n', n ≤ n' → d.step n' bit = .ok d' := by
  simp only [step] at h ⊢
  split at h
  case isTrue => cases h
  case isFalse hbits =>
    split at h
    · cases h
      exact ⟨id, fun n' _ => if_neg hbits⟩
    · split_ifs at h with heos hroom
      cases h
      refine ⟨fun _ => ?_, fun n' hle => ?_⟩
      · rw [List.length_append, List.length_singleton]
        omega
      · rw [if_neg hbits, if_neg heos, if_neg (by omega)]

theorem steps_stays {n : Nat} {d d' : HuffmanDecoder} {bits : List Bool} (h : d.steps n bits = .ok d') :
    (d.buffer.length ≤ n → d'.buffer.length ≤ n) ∧ ∀ n', n ≤ n' → d.steps n' bits = .ok d' := by
  induction bits generalizing d with
  | nil =>
      cases h
      exact ⟨id, fun _ _ => rfl⟩
  | cons bit bits ih =>
      rw [steps] at h
      cases hstep : d.step n bit with
      | error e =>
          rw [hstep] at h
          cases h
      | ok next =>
          rw [hstep] at h
          obtain ⟨hbound, hsame⟩ := step_stays hstep
          obtain ⟨hbound', hsame'⟩ := ih h
          refine ⟨fun hle => hbound' (hbound hle), fun n' hle => ?_⟩
          rw [steps, hsame n' hle]
          exact hsame' n' hle

end HuffmanDecoder

theorem decodeHuffman_stays {n : Nat} {data decoded : Bytes} (h : decodeHuffman n data = .ok decoded) :
    decoded.length ≤ n ∧ ∀ n', n ≤ n' → decodeHuffman n' data = .ok decoded := by
  unfold decodeHuffman at h ⊢
  cases hrun : HuffmanDecoder.steps n {} (bitsOf data) with
  | error e =>
      rw [hrun] at h
      cases h
  | ok d =>
      rw [hrun] at h
      obtain ⟨hbound, hsame⟩ := HuffmanDecoder.steps_stays hrun
      simp only [bind, Except.bind] at h ⊢
      split_ifs at h with hbits hpadding
      cases h
      refine ⟨hbound (Nat.zero_le n), fun n' hle => ?_⟩
      rw [hsame n' hle]
      simp only
      rw [if_neg hbits, if_neg hpadding]

/-- The coded form of a string is decoded into it, or refused. -/
theorem decodeHuffman_exact {n : Nat} {value decoded : Bytes} (h : decodeHuffman n (huffmanBytes value) = .ok decoded) :
    decoded = value ∧ value.length ≤ n := by
  obtain ⟨coded, pad, hcoded, _, hpad, hbits⟩ := encodeHuffman_spec value (le_refl (sizeHuffman value))
  have hbytes : huffmanBytes value = coded := by simp [huffmanBytes, hcoded]
  rw [hbytes] at h
  obtain ⟨hbound, hsame⟩ := decodeHuffman_stays h
  have hlarge := hsame (max n value.length) (le_max_left _ _)
  rw [decodeHuffman_of_bits hpad hbits (le_max_right _ _), Except.ok.injEq] at hlarge
  exact ⟨hlarge.symm, hlarge ▸ hbound⟩

/-- The first byte of a string has the flag of the coded form, below it the integer. -/
theorem integerBytes_head (prefixBits flags value : Nat) :
    ∃ m tail, m < 2 ^ prefixBits ∧ integerBytes prefixBits flags value = UInt8.ofNat (flags ||| m) :: tail := by
  have hpos := Nat.two_pow_pos prefixBits
  simp only [integerBytes, Nat.one_shiftLeft]
  split
  case isTrue hlt => exact ⟨value, [], by omega, rfl⟩
  case isFalse => exact ⟨2 ^ prefixBits - 1, _, by omega, rfl⟩

/-- A string that is accepted starts with an integer that is. -/
theorem decodeString_integer {n m flags length : Nat} {tail decoded rest rest' : Bytes}
    (h : decodeString n (integerBytes 7 flags length ++ rest) = .ok (decoded, rest')) (hf : flags % 2 ^ 7 = 0)
    (hhead : integerBytes 7 flags length = UInt8.ofNat m :: tail) :
    length ≤ rest.length ∧ rest' = rest.drop length ∧
      if UInt8.ofNat m &&& 0x80 ≠ 0 then decodeHuffman n (rest.take length) = .ok decoded
      else length ≤ n ∧ decoded = rest.take length := by
  cases hinteger : decodeInteger 7 (integerBytes 7 flags length ++ rest) with
  | error e =>
      rw [hhead, List.cons_append] at h hinteger
      rw [decodeString, hinteger] at h
      cases h
  | ok result =>
      obtain ⟨r, left⟩ := result
      obtain ⟨rfl, rfl⟩ := decodeInteger_exact (by decide) hf hinteger
      rw [hhead, List.cons_append] at h hinteger
      rw [decodeString, hinteger] at h
      simp only [bind, Except.bind] at h
      split at h
      case isTrue => cases h
      case isFalse hlong =>
        split at h
        case isTrue hflag =>
          rw [if_pos hflag]
          cases hstring : decodeHuffman n (left.take r) with
          | error e =>
              rw [hstring] at h
              cases h
          | ok string =>
              rw [hstring] at h
              cases h
              exact ⟨by omega, rfl, rfl⟩
        case isFalse hflag =>
          rw [if_neg hflag]
          split at h
          case isTrue => cases h
          case isFalse hroom =>
            cases h
            exact ⟨by omega, rfl, by omega, rfl⟩

theorem decodeString_exact {n : Nat} {value rest decoded rest' : Bytes}
    (h : decodeString n (stringLead value ++ stringTail value ++ rest) = .ok (decoded, rest')) :
    decoded = value ∧ rest' = rest ∧ value.length ≤ n := by
  unfold stringLead stringTail at h
  split at h
  case isTrue =>
    obtain ⟨m, tail, hm, hhead⟩ := integerBytes_head 7 0x80 (sizeHuffman value)
    obtain ⟨coded, _, hcoded, hsize, _⟩ := encodeHuffman_spec value (le_refl (sizeHuffman value))
    have hbytes : (huffmanBytes value).length = sizeHuffman value := by simp [huffmanBytes, hcoded, hsize]
    rw [List.append_assoc] at h
    obtain ⟨_, hrest, hstring⟩ := decodeString_integer h (by decide) hhead
    rw [if_pos (string_flag.1 m hm), ← hbytes, List.take_left] at hstring
    rw [← hbytes, List.drop_left] at hrest
    obtain ⟨rfl, hle⟩ := decodeHuffman_exact hstring
    exact ⟨rfl, hrest, hle⟩
  case isFalse =>
    obtain ⟨m, tail, hm, hhead⟩ := integerBytes_head 7 0x00 value.length
    rw [List.append_assoc] at h
    obtain ⟨_, hrest, hstring⟩ := decodeString_integer h (by decide) hhead
    rw [if_neg (by simpa using string_flag.2 m hm), List.take_left] at hstring
    rw [List.drop_left] at hrest
    exact ⟨hstring.2, hrest, hstring.1⟩

/-! ## Fields -/

/-- A field that a decoder with the same table reads: it is within the limits, or an entry holds it. -/
def HpackTable.Reads (table : HpackTable) (header : HpackHeader) : Prop :=
  header.Within ∨ (table.find header).2 = true

instance (table : HpackTable) (header : HpackHeader) : Decidable (table.Reads header) :=
  inferInstanceAs (Decidable (_ ∨ _))

theorem decodeName_exact {table decoder : HpackTable} {header : HpackHeader} {index : Nat} {name rest rest' : Bytes}
    (hsame : table.Same decoder) (hfind : table.find header = (index, false))
    (h : decodeName decoder index
      ((if index = 0 then stringLead header.name ++ stringTail header.name else []) ++ rest) = .ok (name, rest')) :
    name = header.name ∧ rest' = rest ∧ header.name.length ≤ hpackMaxNameSize := by
  rw [decodeName] at h
  split at h
  case isTrue => exact decodeString_exact h
  case isFalse hindex =>
    obtain ⟨_, entry, hname, hget⟩ := HpackTable.find_false hfind hindex
    rw [hsame.space_eq] at hget
    rw [HpackTable.get_eq (by omega) hget] at h
    simp only [bind, Except.bind] at h
    split at h
    case isTrue => cases h
    case isFalse hle =>
      cases h
      rw [hname] at hle ⊢
      exact ⟨rfl, rfl, by omega⟩

/-- A field that is accepted is one that the decoder reads. -/
theorem decodeField_reads {table decoder decoder' : HpackTable} {header header' : HpackHeader} {byte : UInt8}
    {data rest rest' : Bytes} (hsame : table.Same decoder) (hdata : byte :: data = fieldBytes table header ++ rest)
    (h : decodeField decoder byte (byte :: data) = .ok (header', decoder', rest')) : table.Reads header := by
  obtain ⟨index, complete, hfind⟩ : ∃ index complete, table.find header = (index, complete) := ⟨_, _, rfl⟩
  cases complete with
  | true => exact Or.inr (by rw [hfind])
  | false =>
      obtain ⟨m, tail, hm, hhead⟩ := integerBytes_head 4 0x00 index
      obtain ⟨hindexed, _, hindexing⟩ := literal_flag m hm
      simp only [fieldBytes, fieldLead, fieldTail, hfind, Bool.false_eq_true, if_false, List.append_assoc] at hdata
      have hbyte : byte = UInt8.ofNat (0x00 ||| m) := by
        rw [hhead] at hdata
        exact (List.cons.inj hdata).1
      rw [hbyte, decodeField, if_neg (by simpa using hindexed), ← hbyte, hdata] at h
      simp only [hbyte, hindexing, ne_eq, not_true_eq_false, if_false] at h
      cases hinteger : decodeInteger 4 (integerBytes 4 0x00 index ++ ((if index = 0 then
          stringLead header.name ++ stringTail header.name else []) ++ (stringLead header.value ++
            (stringTail header.value ++ rest)))) with
      | error e =>
          rw [hinteger] at h
          cases h
      | ok first =>
          obtain ⟨r, left⟩ := first
          rw [hinteger] at h
          obtain ⟨rfl, rfl⟩ := decodeInteger_exact (by decide) (by decide) hinteger
          simp only [bind, Except.bind] at h
          split at h
          case h_1 => cases h
          case h_2 named hname =>
            obtain ⟨name, left⟩ := named
            obtain ⟨_, rfl, hname_le⟩ := decodeName_exact hsame hfind hname
            simp only [← List.append_assoc (stringLead _)] at h
            split at h
            case h_1 => cases h
            case h_2 valued hvalue =>
              obtain ⟨_, _, hvalue_le⟩ := decodeString_exact hvalue
              exact Or.inl ⟨hname_le, hvalue_le⟩

/-! ## Blocks -/

@[simp] theorem HpackTable.after_false (table : HpackTable) (header : HpackHeader) :
    table.after header false = table := by
  simp [HpackTable.after]

theorem fieldBytes_head (table : HpackTable) (header : HpackHeader) :
    ∃ byte tail, fieldBytes table header = byte :: tail ∧ byte &&& 0xe0 ≠ 0x20 := by
  obtain ⟨index, complete, hfind⟩ : ∃ index complete, table.find header = (index, complete) := ⟨_, _, rfl⟩
  simp only [fieldBytes, fieldLead, hfind]
  cases complete with
  | true =>
      obtain ⟨m, tail, hm, hhead⟩ := integerBytes_head 7 0x80 index
      simp only [if_true, hhead]
      exact ⟨_, _, rfl, (indexed_flag m hm).2⟩
  | false =>
      obtain ⟨m, tail, hm, hhead⟩ := integerBytes_head 4 0x00 index
      simp only [Bool.false_eq_true, if_false, hhead]
      exact ⟨_, _, rfl, (literal_flag m hm).2.1⟩

/-- The block of some fields that are not to be inserted. -/
def blockBytes (table : HpackTable) (headers : List HpackHeader) : Bytes := headers.flatMap (fieldBytes table)

@[simp] theorem blockBytes_cons (table : HpackTable) (header : HpackHeader) (headers : List HpackHeader) :
    blockBytes table (header :: headers) = fieldBytes table header ++ blockBytes table headers := rfl

theorem blockBytes_code {table : HpackTable} {headers : List HpackHeader} (h : ∀ header ∈ headers, table.Reads header) :
    BlockCode table (headers.map fun header => (header, false)) (blockBytes table headers) := by
  induction headers with
  | nil => exact .nil table
  | cons header headers ih =>
      rw [List.map_cons, blockBytes_cons]
      refine BlockCode.cons (fieldBytes_code (h header (by simp))) ?_
      rw [HpackTable.after_false]
      exact ih fun header hmem => h header (by simp [hmem])

/-- A block that is accepted has fields that the decoder reads, within the size of a list, and gives them back. -/
theorem decodeRepresentations_exact {table decoder : HpackTable} {headers : List HpackHeader} {rounds listSize : Nat}
    (field : Bool) (kept : List HpackHeader) (hsame : table.Same decoder)
    (hrounds : (blockBytes table headers).length ≤ rounds) (hlist : listSize ≤ hpackMaxHeaderListSize) :
    wp (decodeRepresentations record id rounds listSize field (blockBytes table headers))
      (fun _ s => (∀ header ∈ headers, table.Reads header) ∧
        listSize + HpackRing.sizeOf headers ≤ hpackMaxHeaderListSize ∧ s.2 = kept ++ headers)
      (fun _ _ => True) (decoder, kept) := by
  induction headers generalizing rounds listSize field kept with
  | nil =>
      show wp (decodeRepresentations record id rounds listSize field []) _ _ _
      rw [decodeRepresentations]
      exact ⟨by simp, hlist, by simp⟩
  | cons header headers ih =>
      obtain ⟨byte, tail, hbytes, hbyte⟩ := fieldBytes_head table header
      rw [blockBytes_cons, hbytes, List.cons_append] at hrounds ⊢
      cases rounds with
      | zero => simp at hrounds
      | succ rounds =>
          cases hfield : decodeField decoder byte (byte :: (tail ++ blockBytes table headers)) with
          | error e =>
              rw [decodeRepresentations]
              simp only [wp_bind, wp_get]
              rw [if_neg hbyte, hfield]
              trivial
          | ok read =>
              obtain ⟨header', decoder', rest'⟩ := read
              have hreads := decodeField_reads hsame (by rw [hbytes, List.cons_append]) hfield
              obtain ⟨byte', tail', hbytes', _, hdecode⟩ := (fieldBytes_code hreads).decode
              rw [hbytes, List.cons.injEq] at hbytes'
              obtain ⟨rfl, rfl⟩ := hbytes'
              have hread := hdecode (blockBytes table headers) decoder hsame
              rw [HpackTable.after_false] at hread
              by_cases hsize : listSize + header.size ≤ hpackMaxHeaderListSize
              · rw [wp_decodeRepresentations_field hbyte hread hsize]
                simp only [record, wp_modify]
                refine (ih true (kept ++ [header]) ?_ hsize).mono ?_ fun _ _ h => h
                · simp only [List.length_append, List.length_cons] at hrounds
                  omega
                · rintro _ s ⟨hall, hsum, hkept⟩
                  rw [HpackRing.sizeOf_cons, hkept]
                  exact ⟨by simpa using ⟨hreads, hall⟩, by omega, by simp⟩
              · rw [decodeRepresentations]
                simp only [wp_bind, wp_get]
                rw [if_neg hbyte, hread]
                simp only [wp_bind, wp_set]
                rw [if_pos (by omega)]
                trivial

end Viriatum
