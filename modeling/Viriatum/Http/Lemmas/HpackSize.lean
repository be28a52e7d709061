import Viriatum.Http.Synchronisation

/-!
# What fits in a buffer

The bytes that the encoder writes when nothing bounds it, and what it leaves in a buffer that is too small for them.
-/

namespace Viriatum

open Library Effect

/-! ## The bytes written -/

def continuationBytes : (rounds value : Nat) → Bytes
  | 0, value => [UInt8.ofNat value]
  | rounds + 1, value =>
      if value ≥ 128 then UInt8.ofNat (value &&& 0x7f ||| 0x80) :: continuationBytes rounds (value >>> 7)
      else [UInt8.ofNat value]

def integerBytes (prefixBits flags value : Nat) : Bytes :=
  let mask := 1 <<< prefixBits - 1
  if value < mask then [UInt8.ofNat (flags ||| value)]
  else UInt8.ofNat (flags ||| mask) :: continuationBytes (value - mask) (value - mask)

def huffmanBytes (value : Bytes) : Bytes :=
  match encodeHuffman (sizeHuffman value) value with
  | .ok coded => coded
  | .error _ => []

/-- The integer that a string starts with. -/
def stringLead (value : Bytes) : Bytes :=
  if sizeHuffman value < value.length then integerBytes 7 0x80 (sizeHuffman value)
  else integerBytes 7 0x00 value.length

def stringTail (value : Bytes) : Bytes := if sizeHuffman value < value.length then huffmanBytes value else value

/-- The integer that a field starts with, which the encoder does not insert. -/
def fieldLead (table : HpackTable) (header : HpackHeader) : Bytes :=
  let (index, complete) := table.find header
  if complete then integerBytes 7 0x80 index else integerBytes 4 0x00 index

def fieldTail (table : HpackTable) (header : HpackHeader) : Bytes :=
  let (index, complete) := table.find header
  if complete then []
  else
    (if index = 0 then stringLead header.name ++ stringTail header.name else []) ++
      (stringLead header.value ++ stringTail header.value)

def fieldBytes (table : HpackTable) (header : HpackHeader) : Bytes := fieldLead table header ++ fieldTail table header

/-! ## Writing into a buffer -/

/-- A computation that writes some bytes to a buffer of a size: without space for the lead of them it leaves the buffer
as it is, without space for the rest it leaves a part of them. -/
structure Puts (n : Nat) (m : Effect HpackError Bytes Unit) (lead tail : Bytes) : Prop where
  lead_ne : lead ≠ []
  spec : ∀ buffer : Bytes, wp m
    (fun _ written => written = buffer ++ (lead ++ tail) ∧ buffer.length + (lead ++ tail).length ≤ n)
    (fun _ written => n < buffer.length + (lead ++ tail).length ∧
      (written = buffer ∧ n < buffer.length + lead.length ∨
        buffer.length + lead.length ≤ n ∧ buffer.length < written.length)) buffer

theorem Puts.length_pos {n : Nat} {m : Effect HpackError Bytes Unit} {lead tail : Bytes} (h : Puts n m lead tail) :
    0 < lead.length := List.length_pos_of_ne_nil h.lead_ne

/-- What writes some bytes and then others writes both. -/
theorem Puts.append {n : Nat} {m m' : Effect HpackError Bytes Unit} {lead tail lead' tail' : Bytes}
    (h : Puts n m lead tail) (h' : Puts n m' lead' tail') :
    Puts n (do m; m') lead (tail ++ (lead' ++ tail')) where
  lead_ne := h.lead_ne
  spec buffer := by
    have hpos := h.length_pos
    rw [wp_bind]
    refine (h.spec buffer).mono ?_ ?_
    · rintro _ _ ⟨rfl, hfits⟩
      refine (h'.spec _).mono ?_ ?_
      · rintro _ _ ⟨rfl, hfits'⟩
        simp only [List.length_append] at hfits hfits' ⊢
        exact ⟨by simp, by omega⟩
      · rintro _ written ⟨hlong, hwritten⟩
        simp only [List.length_append] at hfits hlong hwritten ⊢
        refine ⟨by omega, Or.inr ⟨by omega, ?_⟩⟩
        rcases hwritten with ⟨rfl, _⟩ | ⟨_, hlonger⟩
        · simp only [List.length_append]
          omega
        · omega
    · rintro _ written ⟨hlong, hwritten⟩
      simp only [List.length_append] at hlong ⊢
      exact ⟨by omega, hwritten⟩

/-- The result of appending some bytes to a buffer of a size, or of failing to. -/
def Appends (n : Nat) (buffer coded : Bytes) (result : Except HpackError Bytes) : Prop :=
  (∃ e, result = .error e ∧ n < buffer.length + coded.length) ∨
    result = .ok (buffer ++ coded) ∧ buffer.length + coded.length ≤ n

theorem putInteger_appends (n : Nat) (byte : UInt8) (buffer : Bytes) :
    Appends n buffer [byte] (putInteger n byte buffer) := by
  by_cases hlt : buffer.length < n
  · exact Or.inr ⟨putInteger_eq byte hlt, hlt⟩
  · have hlong : n < buffer.length + [byte].length := by
      rw [List.length_singleton]
      omega
    exact Or.inl ⟨_, if_pos (by omega), hlong⟩

theorem Appends.bind {n : Nat} {buffer coded coded' : Bytes} {result : Except HpackError Bytes}
    {f : Bytes → Except HpackError Bytes} (h : Appends n buffer coded result)
    (h' : Appends n (buffer ++ coded) coded' (f (buffer ++ coded))) :
    Appends n buffer (coded ++ coded') (result >>= f) := by
  unfold Appends at h' ⊢
  rw [List.length_append, Nat.add_assoc] at h'
  rw [List.length_append]
  rcases h with ⟨e, rfl, hlong⟩ | ⟨rfl, _⟩
  · exact Or.inl ⟨e, rfl, by omega⟩
  · rcases h' with ⟨e, hrun, hlong⟩ | ⟨hrun, hfits⟩
    · exact Or.inl ⟨e, hrun, hlong⟩
    · refine Or.inr ⟨?_, hfits⟩
      rw [← List.append_assoc]
      exact hrun

theorem encodeContinuation_appends (n rounds value : Nat) (buffer : Bytes) :
    Appends n buffer (continuationBytes rounds value) (encodeContinuation n rounds value buffer) := by
  induction rounds generalizing value buffer with
  | zero => exact putInteger_appends n _ buffer
  | succ rounds ih =>
      unfold encodeContinuation continuationBytes
      split
      · exact (putInteger_appends n _ buffer).bind (ih _ _)
      · exact putInteger_appends n _ buffer

/-- What is written as a whole or not at all. -/
theorem puts_of_appends {n : Nat} {coded : Bytes} {written : Bytes → Except HpackError Bytes} (hne : coded ≠ [])
    (h : ∀ buffer, Appends n buffer coded (written buffer)) :
    Puts n (do
      let buffer ← get
      match written buffer with
      | .ok buffer => set buffer
      | .error e => throw e) coded [] where
  lead_ne := hne
  spec buffer := by
    simp only [wp_bind, wp_get, List.append_nil]
    rcases h buffer with ⟨e, heq, hlong⟩ | ⟨heq, hfits⟩
    · rw [heq]
      exact ⟨hlong, Or.inl ⟨rfl, hlong⟩⟩
    · rw [heq]
      exact ⟨rfl, hfits⟩

theorem integerBytes_ne {prefixBits flags value : Nat} : integerBytes prefixBits flags value ≠ [] := by
  unfold integerBytes
  dsimp only
  split <;> simp

theorem encodeInteger_puts (n prefixBits flags value : Nat) :
    Puts n (encodeInteger n prefixBits flags value) (integerBytes prefixBits flags value) [] := by
  refine puts_of_appends integerBytes_ne fun buffer => ?_
  unfold integerBytes
  dsimp only
  split
  · exact putInteger_appends n _ buffer
  · exact (putInteger_appends n _ buffer).bind (encodeContinuation_appends _ _ _ _)

/-! ## Coded strings -/

namespace HuffmanEncoder

/-- A result that the size of the buffer bounds, and that stays the same in a larger buffer. -/
def Stays (n size : Nat) (result : Nat → Except HpackError HuffmanEncoder) : Prop :=
  ∀ e, result n = .ok e → (size ≤ n → e.buffer.length ≤ n) ∧ ∀ n', n ≤ n' → result n' = .ok e

theorem Stays.bind {n size : Nat} {result : Nat → Except HpackError HuffmanEncoder}
    {f : Nat → HuffmanEncoder → Except HpackError HuffmanEncoder} (h : Stays n size result)
    (hf : ∀ e, Stays n e.buffer.length fun n => f n e) : Stays n size fun n => result n >>= f n := by
  intro e hrun
  dsimp only at hrun ⊢
  cases hfirst : result n with
  | error error =>
      rw [hfirst] at hrun
      cases hrun
  | ok first =>
      rw [hfirst] at hrun
      obtain ⟨hbound, hsame⟩ := h first hfirst
      obtain ⟨hbound', hsame'⟩ := hf first e hrun
      refine ⟨fun hsize => hbound' (hbound hsize), fun n' hle => ?_⟩
      simp only [hsame n' hle]
      exact hsame' n' hle

theorem drain_stays (n accumulator count : Nat) (buffer : Bytes) :
    Stays n buffer.length fun n => drain n accumulator count buffer := by
  induction count using Nat.strongRecOn generalizing buffer with
  | ind count ih =>
      intro e hrun
      match count, hrun with
      | 0, hrun | 1, hrun | 2, hrun | 3, hrun | 4, hrun | 5, hrun | 6, hrun | 7, hrun =>
          cases hrun
          exact ⟨id, fun _ _ => rfl⟩
      | count + 8, hrun =>
          simp only [drain] at hrun ⊢
          split at hrun
          case isTrue => cases hrun
          case isFalse hroom =>
            obtain ⟨hbound, hsame⟩ := ih count (by omega) _ e hrun
            rw [List.length_append, List.length_singleton] at hbound
            refine ⟨fun _ => hbound (by omega), fun n' hle => ?_⟩
            rw [if_neg (by omega)]
            exact hsame n' hle

theorem push_stays (n code steps length : Nat) (e : HuffmanEncoder) :
    Stays n e.buffer.length fun n => push n code steps length e := by
  induction steps generalizing length e with
  | zero =>
      intro e' hrun
      cases hrun
      exact ⟨id, fun _ _ => rfl⟩
  | succ steps ih =>
      by_cases hlength : length = 0
      · intro e' hrun
        simp only [push, if_pos hlength] at hrun ⊢
        cases hrun
        exact ⟨id, fun _ _ => rfl⟩
      · simp only [push, if_neg hlength]
        exact (drain_stays _ _ _ _).bind fun e => ih _ e

theorem pushAll_stays (n : Nat) (data : Bytes) (e : HuffmanEncoder) :
    Stays n e.buffer.length fun n => pushAll n data e := by
  induction data generalizing e with
  | nil =>
      intro e' hrun
      cases hrun
      exact ⟨id, fun _ _ => rfl⟩
  | cons byte data ih => exact (push_stays _ _ _ _ _).bind fun e => ih e

end HuffmanEncoder

theorem encodeHuffman_stays {n : Nat} {data coded : Bytes} (h : encodeHuffman n data = .ok coded) :
    coded.length ≤ n ∧ ∀ n', n ≤ n' → encodeHuffman n' data = .ok coded := by
  unfold encodeHuffman at h ⊢
  cases hrun : HuffmanEncoder.pushAll n data {} with
  | error e =>
      rw [hrun] at h
      cases h
  | ok e =>
      obtain ⟨hbound, hsame⟩ := HuffmanEncoder.pushAll_stays n data {} e hrun
      have hbound := hbound (Nat.zero_le n)
      rw [hrun] at h
      simp only [bind, Except.bind] at h hsame ⊢
      split at h
      case isTrue hcount =>
        split at h
        case isTrue => cases h
        case isFalse hroom =>
          cases h
          refine ⟨?_, fun n' hle => ?_⟩
          · rw [List.length_append, List.length_singleton]
            omega
          · rw [hsame n' hle]
            dsimp only
            rw [if_pos hcount, if_neg (by omega)]
      case isFalse hcount =>
        cases h
        refine ⟨hbound, fun n' hle => ?_⟩
        rw [hsame n' hle]
        dsimp only
        rw [if_neg hcount]

/-- A coded string is written when there is space for all of it. -/
theorem encodeHuffman_cases (n : Nat) (data : Bytes) :
    (∃ e, encodeHuffman n data = .error e ∧ n < (huffmanBytes data).length) ∨
      encodeHuffman n data = .ok (huffmanBytes data) ∧ (huffmanBytes data).length ≤ n := by
  obtain ⟨coded, _, hcoded, hlength, _⟩ := encodeHuffman_spec data (le_refl (sizeHuffman data))
  have hbytes : huffmanBytes data = coded := by simp [huffmanBytes, hcoded]
  rw [hbytes, hlength]
  by_cases hle : sizeHuffman data ≤ n
  · exact Or.inr ⟨(encodeHuffman_stays hcoded).2 n hle, hle⟩
  · refine Or.inl ?_
    cases hrun : encodeHuffman n data with
    | error e => exact ⟨e, rfl, by omega⟩
    | ok coded' =>
        obtain ⟨hbound, hsame⟩ := encodeHuffman_stays hrun
        have hcoded' := hsame (sizeHuffman data) (by omega)
        rw [hcoded, Except.ok.injEq] at hcoded'
        rw [← hcoded'] at hbound
        omega

/-! ## Strings and fields -/

/-- What follows the integer of a string is written as a whole or not at all. -/
theorem Puts.body {n : Nat} {m m' : Effect HpackError Bytes Unit} {lead tail : Bytes} (h : Puts n m lead [])
    (hbody : ∀ buffer : Bytes, buffer.length ≤ n →
      wp m' (fun _ written => written = buffer ++ tail ∧ buffer.length + tail.length ≤ n)
        (fun _ written => written = buffer ∧ n < buffer.length + tail.length) buffer) :
    Puts n (do m; m') lead tail where
  lead_ne := h.lead_ne
  spec buffer := by
    have hpos := h.length_pos
    rw [wp_bind]
    refine (h.spec buffer).mono ?_ ?_
    · rintro _ _ ⟨rfl, hfits⟩
      simp only [List.append_nil] at hfits ⊢
      refine (hbody (buffer ++ lead) (by simpa using hfits)).mono ?_ ?_
      · rintro _ _ ⟨rfl, hfits'⟩
        simp only [List.length_append] at hfits' ⊢
        exact ⟨by simp, by omega⟩
      · rintro _ _ ⟨rfl, hlong⟩
        simp only [List.length_append] at hlong ⊢
        exact ⟨by omega, Or.inr ⟨hfits, by omega⟩⟩
    · rintro _ written ⟨hlong, hwritten⟩
      simp only [List.length_append, List.length_nil] at hlong ⊢
      exact ⟨by omega, hwritten⟩

theorem encodeString_puts (n : Nat) (value : Bytes) :
    Puts n (encodeString n value) (stringLead value) (stringTail value) := by
  unfold encodeString stringLead stringTail
  dsimp only
  split
  case isTrue =>
    refine (encodeInteger_puts n _ _ _).body fun buffer hle => ?_
    simp only [wp_bind, wp_get]
    rcases encodeHuffman_cases (n - buffer.length) value with ⟨e, hrun, hlong⟩ | ⟨hrun, hfits⟩
    · rw [hrun]
      exact ⟨rfl, by omega⟩
    · rw [hrun]
      exact ⟨rfl, by omega⟩
  case isFalse =>
    refine (encodeInteger_puts n _ _ _).body fun buffer hle => ?_
    simp only [wp_bind, wp_get]
    split
    case isTrue hlong => exact ⟨rfl, by omega⟩
    case isFalse hfits => exact ⟨rfl, by omega⟩

/-- What is written to a buffer next to the table. -/
theorem Puts.second_spec {n : Nat} {m : Effect HpackError Bytes Unit} {lead tail : Bytes} (h : Puts n m lead tail)
    (table : HpackTable) (buffer : Bytes) :
    wp (Effect.second m : Effect HpackError (HpackTable × Bytes) Unit)
      (fun _ s => s = (table, buffer ++ (lead ++ tail)) ∧ buffer.length + (lead ++ tail).length ≤ n)
      (fun _ s => s.1 = table ∧ n < buffer.length + (lead ++ tail).length ∧
        (s.2 = buffer ∧ n < buffer.length + lead.length ∨
          buffer.length + lead.length ≤ n ∧ buffer.length < s.2.length)) (table, buffer) := by
  rw [wp_second]
  refine (h.spec buffer).mono ?_ ?_
  · rintro _ _ ⟨rfl, hfits⟩
    exact ⟨rfl, hfits⟩
  · rintro _ written hwritten
    exact ⟨rfl, hwritten⟩

/-- The literal form of a field: the index of the name, the name when it has none and the value. -/
theorem encodeLiteral_puts (n index : Nat) (header : HpackHeader) :
    Puts n (encodeInteger n 4 0x00 index >>= fun _ =>
        (if index = 0 then encodeString n header.name else pure ()) >>= fun _ => encodeString n header.value)
      (integerBytes 4 0x00 index)
      ((if index = 0 then stringLead header.name ++ stringTail header.name else []) ++
        (stringLead header.value ++ stringTail header.value)) := by
  split
  · have h := (encodeInteger_puts n 4 0x00 index).append
      ((encodeString_puts n header.name).append (encodeString_puts n header.value))
    simpa using h
  · have h := (encodeInteger_puts n 4 0x00 index).append (encodeString_puts n header.value)
    simpa using h

/-- A field that is not to be inserted is written as a whole, or a part of it is, or nothing. -/
theorem encodeHpack_puts (n : Nat) (table : HpackTable) (header : HpackHeader) (buffer : Bytes) :
    wp (encodeHpack n header false)
      (fun _ s => s = (table, buffer ++ fieldBytes table header) ∧ buffer.length + (fieldBytes table header).length ≤ n)
      (fun _ s => s.1 = table ∧ n < buffer.length + (fieldBytes table header).length ∧
        (s.2 = buffer ∧ n < buffer.length + (fieldLead table header).length ∨
          buffer.length + (fieldLead table header).length ≤ n ∧ buffer.length < s.2.length)) (table, buffer) := by
  obtain ⟨index, complete, hfind⟩ : ∃ index complete, table.find header = (index, complete) := ⟨_, _, rfl⟩
  simp only [encodeHpack, wp_bind, wp_get, hfind, fieldBytes, fieldLead, fieldTail]
  cases complete with
  | true =>
      simp only [if_true]
      exact (encodeInteger_puts n 7 0x80 index).second_spec table buffer
  | false =>
      simp only [Bool.false_eq_true, if_false]
      have h := (encodeLiteral_puts n index header).second_spec table buffer
      simp only [wp_second, wp_bind, wp_pure] at h ⊢
      exact h

/-! ## What is read back -/

theorem integerBytes_code {prefixBits flags value : Nat} (hp : prefixBits ≤ 8) (hf : flags % 2 ^ prefixBits = 0)
    (hv : value ≤ hpackMaxInteger) : IntegerCode prefixBits flags value (integerBytes prefixBits flags value) := by
  have hspec : wp (encodeInteger 5 prefixBits flags value) _ _ [] := encodeInteger_spec hp hf hv (by simp)
  have hputs : wp (encodeInteger 5 prefixBits flags value) _ _ [] := (encodeInteger_puts 5 prefixBits flags value).spec []
  obtain ⟨_, _, _, ⟨coded, hcoded, hcode⟩, hwritten, _⟩ := ((hspec.and hputs).mono (fun _ _ h => h) fun _ _ h => h.1).run_ok
  rw [hcoded] at hwritten
  simp only [List.nil_append, List.append_nil] at hwritten
  exact hwritten ▸ hcode

theorem fieldBytes_code {table : HpackTable} {header : HpackHeader}
    (h : header.Within ∨ (table.find header).2 = true) :
    FieldCode table header false (fieldBytes table header) := by
  rcases h with hw | hfound
  · have hspec : wp (encodeHpack header.size header false) _ _ (table, []) := encodeHpack_spec hw false (by simp)
    have hputs : wp (encodeHpack header.size header false) _ _ (table, []) := encodeHpack_puts header.size table header []
    obtain ⟨_, s, _, ⟨coded, hcoded, hcode⟩, hwritten, _⟩ :=
      ((hspec.and hputs).mono (fun _ _ h => h) fun _ _ h => h.1).run_ok
    rw [hcoded, Prod.mk.injEq] at hwritten
    have heq := hwritten.2
    simp only [List.nil_append] at heq
    exact heq ▸ hcode
  · obtain ⟨index, complete, hfind⟩ : ∃ index complete, table.find header = (index, complete) := ⟨_, _, rfl⟩
    rw [hfind] at hfound
    cases hfound
    have hle := (HpackTable.find_true hfind).2.1
    have hbytes : fieldBytes table header = integerBytes 7 0x80 index := by
      simp [fieldBytes, fieldLead, fieldTail, hfind]
    rw [hbytes]
    refine fieldCode_indexed hfind (integerBytes_code (by decide) (by decide) ?_)
    simp only [hpackStaticSize, hpackMaxEntries, hpackTableSize, hpackEntryOverhead] at hle
    simp only [hpackMaxInteger]
    omega

end Viriatum
