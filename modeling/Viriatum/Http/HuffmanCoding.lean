import Viriatum.Http.Lemmas.Huffman

/-!
# The Huffman coding is one to one

A string is the only one that its coded form is decoded into, and its coded form is the only one that is decoded into it.
-/

namespace Viriatum

open Library

/-! ## The words are the only bits recognised -/

theorem huffmanSymbol_sound {bits code symbol : Nat} (h : huffmanSymbol bits code = some symbol) :
    symbol < 257 ∧ hpackHuffmanLengths.getD symbol 0 = bits ∧ hpackHuffmanCodes.getD symbol 0 = code := by
  unfold huffmanSymbol at h
  simp only at h
  split at h
  · cases h
  · next hcount =>
      split at h
      · cases h
      · next hrange =>
          cases h
          have hbits : bits < 31 := by
            apply Nat.lt_of_not_le
            intro hle
            exact hcount (List.getD_eq_default _ _ hle)
          have hplace : code - hpackHuffmanFirstCode.getD bits 0 < hpackHuffmanCounts.getD bits 0 := by omega
          obtain ⟨_, hlt, rfl, hlength, hcode⟩ := huffman_symbol hbits hplace
          exact ⟨hlt, hlength, by rw [hcode]; omega⟩

theorem huffmanRecognise_sound {word : List Bool} {symbol : Nat} (h : huffmanRecognise word = some symbol) :
    symbol < 257 ∧ word = huffmanWord symbol := by
  obtain ⟨hlt, hlength, hcode⟩ := huffmanSymbol_sound h
  exact ⟨hlt, by rw [huffmanWord, hlength, hcode, toBits_ofBits]⟩

/-! ## What the decoder accepts -/

/-- A decoder that goes through the bits takes them apart as the scan does. -/
theorem HuffmanDecoder.steps_ok {n : Nat} {d d' : HuffmanDecoder} {gathered bits : List Bool}
    (hd : d.Gathers gathered) (h : d.steps n bits = .ok d') :
    ∃ symbols left, scan huffmanRecognise gathered bits = (symbols, left) ∧ (∀ symbol ∈ symbols, symbol < 256) ∧
      d' = ⟨ofBits left, left.length, d.buffer ++ symbols.map UInt8.ofNat⟩ := by
  induction bits generalizing d gathered with
  | nil =>
      cases h
      obtain ⟨hcode, hbits⟩ := hd
      exact ⟨[], gathered, rfl, nofun, by rw [← hcode, ← hbits]; simp⟩
  | cons bit bits ih =>
      have hcode := hd.code_concat bit
      have hbits : d.bits + 1 = (gathered ++ [bit]).length := by simp [hd.2]
      cases hstep : d.step n bit with
      | error e => simp [HuffmanDecoder.steps, hstep, Bind.bind, Except.bind] at h
      | ok t =>
          have hrest : t.steps n bits = .ok d' := by simpa [HuffmanDecoder.steps, hstep, Bind.bind, Except.bind] using h
          simp only [HuffmanDecoder.step, hcode, hbits] at hstep
          split at hstep
          · cases hstep
          · cases hrecognise : huffmanRecognise (gathered ++ [bit]) with
            | none =>
                have hnone : huffmanSymbol (gathered ++ [bit]).length (ofBits (gathered ++ [bit])) = none := hrecognise
                rw [hnone] at hstep
                cases hstep
                have hgathers : HuffmanDecoder.Gathers ⟨_, _, d.buffer⟩ (gathered ++ [bit]) := ⟨rfl, rfl⟩
                obtain ⟨symbols, left, hscan, hlt, rfl⟩ := ih hgathers hrest
                exact ⟨symbols, left, by simp only [scan, hrecognise, hscan], hlt, rfl⟩
            | some symbol =>
                have hsome : huffmanSymbol (gathered ++ [bit]).length (ofBits (gathered ++ [bit])) = some symbol :=
                  hrecognise
                rw [hsome] at hstep
                simp only at hstep
                split at hstep
                · cases hstep
                · next hend =>
                    split at hstep
                    · cases hstep
                    · cases hstep
                      have hgathers : HuffmanDecoder.Gathers ⟨0, 0, d.buffer ++ [UInt8.ofNat symbol]⟩ [] := ⟨rfl, rfl⟩
                      obtain ⟨symbols, left, hscan, hlt, rfl⟩ := ih hgathers hrest
                      have hsymbol : symbol < 256 :=
                        Nat.lt_of_le_of_ne (Nat.le_of_lt_succ (huffmanRecognise_sound hrecognise).1) hend
                      refine ⟨symbol :: symbols, left, by simp only [scan, hrecognise, hscan], ?_, by simp⟩
                      intro other hother
                      cases hother with
                      | head => exact hsymbol
                      | tail _ hother => exact hlt other hother

/-- The padding is made of bits that are set. -/
theorem padding_ones {left : List Bool} (hlength : ¬ left.length > 7)
    (h : ¬ (left.length > 0 ∧ ofBits left ≠ 1 <<< left.length - 1)) : left = List.replicate left.length true := by
  have hvalue : ofBits left = 1 <<< left.length - 1 := by
    cases left with
    | nil => rfl
    | cons bit left =>
        apply Decidable.byContradiction
        exact fun hne => h ⟨by simp, hne⟩
  have hones : ∀ k < 8, toBits k (1 <<< k - 1) = List.replicate k true := by decide
  rw [← hones left.length (by omega), ← hvalue, toBits_ofBits]

/-- What is decoded into a string is made of its words and of a padding. -/
theorem decodeHuffman_sound {n : Nat} {data coded : Bytes} (h : decodeHuffman n coded = .ok data) :
    ∃ pad < 8, bitsOf coded = huffmanWords data ++ List.replicate pad true := by
  unfold decodeHuffman at h
  cases hsteps : ({} : HuffmanDecoder).steps n (bitsOf coded) with
  | error e => simp [hsteps, Bind.bind, Except.bind] at h
  | ok d =>
      have hgathers : HuffmanDecoder.Gathers {} [] := ⟨rfl, rfl⟩
      obtain ⟨symbols, left, hscan, hlt, rfl⟩ := HuffmanDecoder.steps_ok hgathers hsteps
      simp only [hsteps, Bind.bind, Except.bind] at h
      split at h
      · cases h
      · next hshort =>
          split at h
          · cases h
          · next hones =>
              cases h
              have hpadding := padding_ones hshort hones
              have hbits := scan_sound (fun w a hw => (huffmanRecognise_sound hw).2) hscan
              have hsame : ((symbols.map UInt8.ofNat).map UInt8.toNat) = symbols := by
                rw [List.map_map]
                apply (List.map_congr_left fun symbol hmem => ?_).trans (List.map_id symbols)
                exact UInt8.toNat_ofNat_of_lt' (hlt symbol hmem)
              refine ⟨left.length, by omega, ?_⟩
              rw [huffmanWords, List.nil_append, hsame, ← hpadding]
              exact hbits

theorem bitsOf_injective {xs ys : Bytes} (h : bitsOf xs = bitsOf ys) : xs = ys := by
  induction xs generalizing ys with
  | nil =>
      have hlength := congrArg List.length h
      cases ys with
      | nil => rfl
      | cons y ys => simp at hlength
  | cons x xs ih =>
      cases ys with
      | nil =>
          have hlength := congrArg List.length h
          simp at hlength
      | cons y ys =>
          have hparts : toBits 8 x.toNat ++ bitsOf xs = toBits 8 y.toNat ++ bitsOf ys := h
          obtain ⟨hbyte, hrest⟩ := List.append_inj hparts (by simp)
          have hvalue := congrArg ofBits hbyte
          rw [ofBits_toBits, ofBits_toBits, Nat.mod_eq_of_lt x.toNat_lt, Nat.mod_eq_of_lt y.toNat_lt] at hvalue
          rw [UInt8.toNat_inj.mp hvalue, ih hrest]

/-- The padding that the encoder writes is the only one of less than a byte. -/
theorem padding_unique {words pad pad' : Nat} {xs ys : Bytes} (hxs : 8 * xs.length = words + pad)
    (hys : 8 * ys.length = words + pad') (hpad : pad < 8) (hpad' : pad' < 8) : pad = pad' := by
  omega

/-- Each string has one coded form: the encoder writes it, in the size that is told beforehand, and the decoder takes
nothing else back into the string. -/
theorem huffman_inverse (data : Bytes) :
    (∀ n, sizeHuffman data ≤ n → ∃ coded, encodeHuffman n data = .ok coded ∧ coded.length = sizeHuffman data ∧
      ∀ m, data.length ≤ m → decodeHuffman m coded = .ok data) ∧
    ∀ m n coded, decodeHuffman m coded = .ok data → sizeHuffman data ≤ n → encodeHuffman n data = .ok coded := by
  constructor
  · intro n hn
    obtain ⟨coded, pad, hencode, hlength, hpad, hbits⟩ := encodeHuffman_spec data hn
    exact ⟨coded, hencode, hlength, fun m hm => decodeHuffman_of_bits hpad hbits hm⟩
  · intro m n coded hdecode hn
    obtain ⟨written, pad, hencode, -, hpad, hbits⟩ := encodeHuffman_spec data hn
    obtain ⟨pad', hpad', hbits'⟩ := decodeHuffman_sound hdecode
    have hwritten := congrArg List.length hbits
    have hcoded := congrArg List.length hbits'
    rw [bitsOf_length, List.length_append, List.length_replicate] at hwritten hcoded
    rw [padding_unique hwritten hcoded hpad hpad', ← hbits'] at hbits
    rw [hencode, bitsOf_injective hbits]

end Viriatum
