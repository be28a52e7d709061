import Mathlib.Data.Fintype.EquivFin
import Viriatum.Http.Huffman

/-!
# The Huffman code is taken back apart

The codes of the tables form a prefix code, the decoder recognises its words and the encoder writes them one
after the other.
-/

namespace Viriatum

open Library

/-! ## Bits of bytes -/

@[simp] theorem bitsOf_nil : bitsOf [] = [] := rfl

@[simp] theorem bitsOf_append (xs ys : Bytes) : bitsOf (xs ++ ys) = bitsOf xs ++ bitsOf ys := by
  simp [bitsOf]

@[simp] theorem bitsOf_singleton (b : UInt8) : bitsOf [b] = toBits 8 b.toNat := by
  simp [bitsOf]

@[simp] theorem bitsOf_length (xs : Bytes) : (bitsOf xs).length = 8 * xs.length := by
  induction xs with
  | nil => rfl
  | cons b xs ih =>
      rw [show b :: xs = [b] ++ xs from rfl, bitsOf_append, List.length_append, ih]
      simp
      omega

theorem toBits_ofNat (v : Nat) : toBits 8 (UInt8.ofNat v).toNat = toBits 8 v := by
  rw [UInt8.toNat_ofNat']
  exact toBits_mod 8 v

/-! ## The tables -/

/-- The word of a symbol: the bits of its code. -/
def huffmanWord (symbol : Nat) : List Bool :=
  toBits (hpackHuffmanLengths.getD symbol 0) (hpackHuffmanCodes.getD symbol 0)

/-- The symbol whose word is made of the given bits. -/
def huffmanRecognise (bits : List Bool) : Option Nat := huffmanSymbol bits.length (ofBits bits)

/-- The tables as numbers, which the checks below look up faster than lists. -/
private def firstCodeAt (length : Nat) : Nat := digitAt (2 ^ 30) (packed (2 ^ 30) hpackHuffmanFirstCode) length

private def countAt (length : Nat) : Nat := digitAt 512 (packed 512 hpackHuffmanCounts) length

private def firstIndexAt (length : Nat) : Nat := digitAt 512 (packed 512 hpackHuffmanFirstIndex) length

private def symbolAt (index : Nat) : Nat := digitAt 512 (packed 512 hpackHuffmanSymbols) index

/-- The entry of a symbol: its code is one of those of its length, and stands for it. -/
private def goodEntry (length code symbol : Nat) : Bool :=
  0 < length && length ≤ 30 && code < 2 ^ length && firstCodeAt length ≤ code &&
    code < firstCodeAt length + countAt length && symbolAt (firstIndexAt length + (code - firstCodeAt length)) = symbol

/-- The tables fit one another: every symbol has a good entry, the codes of a length come behind those of the shorter
ones, and so do their symbols; the first bits of the longest code stand for nothing. -/
private theorem huffman_tables :
    (((hpackHuffmanFirstCode.all (· < 2 ^ 30) ∧ hpackHuffmanCounts.all (· < 512) ∧ hpackHuffmanFirstIndex.all (· < 512) ∧
      hpackHuffmanSymbols.all (· < 512)) ∧ hpackHuffmanLengths.length = 257 ∧ hpackHuffmanCodes.length = 257) ∧
    ((hpackHuffmanLengths.zip hpackHuffmanCodes).zipIdx.all fun ((length, code), symbol) =>
      goodEntry length code symbol) = true) ∧
    ((∀ length < 31, ∀ k < length,
      (countAt length ≠ 0 → (firstCodeAt k + countAt k) * 2 ^ (length - k) ≤ firstCodeAt length) ∧
        firstIndexAt k + countAt k ≤ firstIndexAt length) ∧ ∀ k < 31, firstIndexAt k + countAt k ≤ 257) ∧
    ∀ k < 8, huffmanRecognise (List.replicate k true) = none := by
  decide +kernel

private theorem firstCodeAt_eq (length : Nat) : firstCodeAt length = hpackHuffmanFirstCode.getD length 0 :=
  digitAt_packed (by simpa using huffman_tables.1.1.1.1) length

private theorem countAt_eq (length : Nat) : countAt length = hpackHuffmanCounts.getD length 0 :=
  digitAt_packed (by simpa using huffman_tables.1.1.1.2.1) length

private theorem firstIndexAt_eq (length : Nat) : firstIndexAt length = hpackHuffmanFirstIndex.getD length 0 :=
  digitAt_packed (by simpa using huffman_tables.1.1.1.2.2.1) length

private theorem symbolAt_eq (index : Nat) : symbolAt index = hpackHuffmanSymbols.getD index 0 :=
  digitAt_packed (by simpa using huffman_tables.1.1.1.2.2.2) index

private theorem goodEntry_of_lt {symbol : Nat} (h : symbol < 257) :
    goodEntry (hpackHuffmanLengths.getD symbol 0) (hpackHuffmanCodes.getD symbol 0) symbol = true := by
  obtain ⟨⟨_, hlengths, hcodes⟩, hall⟩ := huffman_tables.1
  rw [List.getD_eq_getElem _ _ (hlengths ▸ h), List.getD_eq_getElem _ _ (hcodes ▸ h)]
  refine List.all_eq_true.mp hall ((_, _), symbol) ?_
  rw [List.mk_mem_zipIdx_iff_getElem?, List.getElem?_zip_eq_some]
  exact ⟨List.getElem?_eq_getElem _, List.getElem?_eq_getElem _⟩

theorem huffmanSymbol_eq (bits code : Nat) : huffmanSymbol bits code =
    if countAt bits = 0 then none
    else if code < firstCodeAt bits ∨ code - firstCodeAt bits ≥ countAt bits then none
    else some (symbolAt (firstIndexAt bits + (code - firstCodeAt bits))) := by
  simp only [countAt_eq, firstCodeAt_eq, firstIndexAt_eq, symbolAt_eq, huffmanSymbol]

theorem huffman_code {symbol : Nat} (h : symbol < 257) :
    0 < hpackHuffmanLengths.getD symbol 0 ∧ hpackHuffmanLengths.getD symbol 0 ≤ 30 ∧
      hpackHuffmanCodes.getD symbol 0 < 2 ^ hpackHuffmanLengths.getD symbol 0 ∧
      huffmanSymbol (hpackHuffmanLengths.getD symbol 0) (hpackHuffmanCodes.getD symbol 0) = some symbol := by
  have hentry := goodEntry_of_lt h
  simp only [goodEntry, Bool.and_eq_true, decide_eq_true_eq] at hentry
  obtain ⟨⟨⟨⟨⟨hpos, hlength⟩, hcode⟩, hfirst⟩, hcount⟩, hsymbol⟩ := hentry
  refine ⟨hpos, hlength, hcode, ?_⟩
  rw [huffmanSymbol_eq, if_neg (by omega), if_neg (by omega), hsymbol]

private theorem huffman_prefix {symbol k : Nat} (h : symbol < 257) (hk : k < hpackHuffmanLengths.getD symbol 0) :
    huffmanSymbol k (hpackHuffmanCodes.getD symbol 0 / 2 ^ (hpackHuffmanLengths.getD symbol 0 - k)) = none := by
  have hentry := goodEntry_of_lt h
  simp only [goodEntry, Bool.and_eq_true, decide_eq_true_eq] at hentry
  obtain ⟨⟨⟨⟨⟨_, hlength⟩, _⟩, hfirst⟩, hcount⟩, _⟩ := hentry
  have hlevel := (huffman_tables.2.1.1 _ (Nat.lt_succ_of_le hlength) k hk).1 (by omega)
  have hbehind := (Nat.le_div_iff_mul_le (Nat.two_pow_pos _)).mpr (hlevel.trans hfirst)
  rw [huffmanSymbol_eq]
  split
  · rfl
  · rw [if_pos (by omega)]

/-- Every place of the table of symbols is that of one of them. -/
theorem huffman_symbol {bits place : Nat} (hbits : bits < 31) (hplace : place < hpackHuffmanCounts.getD bits 0) :
    ∃ symbol < 257, hpackHuffmanSymbols.getD (hpackHuffmanFirstIndex.getD bits 0 + place) 0 = symbol ∧
      hpackHuffmanLengths.getD symbol 0 = bits ∧
      hpackHuffmanCodes.getD symbol 0 = hpackHuffmanFirstCode.getD bits 0 + place := by
  rw [← countAt_eq] at hplace
  rw [← firstIndexAt_eq, ← firstCodeAt_eq, ← symbolAt_eq]
  obtain ⟨hlevels, hinside⟩ := huffman_tables.2.1
  have hentries : ∀ symbol : Fin 257, ∃ index : Fin 257, ∃ length < 31, ∃ offset < countAt length,
      hpackHuffmanLengths.getD symbol 0 = length ∧ hpackHuffmanCodes.getD symbol 0 = firstCodeAt length + offset ∧
      index.val = firstIndexAt length + offset ∧ symbolAt index = symbol := by
    intro symbol
    have hentry := goodEntry_of_lt symbol.isLt
    simp only [goodEntry, Bool.and_eq_true, decide_eq_true_eq] at hentry
    obtain ⟨⟨⟨⟨⟨_, hlength⟩, _⟩, hfirst⟩, hcount⟩, hsymbol⟩ := hentry
    have hindex := hinside _ (Nat.lt_succ_of_le hlength)
    exact ⟨⟨_, by omega⟩, _, Nat.lt_succ_of_le hlength, _, by omega, rfl, by omega, rfl, hsymbol⟩
  choose index hindex using hentries
  -- two symbols at one place are the same one, so no place is left without a symbol
  have hinjective : Function.Injective index := by
    intro symbol symbol' heq
    obtain ⟨_, _, _, _, _, _, _, hsymbol⟩ := hindex symbol
    obtain ⟨_, _, _, _, _, _, _, hsymbol'⟩ := hindex symbol'
    rw [heq, hsymbol'] at hsymbol
    exact Fin.ext hsymbol.symm
  have hlast := hinside bits hbits
  obtain ⟨symbol, hsymbol⟩ := Finite.surjective_of_injective hinjective
    ⟨firstIndexAt bits + place, by omega⟩
  obtain ⟨length, hlength, offset, hoffset, hlengths, hcodes, hplaced, hfound⟩ := hindex symbol
  rw [hsymbol] at hplaced hfound
  have hsame : length = bits := by
    rcases Nat.lt_trichotomy length bits with hlt | heq | hlt
    · have hlevel := (hlevels bits hbits length hlt).2
      simp only at hplaced
      omega
    · exact heq
    · have hlevel := (hlevels length hlength bits hlt).2
      simp only at hplaced
      omega
  subst hsame
  simp only at hplaced
  exact ⟨symbol, symbol.isLt, hfound, hlengths, by omega⟩

theorem huffmanWord_length_le {symbol : Nat} (h : symbol < 257) : (huffmanWord symbol).length ≤ 30 := by
  simpa [huffmanWord] using (huffman_code h).2.1

/-- The words of the symbols can be told apart as they are read. -/
theorem huffman_prefixCode : PrefixCode huffmanRecognise huffmanWord (· < 257) where
  hit symbol h := by
    obtain ⟨_, _, hlt, hsome⟩ := huffman_code h
    rw [huffmanRecognise, huffmanWord, toBits_length, ofBits_toBits, Nat.mod_eq_of_lt hlt, hsome]
  miss symbol h k _ hk := by
    obtain ⟨_, _, hlt, _⟩ := huffman_code h
    rw [huffmanWord, toBits_length] at hk
    have hdiv : hpackHuffmanCodes.getD symbol 0 / 2 ^ (hpackHuffmanLengths.getD symbol 0 - k) < 2 ^ k := by
      rw [Nat.div_lt_iff_lt_mul (Nat.two_pow_pos _), ← Nat.pow_add]
      rwa [show k + (hpackHuffmanLengths.getD symbol 0 - k) = hpackHuffmanLengths.getD symbol 0 by omega]
    rw [huffmanRecognise, huffmanWord, toBits_take _ hk.le, toBits_length, ofBits_toBits,
      Nat.mod_eq_of_lt hdiv, huffman_prefix h hk]
  nonempty symbol h := by
    obtain ⟨hpos, _⟩ := huffman_code h
    intro he
    have := congrArg List.length he
    rw [huffmanWord, toBits_length, List.length_nil] at this
    omega

/-- No symbol is recognised in more bits than the longest code has. -/
theorem huffmanRecognise_long {bits : List Bool} (h : 30 < bits.length) : huffmanRecognise bits = none := by
  have : hpackHuffmanCounts.getD bits.length 0 = 0 :=
    List.getD_eq_default _ _ h
  simp only [huffmanRecognise, huffmanSymbol, this, ↓reduceIte]

/-- The padding, a prefix of the end of string symbol shorter than a byte, is not recognised. -/
theorem huffmanRecognise_padding {k : Nat} (h : k < 8) : huffmanRecognise (List.replicate k true) = none :=
  huffman_tables.2.2 k h

/-! ## The decoder -/

/-- The decoder keeps the number that the bits gathered stand for. -/
def HuffmanDecoder.Gathers (d : HuffmanDecoder) (gathered : List Bool) : Prop :=
  d.code = ofBits gathered ∧ d.bits = gathered.length

theorem HuffmanDecoder.Gathers.code_concat {d : HuffmanDecoder} {gathered : List Bool} (h : d.Gathers gathered)
    (bit : Bool) : d.code <<< 1 ||| bit.toNat = ofBits (gathered ++ [bit]) := by
  rw [ofBits_concat, ← h.1, Nat.shiftLeft_eq, pow_one, Nat.mul_comm]
  have := Nat.two_pow_add_eq_or_of_lt (i := 1) (b := bit.toNat) (by have := Bool.toNat_le bit; omega) d.code
  simpa using this.symm

/-- The decoder takes a sequence of bits apart as the scan does, as long as no more than thirty are left over. -/
theorem HuffmanDecoder.steps_scan {n : Nat} {d : HuffmanDecoder} {gathered bits left : List Bool}
    {symbols : List Nat} (hd : d.Gathers gathered)
    (hs : scan huffmanRecognise gathered bits = (symbols, left)) (hleft : left.length ≤ 30)
    (hsym : ∀ symbol ∈ symbols, symbol < 256) (hn : d.buffer.length + symbols.length ≤ n) :
    d.steps n bits = .ok ⟨ofBits left, left.length, d.buffer ++ symbols.map UInt8.ofNat⟩ := by
  induction bits generalizing d gathered symbols with
  | nil =>
      simp only [scan, Prod.mk.injEq] at hs
      obtain ⟨rfl, rfl⟩ := hs
      obtain ⟨hc, hb⟩ := hd
      rw [HuffmanDecoder.steps, ← hc, ← hb]
      simp
  | cons bit bits ih =>
      have hcode := hd.code_concat bit
      have hbits : d.bits + 1 = (gathered ++ [bit]).length := by simp [hd.2]
      -- more than thirty bits would all be left over
      have hmax : (gathered ++ [bit]).length ≤ 30 := by
        by_contra hlong
        have hall := scan_gather huffmanRecognise gathered (bit :: bits) []
          fun k hk hle => huffmanRecognise_long (by
            rw [List.length_append, List.length_take, Nat.min_eq_left hle]
            simp only [List.length_append, List.length_singleton] at hlong
            omega)
        rw [List.append_nil, hs] at hall
        have hcut : left.length = (gathered ++ bit :: bits).length := congrArg List.length (Prod.ext_iff.mp hall).2
        simp only [List.length_append, List.length_cons, List.length_nil] at hcut hlong
        omega
      cases hr : huffmanRecognise (gathered ++ [bit]) with
      | none =>
          have hstep : d.step n bit =
              .ok { d with code := ofBits (gathered ++ [bit]), bits := (gathered ++ [bit]).length } := by
            rw [huffmanRecognise] at hr
            simp only [HuffmanDecoder.step, hcode, hbits, hpackHuffmanMaxBits, hr]
            exact if_neg (by omega)
          simp only [scan, hr] at hs
          simp only [HuffmanDecoder.steps, hstep]
          exact ih ⟨rfl, rfl⟩ hs hsym hn
      | some symbol =>
          obtain ⟨rest, last, hrest⟩ : ∃ rest last, scan huffmanRecognise [] bits = (rest, last) := ⟨_, _, rfl⟩
          simp only [scan, hr, hrest, Prod.mk.injEq] at hs
          obtain ⟨rfl, rfl⟩ := hs
          have hlt := hsym symbol (by simp)
          rw [List.length_cons] at hn
          have hstep : d.step n bit = .ok ⟨0, 0, d.buffer ++ [UInt8.ofNat symbol]⟩ := by
            rw [huffmanRecognise] at hr
            simp only [HuffmanDecoder.step, hcode, hbits, hpackHuffmanMaxBits, hr]
            rw [if_neg (by omega), if_neg (by simp only [hpackHuffmanEos]; omega), if_neg (by omega)]
          simp only [HuffmanDecoder.steps, hstep]
          have := ih (d := ⟨0, 0, d.buffer ++ [UInt8.ofNat symbol]⟩) ⟨rfl, rfl⟩ hrest
            (fun a ha => hsym a (by simp [ha]))
            (by
              simp only [List.length_append, List.length_singleton]
              omega)
          rw [List.append_assoc] at this
          exact this

/-! ## The encoder -/

/-- The bits that the encoder has been given so far, the ones of the accumulator included. -/
def HuffmanEncoder.written (e : HuffmanEncoder) : List Bool := bitsOf e.buffer ++ toBits e.count e.accumulator

theorem HuffmanEncoder.drain_spec {n count : Nat} (accumulator : Nat) (buffer : Bytes)
    (h : 8 * buffer.length + count ≤ 8 * n) :
    ∃ e, drain n accumulator count buffer = .ok e ∧ e.count < 8 ∧
      e.written = bitsOf buffer ++ toBits count accumulator := by
  induction count using Nat.strongRecOn generalizing buffer with
  | ind count ih =>
      by_cases hc : 8 ≤ count
      · obtain ⟨rest, rfl⟩ : ∃ rest, count = rest + 8 := ⟨count - 8, by omega⟩
        obtain ⟨e, he, hlt, hw⟩ := ih rest (by omega) (buffer ++ [UInt8.ofNat (accumulator >>> rest)])
          (by simp only [List.length_append, List.length_singleton]; omega)
        refine ⟨e, ?_, hlt, ?_⟩
        · rw [drain, if_neg (by omega), he]
        · rw [hw, bitsOf_append, bitsOf_singleton, toBits_ofNat, Nat.shiftRight_eq_div_pow, Nat.add_comm rest 8,
            toBits_add, List.append_assoc]
      · refine ⟨⟨accumulator, count, buffer⟩, ?_, by simpa using hc, rfl⟩
        rw [drain]
        rintro m rfl
        omega

/-- The accumulator after some more bits of a code have been pushed into it. -/
theorem toBits_push {count take : Nat} (accumulator v : Nat) (h : count + take ≤ 32) :
    toBits (count + take) (accumulator <<< take % 2 ^ 32 ||| v % 2 ^ take) =
      toBits count accumulator ++ toBits take v := by
  rw [← toBits_mod take v, ← toBits_shiftLeft_or (Nat.mod_lt v (Nat.two_pow_pos take))]
  refine toBits_congr fun i hi => ?_
  rw [Nat.testBit_or, Nat.testBit_or, Nat.testBit_mod_two_pow _ 32, decide_eq_true (show i < 32 by omega),
    Bool.true_and]

theorem HuffmanEncoder.push_spec {n steps : Nat} {e : HuffmanEncoder} (code length : Nat) (hsteps : length ≤ steps)
    (hcount : e.count < 8) (h : e.written.length + length ≤ 8 * n) :
    ∃ e', e.push n code steps length = .ok e' ∧ e'.count < 8 ∧ e'.written = e.written ++ toBits length code := by
  induction steps generalizing length e with
  | zero =>
      obtain rfl : length = 0 := by omega
      exact ⟨e, rfl, hcount, by simp⟩
  | succ steps ih =>
      by_cases hl : length = 0
      · subst hl
        exact ⟨e, by simp [push], hcount, by simp⟩
      · have hwl : e.written.length = 8 * e.buffer.length + e.count := by simp [written]
        obtain ⟨take, htake⟩ : ∃ take, take = min (32 - e.count) length := ⟨_, rfl⟩
        have hmask : code >>> (length - take) &&& (1 <<< take - 1) = code / 2 ^ (length - take) % 2 ^ take := by
          rw [Nat.shiftRight_eq_div_pow, Nat.one_shiftLeft, Nat.and_two_pow_sub_one_eq_mod]
        obtain ⟨e₁, hdrain, hcount₁, hw₁⟩ := drain_spec (n := n) (e.accumulator <<< take % 2 ^ 32 |||
          code / 2 ^ (length - take) % 2 ^ take) e.buffer (show _ + (e.count + take) ≤ _ by omega)
        rw [toBits_push _ _ (by omega), ← List.append_assoc] at hw₁
        have hw₁' : e₁.written = e.written ++ toBits take (code / 2 ^ (length - take)) := hw₁
        obtain ⟨e₂, hpush, hcount₂, hw₂⟩ := ih (length - take) (e := e₁) (by omega) hcount₁ (by
          rw [hw₁', List.length_append, toBits_length]
          omega)
        refine ⟨e₂, ?_, hcount₂, ?_⟩
        · rw [push, if_neg hl, ← htake]
          simp only [hmask, hdrain]
          exact hpush
        · have hsplit : toBits length code = toBits take (code / 2 ^ (length - take)) ++ toBits (length - take) code := by
            conv_lhs => rw [show length = take + (length - take) by omega, toBits_add]
          rw [hw₂, hw₁', hsplit, List.append_assoc]

/-- The bits of the words of the bytes, one word after the other. -/
def huffmanWords (data : Bytes) : List Bool := (data.map UInt8.toNat).flatMap huffmanWord

@[simp] theorem huffmanWords_length (data : Bytes) : (huffmanWords data).length = (data.map huffmanLength).sum := by
  induction data with
  | nil => rfl
  | cons byte data ih =>
      simp only [huffmanWords, List.map_cons, List.flatMap_cons, List.length_append, List.sum_cons] at ih ⊢
      rw [ih]
      simp [huffmanWord, huffmanLength]

theorem HuffmanEncoder.pushAll_spec {n : Nat} (data : Bytes) {e : HuffmanEncoder} (hcount : e.count < 8)
    (h : e.written.length + (huffmanWords data).length ≤ 8 * n) :
    ∃ e', e.pushAll n data = .ok e' ∧ e'.count < 8 ∧ e'.written = e.written ++ huffmanWords data := by
  induction data generalizing e with
  | nil => exact ⟨e, rfl, hcount, by simp [huffmanWords]⟩
  | cons byte data ih =>
      have hwords : huffmanWords (byte :: data) =
          toBits (huffmanLength byte) (huffmanCode byte) ++ huffmanWords data := rfl
      rw [hwords, List.length_append, toBits_length] at h
      obtain ⟨e₁, hpush, hcount₁, hw₁⟩ := push_spec (n := n) (huffmanCode byte) (huffmanLength byte) le_rfl
        hcount (by omega)
      obtain ⟨e₂, hall, hcount₂, hw₂⟩ := ih hcount₁ (by
        rw [hw₁, List.length_append, toBits_length]
        omega)
      refine ⟨e₂, ?_, hcount₂, ?_⟩
      · simp only [pushAll, hpush]
        exact hall
      · rw [hw₂, hw₁, hwords, List.append_assoc]

/-- The coded form of the data: its words and a padding shorter than a byte. -/
theorem encodeHuffman_spec {n : Nat} (data : Bytes) (h : sizeHuffman data ≤ n) :
    ∃ coded pad, encodeHuffman n data = .ok coded ∧ coded.length = sizeHuffman data ∧ pad < 8 ∧
      bitsOf coded = huffmanWords data ++ List.replicate pad true := by
  have hsize : (huffmanWords data).length ≤ 8 * n := by
    simp only [sizeHuffman] at h
    rw [huffmanWords_length]
    omega
  obtain ⟨e, hall, hcount, hw⟩ := HuffmanEncoder.pushAll_spec (n := n) data (e := {}) (by decide)
    (by simpa [HuffmanEncoder.written] using hsize)
  have hwords : bitsOf e.buffer ++ toBits e.count e.accumulator = huffmanWords data := by
    simpa [HuffmanEncoder.written] using hw
  have hlength : 8 * e.buffer.length + e.count = (data.map huffmanLength).sum := by
    simpa using congrArg List.length hwords
  by_cases hc : e.count = 0
  · refine ⟨e.buffer, 0, ?_, ?_, by decide, ?_⟩
    · simp only [encodeHuffman, hall]
      show (if e.count > 0 then _ else _) = _
      rw [if_neg (by omega)]
    · rw [sizeHuffman]
      omega
    · rw [← hwords, hc]
      simp
  · refine ⟨e.buffer ++ [UInt8.ofNat (e.accumulator <<< (8 - e.count) % 2 ^ 32 ||| (1 <<< (8 - e.count) - 1))],
      8 - e.count, ?_, ?_, by omega, ?_⟩
    · simp only [encodeHuffman, hall]
      simp only [sizeHuffman] at h
      show (if e.count > 0 then _ else _) = _
      rw [if_pos (by omega), if_neg (by omega)]
    · rw [List.length_append, List.length_singleton, sizeHuffman]
      omega
    · have hones : toBits (8 - e.count) (1 <<< (8 - e.count) - 1) = List.replicate (8 - e.count) true := by
        obtain ⟨k, hk⟩ : ∃ k, k = 8 - e.count := ⟨_, rfl⟩
        rw [← hk]
        have : k < 9 := by omega
        clear hk hlength hwords hw hall hsize h
        revert k
        decide
      have hmod : (1 <<< (8 - e.count) - 1) % 2 ^ (8 - e.count) = 1 <<< (8 - e.count) - 1 := by
        rw [Nat.one_shiftLeft]
        exact Nat.mod_eq_of_lt (Nat.sub_lt (Nat.two_pow_pos _) Nat.one_pos)
      have hpush := toBits_push e.accumulator (1 <<< (8 - e.count) - 1)
        (show e.count + (8 - e.count) ≤ 32 by omega)
      rw [hmod, hones, show e.count + (8 - e.count) = 8 by omega] at hpush
      rw [bitsOf_append, bitsOf_singleton, toBits_ofNat, hpush, ← List.append_assoc, hwords]

/-- The decoder takes the coded form of the data back into the data. -/
theorem decodeHuffman_of_bits {n pad : Nat} {data coded : Bytes} (hpad : pad < 8)
    (hbits : bitsOf coded = huffmanWords data ++ List.replicate pad true) (hn : data.length ≤ n) :
    decodeHuffman n coded = .ok data := by
  have hscan := huffman_prefixCode.scan_words (data.map UInt8.toNat) (List.replicate pad true)
    (by
      intro a ha
      obtain ⟨b, _, rfl⟩ := List.mem_map.mp ha
      have := b.toNat_lt
      omega)
    (by
      intro k _ hk
      rw [List.length_replicate] at hk
      rw [List.take_replicate, Nat.min_eq_left hk]
      exact huffmanRecognise_padding (by omega))
  have hsteps := HuffmanDecoder.steps_scan (n := n) (d := {}) ⟨rfl, rfl⟩ hscan
    (by simp; omega)
    (by
      intro a ha
      obtain ⟨b, _, rfl⟩ := List.mem_map.mp ha
      exact b.toNat_lt)
    (by simpa using hn)
  have hones : ofBits (List.replicate pad true) = 1 <<< pad - 1 := by
    clear hscan hsteps hbits
    revert pad
    decide
  simp only [decodeHuffman, hbits, huffmanWords, hsteps, List.length_replicate, hones]
  show (if pad > 7 then _ else _) = _
  rw [if_neg (by omega), if_neg (by simp)]
  simp [List.map_map, Function.comp_def]

end Viriatum
