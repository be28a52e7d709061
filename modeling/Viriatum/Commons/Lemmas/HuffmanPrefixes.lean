import Viriatum.Commons.Lemmas.HuffmanTree

/-!
# The tables of prefixes

Which symbol is found at a number of the size of a prefix.
-/

namespace Viriatum

open Library

variable {root : HuffmanNode} {s : List UInt8} {word : Nat} {symbol : UInt8} {table table' : List (Option PrefixEntry)}

theorem pathCode_fill_left (path : List Bool) : pathCode path <<< 1 % 65536 = pathCode (path ++ [false]) := by
  rw [← pathCode_left, Nat.or_zero]

theorem pathCode_fill_right (path : List Bool) : pathCode path <<< 1 % 65536 ||| 1 = pathCode (path ++ [true]) := by
  have heven : pathCode path <<< 1 % 65536 = (pathCode path % 32768) <<< 1 := by
    rw [Nat.shiftLeft_eq, Nat.shiftLeft_eq]
    omega
  rw [heven, ← Nat.shiftLeft_add_eq_or_of_lt (by decide : 1 < 2 ^ 1), pathCode, pathCode, ofBits_concat, Nat.shiftLeft_eq,
    Bool.toNat_true]
  omega

namespace Huffman

/-- Every way on of so many bits is filled, and nothing else. -/
theorem fillPrefix_spec (symbol : UInt8) (extra count : Nat) (path : List Bool) (table : List (Option PrefixEntry))
    (hroom : ∀ tail : List Bool, tail.length = count → pathCode (path ++ tail) < table.length) :
    ∃ table', fillPrefixHuffman symbol extra count (pathCode path) table = some table' ∧ table'.length = table.length ∧
      (∀ tail : List Bool, tail.length = count → table'[pathCode (path ++ tail)]? = some (some { code := symbol, extra })) ∧
      ∀ word, (∀ tail : List Bool, tail.length = count → pathCode (path ++ tail) ≠ word) → table'[word]? = table[word]? := by
  induction count generalizing path table with
  | zero =>
      have hlt : pathCode path < table.length := by simpa using hroom [] rfl
      rw [fillPrefixHuffman, if_pos hlt]
      refine ⟨_, rfl, List.length_set, fun tail htail => ?_, fun word hword => ?_⟩
      · cases List.length_eq_zero_iff.mp htail
        rw [List.append_nil]
        exact List.getElem?_set_self hlt
      · have hne : pathCode path ≠ word := by simpa using hword [] rfl
        exact List.getElem?_set_ne hne
  | succ count ih =>
      rw [fillPrefixHuffman, pathCode_fill_right, pathCode_fill_left]
      obtain ⟨table₁, hfill₁, hlength₁, hin₁, hout₁⟩ := ih (path ++ [true]) table fun tail htail => by
        rw [List.append_assoc]
        exact hroom _ (by simp [htail])
      obtain ⟨table₂, hfill₂, hlength₂, hin₂, hout₂⟩ := ih (path ++ [false]) table₁ fun tail htail => by
        rw [List.append_assoc, hlength₁]
        exact hroom _ (by simp [htail])
      rw [hfill₁, Option.bind_eq_bind, Option.bind_some]
      refine ⟨table₂, hfill₂, hlength₂.trans hlength₁, fun tail htail => ?_, fun word hword => ?_⟩
      · by_cases hleft : ∃ rest : List Bool, rest.length = count ∧
          pathCode (path ++ [false] ++ rest) = pathCode (path ++ tail)
        · obtain ⟨rest, hrest, hsame⟩ := hleft
          rw [← hsame]
          exact hin₂ rest hrest
        · rw [hout₂ _ fun rest hrest hsame => hleft ⟨rest, hrest, hsame⟩]
          cases tail with
          | nil => cases htail
          | cons bit rest =>
              have hrest : rest.length = count := Nat.succ.inj htail
              cases bit with
              | false => exact absurd ⟨rest, hrest, by simp⟩ hleft
              | true =>
                  have hpath : path ++ true :: rest = path ++ [true] ++ rest := by simp
                  rw [hpath]
                  exact hin₁ rest hrest
      · rw [hout₂ word fun tail htail => ?_, hout₁ word fun tail htail => ?_]
        · rw [List.append_assoc]
          exact hword _ (by simp [htail])
        · rw [List.append_assoc]
          exact hword _ (by simp [htail])

/-- A symbol of some is found at a number: it has a word that begins the bits of the number. -/
def Finds (root : HuffmanNode) (size : Nat) (symbols : List UInt8) (word : Nat) (entry : PrefixEntry) : Prop :=
  ∃ path tail : List Bool, entry.code ∈ symbols ∧ root.Word path entry.code ∧ (path ++ tail).length = size ∧
    pathCode (path ++ tail) = word ∧ entry.extra = tail.length

variable {huffman : Huffman}

/-- A symbol is filled in where its word leads on, if it has one. -/
theorem fillSymbol_spec (h : huffman.Codes root s) (hlength : table.length = 2 ^ huffman.prefixSize) (symbol : UInt8) :
    ∃ table', huffman.fillSymbol table symbol = some table' ∧ table'.length = table.length ∧
      ∀ word, (∃ entry, Finds root huffman.prefixSize [symbol] word entry ∧ table'[word]? = some (some entry)) ∨
        (∀ entry, ¬ Finds root huffman.prefixSize [symbol] word entry) ∧ table'[word]? = table[word]? := by
  rw [fillSymbol]
  by_cases hmem : symbol ∈ s
  · obtain ⟨path, hpath⟩ := CodeTree.exists_word ((h.mem symbol).mpr hmem)
    have hle : path.length ≤ huffman.prefixSize := by
      rw [h.prefixSize]
      exact hpath.length_le
    rw [h.node hpath]
    dsimp only
    have hbits : ∀ tail : List Bool, tail.length = huffman.prefixSize - path.length →
        (path ++ tail).length = huffman.prefixSize := fun tail htail => by
      rw [List.length_append]
      omega
    obtain ⟨table', hfill, hlength', hin, hout⟩ := fillPrefix_spec symbol (huffman.prefixSize - path.length)
      (huffman.prefixSize - path.length) path table fun tail htail => by
        have hlt := ofBits_lt (path ++ tail)
        rw [hbits tail htail] at hlt
        rw [hlength]
        exact Nat.lt_of_le_of_lt (Nat.mod_le _ _) hlt
    refine ⟨table', hfill, hlength', fun word => ?_⟩
    by_cases hfills : ∃ tail : List Bool, tail.length = huffman.prefixSize - path.length ∧ pathCode (path ++ tail) = word
    · obtain ⟨tail, htail, rfl⟩ := hfills
      exact Or.inl ⟨_, ⟨path, tail, List.mem_singleton.mpr rfl, hpath, hbits tail htail, rfl, htail.symm⟩, hin tail htail⟩
    · refine Or.inr ⟨?_, hout word fun tail htail hword => hfills ⟨tail, htail, hword⟩⟩
      rintro entry ⟨path', tail, hcode, hpath', hsize, hword, -⟩
      rw [List.mem_singleton.mp hcode] at hpath'
      cases hpath.unique h.nodup hpath'
      rw [List.length_append] at hsize
      exact hfills ⟨tail, by omega, hword⟩
  · rw [h.none symbol hmem]
    refine ⟨table, rfl, rfl, fun word => Or.inr ⟨?_, rfl⟩⟩
    rintro entry ⟨path, tail, hcode, hpath, -⟩
    rw [List.mem_singleton.mp hcode] at hpath
    exact hmem ((h.mem symbol).mp hpath.mem)

/-- What some symbols leave: at a number that one of them is found at, one of them; elsewhere what was there. -/
theorem fillSymbols_spec (h : huffman.Codes root s) (symbols : List UInt8)
    (hlength : table.length = 2 ^ huffman.prefixSize) :
    ∃ table', symbols.foldlM huffman.fillSymbol table = some table' ∧ table'.length = table.length ∧
      ∀ word, (∃ entry, Finds root huffman.prefixSize symbols word entry ∧ table'[word]? = some (some entry)) ∨
        (∀ entry, ¬ Finds root huffman.prefixSize symbols word entry) ∧ table'[word]? = table[word]? := by
  induction symbols generalizing table with
  | nil =>
      refine ⟨table, rfl, rfl, fun word => Or.inr ⟨?_, rfl⟩⟩
      rintro entry ⟨path, tail, hcode, -⟩
      cases hcode
  | cons symbol symbols ih =>
      obtain ⟨table₁, hfill, hlength₁, hfirst⟩ := fillSymbol_spec h hlength symbol
      obtain ⟨table₂, hrun, hlength₂, hrest⟩ := ih (hlength₁.trans hlength)
      rw [List.foldlM_cons, hfill, Option.bind_eq_bind, Option.bind_some]
      refine ⟨table₂, hrun, hlength₂.trans hlength₁, fun word => ?_⟩
      rcases hrest word with ⟨entry, ⟨path, tail, hcode, hfinds⟩, hentry⟩ | ⟨hnone, hsame⟩
      · exact Or.inl ⟨entry, ⟨path, tail, List.mem_cons_of_mem symbol hcode, hfinds⟩, hentry⟩
      · rcases hfirst word with ⟨entry, ⟨path, tail, hcode, hfinds⟩, hentry⟩ | ⟨hnone', hsame'⟩
        · cases List.mem_singleton.mp hcode
          exact Or.inl ⟨entry, ⟨path, tail, List.mem_cons_self, hfinds⟩, hsame.trans hentry⟩
        · refine Or.inr ⟨?_, hsame.trans hsame'⟩
          rintro entry ⟨path, tail, hcode, hfinds⟩
          cases List.mem_cons.mp hcode with
          | inl hcode => exact hnone' entry ⟨path, tail, List.mem_singleton.mpr hcode, hfinds⟩
          | inr hcode => exact hnone entry ⟨path, tail, hcode, hfinds⟩

theorem generatePrefix_eq (h : huffman.prefixSize < 31) : huffman.generatePrefixHuffman =
    (huffmanSymbols.foldlM huffman.fillSymbol (List.replicate (2 ^ huffman.prefixSize) none)).map
      fun table => { huffman with prefixTable := table } := by
  rw [generatePrefixHuffman, if_neg (Nat.not_le.mpr h), Nat.one_shiftLeft]
  cases huffmanSymbols.foldlM huffman.fillSymbol (List.replicate (2 ^ huffman.prefixSize) none) <;> rfl

theorem pathCode_eq {bits : List Bool} (h : bits.length ≤ 16) : pathCode bits = ofBits bits :=
  Nat.mod_eq_of_lt (Nat.lt_of_lt_of_le (ofBits_lt bits) (Nat.pow_le_pow_right (by decide) h))

/-- Where the codes have sixteen bits at most, each symbol is found at all the numbers that its word begins. -/
theorem generatePrefix_finds (h : huffman.Codes root s) (hsize : huffman.prefixSize ≤ 16) : ∃ table,
    huffman.generatePrefixHuffman = some { huffman with prefixTable := table } ∧
      ∀ {path tail : List Bool} {symbol}, root.Word path symbol → (path ++ tail).length = huffman.prefixSize →
        table[ofBits (path ++ tail)]? = some (some { code := symbol, extra := tail.length }) := by
  have hempty : (List.replicate (2 ^ huffman.prefixSize) (none : Option PrefixEntry)).length = 2 ^ huffman.prefixSize :=
    List.length_replicate
  obtain ⟨table, hrun, -, hfinds⟩ := fillSymbols_spec h huffmanSymbols hempty
  refine ⟨table, by rw [generatePrefix_eq (by omega), hrun]; rfl, ?_⟩
  intro path tail symbol hpath hlength
  have hcode := pathCode_eq (Nat.le_trans (Nat.le_of_eq hlength) hsize)
  rw [← hcode]
  rcases hfinds (pathCode (path ++ tail)) with
    ⟨⟨code, extra⟩, ⟨path', tail', -, hpath', hlength', hsame, hextra⟩, hentry⟩ | ⟨hnone, -⟩
  · rw [pathCode_eq (Nat.le_trans (Nat.le_of_eq hlength') hsize), hcode] at hsame
    have hbits := congrArg (toBits huffman.prefixSize) hsame
    rw [← hlength'] at hbits
    conv_rhs at hbits => rw [hlength', ← hlength]
    rw [toBits_ofBits, toBits_ofBits] at hbits
    obtain ⟨rfl, rfl⟩ := hpath'.prefix_free hpath hbits
    cases List.append_cancel_left hbits
    cases hextra
    exact hentry
  · exact absurd ⟨path, tail, mem_huffmanSymbols symbol, hpath, hlength, rfl, rfl⟩
      (hnone { code := symbol, extra := tail.length })

/-- A number of sixteen bits is found by two symbols where some codes have more bits. -/
theorem finds_other (h : huffman.Codes root s) (hsize : 16 < huffman.prefixSize) {word : Nat} {entry : PrefixEntry}
    (hfinds : Finds root huffman.prefixSize huffmanSymbols word entry) :
    ∃ other, Finds root huffman.prefixSize huffmanSymbols word other ∧ other.code ≠ entry.code := by
  obtain ⟨path, tail, -, hpath, hlength, rfl, -⟩ := hfinds
  -- the first bit is not part of the number
  obtain ⟨bit, bits, hbits⟩ : ∃ bit bits, path ++ tail = bit :: bits := by
    cases hcons : path ++ tail with
    | nil =>
        rw [hcons, List.length_nil] at hlength
        omega
    | cons bit bits => exact ⟨bit, bits, rfl⟩
  rw [hbits, List.length_cons] at hlength
  have hfirst : ∀ bit, pathCode (bit :: bits) = ofBits bits % 65536 := by
    intro bit
    have hdvd : 65536 ∣ 2 ^ bits.length := Nat.pow_dvd_pow 2 (by omega : 16 ≤ bits.length)
    rw [pathCode, ← List.singleton_append, ofBits_append_mul, Nat.add_mod, Nat.mod_eq_zero_of_dvd (hdvd.mul_left _),
      Nat.zero_add, Nat.mod_mod]
  have hdepth : root.depth ≤ ((!bit) :: bits).length := by
    rw [List.length_cons, hlength, h.prefixSize]
  obtain ⟨path', tail', symbol, hbits', hpath'⟩ := CodeTree.exists_word_of_depth hdepth
  refine ⟨{ code := symbol, extra := tail'.length },
    ⟨path', tail', mem_huffmanSymbols symbol, hpath', ?_, ?_, rfl⟩, ?_⟩
  · rw [← hbits', List.length_cons, hlength]
  · rw [← hbits', hbits, hfirst, hfirst]
  · rintro hsame
    dsimp only at hsame
    rw [hsame] at hpath'
    cases hpath.unique h.nodup hpath'
    cases path with
    | nil =>
        cases hpath
        have hzero := h.prefixSize
        rw [CodeTree.depth] at hzero
        omega
    | cons first path =>
        rw [List.cons_append] at hbits hbits'
        have hhead := (List.cons.inj hbits).1
        have hhead' := (List.cons.inj hbits').1
        rw [hhead] at hhead'
        cases bit <;> cases hhead'

theorem Finds.mem {size : Nat} {symbols : List UInt8} {entry : PrefixEntry} (hfinds : Finds root size symbols word entry)
    (h : huffman.Codes root s) : entry.code ∈ s := by
  obtain ⟨path, tail, -, hpath, -⟩ := hfinds
  exact (h.mem _).mp hpath.mem

/-- Where some codes have more than sixteen bits, the tables lack the first of the symbols. -/
theorem generatePrefix_misses (h : huffman.Codes root s) (hsize : 16 < huffman.prefixSize) {tabled : Huffman}
    (htabled : huffman.generatePrefixHuffman = some tabled) : ∃ symbol ∈ s, ∀ (word : Nat) (entry : PrefixEntry),
      tabled.prefixTable[word]? = some (some entry) → entry.code ≠ symbol := by
  have hlt : huffman.prefixSize < 31 := by
    by_contra hlarge
    rw [generatePrefixHuffman, if_pos (by omega)] at htabled
    cases htabled
  obtain ⟨path, tail, byte, -, hbyte⟩ := CodeTree.exists_word_of_depth
    (Nat.le_of_eq (List.length_replicate (a := false)).symm : root.depth ≤ _)
  have hfind : (huffmanSymbols.find? fun symbol => decide (symbol ∈ s)).isSome := by
    rw [List.find?_isSome]
    exact ⟨byte, mem_huffmanSymbols byte, by simpa using (h.mem byte).mp hbyte.mem⟩
  obtain ⟨symbol, hsymbol⟩ := Option.isSome_iff_exists.mp hfind
  obtain ⟨hmem, front, rest, hsymbols, hfront⟩ := List.find?_eq_some_iff_append.mp hsymbol
  have hmem' : symbol ∈ s := by simpa using hmem
  have hfront' : ∀ other ∈ front, other ∉ s := fun other hother => by simpa using hfront other hother
  have hnot : symbol ∉ rest := by
    have hnodup := nodup_huffmanSymbols
    rw [hsymbols, List.nodup_append, List.nodup_cons] at hnodup
    exact hnodup.2.1.1
  have hsplit : huffmanSymbols = (front ++ [symbol]) ++ rest := by simpa using hsymbols
  have hempty : (List.replicate (2 ^ huffman.prefixSize) (none : Option PrefixEntry)).length = 2 ^ huffman.prefixSize :=
    List.length_replicate
  obtain ⟨table₁, hrun₁, hlength₁, hfinds₁⟩ := fillSymbols_spec h (front ++ [symbol]) hempty
  obtain ⟨table₂, hrun₂, -, hfinds₂⟩ := fillSymbols_spec h rest (hlength₁.trans List.length_replicate)
  have hrun : huffmanSymbols.foldlM huffman.fillSymbol (List.replicate (2 ^ huffman.prefixSize) none) = some table₂ := by
    rw [hsplit, List.foldlM_append, hrun₁]
    exact hrun₂
  rw [generatePrefix_eq hlt, hrun] at htabled
  cases htabled
  refine ⟨symbol, hmem', fun word entry hentry => ?_⟩
  dsimp only at hentry
  rcases hfinds₂ word with ⟨entry', ⟨path', tail', hcode, -⟩, hentry'⟩ | ⟨hnone, hsame⟩
  · rw [hentry] at hentry'
    cases hentry'
    exact fun heq => hnot (heq ▸ hcode)
  · rw [hsame] at hentry
    rcases hfinds₁ word with ⟨entry', hfinds, hentry'⟩ | ⟨-, hsame'⟩
    · -- another symbol is found there as well, and has been filled in later
      rw [hentry] at hentry'
      cases hentry'
      have hin := hfinds.mem h
      obtain ⟨path', tail', hcode, hpath'⟩ := hfinds
      have hwhole : Finds root huffman.prefixSize huffmanSymbols word entry :=
        ⟨path', tail', mem_huffmanSymbols _, hpath'⟩
      obtain ⟨other, hother, hne⟩ := finds_other h hsize hwhole
      have hin' := hother.mem h
      have hlater : other.code ∈ rest := by
        have hall : other.code ∈ front ++ symbol :: rest := hsymbols ▸ mem_huffmanSymbols other.code
        have hlast : entry.code = symbol := by
          cases List.mem_append.mp hcode with
          | inl hfirst => exact absurd hin (hfront' _ hfirst)
          | inr hlast => exact List.mem_singleton.mp hlast
        cases List.mem_append.mp hall with
        | inl hfirst => exact absurd hin' (hfront' _ hfirst)
        | inr hrest =>
            cases List.mem_cons.mp hrest with
            | inl heq => exact absurd (heq.trans hlast.symm) hne
            | inr hrest => exact hrest
      obtain ⟨path'', tail'', -, hpath''⟩ := hother
      exact absurd ⟨path'', tail'', hlater, hpath''⟩ (hnone other)
    · rw [hsame', List.getElem?_replicate] at hentry
      split at hentry <;> cases hentry

end Huffman

end Viriatum
