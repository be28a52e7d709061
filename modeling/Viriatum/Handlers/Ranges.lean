import Viriatum.Handlers.Framed
import Viriatum.Library.Octets

/-!
# The ranges of the files

What the handler of the files serves for a header with a range, held against the grammar of the header.
-/

namespace Viriatum

open Library Http2Connection

/-! ## The grammar -/

/-- A single range of bytes. -/
inductive RangeSpec where
  | span (first last : Nat)
  | onward (first : Nat)
  | suffix (length : Nat)
deriving DecidableEq, Repr

structure IsNumber (digits : Bytes) (value : Nat) : Prop where
  nonempty : digits ≠ []
  all : ∀ byte ∈ digits, isDigit byte = true
  value : digitsValue digits = value

/-- How a range is written in the header. -/
inductive Spells : Bytes → RangeSpec → Prop where
  | span {first last : Bytes} {low high : Nat} (hfirst : IsNumber first low) (hlast : IsNumber last high)
      (hle : low ≤ high) : Spells (bytes "bytes=" ++ first ++ 45 :: last) (.span low high)
  | onward {first : Bytes} {low : Nat} (hfirst : IsNumber first low) :
      Spells (bytes "bytes=" ++ first ++ 45 :: []) (.onward low)
  | suffix {last : Bytes} {length : Nat} (hlast : IsNumber last length) :
      Spells (bytes "bytes=" ++ [] ++ 45 :: last) (.suffix length)

/-- The first and the last byte of a range in a file of a size, if it has some of the range. -/
def RangeSpec.clamp (size : Nat) : RangeSpec → Option (Nat × Nat)
  | .span first last => if first < size then some (first, min last (size - 1)) else none
  | .onward first => if first < size then some (first, size - 1) else none
  | .suffix length => if 0 < length ∧ 0 < size then some (size - length, size - 1) else none

/-- A range that needs no clamping and is not one of the last bytes. -/
def RangeSpec.Inside (size : Nat) : RangeSpec → Prop
  | .span _ last => last < size
  | .onward first => first < size
  | .suffix _ => False

/-! ## What is served -/

namespace FileConnection

/-- What a file gives to the read that comes next. -/
def reading (contents : Bytes) (c : FileConnection) : FileReading where
  opens := true
  data := match c.exchange with
    | none => []
    | some e => contents.drop (openFileCache e).offset

/-- A number of writes go out, one after another. -/
def writes (service : FileService) (sight : Sight) (contents : Bytes) : Nat → FileConnection → FileConnection
  | 0, c => c
  | count + 1, c => writes service sight contents count (c.step service (.written (c.reading contents) sight))

end FileConnection

/-- The response to a request is of an interval of the file that the header asks for or of all of it, and its fields and
the bytes that are sent agree with it. -/
structure ServesRange (service : FileService) (request : FileRequest) (sight : Sight) (range contents : Bytes)
    (initial final : Nat) : Prop where
  interval : (initial, final) = (0, contents.length - 1) ∨
    ∃ spec, Spells range spec ∧ spec.clamp contents.length = some (initial, final)
  ordered : initial ≤ final
  inside : final < contents.length
  payload : (messageCompleteHandlerFile service request sight).payload = .span initial final
  fields : (messageCompleteHandlerFile service request sight).fields =
    [lengthField (final - initial + 1), cacheField,
      (bytes "Content-Range", rangeValue initial final contents.length)]
  sent : ∃ count, ∃ c : FileConnection,
    c = (({} : FileConnection).step service (.received request sight)).writes service sight contents count ∧
    c.writeQueue = [] ∧
    c.output = headHandlerFile service request.keepAlive (messageCompleteHandlerFile service request sight) ++
      (contents.drop initial).take (final - initial + 1)

/-! ## How the header is read -/

def isMark (byte : UInt8) : Bool := byte = 61 ∨ byte = 45

/-- The position behind the last mark before a position. -/
def markBefore (range : Bytes) : Nat → Nat
  | 0 => 0
  | index + 1 => if (range[index]?).any isMark then index + 1 else markBefore range index

/-- The first byte of the range is read at a dash, and at a comma that does not directly follow a mark. -/
def ReadsFirst (range : Bytes) (index : Nat) : Prop :=
  range[index]? = some 45 ∨ (range[index]? = some 44 ∧ index ≠ markBefore range index)

/-- What is read the last as the first byte is no positive number. -/
def StartsAtZero (range : Bytes) : Prop :=
  ∀ index, ReadsFirst range index → (∀ later, index < later → ¬ ReadsFirst range later) →
    index = 0 ∨ toLongLong (strtoull (range.drop (markBefore range index))) ≤ 0

/-- A comma directly follows a mark, or there is nothing behind the last one, or the number of the last byte is. -/
def EndsAtEnd (range : Bytes) (size : Nat) : Prop :=
  (∃ index, range[index]? = some 44 ∧ index = markBefore range index) ∨
    markBefore range range.length = range.length ∨
      (toLongLong (strtoull (range.drop (markBefore range range.length)))).toNat = size - 1

/-- The ranges that are served: those inside the file, and the headers that are read as all of it. -/
def RangeSupported (range : Bytes) (size : Nat) : Prop :=
  0 < size ∧ ((∃ spec, Spells range spec ∧ spec.Inside size) ∨ (StartsAtZero range ∧ EndsAtEnd range size))

variable {range contents : Bytes} {size index : Nat}

/-- The state behind a number of bytes of the header. -/
def rangeState (range : Bytes) (size count : Nat) : RangeState :=
  (range.take count).zipIdx.foldl (rangeStep range size) {}

theorem rangeState_succ {byte : UInt8} (hbyte : range[index]? = some byte) :
    rangeState range size (index + 1) = rangeStep range size (rangeState range size index) (byte, index) := by
  obtain ⟨hlt, -⟩ := List.getElem?_eq_some_iff.mp hbyte
  have htake : (range.take index).length = index := by
    rw [List.length_take]
    exact Nat.min_eq_left hlt.le
  rw [rangeState, List.take_add_one, hbyte, List.zipIdx_append, List.foldl_append, htake, Nat.zero_add]
  rfl

/-- What is known of the first byte behind a number of bytes of the header. -/
structure FirstRead (range : Bytes) (count : Nat) (initial : Int) : Prop where
  unset : (∀ index, index < count → ¬ ReadsFirst range index) → initial = -1
  set : ∀ index, index < count → ReadsFirst range index →
    (∀ later, index < later → later < count → ¬ ReadsFirst range later) →
      initial = if index = 0 then 0 else toLongLong (strtoull (range.drop (markBefore range index)))

theorem FirstRead.next {initial : Int} (h : FirstRead range index initial) (hnot : ¬ ReadsFirst range index) :
    FirstRead range (index + 1) initial where
  unset := fun hall => h.unset fun earlier hearlier => hall earlier (Nat.lt_succ_of_lt hearlier)
  set := by
    intro earlier hlt hreads hlast
    cases Nat.lt_succ_iff_lt_or_eq.mp hlt with
    | inl hearlier => exact h.set earlier hearlier hreads fun later hlater hcount => hlast later hlater (by omega)
    | inr heq => exact absurd (heq ▸ hreads) hnot

theorem FirstRead.read (hreads : ReadsFirst range index) : FirstRead range (index + 1)
    (if index = 0 then 0 else toLongLong (strtoull (range.drop (markBefore range index)))) where
  unset := fun hall => absurd hreads (hall index (Nat.lt_succ_self _))
  set := by
    intro earlier hlt hearlier hlast
    cases Nat.lt_succ_iff_lt_or_eq.mp hlt with
    | inl hbefore => exact absurd hreads (hlast index hbefore (Nat.lt_succ_self _))
    | inr heq => rw [heq]

/-- A comma directly follows a mark, before a position. -/
def CommaBefore (range : Bytes) (count : Nat) : Prop :=
  ∃ index, index < count ∧ range[index]? = some 44 ∧ index = markBefore range index

theorem commaBefore_succ :
    CommaBefore range (index + 1) ↔ CommaBefore range index ∨ range[index]? = some 44 ∧ index = markBefore range index := by
  constructor
  · intro h
    obtain ⟨earlier, hlt, hcomma⟩ := h
    cases Nat.lt_succ_iff_lt_or_eq.mp hlt with
    | inl hbefore => exact .inl ⟨earlier, hbefore, hcomma⟩
    | inr heq => exact .inr (heq ▸ hcomma)
  · intro h
    cases h with
    | inl hbefore =>
        obtain ⟨earlier, hlt, hcomma⟩ := hbefore
        exact ⟨earlier, Nat.lt_succ_of_lt hlt, hcomma⟩
    | inr hcomma => exact ⟨index, Nat.lt_succ_self index, hcomma⟩

theorem markBefore_succ {byte : UInt8} (hbyte : range[index]? = some byte) :
    markBefore range (index + 1) = if isMark byte then index + 1 else markBefore range index := by
  rw [markBefore, hbyte, Option.any_some]

/-- What is known of the state behind a number of bytes of the header. -/
structure RangeRead (range : Bytes) (size count : Nat) (s : RangeState) : Prop where
  mark : s.mark = markBefore range count
  first : FirstRead range count s.initialByte
  final : CommaBefore range count → s.finalByte = toLongLong (lastByte size)
  unset : ¬ CommaBefore range count → s.finalByte = -1

theorem RangeRead.step {s : RangeState} {byte : UInt8} (h : RangeRead range size index s)
    (hbyte : range[index]? = some byte) :
    RangeRead range size (index + 1) (rangeStep range size s (byte, index)) := by
  have hmark := markBefore_succ hbyte
  have hcomma : CommaBefore range (index + 1) ↔ _ := commaBefore_succ
  have hreads : ReadsFirst range index ↔ byte = 45 ∨ byte = 44 ∧ index ≠ markBefore range index := by
    rw [ReadsFirst, hbyte, Option.some_inj, Option.some_inj]
  rw [hbyte, Option.some_inj] at hcomma
  simp only [rangeStep]
  split
  · next heq =>
      subst heq
      refine ⟨hmark.symm, h.first.next (by simp [hreads]), fun hbefore => h.final ?_, fun hnot => h.unset ?_⟩
      · simpa using hcomma.mp hbefore
      · simpa using hnot ∘ hcomma.mpr
  · split
    · next heq =>
        subst heq
        refine ⟨hmark.symm, ?_, fun hbefore => h.final ?_, fun hnot => h.unset ?_⟩
        · rw [h.mark]
          exact FirstRead.read (hreads.mpr (.inl rfl))
        · simpa using hcomma.mp hbefore
        · simpa using hnot ∘ hcomma.mpr
    · split
      · next heq =>
          subst heq
          split
          · next hat =>
              have hself : CommaBefore range (index + 1) := hcomma.mpr (.inr ⟨rfl, hat.trans h.mark⟩)
              have hnot : ¬ ReadsFirst range index := by simpa [hreads] using hat.trans h.mark
              refine ⟨h.mark.trans hmark.symm, h.first.next hnot, fun _ => ?_, fun hnone => absurd hself hnone⟩
              simp only
          · next hat =>
              rw [h.mark] at hat
              refine ⟨h.mark.trans hmark.symm, ?_, fun hbefore => h.final ?_, fun hnot => h.unset ?_⟩
              · have hzero : index ≠ 0 := fun hzero => hat (by rw [hzero]; rfl)
                have hread := FirstRead.read (hreads.mpr (.inr ⟨rfl, hat⟩))
                rw [if_neg hzero] at hread
                rw [h.mark]
                exact hread
              · simpa [hat] using hcomma.mp hbefore
              · simpa [hat] using hnot ∘ hcomma.mpr
      · next heq hdash hother =>
          have hno : isMark byte = false := by simp [isMark, heq, hdash]
          rw [hno] at hmark
          refine ⟨h.mark.trans hmark.symm, h.first.next (by simp [hreads, hdash, hother]), fun hbefore => h.final ?_,
            fun hnot => h.unset ?_⟩
          · simpa [hother] using hcomma.mp hbefore
          · simpa [hother] using hnot ∘ hcomma.mpr

theorem rangeRead (range : Bytes) (size count : Nat) (hle : count ≤ range.length) :
    RangeRead range size count (rangeState range size count) := by
  induction count with
  | zero =>
      have hnone : ¬ CommaBefore range 0 := nofun
      exact ⟨rfl, ⟨fun _ => rfl, nofun⟩, fun hbefore => absurd hbefore hnone, fun _ => rfl⟩
  | succ index ih =>
      have hbyte : range[index]? = some range[index] := List.getElem?_eq_getElem hle
      rw [rangeState_succ hbyte]
      exact (ih (Nat.le_of_succ_le hle)).step hbyte

/-- Of a property of the positions before one, there is none or a last one. -/
theorem none_or_last (p : Nat → Prop) (count : Nat) : (∀ index, index < count → ¬ p index) ∨
    ∃ index, index < count ∧ p index ∧ ∀ later, index < later → later < count → ¬ p later := by
  induction count with
  | zero => exact .inl nofun
  | succ count ih =>
      by_cases hlast : p count
      · exact .inr ⟨count, Nat.lt_succ_self count, hlast, fun later hlater hlt => absurd hlater (by omega)⟩
      · cases ih with
        | inl hnone =>
            refine .inl fun index hlt => ?_
            cases Nat.lt_succ_iff_lt_or_eq.mp hlt with
            | inl hbefore => exact hnone index hbefore
            | inr heq => exact heq ▸ hlast
        | inr hsome =>
            obtain ⟨index, hlt, hp, hafter⟩ := hsome
            refine .inr ⟨index, Nat.lt_succ_of_lt hlt, hp, fun later hlater hcount => ?_⟩
            cases Nat.lt_succ_iff_lt_or_eq.mp hcount with
            | inl hbefore => exact hafter later hlater hbefore
            | inr heq => exact heq ▸ hlast

theorem ReadsFirst.lt (h : ReadsFirst range index) : index < range.length := by
  cases h with
  | inl hdash => exact (List.getElem?_eq_some_iff.mp hdash).1
  | inr hcomma => exact (List.getElem?_eq_some_iff.mp hcomma.1).1

/-- The first byte that is read is zero for the headers that start there, and for those alone. -/
theorem FirstRead.startsAtZero {initial : Int} (h : FirstRead range range.length initial) :
    initial.toNat = 0 ↔ StartsAtZero range := by
  cases none_or_last (ReadsFirst range) range.length with
  | inl hnone =>
      rw [h.unset hnone]
      exact ⟨fun _ index hreads => absurd hreads (hnone index hreads.lt), fun _ => rfl⟩
  | inr hsome =>
      obtain ⟨index, hlt, hreads, hlast⟩ := hsome
      rw [h.set index hlt hreads hlast]
      constructor
      · intro hzero other hother hafter
        have heq : other = index := by
          cases Nat.lt_trichotomy other index with
          | inl hbefore => exact absurd hreads (hafter index hbefore)
          | inr hrest =>
              cases hrest with
              | inl heq => exact heq
              | inr hbehind => exact absurd hother (hlast other hbehind hother.lt)
        subst heq
        split at hzero
        · next hfirst => exact .inl hfirst
        · exact .inr (Int.toNat_eq_zero.mp hzero)
      · intro hstarts
        cases hstarts index hreads fun later hlater hother => hlast later hlater hother.lt hother with
        | inl hfirst => rw [if_pos hfirst]; rfl
        | inr hvalue =>
            split
            · rfl
            · exact Int.toNat_eq_zero.mpr hvalue

theorem toLongLong_lastByte (hpos : 0 < size) (hsize : size < 2 ^ 63) :
    toLongLong (lastByte size) = ((size - 1 : Nat) : Int) := by
  have hlast : lastByte size = size - 1 := by
    rw [lastByte]
    omega
  rw [hlast, toLongLong, if_pos (by omega)]

/-- The headers that are read as all of the file. -/
theorem limits_whole (hpos : 0 < size) (hsize : size < 2 ^ 63) :
    getHttpRangeLimits range size = (0, size - 1) ↔ StartsAtZero range ∧ EndsAtEnd range size := by
  have h := rangeRead range size range.length (Nat.le_refl _)
  have hstate : range.zipIdx.foldl (rangeStep range size) {} = rangeState range size range.length := by
    rw [rangeState, List.take_length]
  rw [getHttpRangeLimits, hstate, Prod.mk.injEq]
  apply and_congr h.first.startsAtZero
  rw [h.mark, toLongLong_lastByte hpos hsize]
  by_cases hbefore : CommaBefore range range.length
  · have hset := h.final hbefore
    rw [toLongLong_lastByte hpos hsize] at hset
    obtain ⟨index, -, hcomma⟩ := hbefore
    rw [hset, if_neg (by omega)]
    exact ⟨fun _ => .inl ⟨index, hcomma⟩, fun _ => rfl⟩
  · have hnone : ¬ ∃ index, range[index]? = some 44 ∧ index = markBefore range index := by
      intro hcomma
      obtain ⟨index, hbyte, hmark⟩ := hcomma
      exact hbefore ⟨index, (List.getElem?_eq_some_iff.mp hbyte).1, hbyte, hmark⟩
    rw [h.unset hbefore, if_pos rfl, EndsAtEnd]
    split
    · next hlength => exact ⟨fun _ => .inr (.inl hlength.symm), fun _ => rfl⟩
    · next hlength =>
        constructor
        · exact fun heq => .inr (.inr heq)
        · intro hends
          cases hends with
          | inl hcomma => exact absurd hcomma hnone
          | inr hrest => exact hrest.resolve_left fun heq => hlength heq.symm

/-! ## The headers of the grammar -/

variable {first last digits rest : Bytes} {value length initial final : Nat}

theorem isSpace_digit {byte : UInt8} (h : isDigit byte = true) : isSpace byte = false := by
  simp only [isDigit, decide_eq_true_eq, UInt8.le_iff_toNat_le] at h
  simp only [isSpace, decide_eq_false_iff_not, UInt8.le_iff_toNat_le, ← UInt8.toNat_inj]
  have hlow : (48 : UInt8).toNat = 48 := rfl
  have hspace : (32 : UInt8).toNat = 32 := rfl
  have hreturn : (13 : UInt8).toNat = 13 := rfl
  omega

theorem digit_bounds {byte : UInt8} (h : isDigit byte = true) : byte ≠ 43 ∧ byte ≠ 44 ∧ byte ≠ 45 ∧ byte ≠ 61 := by
  refine ⟨?_, ?_, ?_, ?_⟩ <;> intro heq <;> subst heq <;> revert h <;> decide

theorem takeWhile_digits (h : IsNumber digits value) (hrest : rest = [] ∨ ∃ tail, rest = 45 :: tail) :
    (digits ++ rest).takeWhile isDigit = digits := by
  rw [List.takeWhile_append_of_pos h.all]
  have hnone : rest.takeWhile isDigit = [] := by
    cases hrest with
    | inl hnil => rw [hnil]; rfl
    | inr hdash =>
        obtain ⟨tail, htail⟩ := hdash
        rw [htail]
        rfl
  rw [hnone, List.append_nil]

theorem signedDigits_digits (h : IsNumber digits value) (hrest : rest = [] ∨ ∃ tail, rest = 45 :: tail) :
    signedDigits (digits ++ rest) = (false, digits) := by
  have htake := takeWhile_digits h hrest
  cases hdigits : digits with
  | nil => exact absurd hdigits h.nonempty
  | cons byte others =>
      have hdigit : isDigit byte = true := h.all byte (hdigits ▸ List.mem_cons_self)
      have hspaces : (digits ++ rest).dropWhile isSpace = digits ++ rest := by
        rw [hdigits, List.cons_append, List.dropWhile_cons_of_neg (by simp [isSpace_digit hdigit])]
      have hbounds := digit_bounds hdigit
      rw [signedDigits, ← hdigits, hspaces]
      split
      · next heq =>
          rw [hdigits, List.cons_append] at heq
          exact absurd (List.cons.inj heq).1 hbounds.2.2.1
      · next heq =>
          rw [hdigits, List.cons_append] at heq
          exact absurd (List.cons.inj heq).1 hbounds.1
      · rw [htake]

/-- A number as the handler holds it: what has no room counts as none. -/
def limitOf (value : Nat) : Nat := if value < 2 ^ 63 then value else 0

theorem limit_digits (h : IsNumber digits value) (hrest : rest = [] ∨ ∃ tail, rest = 45 :: tail) :
    (toLongLong (strtoull (digits ++ rest))).toNat = limitOf value := by
  rw [strtoull, signedDigits_digits h hrest]
  dsimp only
  rw [h.value, toLongLong, limitOf]
  split
  · rw [if_neg (by decide), if_neg (by omega)]
    rfl
  · rw [if_neg Bool.false_ne_true]
    split <;> omega

theorem limit_suffix (h : IsNumber digits value) (hlt : value < 2 ^ 63) (hpos : 0 < value) :
    (toLongLong (strtoull (45 :: digits))).toNat = 0 := by
  have htake := takeWhile_digits h (.inl rfl : ([] : Bytes) = [] ∨ _)
  rw [List.append_nil] at htake
  have hsigned : signedDigits (45 :: digits) = (true, digits) := by
    rw [signedDigits, List.dropWhile_cons_of_neg (by decide)]
    simp only [htake]
  rw [strtoull, hsigned]
  dsimp only
  rw [h.value, toLongLong]
  split
  · omega
  · rw [if_pos rfl]
    split <;> omega

theorem rangeStep_digits (range : Bytes) (size offset : Nat) (s : RangeState)
    (h : ∀ byte ∈ digits, isDigit byte = true) : (digits.zipIdx offset).foldl (rangeStep range size) s = s := by
  induction digits generalizing offset with
  | nil => rfl
  | cons byte digits ih =>
      have hbounds := digit_bounds (h byte List.mem_cons_self)
      have hstep : rangeStep range size s (byte, offset) = s := by simp [rangeStep, hbounds]
      rw [List.zipIdx_cons, List.foldl_cons, hstep]
      exact ih (offset + 1) fun other hother => h other (List.mem_cons_of_mem _ hother)

/-- The limits of a header that is written in the grammar. -/
theorem limits_spelled (hfirst : ∀ byte ∈ first, isDigit byte = true) (hlast : ∀ byte ∈ last, isDigit byte = true) :
    getHttpRangeLimits (bytes "bytes=" ++ first ++ 45 :: last) size =
      ((toLongLong (strtoull (first ++ 45 :: last))).toNat,
        if last = [] then (toLongLong (lastByte size)).toNat else (toLongLong (strtoull last)).toNat) := by
  have hdrop : (bytes "bytes=" ++ first ++ 45 :: last).drop 6 = first ++ 45 :: last := by
    rw [List.append_assoc]
    rfl
  have hbehind : (bytes "bytes=" ++ first ++ 45 :: last).drop (6 + first.length + 1) = last := by
    rw [← List.drop_drop, ← List.drop_drop, hdrop, List.drop_left]
    rfl
  have hlength : (bytes "bytes=" ++ first ++ 45 :: last).length = 6 + first.length + 1 + last.length := by
    have hunit : (bytes "bytes=").length = 6 := rfl
    rw [List.length_append, List.length_append, hunit, List.length_cons]
    omega
  have hstate : (bytes "bytes=" ++ first ++ 45 :: last).zipIdx.foldl
      (rangeStep (bytes "bytes=" ++ first ++ 45 :: last) size) {} =
        { mark := 6 + first.length + 1, initialByte := toLongLong (strtoull (first ++ 45 :: last)), finalByte := -1 } := by
    rw [List.zipIdx_append, List.zipIdx_append, List.foldl_append, List.foldl_append]
    have hunit : (bytes "bytes=").zipIdx.foldl (rangeStep (bytes "bytes=" ++ first ++ 45 :: last) size) {} =
        { mark := 6 } := rfl
    have hindex : 0 + (bytes "bytes=" ++ first).length = 6 + first.length := by
      rw [List.length_append, Nat.zero_add]
      rfl
    rw [hunit, rangeStep_digits _ _ _ _ hfirst, hindex, List.zipIdx_cons, List.foldl_cons]
    have hdash : rangeStep (bytes "bytes=" ++ first ++ 45 :: last) size { mark := 6 } (45, 6 + first.length) =
        { mark := 6 + first.length + 1, initialByte := toLongLong (strtoull (first ++ 45 :: last)), finalByte := -1 } := by
      simp only [rangeStep, hdrop]
      rw [if_neg (by decide), if_pos trivial, if_neg (by omega)]
    rw [hdash, rangeStep_digits _ _ _ _ hlast]
  rw [getHttpRangeLimits, hstate]
  simp only [if_true, hlength, hbehind]
  cases last with
  | nil => simp
  | cons byte others => simp

theorem limits_span {low high : Nat} (hfirst : IsNumber first low) (hlast : IsNumber last high) :
    getHttpRangeLimits (bytes "bytes=" ++ first ++ 45 :: last) size = (limitOf low, limitOf high) := by
  have hvalue := limit_digits hlast (.inl rfl : ([] : Bytes) = [] ∨ _)
  rw [List.append_nil] at hvalue
  rw [limits_spelled hfirst.all hlast.all, limit_digits hfirst (.inr ⟨last, rfl⟩), if_neg hlast.nonempty, hvalue]

theorem limits_onward {low : Nat} (hfirst : IsNumber first low) (hpos : 0 < size) (hsize : size < 2 ^ 63) :
    getHttpRangeLimits (bytes "bytes=" ++ first ++ 45 :: []) size = (limitOf low, size - 1) := by
  rw [limits_spelled hfirst.all (fun _ h => absurd h List.not_mem_nil), limit_digits hfirst (.inr ⟨[], rfl⟩), if_pos rfl,
    toLongLong_lastByte hpos hsize]
  rfl

/-- The number of a suffix is read as the last byte, and with its dash as the first one. -/
theorem limits_suffix (size : Nat) (hlast : IsNumber last length) :
    (getHttpRangeLimits (bytes "bytes=" ++ [] ++ 45 :: last) size).2 = limitOf length ∧
      (length < 2 ^ 63 → 0 < length → (getHttpRangeLimits (bytes "bytes=" ++ [] ++ 45 :: last) size).1 = 0) := by
  have hvalue := limit_digits hlast (.inl rfl : ([] : Bytes) = [] ∨ _)
  rw [List.append_nil] at hvalue
  rw [limits_spelled (fun _ h => absurd h List.not_mem_nil) hlast.all, if_neg hlast.nonempty, hvalue]
  exact ⟨rfl, limit_suffix hlast⟩

/-- The limits are those of a range that the header asks for, or of the whole file, for the headers that are supported. -/
theorem limits_supported (hsize : size < 2 ^ 63) (hlimits : getHttpRangeLimits range size = (initial, final)) :
    (initial ≤ final ∧ final < size ∧ ((initial, final) = (0, size - 1) ∨
      ∃ spec, Spells range spec ∧ spec.clamp size = some (initial, final))) ↔ RangeSupported range size := by
  constructor
  · intro h
    obtain ⟨hle, hinside, hinterval⟩ := h
    have hpos : 0 < size := Nat.zero_lt_of_lt hinside
    have hwhole : initial = 0 → final = size - 1 → RangeSupported range size := by
      intro hinitial hfinal
      rw [hinitial, hfinal] at hlimits
      exact ⟨hpos, .inr ((limits_whole hpos hsize).mp hlimits)⟩
    cases hinterval with
    | inl heq => exact hwhole (Prod.mk.inj heq).1 (Prod.mk.inj heq).2
    | inr hspec =>
        obtain ⟨spec, hspells, hclamp⟩ := hspec
        cases hspells with
        | span hfirst hlast horder =>
            rename_i first last low high
            have hread := (limits_span hfirst hlast).symm.trans hlimits
            rw [Prod.mk.injEq, limitOf, limitOf] at hread
            simp only [RangeSpec.clamp, Option.ite_none_right_eq_some, Option.some_inj, Prod.mk.injEq] at hclamp
            by_cases hhigh : high < size
            · exact ⟨hpos, .inl ⟨_, .span hfirst hlast horder, hhigh⟩⟩
            · have hlow : low < 2 ^ 63 := by omega
              rw [if_pos hlow] at hread
              split at hread
              · omega
              · exact hwhole (by omega) (by omega)
        | onward hfirst =>
            simp only [RangeSpec.clamp, Option.ite_none_right_eq_some] at hclamp
            exact ⟨hpos, .inl ⟨_, .onward hfirst, hclamp.1⟩⟩
        | suffix hlast =>
            rename_i last length
            obtain ⟨hfinal, hinitial⟩ := limits_suffix size hlast
            rw [hlimits, limitOf] at hfinal
            rw [hlimits] at hinitial
            simp only [RangeSpec.clamp, Option.ite_none_right_eq_some, Option.some_inj, Prod.mk.injEq] at hclamp hfinal hinitial
            split at hfinal
            · next hlt => exact hwhole (hinitial hlt hclamp.1.1) (by omega)
            · exact hwhole (by omega) (by omega)
  · intro h
    obtain ⟨hpos, hsupported⟩ := h
    cases hsupported with
    | inl hspec =>
        obtain ⟨spec, hspells, hinside⟩ := hspec
        cases hspells with
        | span hfirst hlast horder =>
            rename_i first last low high
            simp only [RangeSpec.Inside] at hinside
            have hread := hlimits.symm.trans (limits_span hfirst hlast)
            rw [limitOf, limitOf, if_pos (by omega), if_pos (by omega), Prod.mk.injEq] at hread
            refine ⟨by omega, by omega, .inr ⟨_, .span hfirst hlast horder, ?_⟩⟩
            rw [RangeSpec.clamp, if_pos (by omega), hread.1, hread.2, Nat.min_eq_left (by omega)]
        | onward hfirst =>
            rename_i first low
            simp only [RangeSpec.Inside] at hinside
            have hread := hlimits.symm.trans (limits_onward hfirst hpos hsize)
            rw [limitOf, if_pos (by omega), Prod.mk.injEq] at hread
            refine ⟨by omega, by omega, .inr ⟨_, .onward hfirst, ?_⟩⟩
            rw [RangeSpec.clamp, if_pos hinside, hread.1, hread.2]
        | suffix hlast => exact hinside.elim
    | inr hwhole =>
        have hread := hlimits.symm.trans ((limits_whole hpos hsize).mpr hwhole)
        rw [Prod.mk.injEq] at hread
        exact ⟨by omega, by omega, .inl (by rw [hread.1, hread.2])⟩

/-! ## The bytes that are sent -/

namespace FileConnection

variable {service : FileService} {request : FileRequest} {sight : Sight} {head : Bytes} {sent : Nat}
  {c : FileConnection} {e : FileExchange}

/-- A number of the bytes of an interval have been sent behind the head, and the write of the last of them is in the
queue. -/
structure Sending (request : FileRequest) (contents head : Bytes) (initial final sent : Nat) (e : FileExchange)
    (c : FileConnection) : Prop where
  exchange : c.exchange = some e
  request : e.request = request
  finalByte : e.finalByte = final
  offset : (openFileCache e).offset = initial + sent
  queue : c.writeQueue = [.sendChunk]
  buffered : c.buffered = []
  output : c.output = head ++ (contents.drop initial).take sent

theorem cleanup_empty (service : FileService) (sight : Sight) (c : FileConnection) (keepAlive : Bool) (hqueue : c.writeQueue = []) (hbuffered : c.buffered = []) :
    (c.cleanup service keepAlive sight).writeQueue = [] ∧ (c.cleanup service keepAlive sight).output = c.output := by
  cases keepAlive with
  | false => exact ⟨hqueue, rfl⟩
  | true =>
      rw [cleanup, if_pos rfl, drain]
      simp only [hbuffered]
      exact ⟨hqueue, trivial⟩

/-- What is left of the interval, in one write. -/
theorem Sending.readChunk (h : Sending request contents head initial final sent e c) (hle : initial + sent ≤ final + 1)
    (hinside : final < contents.length) (hsize : contents.length < 2 ^ 63) :
    Viriatum.readChunk (c.reading contents) e =
      if initial + sent = final + 1 then none
      else some ((contents.drop (initial + sent)).take (min (final + 1 - (initial + sent)) fileBufferSize),
        { openFileCache e with offset := initial + sent + min (final + 1 - (initial + sent)) fileBufferSize }) := by
  have hfinal : (openFileCache e).finalByte = final := by
    rw [openFileCache, ← h.finalByte]
    split <;> rfl
  have hspan : spanSize (initial + sent) final = final + 1 - (initial + sent) := by
    rw [spanSize]
    omega
  have hlength : ((contents.drop (initial + sent)).take (min (final + 1 - (initial + sent)) fileBufferSize)).length =
      min (final + 1 - (initial + sent)) fileBufferSize := by
    rw [List.length_take, List.length_drop]
    omega
  have hopens : (!e.opened && !(c.reading contents).opens) = false := by simp [reading]
  simp only [Viriatum.readChunk, hopens, Bool.false_eq_true, if_false, hfinal, h.offset, hspan]
  rw [reading, h.exchange]
  simp only [h.offset]
  split
  · next hnil =>
      rw [hnil, List.length_nil, fileBufferSize] at hlength
      rw [if_pos (by omega)]
  · next hcons =>
      have hpos := List.length_pos_iff.mpr hcons
      rw [hlength] at hpos ⊢
      rw [if_neg (by omega), Nat.mod_eq_of_lt (by omega)]

/-- All of the interval is sent, one part after another. -/
theorem Sending.writes (h : Sending request contents head initial final sent e c) (hle : initial + sent ≤ final + 1)
    (hinside : final < contents.length) (hsize : contents.length < 2 ^ 63) :
    ∃ count, (c.writes service sight contents count).writeQueue = [] ∧
      (c.writes service sight contents count).output = head ++ (contents.drop initial).take (final + 1 - initial) := by
  induction hleft : final + 1 - (initial + sent) using Nat.strong_induction_on generalizing sent e c with
  | _ left ih =>
      have hread := h.readChunk hle hinside hsize
      have hstep : c.step service (.written (c.reading contents) sight) =
          ({ c with writeQueue := [] } : FileConnection).sendChunk service (c.reading contents) sight e := by
        simp only [step, h.queue, h.exchange]
      by_cases hend : initial + sent = final + 1
      · rw [if_pos hend] at hread
        have hempty := cleanup_empty service sight { c with writeQueue := [] } e.request.keepAlive rfl h.buffered
        refine ⟨1, ?_⟩
        rw [FileConnection.writes, FileConnection.writes, hstep, sendChunk, hread]
        refine ⟨hempty.1, hempty.2.trans ?_⟩
        rw [h.output]
        congr 2
        omega
      · rw [if_neg hend] at hread
        have hpart : 0 < min (final + 1 - (initial + sent)) fileBufferSize := by
          rw [fileBufferSize]
          omega
        obtain ⟨e', he'⟩ : ∃ e' : FileExchange, e' = { openFileCache e with
          offset := initial + sent + min (final + 1 - (initial + sent)) fileBufferSize } := ⟨_, rfl⟩
        have hopened : e'.opened = true := by
          rw [he', openFileCache]
          split
          · assumption
          · rfl
        have hnext : Sending request contents head initial final
            (sent + min (final + 1 - (initial + sent)) fileBufferSize) e'
            (c.step service (.written (c.reading contents) sight)) := by
          rw [hstep, sendChunk, hread, ← he']
          refine ⟨rfl, ?_, ?_, ?_, rfl, h.buffered, ?_⟩
          · rw [he', openFileCache, ← h.request]
            split <;> rfl
          · rw [he', openFileCache, ← h.finalByte]
            split <;> rfl
          · rw [openFileCache, if_pos hopened, he', Nat.add_assoc]
          · rw [List.take_add, List.drop_drop, ← List.append_assoc, ← h.output]
            rfl
        obtain ⟨count, hcount⟩ := ih _ (by omega) hnext (by omega) rfl
        exact ⟨count + 1, hcount⟩

end FileConnection

section Instances

/-- A request for a part of a file. -/
def partRequest (range : Bytes) : FileRequest := { plainRequest 2 with range := some range }

theorem blank_fits : ([] : Bytes).length < 2 ^ 64 := by simp

/-- A file of ten bytes. -/
def tenBytes : Sight :=
  { opened := .ok ⟨10, 0, by omega⟩, described := false, listing := ⟨[], blank_fits⟩, granted := true }

theorem isNumber_two : IsNumber (bytes "2") 2 :=
  ⟨by decide, fun byte (hmem : byte ∈ [50]) => by rw [List.mem_singleton.mp hmem]; rfl, rfl⟩

theorem isNumber_five : IsNumber (bytes "5") 5 :=
  ⟨by decide, fun byte (hmem : byte ∈ [53]) => by rw [List.mem_singleton.mp hmem]; rfl, rfl⟩

end Instances

end Viriatum
