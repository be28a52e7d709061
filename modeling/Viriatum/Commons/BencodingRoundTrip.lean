import Mathlib.Data.Nat.Digits.Lemmas
import Viriatum.Commons.Bencoding
import Viriatum.Library.Octets

/-!
# Bencoding is taken back

What the scanner does with the text of a value, by the structure of the value: a filled one is added to the sequence
around it, and the first empty string of any other takes in the rest of the text.
-/

namespace Viriatum

open Library Http2Connection

variable {engine engine' : BencodingEngine} {handler : BencodingHandler} {stack : List BencodingFrame} {top : BencodingTop}

/-! ## Numerals -/

theorem pushDigit_digit {size digit : Nat} (hdigit : digit < 10) (h : 10 * size + digit < 2 ^ 64) :
    pushDigit size (digitOctet digit) = 10 * size + digit := by
  have hoctet : ∀ digit < 10, (digitOctet digit).toNat = 48 + digit := by decide
  rw [pushDigit, hoctet digit hdigit]
  omega

theorem numeral_digits (number : Nat) : ∃ digits : List Nat, numeral 10 number = digits.map digitOctet ∧ digits ≠ [] ∧
    (∀ digit ∈ digits, digit < 10) ∧ digits.foldl (fun value digit => 10 * value + digit) 0 = number := by
  rw [numeral]
  by_cases hzero : number = 0
  · exact ⟨[0], by simp [hzero]; decide, by simp, by simp, by simp [hzero]⟩
  · refine ⟨(Nat.digits 10 number).reverse, by rw [if_neg hzero], ?_, ?_, ?_⟩
    · exact List.reverse_ne_nil_iff.mpr (Nat.digits_ne_nil_iff_ne_zero.mpr hzero)
    · exact fun digit hmem => Nat.digits_lt_base (by decide) (List.mem_reverse.mp hmem)
    · have hdigits := Nat.ofDigits_digits 10 number
      rw [Nat.ofDigits_eq_foldr] at hdigits
      rw [List.foldl_reverse]
      simpa [add_comm] using hdigits

theorem le_foldl_digits (digits : List Nat) (value : Nat) :
    value ≤ digits.foldl (fun value digit => 10 * value + digit) value := by
  induction digits generalizing value with
  | nil => exact le_rfl
  | cons digit digits ih =>
      calc value ≤ 10 * value + digit := by omega
        _ ≤ digits.foldl (fun value digit => 10 * value + digit) (10 * value + digit) := ih _

theorem digitOctet_ne {digit : Nat} (hdigit : digit < 10) (byte : UInt8) (h : byte < 48 ∨ 57 < byte) :
    digitOctet digit ≠ byte := by
  have hall : ∀ digit < 10, 48 ≤ digitOctet digit ∧ digitOctet digit ≤ 57 := by decide
  rintro rfl
  have hdigit := hall digit hdigit
  cases h with
  | inl h => exact absurd hdigit.1 (by simpa using h)
  | inr h => exact absurd hdigit.2 (by simpa using h)

theorem takeWhile_digitOctets {digits : List Nat} (hdigits : ∀ digit ∈ digits, digit < 10) :
    (digits.map digitOctet).takeWhile (fun byte => 48 ≤ byte ∧ byte ≤ 57) = digits.map digitOctet := by
  have hall : ∀ digit < 10, 48 ≤ digitOctet digit ∧ digitOctet digit ≤ 57 := by decide
  rw [List.takeWhile_eq_self_iff]
  intro byte hmem
  obtain ⟨digit, hdigit, rfl⟩ := List.mem_map.mp hmem
  simpa using hall digit (hdigits digit hdigit)

theorem foldl_digits {digits : List Nat} (hdigits : ∀ digit ∈ digits, digit < 10) (value : Nat) :
    (digits.map digitOctet).foldl (fun value byte => 10 * value + (byte.toNat - 48 : Int)) (value : Int) =
      (digits.foldl (fun value digit => 10 * value + digit) value : Nat) := by
  have hoctet : ∀ digit < 10, (digitOctet digit).toNat = 48 + digit := by decide
  induction digits generalizing value with
  | nil => rfl
  | cons digit digits ih =>
      have hdigit := hoctet digit (hdigits digit List.mem_cons_self)
      have hnext : (10 * value + ((digitOctet digit).toNat - 48 : Int) : Int) = ((10 * value + digit : Nat) : Int) := by
        rw [hdigit]
        push_cast
        ring
      rw [List.map_cons, List.foldl_cons, List.foldl_cons, hnext]
      exact ih (fun digit hmem => hdigits digit (List.mem_cons_of_mem _ hmem)) _

/-- The digits at the start of a text. -/
def digitsNumber (text : Bytes) : Int :=
  (text.takeWhile fun byte => 48 ≤ byte ∧ byte ≤ 57).foldl (fun value byte => 10 * value + (byte.toNat - 48)) 0

theorem bmod_toNat {value : Int} (hlow : -2 ^ 31 ≤ value) (hhigh : value < 2 ^ 31) :
    ((value % 2 ^ 32).toNat : Int).bmod (2 ^ 32) = value := by
  rw [Int.toNat_of_nonneg (Int.emod_nonneg _ (by decide))]
  exact (Int.emod_bmod value (2 ^ 32)).trans (Int.bmod_eq_of_le (by omega) (by omega))

theorem atoi_minus (text : Bytes) : atoi (45 :: text) = (max (-digitsNumber text) (-2 ^ 63) % 2 ^ 32).toNat := rfl

theorem atoi_digit {byte : UInt8} (text : Bytes) (h : 48 ≤ byte ∧ byte ≤ 57) :
    atoi (byte :: text) = (min (digitsNumber (byte :: text)) (2 ^ 63 - 1) % 2 ^ 32).toNat := by
  have hblank : ∀ byte : UInt8, 48 ≤ byte ∧ byte ≤ 57 →
      decide (byte = 32 ∨ 9 ≤ byte ∧ byte ≤ 13) = false ∧ byte ≠ 45 ∧ byte ≠ 43 := forall_byte (by decide +kernel)
  obtain ⟨hspace, hminus, hplus⟩ := hblank byte h
  rw [atoi, List.dropWhile_cons_of_neg (by simp [hspace])]
  split
  next hsign =>
    split at hsign
    · next heq => exact absurd (List.cons.inj heq).1 hminus
    · next heq => exact absurd (List.cons.inj heq).1 hplus
    · cases hsign
      rfl

/-- An int in decimal is read as the int. -/
theorem atoi_decimal {value : Int} (hlow : -2 ^ 31 ≤ value) (hhigh : value < 2 ^ 31) :
    (atoi (decimal value) : Int).bmod (2 ^ 32) = value := by
  obtain ⟨digits, hdigits, hne, hall, hvalue⟩ := numeral_digits value.natAbs
  have hnumber : digitsNumber (numeral 10 value.natAbs) = value.natAbs := by
    rw [hdigits, digitsNumber, takeWhile_digitOctets hall, ← hvalue]
    exact foldl_digits hall 0
  by_cases hneg : value < 0
  · have hmax : max (-(value.natAbs : Int)) (-2 ^ 63) = value := by omega
    rw [decimal, if_pos hneg, atoi_minus, hnumber, hmax, bmod_toNat hlow hhigh]
  · obtain ⟨first, rest, rfl⟩ := List.exists_cons_of_ne_nil hne
    have hfirst : ∀ digit < 10, 48 ≤ digitOctet digit ∧ digitOctet digit ≤ 57 := by decide
    have hmin : min (value.natAbs : Int) (2 ^ 63 - 1) = value := by omega
    rw [decimal, if_neg hneg]
    rw [hdigits, List.map_cons] at hnumber ⊢
    rw [atoi_digit _ (hfirst first (hall first List.mem_cons_self)), hnumber, hmin, bmod_toNat hlow hhigh]

/-! ## What is written -/

theorem length_numeral_le_iff {number count : Nat} (hpos : 0 < count) :
    (numeral 10 number).length ≤ count ↔ number < 10 ^ count := by
  rw [numeral]
  by_cases hzero : number = 0
  · simp only [hzero, if_true, List.length_singleton]
    exact iff_of_true hpos (Nat.pow_pos (by decide))
  · rw [if_neg hzero, List.length_map, List.length_reverse]
    exact Nat.digits_length_le_iff (by decide) number

attribute [local simp] encodeStringType encodeType encodeValues encodeEntries

theorem encodeStringType_ok {value text : Bytes} : encodeStringType value = .ok text ↔
    value.length < 10 ^ 15 ∧ text = numeral 10 value.length ++ 58 :: value := by
  have hsize : (numeral 10 value.length).length + 1 > 16 ↔ ¬ value.length < 10 ^ 15 := by
    rw [← length_numeral_le_iff (by decide)]
    omega
  rw [encodeStringType]
  by_cases hshort : value.length < 10 ^ 15
  · rw [if_neg (fun h => hsize.mp h hshort), Except.ok.injEq, eq_comm]
    exact (and_iff_right hshort).symm
  · rw [if_pos (hsize.mpr hshort)]
    exact iff_of_false nofun fun h => hshort h.1

theorem encodeValues_cons {value : BencodingType} {values : List BencodingType} {text : Bytes} :
    encodeValues (value :: values) = .ok text ↔
      ∃ first, encodeType value = .ok first ∧ ∃ rest, encodeValues values = .ok rest ∧ first ++ rest = text := by
  rw [encodeValues]
  simp only [Except.bind_ok_iff, pure, Except.pure, Except.ok.injEq]

theorem encodeEntries_cons {key : Bytes} {value : BencodingType} {entries : List (Bytes × BencodingType)} {text : Bytes} :
    encodeEntries ((key, value) :: entries) = .ok text ↔
      ∃ name, encodeStringType key = .ok name ∧ ∃ first, encodeType value = .ok first ∧
        ∃ rest, encodeEntries entries = .ok rest ∧ name ++ (first ++ rest) = text := by
  rw [encodeEntries]
  simp only [Except.bind_ok_iff, pure, Except.pure, Except.ok.injEq]

theorem encodeType_list {values : List BencodingType} {text : Bytes} : encodeType (.list values) = .ok text ↔
    ∃ inner, encodeValues values = .ok inner ∧ 108 :: inner ++ [101] = text := by
  rw [encodeType]
  simp only [Except.bind_ok_iff, pure, Except.pure, Except.ok.injEq]

theorem encodeType_map {entries : List (Bytes × BencodingType)} {text : Bytes} : encodeType (.map entries) = .ok text ↔
    ∃ inner, encodeEntries entries = .ok inner ∧ 100 :: inner ++ [101] = text := by
  rw [encodeType]
  simp only [Except.bind_ok_iff, pure, Except.pure, Except.ok.injEq]

mutual
theorem length_encodeType : (type : BencodingType) → ∀ {text}, encodeType type = .ok text → text.length = type.extent
  | .integer value, text, h => by
      rw [encodeType, Except.ok.injEq] at h
      simp [← h, BencodingType.extent]
  | .string value, text, h => by
      rw [encodeType, encodeStringType_ok] at h
      simp [h.2, BencodingType.extent]
      omega
  | .list values, text, h => by
      obtain ⟨inner, hinner, rfl⟩ := encodeType_list.mp h
      simp [BencodingType.extent, length_encodeValues values hinner]
  | .map entries, text, h => by
      obtain ⟨inner, hinner, rfl⟩ := encodeType_map.mp h
      simp [BencodingType.extent, length_encodeEntries entries hinner]

theorem length_encodeValues : (values : List BencodingType) → ∀ {text}, encodeValues values = .ok text →
    text.length = extentValues values
  | [], text, h => by
      cases h
      rfl
  | value :: values, text, h => by
      obtain ⟨first, hfirst, rest, hrest, rfl⟩ := encodeValues_cons.mp h
      rw [List.length_append, length_encodeType value hfirst, length_encodeValues values hrest, extentValues]

theorem length_encodeEntries : (entries : List (Bytes × BencodingType)) → ∀ {text}, encodeEntries entries = .ok text →
    text.length = extentEntries entries
  | [], text, h => by
      cases h
      rfl
  | (key, value) :: entries, text, h => by
      obtain ⟨name, hname, first, hfirst, rest, hrest, rfl⟩ := encodeEntries_cons.mp h
      rw [(encodeStringType_ok.mp hname).2]
      simp only [List.length_append, List.length_cons, length_encodeType value hfirst,
        length_encodeEntries entries hrest, extentEntries]
      omega
end

mutual
theorem encodeType_filled : (type : BencodingType) → type.Filled → ∃ text, encodeType type = .ok text
  | .integer value, _ => ⟨_, rfl⟩
  | .string value, h => ⟨_, encodeStringType_ok.mpr ⟨h.2, rfl⟩⟩
  | .list values, h => by
      obtain ⟨inner, hinner⟩ := encodeValues_filled values h
      exact ⟨_, encodeType_list.mpr ⟨inner, hinner, rfl⟩⟩
  | .map entries, h => by
      obtain ⟨inner, hinner⟩ := encodeEntries_filled entries h
      exact ⟨_, encodeType_map.mpr ⟨inner, hinner, rfl⟩⟩

theorem encodeValues_filled : (values : List BencodingType) → FilledValues values → ∃ text, encodeValues values = .ok text
  | [], _ => ⟨_, rfl⟩
  | value :: values, h => by
      obtain ⟨first, hfirst⟩ := encodeType_filled value h.1
      obtain ⟨rest, hrest⟩ := encodeValues_filled values h.2
      exact ⟨_, encodeValues_cons.mpr ⟨first, hfirst, rest, hrest, rfl⟩⟩

theorem encodeEntries_filled : (entries : List (Bytes × BencodingType)) → FilledEntries entries →
    ∃ text, encodeEntries entries = .ok text
  | [], _ => ⟨_, rfl⟩
  | (key, value) :: entries, h => by
      obtain ⟨first, hfirst⟩ := encodeType_filled value h.2.1
      obtain ⟨rest, hrest⟩ := encodeEntries_filled entries h.2.2
      exact ⟨_, encodeEntries_cons.mpr
        ⟨_, encodeStringType_ok.mpr ⟨h.1.2, rfl⟩, first, hfirst, rest, hrest, rfl⟩⟩
end

/-! ## What the scanner does with it -/

namespace BencodingEngine

theorem run_cons (engine : BencodingEngine) (character : UInt8) (text : Bytes) :
    engine.run (character :: text) = engine.step character >>= fun engine => engine.run text := rfl

theorem run_append (engine : BencodingEngine) (text text' : Bytes) :
    engine.run (text ++ text') = engine.run text >>= fun engine => engine.run text' := List.foldlM_append

theorem run_digits {digits : List Nat} (hdigits : ∀ digit ∈ digits, digit < 10) {size : Nat}
    (h : digits.foldl (fun value digit => 10 * value + digit) size < 2 ^ 64) :
    run ⟨.stringSize size, handler⟩ (digits.map digitOctet) =
      .ok ⟨.stringSize (digits.foldl (fun value digit => 10 * value + digit) size), handler⟩ := by
  induction digits generalizing size with
  | nil => rfl
  | cons digit digits ih =>
      have hdigit := hdigits digit List.mem_cons_self
      have hsmall : 10 * size + digit < 2 ^ 64 := (le_foldl_digits digits _).trans_lt h
      have hstep : step ⟨.stringSize size, handler⟩ (digitOctet digit) = .ok ⟨.stringSize (10 * size + digit), handler⟩ := by
        simp only [step, digitOctet_ne hdigit 58 (.inr (by decide)), if_false, pushDigit_digit hdigit hsmall]
      rw [List.map_cons, run_cons, hstep]
      exact ih (fun digit hmem => hdigits digit (List.mem_cons_of_mem _ hmem)) h

theorem run_numeral {number : Nat} (h : number < 2 ^ 64) :
    run ⟨.normal, handler⟩ (numeral 10 number) = .ok ⟨.stringSize number, handler⟩ := by
  obtain ⟨digits, hdigits, hne, hall, hvalue⟩ := numeral_digits number
  obtain ⟨first, rest, rfl⟩ := List.exists_cons_of_ne_nil hne
  have hfirst := hall first List.mem_cons_self
  rw [← hvalue] at h ⊢
  have hsmall : 10 * 0 + first < 2 ^ 64 := (le_foldl_digits rest _).trans_lt h
  have hne : ∀ byte : UInt8, byte < 48 ∨ 57 < byte → digitOctet first ≠ byte := digitOctet_ne hfirst
  have hstep : step ⟨.normal, handler⟩ (digitOctet first) = .ok ⟨.stringSize (10 * 0 + first), handler⟩ := by
    simp only [step, hne 105 (.inr (by decide)), hne 108 (.inr (by decide)), hne 100 (.inr (by decide)),
      hne 101 (.inr (by decide)), hne 32 (.inl (by decide)), if_false, pushDigit_digit hfirst hsmall]
  rw [hvalue, hdigits, List.map_cons, run_cons, hstep, ← hvalue]
  exact run_digits (fun digit hmem => hall digit (List.mem_cons_of_mem _ hmem)) h

/-- A string is taken to its end when its size is at least one. -/
theorem run_string {value mark : Bytes} (hne : value ≠ []) (h : value.length < 2 ^ 64) :
    run ⟨.string value.length mark, handler⟩ value =
      handler.stringEnd (mark ++ value) >>= fun handler => .ok ⟨.normal, handler⟩ := by
  induction value generalizing mark with
  | nil => exact absurd rfl hne
  | cons byte value ih =>
      rw [run_cons]
      by_cases hlast : value = []
      · subst hlast
        cases hend : handler.stringEnd (mark ++ [byte]) <;> simp [step, hend, run] <;> rfl
      · have hpos : 0 < value.length := List.length_pos_iff.mpr hlast
        have hstep : step ⟨.string (byte :: value).length mark, handler⟩ byte =
            .ok ⟨.string value.length (mark ++ [byte]), handler⟩ := by
          rw [List.length_cons] at h ⊢
          have hsize : (value.length + 1 + (2 ^ 64 - 1)) % 2 ^ 64 = value.length := by omega
          simp only [step, if_neg (show value.length + 1 ≠ 1 by omega), hsize]
        rw [hstep]
        refine (ih hlast (by rw [List.length_cons] at h; omega)).trans ?_
        rw [List.append_assoc]
        rfl

theorem run_stringType {value text : Bytes} (hne : value ≠ []) (h : encodeStringType value = .ok text) :
    run ⟨.normal, handler⟩ text = handler.stringEnd value >>= fun handler => .ok ⟨.normal, handler⟩ := by
  obtain ⟨hsize, rfl⟩ := encodeStringType_ok.mp h
  have hsize : value.length < 2 ^ 64 := hsize.trans (by decide)
  rw [run_append, run_numeral hsize]
  exact run_string hne hsize

/-- An empty string takes in all that comes behind it. -/
theorem run_swallow {text mark : Bytes} {size : Nat} (h : text.length < size ∨ size = 0 ∧ text.length < 2 ^ 64) (hsize : size < 2 ^ 64) :
    ∃ size' mark', run ⟨.string size mark, handler⟩ text = .ok ⟨.string size' mark', handler⟩ := by
  induction text generalizing size mark with
  | nil => exact ⟨_, _, rfl⟩
  | cons byte text ih =>
      rw [List.length_cons] at h
      have hstep : step ⟨.string size mark, handler⟩ byte =
          .ok ⟨.string ((size + (2 ^ 64 - 1)) % 2 ^ 64) (mark ++ [byte]), handler⟩ := by
        simp only [step, if_neg (show size ≠ 1 by omega)]
      rw [run_cons, hstep]
      exact ih (by omega) (by omega)

theorem run_empty (handler : BencodingHandler) (rest : Bytes) {text : Bytes} (h : rest.length < 2 ^ 64)
    (htext : encodeStringType [] = .ok text) :
    ∃ size mark, run ⟨.normal, handler⟩ (text ++ rest) = .ok ⟨.string size mark, handler⟩ := by
  obtain ⟨_, rfl⟩ := encodeStringType_ok.mp htext
  exact run_swallow (.inr ⟨rfl, h⟩) (by decide)

theorem run_mark {text mark : Bytes} (h : 101 ∉ text) :
    run ⟨.integer mark, handler⟩ (text ++ [101]) =
      handler.integerEnd (mark ++ text) >>= fun handler => .ok ⟨.normal, handler⟩ := by
  induction text generalizing mark with
  | nil =>
      rw [List.append_nil]
      cases hend : handler.integerEnd mark <;> simp [run, step, hend] <;> rfl
  | cons byte text ih =>
      have hbyte : byte ≠ 101 := fun heq => h (heq ▸ List.mem_cons_self)
      have hstep : step ⟨.integer mark, handler⟩ byte = .ok ⟨.integer (mark ++ [byte]), handler⟩ := by
        simp only [step, hbyte, if_false]
      rw [List.cons_append, run_cons, hstep]
      refine (ih fun hmem => h (List.mem_cons_of_mem _ hmem)).trans ?_
      rw [List.append_assoc]
      rfl

theorem not_mem_decimal (value : Int) : 101 ∉ decimal value := by
  obtain ⟨digits, hdigits, _, hall, _⟩ := numeral_digits value.natAbs
  have hnot : 101 ∉ digits.map digitOctet := fun hmem => by
    obtain ⟨digit, hdigit, heq⟩ := List.mem_map.mp hmem
    exact digitOctet_ne (hall digit hdigit) 101 (.inr (by decide)) heq
  rw [decimal, hdigits]
  by_cases hneg : value < 0
  · rw [if_pos hneg]
    simpa using hnot
  · rwa [if_neg hneg]

theorem run_integer (value : Int) : run ⟨.normal, handler⟩ (105 :: decimal value ++ [101]) =
    handler.integerEnd (decimal value) >>= fun handler => .ok ⟨.normal, handler⟩ :=
  run_mark (not_mem_decimal value)

end BencodingEngine

/-! ## Values that come through -/

/-- A value is added to the innermost sequence: to a list, or to a map under the key that is pending. -/
inductive Adds (type : BencodingType) : BencodingHandler → BencodingHandler → Prop
  | list {values : List BencodingType} {saved : Option Bytes} {stack : List BencodingFrame} {top : BencodingTop} :
      Adds type ⟨⟨.list values, saved⟩ :: stack, top, none, false⟩ ⟨⟨.list (values ++ [type]), saved⟩ :: stack, top, none, false⟩
  | map {entries : List (Bytes × BencodingType)} {saved : Option Bytes} {stack : List BencodingFrame} {top : BencodingTop}
      {key : Bytes} :
      Adds type ⟨⟨.map entries, saved⟩ :: stack, top, some key, false⟩
        ⟨⟨.map (entries ++ [(cString key, type)]), saved⟩ :: stack, top, some key, true⟩

namespace Adds

variable {type : BencodingType} {handler' : BencodingHandler}

theorem top_eq (h : Adds type handler handler') : handler'.top = handler.top := by
  cases h <;> rfl

theorem setTop_eq (handler : BencodingHandler) (type : Option BencodingType) (htop : handler.top ≠ .unset) :
    handler.setTop type = .ok handler := by
  cases hcase : handler.top with
  | unset => exact absurd hcase htop
  | opened => simp [BencodingHandler.setTop, hcase]
  | closed first => simp [BencodingHandler.setTop, hcase]

theorem add_eq (h : Adds type handler handler') : handler.add handler.key type = .ok handler' := by
  cases h <;> rfl

theorem integerEnd {value : Int} {text : Bytes} (h : Adds (.integer value) handler handler') (htop : handler.top ≠ .unset)
    (hvalue : (atoi text : Int).bmod (2 ^ 32) = value) : handler.integerEnd text = .ok handler' := by
  have hadd := h.add_eq
  have hset := setTop_eq handler' (some (.integer value)) (h.top_eq ▸ htop)
  rw [← hvalue] at hadd hset
  cases h <;> simp only [BencodingHandler.integerEnd, hadd] <;> exact hset

theorem stringEnd {value : Bytes} (h : Adds (.string value) handler handler') (htop : handler.top ≠ .unset) :
    handler.stringEnd value = .ok handler' := by
  have hadd := h.add_eq
  have hset := setTop_eq handler' (some (.string value)) (h.top_eq ▸ htop)
  cases h <;> simp only [BencodingHandler.stringEnd, Bool.false_eq_true, if_false, hadd] <;> exact hset

/-- A list is added where it ends. -/
theorem listEnd {values : List BencodingType} (h : Adds (.list values) handler handler') :
    BencodingHandler.sequenceEnd ⟨⟨.list values, handler.key⟩ :: handler.stack, handler.top, none, false⟩ =
      .ok handler' := by
  cases h <;> rfl

theorem mapEnd {entries : List (Bytes × BencodingType)} (h : Adds (.map entries) handler handler') (key : Option Bytes)
    (nextKey : Bool) :
    BencodingHandler.sequenceEnd ⟨⟨.map entries, handler.key⟩ :: handler.stack, handler.top, key, nextKey⟩ =
      .ok handler' := by
  cases h <;> rfl

end Adds

theorem stringEnd_key {value : Bytes} (stack : List BencodingFrame) (key : Option Bytes) (htop : top ≠ .unset) :
    BencodingHandler.stringEnd ⟨stack, top, key, true⟩ value = .ok ⟨stack, top, some value, false⟩ :=
  Adds.setTop_eq _ none htop

theorem listStart_eq (htop : handler.top ≠ .unset) :
    handler.listStart = ⟨⟨.list [], handler.key⟩ :: handler.stack, handler.top, none, false⟩ := by
  cases hcase : handler.top with
  | unset => exact absurd hcase htop
  | opened => simp [BencodingHandler.listStart, BencodingHandler.sequenceStart, hcase]
  | closed first => simp [BencodingHandler.listStart, BencodingHandler.sequenceStart, hcase]

theorem dictionaryStart_eq (htop : handler.top ≠ .unset) :
    handler.dictionaryStart = ⟨⟨.map [], handler.key⟩ :: handler.stack, handler.top, none, true⟩ := by
  cases hcase : handler.top with
  | unset => exact absurd hcase htop
  | opened => simp [BencodingHandler.dictionaryStart, BencodingHandler.sequenceStart, hcase]
  | closed first => simp [BencodingHandler.dictionaryStart, BencodingHandler.sequenceStart, hcase]

namespace BencodingEngine

theorem run_list (text : Bytes) : run ⟨.normal, handler⟩ (108 :: text) = run ⟨.normal, handler.listStart⟩ text := rfl

theorem run_dictionary (text : Bytes) : run ⟨.normal, handler⟩ (100 :: text) = run ⟨.normal, handler.dictionaryStart⟩ text :=
  rfl

theorem run_end : run ⟨.normal, handler⟩ [101] = handler.sequenceEnd >>= fun handler => .ok ⟨.normal, handler⟩ := by
  cases hend : handler.sequenceEnd <;> simp [run, step, hend] <;> rfl

end BencodingEngine

mutual
/-- A value is added once its text has been gone over. -/
theorem run_type : (type : BencodingType) → type.Held → type.Filled → ∀ {text}, encodeType type = .ok text →
    ∀ {handler handler'}, Adds type handler handler' → handler.top ≠ .unset →
      BencodingEngine.run ⟨.normal, handler⟩ text = .ok ⟨.normal, handler'⟩
  | .integer value, hheld, _, text, htext, handler, handler', hadds, htop => by
      cases htext
      rw [BencodingEngine.run_integer, hadds.integerEnd htop (atoi_decimal hheld.1 hheld.2)]
      rfl
  | .string value, _, hfilled, text, htext, handler, handler', hadds, htop => by
      rw [BencodingEngine.run_stringType hfilled.1 htext, hadds.stringEnd htop]
      rfl
  | .list values, hheld, hfilled, text, htext, handler, handler', hadds, htop => by
      obtain ⟨inner, hinner, rfl⟩ := encodeType_list.mp htext
      rw [List.cons_append, BencodingEngine.run_list, listStart_eq htop, BencodingEngine.run_append,
        run_values values hheld hfilled hinner [] handler.key handler.stack htop, List.nil_append]
      refine BencodingEngine.run_end.trans ?_
      rw [hadds.listEnd]
      rfl
  | .map entries, hheld, hfilled, text, htext, handler, handler', hadds, htop => by
      obtain ⟨inner, hinner, rfl⟩ := encodeType_map.mp htext
      obtain ⟨key, hentries⟩ := run_entries entries hheld.2 hfilled hinner [] handler.key none handler.stack htop
      rw [List.cons_append, BencodingEngine.run_dictionary, dictionaryStart_eq htop, BencodingEngine.run_append, hentries,
        List.nil_append]
      refine BencodingEngine.run_end.trans ?_
      rw [hadds.mapEnd]
      rfl

theorem run_values : (values : List BencodingType) → HeldValues values → FilledValues values →
    ∀ {text}, encodeValues values = .ok text → ∀ (before : List BencodingType) (saved : Option Bytes)
      (stack : List BencodingFrame) {top : BencodingTop}, top ≠ .unset →
        BencodingEngine.run ⟨.normal, ⟨⟨.list before, saved⟩ :: stack, top, none, false⟩⟩ text =
          .ok ⟨.normal, ⟨⟨.list (before ++ values), saved⟩ :: stack, top, none, false⟩⟩
  | [], _, _, text, htext, before, saved, stack, top, _ => by
      cases htext
      rw [List.append_nil]
      rfl
  | value :: values, hheld, hfilled, text, htext, before, saved, stack, top, htop => by
      obtain ⟨first, hfirst, rest, hrest, rfl⟩ := encodeValues_cons.mp htext
      rw [BencodingEngine.run_append, run_type value hheld.1 hfilled.1 hfirst .list htop]
      have hvalues := run_values values hheld.2 hfilled.2 hrest (before ++ [value]) saved stack htop
      rw [List.append_assoc] at hvalues
      exact hvalues

theorem run_entries : (entries : List (Bytes × BencodingType)) → HeldEntries entries → FilledEntries entries →
    ∀ {text}, encodeEntries entries = .ok text → ∀ (before : List (Bytes × BencodingType)) (saved key : Option Bytes)
      (stack : List BencodingFrame) {top : BencodingTop}, top ≠ .unset → ∃ key',
        BencodingEngine.run ⟨.normal, ⟨⟨.map before, saved⟩ :: stack, top, key, true⟩⟩ text =
          .ok ⟨.normal, ⟨⟨.map (before ++ entries), saved⟩ :: stack, top, key', true⟩⟩
  | [], _, _, text, htext, before, saved, key, stack, top, _ => by
      cases htext
      rw [List.append_nil]
      exact ⟨key, rfl⟩
  | (name, value) :: entries, hheld, hfilled, text, htext, before, saved, key, stack, top, htop => by
      obtain ⟨keyText, hkeyText, first, hfirst, rest, hrest, rfl⟩ := encodeEntries_cons.mp htext
      have hadds : Adds value ⟨⟨.map before, saved⟩ :: stack, top, some name, false⟩
          ⟨⟨.map (before ++ [(cString name, value)]), saved⟩ :: stack, top, some name, true⟩ := .map
      rw [cString_of_text hheld.1] at hadds
      obtain ⟨key', hentries⟩ := run_entries entries hheld.2.2 hfilled.2.2 hrest (before ++ [(name, value)]) saved
        (some name) stack htop
      rw [List.append_assoc] at hentries
      refine ⟨key', ?_⟩
      rw [BencodingEngine.run_append, BencodingEngine.run_stringType hfilled.1.1 hkeyText, stringEnd_key _ _ htop]
      refine (BencodingEngine.run_append _ first rest).trans ?_
      rw [run_type value hheld.2.1 hfilled.2.1 hfirst hadds htop]
      exact hentries
end

/-! ## Values that do not -/

/-- The scanner has come to the end within a string, and the sequences that were open before it are as they were. -/
def Stuck (stack : List BencodingFrame) (top : BencodingTop) (result : Except Fault BencodingEngine) : Prop :=
  ∃ size mark inner key nextKey, result = .ok ⟨.string size mark, ⟨inner ++ stack, top, key, nextKey⟩⟩

theorem Stuck.outer {frame : BencodingFrame} {result : Except Fault BencodingEngine} (h : Stuck (frame :: stack) top result) :
    Stuck stack top result := by
  obtain ⟨size, mark, inner, key, nextKey, hresult⟩ := h
  exact ⟨size, mark, inner ++ [frame], key, nextKey, by rw [hresult, List.append_assoc]; rfl⟩

theorem stuck_empty (handler : BencodingHandler) {value text rest : Bytes} (htext : encodeStringType value = .ok text)
    (hnot : ¬ (value ≠ [] ∧ value.length < 10 ^ 15)) (h : (text ++ rest).length < 2 ^ 64) :
    Stuck handler.stack handler.top (BencodingEngine.run ⟨.normal, handler⟩ (text ++ rest)) := by
  have hempty : value = [] := by
    by_contra hne
    exact hnot ⟨hne, (encodeStringType_ok.mp htext).1⟩
  subst hempty
  rw [List.length_append] at h
  obtain ⟨size, mark, hrun⟩ := BencodingEngine.run_empty handler rest (by omega) htext
  exact ⟨size, mark, [], handler.key, handler.nextKey, hrun⟩

mutual
/-- The first empty string of a value takes in all that is left of the text. -/
theorem stuck_type : (type : BencodingType) → type.Held → ¬ type.Filled → ∀ {text}, encodeType type = .ok text →
    ∀ {handler handler'}, Adds type handler handler' → handler.top ≠ .unset → ∀ (rest : Bytes), (text ++ rest).length < 2 ^ 64 →
      Stuck handler.stack handler.top (BencodingEngine.run ⟨.normal, handler⟩ (text ++ rest))
  | .integer _, _, hnot, _, _, _, _, _, _, _, _ => absurd trivial hnot
  | .string value, _, hnot, text, htext, handler, handler', _, _, rest, hlength =>
      stuck_empty handler htext hnot hlength
  | .list values, hheld, hnot, text, htext, handler, handler', _, htop, rest, hlength => by
      obtain ⟨inner, hinner, rfl⟩ := encodeType_list.mp htext
      rw [List.append_assoc, List.cons_append, List.length_cons] at hlength
      rw [List.append_assoc, List.cons_append, BencodingEngine.run_list, listStart_eq htop]
      obtain ⟨_, _, hstuck⟩ := stuck_values values hheld hnot hinner [] handler.key handler.stack htop
        ([101] ++ rest) (by omega)
      exact hstuck.outer
  | .map entries, hheld, hnot, text, htext, handler, handler', _, htop, rest, hlength => by
      obtain ⟨inner, hinner, rfl⟩ := encodeType_map.mp htext
      rw [List.append_assoc, List.cons_append, List.length_cons] at hlength
      rw [List.append_assoc, List.cons_append, BencodingEngine.run_dictionary, dictionaryStart_eq htop]
      obtain ⟨_, _, hstuck⟩ := stuck_entries entries hheld.2 hnot hinner [] handler.key none handler.stack htop
        ([101] ++ rest) (by omega)
      exact hstuck.outer

theorem stuck_values : (values : List BencodingType) → HeldValues values → ¬ FilledValues values →
    ∀ {text}, encodeValues values = .ok text → ∀ (before : List BencodingType) (saved : Option Bytes)
      (stack : List BencodingFrame) {top : BencodingTop}, top ≠ .unset → ∀ (rest : Bytes), (text ++ rest).length < 2 ^ 64 →
        ∃ count < values.length, Stuck (⟨.list (before ++ values.take count), saved⟩ :: stack) top
          (BencodingEngine.run ⟨.normal, ⟨⟨.list before, saved⟩ :: stack, top, none, false⟩⟩ (text ++ rest))
  | [], _, hnot, _, _, _, _, _, _, _, _, _ => absurd trivial hnot
  | value :: values, hheld, hnot, text, htext, before, saved, stack, top, htop, rest, hlength => by
      obtain ⟨first, hfirst, others, hothers, rfl⟩ := encodeValues_cons.mp htext
      rw [List.append_assoc] at hlength ⊢
      by_cases hfilled : value.Filled
      · obtain ⟨count, hcount, hstuck⟩ := stuck_values values hheld.2 (fun hvalues => hnot ⟨hfilled, hvalues⟩) hothers
          (before ++ [value]) saved stack htop rest (by rw [List.length_append] at hlength; omega)
        refine ⟨count + 1, Nat.succ_lt_succ hcount, ?_⟩
        rw [BencodingEngine.run_append, run_type value hheld.1 hfilled hfirst .list htop]
        rw [List.append_assoc] at hstuck
        exact hstuck
      · refine ⟨0, Nat.succ_pos _, ?_⟩
        rw [List.take_zero, List.append_nil]
        exact stuck_type value hheld.1 hfilled hfirst .list htop _ hlength

theorem stuck_entries : (entries : List (Bytes × BencodingType)) → HeldEntries entries → ¬ FilledEntries entries →
    ∀ {text}, encodeEntries entries = .ok text → ∀ (before : List (Bytes × BencodingType)) (saved key : Option Bytes)
      (stack : List BencodingFrame) {top : BencodingTop}, top ≠ .unset → ∀ (rest : Bytes), (text ++ rest).length < 2 ^ 64 →
        ∃ count < entries.length, Stuck (⟨.map (before ++ entries.take count), saved⟩ :: stack) top
          (BencodingEngine.run ⟨.normal, ⟨⟨.map before, saved⟩ :: stack, top, key, true⟩⟩ (text ++ rest))
  | [], _, hnot, _, _, _, _, _, _, _, _, _, _ => absurd trivial hnot
  | (name, value) :: entries, hheld, hnot, text, htext, before, saved, key, stack, top, htop, rest, hlength => by
      obtain ⟨keyText, hkeyText, first, hfirst, others, hothers, rfl⟩ := encodeEntries_cons.mp htext
      rw [List.append_assoc, List.append_assoc] at hlength ⊢
      by_cases hname : name ≠ [] ∧ name.length < 10 ^ 15
      · have hadds : Adds value ⟨⟨.map before, saved⟩ :: stack, top, some name, false⟩
            ⟨⟨.map (before ++ [(cString name, value)]), saved⟩ :: stack, top, some name, true⟩ := .map
        rw [cString_of_text hheld.1] at hadds
        have hkey : BencodingEngine.run ⟨.normal, ⟨⟨.map before, saved⟩ :: stack, top, key, true⟩⟩
            (keyText ++ (first ++ (others ++ rest))) = BencodingEngine.run
              ⟨.normal, ⟨⟨.map before, saved⟩ :: stack, top, some name, false⟩⟩ (first ++ (others ++ rest)) := by
          rw [BencodingEngine.run_append, BencodingEngine.run_stringType hname.1 hkeyText, stringEnd_key _ _ htop]
          rfl
        have hlength' : (first ++ (others ++ rest)).length < 2 ^ 64 := by
          rw [List.length_append] at hlength
          omega
        rw [hkey]
        by_cases hfilled : value.Filled
        · obtain ⟨count, hcount, hstuck⟩ := stuck_entries entries hheld.2.2
            (fun hentries => hnot ⟨hname, hfilled, hentries⟩) hothers (before ++ [(name, value)]) saved (some name) stack
            htop rest (by rw [List.length_append] at hlength'; omega)
          refine ⟨count + 1, Nat.succ_lt_succ hcount, ?_⟩
          rw [BencodingEngine.run_append, run_type value hheld.2.1 hfilled hfirst hadds htop]
          rw [List.append_assoc] at hstuck
          exact hstuck
        · refine ⟨0, Nat.succ_pos _, ?_⟩
          rw [List.take_zero, List.append_nil]
          exact stuck_type value hheld.2.1 hfilled hfirst hadds htop _ hlength'
      · refine ⟨0, Nat.succ_pos _, ?_⟩
        rw [List.take_zero, List.append_nil]
        exact stuck_empty _ hkeyText hname hlength
end

/-! ## The whole -/

/-- Nothing but a list or a dictionary is taken for the top type. -/
theorem decode_integer (value : Int) : decodeBencoding (105 :: decimal value ++ [101]) = .error .unset := by
  rw [decodeBencoding, BencodingEngine.run_integer]
  rfl

theorem decode_string {value text : Bytes} (htext : encodeStringType value = .ok text)
    (type : BencodingType) : decodeBencoding text ≠ .ok (0, some type) := by
  intro hdecode
  rw [decodeBencoding] at hdecode
  by_cases hempty : value = []
  · subst hempty
    obtain ⟨size, mark, hrun⟩ := BencodingEngine.run_empty {} [] (by decide) htext
    rw [List.append_nil] at hrun
    rw [hrun] at hdecode
    cases hdecode
  · rw [BencodingEngine.run_stringType hempty htext] at hdecode
    cases hdecode

theorem decode_of_run {text : Bytes} {state : BencodingState} (h : BencodingEngine.run {} text = .ok ⟨state, handler⟩) :
    decodeBencoding text = .ok (0, handler.topType) := by
  rw [decodeBencoding, h]
  rfl

theorem decode_stuck {text : Bytes} {frame : BencodingFrame} (h : Stuck [frame] .opened (BencodingEngine.run {} text)) :
    decodeBencoding text = .ok (0, some frame.sequence) := by
  obtain ⟨size, mark, inner, key, nextKey, hrun⟩ := h
  rw [decode_of_run hrun, BencodingHandler.topType, List.getLast?_append]
  rfl

theorem decode_list {values : List BencodingType} {text : Bytes} (hheld : HeldValues values)
    (htext : encodeType (.list values) = .ok text) (hlength : text.length < 2 ^ 64) :
    decodeBencoding text = .ok (0, some (.list values)) ↔ FilledValues values := by
  obtain ⟨inner, hinner, rfl⟩ := encodeType_list.mp htext
  constructor
  · intro hdecode
    by_contra hnot
    obtain ⟨count, hcount, hstuck⟩ := stuck_values values hheld hnot hinner [] none [] (nofun : BencodingTop.opened ≠ .unset) [101]
      (by rw [List.cons_append, List.length_cons] at hlength; omega)
    have hpart : decodeBencoding (108 :: inner ++ [101]) = _ := decode_stuck hstuck
    rw [hpart] at hdecode
    injection hdecode with hdecode
    injection (Prod.mk.inj hdecode).2 with hlist
    injection hlist with hvalues
    have hlengths := congrArg List.length hvalues
    rw [List.nil_append, List.length_take] at hlengths
    omega
  · intro hfilled
    have hrun : BencodingEngine.run {} (108 :: inner ++ [101]) = .ok ⟨.normal, ⟨[], .closed (.list values), none, false⟩⟩ := by
      rw [List.cons_append]
      refine (BencodingEngine.run_append ⟨.normal, ⟨[⟨.list [], none⟩], .opened, none, false⟩⟩ inner [101]).trans ?_
      rw [run_values values hheld hfilled hinner [] none [] (by simp), List.nil_append]
      rfl
    exact decode_of_run hrun

theorem decode_map {entries : List (Bytes × BencodingType)} {text : Bytes} (hheld : HeldEntries entries)
    (htext : encodeType (.map entries) = .ok text) (hlength : text.length < 2 ^ 64) :
    decodeBencoding text = .ok (0, some (.map entries)) ↔ FilledEntries entries := by
  obtain ⟨inner, hinner, rfl⟩ := encodeType_map.mp htext
  constructor
  · intro hdecode
    by_contra hnot
    obtain ⟨count, hcount, hstuck⟩ := stuck_entries entries hheld hnot hinner [] none none []
      (nofun : BencodingTop.opened ≠ .unset) [101] (by rw [List.cons_append, List.length_cons] at hlength; omega)
    have hpart : decodeBencoding (100 :: inner ++ [101]) = _ := decode_stuck hstuck
    rw [hpart] at hdecode
    injection hdecode with hdecode
    injection (Prod.mk.inj hdecode).2 with hmap
    injection hmap with hentries
    have hlengths := congrArg List.length hentries
    rw [List.nil_append, List.length_take] at hlengths
    omega
  · intro hfilled
    obtain ⟨key, hentries⟩ := run_entries entries hheld hfilled hinner [] none none [] (nofun : BencodingTop.opened ≠ .unset)
    have hrun : BencodingEngine.run {} (100 :: inner ++ [101]) = .ok ⟨.normal, ⟨[], .closed (.map entries), none, true⟩⟩ := by
      rw [List.cons_append]
      refine (BencodingEngine.run_append ⟨.normal, ⟨[⟨.map [], none⟩], .opened, none, true⟩⟩ inner [101]).trans ?_
      rw [hentries, List.nil_append]
      rfl
    exact decode_of_run hrun

theorem encodeBencoding_ok {type : BencodingType} {text : Bytes} :
    encodeBencoding type = .ok text ↔ encodeType type = .ok text ∧ type.extent + 1 < 2 ^ 64 := by
  rw [encodeBencoding]
  cases htype : encodeType type with
  | error fault => exact iff_of_false nofun nofun
  | ok inner =>
      have hlength := length_encodeType type htype
      simp only [← hlength, bind, Except.bind]
      split
      case isTrue hlong =>
        exact iff_of_false nofun fun h => absurd h.2 (Nat.not_lt.mpr hlong)
      case isFalse hshort => exact (and_iff_left (Nat.not_le.mp hshort)).symm

/-- What comes through is a list or a dictionary of filled values. -/
theorem HeldType.roundTrips_iff (v : HeldType) : v.RoundTrips ↔ v.type.Sound := by
  have hdecoded : ∀ {text}, encodeBencoding v.type = .ok text →
      (decodeBencoding text = .ok (0, some v.type) ↔ v.type.Sound) := by
    intro text htext
    obtain ⟨htext, hextent⟩ := encodeBencoding_ok.mp htext
    have hlength : text.length < 2 ^ 64 := by
      rw [length_encodeType v.type htext]
      omega
    obtain ⟨type, hheld⟩ := v
    cases type with
    | integer value =>
        cases htext
        rw [decode_integer]
        exact iff_of_false nofun id
    | string value => exact iff_of_false (decode_string htext _) id
    | list values => exact (decode_list hheld htext hlength).trans (and_iff_left hextent).symm
    | map entries => exact (decode_map hheld.2 htext hlength).trans (and_iff_left hextent).symm
  constructor
  · rintro ⟨text, htext, hdecode⟩
    exact (hdecoded htext).mp hdecode
  · intro hsound
    have hfilled : v.type.Filled ∧ v.type.extent + 1 < 2 ^ 64 := by
      obtain ⟨type, hheld⟩ := v
      cases type with
      | integer value => exact hsound.elim
      | string value => exact hsound.elim
      | list values => exact hsound
      | map entries => exact hsound
    obtain ⟨text, htext⟩ := encodeType_filled v.type hfilled.1
    have htext := encodeBencoding_ok.mpr ⟨htext, hfilled.2⟩
    exact ⟨text, htext, (hdecoded htext).mpr hsound⟩

/-- A value comes through when it is a list or a dictionary in which no string is empty or too long to be written, and
nothing is handled but the encodings of these. -/
theorem bencoding_inverse (v : HeldType) (text : Bytes) : (v.RoundTrips ↔ v.type.Sound) ∧
    (Handles text ↔ ∃ v : HeldType, v.type.Sound ∧ encodeBencoding v.type = .ok text) := by
  refine ⟨v.roundTrips_iff, ?_, ?_⟩
  · rintro ⟨error, type, hdecode, hhandled⟩
    have herror : error = 0 := by
      rw [decodeBencoding] at hdecode
      obtain ⟨engine, _, hengine⟩ := Except.bind_ok_iff.mp hdecode
      cases hengine
      rfl
    subst herror
    obtain ⟨v, rfl, htext⟩ := hhandled.resolve_left fun h => h rfl
    exact ⟨v, v.roundTrips_iff.mp ⟨text, htext, hdecode⟩, htext⟩
  · rintro ⟨v, hsound, htext⟩
    obtain ⟨text', htext', hdecode⟩ := v.roundTrips_iff.mpr hsound
    cases htext.symm.trans htext'
    exact ⟨0, _, hdecode, .inr ⟨v, rfl, htext⟩⟩

/-- The end of a list that has not been opened is not handled. -/
theorem not_bencoding_inverse : ¬ ((∀ v : HeldType, v.RoundTrips) ∧ ∀ text, Handles text) := by
  rintro ⟨_, h⟩
  obtain ⟨error, type, hdecode, _⟩ := h [101]
  cases hdecode

end Viriatum
