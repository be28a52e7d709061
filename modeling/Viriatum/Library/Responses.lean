import Mathlib.Data.Nat.Digits.Defs

/-!
# Responses as a client takes them apart

A client reads the head of a response line by line, and then as much of a body as the head and the request tell it to.
What is left behind the body is the next response.
-/

namespace Viriatum.Library

abbrev Octets := List UInt8

/-! ## Numerals -/

def digitOctet (digit : Nat) : UInt8 := UInt8.ofNat (if digit < 10 then 48 + digit else 87 + digit)

def digitValue (base : Nat) (octet : UInt8) : Option Nat :=
  let value :=
    if 48 ≤ octet ∧ octet ≤ 57 then some (octet.toNat - 48)
    else if 97 ≤ octet ∧ octet ≤ 102 then some (octet.toNat - 87)
    else if 65 ≤ octet ∧ octet ≤ 70 then some (octet.toNat - 55)
    else none
  value.filter (· < base)

/-- A number in a base up to sixteen. -/
def numeral (base number : Nat) : Octets :=
  if number = 0 then [48] else (Nat.digits base number).reverse.map digitOctet

def readNumeral (base : Nat) (text : Octets) : Option Nat :=
  if text = [] then none else (text.mapM (digitValue base)).map fun digits => Nat.ofDigits base digits.reverse

theorem digitValue_digitOctet {base digit : Nat} (hbase : base ≤ 16) (hdigit : digit < base) :
    digitValue base (digitOctet digit) = some digit := by
  have h : ∀ digit < 16, (if 48 ≤ digitOctet digit ∧ digitOctet digit ≤ 57 then some ((digitOctet digit).toNat - 48)
      else if 97 ≤ digitOctet digit ∧ digitOctet digit ≤ 102 then some ((digitOctet digit).toNat - 87)
      else if 65 ≤ digitOctet digit ∧ digitOctet digit ≤ 70 then some ((digitOctet digit).toNat - 55)
      else none) = some digit := by decide
  rw [digitValue, h digit (by omega)]
  simp [hdigit]

theorem digitOctet_range {digit : Nat} (h : digit < 16) : 48 ≤ digitOctet digit := by
  have hall : ∀ digit < 16, 48 ≤ digitOctet digit := by decide
  exact hall digit h

theorem mapM_digits {base : Nat} (hbase : base ≤ 16) {digits : List Nat} (h : ∀ digit ∈ digits, digit < base) :
    (digits.map digitOctet).mapM (digitValue base) = some digits := by
  induction digits with
  | nil => rfl
  | cons digit digits ih =>
      have hdigit := digitValue_digitOctet hbase (h digit (by simp))
      have hrest := ih fun digit' hmem => h digit' (by simp [hmem])
      simp [hdigit, hrest]

theorem numeral_ne_nil (base number : Nat) : numeral base number ≠ [] := by
  rw [numeral]
  by_cases hzero : number = 0
  · simp [hzero]
  · simp [hzero, Nat.digits_ne_nil_iff_ne_zero]

/-- What is written of a number is read as the number. -/
theorem readNumeral_numeral {base : Nat} (hone : 1 < base) (hbase : base ≤ 16) (number : Nat) :
    readNumeral base (numeral base number) = some number := by
  rw [readNumeral, if_neg (numeral_ne_nil base number), numeral]
  by_cases hzero : number = 0
  · have h : digitValue base 48 = some 0 := digitValue_digitOctet hbase (by omega : 0 < base)
    simp [hzero, h]
  · have h : ((Nat.digits base number).reverse.map digitOctet).mapM (digitValue base) =
        some (Nat.digits base number).reverse :=
      mapM_digits hbase fun digit hmem => Nat.digits_lt_base hone (List.mem_reverse.mp hmem)
    rw [if_neg hzero, h]
    simp [Nat.ofDigits_digits]

theorem numeral_octets {base number : Nat} (hone : 1 < base) (hbase : base ≤ 16) :
    ∀ octet ∈ numeral base number, 48 ≤ octet := by
  intro octet hmem
  rw [numeral] at hmem
  by_cases hzero : number = 0
  · simp [hzero] at hmem
    simp [hmem]
  · rw [if_neg hzero, List.mem_map] at hmem
    obtain ⟨digit, hdigit, rfl⟩ := hmem
    exact digitOctet_range ((Nat.digits_lt_base hone (List.mem_reverse.mp hdigit)).trans_le hbase)

/-! ## Lines -/

/-- A text that holds no part of the end of a line. -/
def IsText (text : Octets) : Prop := 13 ∉ text ∧ 10 ∉ text

instance (text : Octets) : Decidable (IsText text) := inferInstanceAs (Decidable (_ ∧ _))

def line (text : Octets) : Octets := text ++ [13, 10]

/-- The text of a first line, and what is behind it. -/
def readLine (data : Octets) : Option (Octets × Octets) :=
  match data.dropWhile (· ≠ 13) with
  | 13 :: 10 :: rest => if 10 ∈ data.takeWhile (· ≠ 13) then none else some (data.takeWhile (· ≠ 13), rest)
  | _ => none

theorem takeWhile_text {text : Octets} (h : IsText text) (rest : Octets) :
    (text ++ 13 :: rest).takeWhile (· ≠ 13) = text ∧ (text ++ 13 :: rest).dropWhile (· ≠ 13) = 13 :: rest := by
  have hall : ∀ octet ∈ text, decide (octet ≠ 13) = true := fun octet hmem => by
    have hne : octet ≠ 13 := fun heq => h.1 (heq ▸ hmem)
    simp [hne]
  rw [List.takeWhile_append_of_pos hall, List.dropWhile_append_of_pos hall]
  simp

theorem readLine_line {text : Octets} (h : IsText text) (rest : Octets) :
    readLine (line text ++ rest) = some (text, rest) := by
  obtain ⟨htake, hdrop⟩ := takeWhile_text h (10 :: rest)
  rw [line, List.append_assoc, List.cons_append, List.cons_append, List.nil_append, readLine, hdrop, htake]
  simp [h.2]

theorem readLine_some {data text rest : Octets} (h : readLine data = some (text, rest)) :
    IsText text ∧ data = line text ++ rest := by
  rw [readLine] at h
  split at h
  case h_1 behind hdrop =>
    have hsplit := List.takeWhile_append_dropWhile (p := (· ≠ 13)) (l := data)
    split at h
    case isTrue hmem => cases h
    case isFalse hmem =>
      simp only [Option.some.injEq, Prod.mk.injEq] at h
      obtain ⟨rfl, rfl⟩ := h
      refine ⟨⟨fun hmem13 => ?_, hmem⟩, ?_⟩
      · have := List.all_eq_true.mp List.all_takeWhile _ hmem13
        simp at this
      · rw [hdrop] at hsplit
        rw [line, List.append_assoc]
        exact hsplit.symm
  case h_2 => cases h

theorem readLine_append {data text rest : Octets} (h : readLine data = some (text, rest)) (more : Octets) :
    readLine (data ++ more) = some (text, rest ++ more) := by
  obtain ⟨htext, rfl⟩ := readLine_some h
  rw [List.append_assoc, readLine_line htext]

theorem readLine_length {data text rest : Octets} (h : readLine data = some (text, rest)) :
    rest.length < data.length := by
  obtain ⟨-, rfl⟩ := readLine_some h
  simp [line]
  omega

/-! ## Heads -/

def lowerOctet (octet : UInt8) : UInt8 := if 65 ≤ octet ∧ octet ≤ 90 then octet + 32 else octet

/-- The octets that the name of a field is made of. -/
def isToken (octet : UInt8) : Bool :=
  (48 ≤ octet ∧ octet ≤ 57) ∨ (65 ≤ octet ∧ octet ≤ 90) ∨ (94 ≤ octet ∧ octet ≤ 122) ∨ octet = 33 ∨
    (35 ≤ octet ∧ octet ≤ 39) ∨ octet = 42 ∨ octet = 43 ∨ octet = 45 ∨ octet = 46 ∨ octet = 124 ∨ octet = 126

def isBlank (octet : UInt8) : Bool := octet = 32 ∨ octet = 9

/-- A text without the blanks around it. -/
def trim (text : Octets) : Octets := ((text.dropWhile isBlank).reverse.dropWhile isBlank).reverse

/-- A field as a client sees it, its name in lower case. -/
structure Field where
  name : Octets
  value : Octets
deriving DecidableEq, Repr

def readField (text : Octets) : Option Field :=
  match text.dropWhile (· ≠ 58) with
  | [] => none
  | _ :: value =>
      let name := text.takeWhile (· ≠ 58)
      if name ≠ [] ∧ name.all isToken then some ⟨name.map lowerOctet, trim value⟩ else none

/-- The fields up to an empty line, and what is behind it; the lines are bounded. -/
def readFields : Nat → Octets → Option (List Field × Octets)
  | 0, _ => none
  | lines + 1, data => do
      let (text, rest) ← readLine data
      if text = [] then some ([], rest)
      else do
        let field ← readField text
        let (fields, rest) ← readFields lines rest
        some (field :: fields, rest)

/-- The code of a status line. -/
def readStatus (text : Octets) : Option Nat :=
  if text.take 7 = [72, 84, 84, 80, 47, 49, 46] ∧ text[8]? = some 32 ∧ text[12]? = some 32 then
    readNumeral 10 ((text.drop 9).take 3)
  else none

/-- Fields are read line by line, as long as there are enough lines to be read. -/
theorem readFields_lines {texts : List Octets} (h : ∀ text ∈ texts, IsText text ∧ text ≠ []) (rest : Octets)
    {bound : Nat} (hbound : texts.length < bound) :
    readFields bound (texts.flatMap line ++ line [] ++ rest) = (texts.mapM readField).map (·, rest) := by
  induction texts generalizing bound with
  | nil =>
      cases bound with
      | zero => cases hbound
      | succ bound =>
          have hline : readLine (line [] ++ rest) = some ([], rest) := readLine_line ⟨by simp, by simp⟩ rest
          simp [readFields, hline]
  | cons text texts ih =>
      cases bound with
      | zero => cases hbound
      | succ bound =>
          obtain ⟨htext, hne⟩ := h text (by simp)
          have hrest := ih (fun text' hmem => h text' (by simp [hmem])) (Nat.lt_of_succ_lt_succ hbound)
          rw [List.flatMap_cons, List.append_assoc, List.append_assoc, readFields, readLine_line htext]
          simp only [Option.bind_eq_bind, Option.bind_some, if_neg hne, ← List.append_assoc, hrest]
          cases hfield : readField text with
          | none => simp [hfield]
          | some field => cases hfields : texts.mapM readField <;> simp [hfield, hfields]

theorem readFields_append {bound bound' : Nat} {data rest : Octets} {fields : List Field}
    (h : readFields bound data = some (fields, rest)) (hle : bound ≤ bound') (more : Octets) :
    readFields bound' (data ++ more) = some (fields, rest ++ more) := by
  induction bound generalizing bound' data fields with
  | zero => simp [readFields] at h
  | succ bound ih =>
      cases bound' with
      | zero => cases hle
      | succ bound' =>
          rw [readFields] at h
          cases hline : readLine data with
          | none => simp [hline] at h
          | some result =>
              obtain ⟨text, behind⟩ := result
              simp only [hline, Option.bind_eq_bind, Option.bind_some] at h
              simp only [readFields, readLine_append hline, Option.bind_eq_bind, Option.bind_some]
              by_cases hempty : text = []
              · rw [if_pos hempty, Option.some.injEq, Prod.mk.injEq] at h
                rw [if_pos hempty, h.1, h.2]
              · rw [if_neg hempty] at h ⊢
                cases hfield : readField text with
                | none => simp [hfield] at h
                | some field =>
                    cases hfields : readFields bound behind with
                    | none => simp [hfield, hfields] at h
                    | some result =>
                        obtain ⟨fields', rest'⟩ := result
                        simp only [hfield, hfields, Option.bind_some, Option.some.injEq, Prod.mk.injEq] at h
                        obtain ⟨rfl, rfl⟩ := h
                        simp [ih hfields (Nat.le_of_succ_le_succ hle)]

/-! ## Bodies -/

/-- How the end of a body is found. -/
inductive Framing where
  | none
  | length (size : Nat)
  | chunked
  | unclear
deriving DecidableEq, Repr

def transferEncodingName : Octets := [116, 114, 97, 110, 115, 102, 101, 114, 45, 101, 110, 99, 111, 100, 105, 110, 103]

def contentLengthName : Octets := [99, 111, 110, 116, 101, 110, 116, 45, 108, 101, 110, 103, 116, 104]

def chunkedCoding : Octets := [99, 104, 117, 110, 107, 101, 100]

def valuesOf (name : Octets) (fields : List Field) : List Octets :=
  (fields.filter (·.name = name)).map Field.value

/-- What the fields of a response that has a body say of its end; more than one field that does leaves it unclear. -/
def framing (fields : List Field) : Framing :=
  match valuesOf transferEncodingName fields, valuesOf contentLengthName fields with
  | [], [value] => (readNumeral 10 value).elim .unclear .length
  | [value], [] => if value.map lowerOctet = chunkedCoding then .chunked else .unclear
  | _, _ => .unclear

def chunk (data : Octets) : Octets := line (numeral 16 data.length) ++ line data

def lastChunk : Octets := line (numeral 16 0) ++ line []

/-- The data of the chunks up to the last one, and what is behind it; the chunks are bounded. -/
def readChunks : Nat → Octets → Option (Octets × Octets)
  | 0, _ => none
  | chunks + 1, data => do
      let (text, rest) ← readLine data
      let size ← readNumeral 16 text
      if size = 0 then
        match rest with
        | 13 :: 10 :: rest => some ([], rest)
        | _ => none
      else
        match rest.drop size with
        | 13 :: 10 :: behind =>
            if size ≤ rest.length then do
              let (body, behind) ← readChunks chunks behind
              some (rest.take size ++ body, behind)
            else none
        | _ => none

def readBody (data : Octets) : Framing → Option (Octets × Octets)
  | .none => some ([], data)
  | .length size => if size ≤ data.length then some (data.take size, data.drop size) else none
  | .chunked => readChunks data.length data
  | .unclear => none

theorem isText_numeral {base : Nat} (hone : 1 < base) (hbase : base ≤ 16) (number : Nat) : IsText (numeral base number) := by
  have h : ∀ octet ∈ numeral base number, 48 ≤ octet := numeral_octets hone hbase
  constructor
  · intro hmem
    exact absurd (h 13 hmem) (by decide)
  · intro hmem
    exact absurd (h 10 hmem) (by decide)

/-- Chunks that are not empty are read one after another, and then what is behind them. -/
theorem readChunks_chunks {parts : List Octets} (h : ∀ part ∈ parts, part ≠ []) (rest : Octets) (bound : Nat) :
    readChunks (parts.length + bound) (parts.flatMap chunk ++ rest) =
      (readChunks bound rest).map fun (body, behind) => (parts.flatten ++ body, behind) := by
  have hsize : ∀ number, readNumeral 16 (numeral 16 number) = some number :=
    readNumeral_numeral (by decide) (by decide)
  have htext : ∀ number, IsText (numeral 16 number) := isText_numeral (by decide) (by decide)
  induction parts with
  | nil => simp
  | cons part parts ih =>
      have hpart : part.length ≠ 0 := fun hzero => h part (by simp) (List.length_eq_zero_iff.mp hzero)
      have hrest := ih fun part' hmem => h part' (by simp [hmem])
      have hcount : (part :: parts).length + bound = parts.length + bound + 1 := by
        rw [List.length_cons]
        omega
      rw [hcount, List.flatMap_cons, chunk, List.append_assoc, List.append_assoc, readChunks, readLine_line (htext _)]
      simp only [Option.bind_eq_bind, Option.bind_some, hsize, if_neg hpart]
      rw [line, List.append_assoc, List.drop_left, List.take_left]
      simp only [List.cons_append, List.nil_append, hrest]
      cases hbehind : readChunks bound rest <;> simp

attribute [local simp] readChunks

theorem readChunks_nil (bound : Nat) : readChunks bound [] = none := by
  cases bound <;> simp [readChunks, readLine]

theorem readChunks_lastChunk (bound : Nat) (rest : Octets) : readChunks (bound + 1) (lastChunk ++ rest) = some ([], rest) := by
  have hsize : readNumeral 16 (numeral 16 0) = some 0 := readNumeral_numeral (by decide) (by decide) 0
  have htext : IsText (numeral 16 0) := isText_numeral (by decide) (by decide) 0
  rw [lastChunk, List.append_assoc, readChunks, readLine_line htext]
  simp [hsize, line]

/-- A line that is no number starts no chunk. -/
theorem readChunks_none {text : Octets} (htext : IsText text) (hnumeral : readNumeral 16 text = none) (bound : Nat)
    (rest : Octets) : readChunks bound (line text ++ rest) = none := by
  cases bound with
  | zero => rfl
  | succ bound =>
      rw [readChunks, readLine_line htext]
      simp [hnumeral]

theorem readChunks_append {bound bound' : Nat} {data body rest : Octets} (h : readChunks bound data = some (body, rest))
    (hle : bound ≤ bound') (more : Octets) : readChunks bound' (data ++ more) = some (body, rest ++ more) := by
  induction bound generalizing bound' data body with
  | zero => simp [readChunks] at h
  | succ bound ih =>
      cases bound' with
      | zero => cases hle
      | succ bound' =>
          rw [readChunks] at h
          cases hline : readLine data with
          | none => simp [hline] at h
          | some result =>
              obtain ⟨text, behind⟩ := result
              simp only [hline, Option.bind_eq_bind, Option.bind_some] at h
              simp only [readChunks, readLine_append hline, Option.bind_eq_bind, Option.bind_some]
              cases hsize : readNumeral 16 text with
              | none => simp [hsize] at h
              | some size =>
                  simp only [hsize, Option.bind_some] at h ⊢
                  by_cases hzero : size = 0
                  · rw [if_pos hzero] at h ⊢
                    split at h
                    case h_1 rest' =>
                      simp only [Option.some.injEq, Prod.mk.injEq] at h
                      obtain ⟨rfl, rfl⟩ := h
                      rfl
                    case h_2 => cases h
                  · rw [if_neg hzero] at h ⊢
                    split at h
                    case h_1 rest' hdrop =>
                      split at h
                      case isTrue hfits =>
                        cases hchunks : readChunks bound rest' with
                        | none => simp [hchunks] at h
                        | some result =>
                            obtain ⟨body', behind'⟩ := result
                            simp only [hchunks, Option.bind_some, Option.some.injEq, Prod.mk.injEq] at h
                            obtain ⟨rfl, rfl⟩ := h
                            have hmore : size ≤ (behind ++ more).length := by
                              rw [List.length_append]
                              omega
                            rw [List.drop_append_of_le_length hfits, hdrop, List.take_append_of_le_length hfits]
                            simp only [List.cons_append, if_pos hmore, ih hchunks (Nat.le_of_succ_le_succ hle),
                              Option.bind_some]
                      case isFalse => cases h
                    case h_2 => cases h

theorem readBody_append {data body rest : Octets} {kind : Framing} (h : readBody data kind = some (body, rest))
    (more : Octets) : readBody (data ++ more) kind = some (body, rest ++ more) := by
  cases kind with
  | none =>
      simp only [readBody, Option.some.injEq, Prod.mk.injEq] at h ⊢
      obtain ⟨rfl, rfl⟩ := h
      exact ⟨rfl, rfl⟩
  | length size =>
      simp only [readBody] at h ⊢
      by_cases hfits : size ≤ data.length
      · rw [if_pos hfits, Option.some.injEq, Prod.mk.injEq] at h
        have hmore : size ≤ (data ++ more).length := by
          rw [List.length_append]
          omega
        rw [if_pos hmore, List.take_append_of_le_length hfits, List.drop_append_of_le_length hfits, h.1, h.2]
      · rw [if_neg hfits] at h
        cases h
  | chunked => exact readChunks_append h (by simp) more
  | unclear => cases h

/-! ## Responses -/

structure Response where
  status : Octets
  code : Nat
  fields : List Field
  body : Octets
deriving DecidableEq, Repr

/-- Reads a response to a request, which tells the codes that no body comes with; an interim response is none. -/
def readResponse (bodiless : Nat → Bool) (data : Octets) : Option (Response × Octets) := do
  let (status, rest) ← readLine data
  let code ← readStatus status
  let (fields, rest) ← readFields rest.length rest
  if code < 200 then none
  else do
    let (body, rest) ← readBody rest (if bodiless code then .none else framing fields)
    some ({ status, code, fields, body }, rest)

/-- Reads one response to each of the requests, in order. -/
def readResponses : List (Nat → Bool) → Octets → Option (List Response × Octets)
  | [], data => some ([], data)
  | bodiless :: requests, data => do
      let (response, rest) ← readResponse bodiless data
      let (responses, rest) ← readResponses requests rest
      some (response :: responses, rest)

/-- The data is one complete response to the request, and nothing behind it. -/
def Answers (bodiless : Nat → Bool) (data : Octets) : Prop := ∃ response, readResponse bodiless data = some (response, [])

/-- The data is one complete response to each of the requests, in order, and nothing behind them. -/
def AnswersAll (requests : List (Nat → Bool)) (data : Octets) : Prop :=
  ∃ responses, readResponses requests data = some (responses, [])

theorem readResponse_append {bodiless : Nat → Bool} {data rest : Octets} {response : Response}
    (h : readResponse bodiless data = some (response, rest)) (more : Octets) :
    readResponse bodiless (data ++ more) = some (response, rest ++ more) := by
  rw [readResponse] at h ⊢
  cases hline : readLine data with
  | none => simp [hline] at h
  | some result =>
      obtain ⟨status, behind⟩ := result
      simp only [hline, readLine_append hline, Option.bind_eq_bind, Option.bind_some] at h ⊢
      cases hcode : readStatus status with
      | none => simp [hcode] at h
      | some code =>
          cases hfields : readFields behind.length behind with
          | none => simp [hcode, hfields] at h
          | some result =>
              obtain ⟨fields, tail⟩ := result
              simp only [hcode, hfields, readFields_append hfields (Nat.le_add_right _ more.length), List.length_append,
                Option.bind_some] at h ⊢
              by_cases hinterim : code < 200
              · rw [if_pos hinterim] at h
                cases h
              · rw [if_neg hinterim] at h ⊢
                cases hbody : readBody tail (if bodiless code then .none else framing fields) with
                | none => simp [hbody] at h
                | some result =>
                    obtain ⟨body, left⟩ := result
                    simp only [hbody, Option.bind_some, Option.some.injEq, Prod.mk.injEq] at h
                    obtain ⟨rfl, rfl⟩ := h
                    rw [readBody_append hbody]
                    rfl

/-- Responses that have been read are read the same with more data behind. -/
theorem readResponses_append {requests : List (Nat → Bool)} {data rest : Octets} {responses : List Response}
    (h : readResponses requests data = some (responses, rest)) (more : Octets) :
    readResponses requests (data ++ more) = some (responses, rest ++ more) := by
  induction requests generalizing data responses rest with
  | nil =>
      simp only [readResponses, Option.some.injEq, Prod.mk.injEq] at h ⊢
      obtain ⟨rfl, rfl⟩ := h
      exact ⟨rfl, rfl⟩
  | cons bodiless requests ih =>
      simp only [readResponses, Option.bind_eq_bind] at h ⊢
      cases hfirst : readResponse bodiless data with
      | none => simp [hfirst] at h
      | some result =>
          obtain ⟨response, behind⟩ := result
          simp only [hfirst, readResponse_append hfirst, Option.bind_some] at h ⊢
          cases hlater : readResponses requests behind with
          | none => simp [hlater] at h
          | some result =>
              obtain ⟨responses', tail⟩ := result
              simp only [hlater, ih hlater, Option.bind_some, Option.some.injEq, Prod.mk.injEq] at h ⊢
              obtain ⟨rfl, rfl⟩ := h
              exact ⟨rfl, rfl⟩

theorem readResponses_concat (requests : List (Nat → Bool)) (bodiless : Nat → Bool) (data : Octets) :
    readResponses (requests ++ [bodiless]) data =
      (readResponses requests data).bind fun (responses, rest) =>
        (readResponse bodiless rest).map fun (response, rest) => (responses ++ [response], rest) := by
  induction requests generalizing data with
  | nil => cases h : readResponse bodiless data <;> simp [readResponses, h]
  | cons first requests ih =>
      cases h : readResponse first data with
      | none => simp [readResponses, h]
      | some result =>
          obtain ⟨response, rest⟩ := result
          cases hrest : readResponses requests rest with
          | none => simp [readResponses, h, ih, hrest]
          | some result' =>
              obtain ⟨responses, tail⟩ := result'
              cases hlast : readResponse bodiless tail <;> simp [readResponses, h, ih, hrest, hlast]

/-- Behind responses that are complete, what is to answer one more request answers it by itself. -/
theorem answersAll_concat {requests : List (Nat → Bool)} {data : Octets} (h : AnswersAll requests data)
    (bodiless : Nat → Bool) (more : Octets) :
    AnswersAll (requests ++ [bodiless]) (data ++ more) ↔ Answers bodiless more := by
  obtain ⟨responses, hresponses⟩ := h
  have hdata := readResponses_append hresponses more
  rw [List.nil_append] at hdata
  constructor
  · rintro ⟨all, hall⟩
    rw [readResponses_concat, hdata] at hall
    cases hlast : readResponse bodiless more with
    | none => simp [hlast] at hall
    | some result =>
        obtain ⟨response, rest⟩ := result
        simp only [hlast, Option.bind_some, Option.map_some, Option.some.injEq, Prod.mk.injEq] at hall
        exact ⟨response, by rw [hlast, hall.2]⟩
  · rintro ⟨response, hresponse⟩
    refine ⟨responses ++ [response], ?_⟩
    rw [readResponses_concat, hdata]
    simp [hresponse]

theorem answersAll_singleton {bodiless : Nat → Bool} {data : Octets} :
    AnswersAll [bodiless] data ↔ Answers bodiless data := by
  have hnone : AnswersAll [] [] := ⟨[], rfl⟩
  simpa using answersAll_concat hnone bodiless data

/-- A head that is written line by line: the status, the fields, and an empty line. -/
def writtenHead (status : Octets) (texts : List Octets) : Octets := line status ++ (texts.flatMap line ++ line [])

theorem length_flatMap_line (texts : List Octets) : texts.length ≤ (texts.flatMap line).length := by
  induction texts with
  | nil => simp
  | cons text texts ih =>
      rw [List.flatMap_cons, List.length_append, List.length_cons, line]
      simp only [List.length_append, List.length_cons]
      omega

/-- A head that has been written is read line by line. -/
theorem readResponse_writtenHead {status : Octets} {texts : List Octets} (hstatus : IsText status)
    (htexts : ∀ text ∈ texts, IsText text ∧ text ≠ []) (bodiless : Nat → Bool) (payload : Octets) :
    readResponse bodiless (writtenHead status texts ++ payload) =
      (readStatus status).bind fun code => (texts.mapM readField).bind fun fields =>
        if code < 200 then none
        else (readBody payload (if bodiless code then .none else framing fields)).map fun (body, rest) =>
          ({ status, code, fields, body }, rest) := by
  have hbound : texts.length < (texts.flatMap line ++ line [] ++ payload).length := by
    have := length_flatMap_line texts
    simp [line] at this ⊢
    omega
  rw [readResponse, writtenHead, List.append_assoc, readLine_line hstatus]
  simp only [Option.bind_eq_bind, Option.bind_some]
  cases hcode : readStatus status with
  | none => simp
  | some code =>
      simp only [Option.bind_some, readFields_lines htexts payload hbound]
      cases texts.mapM readField with
      | none => simp
      | some fields =>
          cases hbody : readBody payload (if bodiless code then .none else framing fields) <;> simp [hbody]

/-- The body that the framing finds is all of the payload. -/
def Fills (payload : Octets) (kind : Framing) : Prop := ∃ body, readBody payload kind = some (body, [])

/-- What is written behind a head answers the request exactly when the head is one of a response that is not interim,
and the payload is the body that it tells of. -/
theorem answers_writtenHead {status : Octets} {texts : List Octets} (hstatus : IsText status)
    (htexts : ∀ text ∈ texts, IsText text ∧ text ≠ []) (bodiless : Nat → Bool) (payload : Octets) :
    Answers bodiless (writtenHead status texts ++ payload) ↔
      ∃ code fields, readStatus status = some code ∧ texts.mapM readField = some fields ∧ 200 ≤ code ∧
        Fills payload (if bodiless code then .none else framing fields) := by
  rw [Answers, readResponse_writtenHead hstatus htexts]
  cases hcode : readStatus status with
  | none => simp
  | some code =>
      cases hfields : texts.mapM readField with
      | none => simp
      | some fields =>
          simp only [Option.bind_some, Option.some.injEq]
          by_cases hinterim : code < 200
          · rw [if_pos hinterim]
            constructor
            · rintro ⟨response, hresponse⟩
              cases hresponse
            · rintro ⟨code', fields', rfl, -, hle, -⟩
              exact absurd hinterim (Nat.not_lt.mpr hle)
          · rw [if_neg hinterim]
            constructor
            · rintro ⟨response, hresponse⟩
              cases hbody : readBody payload (if bodiless code then .none else framing fields) with
              | none => simp [hbody] at hresponse
              | some result =>
                  obtain ⟨body, rest⟩ := result
                  simp only [hbody, Option.map_some, Option.some.injEq, Prod.mk.injEq] at hresponse
                  exact ⟨code, fields, rfl, rfl, by omega, body, by rw [hbody, hresponse.2]⟩
            · rintro ⟨code', fields', rfl, rfl, -, body, hbody⟩
              exact ⟨_, by rw [hbody]; rfl⟩

theorem fills_none {payload : Octets} : Fills payload .none ↔ payload = [] := by
  simp [Fills, readBody]

theorem fills_length {payload : Octets} {size : Nat} : Fills payload (.length size) ↔ payload.length = size := by
  rw [Fills]
  simp only [readBody]
  by_cases hfits : size ≤ payload.length
  · simp only [if_pos hfits, Option.some.injEq, Prod.mk.injEq, exists_eq_left', List.drop_eq_nil_iff]
    omega
  · simp only [if_neg hfits, reduceCtorEq, exists_const, false_iff]
    omega

theorem not_fills_unclear {payload : Octets} : ¬ Fills payload .unclear := by
  rintro ⟨body, h⟩
  cases h

theorem length_flatMap_chunk (parts : List Octets) : parts.length ≤ (parts.flatMap chunk).length := by
  induction parts with
  | nil => simp
  | cons part parts ih =>
      rw [List.flatMap_cons, List.length_append, List.length_cons, chunk, line, line]
      simp only [List.length_append, List.length_cons]
      omega

/-- Chunks that are not empty fill a body exactly when what is behind them does. -/
theorem fills_chunks {parts : List Octets} (h : ∀ part ∈ parts, part ≠ []) (rest : Octets) :
    ∃ bound, rest.length ≤ bound ∧
      (Fills (parts.flatMap chunk ++ rest) .chunked ↔ ∃ body, readChunks bound rest = some (body, [])) := by
  have hparts := length_flatMap_chunk parts
  obtain ⟨bound, hbound⟩ : ∃ bound, (parts.flatMap chunk ++ rest).length = parts.length + bound :=
    ⟨(parts.flatMap chunk ++ rest).length - parts.length, by rw [List.length_append]; omega⟩
  refine ⟨bound, by rw [List.length_append] at hbound; omega, ?_⟩
  rw [Fills]
  simp only [readBody]
  rw [hbound, readChunks_chunks h]
  cases readChunks bound rest with
  | none => simp
  | some result =>
      obtain ⟨body, behind⟩ := result
      simp

/-- A payload is the body that is told of where its length is announced, or where it is chunked and nothing else is told. -/
theorem fills_framing_iff {payload : Octets} {fields : List Field} :
    Fills payload (framing fields) ↔
      (valuesOf transferEncodingName fields = [] ∧
        ∃ value, valuesOf contentLengthName fields = [value] ∧ readNumeral 10 value = some payload.length) ∨
      (valuesOf contentLengthName fields = [] ∧
        ∃ value, valuesOf transferEncodingName fields = [value] ∧ value.map lowerOctet = chunkedCoding ∧
          Fills payload .chunked) := by
  rw [framing]
  cases valuesOf transferEncodingName fields with
  | nil =>
      cases valuesOf contentLengthName fields with
      | nil => simp [not_fills_unclear]
      | cons value values =>
          cases values with
          | nil =>
              cases hvalue : readNumeral 10 value with
              | none => simp [not_fills_unclear, hvalue]
              | some size => simp [fills_length, hvalue, eq_comm]
          | cons value' values => simp [not_fills_unclear]
  | cons coding codings =>
      cases codings with
      | nil =>
          cases valuesOf contentLengthName fields with
          | nil =>
              by_cases hcoding : coding.map lowerOctet = chunkedCoding
              · simp [hcoding]
              · simp [hcoding, not_fills_unclear]
          | cons value values => simp [not_fills_unclear]
      | cons coding' codings => simp [not_fills_unclear]

end Viriatum.Library
