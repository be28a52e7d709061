import Mathlib.Data.Nat.Digits.Lemmas
import Viriatum.Commons.Buffer
import Viriatum.Http.HpackTable
import Viriatum.Library.Responses

/-!
# Writing of responses

The operations that a handler writes a response with under HTTP/1.1. The head is built in a buffer of a given size: a
field that the buffer has no room for is left out.
-/

namespace Viriatum

open Library

inductive HttpVersion where
  | http09
  | http10
  | http11
deriving DecidableEq, Repr

def httpVersionCode : HttpVersion → Bytes
  | .http09 => bytes "HTTP/0.9"
  | .http10 => bytes "HTTP/1.0"
  | .http11 => bytes "HTTP/1.1"

def keepAliveCode (keepAlive : Bool) : Bytes := if keepAlive then bytes "keep-alive" else bytes "close"

def maxHeaderSize : Nat := 1024

def httpSize : Nat := 4096

def httpMaxSize : Nat := httpSize + 16 * maxHeaderSize + 4096 + 2 + 2

/-- The description of the service, a string in a buffer of the service. -/
structure Description where
  text : Bytes
  isText : IsText text
  fits : text.length < 1024

def httpStatusCodes : List (List Bytes) :=
  [[bytes "Continue", bytes "Switching Protocols", bytes "Processing"],
    [bytes "OK", bytes "Created", bytes "Accepted", bytes "Non-Authoritative Information (since HTTP/1.1)",
      bytes "No Content", bytes "Reset Content", bytes "Partial Content", bytes "Multi-Status", bytes "Already Reported",
      bytes "IM Used"],
    [bytes "Multiple Choices", bytes "Moved Permanently", bytes "Found", bytes "See Other", bytes "Not Modified",
      bytes "Use Proxy", bytes "Switch Proxy", bytes "Temporary Redirect", bytes "Permanent Redirect"],
    -- two of the messages are one string in the table
    [bytes "Bad Request", bytes "Unauthorized", bytes "Payment Required", bytes "Forbidden", bytes "Not Found",
      bytes "Method Not Allowed", bytes "Not Acceptable", bytes "Proxy Authentication Required", bytes "Request Timeout",
      bytes "Conflict", bytes "Gone", bytes "Length RequiredPrecondition Failed", bytes "Request Entity Too Large",
      bytes "Request-URI Too Long", bytes "Unsupported Media Type", bytes "Requested Range Not Satisfiable",
      bytes "Expectation Failed", bytes "I'm a teapot"],
    [bytes "Internal Server Error", bytes "Not Implemented", bytes "Bad Gateway", bytes "Service Unavailable",
      bytes "Gateway Timeout", bytes "HTTP Version Not Supported", bytes "Variant Also Negotiates",
      bytes "Insufficient Storage", bytes "Loop Detected", bytes "Bandwidth Limit Exceeded", bytes "Not Extended",
      bytes "Network Authentication Required"]]

def statusLine (version : HttpVersion) (statusCode : Nat) (statusMessage : Bytes) : Bytes :=
  httpVersionCode version ++ 32 :: numeral 10 statusCode ++ 32 :: statusMessage

def fieldLine (name value : Bytes) : Bytes := name ++ 58 :: 32 :: value

def connectionLine (keepAlive : Bool) : Bytes := fieldLine (bytes "Connection") (keepAliveCode keepAlive)

def serverLine (description : Description) : Bytes := fieldLine (bytes "Server") description.text

def writeStatusHttp (description : Description) (version : HttpVersion) (statusCode : Nat) (statusMessage : Bytes)
    (keepAlive : Bool) : Bytes :=
  line (statusLine version statusCode statusMessage) ++ line (connectionLine keepAlive) ++ line (serverLine description)

def writeFieldHttp (size : Nat) (buffer name value : Bytes) : Bytes :=
  if buffer.length + (name.length + value.length + 5) > size then buffer else buffer ++ line (fieldLine name value)

/-- Writes a line of a name and a value as a field. -/
def writeLineHttp (size : Nat) (buffer text : Bytes) : Bytes :=
  match text.dropWhile (· ≠ 58) with
  | [] => buffer
  | _ :: value =>
      let name := text.takeWhile (· ≠ 58)
      if name.length ≥ maxHeaderSize then buffer else writeFieldHttp size buffer name (value.dropWhile (· = 32))

def writeEndHttp (size : Nat) (buffer : Bytes) : Bytes :=
  if buffer.length + 3 > size then buffer else buffer ++ line []

/-! ## Requests -/

def httpHead : Nat := 3

def httpConnect : Nat := 6

/-- Whether no body comes with a response to a request, by the method of the request and the code of the response. -/
def bodiless (method code : Nat) : Bool :=
  method = httpHead ∨ code = 204 ∨ code = 304 ∨ method = httpConnect ∧ 200 ≤ code ∧ code < 300

/-! ## The head in the buffer -/

/-- The lines that the buffer holds behind a status line. -/
def Carries (buffer status : Bytes) (texts : List Bytes) : Prop := buffer = line status ++ texts.flatMap line

theorem carries_writeStatusHttp (description : Description) (version : HttpVersion) (statusCode : Nat)
    (statusMessage : Bytes) (keepAlive : Bool) :
    Carries (writeStatusHttp description version statusCode statusMessage keepAlive)
      (statusLine version statusCode statusMessage) [connectionLine keepAlive, serverLine description] := by
  simp [Carries, writeStatusHttp]

theorem Carries.writeField {size : Nat} {buffer status name value : Bytes} {texts : List Bytes}
    (h : Carries buffer status texts) (hfits : buffer.length + (name.length + value.length + 5) ≤ size) :
    Carries (writeFieldHttp size buffer name value) status (texts ++ [fieldLine name value]) := by
  rw [writeFieldHttp, if_neg (by omega)]
  simp [Carries] at h ⊢
  simp [h]

theorem Carries.writeEnd {size : Nat} {buffer status : Bytes} {texts : List Bytes} (h : Carries buffer status texts)
    (hfits : buffer.length + 3 ≤ size) : writeEndHttp size buffer = writtenHead status texts := by
  rw [writeEndHttp, if_neg (by omega), writtenHead, ← List.append_assoc, ← h]

/-- The text of the field that a line is written as. -/
def lineField (text : Bytes) : Option Bytes :=
  match text.dropWhile (· ≠ 58) with
  | [] => none
  | _ :: value =>
      if (text.takeWhile (· ≠ 58)).length ≥ maxHeaderSize then none
      else some (fieldLine (text.takeWhile (· ≠ 58)) (value.dropWhile (· = 32)))

theorem length_fieldLine (name value : Bytes) : (fieldLine name value).length = name.length + value.length + 2 := by
  simp [fieldLine]
  omega

theorem length_line (text : Bytes) : (line text).length = text.length + 2 := by simp [line]

theorem Carries.writeLine {size : Nat} {buffer status text : Bytes} {texts : List Bytes} (h : Carries buffer status texts)
    (hfits : buffer.length + text.length + 5 ≤ size) :
    Carries (writeLineHttp size buffer text) status (texts ++ (lineField text).toList) ∧
      (writeLineHttp size buffer text).length ≤ buffer.length + text.length + 4 := by
  have hsplit := congrArg List.length (List.takeWhile_append_dropWhile (p := (· ≠ 58)) (l := text))
  rw [List.length_append] at hsplit
  rw [writeLineHttp, lineField]
  cases hvalue : text.dropWhile (· ≠ 58) with
  | nil => exact ⟨by simpa using h, by simp only; omega⟩
  | cons colon value =>
      rw [hvalue, List.length_cons] at hsplit
      by_cases hname : (text.takeWhile (· ≠ 58)).length ≥ maxHeaderSize
      · simp only [if_pos hname, Option.toList_none, List.append_nil]
        exact ⟨h, by omega⟩
      · have hblank : (value.dropWhile (· = 32)).length ≤ value.length := (List.dropWhile_sublist _).length_le
        have hroom : buffer.length + ((text.takeWhile (· ≠ 58)).length + (value.dropWhile (· = 32)).length + 5) ≤ size := by
          omega
        simp only [if_neg hname, Option.toList_some]
        refine ⟨h.writeField hroom, ?_⟩
        rw [writeFieldHttp, if_neg (by omega), List.length_append, length_line, length_fieldLine]
        omega

/-- Lines are written one behind the other, where there is room for them. -/
theorem Carries.writeLines {size : Nat} {status : Bytes} {lines : List Bytes} :
    ∀ {buffer : Bytes} {texts : List Bytes}, Carries buffer status texts →
      buffer.length + (lines.map (·.length + 4)).sum + 3 ≤ size →
      Carries (lines.foldl (writeLineHttp size) buffer) status (texts ++ lines.filterMap lineField) ∧
        (lines.foldl (writeLineHttp size) buffer).length + 3 ≤ size := by
  induction lines with
  | nil =>
      intro buffer texts h hfits
      simp only [List.map_nil, List.sum_nil] at hfits
      exact ⟨by simpa using h, by simpa using hfits⟩
  | cons text lines ih =>
      intro buffer texts h hfits
      simp only [List.map_cons, List.sum_cons] at hfits
      have hfirst : buffer.length + text.length + 5 ≤ size := by omega
      obtain ⟨hholds, hlength⟩ := h.writeLine hfirst
      obtain ⟨hall, hroom⟩ := ih hholds (by omega)
      refine ⟨?_, hroom⟩
      rw [List.foldl_cons]
      cases hfield : lineField text with
      | none => simpa [hfield] using hall
      | some field => simpa [hfield] using hall

theorem sum_lengths (lines : List Bytes) (more : Nat) :
    (lines.map (·.length + (2 + more))).sum = (lines.map (·.length + 2)).sum + lines.length * more := by
  induction lines with
  | nil => simp
  | cons text lines ih =>
      simp only [List.map_cons, List.sum_cons, ih, List.length_cons, Nat.add_mul]
      omega

/-! ## What a client reads of it -/

theorem isText_append {text text' : Bytes} : IsText (text ++ text') ↔ IsText text ∧ IsText text' := by
  simp only [IsText, List.mem_append, not_or]
  tauto

theorem isText_cons {octet : UInt8} {text : Bytes} :
    IsText (octet :: text) ↔ (octet ≠ 13 ∧ octet ≠ 10) ∧ IsText text := by
  simp only [IsText, List.mem_cons, not_or]
  constructor
  · rintro ⟨⟨h13, h13'⟩, h10, h10'⟩
    exact ⟨⟨Ne.symm h13, Ne.symm h10⟩, h13', h10'⟩
  · rintro ⟨⟨h13, h10⟩, h13', h10'⟩
    exact ⟨⟨Ne.symm h13, h13'⟩, Ne.symm h10, h10'⟩

theorem isText_numeral_ten (number : Nat) : IsText (numeral 10 number) := isText_numeral (by decide) (by decide) number

theorem isText_statusLine (version : HttpVersion) (statusCode : Nat) {statusMessage : Bytes} (h : IsText statusMessage) :
    IsText (statusLine version statusCode statusMessage) := by
  have hversion : IsText (httpVersionCode version) := by cases version <;> decide
  have hcode := isText_numeral_ten statusCode
  simp [statusLine, isText_append, isText_cons, hversion, hcode, h]

theorem isText_fieldLine {name value : Bytes} (hname : IsText name) (hvalue : IsText value) :
    IsText (fieldLine name value) := by
  simp [fieldLine, isText_append, isText_cons, hname, hvalue]

theorem fieldLine_ne_nil (name value : Bytes) : fieldLine name value ≠ [] := by simp [fieldLine]

/-- A field of a name without a colon is read as the name and the value. -/
theorem readField_fieldLine {name value : Bytes} (hname : name ≠ []) (htoken : name.all isToken) (hcolon : 58 ∉ name) :
    readField (fieldLine name value) = some ⟨name.map lowerOctet, trim (32 :: value)⟩ := by
  have hall : ∀ octet ∈ name, decide (octet ≠ 58) = true := fun octet hmem => by
    have hne : octet ≠ 58 := fun heq => hcolon (heq ▸ hmem)
    simp [hne]
  rw [readField, fieldLine, List.takeWhile_append_of_pos hall, List.dropWhile_append_of_pos hall]
  simp [hname, htoken]

/-- A line that is written as a field has a name before its first colon. -/
theorem lineField_some {text text' : Bytes} (h : lineField text = some text') :
    ∃ name value, 58 ∉ name ∧ text = name ++ 58 :: value ∧ text' = fieldLine name (value.dropWhile (· = 32)) := by
  rw [lineField] at h
  rcases split_byte 58 text with ⟨hnone, -⟩ | ⟨rest, hrest, hsplit⟩
  · rw [hnone] at h
    cases h
  · rw [hrest] at h
    split at h
    case h_1 hnil => cases hnil
    case h_2 colon value hcons =>
      cases hcons
      split at h
      case isTrue => cases h
      case isFalse =>
        rw [Option.some.injEq] at h
        exact ⟨_, _, not_mem_takeWhile_byte 58 text, hsplit, h.symm⟩

/-- A field is named by what stands before the first colon. -/
theorem readField_name {name value : Bytes} {field : Field} (hcolon : 58 ∉ name)
    (h : readField (fieldLine name value) = some field) : field.name = name.map lowerOctet := by
  have hall : ∀ octet ∈ name, decide (octet ≠ 58) = true := fun octet hmem => by
    have hne : octet ≠ 58 := fun heq => hcolon (heq ▸ hmem)
    simp [hne]
  rw [readField, fieldLine, List.takeWhile_append_of_pos hall, List.dropWhile_append_of_pos hall] at h
  simp only [ne_eq, not_true_eq_false, decide_false, Bool.false_eq_true, not_false_eq_true,
    List.dropWhile_cons_of_neg, List.takeWhile_cons_of_neg, List.append_nil] at h
  split at h
  case isTrue =>
    cases h
    rfl
  case isFalse => cases h

/-- The fields that the lines of an application make for a client. -/
def applicationFields (lines : List Bytes) : Option (List Field) := (lines.filterMap lineField).mapM readField

theorem isText_sublist {text text' : Bytes} (h : IsText text) (hsub : text'.Sublist text) : IsText text' :=
  ⟨fun hmem => h.1 (hsub.subset hmem), fun hmem => h.2 (hsub.subset hmem)⟩

/-- The fields that lines are written as are texts, if the lines are. -/
theorem isText_lineFields {lines : List Bytes} (h : ∀ line ∈ lines, IsText line) {text : Bytes}
    (hmem : text ∈ lines.filterMap lineField) : IsText text ∧ text ≠ [] := by
  rw [List.mem_filterMap] at hmem
  obtain ⟨header, hheader, htext⟩ := hmem
  obtain ⟨name, value, -, rfl, rfl⟩ := lineField_some htext
  have hline := h _ hheader
  rw [isText_append, isText_cons] at hline
  exact ⟨isText_fieldLine hline.1 (isText_sublist hline.2.2 (List.dropWhile_sublist _)), fieldLine_ne_nil _ _⟩

theorem lineField_fieldLine {name : Bytes} (value : Bytes) (hcolon : 58 ∉ name) (hshort : name.length < maxHeaderSize) :
    lineField (fieldLine name value) = some (fieldLine name (value.dropWhile (· = 32))) := by
  have hall : ∀ octet ∈ name, decide (octet ≠ 58) = true := fun octet hmem => by
    have hne : octet ≠ 58 := fun heq => hcolon (heq ▸ hmem)
    simp [hne]
  rw [lineField, fieldLine, List.takeWhile_append_of_pos hall, List.dropWhile_append_of_pos hall]
  simp [hshort]

/-- A line of an application is one of the fields of a client. -/
theorem exists_applicationField {lines : List Bytes} {fields : List Field} (h : applicationFields lines = some fields)
    {name value : Bytes} (hmem : fieldLine name value ∈ lines) (hcolon : 58 ∉ name)
    (hshort : name.length < maxHeaderSize) : ∃ field ∈ fields, field.name = name.map lowerOctet := by
  have hline := lineField_fieldLine value hcolon hshort
  obtain ⟨before, after, rfl⟩ := List.append_of_mem hmem
  rw [applicationFields, List.filterMap_append, List.filterMap_cons, hline, List.mapM_append] at h
  cases hbefore : (before.filterMap lineField).mapM readField with
  | none => simp [hbefore] at h
  | some fields' =>
      cases hfield : readField (fieldLine name (value.dropWhile (· = 32))) with
      | none => simp [hbefore, hfield] at h
      | some field =>
          cases hafter : (after.filterMap lineField).mapM readField with
          | none => simp [hbefore, hfield, hafter] at h
          | some fields'' =>
              simp only [hbefore, hfield, hafter, List.mapM_cons, Option.bind_eq_bind, Option.bind_some, Option.pure_def,
                Option.some.injEq] at h
              exact ⟨field, by simp [← h], readField_name hcolon hfield⟩

theorem valuesOf_ne_nil {name : Bytes} {fields : List Field} {field : Field} (hmem : field ∈ fields)
    (hname : field.name = name) : valuesOf name fields ≠ [] := by
  intro hnil
  rw [valuesOf, List.map_eq_nil_iff, List.filter_eq_nil_iff] at hnil
  exact hnil field hmem (decide_eq_true hname)

theorem numeral_three {code : Nat} (h : 100 ≤ code) (h' : code < 1000) : ∃ a b c, numeral 10 code = [a, b, c] := by
  have hdigits : Nat.digits 10 code = [code % 10, code / 10 % 10, code / 10 / 10 % 10] := by
    rw [Nat.digits_def' (by decide) (by omega), Nat.digits_def' (by decide) (by omega),
      Nat.digits_def' (by decide) (by omega), show code / 10 / 10 / 10 = 0 by omega, Nat.digits_zero]
  exact ⟨_, _, _, by rw [numeral, if_neg (by omega), hdigits]; rfl⟩

theorem length_numeral_le (number : Nat) : (numeral 10 number).length ≤ number + 1 := by
  rw [numeral]
  by_cases hzero : number = 0
  · simp [hzero]
  · rw [if_neg hzero, List.length_map, List.length_reverse]
    have hdigits := (Nat.digits_length_le_iff (b := 10) (by decide) number).mpr (Nat.lt_pow_self (n := number) (by decide))
    omega

/-- The code of a status line is read back. -/
theorem readStatus_statusLine {version : HttpVersion} (hversion : version ≠ .http09) {code : Nat} (h : 100 ≤ code)
    (h' : code < 1000) (message : Bytes) : readStatus (statusLine version code message) = some code := by
  have hread : readNumeral 10 (numeral 10 code) = some code := readNumeral_numeral (by decide) (by decide) code
  obtain ⟨a, b, c, hcode⟩ := numeral_three h h'
  rw [statusLine, hcode]
  rw [hcode] at hread
  cases version with
  | http09 => exact absurd rfl hversion
  | http10 => simpa [readStatus, httpVersionCode, bytes] using hread
  | http11 => simpa [readStatus, httpVersionCode, bytes] using hread

/-- A status line tells its message. -/
theorem statusLine_inj {version : HttpVersion} {code : Nat} {message message' : Bytes} :
    statusLine version code message = statusLine version code message' ↔ message = message' := by
  simp [statusLine]

theorem valuesOf_append (name : Bytes) (fields fields' : List Field) :
    valuesOf name (fields ++ fields') = valuesOf name fields ++ valuesOf name fields' := by
  simp [valuesOf]

/-! ## The fields that every response carries -/

theorem readField_connection (keepAlive : Bool) :
    ∃ value, readField (connectionLine keepAlive) = some ⟨bytes "connection", value⟩ := by
  rw [connectionLine, readField_fieldLine (by simp [bytes]) (by decide) (by simp [bytes])]
  exact ⟨_, rfl⟩

theorem readField_server (description : Description) :
    ∃ value, readField (serverLine description) = some ⟨bytes "server", value⟩ := by
  rw [serverLine, readField_fieldLine (by simp [bytes]) (by decide) (by simp [bytes])]
  exact ⟨_, rfl⟩

theorem dropWhile_blank {text : Bytes} (h : ∀ octet ∈ text, 48 ≤ octet) : text.dropWhile isBlank = text := by
  cases text with
  | nil => rfl
  | cons octet text =>
      have hlow := h octet (by simp)
      have hblank : isBlank octet = false := by
        rw [isBlank, decide_eq_false_iff_not, not_or]
        constructor
        · rintro rfl
          exact absurd hlow (by decide)
        · rintro rfl
          exact absurd hlow (by decide)
      rw [List.dropWhile_cons_of_neg (by simp [hblank])]

theorem dropWhile_numeral (number : Nat) : (numeral 10 number).dropWhile (· = 32) = numeral 10 number := by
  have hoctets : ∀ octet ∈ numeral 10 number, 48 ≤ octet := numeral_octets (by decide) (by decide)
  cases hdigits : numeral 10 number with
  | nil => rfl
  | cons octet digits =>
      have hlow : 48 ≤ octet := hoctets octet (by simp [hdigits])
      have hspace : octet ≠ 32 := fun heq => absurd (heq ▸ hlow) (by decide)
      simp [hspace]

/-- The length that the server announces is read as the number. -/
theorem readField_contentLength (number : Nat) :
    readField (fieldLine (bytes "Content-Length") (numeral 10 number)) = some ⟨contentLengthName, numeral 10 number⟩ := by
  have hoctets : ∀ octet ∈ numeral 10 number, 48 ≤ octet := numeral_octets (by decide) (by decide)
  have hfront := dropWhile_blank hoctets
  have hback : (numeral 10 number).reverse.dropWhile isBlank = (numeral 10 number).reverse := dropWhile_blank fun octet hmem =>
    hoctets octet (List.mem_reverse.mp hmem)
  have htrim : trim (32 :: numeral 10 number) = numeral 10 number := by
    have hspace : (32 :: numeral 10 number).dropWhile isBlank = (numeral 10 number).dropWhile isBlank := rfl
    rw [trim, hspace, hfront, hback, List.reverse_reverse]
  rw [readField_fieldLine (by simp [bytes]) (by decide) (by simp [bytes]), htrim]
  rfl

theorem readField_chunked :
    readField (fieldLine (bytes "Transfer-Encoding") (bytes "chunked")) = some ⟨transferEncodingName, chunkedCoding⟩ := by
  rw [readField_fieldLine (by simp [bytes]) (by decide) (by simp [bytes])]
  rfl

/-- The messages of the table are texts of a bounded length. -/
theorem httpStatusCodes_text : ∀ messages ∈ httpStatusCodes, ∀ message ∈ messages, IsText message ∧ message.length < 64 := by
  have hall : ∀ messages ∈ httpStatusCodes, ∀ message ∈ messages, (13 ∉ message ∧ 10 ∉ message) ∧ message.length < 64 := by
    decide +kernel
  exact hall

theorem length_statusLine {version : HttpVersion} {code : Nat} (h : 100 ≤ code) (h' : code < 1000) (message : Bytes) :
    (statusLine version code message).length = message.length + 13 := by
  have hversion : (httpVersionCode version).length = 8 := by cases version <;> decide
  obtain ⟨a, b, c, hcode⟩ := numeral_three h h'
  simp [statusLine, hcode, hversion]
  omega

/-- What is written of a head before the fields of a handler is bounded. -/
theorem length_writeStatusHttp (description : Description) (version : HttpVersion) {code : Nat} (h : 100 ≤ code)
    (h' : code < 1000) (message : Bytes) (keepAlive : Bool) :
    (writeStatusHttp description version code message keepAlive).length < message.length + 1100 := by
  have hdescription := description.fits
  have hstatus : (statusLine version code message).length = message.length + 13 := length_statusLine h h' message
  have hconnection : (connectionLine keepAlive).length ≤ 22 := by cases keepAlive <;> decide
  have hserver : (serverLine description).length = description.text.length + 8 := by
    rw [serverLine, length_fieldLine]
    simp [bytes]
    omega
  rw [writeStatusHttp, List.length_append, List.length_append, length_line, length_line, length_line]
  omega

theorem isText_connectionLine (keepAlive : Bool) : IsText (connectionLine keepAlive) := by
  cases keepAlive <;> decide

theorem isText_serverLine (description : Description) : IsText (serverLine description) :=
  isText_fieldLine (by decide) description.isText

end Viriatum
