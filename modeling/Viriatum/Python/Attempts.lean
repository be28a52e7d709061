import Viriatum.Python.Wsgi

/-!
# Attempts of a WSGI application

The response that is sent for a request is one that a client can tell the end of, with the status and the body of one
attempt, exactly when the application announces what it sends, writes nothing before the status that is sent, and has
set no status that it fails behind.
-/

namespace Viriatum

open Http2Connection Library

/-! ## What is to hold -/

/-- An attempt at a response: the status of it and what is written behind it; the attempts of the server have no body of
the application. -/
structure Attempt where
  statusCode : Nat
  statusMessage : Bytes
  written : Bytes := []
  body : Bytes := []
  own : Bool := false
deriving DecidableEq, Repr

def Attempt.failure : Attempt := { statusCode := 500, statusMessage := internalServerError, own := true }

/-- What a run of an application leads to: a status that is set, data that is written, the body that it returns, or a
failure. -/
inductive Mark where
  | status (statusCode : Nat) (statusMessage : Bytes)
  | write (data : Bytes)
  | body (data : Bytes)
  | failure
deriving DecidableEq, Repr

/-- The last attempt of a history, the last mark of which comes first. -/
def lastAttempt : List Mark → Attempt
  | [] => .failure
  | .status statusCode statusMessage :: _ => { statusCode, statusMessage }
  | .failure :: _ => .failure
  | .write data :: earlier =>
      let attempt := lastAttempt earlier
      if attempt.own then attempt else { attempt with written := attempt.written ++ data }
  | .body data :: earlier =>
      let attempt := lastAttempt earlier
      if attempt.own then attempt else { attempt with body := attempt.body ++ data }

/-- The marks that a call adds to a history. -/
def WsgiContext.mark (c : WsgiContext) (history : List Mark) : WsgiCall → List Mark
  | .startResponse status _ excInfo =>
      if excInfo ∧ c.started then history
      else
        match parseStatus status with
        | none => history
        | some (statusCode, statusMessage) => .status statusCode statusMessage :: history
  | .write data => if c.started then .write data :: history else history

def WsgiContext.marks (c : WsgiContext) (history : List Mark) : List WsgiCall → List Mark
  | [] => history
  | call :: calls => (c.call call).marks (c.mark history call) calls

/-- The history of a result that is joined and closed. -/
def WsgiResult.history (result : WsgiResult) (c : WsgiContext) (earlier : List Mark) : List Mark :=
  let history := c.marks earlier result.iterated
  let c := c.calls result.iterated
  match result.joined with
  | none => ({ c with statusCode := 500 } : WsgiContext).marks (.failure :: history) result.closed
  | some body => c.marks (.body body :: history) result.closed

/-- The history of a run; a request over the limit has a response of its own. -/
def WsgiRun.history (overflow : Bool) (run : WsgiRun) : List Mark :=
  let c : WsgiContext := { statusCode := 500 }
  if overflow then [.status 413 pythonLargeStatus]
  else
    let history := c.marks [] run.called
    match run.result with
    | none => .failure :: history
    | some result => result.history (c.calls run.called) history

/-- The data is one complete response to a request of the method, with the status and the body of the attempt. -/
def RespondsWith (method : Nat) (data : Bytes) (attempt : Attempt) : Prop :=
  ∃ response, readResponse (bodiless method) data = some (response, []) ∧
    response.status = statusLine .http11 attempt.statusCode attempt.statusMessage ∧
    (bodiless method response.code = false → response.body = attempt.written ++ attempt.body)

/-! ## When it holds -/

/-- The fields leave the length to the server, or announce it once. -/
def Tells (fields : List Field) (size : Nat) : Prop :=
  valuesOf transferEncodingName fields = [] ∧
    (valuesOf contentLengthName fields = [] ∨
      ∃ value, valuesOf contentLengthName fields = [value] ∧ readNumeral 10 value = some size)

/-- The length of the payload is what the status and the lines of the application make of it. -/
structure Announces (method statusCode : Nat) (lines : List Bytes) (payload : Bytes) : Prop where
  final : 200 ≤ statusCode
  fields : ∃ fields, applicationFields lines = some fields ∧
    if bodiless method statusCode then payload = []
    else Tells fields payload.length

/-- Nothing is written in an attempt before the last one, or in one of the server. -/
def Undivided : List Mark → Prop
  | [] => True
  | .write data :: earlier => Undivided earlier ∧ ((lastAttempt earlier).own → data = [])
  | .body data :: earlier => Undivided earlier ∧ ((lastAttempt earlier).own → data = [])
  | _ :: earlier => ∀ data, .write data ∈ earlier ∨ .body data ∈ earlier → data = []

/-- The message that is set last. -/
def lastMessage : List Mark → Option Bytes
  | [] => none
  | .status _ statusMessage :: _ => some statusMessage
  | _ :: earlier => lastMessage earlier

/-- A failure that comes last finds no message of another status. -/
def Unnamed : List Mark → Prop
  | [] => True
  | .status _ _ :: _ => True
  | .failure :: earlier => (lastMessage earlier).getD internalServerError = internalServerError
  | _ :: earlier => Unnamed earlier

/-! ## The fields of the head -/

/-- The name of the length is found before the separator of a line exactly where it is the name before the colon. -/
theorem isLength_iff {name value : Bytes} (hcolon : 58 ∉ name) :
    isLengthHandlerPython (name ++ 58 :: value) = true ↔ name.map lowerOctet = contentLengthName := by
  rw [isLengthHandlerPython, decide_eq_true_iff]
  constructor
  · rintro ⟨hname, hseparator⟩
    have hlong : contentLengthName.length ≤ name.length := by
      by_contra hshort
      have hmem : (58 : UInt8) ∈ (name ++ 58 :: value).take contentLengthName.length := by
        rw [List.mem_take_iff_getElem]
        refine ⟨name.length, by simp at hshort ⊢; omega, by simp⟩
      have hlower : lowerOctet 58 ∈ contentLengthName := hname ▸ List.mem_map_of_mem hmem
      exact absurd hlower (by decide)
    have hshort : name.length ≤ contentLengthName.length := by
      by_contra hlong'
      rw [List.getElem?_append_left (by omega)] at hseparator
      exact hcolon (List.mem_of_getElem? hseparator)
    rw [List.take_append_of_le_length hlong, List.take_of_length_le hshort] at hname
    exact hname
  · intro hname
    have hlength : name.length = contentLengthName.length := by rw [← hname, List.length_map]
    rw [← hlength, List.take_left, hname]
    simp

theorem readField_lineField {text text' : Bytes} {field : Field} (htext : lineField text = some text')
    (hfield : readField text' = some field) : field.name = contentLengthName ↔ isLengthHandlerPython text = true := by
  obtain ⟨name, value, hcolon, rfl, rfl⟩ := lineField_some htext
  rw [isLength_iff hcolon, readField_name hcolon hfield]

/-- A line of the length is written as a field. -/
theorem lineField_of_isLength {text : Bytes} (h : isLengthHandlerPython text = true) : ∃ text', lineField text = some text' := by
  have hcolon : 58 ∈ text := by
    rw [isLengthHandlerPython, decide_eq_true_iff] at h
    exact List.mem_of_getElem? h.2
  rcases split_byte 58 text with ⟨-, hall⟩ | ⟨rest, hrest, hsplit⟩
  · exact absurd (by rw [hall]; exact hcolon) (not_mem_takeWhile_byte 58 text)
  · rw [hsplit] at h
    have hname := (isLength_iff (not_mem_takeWhile_byte 58 text)).mp h
    have hlength := congrArg List.length hname
    rw [List.length_map] at hlength
    rw [lineField, hrest]
    have hsmall : ¬ (text.takeWhile (· ≠ 58)).length ≥ maxHeaderSize := by
      rw [hlength]
      decide
    exact ⟨_, if_neg hsmall⟩

/-- The application announces a length exactly where one of its lines is found to be the one of the length. -/
theorem valuesOf_length {lines : List Bytes} {fields : List Field} (h : applicationFields lines = some fields) :
    valuesOf contentLengthName fields = [] ↔ lines.any isLengthHandlerPython = false := by
  induction lines generalizing fields with
  | nil =>
      cases h
      simp [valuesOf]
  | cons text lines ih =>
      cases htext : lineField text with
      | none =>
          have hnot : isLengthHandlerPython text = false := by
            cases hlength : isLengthHandlerPython text with
            | false => rfl
            | true =>
                obtain ⟨text', htext'⟩ := lineField_of_isLength hlength
                rw [htext] at htext'
                cases htext'
          have hlines : applicationFields lines = some fields := by
            simpa [applicationFields, htext] using h
          rw [ih hlines, List.any_cons, hnot, Bool.false_or]
      | some text' =>
          simp only [applicationFields, List.filterMap_cons, htext, List.mapM_cons, Option.bind_eq_bind] at h
          cases hfield : readField text' with
          | none => simp [hfield] at h
          | some field =>
              cases hrest : (lines.filterMap lineField).mapM readField with
              | none => simp [hfield, hrest] at h
              | some fields' =>
                  simp only [hfield, hrest, Option.bind_some, Option.pure_def, Option.some.injEq] at h
                  subst h
                  have hname := readField_lineField htext hfield
                  rw [List.any_cons, Bool.or_eq_false_iff, ← ih hrest]
                  by_cases hlength : field.name = contentLengthName
                  · have := hname.mp hlength
                    simp [valuesOf, hlength, this]
                  · have hnot : isLengthHandlerPython text = false := by
                      rw [← Bool.not_eq_true]
                      exact fun htrue => hlength (hname.mpr htrue)
                    simp [valuesOf, hlength, hnot]

/-! ## The head of the response -/

def lengthLines (c : WsgiContext) (bodyTotal : Nat) : List Bytes :=
  if c.responseHeaders.any isLengthHandlerPython then []
  else [fieldLine (bytes "Content-Length") (numeral 10 bodyTotal)]

/-- The lines of the head behind the status. -/
def headLines (description : Description) (keepAlive : Bool) (c : WsgiContext) (bodyTotal : Nat) : List Bytes :=
  [connectionLine keepAlive, serverLine description] ++ lengthLines c bodyTotal ++ c.responseHeaders.filterMap lineField

/-- The buffer has room for all of the head. -/
theorem writeHeadersPython_eq {c : WsgiContext} (h : c.Sane) (description : Description) (version : HttpVersion)
    (keepAlive : Bool) (bodyTotal : Nat) :
    writeHeadersPython description version keepAlive c bodyTotal =
      writtenHead (statusLine version c.statusCode (c.statusMessage.getD internalServerError))
        (headLines description keepAlive c bodyTotal) := by
  have hcount : c.responseHeaders.length ≤ 64 := h.count
  have hnumeral := length_numeral_le bodyTotal
  have hmessage : (c.statusMessage.getD internalServerError).length ≤ c.statusMessage.elim 0 List.length + 21 := by
    cases c.statusMessage with
    | none => decide
    | some message => simp
  have hstatus := length_writeStatusHttp description version h.code.1 (Nat.lt_of_le_of_lt h.code.2 (by decide))
    (c.statusMessage.getD internalServerError) keepAlive
  have hlines : (c.responseHeaders.map (·.length + 4)).sum =
      (c.responseHeaders.map (·.length + 2)).sum + c.responseHeaders.length * 2 := sum_lengths c.responseHeaders 2
  have hcarries := carries_writeStatusHttp description version c.statusCode (c.statusMessage.getD internalServerError)
    keepAlive
  have hname : (bytes "Content-Length").length = 14 := by simp [bytes]
  rw [writeHeadersPython, headLines, lengthLines]
  obtain ⟨size, hsize⟩ : ∃ size, size = httpMaxSize +
    (c.statusMessage.elim 0 List.length + (c.responseHeaders.map (·.length + 2)).sum) + bodyTotal := ⟨_, rfl⟩
  obtain ⟨buffer, hbuffer⟩ : ∃ buffer, buffer = writeStatusHttp description version c.statusCode
    (c.statusMessage.getD internalServerError) keepAlive := ⟨_, rfl⟩
  rw [← hbuffer] at hcarries hstatus
  have hmaximum : httpMaxSize = 24580 := rfl
  simp only [← hsize, ← hbuffer]
  split
  case isTrue =>
    have hfits : buffer.length + (c.responseHeaders.map (·.length + 4)).sum + 3 ≤ size := by omega
    obtain ⟨hall, hroom⟩ := hcarries.writeLines hfits
    rw [List.append_nil]
    exact hall.writeEnd hroom
  case isFalse =>
    have hroom : buffer.length + ((bytes "Content-Length").length + (numeral 10 bodyTotal).length + 5) ≤ size := by omega
    have hlength : (writeFieldHttp size buffer (bytes "Content-Length") (numeral 10 bodyTotal)).length =
        buffer.length + ((numeral 10 bodyTotal).length + 18) := by
      rw [writeFieldHttp, if_neg (by omega), List.length_append, length_line, length_fieldLine]
      omega
    have hfits : (writeFieldHttp size buffer (bytes "Content-Length") (numeral 10 bodyTotal)).length +
        (c.responseHeaders.map (·.length + 4)).sum + 3 ≤ size := by omega
    obtain ⟨hall, hroom⟩ := (hcarries.writeField hroom).writeLines hfits
    exact hall.writeEnd hroom

/-! ## The response for a client -/

theorem readField_serverLines (description : Description) (keepAlive : Bool) :
    ∃ value value', readField (connectionLine keepAlive) = some ⟨bytes "connection", value⟩ ∧
      readField (serverLine description) = some ⟨bytes "server", value'⟩ := by
  obtain ⟨value, hvalue⟩ := readField_connection keepAlive
  obtain ⟨value', hvalue'⟩ := readField_server description
  exact ⟨value, value', hvalue, hvalue'⟩

/-- The fields of the head: those of the server, and those of the application. -/
theorem mapM_headLines (description : Description) (keepAlive : Bool) (c : WsgiContext) (bodyTotal : Nat) :
    ∃ own : List Field, (∀ fields, valuesOf transferEncodingName (own ++ fields) = valuesOf transferEncodingName fields) ∧
      (∀ fields, valuesOf contentLengthName (own ++ fields) =
        (if c.responseHeaders.any isLengthHandlerPython then [] else [numeral 10 bodyTotal]) ++
          valuesOf contentLengthName fields) ∧
      (headLines description keepAlive c bodyTotal).mapM readField =
        (applicationFields c.responseHeaders).map (own ++ ·) := by
  obtain ⟨value, value', hvalue, hvalue'⟩ := readField_serverLines description keepAlive
  have hlength := readField_contentLength bodyTotal
  rw [headLines, lengthLines, applicationFields]
  cases c.responseHeaders.any isLengthHandlerPython with
  | true =>
      refine ⟨[⟨bytes "connection", value⟩, ⟨bytes "server", value'⟩], ?_, ?_, ?_⟩
      · intro fields
        simp [valuesOf, bytes, transferEncodingName]
      · intro fields
        simp [valuesOf, bytes, contentLengthName]
      · cases hfields : (c.responseHeaders.filterMap lineField).mapM readField <;> simp [hvalue, hvalue', hfields]
  | false =>
      refine ⟨[⟨bytes "connection", value⟩, ⟨bytes "server", value'⟩, ⟨contentLengthName, numeral 10 bodyTotal⟩],
        ?_, ?_, ?_⟩
      · intro fields
        simp [valuesOf, bytes, transferEncodingName, contentLengthName]
      · intro fields
        simp [valuesOf, bytes, contentLengthName]
      · cases hfields : (c.responseHeaders.filterMap lineField).mapM readField <;>
          simp [hvalue, hvalue', hlength, hfields]

/-- The framing of the head fits the payload where the application announces no length, or the one of the payload. -/
theorem fills_framing {c : WsgiContext} {payload : Bytes} {own fields : List Field}
    (hfields : applicationFields c.responseHeaders = some fields)
    (hcoding : valuesOf transferEncodingName (own ++ fields) = valuesOf transferEncodingName fields)
    (hlength : valuesOf contentLengthName (own ++ fields) =
      (if c.responseHeaders.any isLengthHandlerPython then [] else [numeral 10 payload.length]) ++
        valuesOf contentLengthName fields) :
    Fills payload (framing (own ++ fields)) ↔ Tells fields payload.length := by
  have hnone := valuesOf_length hfields
  have hread : readNumeral 10 (numeral 10 payload.length) = some payload.length :=
    readNumeral_numeral (by decide) (by decide) _
  rw [framing, hcoding, hlength, Tells]
  cases hany : c.responseHeaders.any isLengthHandlerPython with
  | false =>
      rw [hnone.mpr hany]
      cases valuesOf transferEncodingName fields with
      | nil => simp [hread, fills_length]
      | cons coding codings => cases codings <;> simp [not_fills_unclear]
  | true =>
      have hsome : valuesOf contentLengthName fields ≠ [] := fun hnil => by
        rw [hnone.mp hnil] at hany
        cases hany
      simp only [if_true, List.nil_append]
      cases hvalues : valuesOf contentLengthName fields with
      | nil => exact absurd hvalues hsome
      | cons value values =>
          cases valuesOf transferEncodingName fields with
          | nil =>
              cases values with
              | nil =>
                  cases hvalue : readNumeral 10 value with
                  | none => simp [not_fills_unclear, hvalue]
                  | some size => simp [fills_length, hvalue, eq_comm]
              | cons value' values => simp [not_fills_unclear]
          | cons coding codings => cases codings <;> simp [not_fills_unclear]

/-- The length that the head tells is the one of the payload. -/
theorem framing_length {c : WsgiContext} {own fields : List Field} {size : Nat}
    (hfields : applicationFields c.responseHeaders = some fields)
    (hcoding : valuesOf transferEncodingName (own ++ fields) = valuesOf transferEncodingName fields)
    (hlength : valuesOf contentLengthName (own ++ fields) =
      (if c.responseHeaders.any isLengthHandlerPython then [] else [numeral 10 size]) ++
        valuesOf contentLengthName fields) (htells : Tells fields size) :
    framing (own ++ fields) = .length size := by
  have hnone := valuesOf_length hfields
  have hread : readNumeral 10 (numeral 10 size) = some size := readNumeral_numeral (by decide) (by decide) _
  obtain ⟨htransfer, hvalues | ⟨value, hvalues, hvalue⟩⟩ := htells
  · rw [framing, hcoding, hlength, hnone.mp hvalues, htransfer, hvalues]
    simp [hread]
  · cases hany : c.responseHeaders.any isLengthHandlerPython with
    | false =>
        rw [hnone.mpr hany] at hvalues
        cases hvalues
    | true =>
        rw [framing, hcoding, hlength, hany, htransfer, hvalues]
        simp [hvalue]

theorem headLines_isText {c : WsgiContext} (h : c.Sane) (description : Description) (keepAlive : Bool) (bodyTotal : Nat) :
    ∀ text ∈ headLines description keepAlive c bodyTotal, IsText text ∧ text ≠ [] := by
  intro text hmem
  rw [headLines, List.append_assoc, List.mem_append, List.mem_append] at hmem
  rcases hmem with hmem | hmem | hmem
  · simp only [List.mem_cons, List.not_mem_nil, or_false] at hmem
    rcases hmem with rfl | rfl
    · exact ⟨isText_connectionLine keepAlive, fieldLine_ne_nil _ _⟩
    · exact ⟨isText_serverLine description, fieldLine_ne_nil _ _⟩
  · rw [lengthLines] at hmem
    split at hmem
    · cases hmem
    · rw [List.mem_singleton] at hmem
      rw [hmem]
      exact ⟨isText_fieldLine (by decide) (isText_numeral_ten bodyTotal), fieldLine_ne_nil _ _⟩
  · exact isText_lineFields h.headers hmem

section Client

variable {c : WsgiContext} (description : Description) (keepAlive : Bool) (method : Nat) (payload : Bytes)

def wsgiStatus (c : WsgiContext) : Bytes :=
  statusLine .http11 c.statusCode (c.statusMessage.getD internalServerError)

/-- A client reads the status, the fields of the application among others, and a body that is framed. -/
theorem readResponse_python (h : c.Sane) :
    ∃ own : List Field,
      (∀ fields, applicationFields c.responseHeaders = some fields →
        (Fills payload (framing (own ++ fields)) ↔ Tells fields payload.length)) ∧
      (∀ fields, applicationFields c.responseHeaders = some fields → Tells fields payload.length →
        framing (own ++ fields) = .length payload.length) ∧
      readResponse (bodiless method)
          (writeHeadersPython description .http11 keepAlive c payload.length ++ payload) =
        (applicationFields c.responseHeaders).bind fun fields =>
          if c.statusCode < 200 then none
          else
            (readBody payload (if bodiless method c.statusCode then .none else framing (own ++ fields))).map
              fun (body, rest) =>
                ({ status := wsgiStatus c, code := c.statusCode, fields := own ++ fields, body }, rest) := by
  obtain ⟨own, hcoding, hlength, hmapM⟩ := mapM_headLines description keepAlive c payload.length
  have hmessage : IsText (c.statusMessage.getD internalServerError) := by
    cases hmessage : c.statusMessage with
    | none => decide
    | some message => exact h.message message hmessage
  have hcode := readStatus_statusLine (by decide : HttpVersion.http11 ≠ .http09) h.code.1
    (Nat.lt_of_le_of_lt h.code.2 (by decide)) (c.statusMessage.getD internalServerError)
  refine ⟨own, fun fields hfields => fills_framing hfields (hcoding fields) (hlength fields),
    fun fields hfields => framing_length hfields (hcoding fields) (hlength fields), ?_⟩
  rw [writeHeadersPython_eq h, readResponse_writtenHead (isText_statusLine _ _ hmessage)
    (headLines_isText h description keepAlive payload.length), hmapM, hcode, wsgiStatus]
  cases applicationFields c.responseHeaders <;> rfl

/-- A response that is complete has a payload that is announced, and its body is then the payload if there may be one. -/
theorem announces_of_readResponse (h : c.Sane) {response : Response}
    (hread : readResponse (bodiless method)
      (writeHeadersPython description .http11 keepAlive c payload.length ++ payload) = some (response, [])) :
    Announces method c.statusCode c.responseHeaders payload ∧ response.status = wsgiStatus c ∧
      response.code = c.statusCode ∧ (bodiless method c.statusCode = false → response.body = payload) := by
  obtain ⟨own, hfills, hlength, heq⟩ := readResponse_python description keepAlive method payload h
  rw [heq] at hread
  cases hfields : applicationFields c.responseHeaders with
  | none => simp [hfields] at hread
  | some fields =>
      simp only [hfields, Option.bind_some] at hread
      split at hread
      case isTrue => cases hread
      case isFalse hfinal =>
        have hstatus : 200 ≤ c.statusCode := Nat.not_lt.mp hfinal
        cases hbody : readBody payload (if bodiless method c.statusCode then .none else framing (own ++ fields)) with
        | none => simp [hbody] at hread
        | some result =>
            obtain ⟨body, rest⟩ := result
            simp only [hbody, Option.map_some, Option.some.injEq, Prod.mk.injEq] at hread
            obtain ⟨rfl, rfl⟩ := hread
            cases hbodiless : bodiless method c.statusCode with
            | true =>
                rw [hbodiless] at hbody
                have hpayload : payload = [] := fills_none.mp ⟨body, hbody⟩
                exact ⟨⟨hstatus, fields, hfields, by simpa [hbodiless] using hpayload⟩, rfl, rfl, by simp⟩
            | false =>
                rw [hbodiless] at hbody
                have hframed := (hfills fields hfields).mp ⟨body, hbody⟩
                rw [if_neg Bool.false_ne_true, hlength fields hfields hframed] at hbody
                refine ⟨⟨hstatus, fields, hfields, by simpa [hbodiless] using hframed⟩, rfl, rfl, fun _ => ?_⟩
                simpa [readBody] using hbody.symm

/-- A payload that is announced makes a complete response. -/
theorem readResponse_of_announces (h : c.Sane) (hannounces : Announces method c.statusCode c.responseHeaders payload) :
    ∃ response, readResponse (bodiless method)
      (writeHeadersPython description .http11 keepAlive c payload.length ++ payload) = some (response, []) := by
  obtain ⟨own, hfills, -, heq⟩ := readResponse_python description keepAlive method payload h
  obtain ⟨fields, hfields, hpayload⟩ := hannounces.fields
  have hfinal : ¬ c.statusCode < 200 := Nat.not_lt.mpr hannounces.final
  rw [heq, hfields, Option.bind_some, if_neg hfinal]
  have hfill : Fills payload (if bodiless method c.statusCode then .none else framing (own ++ fields)) := by
    cases hbodiless : bodiless method c.statusCode with
    | true =>
        rw [hbodiless] at hpayload
        exact fills_none.mpr hpayload
    | false =>
        rw [hbodiless] at hpayload
        exact (hfills fields hfields).mpr hpayload
  obtain ⟨body, hbody⟩ := hfill
  exact ⟨_, by rw [hbody]; rfl⟩

end Client

/-! ## The history of a run -/

/-- All that is written in a history. -/
def writes : List Mark → Bytes
  | [] => []
  | .write data :: earlier => writes earlier ++ data
  | _ :: earlier => writes earlier

/-- The bodies of a history. -/
def bodies : List Mark → Bytes
  | [] => []
  | .body data :: earlier => bodies earlier ++ data
  | _ :: earlier => bodies earlier

/-- The context holds what the history tells. -/
structure WsgiContext.Tracks (c : WsgiContext) (history : List Mark) : Prop where
  statusCode : c.statusCode = (lastAttempt history).statusCode
  statusMessage : c.statusMessage = lastMessage history
  written : c.written = writes history

theorem lastAttempt_write (data : Bytes) (earlier : List Mark) :
    (lastAttempt (.write data :: earlier)).statusCode = (lastAttempt earlier).statusCode ∧
      (lastAttempt (.write data :: earlier)).statusMessage = (lastAttempt earlier).statusMessage := by
  rw [lastAttempt]
  cases (lastAttempt earlier).own <;> exact ⟨rfl, rfl⟩

theorem lastAttempt_body (data : Bytes) (earlier : List Mark) :
    (lastAttempt (.body data :: earlier)).statusCode = (lastAttempt earlier).statusCode ∧
      (lastAttempt (.body data :: earlier)).statusMessage = (lastAttempt earlier).statusMessage := by
  rw [lastAttempt]
  cases (lastAttempt earlier).own <;> exact ⟨rfl, rfl⟩

theorem WsgiContext.Tracks.startResponse {c : WsgiContext} {history : List Mark} (h : c.Tracks history)
    (status : Option Bytes) (headers : List (Option (Bytes × Bytes))) (excInfo : Bool) :
    (startResponseHandlerPython status headers excInfo c).1.Tracks
      (c.mark history (.startResponse status headers excInfo)) := by
  have hdiscarded : (discardHeaders excInfo c).Tracks history := by
    cases excInfo with
    | false => exact h
    | true => exact ⟨h.statusCode, h.statusMessage, h.written⟩
  rw [startResponseHandlerPython, WsgiContext.mark]
  by_cases hrefused : excInfo ∧ c.started
  · rw [if_pos hrefused, if_pos hrefused]
    exact h
  · rw [if_neg hrefused, if_neg hrefused]
    cases parseStatus status with
    | none => exact hdiscarded
    | some parsed =>
        obtain ⟨statusCode, statusMessage⟩ := parsed
        obtain ⟨hcode, hmessage, hwritten⟩ := startHeaders_frame headers
          { discardHeaders excInfo c with statusCode, statusMessage := some statusMessage }
        have hset : (startHeaders headers
            { discardHeaders excInfo c with statusCode, statusMessage := some statusMessage }).1.Tracks
              (.status statusCode statusMessage :: history) :=
          ⟨hcode, hmessage, hwritten.trans hdiscarded.written⟩
        dsimp only
        split
        · exact ⟨hset.statusCode, hset.statusMessage, hset.written⟩
        · exact hset

theorem WsgiContext.Tracks.call {c : WsgiContext} {history : List Mark} (h : c.Tracks history) (call : WsgiCall) :
    (c.call call).Tracks (c.mark history call) := by
  cases call with
  | startResponse status headers excInfo => exact h.startResponse status headers excInfo
  | write data =>
      rw [WsgiContext.call, WsgiContext.mark]
      cases c.started with
      | false => exact h
      | true =>
          obtain ⟨hcode, -⟩ := lastAttempt_write data history
          exact ⟨h.statusCode.trans hcode.symm, h.statusMessage, congrArg (· ++ data) h.written⟩

theorem WsgiContext.Tracks.calls {c : WsgiContext} {history : List Mark} (h : c.Tracks history) (calls : List WsgiCall) :
    (c.calls calls).Tracks (c.marks history calls) := by
  induction calls generalizing c history with
  | nil => exact h
  | cons call calls ih => exact ih (h.call call)

/-- The calls of an application add no body. -/
theorem bodies_marks (c : WsgiContext) (history : List Mark) (calls : List WsgiCall) :
    bodies (c.marks history calls) = bodies history := by
  induction calls generalizing c history with
  | nil => rfl
  | cons call calls ih =>
      rw [WsgiContext.marks, ih]
      cases call with
      | write data =>
          rw [WsgiContext.mark]
          split <;> rfl
      | startResponse status headers excInfo =>
          rw [WsgiContext.mark]
          split
          · rfl
          · split <;> rfl

theorem joinResultPython_tracks {c : WsgiContext} {history : List Mark} (h : c.Tracks history) (result : WsgiResult) :
    (joinResultPython result c).1.Tracks (result.history c history) ∧
      bodies (result.history c history) = bodies history ++ (joinResultPython result c).2 := by
  have hiterated := h.calls result.iterated
  rw [joinResultPython, WsgiResult.history]
  cases result.joined with
  | none =>
      have hfailed : ({ c.calls result.iterated with statusCode := 500 } : WsgiContext).Tracks
          (.failure :: c.marks history result.iterated) := ⟨rfl, hiterated.statusMessage, hiterated.written⟩
      have hbodies : bodies (.failure :: c.marks history result.iterated) = bodies history := bodies_marks _ _ _
      refine ⟨hfailed.calls result.closed, ?_⟩
      rw [bodies_marks, hbodies, List.append_nil]
  | some body =>
      obtain ⟨hcode, -⟩ := lastAttempt_body body (c.marks history result.iterated)
      have hjoined : (c.calls result.iterated).Tracks (.body body :: c.marks history result.iterated) :=
        ⟨hiterated.statusCode.trans hcode.symm, hiterated.statusMessage, hiterated.written⟩
      refine ⟨hjoined.calls result.closed, ?_⟩
      rw [bodies_marks, bodies, bodies_marks]

/-- What is left of a run is what its history tells. -/
theorem callApplicationPython_tracks (overflow : Bool) (run : WsgiRun) :
    (callApplicationPython overflow run).1.Tracks (run.history overflow) ∧
      bodies (run.history overflow) = (callApplicationPython overflow run).2 := by
  have hfresh : ({ statusCode := 500 } : WsgiContext).Tracks [] := ⟨rfl, rfl, rfl⟩
  have hcalled := hfresh.calls run.called
  rw [callApplicationPython, WsgiRun.history]
  cases overflow with
  | true => exact ⟨⟨rfl, rfl, rfl⟩, rfl⟩
  | false =>
      simp only [Bool.false_eq_true, if_false]
      cases run.result with
      | none => exact ⟨⟨rfl, hcalled.statusMessage, hcalled.written⟩, bodies_marks _ _ _⟩
      | some result =>
          obtain ⟨htracks, hbodies⟩ := joinResultPython_tracks hcalled result
          refine ⟨htracks, ?_⟩
          rw [hbodies, bodies_marks]
          rfl

/-! ## One attempt -/

theorem lastAttempt_own {history : List Mark} (h : (lastAttempt history).own = true) :
    (lastAttempt history).written = [] ∧ (lastAttempt history).body = [] := by
  induction history with
  | nil => exact ⟨rfl, rfl⟩
  | cons mark earlier ih =>
      cases mark with
      | status statusCode statusMessage => cases h
      | failure => exact ⟨rfl, rfl⟩
      | write data =>
          rw [lastAttempt] at h ⊢
          cases hown : (lastAttempt earlier).own <;> simp [hown] at h ⊢
          exact ih hown
      | body data =>
          rw [lastAttempt] at h ⊢
          cases hown : (lastAttempt earlier).own <;> simp [hown] at h ⊢
          exact ih hown

/-- Nothing is written in a history exactly where all that is written or returned is empty. -/
theorem writes_nil {history : List Mark} :
    writes history = [] ∧ bodies history = [] ↔ ∀ data, .write data ∈ history ∨ .body data ∈ history → data = [] := by
  induction history with
  | nil => simp [writes, bodies]
  | cons mark earlier ih =>
      cases mark with
      | status statusCode statusMessage => simpa [writes, bodies] using ih
      | failure => simpa [writes, bodies] using ih
      | write data =>
          simp only [writes, bodies, List.append_eq_nil_iff, List.mem_cons, Mark.write.injEq, reduceCtorEq, false_or]
          constructor
          · grind
          · intro h
            have hdata : data = [] := h data (by simp)
            grind
      | body data =>
          simp only [writes, bodies, List.append_eq_nil_iff, List.mem_cons, Mark.body.injEq, reduceCtorEq, false_or]
          constructor
          · grind
          · intro h
            have hdata : data = [] := h data (by simp)
            grind

/-- A history is not divided exactly where its last attempt has all that is written and returned. -/
theorem undivided_iff {history : List Mark} :
    Undivided history ↔
      (lastAttempt history).written = writes history ∧ (lastAttempt history).body = bodies history := by
  induction history with
  | nil => simp [Undivided, lastAttempt, Attempt.failure, writes, bodies]
  | cons mark earlier ih =>
      cases mark with
      | status statusCode statusMessage =>
          simp only [Undivided, lastAttempt, writes, bodies, ← writes_nil]
          grind
      | failure =>
          simp only [Undivided, lastAttempt, Attempt.failure, writes, bodies, ← writes_nil]
          grind
      | write data =>
          simp only [Undivided, lastAttempt, writes, bodies, ih]
          cases hown : (lastAttempt earlier).own with
          | false => simp
          | true =>
              obtain ⟨hwritten, hbody⟩ := lastAttempt_own hown
              simp only [hwritten, hbody, if_true, true_implies, List.nil_eq, List.append_eq_nil_iff]
              tauto
      | body data =>
          simp only [Undivided, lastAttempt, writes, bodies, ih]
          cases hown : (lastAttempt earlier).own with
          | false => simp
          | true =>
              obtain ⟨hwritten, hbody⟩ := lastAttempt_own hown
              simp only [hwritten, hbody, if_true, true_implies, List.nil_eq, List.append_eq_nil_iff]
              tauto

theorem lastAttempt_suffix (history : List Mark) :
    (lastAttempt history).written.length ≤ (writes history).length ∧
      (lastAttempt history).body.length ≤ (bodies history).length := by
  induction history with
  | nil => exact ⟨Nat.le_refl _, Nat.le_refl _⟩
  | cons mark earlier ih =>
      obtain ⟨hwritten, hbody⟩ := ih
      cases mark with
      | status statusCode statusMessage => exact ⟨Nat.zero_le _, Nat.zero_le _⟩
      | failure => exact ⟨Nat.zero_le _, Nat.zero_le _⟩
      | write data =>
          simp only [lastAttempt, writes, bodies]
          cases (lastAttempt earlier).own <;> simp <;> omega
      | body data =>
          simp only [lastAttempt, writes, bodies]
          cases (lastAttempt earlier).own <;> simp <;> omega

/-- The payload is the one of the last attempt exactly where the history is not divided. -/
theorem payload_iff {history : List Mark} :
    writes history ++ bodies history = (lastAttempt history).written ++ (lastAttempt history).body ↔
      Undivided history := by
  obtain ⟨hwritten, hbody⟩ := lastAttempt_suffix history
  rw [undivided_iff]
  constructor
  · intro heq
    have hlength := congrArg List.length heq
    rw [List.length_append, List.length_append] at hlength
    have hsame : (writes history).length = (lastAttempt history).written.length := by omega
    have hparts := List.append_inj heq hsame
    exact ⟨hparts.1.symm, hparts.2.symm⟩
  · rintro ⟨hwritten, hbody⟩
    rw [hwritten, hbody]

/-- The message is the one of the last attempt exactly where no failure finds another. -/
theorem message_iff {history : List Mark} :
    (lastMessage history).getD internalServerError = (lastAttempt history).statusMessage ↔ Unnamed history := by
  induction history with
  | nil => simp [lastMessage, lastAttempt, Attempt.failure, Unnamed]
  | cons mark earlier ih =>
      cases mark with
      | status statusCode statusMessage => simp [lastMessage, lastAttempt, Unnamed]
      | failure => simp [lastMessage, lastAttempt, Attempt.failure, Unnamed]
      | write data =>
          obtain ⟨-, hmessage⟩ := lastAttempt_write data earlier
          rw [hmessage]
          exact ih
      | body data =>
          obtain ⟨-, hmessage⟩ := lastAttempt_body data earlier
          rw [hmessage]
          exact ih

/-- The lines that a run leaves for the head of the response. -/
def WsgiRun.lines (overflow : Bool) (run : WsgiRun) : List Bytes := (callApplicationPython overflow run).1.responseHeaders

end Viriatum
