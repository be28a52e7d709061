import Viriatum.Python.Asgi

/-!
# The framing of ASGI responses

What is written for a request is a head and the bodies of the messages behind it, or a response of the server. It is one
complete response for the client exactly where the head that the application leaves tells the length of what follows, and
where the client takes a body from the server.
-/

namespace Viriatum

open Library

/-! ## When it holds -/

/-- The context that the head of a response is written from, and the messages from the first body on. -/
def AsgiResponse.opening (request : AsgiRequest) (c : AsgiResponse) :
    List AsgiMessage → Option (AsgiResponse × List AsgiMessage)
  | [] => none
  | .body (some data) moreBody :: messages =>
      if c.state = .started then some (c, .body (some data) moreBody :: messages)
      else (sendHandlerAsgi request c (.body (some data) moreBody)).1.opening request messages
  | message :: messages => (sendHandlerAsgi request c message).1.opening request messages

/-- The bodies up to the last one. -/
def parts : List AsgiMessage → List Bytes
  | [] => []
  | .body (some data) true :: messages => data :: parts messages
  | .body (some data) false :: _ => [data]
  | _ :: messages => parts messages

/-- There is a last body. -/
def closes : List AsgiMessage → Bool
  | [] => false
  | .body (some _) false :: _ => true
  | _ :: messages => closes messages

/-- The messages that the handler goes through; a task that ends by itself closes its response. -/
def AsgiRun.messages (overflow : Bool) (run : AsgiRun) : List AsgiMessage :=
  if overflow then run.called
  else
    match run.task with
    | none => run.called
    | some task => run.called ++ task.sent ++ (if task.cancelled then [] else [.body (some []) false])

def errorOutput (request : AsgiRequest) (statusCode : Nat) (body : Bytes) : Bytes :=
  headHandlerAsgi request { statusCode, hasLength := true, responseHeaders := [lengthHeader body] } ++ body

/-- The response of the server to a request that is refused. -/
def AsgiRun.refused (request : AsgiRequest) (overflow : Bool) (run : AsgiRun) : Option Bytes :=
  if overflow then some (errorOutput request 413 asgiLargeBody)
  else if run.task = none then some (errorOutput request 500 asgiErrorBody)
  else none

def AsgiRun.abandoned (overflow : Bool) (run : AsgiRun) : Bool := !overflow && run.task.any AsgiTask.cancelled

/-- The head that is written from a context tells the length of the bodies and of what is written behind them. -/
structure AsgiResponse.Frames (method : Nat) (c : AsgiResponse) (messages : List AsgiMessage) (behind : Bytes) : Prop where
  final : 200 ≤ c.statusCode
  fields : ∃ fields, applicationFields c.responseHeaders = some fields ∧
    if bodiless method c.statusCode then
      (c.hasBody = true → (parts messages).flatten = [] ∧ (c.hasLength = true ∨ closes messages = false)) ∧ behind = []
    else if c.hasLength then
      valuesOf transferEncodingName fields = [] ∧
        ∃ value, valuesOf contentLengthName fields = [value] ∧
          readNumeral 10 value =
            some ((if c.hasBody then (parts messages).flatten.length else 0) + behind.length)
    else
      valuesOf transferEncodingName fields = [] ∧ valuesOf contentLengthName fields = [] ∧
        closes messages = true ∧ behind = []

/-- The response is the one of the server for a request that may have a body in its response, or its head tells the
length of what is written behind it. -/
def AsgiRun.Framed (request : AsgiRequest) (overflow : Bool) (run : AsgiRun) : Prop :=
  match ({ hasBody := request.method ≠ httpHead } : AsgiResponse).opening request (run.messages overflow) with
  | none => run.abandoned overflow = false ∧ request.method ≠ httpHead
  | some (c, messages) => c.Frames request.method messages ((run.refused request overflow).getD [])

/-! ## What is written -/

/-- What the bodies are written as. -/
def AsgiResponse.payload (c : AsgiResponse) (messages : List AsgiMessage) : Bytes :=
  if c.hasLength then if c.hasBody then (parts messages).flatten else []
  else
    (((parts messages).filter (· ≠ [])).flatMap chunk) ++ (if closes messages then lastChunk else [])

theorem sends_cons (request : AsgiRequest) (c : AsgiResponse) (message : AsgiMessage) (messages : List AsgiMessage) :
    c.sends request (message :: messages) = (sendHandlerAsgi request c message).1.sends request messages := rfl

theorem sends_append (request : AsgiRequest) (c : AsgiResponse) (messages messages' : List AsgiMessage) :
    c.sends request (messages ++ messages') = (c.sends request messages).sends request messages' := by
  simp [AsgiResponse.sends]

/-- Nothing is sent behind the last body. -/
theorem send_complete (request : AsgiRequest) {c : AsgiResponse} (h : c.state = .complete) (message : AsgiMessage) :
    (sendHandlerAsgi request c message).1 = c := by
  cases message <;> simp [sendHandlerAsgi, startHandlerAsgi, bodyHandlerAsgi, h]

theorem sends_complete (request : AsgiRequest) {c : AsgiResponse} (h : c.state = .complete)
    (messages : List AsgiMessage) : c.sends request messages = c := by
  induction messages with
  | nil => rfl
  | cons message messages ih => rw [sends_cons, send_complete request h, ih]

theorem payload_body {c : AsgiResponse} (hsilent : c.hasBody = false → c.hasLength = true) (data : Bytes)
    (messages : List AsgiMessage) (output : Bytes) (state : AsgiState) :
    (writeHandlerAsgi (if c.hasBody then data else []) false { c with output, state }).output ++ c.payload messages =
        output ++ c.payload (.body (some data) true :: messages) ∧
      (writeHandlerAsgi (if c.hasBody then data else []) true { c with output, state }).output =
        output ++ c.payload (.body (some data) false :: messages) := by
  cases hlength : c.hasLength with
  | true => cases hbody : c.hasBody <;> simp [writeHandlerAsgi, AsgiResponse.payload, parts, hlength, hbody]
  | false =>
      have hbody : c.hasBody = true := by
        rw [← Bool.not_eq_false]
        intro hnone
        rw [hsilent hnone] at hlength
        cases hlength
      by_cases hdata : data = []
      · cases hcloses : closes messages <;>
          simp [writeHandlerAsgi, AsgiResponse.payload, parts, closes, hlength, hbody, hdata, hcloses]
      · cases hcloses : closes messages <;>
          simp [writeHandlerAsgi, AsgiResponse.payload, parts, closes, hlength, hbody, hdata, hcloses]

/-- Behind the head the bodies are written one after another. -/
theorem sends_headers (request : AsgiRequest) (messages : List AsgiMessage) {c : AsgiResponse} (h : c.state = .headers)
    (hsilent : c.hasBody = false → c.hasLength = true) :
    c.sends request messages =
      { c with output := c.output ++ c.payload messages
               state := if closes messages then .complete else .headers } := by
  induction messages generalizing c with
  | nil =>
      obtain ⟨state, statusCode, responseHeaders, hasLength, hasBody, output⟩ := c
      cases h
      cases hasLength <;> simp [AsgiResponse.sends, AsgiResponse.payload, parts, closes]
  | cons message messages ih =>
      rw [sends_cons]
      cases message with
      | start status headers =>
          have hsame : (sendHandlerAsgi request c (.start status headers)).1 = c := by
            simp [sendHandlerAsgi, startHandlerAsgi, h]
          rw [hsame]
          exact ih h hsilent
      | other => exact ih h hsilent
      | body data moreBody =>
          cases data with
          | none =>
              have hsame : (sendHandlerAsgi request c (.body none moreBody)).1 = c := by
                simp [sendHandlerAsgi, bodyHandlerAsgi, h]
              rw [hsame]
              exact ih h hsilent
          | some data =>
              obtain ⟨hmore, hlast⟩ := payload_body hsilent data messages c.output
                (if moreBody then .headers else .complete)
              have hsent : (sendHandlerAsgi request c (.body (some data) moreBody)).1 =
                  writeHandlerAsgi (if c.hasBody then data else []) (!moreBody)
                    { c with state := if moreBody then .headers else .complete } := by
                simp [sendHandlerAsgi, bodyHandlerAsgi, h]
              rw [hsent]
              cases moreBody with
              | false =>
                  rw [sends_complete request rfl]
                  exact congrArg (fun output => ({ c with state := .complete, output } : AsgiResponse)) hlast
              | true =>
                  have hrest := ih (c := writeHandlerAsgi (if c.hasBody then data else []) false
                    { c with state := .headers }) rfl hsilent
                  exact hrest.trans (congrArg (fun output =>
                    ({ c with state := if closes messages then .complete else .headers, output } : AsgiResponse)) hmore)

/-- A response that is started is written from its first body on: the head, and the bodies. -/
theorem sends_started (request : AsgiRequest) {c : AsgiResponse} (h : c.state = .started)
    (hsilent : c.hasBody = false → c.hasLength = true) (data : Bytes) (moreBody : Bool) (messages : List AsgiMessage) :
    (c.sends request (.body (some data) moreBody :: messages)).output =
      c.output ++ headHandlerAsgi request c ++ c.payload (.body (some data) moreBody :: messages) ∧
    ((c.sends request (.body (some data) moreBody :: messages)).state = .headers ∨
      (c.sends request (.body (some data) moreBody :: messages)).state = .complete) := by
  obtain ⟨hmore, hlast⟩ := payload_body hsilent data messages (c.output ++ headHandlerAsgi request c)
    (if moreBody then .headers else .complete)
  have hsent : (sendHandlerAsgi request c (.body (some data) moreBody)).1 =
      writeHandlerAsgi (if c.hasBody then data else []) (!moreBody)
        { c with output := c.output ++ headHandlerAsgi request c, state := if moreBody then .headers else .complete } := by
    simp [sendHandlerAsgi, bodyHandlerAsgi, sendHeadersHandlerAsgi, h]
  rw [sends_cons, hsent]
  cases moreBody with
  | false =>
      rw [sends_complete request rfl]
      exact ⟨hlast, Or.inr rfl⟩
  | true =>
      have hrest := sends_headers request messages (c := writeHandlerAsgi (if c.hasBody then data else []) false
        { c with output := c.output ++ headHandlerAsgi request c, state := .headers }) rfl hsilent
      rw [Bool.not_true, if_pos rfl, hrest]
      refine ⟨hmore, ?_⟩
      cases closes messages with
      | false => exact Or.inl rfl
      | true => exact Or.inr rfl

/-- What messages lead to: nothing is written as long as there is no opening, and the head and the bodies are from there. -/
theorem sends_opening (request : AsgiRequest) (messages : List AsgiMessage) {c : AsgiResponse} (hsane : c.Sane)
    (hclosed : c.state = .pending ∨ c.state = .started) :
    match c.opening request messages with
    | none => (c.sends request messages).output = c.output ∧
        ((c.sends request messages).state = .pending ∨ (c.sends request messages).state = .started)
    | some (c', messages') => c'.Sane ∧ c'.state = .started ∧
        (c.sends request messages).output = c.output ++ headHandlerAsgi request c' ++ c'.payload messages' ∧
        ((c.sends request messages).state = .headers ∨ (c.sends request messages).state = .complete) := by
  induction messages generalizing c with
  | nil => exact ⟨rfl, hclosed⟩
  | cons message messages ih =>
      cases message with
      | start status headers =>
          have hnext : (sendHandlerAsgi request c (.start status headers)).1.Sane := start_sane hsane status headers
          obtain ⟨houtput, hsame, hstate⟩ := start_frame c status headers
          have hstate' : (sendHandlerAsgi request c (.start status headers)).1.state = .pending ∨
              (sendHandlerAsgi request c (.start status headers)).1.state = .started := by
            rcases hclosed with hpending | hstarted
            · exact hstate hpending
            · rw [sendHandlerAsgi, hsame (by simp [hstarted])]
              exact Or.inr hstarted
          have hrest := ih hnext hstate'
          have hwritten : (sendHandlerAsgi request c (.start status headers)).1.output = c.output := houtput
          rw [hwritten] at hrest
          exact hrest
      | other => exact ih hsane hclosed
      | body data moreBody =>
          cases data with
          | none =>
              have hsame : (sendHandlerAsgi request c (.body none moreBody)).1 = c := by
                rcases hclosed with hstate | hstate <;> simp [sendHandlerAsgi, bodyHandlerAsgi, hstate]
              have hopening : c.opening request (.body none moreBody :: messages) = c.opening request messages :=
                congrArg (·.opening request messages) hsame
              rw [hopening, sends_cons, hsame]
              exact ih hsane hclosed
          | some data =>
              rw [AsgiResponse.opening]
              rcases hclosed with hstate | hstate
              · have hsame : (sendHandlerAsgi request c (.body (some data) moreBody)).1 = c := by
                  simp [sendHandlerAsgi, bodyHandlerAsgi, hstate]
                rw [if_neg (by simp [hstate]), sends_cons, hsame]
                exact ih hsane (Or.inl hstate)
              · rw [if_pos hstate]
                have hsilent := hsane.silent (by simp [hstate])
                exact ⟨hsane, hstate, sends_started request hstate hsilent data moreBody messages⟩

/-! ## The head for a client -/

theorem statusHandlerAsgi_text (statusCode : Nat) :
    IsText (statusHandlerAsgi statusCode) ∧ (statusHandlerAsgi statusCode).length < 64 := by
  have hunknown : IsText (bytes "Unknown") ∧ (bytes "Unknown").length < 64 := by simp [IsText, bytes]
  rw [statusHandlerAsgi]
  cases hrow : httpStatusCodes[statusCode / 100 - 1]? with
  | none => exact hunknown
  | some messages =>
      rw [Option.bind_some]
      cases hmessage : messages[statusCode % 100]? with
      | none => exact hunknown
      | some message =>
          exact httpStatusCodes_text messages (List.mem_of_getElem? hrow) message (List.mem_of_getElem? hmessage)

def codingLines (c : AsgiResponse) : List Bytes :=
  if c.hasLength then [] else [fieldLine (bytes "Transfer-Encoding") (bytes "chunked")]

/-- The lines of the head behind the status. -/
def asgiLines (request : AsgiRequest) (c : AsgiResponse) : List Bytes :=
  [connectionLine request.keepAlive, serverLine request.description] ++ codingLines c ++
    c.responseHeaders.filterMap lineField

def asgiStatus (request : AsgiRequest) (c : AsgiResponse) : Bytes :=
  statusLine request.version c.statusCode (statusHandlerAsgi c.statusCode)

/-- The buffer has room for all of the head. -/
theorem headHandlerAsgi_eq (request : AsgiRequest) {c : AsgiResponse} (h : c.Sane) :
    headHandlerAsgi request c = writtenHead (asgiStatus request c) (asgiLines request c) := by
  obtain ⟨-, hmessage⟩ := statusHandlerAsgi_text c.statusCode
  have hcount : c.responseHeaders.length ≤ 64 := h.count
  have hstatus := length_writeStatusHttp request.description request.version h.code.1
    (Nat.lt_of_le_of_lt h.code.2 (by decide)) (statusHandlerAsgi c.statusCode) request.keepAlive
  have hcarries := carries_writeStatusHttp request.description request.version c.statusCode
    (statusHandlerAsgi c.statusCode) request.keepAlive
  have hlines : (c.responseHeaders.map (·.length + 4)).sum =
      (c.responseHeaders.map (·.length + 2)).sum + c.responseHeaders.length * 2 := sum_lengths c.responseHeaders 2
  have hmaximum : httpMaxSize = 24580 := rfl
  have hcoding : (bytes "Transfer-Encoding").length + (bytes "chunked").length + 5 = 29 := by simp [bytes]
  have hcoding' : (bytes "Transfer-Encoding").length + (bytes "chunked").length + 2 + 2 = 28 := by simp [bytes]
  rw [headHandlerAsgi, asgiStatus, asgiLines, codingLines]
  obtain ⟨size, hsize⟩ : ∃ size, size = httpMaxSize + (c.responseHeaders.map (·.length + 2)).sum := ⟨_, rfl⟩
  obtain ⟨buffer, hbuffer⟩ : ∃ buffer, buffer = writeStatusHttp request.description request.version c.statusCode
    (statusHandlerAsgi c.statusCode) request.keepAlive := ⟨_, rfl⟩
  rw [← hbuffer] at hcarries hstatus
  simp only [← hsize, ← hbuffer]
  split
  case isTrue =>
    have hfits : buffer.length + (c.responseHeaders.map (·.length + 4)).sum + 3 ≤ size := by omega
    obtain ⟨hall, hroom⟩ := hcarries.writeLines hfits
    rw [List.append_nil]
    exact hall.writeEnd hroom
  case isFalse =>
    have hroom : buffer.length + ((bytes "Transfer-Encoding").length + (bytes "chunked").length + 5) ≤ size := by omega
    have hlength : (writeFieldHttp size buffer (bytes "Transfer-Encoding") (bytes "chunked")).length =
        buffer.length + 28 := by
      rw [writeFieldHttp, if_neg (by omega), List.length_append, length_line, length_fieldLine, hcoding']
    have hfits : (writeFieldHttp size buffer (bytes "Transfer-Encoding") (bytes "chunked")).length +
        (c.responseHeaders.map (·.length + 4)).sum + 3 ≤ size := by omega
    obtain ⟨hall, hroom⟩ := (hcarries.writeField hroom).writeLines hfits
    exact hall.writeEnd hroom

theorem asgiLines_isText (request : AsgiRequest) {c : AsgiResponse} (h : c.Sane) :
    ∀ text ∈ asgiLines request c, IsText text ∧ text ≠ [] := by
  intro text hmem
  rw [asgiLines, List.append_assoc, List.mem_append, List.mem_append] at hmem
  rcases hmem with hmem | hmem | hmem
  · simp only [List.mem_cons, List.not_mem_nil, or_false] at hmem
    rcases hmem with rfl | rfl
    · exact ⟨isText_connectionLine request.keepAlive, fieldLine_ne_nil _ _⟩
    · exact ⟨isText_serverLine request.description, fieldLine_ne_nil _ _⟩
  · rw [codingLines] at hmem
    split at hmem
    · cases hmem
    · rw [List.mem_singleton] at hmem
      rw [hmem]
      exact ⟨isText_fieldLine (by decide) (by decide), fieldLine_ne_nil _ _⟩
  · exact isText_lineFields h.headers hmem

/-- A client takes the fields of the application, and the coding of the server, for the length of the body. -/
theorem answers_head {request : AsgiRequest} (hversion : request.version = .http11) {c : AsgiResponse} (h : c.Sane)
    (payload : Bytes) :
    Answers (bodiless request.method) (headHandlerAsgi request c ++ payload) ↔
      200 ≤ c.statusCode ∧ ∃ fields, applicationFields c.responseHeaders = some fields ∧
        if bodiless request.method c.statusCode then payload = []
        else if c.hasLength then Fills payload (framing fields)
        else Fills payload (framing (⟨transferEncodingName, chunkedCoding⟩ :: fields)) := by
  obtain ⟨hmessage, -⟩ := statusHandlerAsgi_text c.statusCode
  obtain ⟨value, hvalue⟩ := readField_connection request.keepAlive
  obtain ⟨value', hvalue'⟩ := readField_server request.description
  have hcode : readStatus (asgiStatus request c) = some c.statusCode :=
    readStatus_statusLine (by rw [hversion]; decide) h.code.1 (Nat.lt_of_le_of_lt h.code.2 (by decide)) _
  have hframing : ∀ fields : List Field,
      framing (⟨bytes "connection", value⟩ :: ⟨bytes "server", value'⟩ :: fields) = framing fields := by
    intro fields
    simp [framing, valuesOf, bytes, transferEncodingName, contentLengthName]
  have hstatus : IsText (asgiStatus request c) := isText_statusLine _ _ hmessage
  rw [headHandlerAsgi_eq request h, answers_writtenHead hstatus (asgiLines_isText request h), hcode, asgiLines, codingLines, applicationFields]
  cases hfields : (c.responseHeaders.filterMap lineField).mapM readField with
  | none => cases c.hasLength <;> simp [hvalue, hvalue', hfields, readField_chunked]
  | some fields =>
      cases hbodiless : bodiless request.method c.statusCode <;> cases c.hasLength <;>
        simp [hvalue, hvalue', hfields, readField_chunked, hframing, fills_none, hbodiless]


/-! ## The body for a client -/

/-- What is written behind the bodies is nothing, or a response that starts with its version. -/
def Behind (behind : Bytes) : Prop :=
  behind = [] ∨ ∃ text rest, IsText text ∧ readNumeral 16 text = none ∧ behind = line text ++ rest

theorem Behind.readChunks {behind : Bytes} (h : Behind behind) (bound : Nat) : readChunks bound behind = none := by
  rcases h with rfl | ⟨text, rest, htext, hnumeral, rfl⟩
  · exact readChunks_nil bound
  · exact readChunks_none htext hnumeral bound rest

/-- The bodies of a response are the chunks of one that a client takes exactly where there is a last one, and nothing is
behind it. -/
theorem fills_parts (messages : List AsgiMessage) {behind : Bytes} (h : Behind behind) :
    Fills (((parts messages).filter (· ≠ [])).flatMap chunk ++ (if closes messages then lastChunk else []) ++ behind)
        .chunked ↔ closes messages = true ∧ behind = [] := by
  have hparts : ∀ part ∈ (parts messages).filter (· ≠ []), part ≠ [] := by
    intro part hmem
    simpa using (List.mem_filter.mp hmem).2
  obtain ⟨bound, hbound, hfills⟩ := fills_chunks hparts ((if closes messages then lastChunk else []) ++ behind)
  rw [List.append_assoc, hfills]
  cases hcloses : closes messages with
  | false => simp [h.readChunks]
  | true =>
      rw [hcloses, if_pos rfl] at hbound
      cases bound with
      | zero => simp [lastChunk, line] at hbound
      | succ bound => simp [readChunks_lastChunk]

/-- A length that is announced is one of the fields of a client. -/
theorem announced_ne_nil {c : AsgiResponse} (h : c.Sane) {fields : List Field}
    (hfields : applicationFields c.responseHeaders = some fields) (hlength : c.hasLength = true)
    (hbody : c.hasBody = true) : valuesOf contentLengthName fields ≠ [] := by
  obtain ⟨name, value, hname, hmem⟩ := h.announced hlength hbody
  rw [isLengthHandlerAsgi, decide_eq_true_iff] at hname
  have hcolon : 58 ∉ name := by
    intro hcolon
    have hlower : lowerOctet 58 ∈ contentLengthName := hname ▸ List.mem_map_of_mem hcolon
    exact absurd hlower (by decide)
  have hshort : name.length < maxHeaderSize := by
    rw [← List.length_map (f := lowerOctet), hname]
    decide
  obtain ⟨field, hfield, hnamed⟩ := exists_applicationField hfields hmem hcolon hshort
  exact valuesOf_ne_nil hfield (hnamed.trans hname)

/-- A body of unknown length is chunked. -/
theorem fills_unknown {c : AsgiResponse} (messages : List AsgiMessage) (hlength : c.hasLength = false) {behind : Bytes}
    (hbehind : Behind behind) (fields : List Field) :
    Fills (c.payload messages ++ behind) (framing (⟨transferEncodingName, chunkedCoding⟩ :: fields)) ↔
      valuesOf transferEncodingName fields = [] ∧ valuesOf contentLengthName fields = [] ∧
        closes messages = true ∧ behind = [] := by
  have hcodings : valuesOf transferEncodingName (⟨transferEncodingName, chunkedCoding⟩ :: fields) =
      chunkedCoding :: valuesOf transferEncodingName fields := by simp [valuesOf]
  have hlengths : valuesOf contentLengthName (⟨transferEncodingName, chunkedCoding⟩ :: fields) =
      valuesOf contentLengthName fields := by simp [valuesOf, transferEncodingName, contentLengthName]
  have hlower : chunkedCoding.map lowerOctet = chunkedCoding := by decide
  rw [AsgiResponse.payload, hlength, if_neg Bool.false_ne_true, fills_framing_iff, hcodings, hlengths]
  constructor
  · rintro (⟨hcoding, -⟩ | ⟨hnone, value, hcoding, -, hfills⟩)
    · cases hcoding
    · rw [List.cons.injEq] at hcoding
      exact ⟨hcoding.2, hnone, (fills_parts messages hbehind).mp hfills⟩
  · rintro ⟨hcoding, hnone, hfills⟩
    exact Or.inr ⟨hnone, chunkedCoding, by rw [hcoding], hlower, (fills_parts messages hbehind).mpr hfills⟩

/-- A body of a length that is known is written as it is. -/
theorem fills_known {c : AsgiResponse} (hsane : c.Sane) (messages : List AsgiMessage) (hlength : c.hasLength = true)
    {behind : Bytes} (hbehind : Behind behind) {fields : List Field}
    (hfields : applicationFields c.responseHeaders = some fields) :
    Fills (c.payload messages ++ behind) (framing fields) ↔
      valuesOf transferEncodingName fields = [] ∧
        ∃ value, valuesOf contentLengthName fields = [value] ∧
          readNumeral 10 value = some ((if c.hasBody then (parts messages).flatten.length else 0) + behind.length) := by
  have hsize : (c.payload messages ++ behind).length =
      (if c.hasBody then (parts messages).flatten.length else 0) + behind.length := by
    rw [List.length_append, AsgiResponse.payload, hlength, if_pos rfl]
    cases c.hasBody <;> simp
  rw [fills_framing_iff, hsize]
  constructor
  · rintro (hlengths | ⟨hnone, value, -, -, body, hread⟩)
    · exact hlengths
    · -- a length that is not among the fields is one that is set for a response without a body
      cases hbody : c.hasBody with
      | true => exact absurd hnone (announced_ne_nil hsane hfields hlength hbody)
      | false =>
          rw [AsgiResponse.payload, hlength, if_pos rfl, hbody, if_neg Bool.false_ne_true, List.nil_append, readBody,
            hbehind.readChunks] at hread
          cases hread
  · exact Or.inl

section Bodies

variable {c : AsgiResponse} (hsane : c.Sane) (hstarted : c.state = .started) (messages : List AsgiMessage)
include hsane hstarted

theorem hasBody_of_unknown (hlength : c.hasLength = false) : c.hasBody = true := by
  rw [← Bool.not_eq_false]
  intro hnone
  rw [hsane.silent (by simp [hstarted]) hnone] at hlength
  cases hlength

theorem payload_eq_nil : c.payload messages = [] ↔
    (c.hasBody = true → (parts messages).flatten = [] ∧ (c.hasLength = true ∨ closes messages = false)) := by
  cases hlength : c.hasLength with
  | true => simp [AsgiResponse.payload, hlength]
  | false =>
      have hbody := hasBody_of_unknown hsane hstarted hlength
      have hchunks : ((parts messages).filter (· ≠ [])).flatMap chunk = [] ↔ (parts messages).flatten = [] := by
        simp [chunk, line]
      have hlast : lastChunk ≠ [] := by simp [lastChunk, line]
      rw [AsgiResponse.payload, hlength, if_neg Bool.false_ne_true, List.append_eq_nil_iff, hchunks]
      cases closes messages <;> simp [hbody, hlast]

/-- The head tells the length of what is written exactly where it frames it. -/
theorem frames_iff {method : Nat} {behind : Bytes} (hbehind : Behind behind) :
    c.Frames method messages behind ↔
      200 ≤ c.statusCode ∧ ∃ fields, applicationFields c.responseHeaders = some fields ∧
        if bodiless method c.statusCode then c.payload messages ++ behind = []
        else if c.hasLength then Fills (c.payload messages ++ behind) (framing fields)
        else Fills (c.payload messages ++ behind) (framing (⟨transferEncodingName, chunkedCoding⟩ :: fields)) := by
  have hempty : c.payload messages ++ behind = [] ↔ (c.hasBody = true → (parts messages).flatten = [] ∧
      (c.hasLength = true ∨ closes messages = false)) ∧ behind = [] := by
    rw [List.append_eq_nil_iff, payload_eq_nil hsane hstarted messages]
  constructor
  · rintro ⟨hfinal, fields, hfields, hframed⟩
    refine ⟨hfinal, fields, hfields, ?_⟩
    cases hlength : c.hasLength with
    | true => simpa [hempty, hlength, fills_known hsane messages hlength hbehind hfields] using hframed
    | false => simpa [hempty, hlength, fills_unknown messages hlength hbehind] using hframed
  · rintro ⟨hfinal, fields, hfields, hframed⟩
    refine ⟨hfinal, fields, hfields, ?_⟩
    cases hlength : c.hasLength with
    | true => simpa [hempty, hlength, fills_known hsane messages hlength hbehind hfields] using hframed
    | false => simpa [hempty, hlength, fills_unknown messages hlength hbehind] using hframed

end Bodies

/-! ## A whole run -/

theorem sendStatus_output (request : AsgiRequest) (statusCode : Nat) (body : Bytes) (c : AsgiResponse) :
    (sendStatusHandlerAsgi request statusCode body c).output = c.output ++ errorOutput request statusCode body := by
  rw [errorOutput, ← List.append_assoc]
  rfl

theorem sendStatus_state (request : AsgiRequest) (statusCode : Nat) (body : Bytes) (c : AsgiResponse) :
    (sendStatusHandlerAsgi request statusCode body c).state = .complete := rfl

/-- A task that ends by itself sends a last body for a response that is started. -/
theorem done_output (request : AsgiRequest) {c : AsgiResponse} (h : c.state ≠ .pending)
    (hsilent : c.hasBody = false → c.hasLength = true) :
    (c.doneHandlerAsgi request false).output = (c.sends request [.body (some []) false]).output := by
  obtain ⟨state, statusCode, responseHeaders, hasLength, hasBody, output⟩ := c
  cases state <;> cases hasBody <;>
    simp [AsgiResponse.doneHandlerAsgi, AsgiResponse.sends, sendHandlerAsgi, bodyHandlerAsgi, writeHandlerAsgi,
      sendHeadersHandlerAsgi, headHandlerAsgi] at h hsilent ⊢

theorem closing_pending (request : AsgiRequest) {c : AsgiResponse} (h : c.state = .pending) :
    c.sends request [.body (some []) false] = c := by
  simp [AsgiResponse.sends, sendHandlerAsgi, bodyHandlerAsgi, h]

theorem closing_complete (request : AsgiRequest) {c : AsgiResponse} (h : c.state ≠ .pending) :
    (c.sends request [.body (some []) false]).state = .complete := by
  obtain ⟨state, statusCode, responseHeaders, hasLength, hasBody, output⟩ := c
  cases state <;> simp [AsgiResponse.sends, sendHandlerAsgi, bodyHandlerAsgi, writeHandlerAsgi] at h ⊢

theorem fresh_sane (hasBody : Bool) : ({ hasBody } : AsgiResponse).Sane :=
  ⟨by simp, Nat.zero_le _, by simp, by simp, by simp⟩

theorem refusal_sane (statusCode : Nat) (hcode : 100 ≤ statusCode ∧ statusCode ≤ 599) (body : Bytes) :
    ({ statusCode, hasLength := true, responseHeaders := [lengthHeader body] } : AsgiResponse).Sane := by
  have hline : IsText (lengthHeader body) := isText_fieldLine (by decide) (isText_numeral_ten _)
  refine ⟨by simpa using hline, by simp [asgiMaxHeaders], hcode, ?_, by simp⟩
  intro _ _
  exact ⟨bytes "Content-Length", numeral 10 body.length, by decide, List.mem_singleton_self _⟩

/-- A errorOutput starts with its version. -/
theorem refusal_behind {request : AsgiRequest} (hversion : request.version = .http11) (statusCode : Nat)
    (hcode : 100 ≤ statusCode ∧ statusCode ≤ 599) (body : Bytes) : Behind (errorOutput request statusCode body) := by
  obtain ⟨hmessage, -⟩ := statusHandlerAsgi_text statusCode
  right
  rw [errorOutput, headHandlerAsgi_eq request (refusal_sane statusCode hcode body), writtenHead, List.append_assoc]
  refine ⟨_, _, isText_statusLine _ _ hmessage, ?_, rfl⟩
  simp [statusLine, hversion, httpVersionCode, bytes, readNumeral, digitValue]

/-- A errorOutput is a response with a body. -/
theorem answers_refusal {request : AsgiRequest} (hversion : request.version = .http11) {statusCode : Nat}
    (hcode : statusCode = 413 ∨ statusCode = 500) {body : Bytes} (hbody : body ≠ []) :
    Answers (bodiless request.method) (errorOutput request statusCode body) ↔ request.method ≠ httpHead := by
  have hrange : 100 ≤ statusCode ∧ statusCode ≤ 599 := by omega
  have hname : 58 ∉ bytes "Content-Length" ∧ (bytes "Content-Length").length < maxHeaderSize := by
    simp [bytes, maxHeaderSize]
  have hfields : applicationFields [lengthHeader body] = some [⟨contentLengthName, numeral 10 body.length⟩] := by
    simp [applicationFields, lengthHeader, lineField_fieldLine _ hname.1 hname.2, dropWhile_numeral,
      readField_contentLength]
  have hfills : Fills body (framing [⟨contentLengthName, numeral 10 body.length⟩]) := by
    have hread : readNumeral 10 (numeral 10 body.length) = some body.length := readNumeral_numeral (by decide) (by decide) _
    rw [fills_framing_iff]
    exact Or.inl ⟨by simp [valuesOf, transferEncodingName, contentLengthName], _, by simp [valuesOf], hread⟩
  have hbodiless : bodiless request.method statusCode = true ↔ request.method = httpHead := by
    rw [bodiless, decide_eq_true_iff]
    omega
  rw [errorOutput, answers_head hversion (refusal_sane statusCode hrange body)]
  simp only [hfields, Option.some.injEq, exists_eq_left', hbodiless, hbody, hfills, if_true]
  by_cases hhead : request.method = httpHead
  · simp [hhead]
  · simp only [hhead, if_false, and_true, ne_eq, not_false_eq_true, iff_true]
    omega

section Runs

variable (request : AsgiRequest) {c : AsgiResponse} (hsane : c.Sane) (hpending : c.state = .pending)
  (hfresh : c.output = [])
include hsane hpending hfresh

/-- A request that is refused is answered for behind what has been sent. -/
theorem output_refused (messages sent : List AsgiMessage) (statusCode : Nat) (body : Bytes) :
    match c.opening request messages with
    | none => ((sendStatusHandlerAsgi request statusCode body (c.sends request messages)).sends request sent).output =
        errorOutput request statusCode body
    | some (c', messages') => c'.Sane ∧ c'.state = .started ∧
        ((sendStatusHandlerAsgi request statusCode body (c.sends request messages)).sends request sent).output =
          headHandlerAsgi request c' ++ (c'.payload messages' ++ errorOutput request statusCode body) := by
  have hopening := sends_opening request messages hsane (Or.inl hpending)
  rw [sends_complete request (sendStatus_state request statusCode body _), sendStatus_output]
  cases hcase : c.opening request messages with
  | none =>
      rw [hcase] at hopening
      rw [hopening.1, hfresh, List.nil_append]
  | some result =>
      obtain ⟨c', messages'⟩ := result
      rw [hcase] at hopening
      obtain ⟨hsane', hstarted, houtput, -⟩ := hopening
      exact ⟨hsane', hstarted, by rw [houtput, hfresh]; simp⟩

/-- A task that is cancelled is answered for with what it has sent. -/
theorem output_cancelled (messages : List AsgiMessage) :
    match c.opening request messages with
    | none => (c.sends request messages).output = []
    | some (c', messages') => c'.Sane ∧ c'.state = .started ∧
        (c.sends request messages).output = headHandlerAsgi request c' ++ (c'.payload messages' ++ []) := by
  have hopening := sends_opening request messages hsane (Or.inl hpending)
  cases hcase : c.opening request messages with
  | none =>
      rw [hcase] at hopening
      exact hopening.1.trans hfresh
  | some result =>
      obtain ⟨c', messages'⟩ := result
      rw [hcase] at hopening
      obtain ⟨hsane', hstarted, houtput, -⟩ := hopening
      exact ⟨hsane', hstarted, by rw [houtput, hfresh]; simp⟩

/-- A task that ends by itself is answered for with what it has sent, closed, or with an error. -/
theorem output_done (messages : List AsgiMessage) :
    match c.opening request (messages ++ [.body (some []) false]) with
    | none => ((c.sends request messages).doneHandlerAsgi request false).output = errorOutput request 500 asgiErrorBody
    | some (c', messages') => c'.Sane ∧ c'.state = .started ∧
        ((c.sends request messages).doneHandlerAsgi request false).output =
          headHandlerAsgi request c' ++ (c'.payload messages' ++ []) := by
  have hopening := sends_opening request (messages ++ [.body (some []) false]) hsane (Or.inl hpending)
  rw [sends_append] at hopening
  by_cases hstate : (c.sends request messages).state = .pending
  · have hdone : (c.sends request messages).doneHandlerAsgi request false =
        sendErrorHandlerAsgi request (c.sends request messages) := by
      simp [AsgiResponse.doneHandlerAsgi, hstate]
    rw [closing_pending request hstate] at hopening
    cases hcase : c.opening request (messages ++ [.body (some []) false]) with
    | none =>
        rw [hcase] at hopening
        rw [hdone, sendErrorHandlerAsgi, sendStatus_output, hopening.1, hfresh, List.nil_append]
    | some result =>
        rw [hcase] at hopening
        obtain ⟨-, -, -, hwritten⟩ := hopening
        simp [hstate] at hwritten
  · have hdone := done_output request hstate ((sends_sane request hsane messages).silent hstate)
    cases hcase : c.opening request (messages ++ [.body (some []) false]) with
    | none =>
        rw [hcase] at hopening
        simp [closing_complete request hstate] at hopening
    | some result =>
        obtain ⟨c', messages'⟩ := result
        rw [hcase] at hopening
        obtain ⟨hsane', hstarted, houtput, -⟩ := hopening
        exact ⟨hsane', hstarted, by rw [hdone, houtput, hfresh]; simp⟩

end Runs

/-- What a whole run writes. -/
theorem output_run (request : AsgiRequest) (overflow : Bool) (run : AsgiRun) :
    match ({ hasBody := request.method ≠ httpHead } : AsgiResponse).opening request (run.messages overflow) with
    | none => (callApplicationHandlerAsgi request overflow run).output =
        if run.abandoned overflow then []
        else (run.refused request overflow).getD (errorOutput request 500 asgiErrorBody)
    | some (c, messages) => c.Sane ∧ c.state = .started ∧
        (callApplicationHandlerAsgi request overflow run).output =
          headHandlerAsgi request c ++ (c.payload messages ++ (run.refused request overflow).getD []) := by
  have hsane := fresh_sane (request.method ≠ httpHead)
  rw [callApplicationHandlerAsgi, AsgiRun.messages, AsgiRun.refused, AsgiRun.abandoned]
  cases overflow with
  | true => exact output_refused request hsane rfl rfl run.called _ 413 asgiLargeBody
  | false =>
      cases htask : run.task with
      | none => exact output_refused request hsane rfl rfl run.called [] 500 asgiErrorBody
      | some task =>
          cases hcancelled : task.cancelled with
          | true =>
              have h := output_cancelled request hsane rfl rfl (run.called ++ task.sent)
              rw [sends_append] at h
              simpa [AsgiResponse.doneHandlerAsgi, hcancelled] using h
          | false =>
              have h := output_done request hsane rfl rfl (run.called ++ task.sent)
              rw [sends_append] at h
              simpa [hcancelled] using h

end Viriatum
