import Viriatum.Http.Writer

/-!
# Responses of ASGI applications

An application sends its response as messages, while it is called and from its task; the handler writes a response by
itself where there is none, and ends one that has been left open. The output is what is written to the connection.
-/

namespace Viriatum

open Library

def asgiMaxHeaders : Nat := 64

def asgiErrorBody : Bytes := bytes "Internal Server Error"

def asgiLargeBody : Bytes := bytes "Payload Too Large"

inductive AsgiState where
  | pending
  | started
  | headers
  | complete
deriving DecidableEq, Repr

/-- The part of the context of a request that its response is made from, and what has been written of it. -/
structure AsgiResponse where
  state : AsgiState := .pending
  statusCode : Nat := 500
  responseHeaders : List Bytes := []
  hasLength : Bool := false
  hasBody : Bool := true
  output : Bytes := []
deriving DecidableEq, Repr

/-- What the handler knows of a request, that it writes the response with. -/
structure AsgiRequest where
  description : Description
  version : HttpVersion
  keepAlive : Bool
  method : Nat

/-- A message of an application. A status that is not a number, an item of the headers that is not a pair of byte strings
and a body that is not a byte string are none. -/
inductive AsgiMessage where
  | start (status : Option Int) (headers : List (Option (Bytes × Bytes)))
  | body (data : Option Bytes) (moreBody : Bool)
  | other
deriving DecidableEq, Repr

/-- The messages of a task, which is cancelled in the end, or returns or raises an exception. -/
structure AsgiTask where
  sent : List AsgiMessage
  cancelled : Bool
deriving DecidableEq, Repr

/-- The messages that are sent while the application is called, and the task that comes of the call. -/
structure AsgiRun where
  called : List AsgiMessage
  task : Option AsgiTask
deriving DecidableEq, Repr

def isValidHandlerAsgi (value : Bytes) : Bool := value.all fun byte => ¬ (byte < 32 ∨ byte = 127)

def isLengthHandlerAsgi (name : Bytes) : Bool := name.map lowerOctet = contentLengthName

def statusHandlerAsgi (statusCode : Nat) : Bytes :=
  ((httpStatusCodes[statusCode / 100 - 1]?).bind (·[statusCode % 100]?)).getD (bytes "Unknown")

/-- Writes data, as a chunk where the length has not been announced, and the last chunk where it is the last. -/
def writeHandlerAsgi (data : Bytes) (last : Bool) (c : AsgiResponse) : AsgiResponse :=
  let buffer :=
    if c.hasLength then data else (if data = [] then [] else chunk data) ++ (if last then lastChunk else [])
  { c with output := c.output ++ buffer }

/-- The head, in a buffer of its size. -/
def headHandlerAsgi (request : AsgiRequest) (c : AsgiResponse) : Bytes :=
  let bufferSize := httpMaxSize + (c.responseHeaders.map (·.length + 2)).sum
  let buffer := writeStatusHttp request.description request.version c.statusCode (statusHandlerAsgi c.statusCode)
    request.keepAlive
  let buffer :=
    if c.hasLength then buffer
    else writeFieldHttp bufferSize buffer (bytes "Transfer-Encoding") (bytes "chunked")
  let buffer := c.responseHeaders.foldl (writeLineHttp bufferSize) buffer
  writeEndHttp bufferSize buffer

def sendHeadersHandlerAsgi (request : AsgiRequest) (c : AsgiResponse) : AsgiResponse :=
  { c with output := c.output ++ headHandlerAsgi request c }

def addHeader (name value : Bytes) (c : AsgiResponse) : AsgiResponse :=
  { c with responseHeaders := c.responseHeaders ++ [fieldLine name value]
           hasLength := c.hasLength || isLengthHandlerAsgi name }

/-- The loop over the headers; it ends in an error, or where there is no room for more. -/
def setHeaders : List (Option (Bytes × Bytes)) → AsgiResponse → AsgiResponse × Bool
  | [], c => (c, true)
  | item :: headers, c =>
      if c.responseHeaders.length ≥ asgiMaxHeaders then (c, true)
      else
        match item with
        | none => (c, false)
        | some (name, value) =>
            if isValidHandlerAsgi name ∧ isValidHandlerAsgi value then setHeaders headers (addHeader name value c)
            else (c, false)

/-- The status of a response; one that has no body is remembered as such. -/
def setStatus (statusCode : Nat) (c : AsgiResponse) : AsgiResponse :=
  { c with statusCode, hasBody := c.hasBody && !(statusCode = 204 ∨ statusCode = 304) }

/-- Starts a response, and gives back whether no exception has been raised. -/
def startHandlerAsgi (status : Option Int) (headers : List (Option (Bytes × Bytes))) (c : AsgiResponse) :
    AsgiResponse × Bool :=
  if c.state ≠ .pending then (c, false)
  else
    match status with
    | none => (c, false)
    | some statusCode =>
        if statusCode < 100 ∨ statusCode > 599 then (c, false)
        else
          let (c, complete) := setHeaders headers (setStatus statusCode.toNat c)
          if complete then ({ c with hasLength := c.hasLength || !c.hasBody, state := .started }, true) else (c, false)

/-- Sends a part of the body, behind the head if it is the first. -/
def bodyHandlerAsgi (request : AsgiRequest) (data : Option Bytes) (moreBody : Bool) (c : AsgiResponse) :
    AsgiResponse × Bool :=
  if c.state = .pending ∨ c.state = .complete then (c, false)
  else
    match data with
    | none => (c, false)
    | some bodyData =>
        let c := if c.state = .started then sendHeadersHandlerAsgi request c else c
        let c := { c with state := if moreBody then .headers else .complete }
        (writeHandlerAsgi (if c.hasBody then bodyData else []) (!moreBody) c, true)

/-- Sends a message, and gives back whether no exception has been raised. -/
def sendHandlerAsgi (request : AsgiRequest) (c : AsgiResponse) : AsgiMessage → AsgiResponse × Bool
  | .start status headers => startHandlerAsgi status headers c
  | .body data moreBody => bodyHandlerAsgi request data moreBody c
  | .other => (c, false)

/-- Sends messages one after another; an application goes on behind an exception that it catches. -/
def AsgiResponse.sends (request : AsgiRequest) (c : AsgiResponse) (messages : List AsgiMessage) : AsgiResponse :=
  messages.foldl (fun c message => (sendHandlerAsgi request c message).1) c

def lengthHeader (body : Bytes) : Bytes := fieldLine (bytes "Content-Length") (numeral 10 body.length)

/-- Writes a response of the server. -/
def sendStatusHandlerAsgi (request : AsgiRequest) (statusCode : Nat) (body : Bytes) (c : AsgiResponse) : AsgiResponse :=
  let c := { c with statusCode, hasLength := true, hasBody := true, responseHeaders := [lengthHeader body] }
  let c := sendHeadersHandlerAsgi request c
  writeHandlerAsgi body true { c with state := .complete }

def sendErrorHandlerAsgi (request : AsgiRequest) (c : AsgiResponse) : AsgiResponse :=
  sendStatusHandlerAsgi request 500 asgiErrorBody c

/-- What is done once the task has ended. -/
def AsgiResponse.doneHandlerAsgi (request : AsgiRequest) (cancelled : Bool) (c : AsgiResponse) : AsgiResponse :=
  if cancelled then c
  else if c.state = .pending then sendErrorHandlerAsgi request c
  else if c.state ≠ .complete then
    let c := if c.state = .started then sendHeadersHandlerAsgi request c else c
    writeHandlerAsgi [] true { c with state := .complete }
  else c

/-- Calls the application for a request, up to the end of its task. -/
def callApplicationHandlerAsgi (request : AsgiRequest) (overflow : Bool) (run : AsgiRun) : AsgiResponse :=
  let c : AsgiResponse := { hasBody := request.method ≠ httpHead }
  let c := c.sends request run.called
  let sent := run.task.elim [] AsgiTask.sent
  -- the task of a request that is refused is there all the same, and may send
  if overflow then (sendStatusHandlerAsgi request 413 asgiLargeBody c).sends request sent
  else
    match run.task with
    | none => sendErrorHandlerAsgi request c
    | some task => (c.sends request task.sent).doneHandlerAsgi request task.cancelled

/-! ## What the context keeps -/

/-- The lines of the context are fields without control characters, and there are no more than there is room for. A length
that is announced is one of the lines, if the response has a body. -/
structure AsgiResponse.Sane (c : AsgiResponse) : Prop where
  headers : ∀ header ∈ c.responseHeaders, IsText header
  count : c.responseHeaders.length ≤ asgiMaxHeaders
  code : 100 ≤ c.statusCode ∧ c.statusCode ≤ 599
  announced : c.hasLength = true → c.hasBody = true →
    ∃ name value, isLengthHandlerAsgi name = true ∧ fieldLine name value ∈ c.responseHeaders
  silent : c.state ≠ .pending → c.hasBody = false → c.hasLength = true

theorem isText_of_validAsgi {value : Bytes} (h : isValidHandlerAsgi value = true) : IsText value := by
  rw [isValidHandlerAsgi, List.all_eq_true] at h
  constructor
  · intro hmem
    exact absurd (h 13 hmem) (by decide)
  · intro hmem
    exact absurd (h 10 hmem) (by decide)

theorem addHeader_sane {c : AsgiResponse} {name value : Bytes} (h : c.Sane) (hname : isValidHandlerAsgi name = true)
    (hvalue : isValidHandlerAsgi value = true) (hroom : c.responseHeaders.length < asgiMaxHeaders) :
    (addHeader name value c).Sane := by
  have hline := isText_fieldLine (isText_of_validAsgi hname) (isText_of_validAsgi hvalue)
  refine ⟨?_, ?_, h.code, ?_, ?_⟩
  · intro header hmem
    rcases List.mem_append.mp hmem with hmem | hmem
    · exact h.headers header hmem
    · rw [List.mem_singleton.mp hmem]
      exact hline
  · rw [addHeader, List.length_append, List.length_singleton]
    omega
  · intro hlength hbody
    simp only [addHeader, Bool.or_eq_true] at hlength
    rcases hlength with hlength | hlength
    · obtain ⟨name', value', hname', hmem⟩ := h.announced hlength hbody
      exact ⟨name', value', hname', List.mem_append_left _ hmem⟩
    · exact ⟨name, value, hlength, List.mem_append_right _ (List.mem_singleton_self _)⟩
  · intro hstate hbody
    simp [addHeader, h.silent hstate hbody]

theorem setHeaders_sane {headers : List (Option (Bytes × Bytes))} {c : AsgiResponse} (h : c.Sane) :
    (setHeaders headers c).1.Sane := by
  induction headers generalizing c with
  | nil => exact h
  | cons item headers ih =>
      unfold setHeaders
      by_cases hfull : c.responseHeaders.length ≥ asgiMaxHeaders
      · rw [if_pos hfull]
        exact h
      · rw [if_neg hfull]
        cases item with
        | none => exact h
        | some pair =>
            obtain ⟨name, value⟩ := pair
            by_cases hvalid : isValidHandlerAsgi name ∧ isValidHandlerAsgi value
            · simp only [if_pos hvalid]
              exact ih (addHeader_sane h hvalid.1 hvalid.2 (Nat.not_le.mp hfull))
            · simp only [if_neg hvalid]
              exact h

/-- The loop over the headers writes nothing, and leaves the state and the status. -/
theorem setHeaders_frame (headers : List (Option (Bytes × Bytes))) (c : AsgiResponse) :
    (setHeaders headers c).1.state = c.state ∧ (setHeaders headers c).1.output = c.output := by
  induction headers generalizing c with
  | nil => exact ⟨rfl, rfl⟩
  | cons item headers ih =>
      unfold setHeaders
      split
      · exact ⟨rfl, rfl⟩
      · cases item with
        | none => exact ⟨rfl, rfl⟩
        | some pair =>
            obtain ⟨name, value⟩ := pair
            dsimp only
            split
            · exact ih _
            · exact ⟨rfl, rfl⟩

theorem setStatus_sane {c : AsgiResponse} {statusCode : Nat} (h : c.Sane) (hcode : 100 ≤ statusCode ∧ statusCode ≤ 599)
    (hstate : c.state = .pending) : (setStatus statusCode c).Sane := by
  refine ⟨h.headers, h.count, hcode, ?_, ?_⟩
  · intro hlength hbody
    simp only [setStatus, Bool.and_eq_true] at hbody
    exact h.announced hlength hbody.1
  · intro hstarted
    exact absurd hstate hstarted

/-- The context that a response is started in, where it is. -/
theorem start_cases (c : AsgiResponse) (status : Option Int)
    (headers : List (Option (Bytes × Bytes))) :
    (startHandlerAsgi status headers c).1 = c ∨
      c.state = .pending ∧ ∃ statusCode, (100 ≤ statusCode ∧ statusCode ≤ 599) ∧
        ((startHandlerAsgi status headers c).1 = (setHeaders headers (setStatus statusCode c)).1 ∨
          (startHandlerAsgi status headers c).1 =
            { (setHeaders headers (setStatus statusCode c)).1 with
              hasLength := (setHeaders headers (setStatus statusCode c)).1.hasLength ||
                !(setHeaders headers (setStatus statusCode c)).1.hasBody
              state := .started }) := by
  unfold startHandlerAsgi
  by_cases hpending : c.state = .pending
  · rw [if_neg (not_not_intro hpending)]
    cases status with
    | none => exact Or.inl rfl
    | some statusCode =>
        dsimp only
        by_cases hrange : statusCode < 100 ∨ statusCode > 599
        · rw [if_pos hrange]
          exact Or.inl rfl
        · rw [if_neg hrange]
          refine Or.inr ⟨hpending, statusCode.toNat, by omega, ?_⟩
          split
          · exact Or.inr rfl
          · exact Or.inl rfl
  · rw [if_pos hpending]
    exact Or.inl rfl

theorem start_sane {c : AsgiResponse} (h : c.Sane) (status : Option Int)
    (headers : List (Option (Bytes × Bytes))) : (startHandlerAsgi status headers c).1.Sane := by
  rcases start_cases c status headers with heq | ⟨hpending, statusCode, hcode, heq | heq⟩
  · rw [heq]
    exact h
  · rw [heq]
    exact setHeaders_sane (setStatus_sane h hcode hpending)
  · have hset : (setHeaders headers (setStatus statusCode c)).1.Sane :=
      setHeaders_sane (setStatus_sane h hcode hpending)
    rw [heq]
    refine ⟨hset.headers, hset.count, hset.code, ?_, ?_⟩
    · intro hlength hbody
      have hbody' : (setHeaders headers (setStatus statusCode c)).1.hasBody = true := hbody
      simp only [hbody', Bool.not_true, Bool.or_false] at hlength
      exact hset.announced hlength hbody'
    · intro _ hbody
      have hbody' : (setHeaders headers (setStatus statusCode c)).1.hasBody = false := hbody
      simp [hbody']

/-- A message that starts a response writes nothing, and leaves a response that is started. -/
theorem start_frame (c : AsgiResponse) (status : Option Int)
    (headers : List (Option (Bytes × Bytes))) :
    (startHandlerAsgi status headers c).1.output = c.output ∧
      (c.state ≠ .pending → (startHandlerAsgi status headers c).1 = c) ∧
      (c.state = .pending → (startHandlerAsgi status headers c).1.state = .pending ∨
        (startHandlerAsgi status headers c).1.state = .started) := by
  rcases start_cases c status headers with heq | ⟨hpending, statusCode, -, heq | heq⟩
  · rw [heq]
    exact ⟨rfl, fun _ => rfl, Or.inl⟩
  · obtain ⟨hstate, houtput⟩ := setHeaders_frame headers (setStatus statusCode c)
    rw [heq]
    exact ⟨houtput, fun hstarted => absurd hpending hstarted, fun _ => Or.inl (hstate.trans hpending)⟩
  · obtain ⟨hstate, houtput⟩ := setHeaders_frame headers (setStatus statusCode c)
    rw [heq]
    exact ⟨houtput, fun hstarted => absurd hpending hstarted, fun _ => Or.inr rfl⟩

theorem send_sane (request : AsgiRequest) {c : AsgiResponse} (h : c.Sane) (message : AsgiMessage) :
    (sendHandlerAsgi request c message).1.Sane := by
  cases message with
  | start status headers => exact start_sane h status headers
  | other => exact h
  | body data moreBody =>
      rw [sendHandlerAsgi]
      unfold bodyHandlerAsgi
      split
      · exact h
      · rename_i hopen
        cases data with
        | none => exact h
        | some data =>
            have hsilent := h.silent fun hpending => hopen (Or.inl hpending)
            dsimp only
            split
            · exact ⟨h.headers, h.count, h.code, h.announced, fun _ => hsilent⟩
            · exact ⟨h.headers, h.count, h.code, h.announced, fun _ => hsilent⟩

theorem sends_sane (request : AsgiRequest) {c : AsgiResponse} (h : c.Sane) (messages : List AsgiMessage) :
    (c.sends request messages).Sane := by
  induction messages generalizing c with
  | nil => exact h
  | cons message messages ih => exact ih (send_sane request h message)

end Viriatum
