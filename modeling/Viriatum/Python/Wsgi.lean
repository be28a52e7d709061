import Viriatum.Commons.Integers
import Viriatum.Http.Writer

/-!
# Responses of WSGI applications

The callables that an application sets its response with, and the response that is sent once the application has
returned or failed. What an application does is the list of the calls it makes.
-/

namespace Viriatum

open Http2Connection Library

def pythonMaxHeaders : Nat := 64

def pythonLargeStatus : Bytes := bytes "Payload Too Large"

def internalServerError : Bytes := bytes "Internal Server Error"

/-- The context of a request to an application. -/
structure WsgiContext where
  statusCode : Nat := 0
  statusMessage : Option Bytes := none
  responseHeaders : List Bytes := []
  started : Bool := false
  written : Bytes := []
deriving DecidableEq, Repr

/-- A call of an application. A status that is not a string, and an item of the headers that is not a pair of strings, are
none. -/
inductive WsgiCall where
  | startResponse (status : Option Bytes) (headers : List (Option (Bytes × Bytes))) (excInfo : Bool)
  | write (data : Bytes)
deriving DecidableEq, Repr

/-- What comes of the result of an application: the calls that are made while the items of it are gathered, the items
joined if they can be, and the calls made while it is closed. -/
structure WsgiResult where
  iterated : List WsgiCall
  joined : Option Bytes
  closed : List WsgiCall
deriving DecidableEq, Repr

/-- The calls that are made until the application returns a result or raises an exception. -/
structure WsgiRun where
  called : List WsgiCall
  result : Option WsgiResult
deriving DecidableEq, Repr

def isValidHandlerPython (value : Bytes) : Bool := value.all fun byte => ¬ (byte < 32 ∨ byte = 127)

/-- Whether the name before the separator of a line is the one of the length. -/
def isLengthHandlerPython (header : Bytes) : Bool :=
  (header.take contentLengthName.length).map lowerOctet = contentLengthName ∧ header[contentLengthName.length]? = some 58

/-- The code and the message of a status, if it is a valid one. -/
def parseStatus (status : Option Bytes) : Option (Nat × Bytes) := do
  let statusValue := cString (← status)
  if isValidHandlerPython statusValue then do
    let statusCode ← strtol statusValue
    if statusCode < 100 ∨ statusCode > 599 then none
    else some (statusCode.toNat, (statusValue.dropWhile (· ≠ 32)).drop 1)
  else none

/-- The loop over the headers; it ends in an error, or where there is no room for more. -/
def startHeaders : List (Option (Bytes × Bytes)) → WsgiContext → WsgiContext × Bool
  | [], c => (c, true)
  | item :: headers, c =>
      if c.responseHeaders.length ≥ pythonMaxHeaders then (c, true)
      else
        match item with
        | none => (c, false)
        | some (name, value) =>
            if isValidHandlerPython (cString name) ∧ isValidHandlerPython (cString value) then
              startHeaders headers
                { c with responseHeaders := c.responseHeaders ++ [fieldLine (cString name) (cString value)] }
            else (c, false)

/-- Discards the headers that have been set, for a response that is started anew. -/
def discardHeaders (excInfo : Bool) (c : WsgiContext) : WsgiContext :=
  if excInfo then { c with responseHeaders := [] } else c

/-- Starts a response, and gives back whether no exception has been raised. -/
def startResponseHandlerPython (status : Option Bytes) (headers : List (Option (Bytes × Bytes))) (excInfo : Bool)
    (c : WsgiContext) : WsgiContext × Bool :=
  if excInfo ∧ c.started then (c, false)
  else
    let c := discardHeaders excInfo c
    match parseStatus status with
    | none => (c, false)
    | some (statusCode, statusMessage) =>
        let (c, complete) := startHeaders headers { c with statusCode, statusMessage := some statusMessage }
        if complete then ({ c with started := true }, true) else (c, false)

def writeHandlerPython (data : Bytes) (c : WsgiContext) : WsgiContext := { c with written := c.written ++ data }

/-- A call of the application, which has a callable to write with once it has started a response. -/
def WsgiContext.call (c : WsgiContext) : WsgiCall → WsgiContext
  | .startResponse status headers excInfo => (startResponseHandlerPython status headers excInfo c).1
  | .write data => if c.started then writeHandlerPython data c else c

def WsgiContext.calls (c : WsgiContext) (calls : List WsgiCall) : WsgiContext := calls.foldl WsgiContext.call c

/-- Joins the items of a result and closes it. -/
def joinResultPython (result : WsgiResult) (c : WsgiContext) : WsgiContext × Bytes :=
  let c := c.calls result.iterated
  match result.joined with
  | none => (({ c with statusCode := 500 }).calls result.closed, [])
  | some body => (c.calls result.closed, body)

/-- Calls the application for a request that does not exceed the limit, and gathers the body. -/
def callApplicationPython (overflow : Bool) (run : WsgiRun) : WsgiContext × Bytes :=
  let c : WsgiContext := { statusCode := 500 }
  if overflow then ({ c with statusCode := 413, statusMessage := some pythonLargeStatus }, [])
  else
    let c := c.calls run.called
    match run.result with
    | none => ({ c with statusCode := 500, responseHeaders := [] }, [])
    | some result => joinResultPython result c

/-- The head of the response for what the application has left, in a buffer of its size. -/
def writeHeadersPython (description : Description) (version : HttpVersion) (keepAlive : Bool) (c : WsgiContext)
    (bodyTotal : Nat) : Bytes :=
  let headersSize := (c.statusMessage.elim 0 List.length) + (c.responseHeaders.map (·.length + 2)).sum
  let bufferSize := httpMaxSize + headersSize + bodyTotal
  let buffer := writeStatusHttp description version c.statusCode (c.statusMessage.getD internalServerError) keepAlive
  let buffer :=
    if c.responseHeaders.any isLengthHandlerPython then buffer
    else writeFieldHttp bufferSize buffer (bytes "Content-Length") (numeral 10 bodyTotal)
  let buffer := c.responseHeaders.foldl (writeLineHttp bufferSize) buffer
  writeEndHttp bufferSize buffer

/-- The head and the payload of the response, as they are written to the connection. -/
def sendResponseHandlerPython (description : Description) (version : HttpVersion) (keepAlive overflow : Bool)
    (run : WsgiRun) : Bytes :=
  let (c, body) := callApplicationPython overflow run
  writeHeadersPython description version keepAlive c (c.written.length + body.length) ++ (c.written ++ body)

/-! ## What the context keeps -/

/-- The lines of the context are fields without control characters, and there are no more than there is room for. -/
structure WsgiContext.Sane (c : WsgiContext) : Prop where
  message : ∀ message, c.statusMessage = some message → IsText message
  headers : ∀ header ∈ c.responseHeaders, IsText header
  count : c.responseHeaders.length ≤ pythonMaxHeaders
  code : 100 ≤ c.statusCode ∧ c.statusCode ≤ 599

theorem isText_of_valid {value : Bytes} (h : isValidHandlerPython value = true) : IsText value := by
  rw [isValidHandlerPython, List.all_eq_true] at h
  constructor
  · intro hmem
    exact absurd (h 13 hmem) (by decide)
  · intro hmem
    exact absurd (h 10 hmem) (by decide)

theorem parseStatus_some {status : Option Bytes} {statusCode : Nat} {statusMessage : Bytes}
    (h : parseStatus status = some (statusCode, statusMessage)) :
    (100 ≤ statusCode ∧ statusCode ≤ 599) ∧ IsText statusMessage := by
  cases status with
  | none => simp [parseStatus] at h
  | some value =>
      simp only [parseStatus, Option.bind_eq_bind, Option.bind_some] at h
      by_cases hvalid : isValidHandlerPython (cString value)
      · rw [if_pos hvalid] at h
        cases hcode : strtol (cString value) with
        | none => simp [hcode] at h
        | some code =>
            simp only [hcode, Option.bind_some] at h
            by_cases hrange : code < 100 ∨ code > 599
            · rw [if_pos hrange] at h
              cases h
            · rw [if_neg hrange, Option.some.injEq, Prod.mk.injEq] at h
              refine ⟨by omega, ?_⟩
              rw [← h.2]
              exact isText_sublist (isText_of_valid hvalid)
                ((List.drop_sublist _ _).trans (List.dropWhile_sublist _))
      · rw [if_neg hvalid] at h
        cases h

theorem startHeaders_sane {headers : List (Option (Bytes × Bytes))} {c : WsgiContext} (h : c.Sane) :
    (startHeaders headers c).1.Sane := by
  induction headers generalizing c with
  | nil => exact h
  | cons item headers ih =>
      unfold startHeaders
      by_cases hfull : c.responseHeaders.length ≥ pythonMaxHeaders
      · rw [if_pos hfull]
        exact h
      · rw [if_neg hfull]
        cases item with
        | none => exact h
        | some pair =>
            obtain ⟨name, value⟩ := pair
            by_cases hvalid : isValidHandlerPython (cString name) ∧ isValidHandlerPython (cString value)
            · simp only [if_pos hvalid]
              apply ih
              have hline := isText_fieldLine (isText_of_valid hvalid.1) (isText_of_valid hvalid.2)
              refine ⟨h.message, ?_, ?_, h.code⟩
              · intro header hmem
                rcases List.mem_append.mp hmem with hmem | hmem
                · exact h.headers header hmem
                · rw [List.mem_singleton.mp hmem]
                  exact hline
              · rw [List.length_append, List.length_singleton]
                omega
            · simp only [if_neg hvalid]
              exact h

/-- The loop over the headers leaves everything but them. -/
theorem startHeaders_frame (headers : List (Option (Bytes × Bytes))) (c : WsgiContext) :
    (startHeaders headers c).1.statusCode = c.statusCode ∧ (startHeaders headers c).1.statusMessage = c.statusMessage ∧
      (startHeaders headers c).1.written = c.written := by
  induction headers generalizing c with
  | nil => exact ⟨rfl, rfl, rfl⟩
  | cons item headers ih =>
      unfold startHeaders
      split
      · exact ⟨rfl, rfl, rfl⟩
      · cases item with
        | none => exact ⟨rfl, rfl, rfl⟩
        | some pair =>
            obtain ⟨name, value⟩ := pair
            dsimp only
            split
            · exact ih _
            · exact ⟨rfl, rfl, rfl⟩

theorem discardHeaders_sane {c : WsgiContext} (h : c.Sane) (excInfo : Bool) : (discardHeaders excInfo c).Sane := by
  cases excInfo with
  | false => exact h
  | true => exact ⟨h.message, by simp [discardHeaders], Nat.zero_le _, h.code⟩

theorem startResponse_sane {status : Option Bytes} {headers : List (Option (Bytes × Bytes))} {excInfo : Bool}
    {c : WsgiContext} (h : c.Sane) : (startResponseHandlerPython status headers excInfo c).1.Sane := by
  have hdiscarded := discardHeaders_sane h excInfo
  rw [startResponseHandlerPython]
  by_cases hrefused : excInfo ∧ c.started
  · rw [if_pos hrefused]
    exact h
  · rw [if_neg hrefused]
    cases hstatus : parseStatus status with
    | none => exact hdiscarded
    | some parsed =>
        obtain ⟨statusCode, statusMessage⟩ := parsed
        obtain ⟨hcode, hmessage⟩ := parseStatus_some hstatus
        have hset : (startHeaders headers
            { discardHeaders excInfo c with statusCode, statusMessage := some statusMessage }).1.Sane :=
          startHeaders_sane ⟨fun message heq => by cases heq; exact hmessage, hdiscarded.headers, hdiscarded.count, hcode⟩
        dsimp only
        split
        · exact ⟨hset.message, hset.headers, hset.count, hset.code⟩
        · exact hset

theorem WsgiContext.Sane.call {c : WsgiContext} (h : c.Sane) (call : WsgiCall) : (c.call call).Sane := by
  cases call with
  | startResponse status headers excInfo => exact startResponse_sane h
  | write data =>
      rw [WsgiContext.call]
      split
      · exact ⟨h.message, h.headers, h.count, h.code⟩
      · exact h

theorem WsgiContext.Sane.calls {c : WsgiContext} (h : c.Sane) (calls : List WsgiCall) : (c.calls calls).Sane := by
  induction calls generalizing c with
  | nil => exact h
  | cons call calls ih => exact ih (h.call call)

theorem joinResultPython_sane {c : WsgiContext} (h : c.Sane) (result : WsgiResult) :
    (joinResultPython result c).1.Sane := by
  have hiterated := h.calls result.iterated
  have hfailed : ({ c.calls result.iterated with statusCode := 500 } : WsgiContext).Sane :=
    ⟨hiterated.message, hiterated.headers, hiterated.count, by simp⟩
  rw [joinResultPython]
  cases result.joined with
  | none => exact hfailed.calls result.closed
  | some body => exact hiterated.calls result.closed

theorem callApplicationPython_sane (overflow : Bool) (run : WsgiRun) : (callApplicationPython overflow run).1.Sane := by
  have hfresh : ({ statusCode := 500 } : WsgiContext).Sane := ⟨by simp, by simp, Nat.zero_le _, by decide⟩
  have hcalled := hfresh.calls run.called
  rw [callApplicationPython]
  cases overflow with
  | true => exact ⟨fun message heq => by cases heq; decide, by simp, Nat.zero_le _, by simp⟩
  | false =>
      simp only [Bool.false_eq_true, if_false]
      cases run.result with
      | none => exact ⟨hcalled.message, by simp, Nat.zero_le _, by simp⟩
      | some result => exact joinResultPython_sane hcalled result

end Viriatum
