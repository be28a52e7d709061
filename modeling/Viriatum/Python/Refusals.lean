import Viriatum.Library.Refusals
import Viriatum.Python.Asgi
import Viriatum.Python.Wsgi

/-!
# Calls of an application that are refused

What a message or a call that is refused leaves behind. The arguments are checked while they are stored: a start that is
refused at one of its headers has set the status already, and the headers before that one.
-/

namespace Viriatum

open Library

/-! ## Messages of an ASGI application -/

/-- A header is no pair of byte strings, or has a control character in its name or in its value. -/
def MalformedAsgi : Option (Bytes × Bytes) → Prop
  | none => True
  | some (name, value) => ¬ (isValidHandlerAsgi name ∧ isValidHandlerAsgi value)

instance : DecidablePred MalformedAsgi
  | none => .isTrue trivial
  | some (name, value) => inferInstanceAs (Decidable (¬ (isValidHandlerAsgi name ∧ isValidHandlerAsgi value)))

def addHeaderAsgi (c : AsgiResponse) (header : Option (Bytes × Bytes)) : AsgiResponse :=
  header.elim c fun (name, value) => addHeader name value c

/-- A start that is refused at one of the headers that there is room for is refused at the first of them, and repeats the
status that has been set before. -/
def AsgiResponse.Spared (c : AsgiResponse) : AsgiMessage → Prop
  | .start (some status) headers =>
      c.state = .pending → 100 ≤ status → status ≤ 599 →
        (∃ header ∈ headers.take (asgiMaxHeaders - c.responseHeaders.length), MalformedAsgi header) →
          (status.toNat = c.statusCode ∧ (c.hasBody → status ≠ 204 ∧ status ≠ 304)) ∧ headers.head?.any MalformedAsgi
  | _ => True

theorem setHeaders_eq_fill (headers : List (Option (Bytes × Bytes))) (c : AsgiResponse) :
    setHeaders headers c =
      fill asgiMaxHeaders (fun c => c.responseHeaders.length) MalformedAsgi addHeaderAsgi headers c := by
  induction headers generalizing c with
  | nil => rfl
  | cons header headers ih =>
      cases header with
      | none => simp [setHeaders, fill, MalformedAsgi]
      | some pair =>
          obtain ⟨name, value⟩ := pair
          rw [setHeaders, fill]
          split
          · rfl
          · by_cases hmalformed : MalformedAsgi (some (name, value))
            · rw [if_neg hmalformed, if_pos hmalformed]
            · rw [if_pos (not_not.mp hmalformed), if_neg hmalformed, ih]
              rfl

theorem length_addHeaderAsgi (c : AsgiResponse) (header : Option (Bytes × Bytes)) (h : ¬ MalformedAsgi header) :
    (addHeaderAsgi c header).responseHeaders.length = c.responseHeaders.length + 1 := by
  cases header with
  | none => exact absurd trivial h
  | some pair => simp [addHeaderAsgi, addHeader]

/-- The status that is set is the one that there was. -/
theorem setStatus_eq {status : Int} {c : AsgiResponse} :
    setStatus status.toNat c = c ↔ status.toNat = c.statusCode ∧ (c.hasBody → status ≠ 204 ∧ status ≠ 304) := by
  have h204 : status.toNat = 204 ↔ status = 204 := by omega
  have h304 : status.toNat = 304 ↔ status = 304 := by omega
  cases c with
  | mk state statusCode responseHeaders hasLength hasBody output =>
      simp only [setStatus, h204, h304, AsgiResponse.mk.injEq, true_and, and_true]
      cases hasBody <;> simp

/-- A loop over the headers that ends in an error leaves the context where the first header is the malformed one and the
status is the one that there was. -/
theorem setHeaders_eq_self {status : Int} {headers : List (Option (Bytes × Bytes))} {c : AsgiResponse}
    (h : ∃ header ∈ headers.take (asgiMaxHeaders - c.responseHeaders.length), MalformedAsgi header) :
    (setHeaders headers (setStatus status.toNat c)).1 = c ↔
      (status.toNat = c.statusCode ∧ (c.hasBody → status ≠ 204 ∧ status ≠ 304)) ∧ headers.head?.any MalformedAsgi := by
  rw [← setStatus_eq, setHeaders_eq_fill, fill_eq length_addHeaderAsgi]
  dsimp only
  obtain ⟨stored, hstored⟩ : ∃ stored, stored =
    filled asgiMaxHeaders (fun c => c.responseHeaders.length) MalformedAsgi headers (setStatus status.toNat c) := ⟨_, rfl⟩
  have hnil : stored = [] ↔ headers.head?.any MalformedAsgi := hstored ▸ filled_eq_nil h
  have hvalid : ∀ header ∈ stored, ¬ MalformedAsgi header := fun header hmem =>
    not_malformed_of_filled (hstored ▸ hmem)
  rw [← hstored, ← hnil]
  constructor
  · intro heq
    have hlength : (stored.foldl addHeaderAsgi (setStatus status.toNat c)).responseHeaders.length =
        c.responseHeaders.length + stored.length :=
      count_foldl (fun c => c.responseHeaders.length) length_addHeaderAsgi hvalid (setStatus status.toNat c)
    have hempty : stored = [] := by
      rw [heq] at hlength
      exact List.length_eq_zero_iff.mp (Nat.add_eq_left.mp hlength.symm)
    rw [hempty] at heq
    exact ⟨heq, hempty⟩
  · rintro ⟨hstatus, rfl⟩
    exact hstatus

theorem setHeaders_refused (headers : List (Option (Bytes × Bytes))) (c : AsgiResponse) :
    (setHeaders headers c).2 = false ↔
      ∃ header ∈ headers.take (asgiMaxHeaders - c.responseHeaders.length), MalformedAsgi header := by
  rw [setHeaders_eq_fill, fill_eq length_addHeaderAsgi]
  simp

theorem traceless_asgi (request : AsgiRequest) (c : AsgiResponse) (message : AsgiMessage) :
    Traceless (sendHandlerAsgi request) c message ↔ c.Spared message := by
  cases message with
  | other => exact iff_of_true (fun _ => rfl) trivial
  | body data moreBody =>
      refine iff_of_true (fun hrefused => ?_) trivial
      simp only [proceed, sendHandlerAsgi, bodyHandlerAsgi] at hrefused ⊢
      split at hrefused
      · rename_i hclosed
        rw [if_pos hclosed]
      · rename_i hopen
        cases data with
        | none => rw [if_neg hopen]
        | some data => cases hrefused
  | start status headers =>
      cases status with
      | none =>
          refine iff_of_true (fun _ => ?_) trivial
          simp only [proceed, sendHandlerAsgi, startHandlerAsgi]
          split <;> rfl
      | some status =>
          rw [Traceless, AsgiResponse.Spared, proceed, sendHandlerAsgi, startHandlerAsgi]
          by_cases hpending : c.state = .pending
          · rw [if_neg (not_not_intro hpending)]
            dsimp only
            by_cases hrange : status < 100 ∨ status > 599
            · rw [if_pos hrange]
              exact iff_of_true (fun _ => rfl) fun _ hlow hhigh => by omega
            · have hlow : 100 ≤ status := by omega
              have hhigh : status ≤ 599 := by omega
              have hrefused : (setHeaders headers (setStatus status.toNat c)).2 = false ↔
                  ∃ header ∈ headers.take (asgiMaxHeaders - c.responseHeaders.length), MalformedAsgi header :=
                setHeaders_refused headers (setStatus status.toNat c)
              rw [if_neg hrange]
              simp only [hpending, hlow, hhigh, forall_const]
              cases hset : (setHeaders headers (setStatus status.toNat c)).2 with
              | true =>
                  rw [if_pos rfl]
                  refine iff_of_true (by simp) fun hmalformed => ?_
                  cases hset.symm.trans (hrefused.mpr hmalformed)
              | false =>
                  have hmalformed := hrefused.mp hset
                  rw [if_neg Bool.false_ne_true, ← setHeaders_eq_self hmalformed]
                  exact ⟨fun h _ => h rfl, fun h _ => h hmalformed⟩
          · rw [if_pos hpending]
            exact iff_of_true (fun _ => rfl) fun h => absurd h hpending

/-! ## Runs of an ASGI application -/

namespace AsgiRun

/-- The context that the messages of a task come to. -/
def resumed (request : AsgiRequest) (overflow : Bool) (run : AsgiRun) : AsgiResponse :=
  let c := AsgiResponse.sends request { hasBody := request.method ≠ httpHead } run.called
  if overflow then sendStatusHandlerAsgi request 413 asgiLargeBody c else c

/-- What holds of each message of a run, in the context that it comes to. -/
def EachMessage (P : AsgiResponse → AsgiMessage → Prop) (request : AsgiRequest) (overflow : Bool) (run : AsgiRun) : Prop :=
  Throughout (proceed (sendHandlerAsgi request)) P { hasBody := request.method ≠ httpHead } run.called ∧
    Throughout (proceed (sendHandlerAsgi request)) P (run.resumed request overflow) (run.task.elim [] AsgiTask.sent)

/-- The run without the messages that are refused. -/
def accepted (request : AsgiRequest) (overflow : Bool) (run : AsgiRun) : AsgiRun where
  called := Library.accepted (sendHandlerAsgi request) { hasBody := request.method ≠ httpHead } run.called
  task := run.task.map fun task =>
    { task with sent := Library.accepted (sendHandlerAsgi request) (run.resumed request overflow) task.sent }

end AsgiRun

theorem sends_accepted {request : AsgiRequest} {c : AsgiResponse} {messages : List AsgiMessage}
    (h : Throughout (proceed (sendHandlerAsgi request)) (Traceless (sendHandlerAsgi request)) c messages) :
    c.sends request (accepted (sendHandlerAsgi request) c messages) = c.sends request messages :=
  foldl_accepted h

/-- No message that is refused leaves a trace in a run exactly where no start is refused behind a status of its own or
behind a header. Then the response is the one of the messages that are not refused. -/
theorem asgi_refusals_leave_nothing (request : AsgiRequest) (overflow : Bool) (run : AsgiRun) :
    (run.EachMessage (Traceless (sendHandlerAsgi request)) request overflow ↔
      run.EachMessage AsgiResponse.Spared request overflow) ∧
    (run.EachMessage (Traceless (sendHandlerAsgi request)) request overflow →
      callApplicationHandlerAsgi request overflow (run.accepted request overflow) =
        callApplicationHandlerAsgi request overflow run) := by
  refine ⟨and_congr (traceless_iff_throughout (traceless_asgi request) _)
    (traceless_iff_throughout (traceless_asgi request) _), ?_⟩
  rintro ⟨hcalled, hsent⟩
  have hcalled' := sends_accepted hcalled
  simp only [callApplicationHandlerAsgi, AsgiRun.accepted, hcalled']
  cases htask : run.task with
  | none => rfl
  | some task =>
      rw [htask] at hsent
      have hsent' := sends_accepted hsent
      simp only [AsgiRun.resumed] at hsent' ⊢
      cases overflow with
      | true =>
          simp only [if_true, Option.map_some, Option.elim_some] at hsent' ⊢
          exact hsent'
      | false =>
          simp only [Bool.false_eq_true, if_false, Option.map_some, Option.elim_some] at hsent' ⊢
          rw [hsent']

/-! ## Calls of a WSGI application -/

/-- A header is no pair of strings, or has a control character in its name or in its value. -/
def MalformedPython : Option (Bytes × Bytes) → Prop
  | none => True
  | some (name, value) => ¬ (isValidHandlerPython (Http2Connection.cString name) ∧
      isValidHandlerPython (Http2Connection.cString value))

instance : DecidablePred MalformedPython
  | none => .isTrue trivial
  | some (name, value) => inferInstanceAs (Decidable (¬ (isValidHandlerPython (Http2Connection.cString name) ∧
      isValidHandlerPython (Http2Connection.cString value))))

def headerLinePython (header : Option (Bytes × Bytes)) : List Bytes :=
  header.elim [] fun (name, value) => [fieldLine (Http2Connection.cString name) (Http2Connection.cString value)]

def addHeaderPython (c : WsgiContext) (header : Option (Bytes × Bytes)) : WsgiContext :=
  { c with responseHeaders := c.responseHeaders ++ headerLinePython header }

/-- A call, and whether no exception has been raised. -/
def callPython (c : WsgiContext) : WsgiCall → WsgiContext × Bool
  | .startResponse status headers excInfo => startResponseHandlerPython status headers excInfo c
  | .write data => (c.call (.write data), true)

/-- A start that is refused before it discards anything leaves nothing; where it is refused at its status there are no
headers to discard, and where it is refused at a header the status has been set before, and the headers are those before
that one. -/
def WsgiContext.Spared (c : WsgiContext) : WsgiCall → Prop
  | .startResponse status headers excInfo =>
      excInfo ∧ c.started ∨
        match parseStatus status with
        | none => excInfo → c.responseHeaders = []
        | some (statusCode, statusMessage) =>
            (∃ header ∈ headers.take (pythonMaxHeaders - (discardHeaders excInfo c).responseHeaders.length),
              MalformedPython header) →
            (statusCode = c.statusCode ∧ some statusMessage = c.statusMessage) ∧
              (discardHeaders excInfo c).responseHeaders ++
                (headers.takeWhile fun header => ¬ MalformedPython header).flatMap headerLinePython = c.responseHeaders
  | .write _ => True

theorem startHeaders_eq_fill (headers : List (Option (Bytes × Bytes))) (c : WsgiContext) :
    startHeaders headers c =
      fill pythonMaxHeaders (fun c => c.responseHeaders.length) MalformedPython addHeaderPython headers c := by
  induction headers generalizing c with
  | nil => rfl
  | cons header headers ih =>
      cases header with
      | none => simp [startHeaders, fill, MalformedPython]
      | some pair =>
          obtain ⟨name, value⟩ := pair
          rw [startHeaders, fill]
          split
          · rfl
          · by_cases hmalformed : MalformedPython (some (name, value))
            · rw [if_neg hmalformed, if_pos hmalformed]
            · rw [if_pos (not_not.mp hmalformed), if_neg hmalformed, ih]
              rfl

theorem length_addHeaderPython (c : WsgiContext) (header : Option (Bytes × Bytes)) (h : ¬ MalformedPython header) :
    (addHeaderPython c header).responseHeaders.length = c.responseHeaders.length + 1 := by
  cases header with
  | none => exact absurd trivial h
  | some pair => simp [addHeaderPython, headerLinePython]

theorem foldl_addHeaderPython (headers : List (Option (Bytes × Bytes))) (c : WsgiContext) :
    headers.foldl addHeaderPython c =
      { c with responseHeaders := c.responseHeaders ++ headers.flatMap headerLinePython } := by
  induction headers generalizing c with
  | nil => simp
  | cons header headers ih =>
      rw [List.foldl_cons, ih, List.flatMap_cons]
      simp [addHeaderPython]

theorem startHeaders_refused (headers : List (Option (Bytes × Bytes))) (c : WsgiContext) :
    (startHeaders headers c).2 = false ↔
      ∃ header ∈ headers.take (pythonMaxHeaders - c.responseHeaders.length), MalformedPython header := by
  rw [startHeaders_eq_fill, fill_eq length_addHeaderPython]
  simp

theorem startHeaders_of_malformed {headers : List (Option (Bytes × Bytes))} {c : WsgiContext}
    (h : ∃ header ∈ headers.take (pythonMaxHeaders - c.responseHeaders.length), MalformedPython header) :
    (startHeaders headers c).1 = { c with
      responseHeaders := c.responseHeaders ++
        (headers.takeWhile fun header => ¬ MalformedPython header).flatMap headerLinePython } := by
  have hfilled : filled pythonMaxHeaders (fun c : WsgiContext => c.responseHeaders.length) MalformedPython headers c =
      headers.takeWhile fun header => ¬ MalformedPython header := filled_of_malformed h
  rw [startHeaders_eq_fill, fill_eq length_addHeaderPython, foldl_addHeaderPython, hfilled]

theorem traceless_python (c : WsgiContext) (call : WsgiCall) : Traceless callPython c call ↔ c.Spared call := by
  cases call with
  | write data => exact iff_of_true (fun hrefused => by cases hrefused) trivial
  | startResponse status headers excInfo =>
      rw [Traceless, WsgiContext.Spared, proceed, callPython, startResponseHandlerPython]
      by_cases hagain : excInfo ∧ c.started
      · rw [if_pos hagain]
        exact iff_of_true (fun _ => rfl) (Or.inl hagain)
      · rw [if_neg hagain, or_iff_right hagain]
        cases hstatus : parseStatus status with
        | none =>
            cases c
            cases excInfo <;> simp [discardHeaders, eq_comm]
        | some parsed =>
            obtain ⟨statusCode, statusMessage⟩ := parsed
            obtain ⟨c', hc'⟩ : ∃ c', c' = discardHeaders excInfo c := ⟨_, rfl⟩
            have hkept : c'.started = c.started ∧ c'.written = c.written := by
              rw [hc']
              cases excInfo <;> exact ⟨rfl, rfl⟩
            have hrefused : (startHeaders headers { c' with statusCode, statusMessage := some statusMessage }).2 = false ↔
                ∃ header ∈ headers.take (pythonMaxHeaders - c'.responseHeaders.length), MalformedPython header :=
              startHeaders_refused headers _
            rw [← hc']
            dsimp only
            cases hset : (startHeaders headers { c' with statusCode, statusMessage := some statusMessage }).2 with
            | true =>
                rw [if_pos rfl]
                refine iff_of_true (by simp) fun hmalformed => ?_
                cases hset.symm.trans (hrefused.mpr hmalformed)
            | false =>
                have hmalformed := hrefused.mp hset
                have hleft := startHeaders_of_malformed (c := { c' with statusCode, statusMessage := some statusMessage })
                  hmalformed
                rw [if_neg Bool.false_ne_true, hleft]
                simp only [hmalformed, forall_const]
                cases c
                simp only [WsgiContext.mk.injEq, hkept, and_true, and_assoc]

/-! ## Runs of a WSGI application -/

theorem proceed_callPython (c : WsgiContext) (call : WsgiCall) : proceed callPython c call = c.call call := by
  cases call <;> rfl

theorem calls_eq_foldl (c : WsgiContext) (calls : List WsgiCall) : c.calls calls = calls.foldl (proceed callPython) c := by
  rw [WsgiContext.calls]
  congr 1
  funext c call
  exact (proceed_callPython c call).symm

theorem calls_accepted {c : WsgiContext} {calls : List WsgiCall}
    (h : Throughout (proceed callPython) (Traceless callPython) c calls) :
    c.calls (accepted callPython c calls) = c.calls calls := by
  rw [calls_eq_foldl, calls_eq_foldl, foldl_accepted h]

namespace WsgiResult

/-- The context that a result is closed in. -/
def closing (result : WsgiResult) (c : WsgiContext) : WsgiContext :=
  if result.joined = none then { c.calls result.iterated with statusCode := 500 } else c.calls result.iterated

def EachCall (P : WsgiContext → WsgiCall → Prop) (c : WsgiContext) (result : WsgiResult) : Prop :=
  Throughout (proceed callPython) P c result.iterated ∧ Throughout (proceed callPython) P (result.closing c) result.closed

def accepted (c : WsgiContext) (result : WsgiResult) : WsgiResult where
  iterated := Library.accepted callPython c result.iterated
  joined := result.joined
  closed := Library.accepted callPython (result.closing c) result.closed

end WsgiResult

namespace WsgiRun

/-- What holds of each call of a run, in the context that it comes to. -/
def EachCall (P : WsgiContext → WsgiCall → Prop) (run : WsgiRun) : Prop :=
  Throughout (proceed callPython) P { statusCode := 500 } run.called ∧
    ∀ result, run.result = some result → result.EachCall P (WsgiContext.calls { statusCode := 500 } run.called)

/-- The run without the calls that are refused. -/
def accepted (run : WsgiRun) : WsgiRun where
  called := Library.accepted callPython { statusCode := 500 } run.called
  result := run.result.map (WsgiResult.accepted (WsgiContext.calls { statusCode := 500 } run.called))

end WsgiRun

theorem joinResultPython_accepted {c : WsgiContext} {result : WsgiResult} (h : result.EachCall (Traceless callPython) c) :
    joinResultPython (result.accepted c) c = joinResultPython result c := by
  obtain ⟨hiterated, hclosed⟩ := h
  have hiterated' := calls_accepted hiterated
  have hclosed' := calls_accepted hclosed
  rw [WsgiResult.closing] at hclosed'
  simp only [joinResultPython, WsgiResult.accepted, WsgiResult.closing, hiterated']
  cases hjoined : result.joined with
  | none =>
      rw [if_pos hjoined] at hclosed'
      simp only [if_true, hclosed']
  | some body =>
      rw [if_neg (by simp [hjoined])] at hclosed'
      simp only [reduceCtorEq, if_false, hclosed']

/-- No call that is refused leaves a trace in a run exactly where no start is refused behind what it has changed. Then the
response is the one of the calls that are not refused. -/
theorem wsgi_refusals_leave_nothing (description : Description) (version : HttpVersion) (keepAlive overflow : Bool)
    (run : WsgiRun) :
    (run.EachCall (Traceless callPython) ↔ run.EachCall WsgiContext.Spared) ∧
    (run.EachCall (Traceless callPython) →
      sendResponseHandlerPython description version keepAlive overflow run.accepted =
        sendResponseHandlerPython description version keepAlive overflow run) := by
  have hiff := fun c calls => traceless_iff_throughout (s := c) traceless_python calls
  constructor
  · refine and_congr (hiff _ _) (forall_congr' fun result => imp_congr Iff.rfl ?_)
    exact and_congr (hiff _ _) (hiff _ _)
  · rintro ⟨hcalled, hresult⟩
    have hcall : callApplicationPython overflow run.accepted = callApplicationPython overflow run := by
      have hcalled' := calls_accepted hcalled
      simp only [callApplicationPython, WsgiRun.accepted, hcalled']
      cases hrun : run.result with
      | none => rfl
      | some result => simp only [Option.map_some, joinResultPython_accepted (hresult result hrun)]
    rw [sendResponseHandlerPython, sendResponseHandlerPython, hcall]

end Viriatum
