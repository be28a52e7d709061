import Viriatum.Handlers.FileConnection
import Viriatum.Handlers.Lemmas.FileHead
import Viriatum.Library.Traces

/-!
# The framing of the handler of the files

The requests of a connection are answered with one complete response each, as long as no response to a request that takes
no body has one, and as long as what is left of a file to be sent can be read.
-/

namespace Viriatum

open Library

/-! ## When it holds -/

/-- What is found for a request makes a response without a body: a redirection, an empty page, a response that nothing has
been modified, or one with no bytes of a file. -/
def Bodyless (request : FileRequest) (sight : Sight) : Prop :=
  sight.failed = false ∧ sight.granted = true ∧
    match sight.opened with
    | .error _ => request.isRedirect = true ∨ sight.listing.data = []
    | .ok entry =>
        request.etag = some (etagValue entry.checksum) ∨
          match request.range with
          | none => entry.size = 0
          | some range => spanSize (getHttpRangeLimits range entry.size).1 (getHttpRangeLimits range entry.size).2 = 0

/-- A request that takes no body in its response is one that has none. -/
structure Admits (request : FileRequest) (sight : Sight) : Prop where
  head : request.method = httpHead → Bodyless request sight
  connect : request.method = httpConnect → sight.failed = false → sight.granted = true → Bodyless request sight

/-- What is left of the file to be sent. -/
def FileExchange.left (e : FileExchange) : Nat :=
  if e.opened then spanSize e.offset e.finalByte else spanSize e.initialByte e.finalByte

/-- The callback of a write ends the response. -/
def FileExchange.Ends (e : FileExchange) (callback : Option FileWrite) : Prop :=
  callback = some .cleanup ∨ callback = some .sendChunk ∧ e.left = 0

/-- The condition on an input: the file that is left to be sent opens and can be read, and the message that is handled is
one to be admitted. -/
def FileConnection.Meets (c : FileConnection) : FileInput → Prop
  | .received request sight => c.lock = false → Admits request sight
  | .written reading sight => ∀ e, c.exchange = some e →
      (c.writeQueue.head? = some .sendChunk → e.left ≠ 0 → (e.opened = true ∨ reading.opens = true) ∧ reading.data ≠ []) ∧
        (e.Ends c.writeQueue.head? → ∀ request, c.buffered.head? = some request → Admits request sight)

/-! ## What is to hold -/

def receivedRequests (inputs : List FileInput) : List FileRequest :=
  inputs.filterMap fun
    | .received request _ => some request
    | .written _ _ => none

/-- The responses that are to come to requests, by their methods. -/
def expected (requests : List FileRequest) : List (Nat → Bool) := requests.map fun request => bodiless request.method

/-- The output is one complete response to each of the requests that have been served, with nothing behind; while the
connection is locked it is so up to the response to the last of them. No request is lost on a connection that is open. -/
structure FileConnection.Framed (received : List FileRequest) (c : FileConnection) : Prop where
  requests : c.closed = false → c.served ++ c.buffered = received ∧ (c.lock = false → c.buffered = [])
  responses : c.lock = false ∨ c.closed = true → AnswersAll (expected c.served) c.output
  current : c.lock = true → ∃ earlier request done response, c.served = earlier ++ [request] ∧
    c.output = done ++ response ∧ AnswersAll (expected earlier) done

/-! ## The size of a response -/

theorem errorText_ne_nil (service : FileService) (errorCode : Nat) (errorMessage : Bytes) :
    errorText service errorCode errorMessage ≠ [] := by
  simp [errorText, bytes]

theorem writeHttpErrorA_size (service : FileService) (errorCode : Nat) (errorMessage : Bytes)
    (realm : Option FieldText) : (writeHttpErrorA service errorCode errorMessage realm).size ≠ 0 := by
  have htext := errorText_ne_nil service errorCode errorMessage
  rw [writeHttpErrorA]
  cases service.useTemplate with
  | false => simp [FileResponse.size, htext]
  | true =>
      by_cases hpage : (service.template errorCode errorMessage).data = []
      · simpa [FileResponse.size, hpage] using htext
      · simp [FileResponse.size, hpage]

theorem size_eq_zero_iff (service : FileService) (request : FileRequest) (sight : Sight) :
    (messageCompleteHandlerFile service request sight).size = 0 ↔ Bodyless request sight := by
  have hlast : ∀ entry : FileEntry, spanSize 0 (lastByte entry.size) = entry.size := by
    intro entry
    have hfits := entry.fits
    simp only [spanSize, lastByte]
    omega
  rw [messageCompleteHandlerFile, Bodyless]
  cases hfailed : sight.failed with
  | true => simp [notFoundResponse, writeHttpErrorA_size]
  | false =>
      cases hgranted : sight.granted with
      | false => simp [writeHttpErrorA_size]
      | true =>
          cases hopened : sight.opened with
          | error error =>
              have hdirectory : sight.isDirectory = true := by
                simpa [Sight.failed, hopened] using hfailed
              cases hredirect : request.isRedirect with
              | true => simp [hdirectory, redirectResponse, FileResponse.size]
              | false => simp [hdirectory, listingResponse, FileResponse.size]
          | ok entry =>
              have hdirectory : sight.isDirectory = false := by simp [Sight.isDirectory, hopened]
              by_cases hetag : request.etag = some (etagValue entry.checksum)
              · simp [hdirectory, hetag, notModifiedResponse, FileResponse.size]
              · cases hrange : request.range with
                | none => simp [hdirectory, hetag, fileResponse, FileResponse.size, hlast]
                | some range => simp [hdirectory, hetag, rangeResponse, FileResponse.size]

theorem writeHttpErrorA_code (service : FileService) (errorCode : Nat) (errorMessage : Bytes)
    (realm : Option FieldText) : (writeHttpErrorA service errorCode errorMessage realm).statusCode = errorCode := by
  rw [writeHttpErrorA]

/-- The code of a response tells an error, a response without a body, and a success apart. -/
theorem statusCode_cases (service : FileService) (request : FileRequest) (sight : Sight) :
    let response := messageCompleteHandlerFile service request sight
    (sight.failed = true ∧ response.statusCode = 404) ∨
      (sight.failed = false ∧ sight.granted = false ∧ response.statusCode = 401) ∨
      (Bodyless request sight ∧ (response.statusCode = 307 ∨ response.statusCode = 304)) ∨
      (sight.failed = false ∧ sight.granted = true ∧ (response.statusCode = 200 ∨ response.statusCode = 206)) := by
  dsimp only
  rw [messageCompleteHandlerFile, Bodyless]
  cases hfailed : sight.failed with
  | true => simp [notFoundResponse, writeHttpErrorA_code]
  | false =>
      cases hgranted : sight.granted with
      | false => simp [writeHttpErrorA_code]
      | true =>
          cases hopened : sight.opened with
          | error error =>
              have hdirectory : sight.isDirectory = true := by
                simpa [Sight.failed, hopened] using hfailed
              cases hredirect : request.isRedirect with
              | true => simp [hdirectory, redirectResponse]
              | false => simp [hdirectory, listingResponse]
          | ok entry =>
              have hdirectory : sight.isDirectory = false := by simp [Sight.isDirectory, hopened]
              by_cases hetag : request.etag = some (etagValue entry.checksum)
              · simp [hdirectory, hetag, notModifiedResponse]
              · cases hrange : request.range with
                | none => simp [hdirectory, hetag, fileResponse]
                | some range => simp [hdirectory, hetag, rangeResponse]

/-- A request is admitted exactly where a client that takes no body is sent none. -/
theorem admits_iff (service : FileService) (request : FileRequest) (sight : Sight) :
    Admits request sight ↔
      (bodiless request.method (messageCompleteHandlerFile service request sight).statusCode = true →
        (messageCompleteHandlerFile service request sight).size = 0) := by
  have hcases := statusCode_cases service request sight
  dsimp only at hcases
  rw [size_eq_zero_iff, bodiless, decide_eq_true_iff]
  constructor
  · rintro ⟨hhead, hconnect⟩ hnone
    rcases hnone with hmethod | hcode | hcode | ⟨hmethod, hlow, hhigh⟩
    · exact hhead hmethod
    · omega
    · rcases hcases with ⟨-, h⟩ | ⟨-, -, h⟩ | ⟨h, -⟩ | ⟨-, -, h⟩
      · omega
      · omega
      · exact h
      · omega
    · rcases hcases with ⟨-, h⟩ | ⟨-, -, h⟩ | ⟨h, -⟩ | ⟨hfound, hgranted, -⟩
      · omega
      · omega
      · exact h
      · exact hconnect hmethod hfound hgranted
  · intro hnone
    refine ⟨fun hmethod => hnone (Or.inl hmethod), fun hmethod hfound hgranted => ?_⟩
    rcases hcases with ⟨h, -⟩ | ⟨-, h, -⟩ | ⟨h, -⟩ | ⟨-, -, hcode⟩
    · rw [hfound] at h
      cases h
    · rw [hgranted] at h
      cases h
    · exact h
    · exact hnone (Or.inr (Or.inr (Or.inr ⟨hmethod, by omega, by omega⟩)))

/-! ## Reading what is left -/

theorem spanSize_step {offset finalByte size : Nat} (hsize : size ≤ spanSize offset finalByte) (hoffset : offset < 2 ^ 64) :
    spanSize ((offset + size) % 2 ^ 64) finalByte = spanSize offset finalByte - size := by
  rw [spanSize] at hsize ⊢
  rw [spanSize]
  omega

theorem openFileCache_left (e : FileExchange) :
    spanSize (openFileCache e).offset (openFileCache e).finalByte = e.left ∧ (openFileCache e).request = e.request := by
  rw [openFileCache, FileExchange.left]
  cases hopened : e.opened with
  | true => exact ⟨rfl, rfl⟩
  | false => exact ⟨rfl, rfl⟩

theorem openFileCache_bounds {e : FileExchange} (h : e.initialByte < 2 ^ 64 ∧ e.offset < 2 ^ 64) :
    (openFileCache e).initialByte < 2 ^ 64 ∧ (openFileCache e).offset < 2 ^ 64 ∧ (openFileCache e).opened = true := by
  rw [openFileCache]
  cases hopened : e.opened with
  | true => exact ⟨h.1, h.2, hopened⟩
  | false => exact ⟨h.1, h.1, rfl⟩

/-- A read gives a part of what is left, which is then left no more. -/
theorem readChunk_some {reading : FileReading} {e e' : FileExchange} {data : Bytes}
    (hbounds : e.initialByte < 2 ^ 64 ∧ e.offset < 2 ^ 64) (h : readChunk reading e = some (data, e')) :
    e'.request = e.request ∧ (e'.initialByte < 2 ^ 64 ∧ e'.offset < 2 ^ 64) ∧ e.left = data.length + e'.left := by
  obtain ⟨hleft, hrequest⟩ := openFileCache_left e
  obtain ⟨hinitial, hoffset, hopened⟩ := openFileCache_bounds hbounds
  rw [readChunk] at h
  split at h
  case isTrue => cases h
  case isFalse =>
    dsimp only at h
    split at h
    case isTrue => cases h
    case isFalse =>
      rw [Option.some.injEq, Prod.mk.injEq] at h
      obtain ⟨hdata, rfl⟩ := h
      have hsize : data.length ≤ spanSize (openFileCache e).offset (openFileCache e).finalByte := by
        rw [← hdata, List.length_take]
        omega
      rw [hdata]
      refine ⟨hrequest, ⟨hinitial, Nat.mod_lt _ (by omega)⟩, ?_⟩
      rw [← hleft, FileExchange.left, if_pos hopened, spanSize_step hsize hoffset]
      omega

/-- A read gives nothing where nothing is left, or where the file does not open or has no more to give. -/
theorem readChunk_none {reading : FileReading} {e : FileExchange} (h : readChunk reading e = none) :
    e.left = 0 ∨ ¬ ((e.opened = true ∨ reading.opens = true) ∧ reading.data ≠ []) := by
  obtain ⟨hleft, -⟩ := openFileCache_left e
  rw [readChunk] at h
  split at h
  case isTrue hclosed => grind
  case isFalse =>
    dsimp only at h
    split at h
    case isFalse => cases h
    case isTrue hdata =>
      rw [hleft, List.take_eq_nil_iff, fileBufferSize] at hdata
      rcases hdata with hsize | hdata
      · left
        omega
      · right
        grind

/-- Where nothing is left, nothing is read. -/
theorem readChunk_nothing {reading : FileReading} {e : FileExchange} (h : e.left = 0) : readChunk reading e = none := by
  obtain ⟨hleft, -⟩ := openFileCache_left e
  rw [readChunk]
  split
  · rfl
  · simp [hleft, h]

/-! ## What a step keeps -/

/-- What has been written of a response is all of it, or is completed by what is left of the file. -/
def Awaits (e : FileExchange) (writeQueue : List FileWrite) (response : Bytes) : Prop :=
  (writeQueue = [.cleanup] ∨ writeQueue = [.none, .cleanup]) ∧ Answers (bodiless e.request.method) response ∨
    writeQueue = [.sendChunk] ∧ (e.initialByte < 2 ^ 64 ∧ e.offset < 2 ^ 64) ∧
      ∀ rest : Bytes, rest.length = e.left → Answers (bodiless e.request.method) (response ++ rest)

/-- A connection between two requests. -/
structure FileConnection.Idle (c : FileConnection) : Prop where
  lock : c.lock = false
  closed : c.closed = false
  buffered : c.buffered = []
  writeQueue : c.writeQueue = []
  exchange : c.exchange = none
  answers : AnswersAll (expected c.served) c.output

/-- A connection that writes a response. -/
structure FileConnection.Busy (c : FileConnection) (e : FileExchange) (earlier : List FileRequest)
    (done response : Bytes) : Prop where
  lock : c.lock = true
  closed : c.closed = false
  exchange : c.exchange = some e
  served : c.served = earlier ++ [e.request]
  output : c.output = done ++ response
  answers : AnswersAll (expected earlier) done
  awaits : Awaits e c.writeQueue response

/-- A connection that has been closed. -/
structure FileConnection.Done (c : FileConnection) : Prop where
  lock : c.lock = true
  closed : c.closed = true
  writeQueue : c.writeQueue = []
  answers : AnswersAll (expected c.served) c.output
  served : ∃ earlier request done response, c.served = earlier ++ [request] ∧ c.output = done ++ response ∧
    AnswersAll (expected earlier) done

/-- A connection is in one of the three, and has lost no request while it is open. -/
def FileConnection.Orderly (received : List FileRequest) (c : FileConnection) : Prop :=
  (c.closed = false → c.served ++ c.buffered = received) ∧
    (c.Idle ∨ (∃ e earlier done response, c.Busy e earlier done response) ∨ c.Done)

theorem expected_append (requests : List FileRequest) (request : FileRequest) :
    expected (requests ++ [request]) = expected requests ++ [bodiless request.method] := by
  simp [expected]

/-- The first byte that is wanted is a number of the platform. -/
theorem span_lt {service : FileService} {request : FileRequest} {sight : Sight} {initialByte finalByte : Nat}
    (h : (messageCompleteHandlerFile service request sight).payload = .span initialByte finalByte) :
    initialByte < 2 ^ 64 := by
  have herror : ∀ errorCode errorMessage realm,
      (writeHttpErrorA service errorCode errorMessage realm).payload ≠ .span initialByte finalByte := by
    intro errorCode errorMessage realm
    rw [writeHttpErrorA]
    simp
  rw [messageCompleteHandlerFile] at h
  split at h
  · exact absurd h (herror _ _ _)
  · split at h
    · exact absurd h (herror _ _ _)
    · split at h
      · cases h
      · cases hopened : sight.opened with
        | error error =>
            rw [hopened] at h
            cases h
        | ok entry =>
            simp only [hopened] at h
            split at h
            · cases h
            · cases hrange : request.range with
              | none =>
                  simp only [hrange] at h
                  cases h
                  omega
              | some range =>
                  have hlimits := (getHttpRangeLimits_lt range entry.size).1
                  simp only [hrange, rangeResponse, FilePayload.span.injEq] at h
                  omega

section Step

variable (service : FileService) {c : FileConnection} {request : FileRequest} {sight : Sight}

/-- A message that is complete starts a response. -/
theorem complete_busy (hanswers : AnswersAll (expected c.served) c.output) (hclosed : c.closed = false)
    (hqueue : c.writeQueue = []) (hadmits : Admits request sight) :
    ∃ e response, (c.complete service request sight).Busy e c.served c.output response ∧
      (c.complete service request sight).buffered = c.buffered ∧ e.request = request := by
  have hsound := messageComplete_sound service request sight
  have hadmits := (admits_iff service request sight).mp hadmits
  have hanswers' : ∀ payload : Bytes,
      payload.length = (messageCompleteHandlerFile service request sight).size →
      Answers (bodiless request.method)
        (headHandlerFile service request.keepAlive (messageCompleteHandlerFile service request sight) ++ payload) := by
    intro payload hpayload
    rw [answers_file service request.keepAlive hsound]
    cases hnone : bodiless request.method (messageCompleteHandlerFile service request sight).statusCode with
    | false => simpa using hpayload
    | true =>
        rw [hadmits hnone, List.length_eq_zero_iff] at hpayload
        simpa using hpayload
  rw [FileConnection.complete]
  cases hpayload : (messageCompleteHandlerFile service request sight).payload with
  | none =>
      have hempty : Answers (bodiless request.method)
          (headHandlerFile service request.keepAlive (messageCompleteHandlerFile service request sight)) := by
        have h := hanswers' [] (by simp [FileResponse.size, hpayload])
        rwa [List.append_nil] at h
      refine ⟨{ request }, _, ⟨rfl, hclosed, rfl, rfl, rfl, hanswers, Or.inl ⟨Or.inl ?_, hempty⟩⟩, rfl, rfl⟩
      simp [FileConnection.write, hqueue]
  | text data =>
      have hdata := hanswers' data (by simp [FileResponse.size, hpayload])
      refine ⟨{ request }, _, ⟨rfl, hclosed, rfl, rfl, List.append_assoc _ _ _, hanswers,
        Or.inl ⟨Or.inr ?_, hdata⟩⟩, rfl, rfl⟩
      simp [FileConnection.write, hqueue]
  | span initialByte finalByte =>
      refine ⟨{ request, initialByte, finalByte }, _, ⟨rfl, hclosed, rfl, rfl, rfl, hanswers,
        Or.inr ⟨?_, ?_, ?_⟩⟩, rfl, rfl⟩
      · simp [FileConnection.write, hqueue]
      · exact ⟨span_lt hpayload, Nat.two_pow_pos 64⟩
      · intro rest hrest
        exact hanswers' rest (by simpa [FileResponse.size, hpayload, FileExchange.left] using hrest)

/-- A response that is complete leaves a connection that is closed, or handles the message that comes next. -/
theorem cleanup_orderly (hlock : c.lock = true) (hclosed : c.closed = false) (hqueue : c.writeQueue = [])
    (hserved : ∃ earlier request done response, c.served = earlier ++ [request] ∧ c.output = done ++ response ∧
      AnswersAll (expected earlier) done) (hanswers : AnswersAll (expected c.served) c.output)
    {received : List FileRequest} (hreceived : c.served ++ c.buffered = received) (keepAlive : Bool)
    (hadmits : ∀ request, c.buffered.head? = some request → Admits request sight) :
    (c.cleanup service keepAlive sight).Orderly received := by
  rw [FileConnection.cleanup]
  cases keepAlive with
  | false => exact ⟨by simp, Or.inr (Or.inr ⟨hlock, rfl, hqueue, hanswers, hserved⟩)⟩
  | true =>
      rw [if_pos rfl, FileConnection.drain]
      cases hbuffered : c.buffered with
      | nil =>
          rw [hbuffered] at hreceived
          exact ⟨fun _ => hreceived, Or.inl ⟨rfl, hclosed, rfl, hqueue, rfl, hanswers⟩⟩
      | cons request buffered =>
          have hrequest := hadmits request (by rw [hbuffered]; rfl)
          obtain ⟨e, response, hbusy, hrest, hnext⟩ := complete_busy service
            (c := { c with exchange := none, lock := false, buffered }) hanswers hclosed hqueue hrequest
          dsimp only
          refine ⟨fun _ => ?_, Or.inr (Or.inl ⟨e, _, _, response, hbusy⟩)⟩
          rw [hbusy.served, hrest, ← hreceived, hbuffered, hnext]
          simp

theorem received_orderly {received : List FileRequest} (h : c.Orderly received)
    (hmeets : c.Meets (.received request sight)) :
    (c.step service (.received request sight)).Orderly (received ++ [request]) := by
  obtain ⟨hreceived, hidle | ⟨e, earlier, done, response, hbusy⟩ | hdone⟩ := h
  · have hserved := hreceived hidle.closed
    obtain ⟨e, response, hbusy, hrest, hrequest⟩ := complete_busy service
      (c := { c with buffered := [] }) hidle.answers hidle.closed hidle.writeQueue (hmeets hidle.lock)
    have hstep : c.step service (.received request sight) =
        ({ c with buffered := [] } : FileConnection).complete service request sight := by
      simp [FileConnection.step, hidle.closed, hidle.lock, hidle.buffered, FileConnection.drain]
    rw [hstep]
    refine ⟨fun _ => ?_, Or.inr (Or.inl ⟨e, _, _, response, hbusy⟩)⟩
    rw [hbusy.served, hrest, hrequest, ← hserved, hidle.buffered]
    simp
  · have hserved := hreceived hbusy.closed
    have hstep : c.step service (.received request sight) = { c with buffered := c.buffered ++ [request] } := by
      simp [FileConnection.step, hbusy.closed, hbusy.lock]
    rw [hstep]
    refine ⟨fun _ => ?_, Or.inr (Or.inl ⟨e, earlier, done, response, ⟨hbusy.lock, hbusy.closed, hbusy.exchange,
      hbusy.served, hbusy.output, hbusy.answers, hbusy.awaits⟩⟩)⟩
    rw [← hserved, List.append_assoc]
  · have hstep : c.step service (.received request sight) = c := by simp [FileConnection.step, hdone.closed]
    rw [hstep]
    exact ⟨fun hopen => by simp [hdone.closed] at hopen, Or.inr (Or.inr hdone)⟩

theorem written_orderly {received : List FileRequest} (h : c.Orderly received) {reading : FileReading}
    (hmeets : c.Meets (.written reading sight)) : (c.step service (.written reading sight)).Orderly received := by
  obtain ⟨hreceived, hidle | ⟨e, earlier, done, response, hbusy⟩ | hdone⟩ := h
  · have hstep : c.step service (.written reading sight) = c := by simp [FileConnection.step, hidle.writeQueue]
    rw [hstep]
    exact ⟨hreceived, Or.inl hidle⟩
  · obtain ⟨hreads, hnext⟩ := hmeets e hbusy.exchange
    have hserved : ∃ earlier request done response, c.served = earlier ++ [request] ∧ c.output = done ++ response ∧
        AnswersAll (expected earlier) done := ⟨earlier, e.request, done, response, hbusy.served, hbusy.output, hbusy.answers⟩
    have hcomplete : Answers (bodiless e.request.method) response → AnswersAll (expected c.served) c.output := by
      intro hresponse
      rw [hbusy.served, hbusy.output, expected_append]
      exact (answersAll_concat hbusy.answers _ _).mpr hresponse
    rcases hbusy.awaits with ⟨hqueue | hqueue, hresponse⟩ | ⟨hqueue, hbounds, hresponse⟩
    · have hstep : c.step service (.written reading sight) =
          ({ c with writeQueue := [] } : FileConnection).cleanup service e.request.keepAlive sight := by
        simp [FileConnection.step, hqueue, hbusy.exchange]
      rw [hstep]
      exact cleanup_orderly service (c := { c with writeQueue := [] }) hbusy.lock hbusy.closed rfl hserved
        (hcomplete hresponse) (hreceived hbusy.closed) _ (hnext (Or.inl (by rw [hqueue]; rfl)))
    · have hstep : c.step service (.written reading sight) = { c with writeQueue := [.cleanup] } := by
        simp [FileConnection.step, hqueue, hbusy.exchange]
      rw [hstep]
      exact ⟨hreceived, Or.inr (Or.inl ⟨e, earlier, done, response, ⟨hbusy.lock, hbusy.closed, hbusy.exchange,
        hbusy.served, hbusy.output, hbusy.answers, Or.inl ⟨Or.inl rfl, hresponse⟩⟩⟩)⟩
    · have hstep : c.step service (.written reading sight) =
          ({ c with writeQueue := [] } : FileConnection).sendChunk service reading sight e := by
        simp [FileConnection.step, hqueue, hbusy.exchange]
      rw [hstep, FileConnection.sendChunk]
      cases hread : readChunk reading e with
      | none =>
          have hleft : e.left = 0 := by
            rcases readChunk_none hread with hleft | hfails
            · exact hleft
            · by_contra hleft
              exact hfails (hreads (by rw [hqueue]; rfl) hleft)
          have hresponse' := hresponse [] (by rw [hleft]; rfl)
          rw [List.append_nil] at hresponse'
          exact cleanup_orderly service (c := { c with writeQueue := [] }) hbusy.lock hbusy.closed rfl hserved
            (hcomplete hresponse') (hreceived hbusy.closed) _ (hnext (Or.inr ⟨by rw [hqueue]; rfl, hleft⟩))
      | some result =>
          obtain ⟨data, e'⟩ := result
          obtain ⟨hrequest, hbounds', hleft⟩ := readChunk_some hbounds hread
          refine ⟨hreceived, Or.inr (Or.inl ⟨e', earlier, done, response ++ data, ⟨hbusy.lock, hbusy.closed, rfl, ?_, ?_,
            hbusy.answers, Or.inr ⟨rfl, hbounds', ?_⟩⟩⟩)⟩
          · rw [hrequest]
            exact hbusy.served
          · rw [← List.append_assoc, ← hbusy.output]
            rfl
          · intro rest hrest
            rw [hrequest, List.append_assoc]
            exact hresponse (data ++ rest) (by rw [List.length_append, hrest, hleft])
  · have hstep : c.step service (.written reading sight) = c := by simp [FileConnection.step, hdone.writeQueue]
    rw [hstep]
    exact ⟨hreceived, Or.inr (Or.inr hdone)⟩

end Step

theorem FileConnection.Orderly.framed {received : List FileRequest} {c : FileConnection} (h : c.Orderly received) :
    c.Framed received := by
  obtain ⟨hreceived, hidle | ⟨e, earlier, done, response, hbusy⟩ | hdone⟩ := h
  · exact ⟨fun hopen => ⟨hreceived hopen, fun _ => hidle.buffered⟩, fun _ => hidle.answers,
      fun hlock => by simp [hidle.lock] at hlock⟩
  · exact ⟨fun hopen => ⟨hreceived hopen, fun hlock => by simp [hbusy.lock] at hlock⟩,
      fun hfree => by simp [hbusy.lock, hbusy.closed] at hfree,
      fun _ => ⟨earlier, e.request, done, response, hbusy.served, hbusy.output, hbusy.answers⟩⟩
  · exact ⟨fun hopen => by simp [hdone.closed] at hopen, fun _ => hdone.answers, fun _ => hdone.served⟩

/-! ## Whole runs -/

theorem step_orderly (service : FileService) (past : List FileInput) (c : FileConnection) (input : FileInput)
    (h : c.Orderly (receivedRequests past)) (hmeets : c.Meets input) :
    (c.step service input).Orderly (receivedRequests (past ++ [input])) := by
  cases input with
  | received request sight =>
      have hreceived := received_orderly service h hmeets
      simpa [receivedRequests] using hreceived
  | written reading sight =>
      have hwritten := written_orderly service h hmeets
      simpa [receivedRequests] using hwritten

/-- No payload is sent under HTTP/2 exactly where the response has no size. -/
theorem dataPayload_eq_nil_iff (service : FileService) (request : FileRequest) (sight : Sight) :
    (∀ readings, dataPayload service request sight readings = []) ↔ Bodyless request sight := by
  rw [← size_eq_zero_iff service, FileResponse.size]
  cases hpayload : (messageCompleteHandlerFile service request sight).payload with
  | none => simp [dataPayload, hpayload]
  | text data => simp [dataPayload, hpayload]
  | span initialByte finalByte =>
      simp only [dataPayload, hpayload]
      constructor
      · intro hnone
        by_contra hsize
        -- A reading that opens the file and gives a byte is sent.
        have hsent := hnone [⟨true, [0]⟩]
        have hleft : 0 < min (spanSize initialByte finalByte) fileBufferSize := by
          rw [fileBufferSize]
          omega
        obtain ⟨room, hroom⟩ := Nat.exists_eq_add_one.mpr hleft
        simp [sendChunks, readChunk, openFileCache, hroom] at hsent
      · intro hsize readings
        cases readings with
        | nil => rfl
        | cons reading readings =>
            have hnothing : readChunk reading { request, initialByte, finalByte } = none :=
              readChunk_nothing (by simpa [FileExchange.left] using hsize)
            rw [sendChunks, hnothing]

section Instances

def plainService : FileService :=
  { description := ⟨bytes "viriatum", by decide, by decide⟩
    useTemplate := false
    template := fun _ _ => ⟨[], by simp⟩
    mimeType := fun _ => none }

/-- A request for a file that is kept alive. -/
def plainRequest (method : Nat) : FileRequest :=
  { method, keepAlive := true, url := ⟨bytes "/a", by decide, by decide⟩, filePathD := bytes "/a", authBasic := none,
    etag := none, range := none }

/-- A file of one byte. -/
def oneByte : Sight :=
  { opened := .ok ⟨1, 0, by omega⟩, described := false, listing := ⟨[], by simp⟩, granted := true }

/-- The file is what is sent. -/
theorem oneByte_payload (method : Nat) :
    (messageCompleteHandlerFile plainService (plainRequest method) oneByte).payload = .span 0 0 := by
  simp [messageCompleteHandlerFile, Sight.failed, Sight.isDirectory, oneByte, plainRequest, fileResponse, lastByte]

def oneByteRun (method : Nat) : List FileInput :=
  [.received (plainRequest method) oneByte, .written ⟨true, [120]⟩ oneByte, .written ⟨true, []⟩ oneByte]

/-- The three inputs serve the file. -/
theorem oneByte_run (method : Nat) :
    FileConnection.step plainService {} (.received (plainRequest method) oneByte) =
        { lock := true
          writeQueue := [.sendChunk]
          exchange := some { request := plainRequest method }
          output := headHandlerFile plainService true
            (messageCompleteHandlerFile plainService (plainRequest method) oneByte)
          served := [plainRequest method] } ∧
      (oneByteRun method).foldl (FileConnection.step plainService) {} =
        { output := headHandlerFile plainService true
            (messageCompleteHandlerFile plainService (plainRequest method) oneByte) ++ [120]
          served := [plainRequest method] } := by
  have hpayload := oneByte_payload method
  have hkeep : (plainRequest method).keepAlive = true := rfl
  have hfirst : FileConnection.step plainService {} (.received (plainRequest method) oneByte) =
        { lock := true
          writeQueue := [.sendChunk]
          exchange := some { request := plainRequest method }
          output := headHandlerFile plainService true
            (messageCompleteHandlerFile plainService (plainRequest method) oneByte)
          served := [plainRequest method] } := by
    simp [FileConnection.step, FileConnection.drain, FileConnection.complete, FileConnection.write, hpayload, hkeep]
  refine ⟨hfirst, ?_⟩
  rw [oneByteRun, List.foldl_cons, hfirst]
  simp [FileConnection.step, FileConnection.sendChunk, FileConnection.write, FileConnection.cleanup,
    FileConnection.drain, readChunk, openFileCache, spanSize, fileBufferSize, hkeep]

end Instances

end Viriatum
