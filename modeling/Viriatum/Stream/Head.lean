import Viriatum.Http.Lemmas.HpackExact
import Viriatum.Stream.Respond

/-!
# The heads of the responses

What the calls of a handler write of the head of a response into a buffer, and what the peer reads of it. A call
whose field fits only in part moves the offset past the part, and nothing of the block is read back any more.
-/

namespace Viriatum

open Library Effect

/-! ## What is to be written -/

def statusHeader (statusCode : Nat) : HpackHeader := ⟨bytes ":status", (bytes (toString statusCode)).take 7⟩

/-- The header that a field is written as; the ones that only carry meaning under HTTP/1.1 are not written. -/
def fieldHeader (field : Bytes × Bytes) : Option HpackHeader :=
  let lowered := Http2Connection.lower field.1
  if field.1.length ≥ viriatumMaxHeaderSize ∨ lowered = bytes "connection" ∨ lowered = bytes "keep-alive" ∨
      lowered = bytes "transfer-encoding" ∨ lowered = bytes "upgrade" then none
  else some ⟨lowered, field.2⟩

/-- The headers that follow the status, the description of the server first. -/
def fieldHeaders (service : Service) (fields : List (Bytes × Bytes)) : List HpackHeader :=
  ⟨bytes "server", service.description⟩ :: fields.filterMap fieldHeader

/-! ## What the calls write -/

/-- The writing of a header: the buffer before it and the one that it leaves. -/
structure HeaderCall where
  header : HpackHeader
  before : Bytes
  after : Bytes

/-- A header is reported as accepted when the offset moves. -/
abbrev HeaderCall.Accepted (call : HeaderCall) : Prop := call.after.length ≠ call.before.length

namespace Http2Connection

/-- The writing of some headers one after the other. -/
def headerCalls (bufferSize : Nat) : List HpackHeader → Bytes → Http2Connection → List HeaderCall
  | [], _, _ => []
  | header :: headers, buffer, s =>
      let (buffer', s) := writeHeader bufferSize header buffer s
      ⟨header, buffer, buffer'⟩ :: headerCalls bufferSize headers buffer' s

/-- The writing of the headers of a response, behind the space for the header of its frame. -/
def responseCalls (service : Service) (bufferSize statusCode : Nat) (fields : List (Bytes × Bytes))
    (s : Http2Connection) : List HeaderCall :=
  headerCalls bufferSize (statusHeader statusCode :: fieldHeaders service fields) (List.replicate http2HeaderSize 0) s

/-- The block of a response as its frames carry it. -/
def wireBlock (service : Service) (bufferSize statusCode : Nat) (fields : List (Bytes × Bytes)) (last : Bool)
    (s : Http2Connection) : Bytes :=
  (split s.remote.maxFrameSize (writeHead service bufferSize statusCode fields last s).1).flatMap Http2Frame.payload

/-- A header that does not fit leaves the buffer as it was, and the block is read as the status and the fields that
were accepted, by a peer whose table is the same. -/
structure HeadAgrees (service : Service) (bufferSize statusCode : Nat) (fields : List (Bytes × Bytes)) (last : Bool)
    (s : Http2Connection) : Prop where
  unchanged : ∀ call ∈ responseCalls service bufferSize statusCode fields s,
    bufferSize < call.before.length + (fieldBytes s.encoder call.header).length → call.after = call.before
  decodes : ∀ decoder : HpackTable, s.encoder.Same decoder →
    (decodeHpack Viriatum.record id (wireBlock service bufferSize statusCode fields last s)).run (decoder, []) =
      (.ok [], (decoder, statusHeader statusCode ::
        ((responseCalls service bufferSize statusCode fields s).tail.filter (·.Accepted)).map HeaderCall.header))

end Http2Connection

/-! ## What fits -/

/-- Each header fits as a whole in what is left of a buffer, or not even the integer that it starts with does. -/
inductive Room (table : HpackTable) (bufferSize : Nat) : Nat → List HpackHeader → Prop
  | nil (offset : Nat) : Room table bufferSize offset []
  | fits {offset : Nat} {header : HpackHeader} {headers : List HpackHeader}
      (hfits : offset + (fieldBytes table header).length ≤ bufferSize)
      (h : Room table bufferSize (offset + (fieldBytes table header).length) headers) :
      Room table bufferSize offset (header :: headers)
  | refused {offset : Nat} {header : HpackHeader} {headers : List HpackHeader}
      (hlead : bufferSize < offset + (fieldLead table header).length) (h : Room table bufferSize offset headers) :
      Room table bufferSize offset (header :: headers)

/-- The headers that fit in what the ones before leave of a buffer. -/
def taken (table : HpackTable) (bufferSize : Nat) : Nat → List HpackHeader → List HpackHeader
  | _, [] => []
  | offset, header :: headers =>
      if offset + (fieldBytes table header).length ≤ bufferSize then
        header :: taken table bufferSize (offset + (fieldBytes table header).length) headers
      else taken table bufferSize offset headers

/-- The status fits, no header fits in part only, and the decoder reads the ones that fit. -/
structure HeadFits (service : Service) (bufferSize statusCode : Nat) (fields : List (Bytes × Bytes))
    (table : HpackTable) : Prop where
  status : http2HeaderSize + (fieldBytes table (statusHeader statusCode)).length ≤ bufferSize
  room : Room table bufferSize http2HeaderSize (statusHeader statusCode :: fieldHeaders service fields)
  reads : ∀ header ∈ taken table bufferSize http2HeaderSize (statusHeader statusCode :: fieldHeaders service fields),
    table.Reads header
  list : HpackRing.sizeOf (taken table bufferSize http2HeaderSize
    (statusHeader statusCode :: fieldHeaders service fields)) ≤ hpackMaxHeaderListSize

theorem fieldLead_le (table : HpackTable) (header : HpackHeader) :
    (fieldLead table header).length ≤ (fieldBytes table header).length := by
  rw [fieldBytes, List.length_append]
  exact Nat.le_add_right _ _

theorem Room.of_fits {table : HpackTable} {n offset : Nat} {header : HpackHeader} {headers : List HpackHeader}
    (h : Room table n offset (header :: headers)) (hfits : offset + (fieldBytes table header).length ≤ n) :
    Room table n (offset + (fieldBytes table header).length) headers := by
  cases h with
  | fits _ h => exact h
  | refused hlead _ =>
      have := fieldLead_le table header
      omega

theorem Room.of_refused {table : HpackTable} {n offset : Nat} {header : HpackHeader} {headers : List HpackHeader}
    (h : Room table n offset (header :: headers)) (hlong : n < offset + (fieldBytes table header).length) :
    n < offset + (fieldLead table header).length ∧ Room table n offset headers := by
  cases h with
  | fits hfits _ => omega
  | refused hlead h => exact ⟨hlead, h⟩

instance decidableRoom (table : HpackTable) (n : Nat) : ∀ offset headers, Decidable (Room table n offset headers)
  | offset, [] => .isTrue (.nil offset)
  | offset, header :: headers =>
      if hfits : offset + (fieldBytes table header).length ≤ n then
        have := decidableRoom table n (offset + (fieldBytes table header).length) headers
        decidable_of_iff (Room table n (offset + (fieldBytes table header).length) headers)
          ⟨.fits hfits, fun h => h.of_fits hfits⟩
      else
        have := decidableRoom table n offset headers
        decidable_of_iff (n < offset + (fieldLead table header).length ∧ Room table n offset headers)
          ⟨fun h => .refused h.1 h.2, fun h => h.of_refused (Nat.lt_of_not_le hfits)⟩

/-! ## A call -/

namespace Http2Connection

/-- The writing of a header leaves the session as it is, and the buffer with the whole of it, a part of it or nothing
of it. -/
theorem writeHeader_cases (n : Nat) (header : HpackHeader) (buffer : Bytes) (s : Http2Connection) :
    ∃ buffer', writeHeader n header buffer s = (buffer', s) ∧
      (buffer' = buffer ++ fieldBytes s.encoder header ∧ buffer.length + (fieldBytes s.encoder header).length ≤ n ∨
        n < buffer.length + (fieldBytes s.encoder header).length ∧
          (buffer' = buffer ∧ n < buffer.length + (fieldLead s.encoder header).length ∨
            buffer.length + (fieldLead s.encoder header).length ≤ n ∧ buffer.length < buffer'.length)) := by
  have h := encodeHpack_puts n s.encoder header buffer
  unfold wp at h
  unfold writeHeader
  split at h
  case h_1 result hrun =>
    obtain ⟨rfl, hfits⟩ := h
    rw [hrun]
    exact ⟨_, rfl, Or.inl ⟨rfl, hfits⟩⟩
  case h_2 e written hrun =>
    obtain ⟨table, buffer'⟩ := written
    obtain ⟨rfl, hlong, hwritten⟩ := h
    rw [hrun]
    exact ⟨buffer', rfl, Or.inr ⟨hlong, hwritten⟩⟩

/-- The headers written one after the other. -/
def writeHeaders (n : Nat) (headers : List HpackHeader) (buffer : Bytes) (s : Http2Connection) :
    Bytes × Http2Connection :=
  headers.foldl (fun (buffer, s) header => writeHeader n header buffer s) (buffer, s)

theorem writeFieldHttp2_eq (n : Nat) (field : Bytes × Bytes) (buffer : Bytes) (s : Http2Connection) :
    writeFieldHttp2 n field buffer s =
      match fieldHeader field with
      | none => (buffer, s)
      | some header => writeHeader n header buffer s := by
  unfold writeFieldHttp2 fieldHeader
  dsimp only
  by_cases hlong : field.1.length ≥ viriatumMaxHeaderSize
  · rw [if_pos hlong, if_pos (Or.inl hlong)]
  · rw [if_neg hlong]
    by_cases hdropped : lower field.1 = bytes "connection" ∨ lower field.1 = bytes "keep-alive" ∨
      lower field.1 = bytes "transfer-encoding" ∨ lower field.1 = bytes "upgrade"
    · rw [if_pos hdropped, if_pos (Or.inr hdropped)]
    · rw [if_neg hdropped, if_neg (by simp [hlong, hdropped])]

theorem writeFields_eq (n : Nat) (fields : List (Bytes × Bytes)) (buffer : Bytes) (s : Http2Connection) :
    fields.foldl (fun (buffer, s) field => writeFieldHttp2 n field buffer s) (buffer, s) =
      writeHeaders n (fields.filterMap fieldHeader) buffer s := by
  induction fields generalizing buffer s with
  | nil => rfl
  | cons field fields ih =>
      rw [List.foldl_cons]
      dsimp only
      rw [writeFieldHttp2_eq]
      cases hheader : fieldHeader field with
      | none =>
          rw [List.filterMap_cons_none hheader]
          exact ih buffer s
      | some header =>
          rw [List.filterMap_cons_some hheader]
          exact ih _ _

/-- The payload of a head is what the headers, written in order, leave in the buffer. -/
theorem writeHead_payload (service : Service) (n statusCode : Nat) (fields : List (Bytes × Bytes)) (last : Bool)
    (s : Http2Connection) :
    (writeHead service n statusCode fields last s).1.payload =
      (writeHeaders n (statusHeader statusCode :: fieldHeaders service fields)
        (List.replicate http2HeaderSize 0) s).1.drop http2HeaderSize := by
  obtain ⟨first, hfirst, _⟩ := writeHeader_cases n (statusHeader statusCode) (List.replicate http2HeaderSize 0) s
  obtain ⟨second, hsecond, _⟩ := writeHeader_cases n ⟨bytes "server", service.description⟩ first s
  have hstatus : writeStatusHttp2 service n statusCode s = (second, s) := by
    rw [statusHeader] at hfirst
    simp only [writeStatusHttp2, hfirst, hsecond]
  have hheaders : writeHeaders n (statusHeader statusCode :: fieldHeaders service fields)
      (List.replicate http2HeaderSize 0) s = writeHeaders n (fields.filterMap fieldHeader) second s := by
    simp only [writeHeaders, fieldHeaders, List.foldl_cons, hfirst, hsecond]
  rw [hheaders, ← writeFields_eq]
  simp only [writeHead, hstatus, writeEndHttp2]

/-! ## The calls one after the other -/

/-- Without a header that fits in part only, the buffer holds the ones that fit. -/
theorem writeHeaders_taken {n : Nat} {headers : List HpackHeader} (buffer : Bytes) {s : Http2Connection}
    (h : Room s.encoder n buffer.length headers) :
    writeHeaders n headers buffer s = (buffer ++ blockBytes s.encoder (taken s.encoder n buffer.length headers), s) := by
  induction headers generalizing buffer with
  | nil => simp [writeHeaders, taken, blockBytes]
  | cons header headers ih =>
      obtain ⟨buffer', hwrite, hcases⟩ := writeHeader_cases n header buffer s
      have hstep : writeHeaders n (header :: headers) buffer s = writeHeaders n headers buffer' s := by
        simp only [writeHeaders, List.foldl_cons, hwrite]
      rw [hstep, taken]
      rcases hcases with ⟨rfl, hfits⟩ | ⟨hlong, hwritten⟩
      · have hroom := h.of_fits hfits
        rw [← List.length_append] at hroom
        rw [if_pos hfits, ih _ hroom, blockBytes_cons, List.length_append, List.append_assoc]
      · obtain ⟨hlead, hroom⟩ := h.of_refused hlong
        obtain ⟨rfl, _⟩ : buffer' = buffer ∧ _ := hwritten.resolve_right (by omega)
        rw [if_neg (by omega), ih _ hroom]

theorem unchanged_iff_room {n : Nat} {headers : List HpackHeader} {buffer : Bytes} {s : Http2Connection} :
    (∀ call ∈ headerCalls n headers buffer s,
      n < call.before.length + (fieldBytes s.encoder call.header).length → call.after = call.before) ↔
      Room s.encoder n buffer.length headers := by
  induction headers generalizing buffer with
  | nil => exact ⟨fun _ => .nil _, fun _ call hmem => by cases hmem⟩
  | cons header headers ih =>
      obtain ⟨buffer', hwrite, hcases⟩ := writeHeader_cases n header buffer s
      simp only [headerCalls, hwrite, List.forall_mem_cons, ih]
      rcases hcases with ⟨rfl, hfits⟩ | ⟨hlong, hwritten⟩
      · rw [List.length_append]
        exact ⟨fun h => .fits hfits h.2, fun h => ⟨fun hlong => absurd hfits (by omega), h.of_fits hfits⟩⟩
      · rcases hwritten with ⟨rfl, hlead⟩ | ⟨hlead, hlonger⟩
        · exact ⟨fun h => .refused hlead h.2, fun h => ⟨fun _ => rfl, (h.of_refused hlong).2⟩⟩
        · constructor
          · rintro ⟨hunchanged, _⟩
            rw [hunchanged hlong] at hlonger
            omega
          · intro h
            have := (h.of_refused hlong).1
            omega

/-- Without a header that fits in part only, the ones accepted are the ones that fit. -/
theorem accepted_headerCalls {n : Nat} {headers : List HpackHeader} {buffer : Bytes} {s : Http2Connection}
    (h : Room s.encoder n buffer.length headers) :
    ((headerCalls n headers buffer s).filter (·.Accepted)).map HeaderCall.header =
      taken s.encoder n buffer.length headers := by
  induction headers generalizing buffer with
  | nil => rfl
  | cons header headers ih =>
      obtain ⟨buffer', hwrite, hcases⟩ := writeHeader_cases n header buffer s
      obtain ⟨byte, tail, hbytes, _⟩ := fieldBytes_head s.encoder header
      simp only [headerCalls, hwrite, taken]
      rcases hcases with ⟨rfl, hfits⟩ | ⟨hlong, hwritten⟩
      · have hroom := h.of_fits hfits
        rw [← List.length_append] at hroom
        rw [if_pos hfits, List.filter_cons_of_pos (by simp [HeaderCall.Accepted, hbytes]), List.map_cons, ih hroom,
          List.length_append]
      · obtain ⟨hlead, hroom⟩ := h.of_refused hlong
        obtain ⟨rfl, _⟩ : buffer' = buffer ∧ _ := hwritten.resolve_right (by omega)
        rw [if_neg (by omega), List.filter_cons_of_neg (by simp [HeaderCall.Accepted]), ih hroom]

/-! ## The frames of a block -/

theorem continuationFrames_payload {allowed streamId rounds : Nat} {data : Bytes} (hpos : 0 < allowed)
    (hrounds : data.length ≤ rounds) :
    (continuationFrames allowed streamId rounds data).flatMap Http2Frame.payload = data := by
  induction rounds generalizing data with
  | zero =>
      rw [List.eq_nil_of_length_eq_zero (by omega : data.length = 0)]
      rfl
  | succ rounds ih =>
      rw [continuationFrames]
      split
      case isTrue hnil => simp [hnil]
      case isFalse hne =>
        split
        · simp
        · have hlength := List.length_pos_of_ne_nil hne
          rw [List.flatMap_cons, ih (by rw [List.length_drop]; omega)]
          exact List.take_append_drop allowed data

/-- The frames that a block is split into carry the whole of it. -/
theorem split_payload {allowed : Nat} (frame : Http2Frame) (hpos : 0 < allowed) :
    (split allowed frame).flatMap Http2Frame.payload = frame.payload := by
  rw [split]
  split
  · simp
  · rw [List.flatMap_cons, continuationFrames_payload hpos (by simp [Http2Frame.length])]
    exact List.take_append_drop allowed frame.payload

/-! ## What is read of a head -/

theorem afterBlock_not_inserted (table : HpackTable) (headers : List HpackHeader) :
    table.afterBlock (headers.map fun header => (header, false)) = table := by
  induction headers with
  | nil => rfl
  | cons header headers ih =>
      rw [List.map_cons, HpackTable.afterBlock, HpackTable.after_false]
      exact ih

/-- A block is read as some headers exactly when they are the ones of it and the decoder reads them. -/
theorem decodeHpack_blockBytes {table decoder : HpackTable} {headers expected : List HpackHeader}
    (hsame : table.Same decoder) :
    (decodeHpack Viriatum.record id (blockBytes table headers)).run (decoder, []) = (.ok [], (decoder, expected)) ↔
      (∀ header ∈ headers, table.Reads header) ∧ HpackRing.sizeOf headers ≤ hpackMaxHeaderListSize ∧
        expected = headers := by
  constructor
  · intro hrun
    have h : wp (decodeHpack Viriatum.record id (blockBytes table headers)) _ _ (decoder, []) :=
      decodeRepresentations_exact false [] hsame le_rfl (Nat.zero_le hpackMaxHeaderListSize)
    rw [wp, hrun] at h
    obtain ⟨hreads, hlist, hkept⟩ := h
    exact ⟨hreads, by simpa using hlist, by simpa using hkept⟩
  · rintro ⟨hreads, hlist, rfl⟩
    have hheaders : Block.headers (expected.map fun header => (header, false)) = expected := by
      simp [Block.headers, Function.comp_def]
    have h := blockBytes_code hreads decoder hsame (blockBytes table expected).length 0 false [] le_rfl (by
      rw [hheaders]
      simpa using hlist)
    obtain ⟨rest, t, hrun, rfl, rfl⟩ := h.run_ok
    rw [afterBlock_not_inserted, hheaders] at hrun
    exact hrun

section Response

variable {service : Service} {n statusCode : Nat} {fields : List (Bytes × Bytes)} {s : Http2Connection}

theorem wireBlock_eq {last : Bool} (hframe : 0 < s.remote.maxFrameSize)
    (h : Room s.encoder n http2HeaderSize (statusHeader statusCode :: fieldHeaders service fields)) :
    wireBlock service n statusCode fields last s =
      blockBytes s.encoder
        (taken s.encoder n http2HeaderSize (statusHeader statusCode :: fieldHeaders service fields)) := by
  have hlength : (List.replicate http2HeaderSize (0 : UInt8)).length = http2HeaderSize := List.length_replicate
  rw [← hlength] at h
  rw [wireBlock, split_payload _ hframe, writeHead_payload, writeHeaders_taken _ h, hlength]
  exact List.drop_left' hlength

/-- The headers accepted are the ones that fit: the status, if it does, and the fields after it. -/
theorem accepted_responseCalls
    (h : Room s.encoder n http2HeaderSize (statusHeader statusCode :: fieldHeaders service fields)) :
    (if http2HeaderSize + (fieldBytes s.encoder (statusHeader statusCode)).length ≤ n then [statusHeader statusCode]
      else []) ++ ((responseCalls service n statusCode fields s).tail.filter (·.Accepted)).map HeaderCall.header =
      taken s.encoder n http2HeaderSize (statusHeader statusCode :: fieldHeaders service fields) := by
  have hlength : (List.replicate http2HeaderSize (0 : UInt8)).length = http2HeaderSize := List.length_replicate
  rw [← hlength] at h
  have hall := accepted_headerCalls h
  obtain ⟨buffer, hwrite, hcases⟩ := writeHeader_cases n (statusHeader statusCode) (List.replicate http2HeaderSize 0) s
  obtain ⟨byte, tail, hbytes, _⟩ := fieldBytes_head s.encoder (statusHeader statusCode)
  rw [hlength] at hall hcases
  rw [← hall, responseCalls]
  simp only [headerCalls, hwrite, List.tail_cons]
  rcases hcases with ⟨rfl, hfits⟩ | ⟨hlong, hwritten⟩
  · rw [if_pos hfits, List.filter_cons_of_pos (by simp [HeaderCall.Accepted, hbytes])]
    rfl
  · have hlead := (h.of_refused (hlength ▸ hlong)).1
    rw [hlength] at hlead
    obtain ⟨rfl, _⟩ : buffer = List.replicate http2HeaderSize 0 ∧ _ := hwritten.resolve_right (by omega)
    rw [if_neg (by omega), List.filter_cons_of_neg (by simp [HeaderCall.Accepted])]
    rfl

/-- The peer reads a response as what has been accepted of it exactly when it fits. -/
theorem head_agrees_iff_fits {last : Bool} (hframe : 0 < s.remote.maxFrameSize) :
    s.HeadAgrees service n statusCode fields last ↔ HeadFits service n statusCode fields s.encoder := by
  have hlength : (List.replicate http2HeaderSize (0 : UInt8)).length = http2HeaderSize := List.length_replicate
  constructor
  · intro h
    have hroom := unchanged_iff_room.mp h.unchanged
    rw [hlength] at hroom
    have hsame := HpackTable.Same.refl s.encoder
    have hdecodes := h.decodes s.encoder hsame
    rw [wireBlock_eq hframe hroom, decodeHpack_blockBytes hsame] at hdecodes
    obtain ⟨hreads, hlist, hexpected⟩ := hdecodes
    refine ⟨?_, hroom, hreads, hlist⟩
    by_contra hlong
    have haccepted := accepted_responseCalls hroom
    rw [if_neg hlong, List.nil_append] at haccepted
    rw [← haccepted] at hexpected
    exact List.cons_ne_self _ _ hexpected
  · intro h
    refine ⟨unchanged_iff_room.mpr (by rw [hlength]; exact h.room), fun decoder hsame => ?_⟩
    have haccepted := accepted_responseCalls h.room
    rw [if_pos h.status, List.singleton_append] at haccepted
    rw [wireBlock_eq hframe h.room, decodeHpack_blockBytes hsame]
    exact ⟨h.reads, h.list, haccepted⟩

end Response

/-! ## Samples -/

/-- A service that is only asked for its description. -/
def namedService : Service where
  description := bytes "viriatum"
  handle := fun _ _ => []

/-- The fields of a redirection. -/
def redirection : List (Bytes × Bytes) :=
  [(bytes "Connection", bytes "close"), (bytes "Location", bytes "/about")]

theorem redirection_fits : HeadFits namedService 64 302 redirection create.encoder := by
  have h : http2HeaderSize + (fieldBytes create.encoder (statusHeader 302)).length ≤ 64 ∧
      Room create.encoder 64 http2HeaderSize (statusHeader 302 :: fieldHeaders namedService redirection) ∧
      (∀ header ∈ taken create.encoder 64 http2HeaderSize (statusHeader 302 :: fieldHeaders namedService redirection),
        create.encoder.Reads header) ∧
      HpackRing.sizeOf (taken create.encoder 64 http2HeaderSize
        (statusHeader 302 :: fieldHeaders namedService redirection)) ≤ hpackMaxHeaderListSize := by
    decide +kernel
  exact ⟨h.1, h.2.1, h.2.2.1, h.2.2.2⟩

theorem head_agrees_redirection : create.HeadAgrees namedService 64 302 redirection true :=
  (head_agrees_iff_fits (by decide)).mpr redirection_fits

/-- A buffer with space for a part of the last field only. -/
theorem head_not_agrees : ¬ create.HeadAgrees namedService 26 302 redirection true := by
  intro h
  have hcall : ∃ call ∈ responseCalls namedService 26 302 redirection create,
      26 < call.before.length + (fieldBytes create.encoder call.header).length ∧ call.after ≠ call.before := by
    decide +kernel
  obtain ⟨call, hmem, hlong, hchanged⟩ := hcall
  exact hchanged (h.unchanged call hmem hlong)

end Http2Connection

end Viriatum
