import Viriatum.Http.HpackPeer
import Viriatum.Library.Traces
import Viriatum.Stream.Head

/-!
# The size of the table of the peer

The blocks that a session writes, read by a peer that announces the size of its table with the settings that it sends
between them.
-/

namespace Viriatum

open Library Effect

/-! ## What goes over the wire -/

/-- The sizes of the table that the entries of a frame of settings announce, in their order. -/
def headerTableSizes : (rounds : Nat) → Bytes → List Nat
  | 0, _ => []
  | rounds + 1, data =>
      let identifier := (data.getD 0 0).toNat <<< 8 ||| (data.getD 1 0).toNat
      (if identifier = 0x01 then [decodeNumberHttp2 (data.drop 2)] else []) ++
        headerTableSizes rounds (data.drop http2SettingSize)

/-- The headers of the block of a promise. -/
def promiseHeaders (request : HttpRequest) (path : Bytes) : List HpackHeader :=
  [⟨bytes ":method", bytes "GET"⟩, ⟨bytes ":scheme", request.scheme⟩, ⟨bytes ":path", path⟩] ++
    (if Http2Connection.cString request.authority ≠ [] then
      [⟨bytes ":authority", Http2Connection.cString request.authority⟩]
    else [])

def promiseSpace : Nat := http2HeaderSize + 4

namespace Http2Connection

def promiseCalls (slot : Nat) (path : Bytes) (s : Http2Connection) : List HeaderCall :=
  headerCalls (promiseSpace + viriatumHttpSize) (promiseHeaders (s.stream slot).request path)
    (List.replicate promiseSpace 0) s

end Http2Connection

/-- The headers that some calls have written. -/
def acceptedHeaders (calls : List HeaderCall) : List HpackHeader := (calls.filter (·.Accepted)).map HeaderCall.header

/-- What happens between two ends: a frame of settings arrives, the block of a response or of a promise is written, or the
session does anything else, which leaves the encoder and the settings of the peer as they are. -/
inductive HpackEvent where
  | settings (data : Bytes)
  | response (bufferSize statusCode : Nat) (fields : List (Bytes × Bytes)) (last : Bool)
  | promise (slot streamId : Nat) (path : Bytes)
  | other (session : Http2Connection)

/-- A block, the headers that were written to it and the decoder that it arrives at. -/
structure HpackTransfer where
  written : List HpackHeader
  block : Bytes
  peer : HpackPeer

/-- The block is accepted and gives the headers that were written; one that follows a reduction below the size in use
begins with an update to no more than the smallest size announced. -/
structure HpackTransfer.Right (t : HpackTransfer) : Prop where
  accepted : ∃ peer, t.peer.read t.block = some (t.written, peer)
  updated : ∀ size, t.peer.due = some size → HpackPeer.BeginsWithin t.block size

/-- A session, the decoder of its peer and the blocks so far, until either end gives up. -/
structure HpackRun where
  session : Http2Connection := .create
  peer : HpackPeer := {}
  running : Bool := true
  transfers : List HpackTransfer := []

namespace HpackRun

open Http2Connection

/-- Gives a block to the decoder of the peer, which gives up on one that it does not accept. -/
def transfer (r : HpackRun) (written : List HpackHeader) (block : Bytes) (session : Http2Connection) : HpackRun :=
  let transfers := r.transfers ++ [⟨written, block, r.peer⟩]
  match r.peer.read block with
  | some (_, peer) => { session, peer, running := true, transfers }
  | none => { session, peer := r.peer, running := false, transfers }

variable (service : Service)

def perform (r : HpackRun) : HpackEvent → HpackRun
  | .settings data =>
      let peer := r.peer.announce (headerTableSizes (data.length / http2SettingSize) data)
      match (applySettings data).run r.session with
      | (.ok _, session) => { r with session, peer }
      | (.error _, session) => { r with session, peer, running := false }
  | .response bufferSize statusCode fields last =>
      let (frame, session) := writeHead service bufferSize statusCode fields last r.session
      r.transfer (acceptedHeaders (responseCalls service bufferSize statusCode fields r.session)) frame.payload session
  | .promise slot streamId path =>
      let (frame, session) := promiseFrame slot streamId path r.session
      r.transfer (acceptedHeaders (promiseCalls slot path r.session)) (frame.payload.drop 4) session
  | .other session => { r with session := { session with encoder := r.session.encoder, remote := r.session.remote } }

def step (r : HpackRun) (event : HpackEvent) : HpackRun := if r.running then r.perform service event else r

def Right (r : HpackRun) : Prop := ∀ t ∈ r.transfers, t.Right

/-- No size below the one in use has been announced since the last block, and no header fits in part only. -/
def Meets (r : HpackRun) : HpackEvent → Prop
  | .response bufferSize statusCode fields _ => r.peer.due = none ∧
      Room r.session.encoder bufferSize http2HeaderSize (statusHeader statusCode :: fieldHeaders service fields)
  | .promise slot _ path => r.peer.due = none ∧
      Room r.session.encoder (promiseSpace + viriatumHttpSize) promiseSpace
        (promiseHeaders (r.session.stream slot).request path)
  | _ => True

/-! ## What is kept -/

variable {service : Service} {r : HpackRun}

/-- Neither end holds an entry, and every block so far has been right. -/
structure Sound (r : HpackRun) : Prop where
  encoder : r.session.encoder.list = []
  peer : r.peer.entries = []
  right : r.Right

theorem boundEncoder_list {headerTableSize : Nat} {s : Http2Connection} (h : s.encoder.list = []) :
    wp (boundEncoder headerTableSize) (fun _ s' => s'.encoder.list = []) (fun _ s' => s'.encoder.list = []) s := by
  unfold boundEncoder
  simp only [wp_bind, wp_get, wp_ite, wp_pure]
  split
  · cases hresize : s.encoder.resize headerTableSize with
    | error e => exact h
    | ok encoder =>
        have hlist : encoder.list = HpackRing.fitting headerTableSize s.encoder.list := by
          unfold HpackTable.resize at hresize
          split at hresize
          case h_1 ring hring =>
            cases hresize
            exact (HpackRing.resize_spec s.encoder.wf hring).2.2.2
          case h_2 => cases hresize
        show encoder.list = []
        rw [hlist, h, HpackRing.fitting]
  · exact h

theorem adjustWindows_list {difference : Int} {s : Http2Connection} (h : s.encoder.list = []) :
    wp (adjustWindows difference) (fun _ s' => s'.encoder.list = []) (fun _ s' => s'.encoder.list = []) s := by
  unfold adjustWindows
  simp only [wp_bind, wp_get]
  rcases (if difference ≠ 0 then adjustStreams difference s.streams else (none, s.streams)) with ⟨error, streams⟩
  simp only [wp_set]
  cases error <;> exact h

theorem applySettings_list (data : Bytes) {s : Http2Connection} (h : s.encoder.list = []) :
    wp (applySettings data) (fun _ s' => s'.encoder.list = []) (fun _ s' => s'.encoder.list = []) s := by
  unfold applySettings
  simp only [wp_bind, wp_get]
  rcases (decodeSettingsHttp2 data).run s.remote with ⟨result, remote⟩
  simp only [wp_bind, wp_set]
  cases result with
  | error e => exact h
  | ok u =>
      simp only [wp_bind]
      have hstart : ({ s with remote, history := .applied remote.initialWindowSize :: s.history } :
          Http2Connection).encoder.list = [] := h
      exact (adjustWindows_list hstart).mono (fun _ _ h => boundEncoder_list h) fun _ _ h => h

/-- The block of some headers that none of fits in part only is right, when no update is due. -/
theorem Sound.transfer {written headers : List HpackHeader} {session : Http2Connection} (h : r.Sound)
    (hdue : r.peer.due = none) (hencoder : session.encoder.list = []) (hwritten : written = headers) :
    (r.transfer written (blockBytes r.session.encoder headers) session).Sound := by
  have hread := HpackPeer.read_bytes (h.peer.trans h.encoder.symm) hdue headers
  simp only [HpackRun.transfer, hread]
  refine ⟨hencoder, h.peer, ?_⟩
  intro t ht
  cases List.mem_append.mp ht with
  | inl hold => exact h.right t hold
  | inr hnew =>
      rw [List.mem_singleton.mp hnew, hwritten]
      exact ⟨⟨_, hread⟩, by simp [hdue]⟩

theorem writeHeaders_session (n : Nat) (headers : List HpackHeader) (buffer : Bytes) (s : Http2Connection) :
    (writeHeaders n headers buffer s).2 = s := by
  induction headers generalizing buffer with
  | nil => rfl
  | cons header headers ih =>
      obtain ⟨buffer', hwrite, -⟩ := writeHeader_cases n header buffer s
      have hstep : writeHeaders n (header :: headers) buffer s = writeHeaders n headers buffer' s := by
        simp only [writeHeaders, List.foldl_cons, hwrite]
      rw [hstep, ih]

theorem writeHead_encoder (n statusCode : Nat) (fields : List (Bytes × Bytes)) (last : Bool) (s : Http2Connection) :
    (writeHead service n statusCode fields last s).2.encoder = s.encoder := by
  obtain ⟨first, hfirst, -⟩ := writeHeader_cases n (statusHeader statusCode) (List.replicate http2HeaderSize 0) s
  obtain ⟨second, hsecond, -⟩ := writeHeader_cases n ⟨bytes "server", service.description⟩ first s
  have hstatus : writeStatusHttp2 service n statusCode s = (second, s) := by
    rw [statusHeader] at hfirst
    simp only [writeStatusHttp2, hfirst, hsecond]
  have hsession := writeHeaders_session n (fields.filterMap fieldHeader) second s
  simp only [writeHead, hstatus, writeFields_eq, writeEndHttp2, hsession]
  split
  · split <;> rfl
  · rfl

/-- The frame of a promise has the block of its headers behind the identifier. -/
theorem promiseFrame_eq (slot streamId : Nat) (path : Bytes) (s : Http2Connection) :
    promiseFrame slot streamId path s =
      ({ type := .pushPromise
         flags := http2FlagEndHeaders
         streamId := (s.stream slot).streamId
         payload := encodeNumberHttp2 streamId ++
          (writeHeaders (promiseSpace + viriatumHttpSize) (promiseHeaders (s.stream slot).request path)
            (List.replicate promiseSpace 0) s).1.drop promiseSpace }, s) := by
  have hsession := writeHeaders_session (promiseSpace + viriatumHttpSize) (promiseHeaders (s.stream slot).request path)
    (List.replicate promiseSpace 0) s
  have hpair : promiseFrame slot streamId path s =
      ({ type := .pushPromise
         flags := http2FlagEndHeaders
         streamId := (s.stream slot).streamId
         payload := encodeNumberHttp2 streamId ++
          (writeHeaders (promiseSpace + viriatumHttpSize) (promiseHeaders (s.stream slot).request path)
            (List.replicate promiseSpace 0) s).1.drop promiseSpace },
        (writeHeaders (promiseSpace + viriatumHttpSize) (promiseHeaders (s.stream slot).request path)
          (List.replicate promiseSpace 0) s).2) := by
    by_cases hauthority : cString (s.stream slot).request.authority ≠ []
    · simp only [promiseFrame, promiseHeaders, if_pos hauthority]
      rfl
    · simp only [promiseFrame, promiseHeaders, if_neg hauthority]
      rfl
  rw [hpair, hsession]

theorem step_sound {event : HpackEvent} (h : r.Sound) (hmeets : r.Meets service event) : (r.step service event).Sound := by
  rw [step]
  split
  case isFalse => exact h
  case isTrue =>
    cases event with
    | settings data =>
        have hlist := applySettings_list data h.encoder
        unfold wp at hlist
        rw [perform]
        split at hlist <;> rename_i hrun <;> rw [hrun]
        · exact ⟨hlist, by simpa using h.peer, h.right⟩
        · exact ⟨hlist, by simpa using h.peer, h.right⟩
    | response n statusCode fields last =>
        obtain ⟨hdue, hroom⟩ := hmeets
        have hlength : (List.replicate http2HeaderSize (0 : UInt8)).length = http2HeaderSize := List.length_replicate
        rw [← hlength] at hroom
        have haccepted : acceptedHeaders (responseCalls service n statusCode fields r.session) = _ :=
          accepted_headerCalls hroom
        have hpayload := writeHead_payload service n statusCode fields last r.session
        rw [writeHeaders_taken _ hroom, List.drop_left' hlength] at hpayload
        simp only [perform, hpayload]
        exact h.transfer hdue ((congrArg (fun encoder => encoder.list)
          (writeHead_encoder n statusCode fields last r.session)).trans h.encoder) haccepted
    | promise slot streamId path =>
        obtain ⟨hdue, hroom⟩ := hmeets
        have hlength : (List.replicate promiseSpace (0 : UInt8)).length = promiseSpace := List.length_replicate
        have hroom : Room r.session.encoder (promiseSpace + viriatumHttpSize) (List.replicate promiseSpace (0 : UInt8)).length
            (promiseHeaders (r.session.stream slot).request path) := by
          rw [hlength]
          exact hroom
        have haccepted : acceptedHeaders (promiseCalls slot path r.session) = _ := accepted_headerCalls hroom
        have hnumber : (encodeNumberHttp2 streamId).length = 4 := rfl
        simp only [perform, promiseFrame_eq, List.drop_left' hnumber, writeHeaders_taken _ hroom, List.drop_left' hlength]
        exact h.transfer hdue h.encoder haccepted
    | other session => exact ⟨h.encoder, h.peer, h.right⟩

/-- In every run in which no size below the one in use is announced before a block, and in which no header fits in part
only, every block is right. -/
theorem negotiation_right (service : Service) (events : List HpackEvent)
    (h : Throughout (step service) (fun r event => r.running = true → r.Meets service event) {} events) :
    ∀ earlier, earlier <+: events → (earlier.foldl (step service) {}).Right := by
  rintro earlier ⟨later, rfl⟩
  have hearlier := (throughout_append.mp h).1
  have hsound := hearlier.invariant (I := Sound) (fun r event hsound hmeets => ?_) ⟨rfl, rfl, by simp [Right]⟩
  · exact hsound.right
  · by_cases hrunning : r.running = true
    · exact step_sound hsound (hmeets hrunning)
    · simpa [step, hrunning] using hsound

/-- A peer that announces a size of its table and is then sent a redirection. -/
def announcedRun (size : Nat) : List HpackEvent :=
  [.settings ([0x00, 0x01] ++ encodeNumberHttp2 size), .response 64 302 redirection true]

theorem negotiation_right_larger : ((announcedRun 8192).foldl (step namedService) {}).Right := by
  refine negotiation_right namedService (announcedRun 8192) ⟨fun _ => trivial, fun _ => ?_, trivial⟩ _ List.prefix_rfl
  have hmeets : ∀ r, r = step namedService {} (.settings ([0x00, 0x01] ++ encodeNumberHttp2 8192)) →
      r.peer.due = none ∧ Room r.session.encoder 64 http2HeaderSize
        (statusHeader 302 :: fieldHeaders namedService redirection) := by
    rintro r rfl
    decide +kernel
  exact hmeets _ rfl

/-- The peer takes its table away, and the response that follows says nothing of it. -/
theorem not_negotiation_right : ¬ ∀ (service : Service) (events : List HpackEvent),
    ∀ earlier, earlier <+: events → (earlier.foldl (step service) {}).Right := by
  intro h
  have hright := h namedService (announcedRun 0) (announcedRun 0) List.prefix_rfl
  have hmissed : ∃ t ∈ ((announcedRun 0).foldl (step namedService) {}).transfers,
      t.peer.due = some 0 ∧ ¬ t.block.getD 0 0 &&& 0xe0 = 0x20 := by decide +kernel
  obtain ⟨t, hmem, hdue, hnot⟩ := hmissed
  exact hnot ((hright t hmem).updated 0 hdue).1

end HpackRun

end Viriatum
