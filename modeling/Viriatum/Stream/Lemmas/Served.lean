import Viriatum.Stream.Lemmas.Calls

/-!
# What a call leaves alone

The operations of a handler write and promise; of a stream of the table they change no more than what it has to write,
and they call handlers only for the messages of the promises that they make.
-/

namespace Viriatum

open Library

/-- The message that a call is about. -/
def Callback.address : Callback → Option Nat
  | .set a => some a
  | .unset a => some a
  | .messageBegin a => some a
  | .url a _ => some a
  | .headerField a _ => some a
  | .headerValue a _ => some a
  | .headersComplete a => some a
  | .body a _ => some a
  | .messageComplete a => some a
  | .written _ => none

/-- The part of a stream that the operations of the handlers leave alone. -/
structure StreamCore where
  streamId : Nat
  receiveWindow : Int
  request : HttpRequest
  endStream : Bool
  headersComplete : Bool
  contentLength : Nat
  announced : Bool
  received : Nat
deriving DecidableEq

def Http2Stream.core (stream : Http2Stream) : StreamCore where
  streamId := stream.streamId
  receiveWindow := stream.receiveWindow
  request := stream.request
  endStream := stream.endStream
  headersComplete := stream.headersComplete
  contentLength := stream.contentLength
  announced := stream.announced
  received := stream.received

/-- The part of a session that the operations of the handlers leave alone. -/
structure SessionCore where
  settings : Http2Settings
  remote : Http2Settings
  decoder : HpackTable
  lastStreamId : Nat
  receiveWindow : Int
  preface : Bool
  goaway : Bool
  continuation : Nat
  refused : Nat
  continuationFlags : UInt8
  block : Bytes
  connectionClosed : Bool
deriving DecidableEq

def Http2Connection.core (s : Http2Connection) : SessionCore where
  settings := s.settings
  remote := s.remote
  decoder := s.decoder
  lastStreamId := s.lastStreamId
  receiveWindow := s.receiveWindow
  preface := s.preface
  goaway := s.goaway
  continuation := s.continuation
  refused := s.refused
  continuationFlags := s.continuationFlags
  block := s.block
  connectionClosed := s.connectionClosed

/-- What writing makes of the state of a stream. -/
inductive StateServed : Http2StreamState → Http2StreamState → Prop
  | refl (state : Http2StreamState) : StateServed state state
  | ended : StateServed .open .halfClosedLocal
  | answered : StateServed .reservedLocal .halfClosedRemote

theorem StateServed.trans {state state' state'' : Http2StreamState} (h : StateServed state state')
    (h' : StateServed state' state'') : StateServed state state'' := by
  cases h with
  | refl => exact h'
  | ended =>
      cases h'
      exact .ended
  | answered =>
      cases h'
      exact .answered

/-- A stream that the peer has closed stays closed by it. -/
theorem StateServed.of_halfClosedRemote {state state' : Http2StreamState} (h : StateServed state state')
    (hstate : state = .halfClosedRemote) : state' = .halfClosedRemote := by
  cases h with
  | refl => exact hstate
  | ended => cases hstate
  | answered => cases hstate

/-- An event of the writing of a handler or of a message that is promised; the addresses of the promised ones are not
below a bound. -/
def Event.Serves (n : Nat) : Event → Prop
  | .wrote _ frame => frame.type ≠ .rstStream ∧ frame.type ≠ .goaway
  | .called callback => ∀ a, callback.address = some a → n ≤ a
  | .opened address _ => n ≤ address
  | .promised _ _ _ => True
  | _ => False

/-- A stream that a promise has reserved. -/
structure Http2Stream.Reserved (n : Nat) (stream : Http2Stream) : Prop where
  address : n ≤ stream.request.address
  endStream : stream.endStream = true
  headersComplete : stream.headersComplete = true
  state : stream.state = .reservedLocal ∨ stream.state = .halfClosedRemote

/-- The operations of the handlers keep a reservation. -/
theorem Http2Stream.Reserved.served {n : Nat} {stream stream' : Http2Stream} (h : stream.Reserved n)
    (hcore : stream'.core = stream.core) (hstate : StateServed stream.state stream'.state) : stream'.Reserved n := by
  have hrequest : stream'.request = stream.request := congrArg StreamCore.request hcore
  have hend : stream'.endStream = stream.endStream := congrArg StreamCore.endStream hcore
  have hcomplete : stream'.headersComplete = stream.headersComplete := congrArg StreamCore.headersComplete hcore
  refine ⟨hrequest ▸ h.address, hend.trans h.endStream, hcomplete.trans h.headersComplete, ?_⟩
  generalize stream'.state = state at hstate
  rcases h.state with hold | hold
  · rw [hold] at hstate
    cases hstate with
    | refl => exact .inl rfl
    | answered => exact .inr rfl
  · rw [hold] at hstate
    cases hstate
    exact .inr rfl

namespace Http2Connection

/-- The operations of handlers lead from a session to another one. -/
structure Served (n : Nat) (s s' : Http2Connection) : Prop where
  count : s.count ≤ s'.count
  room : s'.count ≤ max s.count s.remote.maxConcurrentStreams
  stream : ∀ slot, slot < s.count → (s'.stream slot).core = (s.stream slot).core
  state : ∀ slot, slot < s.count → StateServed (s.stream slot).state (s'.stream slot).state
  reserved : ∀ slot, s.count ≤ slot → slot < s'.count → (s'.stream slot).Reserved n
  core : s'.core = s.core
  nextAddress : s.nextAddress ≤ s'.nextAddress
  history : ∃ events, s'.history = events ++ s.history ∧ ∀ event ∈ events, event.Serves n

variable {n : Nat} {s s' s'' : Http2Connection} {slot : Nat}

namespace Served

theorem remote (h : Served n s s') : s'.remote = s.remote := congrArg SessionCore.remote h.core

@[refl] theorem refl (n : Nat) (s : Http2Connection) : Served n s s where
  count := Nat.le_refl _
  room := Nat.le_max_left _ _
  stream _ _ := rfl
  state _ _ := .refl _
  reserved slot h h' := absurd h' (Nat.not_lt.mpr h)
  core := rfl
  nextAddress := Nat.le_refl _
  history := ⟨[], rfl, by simp⟩

theorem trans (h : Served n s s') (h' : Served n s' s'') : Served n s s'' where
  count := Nat.le_trans h.count h'.count
  room := by
    have hroom := h.room
    have hroom' := h'.room
    rw [h.remote] at hroom'
    omega
  stream slot hlt := (h'.stream slot (Nat.lt_of_lt_of_le hlt h.count)).trans (h.stream slot hlt)
  state slot hlt := (h.state slot hlt).trans (h'.state slot (Nat.lt_of_lt_of_le hlt h.count))
  reserved slot hge hlt := by
    by_cases hslot : slot < s'.count
    · exact (h.reserved slot hge hslot).served (h'.stream slot hslot) (h'.state slot hslot)
    · exact h'.reserved slot (Nat.le_of_not_lt hslot) hlt
  core := h'.core.trans h.core
  nextAddress := Nat.le_trans h.nextAddress h'.nextAddress
  history := by
    obtain ⟨events, hevents, hserves⟩ := h.history
    obtain ⟨events', hevents', hserves'⟩ := h'.history
    refine ⟨events' ++ events, by rw [hevents', hevents, List.append_assoc], fun event hmem => ?_⟩
    rcases List.mem_append.mp hmem with hmem | hmem
    · exact hserves' event hmem
    · exact hserves event hmem

/-- A change outside of the table and the core. -/
theorem of_same (hstreams : s'.streams = s.streams) (hcore : s'.core = s.core) (haddress : s'.nextAddress = s.nextAddress)
    (hhistory : ∃ events, s'.history = events ++ s.history ∧ ∀ event ∈ events, event.Serves n) : Served n s s' := by
  have hstream : ∀ slot, s'.stream slot = s.stream slot := fun slot => by simp only [Http2Connection.stream, hstreams]
  have hcount : s'.count = s.count := by simp only [Http2Connection.count, hstreams]
  constructor
  case count => exact Nat.le_of_eq hcount.symm
  case room => exact hcount ▸ Nat.le_max_left _ _
  case stream => exact fun slot _ => by rw [hstream]
  case state =>
    intro slot _
    rw [hstream]
    exact .refl _
  case reserved =>
    intro slot hge hlt
    simp only [Http2Connection.count, hstreams] at hge hlt
    omega
  case core => exact hcore
  case nextAddress => exact Nat.le_of_eq haddress.symm
  case history => exact hhistory

/-- A stream of the table is put in the place of what it comes from. -/
theorem set {stream : Http2Stream} (hcore : stream.core = (s.stream slot).core)
    (hstate : StateServed (s.stream slot).state stream.state) : Served n s { s with streams := s.streams.set slot stream } := by
  have hstream : ∀ i, i < s.count → ({ s with streams := s.streams.set slot stream } : Http2Connection).stream i =
      if i = slot then stream else s.stream i := by
    intro i hi
    simp only [Http2Connection.stream, List.getD_eq_getElem?_getD, List.getElem?_set]
    by_cases heq : slot = i
    · subst heq
      simp [hi]
    · simp [heq, Ne.symm heq]
  constructor
  case count => simp [Http2Connection.count]
  case room => simpa [Http2Connection.count] using Nat.le_max_left _ _
  case stream =>
    intro i hi
    rw [hstream i hi]
    split
    case isTrue h => rw [h, hcore]
    case isFalse => rfl
  case state =>
    intro i hi
    rw [hstream i hi]
    split
    case isTrue h => exact h ▸ hstate
    case isFalse => exact .refl _
  case reserved =>
    intro i hge hlt
    simp only [Http2Connection.count, List.length_set] at hge hlt
    omega
  case core => rfl
  case nextAddress => exact Nat.le_refl _
  case history => exact ⟨[], rfl, by simp⟩

theorem modify {f : Http2Stream → Http2Stream} (hcore : (f (s.stream slot)).core = (s.stream slot).core)
    (hstate : StateServed (s.stream slot).state (f (s.stream slot)).state) : Served n s (s.modifyStream slot f) := by
  have hset : s.modifyStream slot f = { s with streams := s.streams.set slot (f (s.stream slot)) } := by
    unfold modifyStream
    by_cases hlt : slot < s.count
    · rw [List.modify_eq_set_getElem? , Http2Connection.stream, List.getD_eq_getElem?_getD,
        List.getElem?_eq_getElem hlt]
      rfl
    · have hge : s.streams.length ≤ slot := Nat.le_of_not_lt hlt
      rw [List.set_eq_of_length_le hge, List.modify_eq_self hge]
  rw [hset]
  exact set hcore hstate

theorem record {event : Event} (h : event.Serves n) : Served n s (s.record event) :=
  of_same rfl rfl rfl ⟨[event], rfl, by simpa using h⟩

end Served

/-! ## Writing -/

theorem queueFrames_served {owner : Option Nat} {frames : List Http2Frame} (callback : Http2Callback)
    (h : ∀ frame ∈ frames, frame.type ≠ .rstStream ∧ frame.type ≠ .goaway) :
    Served n s (queueFrames owner frames callback s) := by
  refine Served.of_same rfl rfl rfl ⟨(frames.map (Event.wrote owner)).reverse, rfl, fun event hmem => ?_⟩
  rw [List.mem_reverse, List.mem_map] at hmem
  obtain ⟨frame, hframe, rfl⟩ := hmem
  exact h frame hframe

theorem completed_served (stream : Http2Stream) : StateServed stream.state (Http2Stream.completed stream).state := by
  simp only [Http2Stream.completed]
  split
  case isTrue h =>
    rw [h]
    exact .ended
  case isFalse => exact .refl _

theorem flushFragment_served (fragment : Http2Pending) : Served n s (s.flushFragment slot fragment) := by
  have hwrote : ∀ {stream : Http2Stream} {s' : Http2Connection} {owner : Option Nat} {frame : Http2Frame},
      stream.core = (s.stream slot).core → StateServed (s.stream slot).state stream.state → frame.type = .data →
      s'.streams = s.streams.set slot stream → s'.core = s.core → s'.nextAddress = s.nextAddress →
      s'.history = .wrote owner frame :: s.history → Served n s s' := by
    intro stream s' owner frame hcore hstate hframe hstreams hsame haddress hhistory
    have hset : Served n s { s with streams := s.streams.set slot stream } := Served.set hcore hstate
    exact hset.trans (Served.of_same hstreams hsame haddress ⟨[_], hhistory, by simp [Event.Serves, hframe]⟩)
  by_cases hlast : fragment.last = true ∧ s.flushAllowed slot fragment = fragment.remaining
  · refine hwrote ?_ ?_ ?_ (by simp only [flushFragment, if_pos hlast]; rfl) rfl rfl rfl
    · rfl
    · exact completed_served _
    · rfl
  · refine hwrote ?_ ?_ ?_ (by simp only [flushFragment, if_neg hlast]; rfl) rfl rfl rfl
    · rfl
    · exact .refl _
    · rfl

theorem flushStream_served {rounds : Nat} : Served n s (flushStream slot rounds s) := by
  induction rounds generalizing s with
  | zero => rfl
  | succ rounds ih =>
      unfold flushStream
      split
      case h_1 => rfl
      case h_2 =>
        split
        · rfl
        · exact (flushFragment_served _).trans ih

theorem scheduleRounds_served {rounds : Nat} : Served n s (scheduleRounds rounds s) := by
  induction rounds generalizing s with
  | zero => rfl
  | succ rounds ih =>
      unfold scheduleRounds
      split
      case h_1 => rfl
      case h_2 chosen _ =>
        have hflush : Served n s (s.flush chosen) := flushStream_served
        dsimp only
        split
        · exact hflush
        · exact hflush.trans ih

theorem schedule_served : Served n s s.schedule := scheduleRounds_served

theorem encoder_served (encoder : HpackTable) : Served n s { s with encoder } := .of_same rfl rfl rfl ⟨[], rfl, by simp⟩

theorem writeEndHttp2_served {buffer : Bytes} {last : Bool} : Served n s (writeEndHttp2 buffer last s).2 := by
  unfold writeEndHttp2
  dsimp only
  split
  · split
    · exact .modify rfl (completed_served _)
    · rfl
  · rfl

theorem writeHead_served (service : Service) (bufferSize statusCode : Nat) (fields : List (Bytes × Bytes)) (last : Bool) :
    Served n s (writeHead service bufferSize statusCode fields last s).2 := by
  obtain ⟨_, hstatus⟩ := writeStatusHttp2_same service bufferSize statusCode s
  obtain ⟨_, hfields⟩ := writeFields_same bufferSize fields (writeStatusHttp2 service bufferSize statusCode s)
  rw [hstatus] at hfields
  unfold writeHead
  dsimp only
  rw [hfields]
  exact (encoder_served _).trans writeEndHttp2_served

theorem writeFlushHttp2_served {frame : Http2Frame} {tag : Option Nat} (h : frame.type = .headers) :
    Served n s (writeFlushHttp2 frame tag s) := by
  unfold writeFlushHttp2
  split
  case h_1 => rfl
  case h_2 slot _ =>
    refine Served.trans (Served.modify rfl ?_) (queueFrames_served _ fun f hf => ?_)
    · simp only
      split
      case isTrue hstate =>
        rw [hstate]
        exact .answered
      case isFalse => exact .refl _
    · obtain ⟨htype, -⟩ := split_spec f hf
      rw [h] at htype
      rcases htype with htype | htype <;> simp [htype]

theorem writeConnection_served {frame : Http2Frame} {tag : Nat} (h : frame.type = .headers) :
    Served n s (writeConnection frame tag s) := by
  refine queueFrames_served _ fun f hf => ?_
  rw [List.mem_singleton] at hf
  simp [hf, h]

theorem writeChunkHttp2_served {data : Bytes} {last : Bool} {tag : Option Nat} :
    Served n s (writeChunkHttp2 data last tag s) := by
  unfold writeChunkHttp2
  split
  case h_1 => rfl
  case h_2 => exact (Served.modify rfl (.refl _)).trans schedule_served

/-! ## Promises -/

theorem activate_served : Served n s (s.activate slot) := .of_same rfl rfl rfl ⟨[], rfl, by simp⟩

theorem address_of_served (h : Served n s s') (hlt : slot < s.count) :
    (s'.stream slot).request = (s.stream slot).request := congrArg StreamCore.request (h.stream slot hlt)

theorem setHandler_served (h : n ≤ (s.stream slot).request.address) (hlt : slot < s.count) :
    Served n s (setHandler slot s) := by
  unfold setHandler
  dsimp only
  have hset : Served n s (s.modifyStream slot fun stream => { stream with handler := some baseHandler }) :=
    .modify rfl (.refl _)
  have hcall : Served n s (((s.modifyStream slot fun stream => { stream with handler := some baseHandler }).activate
      slot).record (.called (.set ((s.modifyStream slot fun stream =>
        { stream with handler := some baseHandler }).stream slot).request.address))) := by
    refine (hset.trans activate_served).trans (.record fun a ha => ?_)
    rw [address_of_served hset hlt] at ha
    cases ha
    exact h
  exact (hcall.trans (.modify rfl (.refl _))).trans activate_served

theorem reserveStream_served (streamId : Nat) (path : Bytes) (h : n ≤ s.nextAddress)
    (hroom : s.count < s.remote.maxConcurrentStreams) : Served n s (reserveStream slot streamId path s) := by
  have hcount : (reserveStream slot streamId path s).count = s.count + 1 := by
    simp [reserveStream, count]
  have hstream : ∀ i, i < s.count → (reserveStream slot streamId path s).stream i = s.stream i := by
    intro i hi
    simp only [stream, reserveStream, List.getD_eq_getElem?_getD, List.getElem?_append_left hi]
  constructor
  case count => omega
  case room => omega
  case stream => exact fun i hi => by rw [hstream i hi]
  case state =>
    intro i hi
    rw [hstream i hi]
    exact .refl _
  case reserved =>
    intro i hge hlt
    have hi : i = s.count := by omega
    subst hi
    simp only [stream, reserveStream, List.getD_eq_getElem?_getD, List.getElem?_concat_length, Option.getD_some]
    exact ⟨h, rfl, rfl, .inl rfl⟩
  case core => rfl
  case nextAddress => exact Nat.le_succ _
  case history =>
    refine ⟨[_, _], rfl, fun event hmem => ?_⟩
    simp only [List.mem_cons, List.not_mem_nil, or_false] at hmem
    rcases hmem with rfl | rfl
    · exact h
    · trivial

section Calls

variable {calls : Callback → Http2Connection → Http2Connection}

/-- What the calls within a call are to do: the ones about messages that are promised. -/
def CallsServe (n : Nat) (calls : Callback → Http2Connection → Http2Connection) : Prop :=
  ∀ callback s, (∀ a, callback.address = some a → n ≤ a) → n ≤ s.nextAddress → Served n s (calls callback s)

theorem callPromised_served (hcalls : CallsServe n calls) (haddress : n ≤ (s.stream slot).request.address)
    (hn : n ≤ s.nextAddress) : Served n s (callPromised calls slot s) := by
  have hone : ∀ callback : Callback, callback.address = some (s.stream slot).request.address →
      ∀ a, callback.address = some a → n ≤ a := by
    intro callback hcallback a ha
    rw [hcallback, Option.some.injEq] at ha
    exact ha ▸ haddress
  have hbegin := hcalls (.messageBegin (s.stream slot).request.address) s (hone _ rfl) hn
  have hurl := hbegin.trans (hcalls (.url (s.stream slot).request.address (s.stream slot).request.path) _ (hone _ rfl)
    (Nat.le_trans hn hbegin.nextAddress))
  have hhead := hurl.trans (hcalls (.headersComplete (s.stream slot).request.address) _ (hone _ rfl)
    (Nat.le_trans hn hurl.nextAddress))
  have hend := hhead.trans (hcalls (.messageComplete (s.stream slot).request.address) _ (hone _ rfl)
    (Nat.le_trans hn hhead.nextAddress))
  exact hend.trans (.modify rfl (.refl _))

theorem pushStream_served {path : Bytes} (hcalls : CallsServe n calls) (hn : n ≤ s.nextAddress) :
    Served n s (pushStream calls slot path s) := by
  unfold pushStream
  split
  · rfl
  · split
    case isTrue => rfl
    case isFalse hfull =>
      dsimp only
      have hskip : Served n s { s with pushStreamId := (s.pushStreamId + 2) % 2 ^ 32 } :=
        .of_same rfl rfl rfl ⟨[], rfl, by simp⟩
      split
      · exact hskip
      · obtain ⟨ht, hid, encoder, hs⟩ := promiseFrame_spec slot ((s.pushStreamId + 2) % 2 ^ 32) path
          { s with pushStreamId := (s.pushStreamId + 2) % 2 ^ 32 }
        rw [hs]
        generalize hpushed : ({ s with pushStreamId := (s.pushStreamId + 2) % 2 ^ 32, encoder } : Http2Connection) = t
        have hbefore : Served n s t := hpushed ▸ .of_same rfl rfl rfl ⟨[], rfl, by simp⟩
        generalize (promiseFrame slot ((s.pushStreamId + 2) % 2 ^ 32) path
          { s with pushStreamId := (s.pushStreamId + 2) % 2 ^ 32 }).1 = frame at ht
        have hqueue : Served n t (queueFrames (some (t.stream slot).request.address) [frame] .none t) := by
          refine queueFrames_served _ fun f hf => ?_
          rw [List.mem_singleton] at hf
          simp [hf, ht]
        have hroom : (queueFrames (some (t.stream slot).request.address) [frame] .none t).count <
            (queueFrames (some (t.stream slot).request.address) [frame] .none t).remote.maxConcurrentStreams := by
          have hnot := not_or.mp hfull
          rw [← hpushed]
          exact Nat.lt_of_not_le hnot.1
        generalize queueFrames (some (t.stream slot).request.address) [frame] .none t = u at hqueue hroom ⊢
        have hn' : n ≤ u.nextAddress := Nat.le_trans hn (hbefore.trans hqueue).nextAddress
        have hreserve : Served n u (reserveStream slot ((s.pushStreamId + 2) % 2 ^ 32) path u) :=
          reserveStream_served _ path hn' hroom
        have hlt : u.count < (reserveStream slot ((s.pushStreamId + 2) % 2 ^ 32) path u).count := by
          simp [reserveStream, count]
        generalize reserveStream slot ((s.pushStreamId + 2) % 2 ^ 32) path u = v at hreserve hlt ⊢
        have haddress := (hreserve.reserved _ (Nat.le_refl _) hlt).address
        have hset : Served n v (setHandler u.count v) := setHandler_served haddress hlt
        have haddress' : n ≤ ((setHandler u.count v).stream u.count).request.address := by
          rw [address_of_served hset hlt]
          exact haddress
        have hcalled := callPromised_served hcalls haddress' (Nat.le_trans hn' (hreserve.trans hset).nextAddress)
        exact ((((hbefore.trans hqueue).trans hreserve).trans hset).trans hcalled).trans activate_served

/-- What makes no promise only writes. -/
theorem perform_quiet (service : Service) {action : HandlerAction} (h : ∀ streamId path, action ≠ .pushStream streamId path) :
    Served n s (perform calls service action s) := by
  cases action with
  | select address =>
      simp only [perform, select]
      split
      · rfl
      · exact .of_same rfl rfl rfl ⟨[], rfl, by simp⟩
  | setHandler handler => exact .of_same rfl rfl rfl ⟨[], rfl, by simp⟩
  | writeFlush bufferSize statusCode fields last tag =>
      obtain ⟨-, ht, -⟩ := writeHead_spec service bufferSize statusCode fields last s
      exact (writeHead_served service bufferSize statusCode fields last).trans (writeFlushHttp2_served ht)
  | writeConnection bufferSize statusCode fields last tag =>
      obtain ⟨-, ht, -⟩ := writeHead_spec service bufferSize statusCode fields last s
      exact (writeHead_served service bufferSize statusCode fields last).trans (writeConnection_served ht)
  | writeChunk data last tag => exact writeChunkHttp2_served
  | pushStream streamId path => exact absurd rfl (h streamId path)

theorem perform_served (service : Service) (action : HandlerAction) (hcalls : CallsServe n calls)
    (hn : n ≤ s.nextAddress) : Served n s (perform calls service action s) := by
  cases action with
  | pushStream streamId path =>
      simp only [perform]
      split
      · rfl
      · exact pushStream_served hcalls hn
  | _ => exact perform_quiet service (by simp)

theorem performAll_served (service : Service) (actions : List HandlerAction) (hcalls : CallsServe n calls)
    (hn : n ≤ s.nextAddress) : Served n s (performAll calls service actions s) := by
  induction actions generalizing s with
  | nil => rfl
  | cons action actions ih =>
      have hfirst := perform_served service action hcalls hn
      exact hfirst.trans (ih (Nat.le_trans hn hfirst.nextAddress))

end Calls

/-! ## Calls -/

theorem callWithin_serve (service : Service) (depth : Nat) : CallsServe n (callWithin service depth) := by
  induction depth with
  | zero =>
      intro callback s hcallback _
      exact Served.record hcallback
  | succ depth ih =>
      intro callback s hcallback hn
      have hrecord : Served n s (s.record (.called callback)) := Served.record hcallback
      exact hrecord.trans (performAll_served service _ ih hn)

/-- What a handler does once it is called. -/
theorem call_served (service : Service) (callback : Callback) (hn : n ≤ s.nextAddress) :
    Served n (s.record (.called callback)) (s.call service callback) :=
  performAll_served service _ (callWithin_serve service _) hn

end Http2Connection

end Viriatum
