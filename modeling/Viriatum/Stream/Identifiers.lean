import Viriatum.Stream.Lemmas.Steady
import Viriatum.Stream.Resets

/-!
# The identifiers of the streams

The identifiers that the peer asks for and the ones that are promised, in the order in which they enter the table. As
long as the counter of the promises does not come round they are never taken twice, and what is closed stays closed.
-/

namespace Viriatum

open Library Effect

/-! ## Identifiers of a history -/

/-- The identifiers of the streams that have entered the table, the latest first. -/
def entered (history : List Event) : List Nat :=
  history.filterMap fun
    | .opened _ streamId => some streamId
    | _ => none

/-- The identifiers that have been promised. -/
def promised (history : List Event) : List Nat :=
  history.filterMap fun
    | .promised _ streamId _ => some streamId
    | _ => none

/-- The identifiers of the streams that the peer has asked for: the ones that enter the table without a promise. -/
def accepted : List Event → List Nat
  | [] => []
  | .opened _ _ :: .promised _ _ _ :: history => accepted history
  | .opened _ streamId :: history => streamId :: accepted history
  | _ :: history => accepted history

/-- An event that neither takes up an identifier nor promises one. -/
def Event.Anonymous : Event → Prop
  | .opened _ _ => False
  | .promised _ _ _ => False
  | _ => True

section Anonymous

variable {events : List Event} (h : ∀ event ∈ events, event.Anonymous) (history : List Event)
include h

theorem entered_anonymous : entered (events ++ history) = entered history := by
  induction events with
  | nil => rfl
  | cons event events ih =>
      have hrest := ih fun e hmem => h e (List.mem_cons_of_mem _ hmem)
      have hevent := h event List.mem_cons_self
      cases event with
      | opened => exact hevent.elim
      | _ => exact hrest

theorem promised_anonymous : promised (events ++ history) = promised history := by
  induction events with
  | nil => rfl
  | cons event events ih =>
      have hrest := ih fun e hmem => h e (List.mem_cons_of_mem _ hmem)
      have hevent := h event List.mem_cons_self
      cases event with
      | promised => exact hevent.elim
      | _ => exact hrest

theorem accepted_anonymous : accepted (events ++ history) = accepted history := by
  induction events with
  | nil => rfl
  | cons event events ih =>
      have hrest := ih fun e hmem => h e (List.mem_cons_of_mem _ hmem)
      have hevent := h event List.mem_cons_self
      cases event with
      | opened => exact hevent.elim
      | promised => exact hevent.elim
      | _ => simpa [accepted] using hrest

end Anonymous

/-- Whether the latest event is a promise, whose stream has not entered the table. -/
def Reserving : List Event → Prop
  | .promised _ _ _ :: _ => True
  | _ => False

theorem accepted_opened {history : List Event} (h : ¬ Reserving history) (address streamId : Nat) :
    accepted (.opened address streamId :: history) = streamId :: accepted history := by
  cases history with
  | nil => simp [accepted]
  | cons event history =>
      cases event with
      | promised => exact (h trivial).elim
      | _ => simp [accepted]

/-- The identifiers of a history are in order: odd ones that the peer asks for, even ones that are promised, both of
them increasing, and none that enters the table twice. The latest of them comes first. -/
structure Identified (history : List Event) : Prop where
  odd : ∀ streamId ∈ accepted history, streamId % 2 = 1
  increasing : (accepted history).Pairwise (· > ·)
  even : ∀ streamId ∈ promised history, streamId % 2 = 0 ∧ 1 ≤ streamId ∧ streamId ≤ http2MaxStreamId
  promisedIncreasing : (promised history).Pairwise (· > ·)
  once : (entered history).Nodup

/-! ## Moves -/

namespace Outline

/-- No promise has been made of the connection itself, which is what the counter of the promises comes round to. -/
def Numerous (o : Outline) : Prop := ∀ parentId tree, .promised parentId 0 tree ∉ o.history

structure Ordered (o : Outline) : Prop where
  identified : Identified o.history
  settled : ¬ Reserving o.history
  last : ∀ streamId ∈ accepted o.history, streamId ≤ o.lastStreamId
  push : ∀ streamId ∈ promised o.history, streamId ≤ o.pushStreamId
  split : ∀ streamId ∈ entered o.history, streamId ∈ accepted o.history ∨ streamId ∈ promised o.history
  even : o.pushStreamId % 2 = 0
  bound : o.pushStreamId < 2 ^ 32

variable {o o' : Outline} {kind : MoveKind}

/-- A move that takes up no identifier. -/
theorem Ordered.anonymous (h : o.Ordered) (hlast : o'.lastStreamId = o.lastStreamId)
    (hpush : o.pushStreamId ≤ o'.pushStreamId) (heven : o'.pushStreamId % 2 = 0) (hbound : o'.pushStreamId < 2 ^ 32)
    (hhistory : ∃ events, o'.history = events ++ o.history ∧ ∀ event ∈ events, event.Anonymous) : o'.Ordered := by
  obtain ⟨events, heq, hevents⟩ := hhistory
  have hentered := entered_anonymous hevents o.history
  have hpromised := promised_anonymous hevents o.history
  have haccepted := accepted_anonymous hevents o.history
  rw [← heq] at hentered hpromised haccepted
  constructor
  case identified =>
    constructor
    case odd => exact haccepted ▸ h.identified.odd
    case increasing => exact haccepted ▸ h.identified.increasing
    case even => exact hpromised ▸ h.identified.even
    case promisedIncreasing => exact hpromised ▸ h.identified.promisedIncreasing
    case once => exact hentered ▸ h.identified.once
  case settled =>
    rw [heq]
    cases events with
    | nil => exact h.settled
    | cons event events =>
        have hevent := hevents event List.mem_cons_self
        cases event with
        | promised => exact hevent.elim
        | _ => exact fun hr => hr
  case last => exact haccepted ▸ hlast ▸ h.last
  case push => exact hpromised ▸ fun streamId hmem => Nat.le_trans (h.push streamId hmem) hpush
  case split => exact hentered ▸ haccepted ▸ hpromised ▸ h.split
  case even => exact heven
  case bound => exact hbound

theorem Ordered.opened (h : o.Ordered) {streamId : Nat} (hodd : streamId % 2 = 1) (hlast : o.lastStreamId < streamId) :
    ({ o.enrol streamId 0 with lastStreamId := streamId } : Outline).Ordered := by
  have haccepted := accepted_opened h.settled o.nextAddress streamId
  have hbelow : ∀ id ∈ accepted o.history, id < streamId := fun id hmem => Nat.lt_of_le_of_lt (h.last id hmem) hlast
  constructor
  case identified =>
    constructor
    case odd =>
      intro id hmem
      rcases List.mem_cons.mp (haccepted ▸ hmem) with rfl | hold
      · exact hodd
      · exact h.identified.odd id hold
    case increasing => exact haccepted ▸ List.pairwise_cons.mpr ⟨hbelow, h.identified.increasing⟩
    case even => exact h.identified.even
    case promisedIncreasing => exact h.identified.promisedIncreasing
    case once =>
      refine List.nodup_cons.mpr ⟨fun hmem => ?_, h.identified.once⟩
      rcases h.split streamId hmem with hold | hold
      · exact Nat.lt_irrefl _ (hbelow streamId hold)
      · have heven := (h.identified.even streamId hold).1
        omega
  case settled => exact fun hr => hr
  case last =>
    intro id hmem
    rcases List.mem_cons.mp (haccepted ▸ hmem) with rfl | hold
    · exact Nat.le_refl _
    · exact Nat.le_of_lt (hbelow id hold)
  case push => exact h.push
  case split =>
    intro id hmem
    have hrest : id = streamId ∨ id ∈ entered o.history := List.mem_cons.mp hmem
    rcases hrest with rfl | hold
    · exact .inl (haccepted ▸ List.mem_cons_self)
    · exact (h.split id hold).imp_left fun hin => haccepted ▸ List.mem_cons_of_mem _ hin
  case even => exact h.even
  case bound => exact h.bound

/-- The identifier that a promise takes, when the counter does not come round. -/
theorem next_push (h : o.Ordered) {streamId : Nat} (hid : streamId = (o.pushStreamId + 2) % 2 ^ 32) (hne : streamId ≠ 0) :
    streamId = o.pushStreamId + 2 := by
  have heven := h.even
  have hbound := h.bound
  omega

theorem Ordered.promised (h : o.Ordered) {parentId dependency streamId : Nat} {tree : List (Nat × Nat)}
    {owner : Option Nat} {frame : Http2Frame} (hid : streamId = (o.pushStreamId + 2) % 2 ^ 32)
    (hmax : streamId ≤ http2MaxStreamId) (hne : streamId ≠ 0) :
    ((({ o with pushStreamId := streamId }.record (.wrote owner frame)).record
      (.promised parentId streamId tree)).enrol streamId dependency).Ordered := by
  have hnext := next_push h hid hne
  have heven := h.even
  have habove : ∀ id ∈ Viriatum.promised o.history, id < streamId := fun id hmem => by
    have hle := h.push id hmem
    omega
  constructor
  case identified =>
    constructor
    case odd => exact h.identified.odd
    case increasing => exact h.identified.increasing
    case even =>
      intro id hmem
      have hrest : id = streamId ∨ id ∈ Viriatum.promised o.history := List.mem_cons.mp hmem
      rcases hrest with rfl | hold
      · exact ⟨by omega, by omega, hmax⟩
      · exact h.identified.even id hold
    case promisedIncreasing => exact List.pairwise_cons.mpr ⟨habove, h.identified.promisedIncreasing⟩
    case once =>
      refine List.nodup_cons.mpr ⟨fun hmem => ?_, h.identified.once⟩
      rcases h.split streamId hmem with hold | hold
      · have hodd := h.identified.odd streamId hold
        omega
      · exact Nat.lt_irrefl _ (habove streamId hold)
  case settled => exact fun hr => hr
  case last => exact h.last
  case push =>
    intro id hmem
    have hrest : id = streamId ∨ id ∈ Viriatum.promised o.history := List.mem_cons.mp hmem
    rcases hrest with rfl | hold
    · exact Nat.le_refl _
    · exact Nat.le_of_lt (habove id hold)
  case split =>
    intro id hmem
    have hrest : id = streamId ∨ id ∈ entered o.history := List.mem_cons.mp hmem
    rcases hrest with rfl | hold
    · exact .inr List.mem_cons_self
    · exact (h.split id hold).imp_right fun hin => List.mem_cons_of_mem _ hin
  case even =>
    change streamId % 2 = 0
    omega
  case bound =>
    change streamId < 2 ^ 32
    omega

theorem Numerous.of_history (h : o'.Numerous) (hhistory : o.history <:+ o'.history) : o.Numerous :=
  fun parentId tree hmem => h parentId tree (hhistory.subset hmem)

/-- A move keeps the identifiers in order, unless the counter of the promises comes round. -/
theorem Move.ordered (hm : Move kind o o') (hn : o'.Numerous) (h : o.Ordered) : o'.Ordered := by
  have hplain : ∀ event : Event, event.Anonymous → ∀ event' ∈ [event], event'.Anonymous := by simp
  cases hm with
  | received | called | began | wrote | emitted | closed | granted | applied | spoiled | reset =>
      exact h.anonymous rfl (Nat.le_refl _) h.even h.bound ⟨[_], rfl, hplain _ trivial⟩
  | prioritised | widened | away => exact h.anonymous rfl (Nat.le_refl _) h.even h.bound ⟨[], rfl, by simp⟩
  | skipped streamId hid hmax =>
      have hnext := next_push h hid (by omega)
      have heven := h.even
      refine h.anonymous rfl ?_ ?_ ?_ ⟨[], rfl, by simp⟩
      · change o.pushStreamId ≤ streamId
        omega
      · change streamId % 2 = 0
        omega
      · change streamId < 2 ^ 32
        omega
  | failed error =>
      unfold fail
      split
      · exact h.anonymous rfl (Nat.le_refl _) h.even h.bound ⟨[_], rfl, hplain _ trivial⟩
      · exact h.anonymous rfl (Nat.le_refl _) h.even h.bound ⟨[_, _], rfl, by simp [Event.Anonymous]⟩
  | opened streamId hodd hlast => exact h.opened hodd hlast
  | promised i parent frame streamId hi ht hid hmax =>
      refine h.promised hid hmax fun hzero => ?_
      have hmem : Event.promised parent.streamId streamId o.tree ∈
          ((({ o with pushStreamId := streamId }.record (.wrote (some parent.address) frame)).record
            (.promised parent.streamId streamId o.tree)).enrol streamId parent.streamId).history :=
        List.mem_cons_of_mem _ List.mem_cons_self
      exact hn parent.streamId o.tree (hzero ▸ hmem)

/-- An identifier that has been through: no stream of the table has it, and none will take it. -/
structure Spent (streamId : Nat) (o : Outline) : Prop where
  absent : streamId ∉ o.ids
  passed : if streamId % 2 = 0 then streamId ≤ o.pushStreamId else streamId ≤ o.lastStreamId

theorem Move.marks (hm : Move kind o o') (hn : o'.Numerous) (h : o.Ordered) :
    o.lastStreamId ≤ o'.lastStreamId ∧ o.pushStreamId ≤ o'.pushStreamId := by
  cases hm with
  | opened streamId hodd hlast => exact ⟨Nat.le_of_lt hlast, Nat.le_refl _⟩
  | skipped streamId hid hmax =>
      have hnext := next_push h hid (by omega)
      refine ⟨Nat.le_refl _, ?_⟩
      change o.pushStreamId ≤ streamId
      omega
  | promised i parent frame streamId hi ht hid hmax =>
      refine ⟨Nat.le_refl _, ?_⟩
      change o.pushStreamId ≤ streamId
      have hzero : streamId ≠ 0 := by
        rintro rfl
        exact hn parent.streamId o.tree (List.mem_cons_of_mem _ List.mem_cons_self)
      have hnext := next_push h hid hzero
      omega
  | failed error =>
      unfold fail
      split <;> exact ⟨Nat.le_refl _, Nat.le_refl _⟩
  | _ => exact ⟨Nat.le_refl _, Nat.le_refl _⟩

theorem Move.spent (hm : Move kind o o') (hn : o'.Numerous) (h : o.Ordered) {streamId : Nat} (hs : o.Spent streamId) :
    o'.Spent streamId := by
  obtain ⟨hlast, hpush⟩ := hm.marks hn h
  have hpassed := hs.passed
  refine ⟨fun hmem => ?_, ?_⟩
  · rcases hm.mem_ids hmem with hold | rfl | ⟨rfl, hid⟩
    · exact hs.absent hold
    · cases hm with
      | opened _ hodd hnew =>
          rw [if_neg (by omega)] at hpassed
          omega
    · cases hm with
      | promised i parent frame id hi ht hid' hmax =>
          have heven := h.even
          rw [if_pos (by omega)] at hpassed
          have hzero : id ≠ 0 := by
            rintro rfl
            exact hn parent.streamId o.tree (List.mem_cons_of_mem _ List.mem_cons_self)
          have hnext := next_push h hid' hzero
          omega
  · split
    case isTrue heven =>
      rw [if_pos heven] at hpassed
      omega
    case isFalse hodd =>
      rw [if_neg hodd] at hpassed
      omega

end Outline

/-! ## States -/

namespace Http2Connection

variable {s s' : Http2Connection} {service : Service} {frame : Http2Frame} {input : Input}

/-- No stream of the table is in the state of the ones that have left it. -/
structure Living (s : Http2Connection) : Prop extends Placed s where
  living : ∀ slot, slot < s.count → (s.stream slot).state ≠ .closed

theorem StateServed.living {state state' : Http2StreamState} (h : StateServed state state') (hl : state ≠ .closed) :
    state' ≠ .closed := by
  cases h with
  | refl => exact hl
  | ended => simp
  | answered => simp

theorem Reserved.living {n : Nat} {stream : Http2Stream} (h : stream.Reserved n) : stream.state ≠ .closed := by
  rcases h.state with hs | hs <;> simp [hs]

namespace Living

theorem served {n : Nat} (h : Living s) (h' : Served n s s') (hplaced : Placed s') : Living s' where
  toPlaced := hplaced
  living slot hslot := by
    by_cases hold : slot < s.count
    · exact StateServed.living (h'.state slot hold) (h.living slot hold)
    · exact Reserved.living (h'.reserved slot (Nat.le_of_not_lt hold) hslot)

theorem handles {slot : Nat} {core : StreamCore} {calls : List Callback} (h : Living s)
    (h' : Handles s.nextAddress slot s s' core calls) : Living s' where
  toPlaced := h.toPlaced.handles h'
  living i hi := by
    by_cases hold : i < s.count
    · rcases h'.state i hold with hserved | ⟨-, hclosed⟩
      · exact StateServed.living hserved (h.living i hold)
      · simp [hclosed]
    · exact Reserved.living (h'.reserved i (Nat.le_of_not_lt hold) hi)

theorem kin (h : Living s) (h' : Kin s s') : Living s' where
  toPlaced := h.toPlaced.kin h'
  living slot hslot := by
    rw [(h'.stream slot).2]
    exact h.living slot (h'.count ▸ hslot)

theorem modify {slot : Nat} (h : Living s) {f : Http2Stream → Http2Stream}
    (haddress : ∀ stream, (f stream).request.address = stream.request.address)
    (hstate : ∀ stream, (f stream).state = stream.state ∨ (f stream).state = .halfClosedRemote) :
    Living (s.modifyStream slot f) where
  toPlaced := h.toPlaced.modify haddress
  living i hi := by
    rw [count_modifyStream] at hi
    by_cases heq : i = slot
    · subst heq
      rw [stream_modifyStream hi]
      rcases hstate (s.stream i) with hs | hs
      · exact hs ▸ h.living i hi
      · simp [hs]
    · have hsame : (s.modifyStream slot f).stream i = s.stream i := by
        simp [stream, modifyStream, List.getD_eq_getElem?_getD, Ne.symm heq]
      exact hsame ▸ h.living i hi

theorem close {slot : Nat} (h : Living s) (hslot : slot < s.count) : Living (closeStream slot s) where
  toPlaced := h.toPlaced.close hslot
  living i hi := by
    obtain ⟨j, hj, -, hstate⟩ := (closeStream_leaves hslot).1 i hi
    exact hstate ▸ h.living j hj

theorem steady : Steady Living where
  placed h := h.toPlaced
  kin := kin
  near h h' := h.kin h'.toKin
  quiet h h' := h.served (h' 0) (h.toPlaced.quiet h')
  works h h' := h.served (h'.served _ (Nat.le_refl _)) (h.toPlaced.works h')
  modify h haddress _ hstate := h.modify haddress hstate
  handles h h' _ := h.handles h'
  close := close
  enter h _ hstreams haddress hstate hnext _ _ hcalls := by
    refine ⟨h.toPlaced.enter hstreams haddress hnext hcalls, fun i hi => ?_⟩
    rcases stream_enter hstreams hi with ⟨hold, hsame⟩ | hmine
    · exact hsame ▸ h.living i hold
    · simp [hmine, hstate]

/-- No run leaves a stream in the table in the state of the ones that have left it. -/
theorem run (h : Living s) (inputs : List (Service × Input)) : Living (run inputs s) :=
  steady.run (fun h h' => h.handles h') h inputs

end Living

theorem living_start : Living start where
  fresh a ha := by
    have hhistory : start.history = [.wrote none (encodeSettingsHttp2 .create)] := rfl
    rw [hhistory]
    rfl
  known slot hslot := absurd hslot (Nat.not_lt_zero slot)
  living slot hslot := absurd hslot (Nat.not_lt_zero slot)

/-! ## Runs -/

/-- The state that the session derives for an identifier. -/
def stateOf (s : Http2Connection) (streamId : Nat) : Http2StreamState := s.state streamId (s.findStream streamId)

/-- What is closed is out of the table and of the reach of the counters. -/
theorem stateOf_eq_closed (h : Living s) {streamId : Nat} :
    s.stateOf streamId = .closed ↔ s.outline.Spent streamId := by
  have habsent : s.findStream streamId = none ↔ streamId ∉ s.outline.ids := findStream_eq_none
  unfold stateOf
  cases hfind : s.findStream streamId with
  | some slot =>
      have hliving := h.living slot (findStream_some hfind).1
      refine ⟨fun hclosed => absurd hclosed hliving, fun hs => ?_⟩
      cases hfind.symm.trans (habsent.mpr hs.absent)
  | none =>
      have hout := habsent.mp hfind
      have hpassed : s.state streamId none = .closed ↔
          if streamId % 2 = 0 then streamId ≤ s.pushStreamId else streamId ≤ s.lastStreamId := by
        unfold state
        simp only
        split
        · split <;> simp_all
        · split <;> simp_all
      rw [hpassed]
      exact ⟨fun h => ⟨hout, h⟩, fun h => h.passed⟩

/-- What a run makes of the identifiers: they are in order, and what is closed stays closed. -/
structure IdentifiersOrdered (inputs : List (Service × Input)) : Prop where
  identified : Identified (run inputs start).history
  closed : ∀ earlier middle later streamId, inputs = earlier ++ middle ++ later →
    (run earlier start).stateOf streamId = .closed → (run (earlier ++ middle) start).stateOf streamId = .closed

theorem ordered_start : start.outline.Ordered where
  identified := by constructor <;> decide
  settled := fun h => h
  last := by decide
  push := by decide
  split := by decide
  even := rfl
  bound := by decide

/-- The order goes on from any session that is in order. -/
theorem ordered_run (hordered : s.outline.Ordered) (inputs : List (Service × Input))
    (hn : (run inputs s).outline.Numerous) : (run inputs s).outline.Ordered := by
  refine run_keeps (I := fun o => o.Numerous → o.Ordered) ?_ inputs (fun _ => hordered) hn
  intro kind o o' hm ho hn'
  exact hm.ordered hn' (ho (hn'.of_history hm.history))

theorem spent_run {streamId : Nat} (hordered : s.outline.Ordered) (inputs : List (Service × Input))
    (hn : (run inputs s).outline.Numerous) (hspent : s.outline.Spent streamId) :
    (run inputs s).outline.Spent streamId := by
  refine (run_keeps (I := fun o => o.Numerous → o.Ordered ∧ o.Spent streamId) ?_ inputs
    (fun _ => ⟨hordered, hspent⟩) hn).2
  intro kind o o' hm ho hn'
  obtain ⟨hold, hspent⟩ := ho (hn'.of_history hm.history)
  exact ⟨hm.ordered hn' hold, hm.spent hn' hold hspent⟩

/-- A session that goes on, with what lets it promise. -/
structure Promising (last : Nat) (s : Http2Connection) : Prop where
  connected : s.connectionClosed = false
  idle : s.continuation = 0
  settings : s.settings = .create
  push : s.remote.enablePush = true
  limit : s.remote.maxConcurrentStreams = http2MaxConcurrent
  counter : s.pushStreamId = last

/-- The session of a request on the first stream, whose promises have all been refused. -/
structure Alone (last : Nat) (s : Http2Connection) : Prop extends Promising last s where
  streams : ∃ stream, s.streams = [stream] ∧ stream.streamId = 1

/-- The session that has made its latest promise. -/
structure Offered (last : Nat) (s : Http2Connection) : Prop extends Promising last s where
  streams : ∃ stream reserved, s.streams = [stream, reserved] ∧ stream.streamId = 1 ∧ reserved.streamId = last ∧
    reserved.state = .reservedLocal
  promised : ∃ tree, .promised 1 last tree ∈ s.history

def promise : HandlerAction := .pushStream 1 (bytes "/style")

/-- The refusal of a promise by the peer. -/
def refusal (streamId : Nat) : Http2Frame where
  type := .rstStream
  flags := 0x00
  streamId
  payload := [0, 0, 0, 8]

/-- A promise that the peer refuses. -/
def refusedPromise (streamId : Nat) : List (Service × Input) :=
  [(mutedService, .work [promise]), (mutedService, .frame (refusal streamId))]

/-- A request, promises that are refused one after the other, and more promises. -/
def endlessRun (refusals skips : Nat) : List (Service × Input) :=
  (mutedService, .frame (rootRequest 1 http2FlagEndStream [])) ::
    (((List.range refusals).flatMap fun i => refusedPromise (2 * i + 2)) ++
      (List.range (skips + 1)).map fun _ => (mutedService, .work [promise]))

theorem call_muted (callback : Callback) (s : Http2Connection) :
    s.call mutedService callback = s.record (.called callback) := rfl

/-- A promise is made on the stream of the request. -/
theorem Alone.promise {last : Nat} (h : Alone last s) : step mutedService (.work [promise]) s =
    if (last + 2) % 2 ^ 32 > http2MaxStreamId then { s with pushStreamId := (last + 2) % 2 ^ 32 }
    else pushStream (call mutedService) 0 (bytes "/style") s := by
  obtain ⟨first, hstreams, hid⟩ := h.streams
  have hslots : http2MaxConcurrent = 128 := rfl
  have hroom : ¬ (s.count ≥ s.remote.maxConcurrentStreams ∨ s.count ≥ http2StreamSlots) := by
    simp [count, hstreams, h.limit, http2StreamSlots, hslots]
  have hfind : s.findStream 1 = some 0 := by simp [findStream, hstreams, hid]
  have hstep : step mutedService (.work [Http2Connection.promise]) s = pushStream (call mutedService) 0 (bytes "/style") s := by
    simp [step, h.connected, performAll, perform, Http2Connection.promise, hfind]
  rw [hstep]
  split
  case isFalse => rfl
  case isTrue hmax =>
    rw [← h.counter] at hmax ⊢
    have hpush : ¬ s.remote.enablePush = false := by simp [h.push]
    simp only [pushStream, if_neg hpush, if_neg hroom, if_pos hmax]

/-- A promise that the session takes. -/
theorem Alone.offered {last : Nat} (h : Alone last s) (hmax : (last + 2) % 2 ^ 32 ≤ http2MaxStreamId) :
    Offered ((last + 2) % 2 ^ 32) (step mutedService (.work [Http2Connection.promise]) s) := by
  rw [h.promise, if_neg (by omega)]
  obtain ⟨first, hstreams, hid⟩ := h.streams
  have hslots : http2MaxConcurrent = 128 := rfl
  have hroom : ¬ (s.count ≥ s.remote.maxConcurrentStreams ∨ s.count ≥ http2StreamSlots) := by
    simp [count, hstreams, h.limit, http2StreamSlots, hslots]
  have hpush : ¬ s.remote.enablePush = false := by simp [h.push]
  rw [← h.counter] at hmax ⊢
  have hfits : ¬ (s.pushStreamId + 2) % 2 ^ 32 > http2MaxStreamId := by omega
  generalize hnext : (s.pushStreamId + 2) % 2 ^ 32 = next at hmax hfits ⊢
  obtain ⟨-, -, encoder, hs⟩ := promiseFrame_spec 0 next (bytes "/style") { s with pushStreamId := next }
  simp only [pushStream, if_neg hpush, if_neg hroom, hnext, if_neg hfits, hs]
  refine ⟨⟨?_, ?_, ?_, ?_, ?_, ?_⟩, ?_, ?_⟩
  all_goals simp [queueFrames, reserveStream, setHandler, callPromised, call_muted, record, activate, modifyStream,
    stream, count, hstreams, hid, h.connected, h.idle, h.settings, h.push, h.limit]

/-- The second of two streams is closed. -/
theorem closeStream_second {first second : Http2Stream} (hstreams : s.streams = [first, second]) :
    (∃ left, (closeStream 1 s).streams = [left] ∧ left.streamId = first.streamId) ∧
      (closeStream 1 s).connectionClosed = s.connectionClosed ∧ (closeStream 1 s).continuation = s.continuation ∧
      (closeStream 1 s).settings = s.settings ∧ (closeStream 1 s).remote = s.remote ∧
      (closeStream 1 s).pushStreamId = s.pushStreamId := by
  have hunset : ∃ second', (unsetHandler 1 s).streams = [first, second'] ∧
      (unsetHandler 1 s).connectionClosed = s.connectionClosed ∧ (unsetHandler 1 s).continuation = s.continuation ∧
      (unsetHandler 1 s).settings = s.settings ∧ (unsetHandler 1 s).remote = s.remote ∧
      (unsetHandler 1 s).pushStreamId = s.pushStreamId := by
    unfold unsetHandler
    split
    · exact ⟨second, hstreams, rfl, rfl, rfl, rfl, rfl⟩
    · simp [activate, record, modifyStream, hstreams]
  obtain ⟨second', hstreams', hsame⟩ := hunset
  unfold closeStream
  generalize unsetHandler 1 s = t at hstreams' hsame ⊢
  have hremoved : ∃ left, removeStream 1 t.streams = [left] ∧ left.streamId = first.streamId := by
    refine ⟨if first.priority.dependency = second'.streamId then
        { first with priority := { first.priority with dependency := second'.priority.dependency } } else first, ?_, ?_⟩
    · simp [removeStream, hstreams']
    · split <;> rfl
  dsimp only
  split <;> exact ⟨hremoved, hsame⟩

/-- The peer refuses the latest promise. -/
theorem Offered.refused {last : Nat} (h : Offered last s) (heven : last % 2 = 0) (hne : last ≠ 0) :
    Alone last (step mutedService (.frame (refusal last)) s) := by
  obtain ⟨first, reserved, hstreams, hid, hreserved, hstate⟩ := h.streams
  have hone : ¬ first.streamId = last := by omega
  have hfind : findStream (s.record (.received (refusal last))) last = some 1 := by
    simp [findStream, record, hstreams, List.findIdx?_cons, hreserved, hone]
  have hverify : verifyFrameHttp2 (refusal last) Http2Settings.create = none := by
    simp [verifyFrameHttp2, refusal, Http2Frame.length, hne, Http2Settings.create, http2DefaultFrameSize]
  have hhandle : wp (handleFrame mutedService (refusal last))
      (fun _ t => t = closeStream 1 (s.record (.received (refusal last)))) (fun _ _ => False)
      (s.record (.received (refusal last))) := by
    have hsettings : (s.record (.received (refusal last))).settings = .create := h.settings
    have hidle : (s.record (.received (refusal last))).continuation = 0 := h.idle
    have hsecond : (s.record (.received (refusal last))).stream 1 = reserved := by
      simp [record, Http2Connection.stream, hstreams]
    generalize s.record (.received (refusal last)) = t at hfind hsettings hidle hsecond ⊢
    have htype : (refusal last).type = .rstStream := rfl
    have hnamed : (refusal last).streamId = last := rfl
    generalize refusal last = frame at hverify htype hnamed ⊢
    have hframe : t.frameSlot frame = some 1 := by
      rw [frameSlot_of_ne (by omega), hnamed]
      exact hfind
    have hallowed : t.verifyStream frame (some 1) = none := by
      simp [verifyStream, htype, state, hsecond, hstate, verifyState]
    unfold handleFrame accountData
    simp only [wp_bind, wp_get, hsettings, hverify, wp_refuseSome, wp_refuseIf, hidle, htype, hframe, hallowed, ne_eq,
      not_true_eq_false, false_and, if_false, ite_self, reduceCtorEq, wp_pure, dispatchFrame, wp_modify]
  obtain ⟨_, t, hrun, rfl⟩ := hhandle.run_ok
  have hstep : step mutedService (.frame (refusal last)) s = closeStream 1 (s.record (.received (refusal last))) := by
    simp only [step, h.connected, Bool.false_eq_true, if_false, receive, hrun]
  rw [hstep]
  obtain ⟨hleft, hconnected, hcontinuation, hsettings, hremote, hpush⟩ :=
    closeStream_second (s := s.record (.received (refusal last))) hstreams
  refine ⟨⟨hconnected.trans h.connected, hcontinuation.trans h.idle, hsettings.trans h.settings, ?_, ?_,
    hpush.trans h.counter⟩, hid ▸ hleft⟩
  · rw [hremote]
    exact h.push
  · rw [hremote]
    exact h.limit

theorem alone_request : Alone 0 (step mutedService (.frame (rootRequest 1 http2FlagEndStream [])) start) := by
  obtain ⟨-, -, hcount, hconnected, hidle, hsettings, hpush, hlimit, hcounter⟩ := request_told
  obtain ⟨first, hstreams, hid⟩ := List.map_eq_singleton_iff.mp hcount
  exact ⟨⟨hconnected, hidle, hsettings, hpush, hlimit, hcounter⟩, first, hstreams, hid⟩

/-- Promises that the peer refuses, one after the other. -/
theorem alone_refused (n : Nat) (hn : n ≤ 2 ^ 30 - 1) (h : Alone 0 s) :
    Alone (2 * n) (run ((List.range n).flatMap fun i => refusedPromise (2 * i + 2)) s) := by
  induction n with
  | zero => exact h
  | succ n ih =>
      have hmax : http2MaxStreamId = 2 ^ 31 - 1 := rfl
      have halone := ih (by omega)
      rw [List.range_succ, List.flatMap_append, run_append]
      have hnext : (2 * n + 2) % 2 ^ 32 = 2 * n + 2 := by omega
      have hoffered := halone.offered (by omega)
      rw [hnext] at hoffered
      exact hoffered.refused (by omega) (by omega)

/-- Promises that there is no identifier for. -/
theorem alone_skipped {last : Nat} (n : Nat) (hlast : last = 2 ^ 31 - 2) (hn : n ≤ 2 ^ 30) (h : Alone last s) :
    Alone (last + 2 * n) (run ((List.range n).map fun _ => (mutedService, .work [promise])) s) := by
  induction n with
  | zero => exact h
  | succ n ih =>
      have hmax : http2MaxStreamId = 2 ^ 31 - 1 := rfl
      have halone := ih (by omega)
      rw [List.range_succ, List.map_append, run_append]
      generalize run ((List.range n).map fun _ => (mutedService, Input.work [promise])) s = t at halone ⊢
      have hnext : (last + 2 * n + 2) % 2 ^ 32 = last + 2 * (n + 1) := by omega
      change Alone _ (step mutedService (.work [promise]) t)
      rw [halone.promise, hnext, if_pos (by omega)]
      exact ⟨⟨halone.connected, halone.idle, halone.settings, halone.push, halone.limit, rfl⟩, halone.streams⟩

theorem promised_endless {refusals skips : Nat} (hrefusals : refusals = 2 ^ 30 - 1) (hskips : skips = 2 ^ 30) :
    0 ∈ Viriatum.promised (run (endlessRun refusals skips) start).history := by
  have hspent := alone_skipped skips (by omega) (by omega) (alone_refused refusals (by omega) alone_request)
  have hcons : ∀ (input : Service × Input) inputs, run (input :: inputs) start = run inputs (step input.1 input.2 start) :=
    fun _ _ => rfl
  rw [endlessRun, List.range_succ, List.map_append, hcons, ← List.append_assoc, run_append, run_append]
  generalize run ((List.range skips).map fun _ => (mutedService, Input.work [promise])) _ = t at hspent ⊢
  have hzero : (2 * refusals + 2 * skips + 2) % 2 ^ 32 = 0 := by omega
  have hoffered := hspent.offered (by omega)
  rw [hzero] at hoffered
  obtain ⟨tree, hpromised⟩ := hoffered.promised
  exact List.mem_filterMap.mpr ⟨_, hpromised, rfl⟩

end Http2Connection

end Viriatum
