import Viriatum.Stream.Resets
import Viriatum.Stream.Identifiers

/-!
# The limits of concurrency

The streams of the peer and the promised ones share one table and one count, so that each side is held to its limit
with the streams of the other one in the way. The limits are kept as long as no stream is asked for with promised ones
in a full table, and the peer does not announce less than what it has been promised.
-/

namespace Viriatum

open Library Effect

/-- The streams of the table that the peer has opened. -/
def Outline.own (o : Outline) : Nat := o.ids.countP fun streamId => streamId % 2 = 1

/-- The streams of the table that have been promised. -/
def Outline.pushed (o : Outline) : Nat := o.ids.countP fun streamId => streamId % 2 = 0

theorem Outline.own_add_pushed (o : Outline) : o.own + o.pushed = o.ids.length := by
  unfold own pushed
  rw [List.length_eq_countP_add_countP (fun streamId => decide (streamId % 2 = 1)) (l := o.ids), Nat.add_left_cancel_iff]
  apply List.countP_congr
  intro streamId _
  simp only [decide_eq_true_eq]
  omega

namespace Http2Connection

variable {slot : Nat} {s s' : Http2Connection} {service : Service} {input : Input}

/-- Whether a step resets a stream that the table does not hold: one that the peer asks for in vain. -/
def RefusesNew (service : Service) (input : Input) (s : Http2Connection) : Prop :=
  ∃ events, (step service input s).history = events ++ s.history ∧
    ∃ streamId, s.findStream streamId = none ∧ ∃ event ∈ events, event.resets = some streamId

/-- Whether a step keeps both limits: the peer is refused no stream as long as it has fewer open than the session
announces, and the promised ones are no more than the peer announces. -/
def Fair (service : Service) (input : Input) (s : Http2Connection) : Prop :=
  (RefusesNew service input s → s.settings.maxConcurrentStreams ≤ s.outline.own) ∧
    (step service input s).outline.pushed ≤ (step service input s).remote.maxConcurrentStreams

/-- Whether a frame neither asks for a stream while promised ones are in a full table nor announces a limit below the
number of them. -/
def Accommodates (_ : Service) (input : Input) (s : Http2Connection) : Prop :=
  ∀ frame, input = .frame frame →
    (s.Refuses frame → s.outline.pushed = 0) ∧
      (s.Admits frame → frame.type = .settings → frame.has http2FlagAck = false →
        s.outline.pushed ≤ ((decodeSettingsHttp2 frame.payload).run s.remote).2.maxConcurrentStreams)

/-! ## Refusals -/

/-- What a step resets is in the table, or is refused. -/
theorem resets_step : ∃ events, (step service input s).history = events ++ s.history ∧
    ∀ event ∈ events, ∀ streamId, event.resets = some streamId →
      s.findStream streamId ≠ none ∨ s.refusing input streamId := by
  refine Moves.keeps (I := fun o => ∃ events, o.history = events ++ s.history ∧
    ∀ event ∈ events, ∀ streamId, event.resets = some streamId →
      s.findStream streamId ≠ none ∨ s.refusing input streamId) ?_ (@step_does s service input) ⟨[], rfl, by simp⟩
  rintro kind o o' hk hm ⟨events, heq, hevents⟩
  obtain ⟨added, hadded, hadds⟩ := hm.adds
  refine ⟨added ++ events, by rw [hadded, heq, List.append_assoc], fun event hmem streamId hr => ?_⟩
  cases List.mem_append.mp hmem with
  | inr hold => exact hevents event hold streamId hr
  | inl hnew =>
      obtain rfl := (hadds event hnew).resets hr
      cases input with
      | frame frame =>
          rcases hk with hk | (hk | hk) | ⟨error, hk⟩
          · cases hk
          · obtain ⟨rfl, hrefuses | ⟨_, _, _, _, slot, hfind, _⟩⟩ := hk
            · exact .inr ⟨frame, rfl, rfl, hrefuses⟩
            · exact .inl (by simp [hfind])
          · cases hk.1
          · cases hk
      | oversized => cases hk
      | written =>
          rcases hk with hk | ⟨id, hk⟩
          · cases hk
          · cases hk
      | work actions => cases hk

/-- A stream that is reset by the latest events of a step is refused. -/
theorem refusesNew_of_take {n streamId : Nat} {event : Event}
    (hlength : (step service input s).history.length = n + s.history.length) (hfind : s.findStream streamId = none)
    (hmem : event ∈ (step service input s).history.take n) (hr : event.resets = some streamId) :
    RefusesNew service input s := by
  obtain ⟨events, heq, -⟩ := @resets_step s service input
  refine ⟨events, heq, streamId, hfind, event, ?_, hr⟩
  rw [heq, List.length_append, Nat.add_right_cancel_iff] at hlength
  rwa [heq, ← hlength, List.take_left] at hmem

/-- A peer that is refused a stream has as many open as the session announces, where no promised one is in its way. -/
theorem RefusesNew.own (h : RefusesNew service input s) (hsettings : s.settings = .create)
    (haccommodates : Accommodates service input s) : s.settings.maxConcurrentStreams ≤ s.outline.own := by
  obtain ⟨events, heq, streamId, hfind, event, hmem, hr⟩ := h
  obtain ⟨events', heq', hevents⟩ := @resets_step s service input
  obtain rfl := List.append_cancel_right (heq.symm.trans heq')
  rcases hevents event hmem streamId hr with hold | ⟨frame, hinput, -, hrefuses⟩
  · exact absurd hfind hold
  · have hpushed := (haccommodates frame hinput).1 hrefuses
    have hown := s.outline.own_add_pushed
    have hslots : Http2Settings.create.maxConcurrentStreams = http2StreamSlots := rfl
    rw [length_ids] at hown
    have hfull := hrefuses.2
    unfold Full at hfull
    rw [hsettings, hslots] at hfull ⊢
    omega

/-! ## Promises -/

theorem ids_eq (hcount : s'.count = s.count)
    (hstream : ∀ i, i < s.count → (s'.stream i).streamId = (s.stream i).streamId) : s'.outline.ids = s.outline.ids := by
  apply List.ext_getElem
  · rw [length_ids, length_ids, hcount]
  · intro i hi hi'
    rw [length_ids] at hi hi'
    have hsame := hstream i hi'
    rw [stream_of_lt hi, stream_of_lt hi'] at hsame
    simpa [Outline.ids, outline] using hsame

/-- The promised streams are no more than the peer announces, and the settings of this end are the first ones. -/
structure Bounded (s : Http2Connection) : Prop extends Placed s where
  bounded : s.outline.pushed ≤ s.remote.maxConcurrentStreams
  settings : s.settings = .create

namespace Bounded

/-- The table has lost none of its streams, and it has grown within the limit that the peer announces. -/
theorem grown (h : Bounded s) (hplaced : Placed s') (hcount : s.count ≤ s'.count)
    (hroom : s'.count ≤ max s.count s.remote.maxConcurrentStreams)
    (hstream : ∀ i, i < s.count → (s'.stream i).streamId = (s.stream i).streamId) (hremote : s'.remote = s.remote)
    (hsettings : s'.settings = s.settings) : Bounded s' where
  toPlaced := hplaced
  bounded := by
    rw [hremote]
    by_cases hsame : s'.count = s.count
    · rw [Outline.pushed, ids_eq hsame hstream]
      exact h.bounded
    · have hpushed : s'.outline.pushed ≤ s'.count := length_ids (s := s') ▸ List.countP_le_length
      omega
  settings := hsettings.trans h.settings

theorem near (h : Bounded s) (h' : Near s s') : Bounded s' :=
  h.grown (h.toPlaced.kin h'.toKin) (Nat.le_of_eq h'.count.symm) (h'.count ▸ Nat.le_max_left _ _)
    (fun i _ => congrArg StreamCore.streamId (h'.stream i).1) h'.remote h'.settings

theorem served {n : Nat} (h : Bounded s) (h' : Served n s s') (hplaced : Placed s') : Bounded s' :=
  h.grown hplaced h'.count h'.room (fun i hi => congrArg StreamCore.streamId (h'.stream i hi)) h'.remote
    (congrArg SessionCore.settings h'.core)

theorem handles {core : StreamCore} {calls : List Callback} (h : Bounded s)
    (h' : Handles s.nextAddress slot s s' core calls) : Bounded s' := by
  obtain ⟨decoder, receiveWindow, hcore⟩ := h'.core
  refine h.grown (h.toPlaced.handles h') h'.count h'.room (fun i hi => ?_) h'.remote (congrArg SessionCore.settings hcore)
  by_cases heq : i = slot
  · subst heq
    exact (congrArg StreamCore.streamId h'.mine).trans h'.streamId
  · exact congrArg StreamCore.streamId (h'.others i hi heq)

theorem modify (h : Bounded s) {f : Http2Stream → Http2Stream}
    (haddress : ∀ stream, (f stream).request.address = stream.request.address)
    (hid : ∀ stream, (f stream).streamId = stream.streamId) : Bounded (s.modifyStream slot f) := by
  refine h.grown (h.toPlaced.modify haddress) ?_ ?_ (fun i hi => ?_) rfl rfl
  · rw [count_modifyStream]
  · rw [count_modifyStream]
    exact Nat.le_max_left _ _
  · by_cases heq : i = slot
    · subst heq
      rw [stream_modifyStream hi, hid]
    · simp [stream, modifyStream, List.getD_eq_getElem?_getD, Ne.symm heq]

/-- A stream that leaves the table leaves no more promised ones in it. -/
theorem close (h : Bounded s) (hslot : slot < s.count) : Bounded (closeStream slot s) := by
  have hsame : (closeStream slot s).remote = s.remote ∧ (closeStream slot s).settings = s.settings := by
    unfold closeStream unsetHandler
    dsimp only
    split <;> split <;> exact ⟨rfl, rfl⟩
  have hpushed : (closeStream slot s).outline.pushed ≤ s.outline.pushed := by
    have hdoes : Does (fun kind => kind = .called ∨ ∃ streamId, kind = .closed streamId) s (closeStream slot s) :=
      closeStream_does hslot (.inl rfl) (.inr ⟨_, rfl⟩)
    refine Moves.keeps (I := fun o => o.pushed ≤ s.outline.pushed) ?_ hdoes (Nat.le_refl _)
    rintro kind o o' hk hm ho
    cases hm with
    | called => exact ho
    | closed i stream streams hi hperm =>
        have hids : (streams.map OutlineStream.streamId).Perm (o.ids.eraseIdx i) := by
          refine (hperm.map _).trans (List.Perm.of_eq ?_)
          rw [Outline.ids, List.map_map, List.eraseIdx_map]
          apply List.map_congr_left
          intro other _
          simp only [Function.comp, Outline.reparent]
          split <;> rfl
        have hle := (List.eraseIdx_sublist o.ids i).countP_le (p := fun streamId => decide (streamId % 2 = 0))
        rw [← hids.countP_eq] at hle
        exact Nat.le_trans hle ho
    | _ => rcases hk with hk | ⟨_, hk⟩ <;> cases hk
  exact ⟨h.toPlaced.close hslot, hsame.1 ▸ Nat.le_trans hpushed h.bounded, hsame.2.trans h.settings⟩

theorem enter (h : Bounded s) {stream : Http2Stream} (hodd : stream.streamId % 2 = 1)
    (hstreams : s'.streams = s.streams ++ [stream]) (haddress : stream.request.address = s.nextAddress)
    (hnext : s'.nextAddress = s.nextAddress + 1) (hremote : s'.remote = s.remote) (hsettings : s'.settings = s.settings)
    (hcalls : ∀ a, callsOf a s'.history = callsOf a s.history) : Bounded s' where
  toPlaced := h.toPlaced.enter hstreams haddress hnext hcalls
  bounded := by
    have hids : s'.outline.ids = s.outline.ids ++ [stream.streamId] := by simp [Outline.ids, outline, hstreams]
    have hbounded := h.bounded
    unfold Outline.pushed at hbounded ⊢
    rw [hids, hremote]
    simpa [hodd] using hbounded
  settings := hsettings.trans h.settings

theorem kept : Kept Bounded where
  placed h := h.toPlaced
  near := near
  quiet h h' := h.served (h' 0) (h.toPlaced.quiet h')
  works h h' := h.served (h'.served _ (Nat.le_refl _)) (h.toPlaced.works h')
  modify h haddress hid _ := h.modify haddress hid
  handles h h' _ := h.handles h'
  close := close
  enter h hodd hstreams haddress _ hnext hremote hsettings hcalls :=
    h.enter hodd hstreams haddress hnext hremote hsettings hcalls

end Bounded

/-! ## Settings -/

/-- The settings of the peer once a frame of them has been taken are the ones that the frame gives. -/
theorem applySettings_remote (data : Bytes) :
    wp (applySettings data)
      (fun _ s' => s'.remote = ((decodeSettingsHttp2 data).run s.remote).2 ∧ s'.settings = s.settings)
      (fun _ s' => s'.remote = ((decodeSettingsHttp2 data).run s.remote).2 ∧ s'.settings = s.settings) s := by
  unfold applySettings adjustWindows boundEncoder
  simp only [wp_bind, wp_get]
  rcases (decodeSettingsHttp2 data).run s.remote with ⟨result, remote⟩
  cases result with
  | error e => exact ⟨rfl, rfl⟩
  | ok u =>
      simp only [wp_bind, wp_get, wp_set]
      split
      case h_1 => exact ⟨rfl, rfl⟩
      case h_2 =>
        simp only [wp_pure, wp_ite]
        split
        · split <;> exact ⟨by trivial, by trivial⟩
        · exact ⟨by trivial, by trivial⟩

theorem Bounded.handleSettings {frame : Http2Frame} (h : Bounded s)
    (hlimit : frame.has http2FlagAck = false →
      s.outline.pushed ≤ ((decodeSettingsHttp2 frame.payload).run s.remote).2.maxConcurrentStreams) :
    wp (handleSettings frame) (fun _ s' => Bounded s') (fun _ s' => Bounded s') s := by
  unfold Http2Connection.handleSettings
  rw [wp_ite]
  split
  case isTrue => exact h
  case isFalse hack =>
    simp only [wp_bind, wp_modify]
    have happlied : ∀ t, Alike s t ∧ t.remote = ((decodeSettingsHttp2 frame.payload).run s.remote).2 ∧
        t.settings = s.settings → Bounded t := by
      rintro t ⟨halike, hremote, hsettings⟩
      refine ⟨h.toPlaced.kin halike.kin, ?_, hsettings.trans h.settings⟩
      rw [hremote, Outline.pushed, ids_eq halike.count fun i _ => congrArg StreamCore.streamId (halike.stream i).1]
      exact hlimit (by simpa using hack)
    refine ((applySettings_alike _).and (applySettings_remote _)).mono (fun _ t ht => ?_) fun _ t ht => happlied t ht
    have hwritten : Bounded (writeSettings true t) :=
      (happlied t ht).near ((queueFrames_alike none _ .none t).near rfl rfl)
    exact Bounded.kept.quiet hwritten fun _ => schedule_served

/-! ## Steps -/

theorem Bounded.step (h : Bounded s) (haccommodates : Accommodates service input s) :
    Bounded (Http2Connection.step service input s) := by
  refine Bounded.kept.step h service fun frame hframe => ?_
  have hreceived : Bounded (s.record (.received frame)) := h.near ((record_alike (by trivial) s).near rfl rfl)
  by_cases ht : frame.type = .data
  · exact Bounded.kept.handleFrame_data (fun h h' => h.handles h') hreceived service ht
  · refine Bounded.kept.handleFrame hreceived service ht fun htype hverify hidle => hreceived.handleSettings fun hack => ?_
    exact (haccommodates frame hframe).2 ⟨hverify, .inl hidle⟩ htype hack

theorem bounded_start : Bounded start := by
  refine ⟨⟨fun a _ => ?_, fun slot hslot => ?_⟩, ?_, rfl⟩
  · rfl
  · cases hslot
  · decide

/-- In a run in which the peer asks for nothing with promised streams in a full table and announces no limit below
them, it is refused no stream within the limit of the session, and it is promised none beyond its own. -/
theorem concurrency_fair {inputs : List (Service × Input)} (h : Along Accommodates inputs start) :
    Along Fair inputs start := by
  have hfair : ∀ s, Bounded s → Along Accommodates inputs s → Along Fair inputs s := by
    clear h
    induction inputs with
    | nil => exact fun _ _ _ => trivial
    | cons input inputs ih =>
        rintro s hs ⟨hfirst, hrest⟩
        have hstep := hs.step hfirst
        exact ⟨⟨fun hrefuses => hrefuses.own hs.settings hfirst, hstep.bounded⟩, ih _ hstep hrest⟩
  exact hfair start bounded_start h

/-! ## Limits that are met -/

/-- The limit of streams that a peer announces. -/
def limitSettings (limit : Nat) : Http2Frame where
  type := .settings
  flags := 0x00
  streamId := 0
  payload := [0x00, 0x03] ++ encodeNumberHttp2 limit

/-- A request that a resource is promised with, and a peer that takes one promise at a time. -/
def limitedRun : List (Service × Input) :=
  [(mutedService, .frame (rootRequest 1 http2FlagEndStream [])), (mutedService, .work [promise]),
    (mutedService, .frame (limitSettings 1))]

theorem concurrency_fair_limited : Along Fair limitedRun start := by
  apply concurrency_fair
  refine ⟨?_, ?_, ?_, trivial⟩
  · rintro frame hframe
    cases hframe
    refine ⟨fun h => ?_, fun _ ht => by cases ht⟩
    rcases h.2 with hfull | hfull <;> exact absurd hfull (by decide)
  · rintro frame hframe
    cases hframe
  · rintro frame hframe
    cases hframe
    refine ⟨fun h => ?_, fun _ _ _ => by decide +kernel⟩
    cases h.1.2.1

/-- A request that 127 resources are promised with. -/
def crowdingRun : List (Service × Input) :=
  [(mutedService, .frame (rootRequest 1 http2FlagEndStream [])), (mutedService, .work (List.replicate 127 promise))]

def crowdedRun : List (Service × Input) :=
  crowdingRun ++ [(mutedService, .frame (rootRequest 3 http2FlagEndStream []))]

/-- A peer with one stream of its own is refused the second one. -/
theorem concurrency_not_fair : ¬ Along Fair crowdedRun start := by
  intro h
  have hcrowded : (step mutedService (.frame (rootRequest 3 http2FlagEndStream [])) (run crowdingRun start)).history.length =
        2 + (run crowdingRun start).history.length ∧
      (run crowdingRun start).findStream 3 = none ∧
      .wrote none (encodeValueHttp2 .rstStream 3 Http2Error.refusedStream.code) ∈
        (step mutedService (.frame (rootRequest 3 http2FlagEndStream [])) (run crowdingRun start)).history.take 2 ∧
      ¬ (run crowdingRun start).settings.maxConcurrentStreams ≤ (run crowdingRun start).outline.own := by
    decide +kernel
  rw [crowdedRun, along_append] at h
  generalize run crowdingRun start = s at h hcrowded
  obtain ⟨hlength, hfind, hmem, hown⟩ := hcrowded
  exact hown (h.2.1.1 (refusesNew_of_take hlength hfind hmem rfl))

end Http2Connection

end Viriatum
