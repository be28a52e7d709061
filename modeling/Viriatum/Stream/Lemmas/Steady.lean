import Viriatum.Stream.Lemmas.Placed

/-!
# What the handling of messages keeps

A property of sessions that every change of a message keeps is kept by the frames of the peer, the completion of
writes and the work of handlers.
-/

namespace Viriatum

open Library Effect

/-- None of the calls hands over a part of a body. -/
def Unfed (calls : List Callback) : Prop := ∀ callback ∈ calls, ∀ a data, callback ≠ .body a data

namespace Http2Connection

variable {I : Http2Connection → Prop} {slot : Nat} {s s' : Http2Connection} {service : Service} {frame : Http2Frame}

/-- The sessions have the same messages and the same settings of both ends. -/
structure Near (s s' : Http2Connection) : Prop extends Kin s s' where
  remote : s'.remote = s.remote
  settings : s'.settings = s.settings

theorem Alike.near (h : Alike s s') (hremote : s'.remote = s.remote) (hsettings : s'.settings = s.settings) :
    Near s s' := ⟨h.kin, hremote, hsettings⟩

/-- A property that is kept whatever is done to the messages, the handing over of their bodies apart, and whatever the
handlers do. -/
structure Kept (I : Http2Connection → Prop) : Prop where
  placed : ∀ {s}, I s → Placed s
  near : ∀ {s s'}, I s → Near s s' → I s'
  quiet : ∀ {s s'}, I s → (∀ m, Served m s s') → I s'
  works : ∀ {s s'}, I s → Works s s' → I s'
  modify : ∀ {s slot f}, I s → (∀ stream : Http2Stream, (f stream).request.address = stream.request.address) →
    (∀ stream : Http2Stream, (f stream).streamId = stream.streamId) →
    (∀ stream : Http2Stream, (f stream).state = stream.state ∨ (f stream).state = .halfClosedRemote) →
    I (s.modifyStream slot f)
  handles : ∀ {s s' slot core calls}, I s → Handles s.nextAddress slot s s' core calls → Unfed calls → I s'
  close : ∀ {s slot}, I s → slot < s.count → I (closeStream slot s)
  enter : ∀ {s s'} {stream : Http2Stream}, I s → stream.streamId % 2 = 1 → s'.streams = s.streams ++ [stream] →
    stream.request.address = s.nextAddress → stream.state = .open → s'.nextAddress = s.nextAddress + 1 →
    s'.remote = s.remote → s'.settings = s.settings → (∀ a, callsOf a s'.history = callsOf a s.history) → I s'

/-- A property that is kept by settings of the peer as well. -/
structure Steady (I : Http2Connection → Prop) : Prop extends Kept I where
  kin : ∀ {s s'}, I s → Kin s s' → I s'

theorem prioritiseStream_near {priority : Http2Priority} :
    wp (prioritiseStream slot priority) (fun _ s' => Near s s') (fun _ s' => Near s s') s := by
  refine prioritiseStream_reprioritised.mono (fun _ t ht => ?_) fun _ t ht => ht ▸ (Alike.refl s).near rfl rfl
  refine (Alike.of_reprioritised ht).near ?_ ?_
  all_goals rw [ht.same]

theorem updateWindow_near (streamId increment : Nat) :
    wp (updateWindow streamId increment) (fun _ s' => Near s s') (fun _ s' => Near s s') s := by
  have hsame : wp (updateWindow streamId increment) (fun _ s' => s'.remote = s.remote ∧ s'.settings = s.settings)
      (fun _ s' => s'.remote = s.remote ∧ s'.settings = s.settings) s := by
    unfold updateWindow
    simp only [wp_bind, wp_get, wp_ite, wp_throw, wp_set]
    split
    · trivial
    · split
      · split <;> exact ⟨by trivial, by trivial⟩
      · split
        · trivial
        · split <;> exact ⟨by trivial, by trivial⟩
  exact ((updateWindow_alike _ _).and hsame).mono (fun _ _ ht => ht.1.near ht.2.1 ht.2.2) fun _ _ ht =>
    ht.1.near ht.2.1 ht.2.2

theorem decodeBlock_near (data : Bytes) :
    wp (decodeBlock discard data ()) (fun _ s' => Near s s') (fun _ s' => Near s s') s := by
  have hsame : wp (decodeBlock discard data ()) (fun _ s' => s'.remote = s.remote ∧ s'.settings = s.settings)
      (fun _ s' => s'.remote = s.remote ∧ s'.settings = s.settings) s := by
    have hdiscard : ∀ header (p : Http2Connection × Unit), p.1.remote = s.remote ∧ p.1.settings = s.settings →
        wp (discard header) (fun _ q => q.1.remote = s.remote ∧ q.1.settings = s.settings)
          (fun _ q => q.1.remote = s.remote ∧ q.1.settings = s.settings) p := fun _ _ hp => hp
    have hwp : wp (decodeHpack discard (fun _ => Http2Error.compressionError) data) _ _ (s.decoder, (s, ())) :=
      decodeHpack_keeps hdiscard ⟨rfl, rfl⟩
    unfold wp at hwp ⊢
    simp only [Http2Connection.decodeBlock, ExceptT.run] at hwp ⊢
    split at hwp
    case h_1 hrun =>
      rw [hrun]
      exact hwp
    case h_2 hrun =>
      rw [hrun]
      exact hwp
  exact ((decodeBlock_discard data).and hsame).mono (fun _ _ ht => ht.1.near ht.2.1 ht.2.2) fun _ _ ht =>
    ht.1.near ht.2.1 ht.2.2

theorem unfed_onlyOpens {i : Intake} (h : i.OnlyOpens) : Unfed i.calls := by
  rintro callback hmem a data rfl
  exact h _ hmem

theorem unfed_leaveCalls (core : StreamCore) : Unfed core.leaveCalls := by
  intro callback hmem a data
  unfold StreamCore.leaveCalls at hmem
  rintro rfl
  split at hmem <;> split at hmem <;> simp at hmem

theorem onlyOpens_intake (core : StreamCore) : core.intake.OnlyOpens := by
  intro callback hmem
  simp only [StreamCore.intake] at hmem
  split at hmem
  · cases hmem
  · rw [List.mem_singleton.mp hmem]
    trivial

namespace Kept

theorem blockHttp2 (hI : Kept I) (h : I s) (hslot : slot < s.count) (data : Bytes) :
    wp (after (blockHttp2 service slot data) resetBlock) (fun _ s' => I s') (fun _ s' => I s') s := by
  have hreset : ∀ t, Near t (resetBlock t) := fun t => ⟨⟨rfl, fun _ => ⟨rfl, rfl⟩, rfl, fun _ => rfl⟩, rfl, rfl⟩
  rcases hread : (decodeRepresentations Viriatum.record id data.length 0 false data).run (s.decoder, []) with
    ⟨result, table, fields⟩
  rw [wp_after]
  refine (wp_blockHttp2 hslot (Nat.le_refl _) ((hI.placed h).known slot hslot) (hI.placed h).settles hread).mono ?_ ?_
  · rintro - s' ⟨-, -, hhandles⟩
    have hunfed : Unfed (((s.stream slot).core.intake.finish fields).2.calls ++
        ((s.stream slot).core.taking ((s.stream slot).core.intake.finish fields).2).leaveCalls) :=
      List.forall_mem_append.mpr ⟨unfed_onlyOpens (Intake.OnlyOpens.finish (onlyOpens_intake _) fields), unfed_leaveCalls _⟩
    exact hI.near (hI.handles h hhandles hunfed) (hreset s')
  · rintro e s' ⟨-, hhandles⟩
    exact hI.near (hI.handles h hhandles (unfed_onlyOpens (Intake.OnlyOpens.headers (onlyOpens_intake _) fields))) (hreset s')

theorem discardBlock (hI : Kept I) (h : I s) :
    wp discardBlock (fun _ s' => I s') (fun _ s' => I s') s := by
  have hreset : ∀ t, Near t (resetBlock t) := fun t => ⟨⟨rfl, fun _ => ⟨rfl, rfl⟩, rfl, fun _ => rfl⟩, rfl, rfl⟩
  unfold Http2Connection.discardBlock
  simp only [wp_bind, wp_get, wp_after, wp_pure]
  refine (decodeBlock_near s.block).mono (fun _ t ht => ?_) fun _ t ht => ?_
  · exact hI.near (hI.near h ht) (hreset t)
  · exact hI.near (hI.near h ht) (hreset t)

theorem takeFragment (hI : Kept I) (h : I s) (hslot : slot < s.count) (data : Bytes) :
    wp (takeFragment service frame slot data) (fun _ s' => I s') (fun _ s' => I s') s := by
  unfold Http2Connection.takeFragment
  simp only [wp_bind, wp_modify]
  have hclosed : I (if frame.has http2FlagEndStream then closeRemote slot s else s) ∧
      slot < (if frame.has http2FlagEndStream then closeRemote slot s else s).count := by
    split
    · refine ⟨hI.modify h (fun _ => rfl) (fun _ => rfl) fun _ => .inr rfl, ?_⟩
      rw [closeRemote, count_modifyStream]
      exact hslot
    · exact ⟨h, hslot⟩
  generalize (if frame.has http2FlagEndStream then closeRemote slot s else s) = t at hclosed ⊢
  obtain ⟨ht, hlt⟩ := hclosed
  refine gather_spec.mono ?_ ?_
  · rintro - u ⟨-, rfl⟩
    have hu := hI.near ht ((alike_block t (t.block ++ data)).near rfl rfl)
    rw [wp_ite]
    split
    · simp only [wp_bind, wp_get]
      exact hI.blockHttp2 hu hlt _
    · exact hI.near hu ⟨⟨rfl, fun _ => ⟨rfl, rfl⟩, rfl, fun _ => rfl⟩, rfl, rfl⟩
  · rintro e u ⟨-, -, rfl⟩
    exact ht

theorem takeHeaders (hI : Kept I) (h : I s) (hslot : slot < s.count) :
    wp (takeHeaders service frame slot) (fun _ s' => I s') (fun _ s' => I s') s := by
  unfold Http2Connection.takeHeaders
  split
  case h_1 => exact h
  case h_2 priority data _ =>
    rw [wp_bind]
    refine prioritiseStream_near.mono (fun _ t ht => ?_) fun _ t ht => hI.near h ht
    exact hI.takeFragment (hI.near h ht) (ht.count.symm ▸ hslot) data
  case h_3 data _ => exact hI.takeFragment h hslot data

theorem refuseHeaders (hI : Kept I) (h : I s) :
    wp (refuseHeaders frame) (fun _ s' => I s') (fun _ s' => I s') s := by
  have hwrote : I { writeValue .rstStream frame.streamId Http2Error.refusedStream.code s with
      refused := frame.streamId } := by
    have halike := (queueFrames_alike none
      [encodeValueHttp2 .rstStream frame.streamId Http2Error.refusedStream.code] .none s).kin
    exact hI.near h ⟨⟨halike.count, halike.stream, halike.nextAddress, halike.calls⟩, rfl, rfl⟩
  unfold Http2Connection.refuseHeaders
  simp only [wp_bind, wp_modify]
  generalize ({ writeValue .rstStream frame.streamId Http2Error.refusedStream.code s with
      refused := frame.streamId } : Http2Connection) = t at hwrote ⊢
  split
  case h_1 => exact hwrote
  case h_2 priority data _ =>
    rw [wp_bind]
    refine gather_spec.mono ?_ ?_
    · rintro - u ⟨-, rfl⟩
      have hu := hI.near hwrote ((alike_block t (t.block ++ data)).near rfl rfl)
      rw [wp_ite]
      split
      · exact hI.discardBlock hu
      · exact hI.near hu ⟨⟨rfl, fun _ => ⟨rfl, rfl⟩, rfl, fun _ => rfl⟩, rfl, rfl⟩
    · rintro e u ⟨-, -, rfl⟩
      exact hwrote

/-- A stream is opened. -/
theorem opened (hI : Kept I) (h : I s) (streamId : Nat) :
    wp (openStream streamId) (fun slot s' => I s' ∧ slot < s'.count) (fun _ s' => s' = s) s := by
  unfold openStream
  simp only [wp_bind, wp_get, wp_ite, wp_throw, wp_set, wp_pure]
  split
  case isTrue => trivial
  case isFalse hparity =>
    have hodd : streamId % 2 = 1 := by omega
    split
    case isTrue => trivial
    case isFalse =>
      split
      case isTrue => trivial
      case isFalse =>
        refine ⟨hI.enter h hodd rfl rfl rfl rfl rfl rfl fun a => ?_, by simp [count]⟩
        have hsilent : ∀ event ∈ [Event.opened s.nextAddress streamId], event.Silent := by simp [Event.Silent]
        exact callsOf_silent hsilent a s.history

theorem openHeaders (hI : Kept I) (h : I s) :
    wp (openHeaders service frame) (fun _ s' => I s') (fun _ s' => I s') s := by
  have hopen := hI.opened h frame.streamId
  unfold wp at hopen ⊢
  unfold Http2Connection.openHeaders ExceptT.run
  simp only [ExceptT.run] at hopen ⊢
  rcases hrun : openStream frame.streamId s with ⟨_ | slot, t⟩
  all_goals simp only [hrun] at hopen
  case error e =>
    obtain rfl := hopen
    cases e with
    | refusedStream => exact hI.refuseHeaders h
    | _ => exact h
  case ok => exact hI.takeHeaders hopen.1 hopen.2

theorem continueHeaders (hI : Kept I) (h : I s) (hslot : slot < s.count) :
    wp (continueHeaders service frame slot) (fun _ s' => I s') (fun _ s' => I s') s := by
  unfold Http2Connection.continueHeaders
  simp only [wp_bind, wp_get, wp_ite, wp_refuseIf, wp_set]
  split
  case isTrue =>
    split
    case isTrue => exact h
    case isFalse =>
      have hmarked : I (s.modifyStream slot fun stream =>
          { stream with request := { stream.request with trailers := true } }) := hI.modify h (fun _ => rfl) (fun _ => rfl) fun _ => .inl rfl
      exact hI.takeHeaders hmarked (by rwa [count_modifyStream])
  case isFalse => exact hI.takeHeaders h hslot

theorem handleContinuation (hI : Kept I) (h : I s) :
    wp (handleContinuation service frame) (fun _ s' => I s') (fun _ s' => I s') s := by
  unfold Http2Connection.handleContinuation
  simp only [wp_bind, wp_get, wp_refuseIf]
  split
  case isTrue => exact h
  case isFalse =>
    refine gather_spec.mono ?_ ?_
    · rintro - t ⟨-, rfl⟩
      have hgathered := hI.near h ((alike_block s (s.block ++ frame.payload)).near rfl rfl)
      simp only [wp_ite, wp_bind, wp_get, wp_pure]
      split
      case isFalse => exact hgathered
      case isTrue =>
        split
        case isTrue => exact hI.discardBlock hgathered
        case isFalse =>
          split
          case h_1 => exact hgathered
          case h_2 slot hfind => exact hI.blockHttp2 hgathered (findStream_some hfind).1 _
    · rintro e t ⟨-, -, rfl⟩
      exact h

theorem handleWindowUpdate (hI : Kept I) (h : I s) :
    wp (handleWindowUpdate frame) (fun _ s' => I s') (fun _ s' => I s') s := by
  unfold Http2Connection.handleWindowUpdate
  simp only [wp_tryCatch, wp_bind, wp_modify]
  refine (updateWindow_near _ _).mono ?_ ?_
  · exact fun _ t ht => hI.quiet (hI.near h ht) fun _ => schedule_served
  · intro e t ht
    rw [wp_ite]
    split
    · exact hI.near (hI.near h ht) ((queueFrames_alike _ _ _ t).near rfl rfl)
    · exact hI.near h ht

theorem handlePriority (hI : Kept I) (h : I s) (slot : Option Nat) :
    wp (handlePriority frame slot) (fun _ s' => I s') (fun _ s' => I s') s := by
  unfold Http2Connection.handlePriority
  split
  case h_1 => exact h
  case h_2 =>
    simp only [wp_bind, wp_refuseIf]
    split
    case isTrue => exact h
    case isFalse =>
      cases slot with
      | none => exact h
      | some slot => exact prioritiseStream_near.mono (fun _ _ ht => hI.near h ht) fun _ _ ht => hI.near h ht

theorem dispatchFrame (hI : Kept I) (h : I s) (ht : frame.type ≠ .data)
    (hsettings : frame.type = .settings → wp (handleSettings frame) (fun _ s' => I s') (fun _ s' => I s') s) :
    wp (dispatchFrame service frame (s.frameSlot frame)) (fun _ s' => I s') (fun _ s' => I s') s := by
  have hslot : ∀ slot, s.frameSlot frame = some slot → slot < s.count := fun slot hframe =>
    (findStream_some (frameSlot_some hframe).2).1
  unfold Http2Connection.dispatchFrame
  split
  case h_1 htype => exact absurd htype ht
  case h_2 =>
    unfold handleHeaders
    split
    case h_1 => exact hI.openHeaders h
    case h_2 slot hframe => exact hI.continueHeaders h (hslot slot hframe)
  case h_3 => exact hI.handleContinuation h
  case h_4 => exact hI.handlePriority h _
  case h_5 =>
    split
    case h_1 slot hframe => exact hI.close h (hslot slot hframe)
    case h_2 => exact h
  case h_6 htype => exact hsettings htype
  case h_7 =>
    rw [wp_ite]
    split
    · exact h
    · exact hI.near h ((queueFrames_alike _ _ _ s).near rfl rfl)
  case h_8 => exact hI.near h (Alike.near (.of_streams rfl rfl rfl rfl rfl ⟨[], rfl, by simp⟩) rfl rfl)
  case h_9 => exact hI.handleWindowUpdate h
  case h_10 => exact h
  case h_11 => exact h

/-- A frame of any type but payload, the settings being told apart. -/
theorem handleFrame (hI : Kept I) (h : I s) (service : Service) (ht : frame.type ≠ .data)
    (hsettings : frame.type = .settings → verifyFrameHttp2 frame s.settings = none → s.continuation = 0 →
      wp (handleSettings frame) (fun _ s' => I s') (fun _ s' => I s') s) :
    wp (handleFrame service frame) (fun _ s' => I s') (fun _ s' => I s') s := by
  unfold Http2Connection.handleFrame accountData
  simp only [wp_bind, wp_get, wp_refuseSome, wp_refuseIf]
  split
  case h_1 => exact h
  case h_2 hverify =>
    split
    case isTrue => exact h
    case isFalse hblock =>
      simp only [wp_pure]
      split
      case h_1 => exact h
      case h_2 =>
        refine hI.dispatchFrame h ht fun htype => hsettings htype hverify ?_
        by_contra hne
        exact hblock ⟨hne, .inl (by simp [htype])⟩

theorem failed (hI : Kept I) (h : I s) (error : Http2Error) : I (fail error s) := by
  have hstreams : (fail error s).streams = s.streams := by
    unfold fail writeGoaway
    split <;> rfl
  have hremote : (fail error s).remote = s.remote := by
    unfold fail writeGoaway
    split <;> rfl
  have hsettings : (fail error s).settings = s.settings := by
    unfold fail writeGoaway
    split <;> rfl
  refine hI.near h ⟨⟨?_, fun i => ?_, (fail_calls error s).1, (fail_calls error s).2⟩, hremote, hsettings⟩
  · rw [Http2Connection.count, hstreams]
  · rw [Http2Connection.stream, hstreams]
    exact ⟨rfl, rfl⟩

theorem complete (hI : Kept I) (h : I s) (service : Service) : I (Http2Connection.complete service s) := by
  obtain ⟨t, hworks, hcomplete⟩ := complete_works service s
  have ht := hI.works h hworks
  rcases hcomplete with heq | heq | ⟨slot, hslot, heq⟩
  · rw [heq]
    exact ht
  · rw [heq]
    exact hI.near ht (Alike.near (.of_streams rfl rfl rfl rfl rfl ⟨[], rfl, by simp⟩) rfl rfl)
  · rw [heq]
    exact hI.close ht hslot

/-- A step that is told apart only where it takes a frame. -/
theorem step (hI : Kept I) (h : I s) (service : Service) {input : Input}
    (hframe : ∀ frame, input = .frame frame →
      wp (Http2Connection.handleFrame service frame) (fun _ s' => I s') (fun _ s' => I s') (s.record (.received frame))) :
    I (Http2Connection.step service input s) := by
  unfold Http2Connection.step
  split
  · exact h
  · cases input with
    | frame frame =>
        have hframe := hframe frame rfl
        unfold wp at hframe
        simp only [receive]
        split at hframe
        case h_1 hrun =>
          rw [hrun]
          exact hframe
        case h_2 hrun =>
          rw [hrun]
          exact hI.failed hframe _
    | oversized => exact hI.failed h _
    | written => exact hI.complete h service
    | work actions => exact hI.works h (performAll_works service actions s)

end Kept

namespace Steady

theorem alike (hI : Steady I) (h : I s) (h' : Alike s s') : I s' := hI.kin h h'.kin

theorem handleSettings (hI : Steady I) (h : I s) :
    wp (handleSettings frame) (fun _ s' => I s') (fun _ s' => I s') s := by
  unfold Http2Connection.handleSettings
  rw [wp_ite]
  split
  · exact h
  · simp only [wp_bind, wp_modify]
    refine (applySettings_alike frame.payload).mono (fun _ t ht => ?_) fun _ t ht => hI.alike h ht
    have hwritten : I (writeSettings true t) := hI.alike (hI.alike h ht) (queueFrames_alike _ _ _ t)
    exact hI.quiet hwritten fun _ => schedule_served

/-- A frame of any type but payload. -/
theorem handleFrame (hI : Steady I) (h : I s) (service : Service) (ht : frame.type ≠ .data) :
    wp (Http2Connection.handleFrame service frame) (fun _ s' => I s') (fun _ s' => I s') s :=
  hI.toKept.handleFrame h service ht fun _ _ _ => hI.handleSettings h

/-- A step that takes no payload. -/
theorem step (hI : Steady I) (h : I s) (service : Service) {input : Input}
    (hinput : ∀ frame, input = .frame frame → frame.type ≠ .data) : I (Http2Connection.step service input s) :=
  hI.toKept.step h service fun frame hframe =>
    hI.handleFrame (hI.alike h (record_alike (by trivial) s)) service (hinput frame hframe)

end Steady

/-! ## Payload -/

/-- A frame of payload is handed to the stream that it names, or is an error. -/
theorem wp_handleFrame_data {Q : Unit → Http2Connection → Prop} {E : Http2Error → Http2Connection → Prop}
    (ht : frame.type = .data) (herror : ∀ e receiveWindow, E e { s with receiveWindow })
    (hslot : ∀ slot, slot < s.count → (s.stream slot).streamId = frame.streamId →
      verifyState .data (s.stream slot).state = none →
      wp (handleData service frame slot) Q E { s with receiveWindow := s.receiveWindow - frame.length }) :
    wp (handleFrame service frame) Q E s := by
  have hsame : E .protocolError s := herror _ s.receiveWindow
  unfold handleFrame accountData
  simp only [wp_bind, wp_get, wp_refuseSome, wp_refuseIf]
  split
  case h_1 => exact herror _ s.receiveWindow
  case h_2 hverify =>
    split
    case isTrue => exact hsame
    case isFalse =>
      simp only [wp_bind, wp_modify, wp_get, wp_refuseIf]
      split
      · exact herror _ _
      · have hid := streamId_ne_zero hverify (.inl ht)
        rw [if_pos hid]
        split
        case h_1 => exact herror _ _
        case h_2 hstream =>
          unfold dispatchFrame
          simp only [ht]
          simp only [verifyStream, ht] at hstream
          rw [frameSlot_of_ne hid] at hstream ⊢
          cases hfind : findStream { s with receiveWindow := s.receiveWindow - frame.length } frame.streamId with
          | none =>
              rw [hfind] at hstream
              simp only [state] at hstream
              split at hstream <;> split at hstream <;> simp [verifyState] at hstream
          | some slot =>
              rw [hfind] at hstream
              obtain ⟨hlt, hsame⟩ := findStream_some hfind
              exact hslot slot hlt hsame hstream

/-- What the handling of a body keeps as well. -/
def Whole (I : Http2Connection → Prop) : Prop :=
  ∀ {s s' slot core calls}, I s → Handles s.nextAddress slot s s' core calls → I s'

theorem Kept.handleFrame_data (hI : Kept I) (hwhole : Whole I) (h : I s) (service : Service) (ht : frame.type = .data) :
    wp (Http2Connection.handleFrame service frame) (fun _ s' => I s') (fun _ s' => I s') s := by
  have haccount : ∀ receiveWindow, I { s with receiveWindow } := fun _ =>
    hI.near h (Alike.near (.of_streams rfl rfl rfl rfl rfl ⟨[], rfl, by simp⟩) rfl rfl)
  refine wp_handleFrame_data ht (fun _ _ => haccount _) fun slot hslot _ _ => ?_
  have hcounted := haccount (s.receiveWindow - frame.length)
  have hlt : slot < ({ s with receiveWindow := s.receiveWindow - frame.length } : Http2Connection).count := hslot
  generalize ({ s with receiveWindow := s.receiveWindow - frame.length } : Http2Connection) = t at hcounted hlt ⊢
  have hplaced := hI.placed hcounted
  refine (wp_handleData frame hlt (Nat.le_refl _) (hplaced.known slot hlt) hplaced.settles).mono ?_ ?_
  · rintro - s' ⟨payload, -, hhandles, -⟩
    exact hwhole hcounted hhandles
  · rintro e s' ⟨core, made, hhandles, -⟩
    exact hwhole hcounted hhandles

/-- What the handling of messages keeps, their bodies among them, every run keeps. -/
theorem Steady.run (hI : Steady I) (hwhole : Whole I) (h : I s) (inputs : List (Service × Input)) :
    I (run inputs s) := by
  induction inputs generalizing s with
  | nil => exact h
  | cons input inputs ih =>
      refine ih (hI.toKept.step h input.1 fun frame _ => ?_)
      have hreceived : I (s.record (.received frame)) := hI.alike h (record_alike (by trivial) s)
      by_cases ht : frame.type = .data
      · exact hI.toKept.handleFrame_data hwhole hreceived input.1 ht
      · exact hI.handleFrame hreceived input.1 ht

end Http2Connection

end Viriatum
