import Viriatum.Stream.Lemmas.Block
import Viriatum.Stream.Lemmas.Streams

/-!
# Frames seen from the outline

The handling of a frame makes moves of the kinds that the frame and the session before it allow.
-/

namespace Viriatum

open Library Effect

namespace Http2Connection

variable {allowed : MoveKind → Prop} {promises begins : Prop} {s s' : Http2Connection} {slot : Nat}
  {service : Service} {g : Bool} {frame : Http2Frame}

/-! ## Assembling blocks -/

theorem gather_spec {data : Bytes} :
    wp (gather data) (fun _ s' => s.block.length + data.length ≤ http2MaxBlock ∧ s' = { s with block := s.block ++ data })
      (fun e s' => http2MaxBlock < s.block.length + data.length ∧ e = .enhanceYourCalm ∧ s' = s) s := by
  unfold gather
  simp only [wp_bind, wp_get, wp_refuseIf, wp_set]
  split
  case isTrue h => exact ⟨h, by trivial, by trivial⟩
  case isFalse h => exact ⟨by omega, by trivial⟩

theorem discardBlock_does : wp discardBlock (fun _ s' => Does allowed s s') (fun _ s' => Does allowed s s') s := by
  have hdiscard : ∀ header (p : Http2Connection × Unit), p.1.outline = s.outline →
      wp (discard header) (fun _ p => p.1.outline = s.outline) (fun _ p => p.1.outline = s.outline) p := fun _ _ h => h
  have hkeeps : wp (decodeHpack discard (fun _ => Http2Error.compressionError) s.block) _ _ (s.decoder, (s, ())) :=
    decodeHpack_keeps hdiscard rfl
  unfold discardBlock
  simp only [wp_bind, wp_get, wp_after, wp_pure]
  unfold decodeBlock wp at *
  simp only [ExceptT.run] at hkeeps ⊢
  split at hkeeps
  case h_1 hrun =>
    rw [hrun]
    exact .of_eq hkeeps
  case h_2 hrun =>
    rw [hrun]
    exact .of_eq hkeeps

/-! ## Frames of headers -/

theorem wp_openHeaders {Q : Unit → Http2Connection → Prop} {E : Http2Error → Http2Connection → Prop} :
    wp (openHeaders service frame) Q E s =
      wp (openStream frame.streamId) (fun slot s' => wp (takeHeaders service frame slot) Q E s')
        (fun e s' => if e = .refusedStream then wp (refuseHeaders frame) Q E s' else E e s') s := by
  simp only [wp, openHeaders, ExceptT.run]
  rcases openStream frame.streamId s with ⟨e | slot, s'⟩
  · cases e <;> rfl
  · rfl

/-! ## Frames of headers -/

theorem refuseHeaders_does (hid : frame.streamId ≠ 0) (ha : allowed (.reset frame.streamId)) :
    wp (refuseHeaders frame) (fun _ s' => Does allowed s s') (fun _ s' => Does allowed s s') s := by
  have hreset : ∀ {t : Http2Connection}, t.outline = s.outline.record
      (.wrote none (encodeValueHttp2 .rstStream frame.streamId Http2Error.refusedStream.code)) → Does allowed s t := by
    intro t ht
    exact (Moves.single (.reset frame.streamId _ hid) ha).trans (Moves.of_eq ht)
  unfold refuseHeaders
  simp only [wp_bind, wp_modify]
  split
  case h_1 => exact hreset rfl
  case h_2 =>
    rw [wp_bind]
    refine gather_spec.mono ?_ ?_
    · rintro _ _ ⟨_, rfl⟩
      rw [wp_ite]
      split
      · exact discardBlock_does.mono (fun _ _ h => (hreset rfl).trans h) fun _ _ h => (hreset rfl).trans h
      · exact hreset rfl
    · rintro _ _ ⟨_, _, rfl⟩
      exact hreset rfl

/-- A fragment is taken for the stream in a slot, whose message begins if the fragment ends the first block. -/
theorem takeFragment_does {data : Bytes} (hg : s.goaway = g)
    (hpromises : ∀ s callback, s.goaway = g → service.Promises s callback → promises) (hslot : slot < s.count)
    (hkinds : ∀ kind, blockKinds promises begins kind → allowed kind)
    (hbegins : frame.has http2FlagEndHeaders = true → s.block.length + data.length ≤ http2MaxBlock →
      (s.stream slot).headersComplete = false → begins) :
    wp (takeFragment service frame slot data) (fun _ s' => Does allowed s s') (fun _ s' => Does allowed s s') s := by
  have hclose : (if frame.has http2FlagEndStream then closeRemote slot s else s).outline = s.outline := by
    split
    · exact outline_modifyStream rfl
    · rfl
  have hheaders : ((if frame.has http2FlagEndStream then closeRemote slot s else s).stream slot).headersComplete =
      (s.stream slot).headersComplete := by
    split
    · rw [closeRemote, stream_modifyStream hslot]
    · rfl
  have hblock : (if frame.has http2FlagEndStream then closeRemote slot s else s).block = s.block := by
    split <;> rfl
  have hgoaway : (if frame.has http2FlagEndStream then closeRemote slot s else s).goaway = g := by
    rw [← hg]
    split <;> rfl
  unfold takeFragment
  simp only [wp_bind, wp_modify]
  generalize (if frame.has http2FlagEndStream then closeRemote slot s else s) = t at *
  refine gather_spec.mono ?_ ?_
  · rintro _ _ ⟨hsize, rfl⟩
    simp only [wp_ite, wp_bind, wp_get, wp_after, wp_modify]
    split
    case isTrue hend =>
      have hblocks : wp (blockHttp2 service slot (t.block ++ data)) _ _ { t with block := t.block ++ data } :=
        blockHttp2_blocks begins hgoaway hpromises fun hincomplete =>
          hbegins hend (hblock ▸ hsize) (hheaders ▸ hincomplete)
      refine hblocks.mono ?_ ?_
      · intro _ t' ht
        exact (Does.of_eq hclose).trans ((ht.does.mono hkinds).trans (.of_eq rfl))
      · intro _ t' ht
        exact (Does.of_eq hclose).trans ((ht.does.mono hkinds).trans (.of_eq rfl))
    case isFalse => exact (Does.of_eq hclose).trans (.of_eq rfl)
  · rintro _ _ ⟨_, _, rfl⟩
    exact .of_eq hclose

theorem takeHeaders_does (begins : Prop) (hg : s.goaway = g)
    (hpromises : ∀ s callback, s.goaway = g → service.Promises s callback → promises) (hslot : slot < s.count)
    (hkinds : ∀ kind, blockKinds promises begins kind → allowed kind) (hprioritised : allowed .prioritised)
    (hbegins : frame.has http2FlagEndHeaders = true → ∀ priority data, headersFragment frame = .ok (priority, data) →
      (∀ p, priority = some p → p.dependency ≠ (s.stream slot).streamId) →
      s.block.length + data.length ≤ http2MaxBlock → (s.stream slot).headersComplete = false → begins) :
    wp (takeHeaders service frame slot) (fun _ s' => Does allowed s s') (fun _ s' => Does allowed s s') s := by
  unfold takeHeaders
  split
  case h_1 => exact .refl s
  case h_2 priority data hfragment =>
    rw [wp_bind]
    refine ((prioritiseStream_spec _ hslot hprioritised).and prioritiseStream_reprioritised).mono ?_ ?_
    · rintro _ t ⟨⟨hne, hdoes⟩, hsame⟩
      obtain ⟨p, hp⟩ := hsame.stream slot
      have hgoaway : t.goaway = g := by rw [hsame.same, ← hg]
      have hblock : t.block = s.block := by rw [hsame.same]
      have hheaders : (t.stream slot).headersComplete = (s.stream slot).headersComplete := by rw [hp]
      refine (takeFragment_does hgoaway hpromises (hsame.count ▸ hslot) hkinds ?_).mono ?_ ?_
      · intro hend hsize hincomplete
        refine hbegins hend (some priority) data hfragment ?_ (hblock ▸ hsize) (hheaders ▸ hincomplete)
        rintro _ ⟨⟩
        exact hne
      · exact fun _ _ h => hdoes.trans h
      · exact fun _ _ h => hdoes.trans h
    · rintro _ _ ⟨⟨_, _, rfl⟩, _⟩
      exact .refl _
  case h_3 data hfragment =>
    exact takeFragment_does hg hpromises hslot hkinds fun hend hsize hincomplete =>
      hbegins hend none data hfragment (by simp) hsize hincomplete

/-! ## The kinds of a frame -/

theorem frameKinds_of_blockKinds (promises : Prop) (s : Http2Connection) (frame : Http2Frame) :
    ∀ kind, blockKinds promises (s.Begins frame) kind → frameKinds promises s frame kind := by
  intro kind h
  cases h with
  | inl h => cases kind <;> first | exact h.elim | exact h | exact trivial | exact Or.inl h
  | inr h =>
      obtain ⟨rfl, hbegins⟩ := h
      exact Or.inr hbegins

variable (hpromises : ∀ s' callback, s'.goaway = s.goaway → service.Promises s' callback → promises)

include hpromises

theorem openHeaders_does (hadmits : s.Admits frame) (ht : frame.type = .headers)
    (hfind : s.findStream frame.streamId = none) :
    wp (openHeaders service frame) (fun _ s' => Does (frameKinds promises s frame) s s')
      (fun _ s' => Does (frameKinds promises s frame) s s') s := by
  rw [wp_openHeaders]
  refine (openStream_spec (fun kind => kind = .opened frame.streamId) rfl).mono ?_ ?_
  · rintro slot t ⟨⟨hodd, hlast, hroom⟩, rfl, hdoes, hcount, hstream, _, hgoaway, hblock⟩
    have hopens : s.Opens frame := ⟨⟨hadmits, ht, hfind, hodd, hlast⟩, hroom⟩
    have hopened : Does (frameKinds promises s frame) s t := by
      refine hdoes.mono ?_
      rintro _ rfl
      exact ⟨rfl, hopens⟩
    refine (takeHeaders_does (s.Begins frame) hgoaway hpromises (by omega) (frameKinds_of_blockKinds promises s frame) trivial ?_).mono ?_ ?_
    · intro hend priority data hfragment hne hsize _
      rw [hstream] at hne
      rw [hblock] at hsize
      exact Or.inl ⟨hadmits, ht, hend, priority, data, hfragment, hne, hsize, Or.inl hopens⟩
    · exact fun _ _ h => hopened.trans h
    · exact fun _ _ h => hopened.trans h
  · rintro e _ ⟨rfl, he⟩
    split
    case isTrue hrefused =>
      cases he with
      | inl he =>
          obtain ⟨_, hodd, hlast, hfull⟩ := he
          exact refuseHeaders_does (by omega) ⟨rfl, Or.inl ⟨⟨hadmits, ht, hfind, hodd, hlast⟩, hfull⟩⟩
      | inr he => cases hrefused.symm.trans he
    case isFalse => exact .refl _

theorem continueHeaders_does (hadmits : s.Admits frame) (ht : frame.type = .headers)
    (hfind : s.findStream frame.streamId = some slot) (hverify : s.verifyStream frame (some slot) = none) :
    wp (continueHeaders service frame slot) (fun _ s' => Does (frameKinds promises s frame) s s')
      (fun _ s' => Does (frameKinds promises s frame) s s') s := by
  obtain ⟨hslot, hstream⟩ := findStream_some hfind
  unfold continueHeaders
  simp only [wp_bind, wp_get, wp_ite, wp_refuseIf, wp_set]
  split
  case isTrue hcomplete =>
    split
    · exact .refl s
    · have hedit : Does (frameKinds promises s frame) s (s.modifyStream slot fun stream =>
          { stream with request := { stream.request with trailers := true } }) := .of_eq (outline_modifyStream rfl)
      have htake : wp (takeHeaders service frame slot) _ _ (s.modifyStream slot fun stream =>
          { stream with request := { stream.request with trailers := true } }) :=
        takeHeaders_does (s.Begins frame) rfl hpromises (by simpa using hslot)
          (frameKinds_of_blockKinds promises s frame) trivial (by
            intro _ _ _ _ _ _ hincomplete
            rw [stream_modifyStream hslot] at hincomplete
            cases hcomplete.symm.trans hincomplete)
      exact htake.mono (fun _ _ h => hedit.trans h) fun _ _ h => hedit.trans h
  case isFalse =>
    refine takeHeaders_does (s.Begins frame) rfl hpromises hslot (frameKinds_of_blockKinds promises s frame) trivial ?_
    intro hend priority data hfragment hne hsize hincomplete
    rw [hstream] at hne
    refine Or.inl ⟨hadmits, ht, hend, priority, data, hfragment, hne, hsize, Or.inr ⟨⟨slot, hfind, hincomplete⟩, ?_⟩⟩
    rw [hfind]
    exact hverify

theorem handleContinuation_does (hadmits : s.Admits frame) (ht : frame.type = .continuation) :
    wp (handleContinuation service frame) (fun _ s' => Does (frameKinds promises s frame) s s')
      (fun _ s' => Does (frameKinds promises s frame) s s') s := by
  unfold handleContinuation
  simp only [wp_bind, wp_get, wp_refuseIf]
  split
  · exact .refl s
  case isFalse hcontinuation =>
    refine gather_spec.mono ?_ ?_
    · rintro _ _ ⟨hsize, rfl⟩
      simp only [wp_ite, wp_bind, wp_get, wp_pure]
      split
      case isTrue hend =>
        split
        case isTrue =>
          exact discardBlock_does.mono (fun _ _ h => (Does.of_eq rfl).trans h) fun _ _ h => (Does.of_eq rfl).trans h
        case isFalse hrefused =>
          split
          case h_1 => exact .of_eq rfl
          case h_2 slot hfind =>
            rw [wp_after]
            have hblocks : wp (blockHttp2 service slot (s.block ++ frame.payload)) _ _
                { s with block := s.block ++ frame.payload } :=
              blockHttp2_blocks (s.Begins frame) rfl hpromises fun hincomplete =>
                Or.inr ⟨hadmits, ht, hend, hcontinuation, hsize, hrefused, slot, hfind, hincomplete⟩
            refine hblocks.mono ?_ ?_
            · exact fun _ t ht => (Does.of_eq rfl).trans
                ((ht.does.mono (frameKinds_of_blockKinds promises s frame)).trans (.of_eq rfl))
            · exact fun _ t ht => (Does.of_eq rfl).trans
                ((ht.does.mono (frameKinds_of_blockKinds promises s frame)).trans (.of_eq rfl))
      case isFalse => exact .of_eq rfl
    · rintro _ _ ⟨_, _, rfl⟩
      exact .refl _

omit hpromises in
theorem widen_does (ha : allowed .wrote) (hid : frame.streamId ∈ s.outline.ids) :
    Does allowed s (widen slot frame s) := by
  have hne : ∀ t : Http2FrameType, t = .windowUpdate → t ≠ .data ∧ t ≠ .rstStream ∧ t ≠ .goaway := by
    rintro _ rfl
    simp
  unfold widen
  split
  · have hfirst : Does allowed s (writeValue .windowUpdate 0 frame.length s) :=
      writeValue_does _ ha (hne _ rfl) (Or.inl rfl)
    have hsecond : Does allowed { writeValue .windowUpdate 0 frame.length s with
        receiveWindow := (writeValue .windowUpdate 0 frame.length s).receiveWindow + frame.length } _ :=
      writeValue_does frame.length ha (hne _ rfl)
        (Or.inr hid : frame.streamId = 0 ∨ frame.streamId ∈ s.outline.ids)
    exact ((hfirst.trans (.of_eq rfl)).trans hsecond).trans (.of_eq (outline_modifyStream rfl))
  · rfl

omit hpromises in
/-- The payload of a frame reaches the handler and is accounted for. -/
theorem deliver_does (slot : Nat) (payload : Bytes) (address : Nat) (hid : frame.streamId ∈ s.outline.ids)
    (hg : s.goaway = g) (hpromises : ∀ s' callback, s'.goaway = g → service.Promises s' callback → promises) :
    Does (callKinds promises) s
      (widen slot frame (if payload.length > 0 then s.call service (.body address payload) else s)) := by
  split
  · have hcall : Does (callKinds promises) s (s.call service (.body address payload)) :=
      call_does hg hpromises (by simp)
    exact hcall.trans (widen_does trivial (hcall.mem_ids hid))
  · exact widen_does trivial hid

theorem handleData_does (hslot : slot < s.count) (hstream : (s.stream slot).streamId = frame.streamId) :
    wp (handleData service frame slot) (fun _ s' => Does (callKinds promises) s s')
      (fun _ s' => Does (callKinds promises) s s') s := by
  have hid : frame.streamId ∈ s.outline.ids := hstream ▸ mem_ids hslot
  have hdebit : (s.modifyStream slot fun stream =>
      { stream with receiveWindow := stream.receiveWindow - frame.length }).outline = s.outline :=
    outline_modifyStream rfl
  have hgoaway : (s.modifyStream slot fun stream =>
      { stream with receiveWindow := stream.receiveWindow - frame.length }).goaway = s.goaway := rfl
  unfold handleData
  simp only [wp_bind, wp_modify, wp_get, wp_refuseIf]
  generalize (s.modifyStream slot fun stream =>
    { stream with receiveWindow := stream.receiveWindow - frame.length }) = t at *
  split
  · exact .of_eq hdebit
  · split
    case h_1 => exact .of_eq hdebit
    case h_2 payload _ =>
      simp only [wp_bind, wp_set, wp_ite, wp_modify, wp_get, wp_refuseIf, wp_pure]
      have hcredit : ((t.modifyStream slot fun stream =>
          { stream with received := stream.received + payload.length }).activate slot).outline = s.outline := by
        rw [outline_activate, outline_modifyStream rfl, hdebit]
      have hgoaway' : ((t.modifyStream slot fun stream =>
          { stream with received := stream.received + payload.length }).activate slot).goaway = s.goaway := hgoaway
      generalize ((t.modifyStream slot fun stream =>
        { stream with received := stream.received + payload.length }).activate slot) = t' at *
      have hdeliver := (Does.of_eq hcredit).trans (deliver_does slot payload
        (t.stream slot).request.address (by rwa [hcredit]) hgoaway' hpromises)
      generalize widen slot frame _ = u at hdeliver ⊢
      split
      · have hclosed : Does (callKinds promises) s (closeRemote slot u) :=
          hdeliver.trans (.of_eq (outline_modifyStream rfl))
        split
        · exact hclosed
        · exact hclosed.trans (call_does hclosed.goaway hpromises (by simp))
      · exact hdeliver

omit hpromises in
theorem handlePriority_does (hslot : ∀ i, s.frameSlot frame = some i → i < s.count) :
    wp (handlePriority frame (s.frameSlot frame)) (fun _ s' => Does (frameKinds promises s frame) s s')
      (fun _ s' => Does (frameKinds promises s frame) s s') s := by
  unfold handlePriority
  split
  case h_1 => exact .refl s
  case h_2 priority _ =>
    simp only [wp_bind, wp_refuseIf]
    split
    · exact .refl s
    · split
      case h_1 slot hframe =>
        refine (prioritiseStream_spec (frameKinds promises s frame) (hslot slot hframe) trivial).mono ?_ ?_
        · rintro _ _ ⟨_, h⟩
          exact h
        · rintro _ _ ⟨_, _, rfl⟩
          exact .refl _
      case h_2 => exact .refl s

omit hpromises in
theorem handleSettings_does (ht : frame.type = .settings) :
    wp (handleSettings frame) (fun _ s' => Does (frameKinds promises s frame) s s')
      (fun _ s' => Does (failureKinds promises s frame) s s') s := by
  unfold handleSettings
  split
  · exact .refl s
  · simp only [wp_bind, wp_modify]
    refine (applySettings_spec (frameKinds promises s frame) trivial).mono ?_ ?_
    · intro _ t h
      exact (h.trans (writeSettings_does trivial)).trans (schedule_does trivial)
    · intro _ t h
      refine h.mono ?_
      rintro kind (hk | hk)
      · exact Or.inl hk
      · exact Or.inr ⟨hk, ht⟩

omit hpromises in
theorem handleWindowUpdate_does (hadmits : s.Admits frame) (ht : frame.type = .windowUpdate) :
    wp (handleWindowUpdate frame) (fun _ s' => Does (frameKinds promises s frame) s s')
      (fun _ s' => Does (frameKinds promises s frame) s s') s := by
  have hspec : wp (updateWindow frame.streamId frame.increment) _ _ s :=
    updateWindow_spec (frameKinds promises s frame) (fun hid => ⟨ht, hid, rfl⟩) fun _ => ⟨ht, rfl, rfl⟩
  unfold handleWindowUpdate
  simp only [wp_tryCatch, wp_bind, wp_modify, wp_ite, wp_throw]
  refine hspec.mono ?_ ?_
  · rintro _ t ⟨_, h⟩
    exact h.trans (schedule_does trivial)
  · rintro e _ ⟨rfl, he⟩
    split
    case isFalse => exact .refl _
    case isTrue hoverflow =>
      obtain ⟨hflow, hid⟩ := hoverflow
      rw [hflow] at he
      rcases he with ⟨he, _⟩ | ⟨_, hpos, hstream⟩
      · cases he
      · have hoverflows : Overflows _ frame := ⟨hadmits, ht, hid, hpos, hstream hid⟩
        exact Does.single (.reset frame.streamId _ hid) ⟨rfl, Or.inr hoverflows⟩

/-! ## Frames -/

omit hpromises in
theorem frameSlot_some {i : Nat} (h : s.frameSlot frame = some i) :
    frame.streamId ≠ 0 ∧ s.findStream frame.streamId = some i := by
  unfold frameSlot at h
  split at h
  · cases h
  · exact ⟨‹_›, h⟩

omit hpromises in
theorem frameSlot_of_ne (h : frame.streamId ≠ 0) : s.frameSlot frame = s.findStream frame.streamId := if_neg h

omit hpromises in
/-- The frames of a stream that are well formed name one. -/
theorem streamId_ne_zero {settings : Http2Settings} (h : verifyFrameHttp2 frame settings = none)
    (ht : frame.type = .data ∨ frame.type = .headers ∨ frame.type = .continuation ∨ frame.type = .priority ∨
      frame.type = .rstStream) : frame.streamId ≠ 0 := by
  intro hid
  unfold verifyFrameHttp2 at h
  split at h
  · cases h
  · rcases ht with ht | ht | ht | ht | ht <;> simp [ht] at h

/-- A frame of any type but payload, once it is found to be one that its stream may receive. -/
theorem dispatchFrame_does (hadmits : s.Admits frame) (ht : frame.type ≠ .data)
    (hverify : frame.streamId ≠ 0 → s.verifyStream frame (s.frameSlot frame) = none) :
    wp (dispatchFrame service frame (s.frameSlot frame)) (fun _ s' => Does (frameKinds promises s frame) s s')
      (fun _ s' => Does (failureKinds promises s frame) s s') s := by
  have hfailure : ∀ {s' : Http2Connection}, Does (frameKinds promises s frame) s s' →
      Does (failureKinds promises s frame) s s' := fun h => h.mono fun _ => Or.inl
  have hslot : ∀ i, s.frameSlot frame = some i → i < s.count := fun i hi => (findStream_some (frameSlot_some hi).2).1
  unfold dispatchFrame
  split
  case h_1 htype => exact absurd htype ht
  case h_2 htype =>
    have hid := streamId_ne_zero hadmits.1 (Or.inr (Or.inl htype))
    unfold handleHeaders
    split
    case h_1 hframe =>
      rw [frameSlot_of_ne hid] at hframe
      exact (openHeaders_does hpromises hadmits htype hframe).mono (fun _ _ h => h) fun _ _ h => hfailure h
    case h_2 slot hframe =>
      rw [frameSlot_of_ne hid] at hframe
      have hverify := hverify hid
      rw [frameSlot_of_ne hid, hframe] at hverify
      exact (continueHeaders_does hpromises hadmits htype hframe hverify).mono (fun _ _ h => h)
        fun _ _ h => hfailure h
  case h_3 htype =>
    exact (handleContinuation_does hpromises hadmits htype).mono (fun _ _ h => h) fun _ _ h => hfailure h
  case h_4 => exact (handlePriority_does hslot).mono (fun _ _ h => h) fun _ _ h => hfailure h
  case h_5 htype =>
    split
    case h_1 slot hframe =>
      obtain ⟨_, hfind⟩ := frameSlot_some hframe
      obtain ⟨hlt, hstream⟩ := findStream_some hfind
      exact closeStream_does hlt trivial ⟨hstream, htype⟩
    case h_2 => exact .refl s
  case h_6 htype => exact handleSettings_does htype
  case h_7 =>
    rw [wp_ite]
    split
    · exact .refl s
    · exact writePing_does trivial
  case h_8 htype => exact Does.single .away htype
  case h_9 htype =>
    exact (handleWindowUpdate_does hadmits htype).mono (fun _ _ h => h) fun _ _ h => hfailure h
  case h_10 => exact .refl s
  case h_11 => exact .refl s

omit hpromises in
@[simp] theorem wp_refuseSome {error : Option Http2Error} {Q : Unit → Http2Connection → Prop}
    {E : Http2Error → Http2Connection → Prop} :
    wp (refuseSome error) Q E s = match error with
      | some e => E e s
      | none => Q () s := by
  cases error <;> rfl

/-- A frame of payload, once it is found to be one that its stream may receive. -/
theorem dispatchData_does (ht : frame.type = .data) :
    wp (dispatchFrame service frame (s.frameSlot frame)) (fun _ s' => Does (callKinds promises) s s')
      (fun _ s' => Does (callKinds promises) s s') s := by
  unfold dispatchFrame
  simp only [ht]
  split
  case h_1 slot hframe =>
    obtain ⟨hlt, hstream⟩ := findStream_some (frameSlot_some hframe).2
    exact handleData_does hpromises hlt hstream
  case h_2 => exact .refl s

omit hpromises in
theorem frameKinds_of_callKinds : ∀ kind, callKinds promises kind → frameKinds promises s frame kind :=
  fun kind h => frameKinds_of_blockKinds promises s frame kind (Or.inl h)

/-- The moves of a frame are of the kinds that the frame and the session before it allow. -/
theorem handleFrame_does :
    wp (handleFrame service frame) (fun _ s' => Does (frameKinds promises s frame) s s')
      (fun _ s' => Does (failureKinds promises s frame) s s') s := by
  have hcall : ∀ {s' : Http2Connection}, Does (callKinds promises) s s' → Does (frameKinds promises s frame) s s' :=
    fun h => h.mono frameKinds_of_callKinds
  have hfailure : ∀ {s' : Http2Connection}, Does (callKinds promises) s s' →
      Does (failureKinds promises s frame) s s' := fun h => (hcall h).mono fun _ => Or.inl
  unfold handleFrame
  simp only [wp_bind, wp_get, wp_refuseSome, wp_refuseIf]
  split
  case h_1 => exact hfailure (.refl s)
  case h_2 hverify =>
    split
    case isTrue => exact hfailure (.refl s)
    case isFalse hcontinuation =>
      have hadmits : s.Admits frame := ⟨hverify, by tauto⟩
      unfold accountData
      by_cases ht : frame.type = .data
      · rw [if_pos ht]
        simp only [wp_bind, wp_modify, wp_get, wp_refuseIf]
        have hdebit : ({ s with receiveWindow := s.receiveWindow - frame.length } : Http2Connection).outline = s.outline :=
          rfl
        have hpromises' : ∀ s' callback, s'.goaway =
            ({ s with receiveWindow := s.receiveWindow - frame.length } : Http2Connection).goaway →
            service.Promises s' callback → promises := hpromises
        split
        · exact hfailure (.of_eq hdebit)
        · split
          · exact hfailure (.of_eq hdebit)
          · refine (dispatchData_does hpromises' ht).mono ?_ ?_
            · exact fun _ _ h => hcall ((Does.of_eq hdebit).trans h)
            · exact fun _ _ h => hfailure ((Does.of_eq hdebit).trans h)
      · rw [if_neg ht]
        simp only [wp_pure]
        split
        case h_1 => exact hfailure (.refl s)
        case h_2 hstream =>
          refine dispatchFrame_does hpromises hadmits ht fun hid => ?_
          rw [if_pos hid] at hstream
          exact hstream

end Http2Connection

end Viriatum
