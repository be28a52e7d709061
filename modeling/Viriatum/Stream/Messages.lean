import Viriatum.Stream.Lemmas.Attends

/-!
# The messages of a run

In a run that meets no error every message is heard as its transcript tells, and a run that takes no frame after an
error ends no message beyond the ones that are heard.
-/

namespace Viriatum

open Library Effect

namespace Http2Connection

variable {s s' : Http2Connection} {slot : Nat} {service : Service} {input : Input} {promises : Prop}

/-! ## Steps -/

theorem callsSettle_call (service : Service) : CallsSettle (call service) where
  acts _ callback _ hn := call_served service callback hn
  settles _ _ callback _ hn h := call_settles service callback hn h

/-- What handlers do on their own, apart from the closing of streams. -/
structure Works (s s' : Http2Connection) : Prop where
  served : ∀ n, n ≤ s.nextAddress → Served n s s'
  settles : ∀ n k, n ≤ s.nextAddress → Settles n k s → Settles n k s'
  does : Does (callKinds True) s s'

namespace Works

theorem quiet (h : ∀ m, Served m s s') (hdoes : Does (callKinds True) s s') : Works s s' :=
  ⟨fun m _ => h m, fun _ _ _ hsettles => hsettles.quiet h, hdoes⟩

theorem trans {s'' : Http2Connection} (h : Works s s') (h' : Works s' s'') : Works s s'' where
  served n hn := (h.served n hn).trans (h'.served n (Nat.le_trans hn (h.served n hn).nextAddress))
  settles n k hn hsettles := h'.settles n k (Nat.le_trans hn (h.served n hn).nextAddress) (h.settles n k hn hsettles)
  does := h.does.trans h'.does

end Works

theorem call_works (service : Service) (tag : Nat) (s : Http2Connection) : Works s (s.call service (.written tag)) where
  served n hn := by
    have hrecord : Served n s (s.record (.called (.written tag))) := Served.record fun a ha => by cases ha
    exact hrecord.trans (call_served service _ hn)
  settles n k hn h := by
    refine call_settles service _ hn (h.record (fun a ha => ?_) hn)
    cases ha
  does := call_does rfl (fun _ _ _ _ => trivial) (by simp)

/-- The completion of a write lets a handler work, and may close the stream or the connection after it. -/
theorem complete_works (service : Service) (s : Http2Connection) : ∃ t, Works s t ∧
    (complete service s = t ∨ complete service s = { t with connectionClosed := true } ∨
      ∃ slot, slot < t.count ∧ complete service s = closeStream slot t) := by
  have hsame : ∀ t : Http2Connection, t.streams = s.streams → t.core = s.core → t.nextAddress = s.nextAddress →
      t.history = s.history → t.outline = s.outline → Works s t := fun t hstreams hcore hnext hhistory houtline =>
    .quiet (fun m => .of_same hstreams hcore hnext ⟨[], hhistory, by simp⟩) (.of_eq houtline)
  unfold complete
  split
  case h_1 => exact ⟨s, hsame s rfl rfl rfl rfl rfl, .inl rfl⟩
  case h_2 write queue _ =>
    have hdrained := hsame { s with writeQueue := queue } rfl rfl rfl rfl rfl
    generalize ({ s with writeQueue := queue } : Http2Connection) = t at hdrained ⊢
    cases write.callback with
    | none => exact ⟨t, hdrained, .inl rfl⟩
    | close => exact ⟨t, hdrained, .inr (.inl rfl)⟩
    | stream streamId tag =>
        simp only [resume]
        split
        case h_1 => exact ⟨t, hdrained, .inl rfl⟩
        case h_2 slot hfind =>
          have hslot := (findStream_some hfind).1
          have hactive : Works s (t.activate slot) :=
            hdrained.trans (.quiet (fun _ => activate_served) (.of_eq outline_activate))
          have hresumed : Works s (resumeHandler service tag (t.activate slot)) ∧
              t.count ≤ (resumeHandler service tag (t.activate slot)).count := by
            cases tag with
            | none => exact ⟨hactive, Nat.le_refl _⟩
            | some tag =>
                have hcalled := call_works service tag (t.activate slot)
                exact ⟨hactive.trans hcalled, (hcalled.served 0 (Nat.zero_le _)).count⟩
          unfold resumeStream
          dsimp only
          generalize resumeHandler service tag (t.activate slot) = u at hresumed ⊢
          have hset : Works s (u.modifyStream slot fun stream => { stream with handler := u.handler }) :=
            hresumed.1.trans (.quiet (fun _ => .modify rfl (.refl _)) (.of_eq (outline_modifyStream rfl)))
          refine ⟨_, hset, ?_⟩
          unfold closeServed
          split
          · refine .inr (.inr ⟨slot, ?_, rfl⟩)
            rw [count_modifyStream]
            exact Nat.lt_of_lt_of_le hslot hresumed.2
          · exact .inl rfl
    | handler tag => exact ⟨_, hdrained.trans (call_works service tag t), .inl rfl⟩

theorem performAll_works (service : Service) (actions : List HandlerAction) (s : Http2Connection) :
    Works s (performAll (call service) service actions s) where
  served n hn := performAll_served service actions ((callsSettle_call service).serve n) hn
  settles n k hn h := performAll_settles service actions (callsSettle_call service) hn h
  does := by
    refine performAll_does (fun _ => trivial) (fun _ callback t ht => ?_) rfl
    have hcalled : Does (callKinds True) t (t.record (.called callback)) := record_call trivial trivial
    exact hcalled.trans (callWithin_does ht fun _ _ _ _ => trivial)

/-! ## What steps keep -/

theorem Attends.works (h : s.Attends) (hnumbered : s.outline.Numbered) (h' : Works s s') : s'.Attends := by
  have hserved := h'.served _ (Nat.le_refl _)
  refine h.served hnumbered hserved (h'.settles _ _ (Nat.le_refl _) h.settles) fun slot hge hlt => ?_
  exact even_of_does h'.does (fun _ hopened => hopened) hnumbered
    (fun i hi => congrArg StreamCore.streamId (hserved.stream i hi)) hserved.count hge hlt

theorem Broken.works (h : s.Broken) (h' : Works s s') : s'.Broken := by
  have hsettles := h'.settles _ s.count (Nat.le_refl _)
    ⟨fun a ha => .inl (h.fresh a ha), fun _ hge hlt => absurd hlt (Nat.not_lt.mpr hge), h.fresh⟩
  refine ⟨fun a => ?_, hsettles.fresh⟩
  by_cases ha : a < s.nextAddress
  · rw [callsOf_served (h'.served _ (Nat.le_refl _)) ha]
    exact h.heard a
  · rcases hsettles.messages a (Nat.le_of_not_lt ha) with hnone | hpromised
    · exact .inl (.inl hnone)
    · exact .inl (.inr (.inl hpromised))

theorem Broken.of_calls (h : s.Broken) (hnext : s'.nextAddress = s.nextAddress)
    (hcalls : ∀ a, callsOf a s'.history = callsOf a s.history) : s'.Broken where
  heard a := by
    rw [hcalls]
    exact h.heard a
  fresh a ha := by
    rw [hcalls]
    exact h.fresh a (hnext ▸ ha)

theorem callsOf_silent {events : List Event} (h : ∀ event ∈ events, event.Silent) (a : Nat) (history : List Event) :
    callsOf a (events ++ history) = callsOf a history := by
  have hnone : callsOf a events = [] := by
    apply callsOf_foreign
    intro event hmem
    have hsilent := h event hmem
    cases event with
    | called callback => exact hsilent.elim
    | _ => trivial
  rw [callsOf_append, hnone, List.append_nil]

theorem fail_calls (error : Http2Error) (s : Http2Connection) :
    (fail error s).nextAddress = s.nextAddress ∧ ∀ a, callsOf a (fail error s).history = callsOf a s.history := by
  unfold fail writeGoaway
  split
  · have hsilent : ∀ event ∈ [Event.failed error], event.Silent := by simp [Event.Silent]
    exact ⟨rfl, fun a => callsOf_silent hsilent a s.history⟩
  · have hsilent : ∀ event ∈ [Event.wrote none (encodeGoawayHttp2 s.lastStreamId error.code), .failed error],
        event.Silent := by simp [Event.Silent]
    exact ⟨rfl, fun a => callsOf_silent hsilent a s.history⟩

theorem Broken.fail (h : s.Broken) (error : Http2Error) : (Http2Connection.fail error s).Broken :=
  h.of_calls (fail_calls error s).1 (fail_calls error s).2

theorem Attends.complete (h : s.Attends) (hnumbered : s.outline.Numbered) (service : Service) :
    (Http2Connection.complete service s).Attends := by
  obtain ⟨t, hworks, hcomplete⟩ := complete_works service s
  have ht := h.works hnumbered hworks
  rcases hcomplete with heq | heq | ⟨slot, hslot, heq⟩
  · rw [heq]
    exact ht
  · rw [heq]
    exact ht.alike (.of_streams rfl rfl rfl rfl rfl ⟨[], rfl, by simp⟩)
  · rw [heq]
    exact ht.close hslot

theorem Broken.complete (h : s.Broken) (service : Service) : (Http2Connection.complete service s).Broken := by
  obtain ⟨t, hworks, hcomplete⟩ := complete_works service s
  have ht := h.works hworks
  rcases hcomplete with heq | heq | ⟨slot, hslot, heq⟩
  · rw [heq]
    exact ht
  · rw [heq]
    exact ht.of_calls rfl fun _ => rfl
  · rw [heq]
    obtain ⟨-, hnext, hcalls, -⟩ := closeStream_leaves hslot
    exact ht.of_calls hnext hcalls

/-- A frame leaves the session attending to its messages, or fails it. -/
theorem Attends.receive (h : s.Attends) (hnumbered : s.outline.Numbered) (service : Service) (frame : Http2Frame) :
    (Http2Connection.receive service frame s).Attends ∨
      (Http2Connection.receive service frame s).Broken ∧
        ∃ error, .failed error ∈ (Http2Connection.receive service frame s).history := by
  have hreceived : (s.record (.received frame)).Attends := h.alike (record_alike (by trivial) s)
  have hframe := handleFrame_attends service frame hreceived (numbered_received frame hnumbered)
  unfold wp at hframe
  unfold Http2Connection.receive
  split at hframe
  case h_1 hrun =>
    rw [hrun]
    exact .inl hframe
  case h_2 hrun =>
    rw [hrun]
    exact .inr ⟨hframe.fail _, _, failed_mem_fail _ _⟩

/-! ## Runs -/

/-- Whether a step takes no frame of the peer once the session has met an error. -/
def Halts (_ : Service) (input : Input) (s : Http2Connection) : Prop :=
  (∃ error, .failed error ∈ s.history) → ∀ frame, input ≠ .frame frame

/-- The session attends to its messages until it meets an error. -/
structure Minds (s : Http2Connection) : Prop where
  numbered : s.outline.Numbered
  broken : s.Broken
  attends : (∀ error, .failed error ∉ s.history) → s.Attends

theorem attends_start : start.Attends := by
  have hcalls : ∀ a, callsOf a start.history = [] := fun _ => rfl
  constructor
  case follows => exact fun slot hslot => absurd hslot (Nat.not_lt_zero _)
  case heard => exact fun a => .inl (hcalls a)
  case fresh => exact fun a _ => hcalls a
  case closed => exact fun slot hslot => absurd hslot (Nat.not_lt_zero _)
  case even => exact fun slot hslot => absurd hslot (Nat.not_lt_zero _)
  case odd => exact fun hne => absurd rfl hne
  case refused => exact fun _ => rfl

theorem Minds.step (h : s.Minds) (hhalts : Halts service input s) : (Http2Connection.step service input s).Minds := by
  have hnumbered : (Http2Connection.step service input s).outline.Numbered :=
    Moves.keeps (fun _ _ _ _ hm ho => hm.numbered ho) step_does h.numbered
  have hsound : (∀ error, .failed error ∉ (Http2Connection.step service input s).history) →
      ∀ error, .failed error ∉ s.history := fun hnone error hmem => hnone error (step_history.subset hmem)
  unfold Http2Connection.step at hnumbered hsound ⊢
  by_cases hclosed : s.connectionClosed = true
  · rw [if_pos hclosed]
    exact h
  · rw [if_neg hclosed] at hnumbered hsound ⊢
    cases input with
    | frame frame =>
        have hnone : ∀ error, .failed error ∉ s.history := fun error hmem => hhalts ⟨error, hmem⟩ frame rfl
        rcases (h.attends hnone).receive h.numbered service frame with hattends | ⟨hbroken, error, hfailed⟩
        · exact ⟨hnumbered, hattends.broken, fun _ => hattends⟩
        · exact ⟨hnumbered, hbroken, fun hgone => absurd hfailed (hgone error)⟩
    | oversized => exact ⟨hnumbered, h.broken.fail _, fun hgone => absurd (failed_mem_fail _ s) (hgone _)⟩
    | written =>
        exact ⟨hnumbered, h.broken.complete service, fun hgone => (h.attends (hsound hgone)).complete h.numbered service⟩
    | work actions =>
        have hworks := performAll_works service actions s
        exact ⟨hnumbered, h.broken.works hworks, fun hgone => (h.attends (hsound hgone)).works h.numbered hworks⟩

/-- In a run that takes no frame after an error the session minds its messages. -/
theorem minds_run {inputs : List (Service × Input)} (h : Along Halts inputs start) : (run inputs start).Minds :=
  run_along (fun _ _ _ hhalts hs => Minds.step hs hhalts) inputs h
    ⟨numbered_start, attends_start.broken, fun _ => attends_start⟩

/-- A run without an error takes no frame after one. -/
theorem halts_of_sound {inputs : List (Service × Input)} (h : ∀ error, .failed error ∉ (run inputs s).history) :
    Along Halts inputs s := by
  induction inputs generalizing s with
  | nil => trivial
  | cons input inputs ih =>
      refine ⟨fun ⟨error, hfailed⟩ => ?_, ih h⟩
      exact absurd ((run_history (input :: inputs) s).subset hfailed) (h error)

theorem attends_run {inputs : List (Service × Input)} (h : ∀ error, .failed error ∉ (run inputs start).history) :
    (run inputs start).Attends :=
  (minds_run (halts_of_sound h)).attends h

end Http2Connection

end Viriatum
