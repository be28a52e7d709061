import Viriatum.Stream.Transcript

/-!
# The steps of a message

What the handling of a frame makes of the message of its stream; every other message stays as it is.
-/

namespace Viriatum

open Library Effect

/-! ## The calls of a transcript -/

namespace Intake

theorem gathered_calls (i : Intake) (fields : List HpackHeader) :
    (fields.foldl gathered i).calls = i.calls ∧ (fields.foldl gathered i).request.address = i.request.address := by
  induction fields generalizing i with
  | nil => exact ⟨rfl, rfl⟩
  | cons field fields ih =>
      obtain ⟨hcalls, haddress⟩ := ih (i.gathered field)
      exact ⟨hcalls, haddress.trans (gatherPseudo_address field i.block.pseudo i.request)⟩

end Intake

namespace Transcript

variable {address streamId : Nat} {t : Transcript}

/-- The message once its pseudo headers have been gathered. -/
def request (address streamId : Nat) (t : Transcript) : HttpRequest :=
  ((pseudoFields t.fields).foldl Intake.gathered (.fresh address streamId)).request

theorem head_calls (t : Transcript) : (t.head address streamId).calls =
    .messageBegin address :: (Intake.pseudoCalls (t.request address streamId) ++
      (regularFields t.fields).flatMap (Intake.fieldCalls address)) := by
  obtain ⟨hcalls, haddress⟩ := Intake.gathered_calls (.fresh address streamId) (pseudoFields t.fields)
  have htook := (Intake.took_calls ((pseudoFields t.fields).foldl Intake.gathered (.fresh address streamId)).handed
    (regularFields t.fields)).2
  unfold head Intake.accepted
  rw [htook]
  simp only [Intake.handed, hcalls, haddress, request]
  rfl

theorem request_address (t : Transcript) : (t.request address streamId).address = address :=
  (Intake.gathered_calls (.fresh address streamId) (pseudoFields t.fields)).2

/-- A message that has not ended is not completed. -/
theorem not_completed (h : t.ending = none) (a : Nat) : .messageComplete a ∉ t.calls address streamId := by
  unfold calls
  rw [head_calls, h]
  unfold Intake.pseudoCalls
  split <;> simp [Ending.calls, Intake.fieldCalls]

theorem completed (h : t.ending ≠ none) : .messageComplete address ∈ t.calls address streamId := by
  unfold calls
  cases hending : t.ending with
  | none => exact absurd hending h
  | some ending => cases ending <;> simp [Ending.calls]

end Transcript

/-- A message that is being received is not completed. -/
theorem Follows.not_completed {waits : Prop} {core : StreamCore} {calls : List Callback}
    (h : Follows waits core calls) (hopen : waits ∨ core.endStream = false) (a : Nat) :
    .messageComplete a ∉ calls := by
  cases h with
  | awaiting _ _ _ hcalls => simp [hcalls]
  | promised hwaits _ hend _ =>
      rcases hopen with hw | ho
      · exact absurd hw hwaits
      · cases ho.symm.trans hend
  | receiving t streamId _ hending _ _ _ _ _ hcalls =>
      rw [hcalls]
      exact t.not_completed hending a
  | ended t streamId _ _ hwaits _ hend _ =>
      rcases hopen with hw | ho
      · exact absurd hw hwaits
      · cases ho.symm.trans hend

namespace Http2Connection

variable {slot : Nat} {s s' : Http2Connection} {service : Service} {core : StreamCore} {calls : List Callback}

/-! ## The handlers on their own -/

/-- What handlers write and promise keeps the messages. -/
theorem Attends.served (h : s.Attends) (hnumbered : s.outline.Numbered) (h' : Served s.nextAddress s s')
    (hsettles : Settles s.nextAddress s.count s')
    (heven : ∀ slot, s.count ≤ slot → slot < s'.count → (s'.stream slot).streamId % 2 = 0) : s'.Attends := by
  have hcontinuation : s'.continuation = s.continuation := congrArg SessionCore.continuation h'.core
  have hrefused : s'.refused = s.refused := congrArg SessionCore.refused h'.core
  have hcalls : ∀ a, a < s.nextAddress → callsOf a s'.history = callsOf a s.history := fun a ha => callsOf_served h' ha
  constructor
  case follows =>
    intro slot hslot
    by_cases hold : slot < s.count
    · have hcore := h'.stream slot hold
      have hrequest := address_of_served h' hold
      have hid : (s'.stream slot).streamId = (s.stream slot).streamId := congrArg StreamCore.streamId hcore
      have hwaits : s.Assembles slot ↔ s'.Assembles slot := by
        simp only [Assembles, hcontinuation, hrefused, hid]
      rw [callsAt, hrequest, hcalls _ (hnumbered.address_lt hold), hcore]
      exact (h.follows slot hold).congr hwaits
    · have hge : s.count ≤ slot := Nat.le_of_not_lt hold
      obtain ⟨-, hend, hcomplete, -⟩ := h'.reserved slot hge hslot
      obtain ⟨-, hpromised⟩ := hsettles.streams slot hge hslot
      refine .promised ?_ hcomplete hend hpromised
      rintro ⟨hne, -, hid⟩
      have hnumber := heven slot hge hslot
      rw [hcontinuation] at hne hid
      have hodd := h.odd hne
      omega
  case heard =>
    intro a
    by_cases ha : a < s.nextAddress
    · rw [hcalls a ha]
      exact h.heard a
    · rcases hsettles.messages a (Nat.le_of_not_lt ha) with hnone | hpromised
      · exact .inl hnone
      · exact .inr (.inl hpromised)
  case fresh => exact hsettles.fresh
  case closed =>
    intro slot hslot hend
    by_cases hold : slot < s.count
    · have hended : (s.stream slot).endStream = true :=
        (congrArg StreamCore.endStream (h'.stream slot hold)).symm.trans hend
      have hstate := h'.state slot hold
      rcases h.closed slot hold hended with hclosed | hreserved
      · exact .inl (hstate.of_halfClosedRemote hclosed)
      · rw [hreserved] at hstate
        generalize (s'.stream slot).state = state at hstate ⊢
        cases hstate with
        | refl => exact .inr rfl
        | answered => exact .inl rfl
    · exact ((h'.reserved slot (Nat.le_of_not_lt hold) hslot).state).symm
  case even =>
    intro slot hslot hid
    by_cases hold : slot < s.count
    · have hcore := h'.stream slot hold
      have hid' : (s'.stream slot).streamId = (s.stream slot).streamId := congrArg StreamCore.streamId hcore
      exact (congrArg StreamCore.endStream hcore).trans (h.even slot hold (hid' ▸ hid))
    · exact (h'.reserved slot (Nat.le_of_not_lt hold) hslot).endStream
  case odd =>
    rw [hcontinuation]
    exact h.odd
  case refused =>
    rw [hcontinuation, hrefused]
    exact h.refused

theorem Attends.settles (h : s.Attends) : Settles s.nextAddress s.count s where
  messages a ha := .inl (h.fresh a ha)
  streams _ hge hlt := absurd hlt (Nat.not_lt.mpr hge)
  fresh := h.fresh

/-! ## All the messages but one -/

/-- The messages of a session but the one of the stream in a slot. -/
structure Around (slot : Nat) (s : Http2Connection) : Prop where
  lt : slot < s.count
  follows : ∀ i, i < s.count → i ≠ slot → Follows False (s.stream i).core (s.callsAt i)
  heard : ∀ a, a ≠ (s.stream slot).request.address → Heard a (callsOf a s.history)
  fresh : ∀ a, s.nextAddress ≤ a → callsOf a s.history = []
  closed : ∀ i, i < s.count → i ≠ slot → (s.stream i).endStream = true →
    (s.stream i).state = .halfClosedRemote ∨ (s.stream i).state = .reservedLocal
  even : ∀ i, i < s.count → i ≠ slot → (s.stream i).streamId % 2 = 0 → (s.stream i).endStream = true
  known : ∀ i, i < s.count → (s.stream i).request.address < s.nextAddress
  distinct : ∀ i, i < s.count → i ≠ slot → (s.stream i).request.address ≠ (s.stream slot).request.address

namespace Around

/-- The streams of a session that waits for no block but one. -/
theorem of_attends (h : s.Attends) (hnumbered : s.outline.Numbered) (hslot : slot < s.count)
    (hwaits : ∀ i, i < s.count → i ≠ slot → ¬ s.Assembles i) : Around slot s where
  lt := hslot
  follows i hi hne := (h.follows i hi).congr ⟨fun hw => (hwaits i hi hne hw).elim, False.elim⟩
  heard a _ := h.heard a
  fresh := h.fresh
  closed i hi _ := h.closed i hi
  even i hi _ := h.even i hi
  known _ := hnumbered.address_lt
  distinct _ hi hne heq := hne (hnumbered.slot_of_address hi hslot heq)

/-- What the messages are told by stays the same. -/
theorem alike (h : Around slot s) (hcount : s'.count = s.count)
    (hstream : ∀ i, i < s.count → i ≠ slot → (s'.stream i).core = (s.stream i).core ∧
      (s'.stream i).state = (s.stream i).state)
    (haddress : (s'.stream slot).request.address = (s.stream slot).request.address)
    (hnext : s'.nextAddress = s.nextAddress) (hcalls : ∀ a, callsOf a s'.history = callsOf a s.history) :
    Around slot s' := by
  have hrequest : ∀ i, i < s.count → (s'.stream i).request.address = (s.stream i).request.address := by
    intro i hi
    by_cases heq : i = slot
    · rw [heq, haddress]
    · exact congrArg (fun core : StreamCore => core.request.address) (hstream i hi heq).1
  constructor
  case lt => exact hcount ▸ h.lt
  case follows =>
    intro i hi hne
    rw [hcount] at hi
    rw [callsAt, hrequest i hi, hcalls, (hstream i hi hne).1]
    exact h.follows i hi hne
  case heard =>
    intro a ha
    rw [hcalls]
    exact h.heard a (haddress ▸ ha)
  case fresh =>
    intro a ha
    rw [hcalls]
    exact h.fresh a (hnext ▸ ha)
  case closed =>
    intro i hi hne hend
    rw [hcount] at hi
    rw [(hstream i hi hne).2]
    exact h.closed i hi hne ((congrArg StreamCore.endStream (hstream i hi hne).1).symm.trans hend)
  case even =>
    intro i hi hne hid
    rw [hcount] at hi
    have hcore := (hstream i hi hne).1
    have hsame : (s'.stream i).streamId = (s.stream i).streamId := congrArg StreamCore.streamId hcore
    exact (congrArg StreamCore.endStream hcore).trans (h.even i hi hne (hsame ▸ hid))
  case known =>
    intro i hi
    rw [hcount] at hi
    rw [hrequest i hi, hnext]
    exact h.known i hi
  case distinct =>
    intro i hi hne
    rw [hcount] at hi
    rw [hrequest i hi, haddress]
    exact h.distinct i hi hne

theorem settles (h : Around slot s) : Settles s.nextAddress s.count s where
  messages a ha := .inl (h.fresh a ha)
  streams _ hge hlt := absurd hlt (Nat.not_lt.mpr hge)
  fresh := h.fresh

/-- The message of the slot is handled. -/
theorem handles (h : Around slot s) (h' : Handles s.nextAddress slot s s' core calls) : Around slot s' := by
  obtain ⟨events, hevents, hhistory⟩ := h'.history
  have hmine : (s'.stream slot).request.address = (s.stream slot).request.address :=
    (congrArg HttpRequest.address h'.request_eq).trans h'.address
  have hrequest : ∀ i, i < s.count → (s'.stream i).request.address = (s.stream i).request.address := by
    intro i hi
    by_cases heq : i = slot
    · rw [heq, hmine]
    · exact congrArg (fun core : StreamCore => core.request.address) (h'.others i hi heq)
  have hcalls : ∀ a, a < s.nextAddress → a ≠ (s.stream slot).request.address →
      callsOf a s'.history = callsOf a s.history := by
    intro a ha hne
    have hforeign : callsOf a events = [] := by
      apply callsOf_foreign
      intro event hmem
      rcases hhistory event hmem with hserves | ⟨callback, rfl, haddress⟩
      · exact hserves.foreign ha
      · exact fun heq => hne (Option.some.inj (heq.symm.trans haddress))
    rw [hevents, callsOf_append, hforeign, List.append_nil]
  constructor
  case lt => exact Nat.lt_of_lt_of_le h.lt h'.count
  case follows =>
    intro i hi hne
    by_cases hold : i < s.count
    · rw [callsAt, hrequest i hold, hcalls _ (h.known i hold) (h.distinct i hold hne), h'.others i hold hne]
      exact h.follows i hold hne
    · have hge : s.count ≤ i := Nat.le_of_not_lt hold
      obtain ⟨-, hend, hcomplete, -⟩ := h'.reserved i hge hi
      exact .promised (fun hw => hw) hcomplete hend (h'.settles.streams i hge hi).2
  case heard =>
    intro a ha
    rw [hmine] at ha
    by_cases hlt : a < s.nextAddress
    · rw [hcalls a hlt ha]
      exact h.heard a ha
    · rcases h'.settles.messages a (Nat.le_of_not_lt hlt) with hnone | hpromised
      · exact .inl hnone
      · exact .inr (.inl hpromised)
  case fresh => exact h'.settles.fresh
  case closed =>
    intro i hi hne hend
    by_cases hold : i < s.count
    · have hended : (s.stream i).endStream = true :=
        (congrArg StreamCore.endStream (h'.others i hold hne)).symm.trans hend
      have hstate := (h'.state i hold).resolve_right fun hr => hne hr.1
      rcases h.closed i hold hne hended with hclosed | hreserved
      · exact .inl (hstate.of_halfClosedRemote hclosed)
      · rw [hreserved] at hstate
        generalize (s'.stream i).state = state at hstate ⊢
        cases hstate with
        | refl => exact .inr rfl
        | answered => exact .inl rfl
    · exact ((h'.reserved i (Nat.le_of_not_lt hold) hi).state).symm
  case even =>
    intro i hi hne hid
    by_cases hold : i < s.count
    · have hcore := h'.others i hold hne
      have hsame : (s'.stream i).streamId = (s.stream i).streamId := congrArg StreamCore.streamId hcore
      exact (congrArg StreamCore.endStream hcore).trans (h.even i hold hne (hsame ▸ hid))
    · exact (h'.reserved i (Nat.le_of_not_lt hold) hi).endStream
  case known =>
    intro i hi
    by_cases hold : i < s.count
    · rw [hrequest i hold]
      exact Nat.lt_of_lt_of_le (h.known i hold) h'.nextAddress
    · by_contra hnot
      obtain ⟨-, path, hpromised⟩ := h'.settles.streams i (Nat.le_of_not_lt hold) hi
      rw [h'.settles.fresh _ (Nat.le_of_not_lt hnot)] at hpromised
      cases hpromised
  case distinct =>
    intro i hi hne
    rw [hmine]
    by_cases hold : i < s.count
    · rw [hrequest i hold]
      exact h.distinct i hold hne
    · have hge := (h'.settles.streams i (Nat.le_of_not_lt hold) hi).1
      have hknown := h.known slot h.lt
      omega

/-- The session attends to all of the messages again. -/
theorem attends (h : Around slot s) (hfollows : Follows (s.Assembles slot) (s.stream slot).core (s.callsAt slot))
    (hclosed : (s.stream slot).endStream = true →
      (s.stream slot).state = .halfClosedRemote ∨ (s.stream slot).state = .reservedLocal)
    (hid : (s.stream slot).streamId % 2 = 1)
    (hwaits : ∀ i, i < s.count → i ≠ slot → ¬ s.Assembles i) (hodd : s.continuation ≠ 0 → s.continuation % 2 = 1)
    (hrefused : s.continuation = 0 → s.refused = 0) : s.Attends where
  follows i hi := by
    by_cases heq : i = slot
    · subst heq
      exact hfollows
    · exact (h.follows i hi heq).congr ⟨False.elim, hwaits i hi heq⟩
  heard a := by
    by_cases heq : a = (s.stream slot).request.address
    · subst heq
      exact hfollows.heard
    · exact h.heard a heq
  fresh := h.fresh
  closed i hi := by
    by_cases heq : i = slot
    · subst heq
      exact hclosed
    · exact h.closed i hi heq
  even i hi := by
    by_cases heq : i = slot
    · subst heq
      intro heven
      omega
    · exact h.even i hi heq
  odd := hodd
  refused := hrefused

end Around

/-- The calls made for a message that is handled follow the ones made before. -/
theorem Handles.callsAt {n : Nat} (h : Handles n slot s s' core calls) : s'.callsAt slot = s.callsAt slot ++ calls := by
  have hmine : (s'.stream slot).request.address = (s.stream slot).request.address :=
    (congrArg HttpRequest.address h.request_eq).trans h.address
  rw [Http2Connection.callsAt, hmine, h.calls]

/-- A message that has not ended may be left as it is. -/
theorem Around.broken (h : Around slot s) (hopen : ∀ a, .messageComplete a ∉ s.callsAt slot) : s.Broken where
  heard a := by
    by_cases heq : a = (s.stream slot).request.address
    · subst heq
      exact .inr (hopen _)
    · exact .inl (h.heard a heq)
  fresh := h.fresh

/-- What has not ended the message of the slot leaves every message heard. -/
theorem Around.interrupted (h : Around slot s) (h' : Handles s.nextAddress slot s s' core calls)
    (hunended : Unended calls) (hopen : ∀ a, .messageComplete a ∉ s.callsAt slot) : s'.Broken := by
  refine (h.handles h').broken fun a hmem => ?_
  rw [h'.callsAt, List.mem_append] at hmem
  rcases hmem with hold | hnew
  · exact hopen a hold
  · exact (hunended _ hnew a).2 rfl

/-- A session that waits for no block attends to all of the messages again. -/
theorem Around.idle (h : Around slot s) (hfollows : Follows False (s.stream slot).core (s.callsAt slot))
    (hclosed : (s.stream slot).endStream = true →
      (s.stream slot).state = .halfClosedRemote ∨ (s.stream slot).state = .reservedLocal)
    (hid : (s.stream slot).streamId % 2 = 1) (hidle : s.continuation = 0) (hrefused : s.refused = 0) : s.Attends := by
  have hnone : ∀ i, ¬ s.Assembles i := fun i hwaits => hwaits.1 hidle
  exact h.attends (hfollows.congr ⟨False.elim, hnone slot⟩) hclosed hid (fun i _ _ => hnone i)
    (fun hne => absurd hidle hne) fun _ => hrefused

theorem Attends.broken (h : s.Attends) : s.Broken := ⟨fun a => .inl (h.heard a), h.fresh⟩

/-! ## Blocks -/

theorem opening_fresh (address streamId : Nat) : Intake.Opening [] (.fresh address streamId) where
  regular := rfl
  trailers := rfl
  flushed := rfl
  mask := rfl
  names := by simp

theorem finish_fresh {address streamId : Nat} {fields : List HpackHeader} :
    ((Intake.fresh address streamId).finish fields).1 = true ↔ Admissible fields := by
  constructor
  · intro hfinish
    by_contra hnot
    rw [(opening_fresh address streamId).finish_refused List.nodup_nil hnot] at hfinish
    cases hfinish
  · intro hall
    rw [(opening_fresh address streamId).finish hall]

theorem Intake.OnlyOpens.unended {i : Intake} (h : i.OnlyOpens) : Unended i.calls := by
  intro callback hmem a
  have hopens := h callback hmem
  constructor <;>
    · rintro rfl
      exact hopens

/-- The state of a stream that the peer has closed, once its message has been handled. -/
theorem Handles.closed {n : Nat} (h : Handles n slot s s' core calls)
    (hclosed : (s.stream slot).endStream = true →
      (s.stream slot).state = .halfClosedRemote ∨ (s.stream slot).state = .reservedLocal)
    (hend : (s'.stream slot).endStream = true) :
    (s'.stream slot).state = .halfClosedRemote ∨ (s'.stream slot).state = .reservedLocal := by
  have hcore : core.endStream = true := (congrArg StreamCore.endStream h.mine).symm.trans hend
  rcases h.ended hcore with hended | hstate
  · rcases h.state slot h.slot_lt with hserved | ⟨-, hstate⟩
    · rcases hclosed hended with hold | hold
      · exact .inl (hserved.of_halfClosedRemote hold)
      · rw [hold] at hserved
        generalize (s'.stream slot).state = state at hserved ⊢
        cases hserved with
        | refl => exact .inr rfl
        | answered => exact .inl rfl
    · exact .inl hstate
  · exact .inl hstate

/-- What the first block of a message makes of it. -/
theorem follows_of_headers {fields : List HpackHeader} (hintake : core.intake = .fresh core.request.address core.request.streamId)
    (hreceived : core.received = 0) (haccepted : (core.intake.finish fields).1 = true)
    (haddress : (core.intake.finish fields).2.request.address = core.request.address) :
    Follows False { core.taking (core.intake.finish fields).2 with headersComplete := true }
      ((core.intake.finish fields).2.calls ++ (core.taking (core.intake.finish fields).2).leaveCalls) := by
  have hincomplete : core.headersComplete = false := congrArg (fun i : Intake => i.block.trailers) hintake
  rw [hintake, finish_fresh] at haccepted
  have hfinish := (opening_fresh core.request.address core.request.streamId).finish haccepted
  rw [hintake, hfinish] at haddress ⊢
  simp only at haddress ⊢
  have hleave : (core.taking ((Intake.fresh core.request.address core.request.streamId).accepted fields)).leaveCalls =
      [.headersComplete core.request.address] ++
        if core.endStream then [.messageComplete core.request.address] else [] := by
    simp [StreamCore.leaveCalls, StreamCore.taking, hincomplete, haddress]
  rw [hleave]
  by_cases hend : core.endStream = true
  · refine .ended ⟨fields, [], some .headers⟩ core.request.streamId ⟨?_, by simp, ?_⟩ (by simp) (fun hw => hw) rfl hend ?_
    · exact haccepted
    · exact rfl
    · simp [Transcript.calls, Transcript.head, Ending.calls, StreamCore.taking, haddress, hend]
  · refine .receiving ⟨fields, [], none⟩ core.request.streamId ⟨haccepted, by simp, trivial⟩ rfl rfl ?_ ?_ ?_ ?_ ?_
    · simp [StreamCore.taking, hend]
    · simp [Transcript.head, StreamCore.taking, haddress]
    · simp [Transcript.head, StreamCore.taking, haddress]
    · exact hreceived
    · simp [Transcript.calls, Transcript.head, Ending.calls, StreamCore.taking, haddress, hend]

/-- What a trailer section makes of a message. -/
theorem follows_of_trailers {t : Transcript} {streamId : Nat} {fields : List HpackHeader}
    (hsound : t.Sound core.request.address streamId) (hending : t.ending = none) (hcomplete : core.headersComplete = true)
    (hend : core.endStream = true) (haccepted : (core.intake.finish fields).1 = true)
    (haddress : (core.intake.finish fields).2.request.address = core.request.address) :
    Follows False { core.taking (core.intake.finish fields).2 with headersComplete := true }
      (t.calls core.request.address streamId ++ ((core.intake.finish fields).2.calls ++
        (core.taking (core.intake.finish fields).2).leaveCalls)) := by
  have hblock : core.intake.block = { trailers := true } := by simp [StreamCore.intake, hcomplete]
  obtain ⟨hform, hcalls⟩ := Intake.finish_of_trailers hblock haccepted
  have hintake : core.intake.calls = [] ∧ core.intake.request = core.request := by
    simp [StreamCore.intake, hcomplete]
  have hleave : (core.taking (core.intake.finish fields).2).leaveCalls = [.messageComplete core.request.address] := by
    simp [StreamCore.leaveCalls, StreamCore.taking, hcomplete, hend, haddress]
  rw [hcalls, hleave, hintake.1, hintake.2, List.nil_append]
  refine .ended { t with ending := some (.trailers fields) } streamId ?_ (by simp) (fun hw => hw) rfl hend ?_
  · simp only [StreamCore.taking, haddress]
    exact ⟨hsound.admissible, hsound.parts, hform⟩
  · simp [Transcript.calls, Transcript.head, Ending.calls, StreamCore.taking, haddress, hending]

/-- The block of a message leaves it with a transcript, or fails before the message ends. -/
theorem Around.block (h : Around slot s) (service : Service) (data : Bytes)
    (hfollows : Follows True (s.stream slot).core (s.callsAt slot)) :
    wp (blockHttp2 service slot data)
      (fun _ s' => ∃ core calls, Handles s.nextAddress slot s s' core calls ∧
        core.streamId = (s.stream slot).streamId ∧ Follows False core (s.callsAt slot ++ calls))
      (fun _ s' => ∃ core calls, Handles s.nextAddress slot s s' core calls ∧ Unended calls) s := by
  rcases hread : (decodeRepresentations Viriatum.record id data.length 0 false data).run (s.decoder, []) with
    ⟨result, table, fields⟩
  refine (wp_blockHttp2 h.lt (Nat.le_refl _) (h.known slot h.lt) h.settles hread).mono ?_ ?_
  · rintro - s' ⟨-, haccepted, hhandles⟩
    refine ⟨_, _, hhandles, rfl, ?_⟩
    have haddress := hhandles.address
    cases hfollows with
    | awaiting _ hintake hreceived hcalls =>
        rw [hcalls, List.nil_append]
        exact follows_of_headers hintake hreceived haccepted haddress
    | promised hnot => exact absurd trivial hnot
    | receiving t streamId hsound hending hcomplete hend _ _ _ hcalls =>
        rw [hcalls]
        exact follows_of_trailers hsound hending hcomplete (hend.mpr trivial) haccepted haddress
    | ended _ _ _ _ hnot => exact absurd trivial hnot
  · rintro e s' ⟨-, hhandles⟩
    refine ⟨_, _, hhandles, Intake.OnlyOpens.unended (Intake.OnlyOpens.headers ?_ fields)⟩
    intro callback hmem
    simp only [StreamCore.intake] at hmem
    split at hmem
    · cases hmem
    · rw [List.mem_singleton.mp hmem]
      trivial

/-! ## Payload -/

/-- What a frame of payload makes of a message. -/
theorem follows_of_data {t : Transcript} {streamId : Nat} {payload : Bytes} {last : Bool}
    (hsound : t.Sound core.request.address streamId) (hending : t.ending = none) (hcomplete : core.headersComplete = true)
    (hend : core.endStream = false) (hlength : core.contentLength = (t.head core.request.address streamId).contentLength)
    (hannounced : core.announced = (t.head core.request.address streamId).announced) (hreceived : core.received = t.total)
    (hagrees : last = true → core.announced = true → core.received + payload.length = core.contentLength) :
    Follows False (core.fed payload.length last) (t.calls core.request.address streamId ++
      (core.fedCalls payload ++ if last then [.messageComplete core.request.address] else [])) := by
  have hbody : core.fedCalls payload = (if payload = [] then [] else [payload]).map (.body core.request.address) := by
    unfold StreamCore.fedCalls
    split <;> rfl
  have hparts : ∀ part ∈ t.parts ++ (if payload = [] then [] else [payload]), part ≠ [] := by
    rw [List.forall_mem_append]
    refine ⟨hsound.parts, ?_⟩
    split
    case isTrue => simp
    case isFalse hne => simpa using hne
  have htotal : ∀ ending, (⟨t.fields, t.parts ++ (if payload = [] then [] else [payload]), ending⟩ : Transcript).total =
      core.received + payload.length := by
    intro ending
    rw [hreceived]
    unfold Transcript.total
    split
    case isTrue hnil => simp [hnil]
    case isFalse => simp
  rw [hbody]
  cases last with
  | true =>
      refine .ended ⟨t.fields, t.parts ++ (if payload = [] then [] else [payload]), some .data⟩ streamId
        ⟨hsound.admissible, hparts, ?_⟩ (by simp) (fun hw => hw) hcomplete (by simp [StreamCore.fed]) ?_
      · intro hann
        rw [htotal]
        exact (hagrees rfl (hannounced.trans hann)).trans hlength
      · simp [Transcript.calls, Transcript.head, Ending.calls, hending, StreamCore.fed]
  | false =>
      refine .receiving ⟨t.fields, t.parts ++ (if payload = [] then [] else [payload]), none⟩ streamId
        ⟨hsound.admissible, hparts, trivial⟩ rfl hcomplete ?_ hlength hannounced ?_ ?_
      · simp [StreamCore.fed, hend]
      · exact (htotal none).symm
      · simp [Transcript.calls, Transcript.head, Ending.calls, hending, StreamCore.fed]

/-- A frame of payload goes on with the transcript of its message, or fails before the message ends. -/
theorem Around.data (h : Around slot s) (service : Service) (frame : Http2Frame)
    (hfollows : Follows False (s.stream slot).core (s.callsAt slot)) (hend : (s.stream slot).endStream = false) :
    wp (handleData service frame slot)
      (fun _ s' => ∃ core calls, Handles s.nextAddress slot s s' core calls ∧
        core.streamId = (s.stream slot).streamId ∧ Follows False core (s.callsAt slot ++ calls))
      (fun _ s' => ∃ core calls, Handles s.nextAddress slot s s' core calls ∧ Unended calls) s := by
  obtain ⟨t, streamId, hsound, hending, hcomplete, hlength, hannounced, hreceived, hcalls⟩ :=
    hfollows.receiving_of_open (fun hw => hw) hend
  refine (wp_handleData frame h.lt (Nat.le_refl _) (h.known slot h.lt) h.settles).mono ?_ fun _ _ h => h
  rintro - s' ⟨payload, -, hhandles, hagrees⟩
  refine ⟨_, _, hhandles, rfl, ?_⟩
  rw [hcalls]
  exact follows_of_data hsound hending hcomplete hend hlength hannounced hreceived hagrees

end Http2Connection

end Viriatum
