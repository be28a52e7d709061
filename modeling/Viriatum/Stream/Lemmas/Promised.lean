import Viriatum.Stream.Intake

/-!
# The messages that are promised

A promise is told to its handler in full as it is made, within the call that makes it.
-/

namespace Viriatum

open Library

/-! ## The calls of a message -/

/-- An event that is no call for the message. -/
def Event.Foreign (address : Nat) : Event → Prop
  | .called callback => callback.address ≠ some address
  | _ => True

theorem callsOf_append (address : Nat) (later earlier : List Event) :
    callsOf address (later ++ earlier) = callsOf address earlier ++ callsOf address later := by
  simp [callsOf]

theorem callsOf_foreign {address : Nat} {events : List Event} (h : ∀ event ∈ events, event.Foreign address) :
    callsOf address events = [] := by
  rw [callsOf, List.filterMap_eq_nil_iff]
  intro event hmem
  have hforeign := h event (List.mem_reverse.mp hmem)
  cases event with
  | called callback =>
      have hne : callback.address ≠ some address := hforeign
      cases callback <;> first | rfl | exact if_neg hne
  | _ => rfl

theorem Event.Serves.foreign {n address : Nat} {event : Event} (h : event.Serves n) (ha : address < n) :
    event.Foreign address := by
  cases event with
  | called callback =>
      intro hcallback
      have hle : n ≤ address := h address hcallback
      omega
  | _ => trivial

/-- A call that is one of the message itself, not of the handler being set on it. -/
def Callback.Concerns (address : Nat) (callback : Callback) : Prop :=
  callback.address = some address ∧ callback ≠ .set address ∧ callback ≠ .unset address

theorem callsOf_called {address : Nat} {callback : Callback} (h : callback.Concerns address) (history : List Event) :
    callsOf address (.called callback :: history) = callsOf address history ++ [callback] := by
  obtain ⟨haddress, hset, hunset⟩ := h
  rw [← List.singleton_append, callsOf_append]
  congr 1
  cases callback with
  | set a =>
      cases haddress
      exact absurd rfl hset
  | unset a =>
      cases haddress
      exact absurd rfl hunset
  | written tag => cases haddress
  | _ => simp only [callsOf, List.reverse_singleton, List.filterMap_cons, haddress, if_true, List.filterMap_nil]

theorem callsOf_set (address a : Nat) (history : List Event) :
    callsOf address (.called (.set a) :: history) = callsOf address history := by
  rw [← List.singleton_append, callsOf_append]
  exact List.append_nil _

/-- A call for another message. -/
theorem callsOf_other {a : Nat} {callback : Callback} (h : callback.address ≠ some a) (history : List Event) :
    callsOf a (.called callback :: history) = callsOf a history := by
  have hnone : callsOf a [.called callback] = [] := by
    apply callsOf_foreign
    intro event hmem
    rw [List.mem_singleton.mp hmem]
    exact h
  rw [← List.singleton_append, callsOf_append, hnone, List.append_nil]

/-! ## Promises -/

/-- The calls that tell a promised message. -/
def promisedCalls (address : Nat) (path : Bytes) : List Callback :=
  [.messageBegin address, .url address path, .headersComplete address, .messageComplete address]

namespace Http2Connection

variable {n k slot : Nat} {s s' : Http2Connection}

/-- The message with an address has been promised. -/
def Promised (s : Http2Connection) (address : Nat) : Prop :=
  ∃ path, callsOf address s.history = promisedCalls address path

/-- From an address on only promises have been made, which hold the slots from one on. -/
structure Settles (n k : Nat) (s : Http2Connection) : Prop where
  messages : ∀ a, n ≤ a → callsOf a s.history = [] ∨ s.Promised a
  streams : ∀ slot, k ≤ slot → slot < s.count →
    n ≤ (s.stream slot).request.address ∧ s.Promised (s.stream slot).request.address
  fresh : ∀ a, s.nextAddress ≤ a → callsOf a s.history = []

/-- What handlers write keeps the calls. -/
theorem callsOf_served (h : Served n s s') {address : Nat} (ha : address < n) :
    callsOf address s'.history = callsOf address s.history := by
  obtain ⟨events, hevents, hserves⟩ := h.history
  rw [hevents, callsOf_append, callsOf_foreign fun event hmem => (hserves event hmem).foreign ha, List.append_nil]

/-- What promises nothing adds no stream. -/
theorem count_quiet (h : ∀ m, Served m s s') : s'.count = s.count := by
  have hle := (h 0).count
  by_contra hne
  have hlt : s.count < s'.count := by omega
  have haddress := ((h ((s'.stream s.count).request.address + 1)).reserved s.count (Nat.le_refl _) hlt).address
  omega

theorem Settles.quiet (h : Settles n k s) (h' : ∀ m, Served m s s') : Settles n k s' := by
  have hcalls : ∀ a, callsOf a s'.history = callsOf a s.history := fun a => callsOf_served (h' (a + 1)) (Nat.lt_succ_self a)
  constructor
  case messages =>
    intro a ha
    simpa only [Promised, hcalls] using h.messages a ha
  case streams =>
    intro slot hge hlt
    rw [count_quiet h'] at hlt
    rw [address_of_served (h' 0) hlt]
    simpa only [Promised, hcalls] using h.streams slot hge hlt
  case fresh =>
    intro a ha
    rw [hcalls]
    exact h.fresh a (Nat.le_trans (h' 0).nextAddress ha)

section Calls

variable {calls : Callback → Http2Connection → Http2Connection}

/-- What the calls within a call do once they are recorded. -/
structure CallsSettle (calls : Callback → Http2Connection → Http2Connection) : Prop where
  acts : ∀ n callback s, n ≤ s.nextAddress → Served n (s.record (.called callback)) (calls callback s)
  settles : ∀ n k callback s, n ≤ s.nextAddress → Settles n k (s.record (.called callback)) →
    Settles n k (calls callback s)

/-- The telling of a promised message has come to some calls. -/
structure Tells (address slot : Nat) (path : Bytes) (told : List Callback) (s : Http2Connection) : Prop where
  settles : Settles (address + 1) (slot + 1) s
  calls : callsOf address s.history = told
  nextAddress : address + 1 ≤ s.nextAddress
  lt : slot < s.count
  address : (s.stream slot).request.address = address
  path : (s.stream slot).request.path = path

variable {address : Nat} {path : Bytes} {told : List Callback}

theorem Tells.served (h : Tells address slot path told s) (h' : Served (address + 1) s s')
    (hsettles : Settles (address + 1) (slot + 1) s') : Tells address slot path told s' where
  settles := hsettles
  calls := (callsOf_served h' (Nat.lt_succ_self _)).trans h.calls
  nextAddress := Nat.le_trans h.nextAddress h'.nextAddress
  lt := Nat.lt_of_lt_of_le h.lt h'.count
  address := (congrArg HttpRequest.address (address_of_served h' h.lt)).trans h.address
  path := (congrArg HttpRequest.path (address_of_served h' h.lt)).trans h.path

/-- The calls for a message below the bound leave the promises alone. -/
theorem Settles.record (h : Settles n k s) {callback : Callback} (hcallback : ∀ a, callback.address = some a → a < n)
    (hn : n ≤ s.nextAddress) : Settles n k (s.record (.called callback)) := by
  have hother : ∀ a, n ≤ a → callsOf a (.called callback :: s.history) = callsOf a s.history := fun a ha =>
    callsOf_other (fun heq => absurd (hcallback a heq) (Nat.not_lt.mpr ha)) s.history
  constructor
  case messages =>
    intro a ha
    simpa only [Promised, Http2Connection.record, hother a ha] using h.messages a ha
  case streams =>
    intro slot hge hlt
    obtain ⟨haddress, path, hpromised⟩ := h.streams slot hge hlt
    exact ⟨haddress, path, (hother _ haddress).trans hpromised⟩
  case fresh =>
    intro a ha
    exact (hother a (Nat.le_trans hn ha)).trans (h.fresh a ha)

theorem Tells.call (hcalls : CallsSettle calls) (h : Tells address slot path told s) (callback : Callback)
    (hcallback : callback.Concerns address) : Tells address slot path (told ++ [callback]) (calls callback s) := by
  have hbelow : ∀ a, callback.address = some a → a < address + 1 := by
    intro a ha
    have heq := Option.some.inj (hcallback.1.symm.trans ha)
    omega
  have hrecord : Tells address slot path (told ++ [callback]) (s.record (.called callback)) :=
    ⟨h.settles.record hbelow h.nextAddress, (callsOf_called hcallback s.history).trans (by rw [h.calls]),
      h.nextAddress, h.lt, h.address, h.path⟩
  exact hrecord.served (hcalls.acts _ callback s h.nextAddress)
    (hcalls.settles _ _ callback s h.nextAddress hrecord.settles)

/-- The four calls of a promise tell it in full. -/
theorem callPromised_tells (hcalls : CallsSettle calls) (h : Tells address slot path [] s) :
    Tells address slot path (promisedCalls address path) (callPromised calls slot s) := by
  have hbegin := h.call hcalls (.messageBegin address) ⟨rfl, by simp, by simp⟩
  have hurl := hbegin.call hcalls (.url address path) ⟨rfl, by simp, by simp⟩
  have hhead := hurl.call hcalls (.headersComplete address) ⟨rfl, by simp, by simp⟩
  have hend := hhead.call hcalls (.messageComplete address) ⟨rfl, by simp, by simp⟩
  unfold callPromised
  simp only [h.address, h.path]
  generalize calls (.messageComplete address) _ = t at hend ⊢
  have hmodify : ∀ m, Served m t (t.modifyStream slot fun stream => { stream with handler := t.handler }) := fun m =>
    .modify rfl (.refl _)
  exact hend.served (hmodify _) (hend.settles.quiet hmodify)

theorem CallsSettle.serve (hcalls : CallsSettle calls) (n : Nat) : CallsServe n calls := by
  intro callback s hcallback hn
  have hrecord : Served n s (s.record (.called callback)) := Served.record hcallback
  exact hrecord.trans (hcalls.acts n callback s hn)

/-- A reservation is to be told. -/
theorem reserveStream_tells (slot streamId : Nat) (path : Bytes) (h : Settles n k s) :
    Tells s.nextAddress s.count (appendPath [] path) [] (setHandler s.count (reserveStream slot streamId path s)) := by
  have hlt : s.count < (reserveStream slot streamId path s).count := by simp [reserveStream, count]
  have hset : (setHandler s.count (reserveStream slot streamId path s)).count = s.count + 1 := by
    simp [setHandler, Http2Connection.record, activate, modifyStream, reserveStream, count]
  have hcalls : ∀ a, callsOf a (setHandler s.count (reserveStream slot streamId path s)).history =
      callsOf a s.history := fun a => by
    have hold : callsOf a (reserveStream slot streamId path s).history = callsOf a s.history := by
      simp [reserveStream, callsOf]
    exact (callsOf_set _ _ _).trans hold
  have hstream : ((reserveStream slot streamId path s).stream s.count).request.address = s.nextAddress ∧
      ((reserveStream slot streamId path s).stream s.count).request.path = appendPath [] path := by
    simp [Http2Connection.stream, reserveStream, count]
  have hrequest := address_of_served (setHandler_served (Nat.le_refl _) hlt) hlt
  constructor
  case settles =>
    constructor
    case messages => exact fun a ha => .inl ((hcalls a).trans (h.fresh a (Nat.le_of_succ_le ha)))
    case streams =>
      intro i hge hi
      omega
    case fresh => exact fun a ha => (hcalls a).trans (h.fresh a (Nat.le_of_succ_le ha))
  case calls => exact (hcalls _).trans (h.fresh _ (Nat.le_refl _))
  case nextAddress => exact Nat.le_refl _
  case lt => omega
  case address =>
    rw [hrequest]
    exact hstream.1
  case path =>
    rw [hrequest]
    exact hstream.2

/-- What is settled stays so once a message has been told in full. -/
theorem Tells.settled (h : Tells s.nextAddress s.count path (promisedCalls s.nextAddress path) s') (hs : Settles n k s)
    (hn : n ≤ s.nextAddress) (hserved : Served s.nextAddress s s') : Settles n k s' := by
  have hcalls : ∀ a, a < s.nextAddress → callsOf a s'.history = callsOf a s.history := fun a ha =>
    callsOf_served hserved ha
  constructor
  case messages =>
    intro a ha
    rcases Nat.lt_trichotomy a s.nextAddress with hlt | rfl | hgt
    · simpa only [Promised, hcalls a hlt] using hs.messages a ha
    · exact .inr ⟨path, h.calls⟩
    · exact h.settles.messages a hgt
  case streams =>
    intro slot hge hlt
    rcases Nat.lt_trichotomy slot s.count with hslot | rfl | hslot
    · obtain ⟨haddress, told, hpromised⟩ := hs.streams slot hge hslot
      rw [address_of_served hserved hslot]
      refine ⟨haddress, told, ?_⟩
      have hknown : (s.stream slot).request.address < s.nextAddress := by
        by_contra hnot
        rw [hs.fresh _ (Nat.le_of_not_lt hnot)] at hpromised
        cases hpromised
      rw [hcalls _ hknown, hpromised]
    · rw [h.address]
      exact ⟨hn, path, h.calls⟩
    · obtain ⟨haddress, hpromised⟩ := h.settles.streams slot hslot hlt
      exact ⟨by omega, hpromised⟩
  case fresh =>
    intro a ha
    exact h.settles.fresh a ha

theorem pushStream_settles {path : Bytes} (hcalls : CallsSettle calls) (hn : n ≤ s.nextAddress)
    (h : Settles n k s) : Settles n k (pushStream calls slot path s) := by
  unfold pushStream
  split
  · exact h
  · split
    case isTrue => exact h
    case isFalse hfull =>
      dsimp only
      have hskip : ∀ m, Served m s { s with pushStreamId := (s.pushStreamId + 2) % 2 ^ 32 } := fun m =>
        .of_same rfl rfl rfl ⟨[], rfl, by simp⟩
      split
      · exact h.quiet hskip
      · obtain ⟨ht, hid, encoder, hs⟩ := promiseFrame_spec slot ((s.pushStreamId + 2) % 2 ^ 32) path
          { s with pushStreamId := (s.pushStreamId + 2) % 2 ^ 32 }
        rw [hs]
        generalize hpushed : ({ s with pushStreamId := (s.pushStreamId + 2) % 2 ^ 32, encoder } : Http2Connection) = t
        have hbefore : ∀ m, Served m s t := fun m => hpushed ▸ .of_same rfl rfl rfl ⟨[], rfl, by simp⟩
        generalize (promiseFrame slot ((s.pushStreamId + 2) % 2 ^ 32) path
          { s with pushStreamId := (s.pushStreamId + 2) % 2 ^ 32 }).1 = frame at ht
        have hqueue : ∀ m, Served m t (queueFrames (some (t.stream slot).request.address) [frame] .none t) := by
          intro m
          refine queueFrames_served _ fun f hf => ?_
          rw [List.mem_singleton] at hf
          simp [hf, ht]
        have hroom : (queueFrames (some (t.stream slot).request.address) [frame] .none t).count <
            (queueFrames (some (t.stream slot).request.address) [frame] .none t).remote.maxConcurrentStreams := by
          have hnot := not_or.mp hfull
          rw [← hpushed]
          exact Nat.lt_of_not_le hnot.1
        generalize queueFrames (some (t.stream slot).request.address) [frame] .none t = u at hqueue hroom ⊢
        have hu : Settles n k u := h.quiet fun m => (hbefore m).trans (hqueue m)
        have hn' : n ≤ u.nextAddress := Nat.le_trans hn ((hbefore n).trans (hqueue n)).nextAddress
        have htells := callPromised_tells hcalls
          (reserveStream_tells slot ((s.pushStreamId + 2) % 2 ^ 32) path hu)
        have hreserve : Served u.nextAddress u (reserveStream slot ((s.pushStreamId + 2) % 2 ^ 32) path u) :=
          reserveStream_served _ path (Nat.le_refl _) hroom
        have hlt : u.count < (reserveStream slot ((s.pushStreamId + 2) % 2 ^ 32) path u).count := by
          simp [reserveStream, count]
        generalize reserveStream slot ((s.pushStreamId + 2) % 2 ^ 32) path u = v at hreserve hlt htells ⊢
        have haddress := (hreserve.reserved _ (Nat.le_refl _) hlt).address
        have hset : Served u.nextAddress v (setHandler u.count v) := setHandler_served haddress hlt
        have haddress' : u.nextAddress ≤ ((setHandler u.count v).stream u.count).request.address := by
          rw [address_of_served hset hlt]
          exact haddress
        have hcalled := callPromised_served (hcalls.serve u.nextAddress) haddress' (hreserve.trans hset).nextAddress
        exact (htells.settled hu hn' ((hreserve.trans hset).trans hcalled)).quiet fun m => activate_served

theorem perform_settles (service : Service) (action : HandlerAction) (hcalls : CallsSettle calls)
    (hn : n ≤ s.nextAddress) (h : Settles n k s) : Settles n k (perform calls service action s) := by
  cases action with
  | pushStream streamId path =>
      simp only [perform]
      split
      · exact h
      · exact pushStream_settles hcalls hn h
  | _ => exact h.quiet fun m => perform_quiet service (by simp)

theorem performAll_settles (service : Service) (actions : List HandlerAction) (hcalls : CallsSettle calls)
    (hn : n ≤ s.nextAddress) (h : Settles n k s) : Settles n k (performAll calls service actions s) := by
  induction actions generalizing s with
  | nil => exact h
  | cons action actions ih =>
      have hfirst := perform_settles service action hcalls hn h
      exact ih (Nat.le_trans hn (perform_served service action (hcalls.serve n) hn).nextAddress) hfirst

end Calls

/-! ## Calls -/

theorem callWithin_settle (service : Service) (depth : Nat) : CallsSettle (callWithin service depth) := by
  induction depth with
  | zero => exact ⟨fun _ _ _ _ => .refl _ _, fun _ _ _ _ _ h => h⟩
  | succ depth ih =>
      exact ⟨fun n callback s hn => performAll_served service _ (ih.serve n) hn,
        fun n k callback s hn h => performAll_settles service _ ih hn h⟩

/-- What a handler does once it is called settles the promises it makes. -/
theorem call_settles (service : Service) (callback : Callback) (hn : n ≤ s.nextAddress)
    (h : Settles n k (s.record (.called callback))) : Settles n k (s.call service callback) :=
  performAll_settles service _ (callWithin_settle service _) hn h

end Http2Connection

end Viriatum
