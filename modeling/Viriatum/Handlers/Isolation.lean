import Viriatum.Handlers.Lemmas.Owned
import Viriatum.Handlers.Lemmas.Tends

/-!
# The isolation of the exchanges of the proxy

What an exchange changes or lets go of is its own in every step of a run, unless a backend connection is taken from an
exchange that has not been let go of, or the close of a client takes more with it than what it serves.
-/

namespace Viriatum

open Function (update)

namespace ProxyCallback

/-- The message of the exchange that a write is for. -/
def message : ProxyCallback → Nat
  | .pending message _ => message
  | .cleanup message _ => message

end ProxyCallback

namespace ProxyHandler

variable {s t s' : ProxyHandler} {b c message depth : Nat} {exchange : ProxyExchange} {input : ProxyInput}

/-- Whether a step is one of the exchange of a message: the one that it starts, that what happens is for, or that is
served by the client that is closed. -/
def Subject (s : ProxyHandler) (message : Nat) : ProxyInput → Prop
  | .accept _ _ => False
  | .request _ _ _ _ _ => message = s.nextMessage
  | .callback other _ => message = other
  | .data b _ => s.links.parameters b = some (some message)
  | .written c index _ => ∃ write, s.writeAt c index = some write ∧ write.callback.message = message
  | .unset other => message = other
  | .lost b => s.links.parameters b = some (some message)
  | .close c => ∃ exchange, s.links.exchanges message = some exchange ∧ exchange.connection = c

/-- The exchange of a message is as it was: its context, with what it points at and with the head that it gathers, and
the backend connection that it holds, with the parameters of it. -/
structure Untouched (s s' : ProxyHandler) (message : Nat) : Prop where
  context : s'.contexts message = s.contexts message
  backend : ∀ context b, s.contexts message = some context → context.connectionC = some b → s'.backends b = s.backends b

/-- A step touches no exchange but its own. -/
def Isolated (input : ProxyInput) (s s' : ProxyHandler) : Prop :=
  ∀ message, s.contexts message ≠ none → ¬ Subject s message input → Untouched s s' message

/-- The close of a client takes nothing of an exchange with it: neither its context nor the backend connection it holds. -/
def Outlives (s : ProxyHandler) (c message : Nat) (exchange : ProxyExchange) : Prop :=
  (s.Releasing c → message ∉ s.links.messages c) ∧ ∀ b, s.connectionsMap c = some b → exchange.connectionC ≠ some b

/-- No backend connection is taken from an exchange that is over but has not been let go of, and every exchange outlives
the close of a client but the ones that the close is the end of. -/
def Separate : ProxyInput → ProxyHandler → Prop
  | .request c _ _ _ created, s => (∀ b, created = some b → s.backends b = none) → ¬ s.links.Carries c s.nextMessage false
  | .written c index _, s =>
      ∀ message context, s.Ends c index message false → s.contexts message = some context →
        ∀ other exchange, other ≠ message → s.links.exchanges other = some exchange → s.Outlives context.connection other exchange
  | .close c, s =>
      ∀ other exchange, s.links.exchanges other = some exchange → exchange.connection ≠ c → s.Outlives c other exchange
  | _, _ => True

theorem outlives_congr (hlinks : s'.links = s.links) : s'.Outlives c message exchange ↔ s.Outlives c message exchange := by
  have hmap : s'.connectionsMap = s.connectionsMap := congrArg ProxyLinks.connectionsMap hlinks
  have honCloseMap : s'.onCloseMap = s.onCloseMap := congrArg ProxyLinks.onCloseMap hlinks
  simp only [Outlives, Releasing, hlinks, hmap, honCloseMap]

/-- What the close of a client takes of an exchange is what it was before another exchange was let go of. -/
theorem outlives_release {released : ProxyExchange} {other : Nat} (hlinks : s'.links = s.links.release message released)
    (hne : other ≠ message) : s'.Outlives c other exchange ↔ s.Outlives c other exchange := by
  have hmap : s'.connectionsMap = s.connectionsMap := by
    have hmaps : s'.links.connectionsMap = s.links.connectionsMap := by rw [hlinks]; rfl
    exact hmaps
  have honCloseMap : s'.onCloseMap = s.onCloseMap := by
    have hmaps : s'.links.onCloseMap = s.links.onCloseMap := by rw [hlinks]; rfl
    exact hmaps
  have honClose : s'.links.onClose = s.links.onClose := by rw [hlinks]; rfl
  have hmem : other ∈ s'.links.messages c ↔ other ∈ s.links.messages c := by
    rw [hlinks]
    by_cases hc : c = released.connection
    · simp [ProxyLinks.release, hc, List.mem_erase_of_ne hne]
    · simp [ProxyLinks.release, hc]
  simp only [Outlives, Releasing, honClose, honCloseMap, hmap, hmem]

/-! ## Steps -/

theorem Only.untouched {other : Nat} (h : s.links.Owned) (hexchange : s.links.exchanges message = some exchange)
    (honly : Only message exchange.connectionC s s') (hne : other ≠ message) : Untouched s s' other where
  context := honly.contexts other hne
  backend _ b hcontext hb := honly.backends b fun hheld =>
    hne (h.single (links_exchanges hcontext) hb hexchange hheld)

theorem Untouched.refl : Untouched s s message := ⟨rfl, fun _ _ _ _ => rfl⟩

theorem Untouched.of_same (hcontexts : s'.contexts = s.contexts) (hbackends : s'.backends = s.backends) :
    Untouched s s' message := ⟨by rw [hcontexts], fun _ _ _ _ => by rw [hbackends]⟩

theorem Untouched.trans (h : Untouched s t message) (h' : Untouched t s' message) : Untouched s s' message where
  context := h'.context.trans h.context
  backend context b hcontext hb := (h'.backend context b (h.context.trans hcontext) hb).trans (h.backend context b hcontext hb)

theorem unsetAll_untouched {messages : List Nat} (h : s.links.Owned) (hunset : unsetAll messages s = some s')
    (hmem : message ∉ messages) : Untouched s s' message ∧ s'.links.Owned := by
  induction messages generalizing s with
  | nil =>
      cases hunset
      exact ⟨.refl, h⟩
  | cons first messages ih =>
      obtain ⟨t, hfirst, hrest⟩ := Option.bind_eq_some_iff.mp hunset
      obtain ⟨hne, hmem⟩ := not_or.mp (List.mem_cons.not.mp hmem)
      obtain ⟨exchange, hexchange, honly⟩ := unsetHandler_only hfirst
      obtain ⟨released, hreleases, hlinks⟩ := unsetHandler_links hfirst
      obtain ⟨huntouched, howned⟩ := ih (hlinks ▸ h.release hreleases) hrest hmem
      exact ⟨(honly.untouched h hexchange hne).trans huntouched, howned⟩

/-- A backend connection that is closed takes nothing of an exchange with it that does not hold it. -/
theorem closeBackend_untouched (h : s.links.Owned) (hclosed : s.closeBackend b = some s')
    (hb : ∀ exchange, s.links.exchanges message = some exchange → exchange.connectionC ≠ some b) :
    Untouched s s' message := by
  obtain ⟨hcontexts, hbackends⟩ := closeBackend_frame hclosed
  refine ⟨hcontexts message fun hparameters => ?_, fun context b' hcontext hb' => hbackends b' ?_⟩
  · obtain ⟨exchange, hexchange, hheld⟩ := (h.owned b message).mp hparameters
    exact hb exchange hexchange hheld
  · rintro rfl
    exact hb context.exchange (links_exchanges hcontext) hb'

/-- An exchange that outlives the close of a client is not touched by it. -/
theorem closeConnection_untouched (h : s.links.Owned) (hclosed : s.closeConnection depth c = some s')
    (houtlives : ∀ exchange, s.links.exchanges message = some exchange → s.Outlives c message exchange)
    (hlive : s.contexts message ≠ none) : Untouched s s' message := by
  obtain ⟨context, hcontext⟩ := Option.ne_none_iff_exists'.mp hlive
  obtain ⟨hreleasing, hmap⟩ := houtlives _ (links_exchanges hcontext)
  unfold closeConnection at hclosed
  split at hclosed
  case h_1 =>
    cases hclosed
    exact .refl
  case h_2 client hclient =>
    have honClose := links_onClose hclient
    obtain ⟨v, hcalled, rfl⟩ := Option.map_eq_some_iff.mp hclosed
    suffices hv : Untouched s v message from hv.trans (.of_same rfl rfl)
    split at hcalled
    case h_1 =>
      cases hcalled
      exact .refl
    case h_2 hcalls =>
      obtain ⟨t, hunset, -, hcontexts, hbackends⟩ := closeHandlerStreamHttp_links hcalled
      have hmem := hreleasing (.inl (honClose.trans (congrArg some hcalls)))
      exact (unsetAll_untouched h hunset hmem).1.trans (.of_same hcontexts hbackends)
    case h_3 hcalls =>
      obtain ⟨t, hpropagated, hundone⟩ := closeProxyConnection_cases hcalled
      have ht : Untouched s t message ∧ t.links.Owned := by
        rcases hpropagated with ⟨-, rfl⟩ | ⟨hcallsMap, client', hclient', hreleased⟩
        · exact ⟨.refl, h⟩
        · obtain ⟨u, hunset, hlinks, hcontexts, hbackends⟩ := closeHandlerStreamHttp_links hreleased
          have hset : (s.setClient c (some { client' with onClose := some .closeHandlerStreamHttp })).links =
              s.links.setOnClose c (some .closeHandlerStreamHttp) := links_setClient_onClose hclient'
          rw [hset] at hunset
          have hmem := hreleasing (.inr ⟨honClose.trans (congrArg some hcalls), hcallsMap⟩)
          have howned : (s.links.setOnClose c (some .closeHandlerStreamHttp)).Owned :=
            (ProxyLinks.Owned.withstands c).setOnClose h (by simp [honClose])
          obtain ⟨huntouched, hkept⟩ := unsetAll_untouched (hset ▸ howned) hunset hmem
          have hfirst : Untouched s (s.setClient c (some { client' with
            onClose := some .closeHandlerStreamHttp })) message := .of_same rfl rfl
          exact ⟨hfirst.trans (huntouched.trans (.of_same hcontexts hbackends)), hlinks ▸ hkept⟩
      obtain ⟨ht, howned⟩ := ht
      rcases hundone with ⟨-, -, hcontexts, hbackends⟩ | ⟨b, u, hsome, hlost, -, hcontexts, hbackends⟩
      · exact ht.trans (.of_same hcontexts hbackends)
      · refine ht.trans (.trans (closeBackend_untouched howned hlost fun exchange hexchange => ?_) (.of_same hcontexts hbackends))
        have hsame : t.links.exchanges message = s.links.exchanges message := by simp [links, ht.context]
        obtain rfl : context.exchange = exchange := by simpa [hsame, links_exchanges hcontext] using hexchange
        exact hmap b hsome

/-! ## What is owned in a run -/

theorem owned_start : start.links.Owned where
  fresh _ _ := rfl
  listed _ _ h := by cases h
  nodup _ := List.nodup_nil
  owned b message := by simp [links, start]

theorem closeConnection_owned (h : s.links.Owned) (hclosed : s.closeConnection depth c = some s') : s'.links.Owned :=
  (closeConnection_keeps (ProxyLinks.Owned.withstands c) hclosed h).1

/-- A message that is dispatched takes a backend connection that is free, or a new one. -/
theorem takes_owned (h : s.links.Owned) {created : Option Nat}
    (hfresh : ∀ b, created = some b → s.links.parameters b = none)
    (htakes : (s.links.dispatch c).Takes s.nextMessage c created s'.links)
    (hseparate : ¬ s.links.Carries c s.nextMessage false) : s'.links.Owned := by
  have hdispatch : (s.links.dispatch c).Owned := h.dispatch
  have hexchange : (s.links.dispatch c).exchanges s.nextMessage =
      some { connection := c, connectionC := none, pending := false } := by
    have hnext : s.links.nextMessage = s.nextMessage := rfl
    simp [ProxyLinks.dispatch, hnext]
  have hunused : ∀ b, (s.links.dispatch c).parameters b ≠ some (some s.nextMessage) := by
    intro b hparameters
    obtain ⟨exchange, hfound, hheld⟩ := (hdispatch.owned b _).mp hparameters
    obtain rfl : _ = exchange := by simpa [hexchange] using hfound
    cases hheld
  generalize ho : s'.links = o at htakes
  cases htakes with
  | reused b hmap hopen hfree =>
      refine hdispatch.take hexchange rfl fun other hother => ?_
      rcases hfree with hnone | hown | hcarries
      · simp [hnone] at hother
      · exact hunused b hown
      · exact hseparate (ProxyLinks.carries_dispatch.mp hcarries)
  | created b onClose hcreated hopen hbusy =>
      have hclosed : (s.links.dispatch c).parameters b = none := hfresh b hcreated
      have htaken := hdispatch.take hexchange rfl fun other hother => by rw [hclosed] at hother; cases hother
      apply htaken.frame <;> simp [ProxyLinks.create]
  | failed hcreated hbusy =>
      have hfailed := hdispatch.fail hexchange rfl
      apply hfailed.frame <;> simp [ProxyLinks.fail]

/-- The condition on a request that is not ignored. -/
theorem Separate.request {keepAlive : Bool} {method path : Bytes} {created : Option Nat}
    (h : Separate (.request c keepAlive method path created) s)
    (hfresh : ∀ b, created = some b → s.links.parameters b = none) : ¬ s.links.Carries c s.nextMessage false :=
  h fun b hb => by simpa [links] using hfresh b hb

theorem step_owned (h : s.links.Owned) (hseparate : Separate input s) (hstep : step depth input s = some s') :
    s'.links.Owned := by
  have hsteps : Steps depth s input s' := step_cases hstep
  cases hsteps with
  | same _ hlinks | ignored _ hlinks => exact hlinks ▸ h
  | accepted hclosed hlinks => exact hlinks ▸ ⟨h.toListed.silence, h.owned⟩
  | dispatched hopen hfresh htakes => exact takes_owned h hfresh htakes (hseparate.request hfresh)
  | settled hparameters hexchange hlinks => exact hlinks ▸ h.settle hexchange
  | released hreleases hlinks => exact hlinks ▸ h.release hreleases
  | ended _ hreleases hlinks hclosed =>
      rename_i keepAlive exchange t _
      have ht : t.links.Owned := hlinks ▸ h.release hreleases
      cases keepAlive with
      | true =>
          cases hclosed
          exact ht
      | false => exact closeConnection_owned ht hclosed
  | lost hparameters hexchange hlinks => exact hlinks ▸ h.lose hparameters
  | closed hclosed => exact closeConnection_owned h hclosed

/-! ## Steps that are isolated -/

/-- A request starts an exchange of its own: the backend connection that it takes is touched, and no other one. -/
theorem request_only {client : ProxyClient} {keepAlive : Bool} {method path : Bytes} {created : Option Nat}
    (hclient : s.clients c = some client)
    (h : (s.setHandler c client keepAlive).virtualUrl s.nextMessage method path created = some s') :
    ∃ held, Only s.nextMessage held s s' ∧ ∀ b, held = some b →
      created = some b ∨ s.connectionsMap c = some b ∧
        (s.links.parameters b = some none ∨ s.links.parameters b = some (some s.nextMessage) ∨
          s.links.Carries c s.nextMessage false) := by
  have hset : ∀ held, Only s.nextMessage held s (s.setHandler c client keepAlive) := by
    refine fun held => ⟨fun other hother => ?_, fun _ _ => rfl⟩
    simp [setHandler, setClient, hother]
  have hcontext : (s.setHandler c client keepAlive).contexts s.nextMessage = some {
      connection := c
      connectionC := none
      keepAlive
      buffer := []
      outBuffer := []
      pending := false
      pendingWrite := 0 } := by simp [setHandler]
  unfold virtualUrl at h
  rw [hcontext] at h
  dsimp only at h
  split at h
  · cases h
  · obtain ⟨held, honly, hheld⟩ := takeBackend_only h
    refine ⟨held, (hset held).trans honly, fun b hb => (hheld b hb).imp_right fun hreused => ?_⟩
    rw [setHandler_links hclient] at hreused
    exact ⟨hreused.1, hreused.2.imp_right fun hrest => hrest.imp_right ProxyLinks.carries_dispatch.mp⟩

/-- The end of an exchange that a write completes touches no other one that outlives the close of the client. -/
theorem cleanupHandler_untouched {other : Nat} {keepAlive : Bool} (h : s.links.Owned)
    (hcleanup : s.cleanupHandler depth message keepAlive = some s') (hne : other ≠ message)
    (hlive : s.contexts other ≠ none)
    (houtlives : ∀ context exchange, keepAlive = false → s.contexts message = some context →
      s.links.exchanges other = some exchange → s.Outlives context.connection other exchange) : Untouched s s' other := by
  unfold cleanupHandler at hcleanup
  split at hcleanup
  case h_1 => cases hcleanup
  case h_2 context hcontext =>
    obtain ⟨t, hunset, hrest⟩ := Option.bind_eq_some_iff.mp hcleanup
    obtain ⟨exchange, hexchange, honly⟩ := unsetHandler_only hunset
    obtain ⟨released, hreleases, hlinks⟩ := unsetHandler_links hunset
    have huntouched : Untouched s t other := honly.untouched h hexchange hne
    cases keepAlive with
    | true =>
        cases hrest
        exact huntouched
    | false =>
        refine huntouched.trans (closeConnection_untouched (hlinks ▸ h.release hreleases) hrest (fun exchange' hexchange' => ?_)
          (huntouched.context ▸ hlive))
        have hsame : s.links.exchanges other = some exchange' := by
          rw [hlinks] at hexchange'
          simpa [ProxyLinks.release, hne] using hexchange'
        exact (outlives_release hlinks hne).mpr (houtlives context exchange' rfl hcontext hsame)

theorem completeWrite_untouched {index size other : Nat} (h : s.links.Owned)
    (hseparate : Separate (.written c index size) s) (hsubject : ¬ Subject s other (.written c index size))
    (hwritten : s.completeWrite depth c index size = some s') (hlive : s.contexts other ≠ none) :
    Untouched s s' other := by
  unfold completeWrite at hwritten
  split at hwritten
  case h_1 =>
    cases hwritten
    exact .refl
  case h_2 client hclient =>
    split at hwritten
    case h_1 =>
      cases hwritten
      exact .refl
    case h_2 write hwrite =>
      have hat : s.writeAt c index = some write := by simp [writeAt, hclient, hwrite]
      have hset : (s.setClient c (some { client with writes := client.writes.eraseIdx index })).links = s.links :=
        links_setClient_same hclient rfl rfl
      have hne : other ≠ write.callback.message := fun hsame => hsubject ⟨write, hat, hsame.symm⟩
      have hfirst : Untouched s (s.setClient c (some { client with writes := client.writes.eraseIdx index })) other :=
        .of_same rfl rfl
      dsimp only at hwritten
      split at hwritten
      case h_1 message _ hcallback =>
        split at hwritten
        · cases hwritten
          exact hfirst
        · obtain ⟨exchange, hexchange, honly⟩ := pendingHandler_only hwritten
          rw [hcallback] at hne
          exact hfirst.trans (honly.untouched (hset ▸ h) hexchange hne)
      case h_2 message keepAlive hcallback =>
        split at hwritten
        · cases hwritten
          exact hfirst
        · rw [hcallback] at hne
          refine hfirst.trans (cleanupHandler_untouched (hset ▸ h) hwritten hne hlive
            fun context exchange hkeepAlive hcontext hexchange => ?_)
          subst hkeepAlive
          rw [hset] at hexchange
          exact (outlives_congr hset).mpr (hseparate message context ⟨write, hat, hcallback⟩ hcontext other exchange hne hexchange)

theorem isolated_of_separate (h : s.links.Owned) (hseparate : Separate input s) (hstep : step depth input s = some s') :
    Isolated input s s' := by
  intro message hlive hsubject
  cases input with
  | accept c session =>
      simp only [step] at hstep
      split at hstep <;> cases hstep
      · exact .refl
      · exact .of_same rfl rfl
  | request c keepAlive method path created =>
      simp only [step] at hstep
      split at hstep
      case h_1 =>
        cases hstep
        exact .refl
      case h_2 client hclient =>
        split at hstep
        case isTrue =>
          cases hstep
          exact .refl
        case isFalse hfresh =>
          have hfresh' : ∀ b, created = some b → s.links.parameters b = none := by
            rintro b rfl
            simpa [links] using hfresh
          obtain ⟨held, honly, hheld⟩ := request_only hclient hstep
          refine ⟨honly.contexts message hsubject, fun context b hcontext hb => honly.backends b fun hsame => ?_⟩
          have howned := (h.owned b message).mpr ⟨_, links_exchanges hcontext, hb⟩
          rcases hheld b hsame with hcreated | ⟨-, hnone | hnext | hcarries⟩
          · simp [hfresh' b hcreated] at howned
          · simp [hnone] at howned
          · rw [hnext, Option.some.injEq, Option.some.injEq] at howned
            exact hsubject howned.symm
          · exact hseparate.request hfresh' hcarries
  | callback other callback =>
      simp only [step] at hstep
      split at hstep
      case isTrue =>
        cases hstep
        exact .refl
      case isFalse =>
        obtain ⟨exchange, hexchange, honly⟩ := clientCallback_only hstep
        exact honly.untouched h hexchange hsubject
  | data b callbacks =>
      simp only [step, dataBackendHandler] at hstep
      split at hstep
      case h_1 =>
        cases hstep
        exact .refl
      case h_2 backend hbackend =>
        split at hstep
        case h_1 =>
          cases hstep
          exact .refl
        case h_2 other hsome =>
          have hparameters : s.links.parameters b = some (some other) :=
            (links_parameters hbackend).trans (congrArg some hsome)
          obtain ⟨exchange, hexchange, hb⟩ := (h.owned b other).mp hparameters
          have hne : message ≠ other := by
            rintro rfl
            exact hsubject hparameters
          exact (backendCallbacks_only hstep hexchange rfl).untouched h hexchange hne
  | written c index size => exact completeWrite_untouched h hseparate hsubject hstep hlive
  | unset other =>
      simp only [step] at hstep
      split at hstep
      case isTrue =>
        cases hstep
        exact .refl
      case isFalse =>
        obtain ⟨exchange, hexchange, honly⟩ := unsetHandler_only hstep
        exact honly.untouched h hexchange hsubject
  | lost b =>
      simp only [step] at hstep
      split at hstep
      case isTrue =>
        cases hstep
        exact .refl
      case isFalse =>
        refine closeBackend_untouched h hstep fun exchange hexchange hb => hsubject ?_
        exact (h.owned b message).mpr ⟨exchange, hexchange, hb⟩
  | close c =>
      refine closeConnection_untouched h hstep (fun exchange hexchange => ?_) hlive
      exact hseparate message exchange hexchange fun hc => hsubject ⟨exchange, hexchange, hc⟩

/-! ## Steps that are not -/

/-- The backend connection of a client that is closed is closed with it. -/
theorem closeConnection_closes (hclosed : s.closeConnection depth c = some s') (htends : s.links.Tends c)
    (hmap : s.connectionsMap c = some b) : s'.backends b = none := by
  obtain ⟨client, hclient, hcalls⟩ := Option.map_eq_some_iff.mp (htends b hmap)
  simp only [closeConnection, hclient, hcalls] at hclosed
  obtain ⟨v, hv, rfl⟩ := Option.map_eq_some_iff.mp hclosed
  obtain ⟨t, -, hundone⟩ := closeProxyConnection_cases hv
  rcases hundone with ⟨hnone, -⟩ | ⟨b', u, hsome, hlost, -, -, hbackends⟩
  · simp [hmap] at hnone
  · obtain rfl : b = b' := by simpa [hmap] using hsome
    have hgone : u.backends b = none := by
      unfold closeBackend at hlost
      split at hlost
      case h_1 => cases hlost
      case h_2 =>
        obtain ⟨w, -, rfl⟩ := Option.map_eq_some_iff.mp hlost
        simp [setBackend]
    exact (congrFun hbackends b).trans hgone

/-- An exchange that the close of a client does not touch outlives it. -/
theorem outlives_of_untouched (h : s.links.Owned) (htends : s.links.Tends c) (hclosed : s.closeConnection depth c = some s')
    (hexchange : s.links.exchanges message = some exchange) (huntouched : Untouched s s' message) :
    s.Outlives c message exchange := by
  obtain ⟨context, hcontext, rfl⟩ := Option.map_eq_some_iff.mp hexchange
  refine ⟨fun hreleasing hmem => ?_, fun b hmap hb => ?_⟩
  · obtain ⟨t, u, -, hunset, hgone⟩ := closeConnection_unsets hclosed hreleasing
    have hnone := hgone message (unsetAll_gone hunset hmem)
    simp [links, huntouched.context, hcontext] at hnone
  · have hparameters := (h.owned b message).mpr ⟨_, hexchange, hb⟩
    obtain ⟨backend, hbackend, -⟩ := Option.map_eq_some_iff.mp hparameters
    have hsame := huntouched.backend context b hcontext hb
    simp [closeConnection_closes hclosed htends hmap, hbackend] at hsame

/-- A request takes the backend connection that its client is mapped to where the exchange of it is over. -/
theorem request_takes {keepAlive : Bool} {method path : Bytes} {created : Option Nat} (htends : ∀ c, s.links.Tends c)
    (hfresh : ∀ b, created = some b → s.backends b = none) (hcarries : s.links.Carries c s.nextMessage false)
    (hstep : step depth (.request c keepAlive method path created) s = some s') (b : Nat) (hmap : s.connectionsMap c = some b) :
    s'.links.parameters b = some (some s.nextMessage) := by
  have hdispatch : (s.links.dispatch c).Carries c s.nextMessage false := ProxyLinks.carries_dispatch.mpr hcarries
  have hbusy : ¬ ((s.links.dispatch c).connectionsMap c = none ∨ (s.links.dispatch c).Carries c s.nextMessage true) := by
    rintro (hnone | hbusy)
    · have hmap' : (s.links.dispatch c).connectionsMap c = some b := hmap
      simp [hmap'] at hnone
    · exact hbusy.not_free hmap (.inr (.inr hdispatch))
  have hsteps : Steps depth s (.request c keepAlive method path created) s' := step_cases hstep
  cases hsteps with
  | same hother _ => exact absurd rfl (hother _ _ _ _ _)
  | ignored hignored _ =>
      rcases hignored with hclosed | ⟨b', hcreated, hopen⟩
      · simp [htends c b hmap] at hclosed
      · simp [links, hfresh b' hcreated] at hopen
  | dispatched hopen _ htakes =>
      generalize s'.links = o at htakes ⊢
      cases htakes with
      | reused b' hmap' =>
          have hmap'' : (s.links.dispatch c).connectionsMap c = some b := hmap
          obtain rfl : b = b' := by simpa [hmap''] using hmap'
          simp [ProxyLinks.reuse]
      | created _ _ _ _ hnone => exact absurd hnone hbusy
      | failed _ hnone => exact absurd hnone hbusy

/-- An exchange that is not touched by the end of another one outlives the close of the client that comes with it. -/
theorem completeWrite_outlives {index size other : Nat} {context : HandlerProxyContext}
    (h : s.links.Owned) (htends : s.links.Tends context.connection) (hends : s.Ends c index message false) (hcontext : s.contexts message = some context)
    (hwritten : s.completeWrite depth c index size = some s') (hne : other ≠ message)
    (hexchange : s.links.exchanges other = some exchange) (huntouched : Untouched s s' other) :
    s.Outlives context.connection other exchange := by
  obtain ⟨write, hat, hcallback⟩ := hends
  obtain ⟨client, hclient, hwrite⟩ := Option.bind_eq_some_iff.mp hat
  have hset : (s.setClient c (some { client with writes := client.writes.eraseIdx index })).links = s.links :=
    links_setClient_same hclient rfl rfl
  have hcontext' : (s.setClient c (some { client with writes := client.writes.eraseIdx index })).contexts message =
      some context := hcontext
  simp only [completeWrite, hclient, hwrite, hcallback, hcontext', cleanupHandler] at hwritten
  obtain ⟨t, hunset, hclosed⟩ := Option.bind_eq_some_iff.mp hwritten
  obtain ⟨held, hheld, honly⟩ := unsetHandler_only hunset
  obtain ⟨released, hreleases, hlinks⟩ := unsetHandler_links hunset
  have hwritten : Untouched s (s.setClient c (some { client with writes := client.writes.eraseIdx index })) other :=
    .of_same rfl rfl
  have hfirst : Untouched s t other := hwritten.trans (honly.untouched (hset ▸ h) hheld hne)
  have hrest : Untouched t s' other := by
    refine ⟨huntouched.context.trans hfirst.context.symm, fun context b hcontext hb => ?_⟩
    have hcontext := hfirst.context ▸ hcontext
    exact (huntouched.backend context b hcontext hb).trans (hfirst.backend context b hcontext hb).symm
  rw [hset] at hreleases hlinks
  have hexchange' : t.links.exchanges other = some exchange := by
    simpa [hlinks, ProxyLinks.release, hne] using hexchange
  have htends' : t.links.Tends context.connection := by
    rw [hlinks]
    exact htends
  have houtlives := outlives_of_untouched (hlinks ▸ h.release hreleases) htends' hclosed hexchange' hrest
  exact (outlives_release hlinks hne).mp houtlives

theorem separate_of_isolated (h : s.links.Owned) (htends : ∀ c, s.links.Tends c) (hstep : step depth input s = some s')
    (hisolated : Isolated input s s') : Separate input s := by
  cases input with
  | request c keepAlive method path created =>
      intro hfresh hcarries
      have hreused := request_takes htends hfresh hcarries hstep
      obtain ⟨b, other, exchange, hmap, hparameters, hne, hexchange, -⟩ := hcarries
      obtain ⟨holder, hholder, hb⟩ := (h.owned b other).mp hparameters
      obtain ⟨context, hcontext, rfl⟩ := Option.map_eq_some_iff.mp hholder
      have hsame := (hisolated other (by simp [hcontext]) hne).backend context b hcontext hb
      have hkept : s'.links.parameters b = s.links.parameters b := by simp [links, hsame]
      rw [hreused b hmap, hparameters, Option.some.injEq, Option.some.injEq] at hkept
      exact hne hkept.symm
  | written c index size =>
      intro message context hends hcontext other exchange hne hexchange
      have hlive : s.contexts other ≠ none := fun hnone => by simp [links, hnone] at hexchange
      refine completeWrite_outlives h (htends _) hends hcontext hstep hne hexchange (hisolated other hlive ?_)
      rintro ⟨write', hat', hsame⟩
      obtain ⟨write, hat, hcallback⟩ := hends
      obtain rfl : write = write' := by simpa [hat] using hat'
      rw [hcallback] at hsame
      exact hne hsame.symm
  | close c =>
      intro other exchange hexchange hc
      have hlive : s.contexts other ≠ none := fun hnone => by simp [links, hnone] at hexchange
      refine outlives_of_untouched h (htends c) hstep hexchange (hisolated other hlive ?_)
      rintro ⟨exchange', hexchange', hc'⟩
      obtain rfl : exchange = exchange' := by simpa [hexchange] using hexchange'
      exact hc hc'
  | _ => trivial

/-- Every step of a run touches no exchange but its own exactly when no backend connection is taken in it from an exchange
that is over but has not been let go of, and every exchange outlives the close of a client but the ones that end with it. -/
theorem isolated_iff (inputs : List ProxyInput) :
    (∀ earlier input s s', earlier ++ [input] <+: inputs → run depth earlier start = some s →
      step depth input s = some s' → Isolated input s s') ↔ Along depth Separate inputs start := by
  refine every_step_iff_along (I := fun s => s.links.Owned ∧ ∀ c, s.links.Tends c) ?_ ?_ inputs ⟨owned_start, tends_start⟩
  · exact fun input s s' hs hseparate hstep => ⟨step_owned hs.1 hseparate hstep, step_tends hs.2 hstep⟩
  · exact fun input s s' hs hstep =>
      ⟨separate_of_isolated hs.1 hs.2 hstep, fun hseparate => isolated_of_separate hs.1 hseparate hstep⟩

/-- A message takes the backend connection of one that is over before the write that ends it has been completed: as the
stream of the older one is closed, the parameters of the newer one are released. -/
theorem not_isolated : ¬ ∀ (depth : Nat) (inputs : List ProxyInput) (input : ProxyInput) (s s' : ProxyHandler),
    run depth inputs start = some s → step depth input s = some s' → Isolated input s s' := by
  intro h
  have hrun : ∃ s s', run 1 [.accept 1 true, .request 1 true (bytes "GET") (bytes "/") (some 10),
      .data 10 [.messageComplete 1 1 0], .request 1 true (bytes "GET") (bytes "/") none] start = some s ∧
        step 1 (.unset 0) s = some s' ∧ (s.contexts 1).map (·.connectionC) = some (some 10) ∧
          (s.backends 10).map (·.parameters) = some (some 1) ∧ (s'.backends 10).map (·.parameters) = some none := by
    refine ⟨_, _, rfl, rfl, ?_, ?_, ?_⟩ <;> decide
  obtain ⟨s, s', hrun, hstep, hcontext, hbackend, hbackend'⟩ := hrun
  obtain ⟨context, hcontext, hb⟩ := Option.map_eq_some_iff.mp hcontext
  have huntouched := h _ _ _ _ _ hrun hstep 1 (by simp [hcontext]) (by simp [Subject])
  simp [huntouched.backend context 10 hcontext hb, hbackend] at hbackend'

end ProxyHandler

end Viriatum
