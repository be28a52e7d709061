import Viriatum.Handlers.Proxy

/-!
# The links of the proxy

An abstract proxy: what the connections and the exchanges point at, without the bytes that travel. The operations of the
proxy are told by what they make of the links.
-/

namespace Viriatum

open Function (update)

/-- What the exchange of a message points at, and whether it is under way. -/
structure ProxyExchange where
  connection : Nat
  connectionC : Option Nat
  pending : Bool
deriving DecidableEq, Repr

structure ProxyLinks where
  /-- What the open connections of clients call as they close. -/
  onClose : Nat → Option (Option OnClose)
  messages : Nat → List Nat
  /-- What the parameters of the open backend connections belong to. -/
  parameters : Nat → Option (Option Nat)
  exchanges : Nat → Option ProxyExchange
  connectionsMap : Nat → Option Nat
  reverseMap : Nat → Option Nat
  onCloseMap : Nat → Option OnClose
  nextMessage : Nat

def HandlerProxyContext.exchange (context : HandlerProxyContext) : ProxyExchange where
  connection := context.connection
  connectionC := context.connectionC
  pending := context.pending

namespace ProxyLinks

variable (o : ProxyLinks)

def accept (c : Nat) : ProxyLinks :=
  { o with
    onClose := update o.onClose c (some (some .closeHandlerStreamHttp))
    messages := update o.messages c [] }

/-- A message of a client is dispatched to the proxy. -/
def dispatch (c : Nat) : ProxyLinks :=
  { o with
    messages := update o.messages c (o.messages c ++ [o.nextMessage])
    exchanges := update o.exchanges o.nextMessage (some { connection := c, connectionC := none, pending := false })
    nextMessage := o.nextMessage + 1 }

/-- The exchange of a message takes the backend connection that its client is associated with. -/
def reuse (message c b : Nat) : ProxyLinks :=
  { o with
    parameters := update o.parameters b (some (some message))
    exchanges := update o.exchanges message (some { connection := c, connectionC := some b, pending := true }) }

/-- The backend connection that a client is associated with is not associated with it any more. -/
def leave (c : Nat) : ProxyLinks :=
  match o.connectionsMap c with
  | none => o
  | some b => { o with reverseMap := update o.reverseMap b none }

/-- A backend connection is created for the exchange of a message. -/
def create (message c b : Nat) (onClose : Option OnClose) : ProxyLinks :=
  { o with
    onClose := update o.onClose c (some (some .closeProxyConnection))
    parameters := update o.parameters b (some (some message))
    exchanges := update o.exchanges message (some { connection := c, connectionC := some b, pending := true })
    connectionsMap := update o.connectionsMap c (some b)
    reverseMap := update o.reverseMap b (some c)
    onCloseMap := update o.onCloseMap c onClose }

/-- No backend connection could be created for the exchange of a message. -/
def fail (message c : Nat) : ProxyLinks :=
  { o with exchanges := update o.exchanges message (some { connection := c, connectionC := none, pending := true }) }

/-- The response to a message is over. -/
def settle (message : Nat) (exchange : ProxyExchange) : ProxyLinks :=
  { o with exchanges := update o.exchanges message (some { exchange with pending := false }) }

/-- The exchange of a message is let go of. -/
def release (message : Nat) (exchange : ProxyExchange) : ProxyLinks :=
  { o with
    messages := update o.messages exchange.connection ((o.messages exchange.connection).erase message)
    exchanges := update o.exchanges message none
    parameters :=
      match exchange.connectionC with
      | none => o.parameters
      | some b => update o.parameters b (some none) }

/-- The client that a backend connection is associated with calls again what it was to call as it closed. -/
def restore (b : Nat) : ProxyLinks :=
  match o.reverseMap b with
  | none => o
  | some c =>
      { o with
        onClose := update o.onClose c (some (o.onCloseMap c))
        connectionsMap := update o.connectionsMap c none
        reverseMap := update o.reverseMap b none
        onCloseMap := update o.onCloseMap c none }

/-- The exchange that the parameters of a backend connection belong to has no connection any more. -/
def detach (parameters : Option Nat) : ProxyLinks :=
  match parameters.bind fun message => (o.exchanges message).map (message, ·) with
  | none => o
  | some (message, exchange) =>
      { o with exchanges := update o.exchanges message (some { exchange with connectionC := none }) }

/-- A backend connection is lost. -/
def lose (b : Nat) (parameters : Option Nat) : ProxyLinks :=
  { (o.restore b).detach parameters with parameters := update o.parameters b none }

/-- A client is associated with no backend connection any more. -/
def dissociate (c : Nat) : ProxyLinks :=
  { o with
    connectionsMap := update o.connectionsMap c none
    onCloseMap := update o.onCloseMap c none }

def forget (b : Nat) : ProxyLinks := { o with reverseMap := update o.reverseMap b none }

def setOnClose (c : Nat) (onClose : Option OnClose) : ProxyLinks :=
  { o with onClose := update o.onClose c (some onClose) }

/-- The connection of a client is gone. -/
def remove (c : Nat) : ProxyLinks :=
  { o with onClose := update o.onClose c none, messages := update o.messages c [] }

/-- An exchange that may be let go of: its client is open, and so is the backend connection that it holds. -/
structure Releases (message : Nat) (exchange : ProxyExchange) : Prop where
  found : o.exchanges message = some exchange
  client : o.onClose exchange.connection ≠ none
  backend : ∀ b, exchange.connectionC = some b → o.parameters b ≠ none

/-! ## What the operations leave as it is -/

variable {o : ProxyLinks}

@[simp] theorem leave_onClose {c : Nat} : (o.leave c).onClose = o.onClose := by
  unfold leave
  split <;> rfl

@[simp] theorem leave_messages {c : Nat} : (o.leave c).messages = o.messages := by
  unfold leave
  split <;> rfl

@[simp] theorem leave_parameters {c : Nat} : (o.leave c).parameters = o.parameters := by
  unfold leave
  split <;> rfl

@[simp] theorem leave_exchanges {c : Nat} : (o.leave c).exchanges = o.exchanges := by
  unfold leave
  split <;> rfl

@[simp] theorem leave_connectionsMap {c : Nat} : (o.leave c).connectionsMap = o.connectionsMap := by
  unfold leave
  split <;> rfl

@[simp] theorem leave_onCloseMap {c : Nat} : (o.leave c).onCloseMap = o.onCloseMap := by
  unfold leave
  split <;> rfl

@[simp] theorem leave_nextMessage {c : Nat} : (o.leave c).nextMessage = o.nextMessage := by
  unfold leave
  split <;> rfl

@[simp] theorem restore_messages {b : Nat} : (o.restore b).messages = o.messages := by
  unfold restore
  split <;> rfl

@[simp] theorem restore_parameters {b : Nat} : (o.restore b).parameters = o.parameters := by
  unfold restore
  split <;> rfl

@[simp] theorem restore_exchanges {b : Nat} : (o.restore b).exchanges = o.exchanges := by
  unfold restore
  split <;> rfl

@[simp] theorem restore_nextMessage {b : Nat} : (o.restore b).nextMessage = o.nextMessage := by
  unfold restore
  split <;> rfl

@[simp] theorem detach_onClose {parameters : Option Nat} : (o.detach parameters).onClose = o.onClose := by
  unfold detach
  split <;> rfl

@[simp] theorem detach_messages {parameters : Option Nat} : (o.detach parameters).messages = o.messages := by
  unfold detach
  split <;> rfl

@[simp] theorem detach_parameters {parameters : Option Nat} : (o.detach parameters).parameters = o.parameters := by
  unfold detach
  split <;> rfl

@[simp] theorem detach_connectionsMap {parameters : Option Nat} : (o.detach parameters).connectionsMap = o.connectionsMap := by
  unfold detach
  split <;> rfl

@[simp] theorem detach_reverseMap {parameters : Option Nat} : (o.detach parameters).reverseMap = o.reverseMap := by
  unfold detach
  split <;> rfl

@[simp] theorem detach_onCloseMap {parameters : Option Nat} : (o.detach parameters).onCloseMap = o.onCloseMap := by
  unfold detach
  split <;> rfl

@[simp] theorem detach_nextMessage {parameters : Option Nat} : (o.detach parameters).nextMessage = o.nextMessage := by
  unfold detach
  split <;> rfl

@[simp] theorem lose_messages {b : Nat} {parameters : Option Nat} : (o.lose b parameters).messages = o.messages := by
  simp [lose]

@[simp] theorem lose_parameters {b : Nat} {parameters : Option Nat} :
    (o.lose b parameters).parameters = update o.parameters b none := by
  simp [lose]

@[simp] theorem lose_nextMessage {b : Nat} {parameters : Option Nat} :
    (o.lose b parameters).nextMessage = o.nextMessage := by
  simp [lose]

theorem lose_exchanges {b message : Nat} {parameters : Option Nat} :
    (o.lose b parameters).exchanges message =
      if parameters = some message then (o.exchanges message).map fun exchange => { exchange with connectionC := none }
      else o.exchanges message := by
  cases parameters with
  | none => simp [lose, detach]
  | some message' =>
      cases hexchange : o.exchanges message' with
      | none =>
          simp only [lose, detach, restore_exchanges, hexchange, Option.bind_some, Option.map_none]
          split
          case isTrue hsame => simp [← Option.some.inj hsame, hexchange]
          case isFalse => rfl
      | some exchange =>
          simp only [lose, detach, restore_exchanges, hexchange, Option.bind_some, Option.map_some]
          split
          case isTrue hsame => simp [← Option.some.inj hsame, hexchange]
          case isFalse hne =>
            have hm : message ≠ message' := fun h => hne (congrArg some h.symm)
            simp [hm]

/-- An exchange loses its backend connection, where the parameters of it belong to the exchange, and nothing else. -/
theorem exchange_of_lose {b message : Nat} {parameters : Option Nat} {exchange : ProxyExchange}
    (h : (o.lose b parameters).exchanges message = some exchange) :
    ∃ held, o.exchanges message = some { exchange with connectionC := held } ∧
      if parameters = some message then exchange.connectionC = none else exchange.connectionC = held := by
  rw [lose_exchanges] at h
  split at h
  case isTrue hsame =>
    obtain ⟨old, hold, rfl⟩ := Option.map_eq_some_iff.mp h
    exact ⟨old.connectionC, hold, by simp [hsame]⟩
  case isFalse hne => exact ⟨exchange.connectionC, h, by simp [hne]⟩

/-- The association of a backend connection that is lost is the one that its client has, where it has one. -/
theorem lose_maps {b c : Nat} {parameters : Option Nat} :
    (o.lose b parameters).connectionsMap c = (if o.reverseMap b = some c then none else o.connectionsMap c) ∧
      (o.lose b parameters).onClose c = (if o.reverseMap b = some c then some (o.onCloseMap c) else o.onClose c) ∧
      (o.lose b parameters).onCloseMap c = (if o.reverseMap b = some c then none else o.onCloseMap c) := by
  simp only [lose, detach_connectionsMap, detach_onClose, detach_onCloseMap]
  cases hreverse : o.reverseMap b with
  | none => simp [restore, hreverse]
  | some c' =>
      by_cases hc : c' = c
      · simp [restore, hreverse, hc]
      · simp [restore, hreverse, hc, Ne.symm hc]

theorem lose_reverseMap {b : Nat} {parameters : Option Nat} :
    (o.lose b parameters).reverseMap = update o.reverseMap b none := by
  simp only [lose, detach_reverseMap]
  cases hreverse : o.reverseMap b with
  | none => simp [restore, hreverse]
  | some c => simp [restore, hreverse]

theorem Releases.setOnClose {message c : Nat} {exchange : ProxyExchange} {onClose : Option OnClose}
    (h : o.Releases message exchange) : (o.setOnClose c onClose).Releases message exchange where
  found := h.found
  client := by
    by_cases hc : exchange.connection = c
    · simp [ProxyLinks.setOnClose, hc]
    · simpa [ProxyLinks.setOnClose, hc] using h.client
  backend := h.backend

/-- The exchange that is let go of closes no backend connection. -/
theorem release_open {message b : Nat} {exchange : ProxyExchange} (h : o.parameters b ≠ none) :
    (o.release message exchange).parameters b ≠ none := by
  cases hconnection : exchange.connectionC with
  | none => simpa [release, hconnection] using h
  | some b' =>
      by_cases hsame : b = b'
      · simp [release, hconnection, hsame]
      · simpa [release, hconnection, hsame] using h

theorem release_carries {message message' b : Nat} {exchange : ProxyExchange}
    (h : (o.release message exchange).parameters b = some (some message')) :
    o.parameters b = some (some message') ∧ exchange.connectionC ≠ some b := by
  cases hconnection : exchange.connectionC with
  | none => simpa [release, hconnection] using h
  | some b' =>
      by_cases hsame : b = b'
      · simp [release, hconnection, hsame] at h
      · simpa [release, hconnection, hsame, Ne.symm hsame] using h

end ProxyLinks

namespace ProxyHandler

variable {s s' : ProxyHandler} {b c message : Nat}

def links (s : ProxyHandler) : ProxyLinks where
  onClose c := (s.clients c).map (·.onClose)
  messages c := (s.clients c).elim [] (·.messages)
  parameters b := (s.backends b).map (·.parameters)
  exchanges message := (s.contexts message).map (·.exchange)
  connectionsMap := s.connectionsMap
  reverseMap := s.reverseMap
  onCloseMap := s.onCloseMap
  nextMessage := s.nextMessage

theorem links_onClose {client : ProxyClient} (h : s.clients c = some client) : s.links.onClose c = some client.onClose := by
  simp [links, h]

theorem links_messages_closed (h : s.links.onClose c = none) : s.links.messages c = [] := by
  simp only [links, Option.map_eq_none_iff] at h
  simp [links, h]

theorem links_messages {client : ProxyClient} (h : s.clients c = some client) : s.links.messages c = client.messages := by
  simp [links, h]

theorem links_parameters {backend : ProxyBackend} (h : s.backends b = some backend) :
    s.links.parameters b = some backend.parameters := by
  simp [links, h]

theorem links_exchanges {context : HandlerProxyContext} (h : s.contexts message = some context) :
    s.links.exchanges message = some context.exchange := by
  simp [links, h]

/-- A function of what an updated function gives. -/
theorem comp_update {α β : Type} (f : Nat → Option α) (g : Option α → β) (i : Nat) (x : Option α) :
    (fun j => g (update f i x j)) = update (fun j => g (f j)) i (g x) := by
  funext j
  by_cases h : j = i
  · subst h
    simp
  · simp [h]

theorem update_same {β : Type} {f : Nat → β} {i : Nat} {x : β} (h : f i = x) : update f i x = f := by
  rw [← h, Function.update_eq_self]

/-! ## Changes that the links tell -/

theorem links_setClient (client : Option ProxyClient) :
    (s.setClient c client).links = { s.links with
      onClose := update s.links.onClose c (client.map (·.onClose))
      messages := update s.links.messages c (client.elim [] (·.messages)) } := by
  simp only [links, setClient]
  rw [comp_update s.clients (fun x => x.map (·.onClose)), comp_update s.clients (fun x => x.elim [] (·.messages))]

theorem links_setBackend (backend : Option ProxyBackend) :
    (s.setBackend b backend).links = { s.links with
      parameters := update s.links.parameters b (backend.map (·.parameters)) } := by
  simp only [links, setBackend]
  rw [comp_update s.backends (fun x => x.map (·.parameters))]

theorem links_setContext (context : Option HandlerProxyContext) :
    (s.setContext message context).links = { s.links with
      exchanges := update s.links.exchanges message (context.map (·.exchange)) } := by
  simp only [links, setContext]
  rw [comp_update s.contexts (fun x => x.map (·.exchange))]

/-- A change of a client that it calls the same with as it closes, and serves the same messages with. -/
theorem links_setClient_same {client client' : ProxyClient} (h : s.clients c = some client)
    (honClose : client'.onClose = client.onClose) (hmessages : client'.messages = client.messages) :
    (s.setClient c (some client')).links = s.links := by
  rw [links_setClient, Option.map_some, Option.elim_some, honClose, hmessages, update_same (links_onClose h),
    update_same (links_messages h)]

theorem links_setClient_onClose {client : ProxyClient} {onClose : Option OnClose} (h : s.clients c = some client) :
    (s.setClient c (some { client with onClose })).links = s.links.setOnClose c onClose := by
  rw [links_setClient, Option.map_some, Option.elim_some, update_same (links_messages h)]
  rfl

theorem links_setBackend_same {backend backend' : ProxyBackend} (h : s.backends b = some backend)
    (hparameters : backend'.parameters = backend.parameters) : (s.setBackend b (some backend')).links = s.links := by
  rw [links_setBackend, Option.map_some, hparameters, update_same (links_parameters h)]

theorem links_setContext_same {context context' : HandlerProxyContext} (h : s.contexts message = some context)
    (hexchange : context'.exchange = context.exchange) : (s.setContext message (some context')).links = s.links := by
  rw [links_setContext, Option.map_some, hexchange, update_same (links_exchanges h)]

theorem writeClient_links {write : ProxyWrite} (h : s.writeClient c write = some s') : s'.links = s.links := by
  unfold writeClient at h
  split at h
  case h_1 => cases h
  case h_2 client hclient =>
    cases h
    exact links_setClient_same hclient rfl rfl

/-! ## The end of an exchange -/

theorem unsetHandler_links (h : s.unsetHandler message = some s') :
    ∃ exchange, s.links.Releases message exchange ∧ s'.links = s.links.release message exchange := by
  unfold unsetHandler at h
  split at h
  case h_1 => cases h
  case h_2 context hcontext =>
    split at h
    case h_1 => cases h
    case h_2 client hclient =>
      have hopen : s.links.onClose context.connection ≠ none := by simp [links_onClose hclient]
      have hmessages : s.links.messages context.connection = client.messages := links_messages hclient
      have hsame : update s.links.onClose context.connection (some client.onClose) = s.links.onClose :=
        update_same (links_onClose hclient)
      split at h
      case h_1 hnone =>
        cases h
        have hbackend : ∀ b, context.connectionC = some b → s.links.parameters b ≠ none := by simp [hnone]
        refine ⟨context.exchange, ⟨links_exchanges hcontext, hopen, hbackend⟩, ?_⟩
        rw [links_setContext, links_setClient]
        simp [ProxyLinks.release, HandlerProxyContext.exchange, hnone, hmessages, hsame]
      case h_2 b hsome =>
        dsimp only at h
        split at h
        case h_1 => cases h
        case h_2 backend hbackend =>
          cases h
          have hb : s.backends b = some backend := hbackend
          have hbackend : ∀ b', context.connectionC = some b' → s.links.parameters b' ≠ none := by
            intro b' hb'
            rw [hsome, Option.some.injEq] at hb'
            simp [← hb', links_parameters hb]
          refine ⟨context.exchange, ⟨links_exchanges hcontext, hopen, hbackend⟩, ?_⟩
          rw [links_setBackend, links_setContext, links_setClient]
          simp [ProxyLinks.release, HandlerProxyContext.exchange, hsome, hmessages, hsame]

/-! ## The loss of a connection -/

theorem restoreClient_links (hreverse : s.reverseMap b = some c) (h : s.restoreClient c b = some s') :
    s'.links = s.links.restore b ∧ s'.contexts = s.contexts ∧ s'.backends = s.backends := by
  unfold restoreClient at h
  split at h
  case h_1 => cases h
  case h_2 client hclient =>
    cases h
    have hreverse' : s.links.reverseMap b = some c := hreverse
    refine ⟨?_, rfl, rfl⟩
    simp only [ProxyLinks.restore, hreverse']
    have hset := links_setClient (s := s) (c := c) (some { client with onClose := s.onCloseMap c })
    simp only [Option.map_some, Option.elim_some] at hset
    rw [update_same (links_messages hclient)] at hset
    simp only [links, setClient, ProxyLinks.mk.injEq] at hset ⊢
    exact ⟨hset.1, hset.2.1, trivial, trivial, trivial, trivial, trivial, trivial⟩

theorem closeBackend_links (h : s.closeBackend b = some s') :
    ∃ parameters, s.links.parameters b = some parameters ∧
      (∀ message, parameters = some message → s.links.exchanges message ≠ none) ∧
      s'.links = s.links.lose b parameters := by
  unfold closeBackend closeBackendHandler at h
  split at h
  case h_1 => cases h
  case h_2 backend hbackend =>
    refine ⟨backend.parameters, links_parameters hbackend, ?_⟩
    obtain ⟨u, hclosed, rfl⟩ := Option.map_eq_some_iff.mp h
    obtain ⟨t, hrestored, hdetached⟩ := Option.bind_eq_some_iff.mp hclosed
    have ht : t.links = s.links.restore b ∧ t.contexts = s.contexts ∧ t.backends = s.backends := by
      split at hrestored
      case h_1 hnone =>
        cases hrestored
        have hnone' : s.links.reverseMap b = none := hnone
        simp [ProxyLinks.restore, hnone']
      case h_2 c hsome => exact restoreClient_links hsome hrestored
    obtain ⟨hlinks, hcontexts, hbackends⟩ := ht
    have hparameters : t.links.parameters = s.links.parameters := by simp only [links, hbackends]
    have hexchanges : t.links.exchanges = s.links.exchanges := by simp only [links, hcontexts]
    have hexchanges' : (s.links.restore b).exchanges = s.links.exchanges := hlinks ▸ hexchanges
    rw [links_setBackend]
    split at hdetached
    case h_1 hnone =>
      cases hdetached
      refine ⟨fun message hm => by simp [hnone] at hm, ?_⟩
      simp [ProxyLinks.lose, ProxyLinks.detach, hnone, ← hlinks, hparameters]
    case h_2 message hsome =>
      split at hdetached
      case h_1 => cases hdetached
      case h_2 context hcontext =>
        cases hdetached
        have hexchange : s.links.exchanges message = some context.exchange := hexchanges ▸ links_exchanges hcontext
        refine ⟨fun message' hm => ?_, ?_⟩
        · rw [hsome, Option.some.injEq] at hm
          simp [← hm, hexchange]
        · rw [links_setContext]
          simp only [ProxyLinks.lose, ProxyLinks.detach, hsome, Option.bind_some, hexchanges', hexchange, Option.map_some]
          simp [← hlinks, hparameters, hexchanges, HandlerProxyContext.exchange]

theorem unsetAll_keeps {I : ProxyLinks → Prop}
    (hI : ∀ o message exchange, I o → o.Releases message exchange → I (o.release message exchange))
    {messages : List Nat} (h : unsetAll messages s = some s') (hs : I s.links) : I s'.links := by
  induction messages generalizing s with
  | nil =>
      cases h
      exact hs
  | cons message messages ih =>
      obtain ⟨t, hunset, hrest⟩ := Option.bind_eq_some_iff.mp h
      obtain ⟨exchange, hreleases, hlinks⟩ := unsetHandler_links hunset
      exact ih hrest (hlinks ▸ hI _ _ _ hs hreleases)

theorem closeHandlerStreamHttp_links (h : s.closeHandlerStreamHttp c = some s') :
    ∃ t, unsetAll (s.links.messages c) s = some t ∧ s'.links = t.links ∧ s'.contexts = t.contexts ∧
      s'.backends = t.backends := by
  unfold closeHandlerStreamHttp at h
  split at h
  case h_1 => cases h
  case h_2 client hclient =>
    obtain ⟨t, hunset, rfl⟩ := Option.map_eq_some_iff.mp h
    exact ⟨t, by rw [links_messages hclient, hunset], rfl, rfl, rfl⟩

/-! ## The start of an exchange -/

theorem setHandler_links {client : ProxyClient} {keepAlive : Bool} (h : s.clients c = some client) :
    (s.setHandler c client keepAlive).links = s.links.dispatch c := by
  have hset := links_setClient (s := s) (c := c) (some { client with messages := client.messages ++ [s.nextMessage] })
  simp only [Option.map_some, Option.elim_some] at hset
  rw [update_same (links_onClose h)] at hset
  simp only [links, setClient, setHandler, ProxyLinks.dispatch, ProxyLinks.mk.injEq] at hset ⊢
  refine ⟨hset.1, ?_, trivial, ?_, trivial, trivial, trivial, trivial⟩
  · rw [hset.2.1]
    simp [h]
  · rw [comp_update s.contexts (fun x => x.map (·.exchange))]
    rfl

theorem associate_links (h : s.associate c b message = some s') :
    ∃ client, s.clients c = some client ∧ s'.links =
      { s.links with
        onClose := update s.links.onClose c (some (some .closeProxyConnection))
        parameters := update s.links.parameters b (some (some message))
        connectionsMap := update s.links.connectionsMap c (some b)
        reverseMap := update s.links.reverseMap b (some c)
        onCloseMap := update s.links.onCloseMap c client.onClose } := by
  unfold associate at h
  split at h
  case h_1 => cases h
  case h_2 client hclient =>
    cases h
    refine ⟨client, hclient, ?_⟩
    have hset := links_setClient (s := s) (c := c) (some { client with onClose := some .closeProxyConnection })
    simp only [Option.map_some, Option.elim_some] at hset
    rw [update_same (links_messages hclient)] at hset
    simp only [links, setClient, ProxyLinks.mk.injEq] at hset ⊢
    refine ⟨hset.1, hset.2.1, ?_, trivial, trivial, trivial, trivial, trivial⟩
    rw [comp_update s.backends (fun x => x.map (·.parameters))]
    rfl

end ProxyHandler

namespace ProxyLinks

/-- The backend connection of a client carries an exchange of another message, which is under way or over. -/
def Carries (o : ProxyLinks) (c message : Nat) (pending : Bool) : Prop :=
  ∃ b other exchange, o.connectionsMap c = some b ∧ o.parameters b = some (some other) ∧ other ≠ message ∧
    o.exchanges other = some exchange ∧ exchange.pending = pending

/-- The message that is dispatched is none of the others. -/
theorem carries_dispatch {o : ProxyLinks} {c : Nat} {pending : Bool} :
    (o.dispatch c).Carries c o.nextMessage pending ↔ o.Carries c o.nextMessage pending := by
  constructor
  · rintro ⟨b, other, exchange, hmap, hparameters, hne, hexchange, hpending⟩
    refine ⟨b, other, exchange, hmap, hparameters, hne, ?_, hpending⟩
    simpa [dispatch, hne] using hexchange
  · rintro ⟨b, other, exchange, hmap, hparameters, hne, hexchange, hpending⟩
    refine ⟨b, other, exchange, hmap, hparameters, hne, ?_, hpending⟩
    simpa [dispatch, hne] using hexchange

/-- A backend connection that carries an exchange that is under way is not free. -/
theorem Carries.not_free {o : ProxyLinks} {b c message : Nat} (h : o.Carries c message true) (hmap : o.connectionsMap c = some b)
    (hfree : o.parameters b = some none ∨ o.parameters b = some (some message) ∨ o.Carries c message false) : False := by
  obtain ⟨b', other, exchange, hmap', hparameters, hne, hexchange, hpending⟩ := h
  obtain rfl : b' = b := by simpa [hmap'] using hmap
  rcases hfree with hfree | hfree | ⟨b'', other', exchange', hmap'', hparameters', -, hexchange', hpending'⟩
  · simp [hparameters] at hfree
  · simp [hparameters, hne] at hfree
  · obtain rfl : b' = b'' := by simpa [hmap'] using hmap''
    obtain rfl : other = other' := by simpa [hparameters] using hparameters'
    obtain rfl : exchange = exchange' := by simpa [hexchange] using hexchange'
    simp [hpending] at hpending'

/-- What becomes of the exchange of a message that is dispatched to the proxy. -/
inductive Takes (o : ProxyLinks) (message c : Nat) (created : Option Nat) : ProxyLinks → Prop
  | reused (b : Nat) (hmap : o.connectionsMap c = some b) (hopen : o.parameters b ≠ none)
      (hfree : o.parameters b = some none ∨ o.parameters b = some (some message) ∨ o.Carries c message false) :
      Takes o message c created (o.reuse message c b)
  | created (b : Nat) (onClose : Option OnClose) (hcreated : created = some b) (hopen : o.onClose c = some onClose)
      (hbusy : o.connectionsMap c = none ∨ o.Carries c message true) :
      Takes o message c created ((o.leave c).create message c b onClose)
  | failed (hcreated : created = none) (hbusy : o.connectionsMap c = none ∨ o.Carries c message true) :
      Takes o message c created ((o.leave c).fail message c)

end ProxyLinks

namespace ProxyHandler

variable {s s' : ProxyHandler} {b c message : Nat}

theorem leaveBehind_links : (s.leaveBehind (s.connectionsMap c)).links = s.links.leave c := by
  unfold leaveBehind ProxyLinks.leave
  have hmap : s.links.connectionsMap c = s.connectionsMap c := rfl
  rw [hmap]
  cases s.connectionsMap c <;> rfl

/-- Whether a backend connection may be taken is told by the links. -/
theorem reuseBackend_cases {reuse : Bool} (h : s.reuseBackend (s.connectionsMap c) message = some reuse) :
    if reuse then ∃ b, s.connectionsMap c = some b ∧ s.links.parameters b ≠ none ∧
      (s.links.parameters b = some none ∨ s.links.parameters b = some (some message) ∨ s.links.Carries c message false)
    else s.connectionsMap c = none ∨ s.links.Carries c message true := by
  unfold reuseBackend at h
  split at h
  case h_1 hnone =>
    cases h
    exact .inl hnone
  case h_2 b hmap =>
    split at h
    case h_1 => cases h
    case h_2 backend hbackend =>
      have hparameters := links_parameters hbackend
      have hopen : s.links.parameters b ≠ none := by simp [hparameters]
      split at h
      case h_1 hnone =>
        cases h
        exact ⟨b, hmap, hopen, .inl (hparameters.trans (congrArg some hnone))⟩
      case h_2 other hsome =>
        have hother : s.links.parameters b = some (some other) := hparameters.trans (congrArg some hsome)
        split at h
        case isTrue heq =>
          cases h
          exact ⟨b, hmap, hopen, .inr (.inl (heq ▸ hother))⟩
        case isFalse hne =>
          obtain ⟨context, hcontext, hpending⟩ := Option.map_eq_some_iff.mp h
          have hexchange := links_exchanges hcontext
          cases hreuse : reuse with
          | true =>
              have hover : context.pending = false := by simpa [hreuse] using hpending
              exact ⟨b, hmap, hopen, .inr (.inr ⟨b, other, context.exchange, hmap, hother, hne, hexchange, hover⟩)⟩
          | false =>
              have hbusy : context.pending = true := by simpa [hreuse] using hpending
              exact .inr ⟨b, other, context.exchange, hmap, hother, hne, hexchange, hbusy⟩

theorem takeBackend_links {context : HandlerProxyContext} {created : Option Nat}
    (h : s.takeBackend message context created = some s') :
    s.links.Takes message context.connection created s'.links := by
  unfold takeBackend at h
  dsimp only at h
  split at h
  case h_1 => cases h
  case h_2 hreuse =>
    obtain ⟨b, hmap, hopen, hfree⟩ := reuseBackend_cases hreuse
    simp only [hmap] at h
    split at h
    case h_1 => cases h
    case h_2 backend hbackend =>
      cases h
      have hlinks : ((s.setContext message (some { context with
          connectionC := some b, pending := true, pendingWrite := 0 })).setBackend b
            (some { backend with parameters := some message })).links = s.links.reuse message context.connection b := by
        rw [links_setBackend, links_setContext]
        rfl
      exact hlinks ▸ .reused b hmap hopen hfree
  case h_3 hreuse =>
    have hbusy := reuseBackend_cases hreuse
    split at h
    case h_1 =>
      cases h
      have hlinks : ((s.leaveBehind (s.connectionsMap context.connection)).setContext message (some { context with
          connectionC := none, pending := true, pendingWrite := 0 })).links =
            (s.links.leave context.connection).fail message context.connection := by
        rw [links_setContext, leaveBehind_links]
        rfl
      exact hlinks ▸ .failed rfl hbusy
    case h_2 b =>
      obtain ⟨client, hclient, hlinks⟩ := associate_links h
      have hsame : s.clients context.connection = some client := by
        have hleft : (s.leaveBehind (s.connectionsMap context.connection)).clients = s.clients := by
          unfold leaveBehind
          split <;> rfl
        simpa [setContext, hleft] using hclient
      rw [hlinks, links_setContext, leaveBehind_links]
      exact .created b client.onClose rfl (links_onClose hsame) hbusy

/-! ## The messages of both sides -/

theorem clientCallback_links {callback : ClientCallback} (h : s.clientCallback message callback = some s') :
    s'.links = s.links := by
  unfold clientCallback at h
  split at h
  case h_1 => cases h
  case h_2 context hcontext =>
    have hgather : ∀ buffer, (s.setContext message (some { context with buffer })).links = s.links := fun _ =>
      links_setContext_same hcontext rfl
    cases callback with
    | headerField data => cases h; exact hgather _
    | headerValue data => cases h; exact hgather _
    | headersComplete => cases h; exact hgather _
    | body data => cases h; exact hgather _
    | messageComplete =>
        dsimp only at h
        split at h
        · split at h
          · cases h
          · exact writeClient_links h
        · split at h
          case h_1 => cases h
          case h_2 backend hbackend =>
            cases h
            exact links_setBackend_same hbackend rfl

theorem account_links {context : HandlerProxyContext} {exchange : ProxyExchange} (size : Nat)
    (h : s.links.exchanges message = some exchange) (hexchange : context.exchange = exchange) :
    (s.account message context size).links = s.links := by
  have hset : (s.setContext message (some { context with
      pendingWrite := (context.pendingWrite + size) % 2 ^ 64 })).links = s.links := by
    have hsame : ({ context with pendingWrite := (context.pendingWrite + size) % 2 ^ 64 } : HandlerProxyContext).exchange =
        exchange := hexchange
    rw [links_setContext, Option.map_some, hsame, update_same h]
  unfold account
  dsimp only
  split
  case h_1 => exact hset
  case h_2 b _ =>
    split
    case h_1 => exact hset
    case h_2 backend hbackend =>
      split
      · exact Eq.trans (links_setBackend_same hbackend (by rfl)) hset
      · exact hset

theorem backendCallback_links {callback : BackendCallback} (h : s.backendCallback message callback = some s') :
    ∃ exchange, s.links.exchanges message = some exchange ∧
      (s'.links = s.links ∨ s'.links = s.links.settle message exchange) := by
  unfold backendCallback at h
  split at h
  case h_1 => cases h
  case h_2 context hcontext =>
    have hexchange := links_exchanges hcontext
    refine ⟨context.exchange, hexchange, ?_⟩
    split at h
    case h_1 => cases h
    case h_2 client hclient =>
      cases callback with
      | line written =>
          cases h
          exact .inl (links_setContext_same hcontext rfl)
      | field written =>
          cases h
          exact .inl (links_setContext_same hcontext rfl)
      | headersComplete written =>
          obtain ⟨t, hwrite, rfl⟩ := Option.map_eq_some_iff.mp h
          have hlinks := writeClient_links hwrite
          exact .inl ((account_links _ (hlinks ▸ hexchange) rfl).trans hlinks)
      | body data =>
          dsimp only at h
          split at h
          · cases h
          · obtain ⟨t, hwrite, rfl⟩ := Option.map_eq_some_iff.mp h
            have hlinks := writeClient_links hwrite
            exact .inl ((account_links _ (hlinks ▸ hexchange) rfl).trans hlinks)
      | messageComplete major minor flags =>
          obtain ⟨t, hwrite, rfl⟩ := Option.map_eq_some_iff.mp h
          have hlinks := writeClient_links hwrite
          refine .inr ?_
          rw [links_setContext, hlinks]
          rfl

theorem backendCallbacks_links {callbacks : List BackendCallback} {o : ProxyLinks} {exchange : ProxyExchange}
    (h : backendCallbacks message callbacks s = some s') (ho : o.exchanges message = some exchange)
    (hs : s.links = o ∨ s.links = o.settle message exchange) :
    s'.links = o ∨ s'.links = o.settle message exchange := by
  induction callbacks generalizing s with
  | nil =>
      cases h
      exact hs
  | cons callback callbacks ih =>
      obtain ⟨t, hcallback, hrest⟩ := Option.bind_eq_some_iff.mp h
      obtain ⟨exchange', hexchange, hlinks⟩ := backendCallback_links hcallback
      refine ih hrest ?_
      rcases hs with hs | hs
      · rw [hs] at hexchange hlinks
        rw [ho, Option.some.injEq] at hexchange
        exact hexchange ▸ hlinks
      · refine .inr ?_
        rw [hs] at hexchange hlinks
        have heq : exchange' = { exchange with pending := false } := by
          simpa [ProxyLinks.settle] using hexchange.symm
        rcases hlinks with hlinks | hlinks
        · exact hlinks
        · rw [hlinks, heq]
          simp [ProxyLinks.settle]

theorem dataBackendHandler_links {callbacks : List BackendCallback} (h : s.dataBackendHandler b callbacks = some s') :
    s'.links = s.links ∨ ∃ message exchange, s.links.parameters b = some (some message) ∧
      s.links.exchanges message = some exchange ∧ s'.links = s.links.settle message exchange := by
  unfold dataBackendHandler at h
  split at h
  case h_1 =>
    cases h
    exact .inl rfl
  case h_2 backend hbackend =>
    split at h
    case h_1 =>
      cases h
      exact .inl rfl
    case h_2 message hsome =>
      have hparameters : s.links.parameters b = some (some message) :=
        (links_parameters hbackend).trans (congrArg some hsome)
      cases callbacks with
      | nil =>
          cases h
          exact .inl rfl
      | cons callback callbacks =>
          have hexchange : ∃ exchange, s.links.exchanges message = some exchange := by
            obtain ⟨t, hcallback, -⟩ := Option.bind_eq_some_iff.mp h
            obtain ⟨exchange, hexchange, -⟩ := backendCallback_links hcallback
            exact ⟨exchange, hexchange⟩
          obtain ⟨exchange, hexchange⟩ := hexchange
          exact (backendCallbacks_links h hexchange (.inl rfl)).imp_right fun hlinks =>
            ⟨message, exchange, hparameters, hexchange, hlinks⟩

theorem pendingHandler_links {size : Nat} (h : s.pendingHandler message size = some s') : s'.links = s.links := by
  unfold pendingHandler at h
  split at h
  case h_1 => cases h
  case h_2 context hcontext =>
    have hset : ∀ pendingWrite, (s.setContext message (some { context with pendingWrite })).links = s.links := fun _ =>
      links_setContext_same hcontext rfl
    dsimp only at h
    split at h
    case h_1 =>
      cases h
      exact hset _
    case h_2 b _ =>
      split at h
      case h_1 => cases h
      case h_2 backend hbackend =>
        split at h
        · cases h
          exact Eq.trans (links_setBackend_same hbackend (by rfl)) (hset _)
        · cases h
          exact hset _

/-- The write of a client that completes. -/
def writeAt (c index : Nat) (s : ProxyHandler) : Option ProxyWrite := (s.clients c).bind fun client => client.writes[index]?

/-- The write that completes is the last one of an exchange, which ends. -/
def Ends (c index message : Nat) (keepAlive : Bool) (s : ProxyHandler) : Prop :=
  ∃ write, s.writeAt c index = some write ∧ write.callback = .cleanup message keepAlive

/-- A write that completes leaves the links as they are, or ends the exchange that it was the last one of. -/
theorem completeWrite_cases {depth index size : Nat} (h : s.completeWrite depth c index size = some s') :
    s'.links = s.links ∨ ∃ (message : Nat) (keepAlive : Bool) (exchange : ProxyExchange) (t : ProxyHandler),
      s.Ends c index message keepAlive ∧ s.links.Releases message exchange ∧
      t.links = s.links.release message exchange ∧
      (if keepAlive then s' = t else t.closeConnection depth exchange.connection = some s') := by
  unfold completeWrite at h
  split at h
  case h_1 =>
    cases h
    exact .inl rfl
  case h_2 client hclient =>
    split at h
    case h_1 =>
      cases h
      exact .inl rfl
    case h_2 write hwrite =>
      have hset : (s.setClient c (some { client with writes := client.writes.eraseIdx index })).links = s.links :=
        links_setClient_same hclient rfl rfl
      dsimp only at h
      split at h
      case h_1 message _ =>
        split at h
        · cases h
          exact .inl hset
        · exact .inl ((pendingHandler_links h).trans hset)
      case h_2 message keepAlive hcallback =>
        have hends : s.Ends c index message keepAlive := ⟨write, by simp [writeAt, hclient, hwrite], hcallback⟩
        split at h
        · cases h
          exact .inl hset
        · unfold cleanupHandler at h
          split at h
          case h_1 => cases h
          case h_2 context hcontext =>
            obtain ⟨t, hunset, hclosed⟩ := Option.bind_eq_some_iff.mp h
            obtain ⟨exchange, hreleases, hlinks⟩ := unsetHandler_links hunset
            rw [hset] at hreleases hlinks
            have hsame : context.exchange = exchange :=
              Option.some.inj ((links_exchanges hcontext).symm.trans (hset ▸ hreleases.found))
            refine .inr ⟨message, keepAlive, exchange, t, hends, hreleases, hlinks, ?_⟩
            subst hsame
            cases keepAlive with
            | true => exact (Option.some.inj hclosed).symm
            | false => exact hclosed

/-! ## The close of a client -/

theorem unsetAll_connectionsMap {messages : List Nat} (h : unsetAll messages s = some s') :
    s'.links.connectionsMap = s.links.connectionsMap :=
  unsetAll_keeps (I := fun o => o.connectionsMap = s.links.connectionsMap) (fun _ _ _ ho _ => ho) h rfl

/-- A client that was to call the handler of the proxy before the proxy took it over never comes to an end. -/
theorem closeProxyConnection_endless {depth : Nat} (h : s.onCloseMap c = some .closeProxyConnection) :
    closeProxyConnection depth c s = none := by
  induction depth generalizing s with
  | zero => rfl
  | succ depth ih =>
      unfold closeProxyConnection
      dsimp only
      simp only [h]
      split
      case h_1 => rfl
      case h_2 client hclient =>
        have hset : (s.setClient c (some { client with onClose := some .closeProxyConnection })).onCloseMap c =
            some .closeProxyConnection := h
        rw [ih hset, Option.bind_none]

theorem closeBackend_closed (h : s.closeBackend b = some s') : s'.closed = s.closed := by
  unfold closeBackend closeBackendHandler restoreClient at h
  split at h
  case h_1 => cases h
  case h_2 backend _ =>
    obtain ⟨u, hclosed, rfl⟩ := Option.map_eq_some_iff.mp h
    obtain ⟨t, hrestored, hdetached⟩ := Option.bind_eq_some_iff.mp hclosed
    have ht : t.closed = s.closed := by
      split at hrestored
      · cases hrestored
        rfl
      · split at hrestored
        · cases hrestored
        · cases hrestored
          rfl
    have hu : u.closed = t.closed := by
      split at hdetached
      · cases hdetached
        rfl
      · split at hdetached
        · cases hdetached
        · cases hdetached
          rfl
    exact hu.trans ht

theorem unsetHandler_closed (h : s.unsetHandler message = some s') : s'.closed = s.closed := by
  unfold unsetHandler at h
  split at h
  case h_1 => cases h
  case h_2 =>
    split at h
    case h_1 => cases h
    case h_2 =>
      dsimp only at h
      split at h
      case h_1 =>
        cases h
        rfl
      case h_2 =>
        split at h
        case h_1 => cases h
        case h_2 =>
          cases h
          rfl

theorem unsetAll_closed {messages : List Nat} (h : unsetAll messages s = some s') : s'.closed = s.closed := by
  induction messages generalizing s with
  | nil =>
      cases h
      rfl
  | cons message messages ih =>
      obtain ⟨t, hunset, hrest⟩ := Option.bind_eq_some_iff.mp h
      exact (ih hrest).trans (unsetHandler_closed hunset)

/-- The exchanges that are let go of are gone. -/
theorem unsetAll_gone {messages : List Nat} (h : unsetAll messages s = some s') (hmem : message ∈ messages) :
    s'.links.exchanges message = none := by
  induction messages generalizing s with
  | nil => cases hmem
  | cons first messages ih =>
      obtain ⟨t, hunset, hrest⟩ := Option.bind_eq_some_iff.mp h
      rcases List.mem_cons.mp hmem with rfl | hmem
      · obtain ⟨exchange, -, hlinks⟩ := unsetHandler_links hunset
        refine unsetAll_keeps (I := fun o => o.exchanges message = none) (fun o other exchange ho _ => ?_) hrest ?_
        · by_cases hm : message = other
          · simp [ProxyLinks.release, hm]
          · simpa [ProxyLinks.release, hm] using ho
        · simp [hlinks, ProxyLinks.release]
      · exact ih hrest hmem

/-- The close of a client of the proxy: what the client was to call as it closed lets go of its messages, then the
backend connection of it is closed and the association undone. -/
theorem closeProxyConnection_cases {depth : Nat} (h : closeProxyConnection depth c s = some s') :
    ∃ t : ProxyHandler,
      (s.onCloseMap c = none ∧ t = s ∨
        s.onCloseMap c = some .closeHandlerStreamHttp ∧ ∃ client, s.clients c = some client ∧
          (s.setClient c (some { client with onClose := some .closeHandlerStreamHttp })).closeHandlerStreamHttp c =
            some t) ∧
      (s.connectionsMap c = none ∧ s'.links = t.links.dissociate c ∧ s'.contexts = t.contexts ∧
          s'.backends = t.backends ∨
        ∃ b u, s.connectionsMap c = some b ∧ t.closeBackend b = some u ∧
          s'.links = (u.links.forget b).dissociate c ∧ s'.contexts = u.contexts ∧ s'.backends = u.backends) := by
  cases depth with
  | zero => cases h
  | succ depth =>
      have hendless : s.onCloseMap c = some .closeProxyConnection → closeProxyConnection (depth + 1) c s = none :=
        closeProxyConnection_endless
      have hclosed := h
      unfold closeProxyConnection at hclosed
      dsimp only at hclosed
      obtain ⟨t, hpropagated, hundone⟩ := Option.bind_eq_some_iff.mp hclosed
      obtain ⟨v, hv, rfl⟩ := Option.map_eq_some_iff.mp hundone
      refine ⟨t, ?_, ?_⟩
      · split at hpropagated
        case h_1 hnone => exact .inl ⟨hnone, (Option.some.inj hpropagated).symm⟩
        case h_2 onClose hsome =>
          split at hpropagated
          case h_1 => cases hpropagated
          case h_2 client hclient =>
            cases onClose with
            | closeHandlerStreamHttp => exact .inr ⟨hsome, client, hclient, hpropagated⟩
            | closeProxyConnection => cases (hendless hsome).symm.trans h
      · split at hv
        case h_1 hnone =>
          cases hv
          exact .inl ⟨hnone, rfl, rfl, rfl⟩
        case h_2 b hsome =>
          obtain ⟨u, hu, rfl⟩ := Option.map_eq_some_iff.mp hv
          exact .inr ⟨b, u, hsome, hu, rfl, rfl, rfl⟩

end ProxyHandler

namespace ProxyLinks

/-- What the close of a client keeps: whatever it calls, the release of the exchanges, the loss of the backend connection
of the client and the end of the association. -/
structure Withstands (c : Nat) (I : ProxyLinks → Prop) : Prop where
  setOnClose : ∀ {o onClose}, I o → o.onClose c ≠ none → I (o.setOnClose c onClose)
  release : ∀ {o message exchange}, I o → o.Releases message exchange → I (o.release message exchange)
  dissociate : ∀ {o}, I o → o.connectionsMap c = none → I (o.dissociate c)
  undo : ∀ {o b parameters}, I o → o.connectionsMap c = some b → o.parameters b = some parameters →
    (∀ message, parameters = some message → o.exchanges message ≠ none) →
    I (((o.lose b parameters).forget b).dissociate c)
  remove : ∀ {o}, I o → I (o.remove c)

theorem Withstands.and {c : Nat} {I J : ProxyLinks → Prop} (hI : Withstands c I) (hJ : Withstands c J) :
    Withstands c fun o => I o ∧ J o where
  setOnClose h hopen := ⟨hI.setOnClose h.1 hopen, hJ.setOnClose h.2 hopen⟩
  release h hreleases := ⟨hI.release h.1 hreleases, hJ.release h.2 hreleases⟩
  dissociate h hmap := ⟨hI.dissociate h.1 hmap, hJ.dissociate h.2 hmap⟩
  undo h hmap hparameters hexchange := ⟨hI.undo h.1 hmap hparameters hexchange, hJ.undo h.2 hmap hparameters hexchange⟩
  remove h := ⟨hI.remove h.1, hJ.remove h.2⟩

/-- No exchange of a client starts while one is being closed. -/
theorem withstands_exchanges (c c' : Nat) (messages : List Nat) :
    Withstands c fun o => ∀ message exchange, o.exchanges message = some exchange → exchange.connection = c' →
      message ∈ messages where
  setOnClose h _ := h
  release := by
    intro o message exchange h _ message' other hother
    have hm : message' ≠ message := by
      rintro rfl
      simp [ProxyLinks.release] at hother
    exact h message' other (by simpa [ProxyLinks.release, hm] using hother)
  dissociate h _ := h
  undo := by
    intro o b parameters h _ _ _ message exchange hexchange
    obtain ⟨held, hold, -⟩ := exchange_of_lose hexchange
    have hmem := h message _ hold
    exact hmem
  remove h := h

end ProxyLinks

namespace ProxyHandler

variable {s s' : ProxyHandler} {b c message depth : Nat} {I : ProxyLinks → Prop}

theorem closeHandlerStreamHttp_keeps (hI : ProxyLinks.Withstands c I) (h : s.closeHandlerStreamHttp c = some s')
    (hs : I s.links) : I s'.links ∧ s'.links.connectionsMap = s.links.connectionsMap := by
  obtain ⟨t, hunset, hlinks, -⟩ := closeHandlerStreamHttp_links h
  rw [hlinks]
  exact ⟨unsetAll_keeps (fun _ _ _ => hI.release) hunset hs, unsetAll_connectionsMap hunset⟩

theorem closeProxyConnection_keeps (hI : ProxyLinks.Withstands c I) (h : closeProxyConnection depth c s = some s')
    (hs : I s.links) : I s'.links ∧ s'.links.connectionsMap c = none := by
  obtain ⟨t, hpropagated, hundone⟩ := closeProxyConnection_cases h
  have ht : I t.links ∧ t.links.connectionsMap = s.links.connectionsMap := by
    rcases hpropagated with ⟨-, rfl⟩ | ⟨-, client, hclient, hclosed⟩
    · exact ⟨hs, rfl⟩
    · have hset : (s.setClient c (some { client with onClose := some .closeHandlerStreamHttp })).links =
          s.links.setOnClose c (some .closeHandlerStreamHttp) := links_setClient_onClose hclient
      have hopen : s.links.onClose c ≠ none := by simp [links_onClose hclient]
      obtain ⟨hkept, hmap⟩ := closeHandlerStreamHttp_keeps hI hclosed (hset ▸ hI.setOnClose hs hopen)
      refine ⟨hkept, hmap.trans ?_⟩
      rw [hset]
      rfl
  obtain ⟨ht, hmap⟩ := ht
  have hsame : t.links.connectionsMap c = s.connectionsMap c := congrFun hmap c
  rcases hundone with ⟨hnone, hlinks, -⟩ | ⟨b, u, hsome, hclosed, hlinks, -⟩
  · rw [hlinks]
    exact ⟨hI.dissociate ht (hsame.trans hnone), by simp [ProxyLinks.dissociate]⟩
  · obtain ⟨parameters, hparameters, hexchange, hlose⟩ := closeBackend_links hclosed
    rw [hlinks, hlose]
    exact ⟨hI.undo ht (hsame.trans hsome) hparameters hexchange, by simp [ProxyLinks.dissociate]⟩

/-- What withstands the close of a client is kept by it; the client is gone, and so is its association if it was to call
the handler of the proxy. -/
theorem closeConnection_keeps (hI : ProxyLinks.Withstands c I) (h : s.closeConnection depth c = some s')
    (hs : I s.links) :
    I s'.links ∧ s'.links.onClose c = none ∧
      (s'.links.connectionsMap c = none ∨
        s.links.onClose c ≠ some (some .closeProxyConnection) ∧ s'.links.connectionsMap = s.links.connectionsMap) := by
  unfold closeConnection at h
  split at h
  case h_1 hnone =>
    cases h
    have hclosed : s.links.onClose c = none := by simp [links, hnone]
    exact ⟨hs, hclosed, .inr ⟨by simp [hclosed], rfl⟩⟩
  case h_2 client hclient =>
    obtain ⟨t, hcalled, rfl⟩ := Option.map_eq_some_iff.mp h
    have hremove : (t.setClient c none).links = t.links.remove c := by
      rw [links_setClient]
      rfl
    have honClose := links_onClose hclient
    rw [hremove]
    split at hcalled
    case h_1 hnone =>
      cases hcalled
      refine ⟨hI.remove hs, by simp [ProxyLinks.remove], .inr ⟨?_, rfl⟩⟩
      simp [honClose, hnone]
    case h_2 hsome =>
      obtain ⟨ht, hmap⟩ := closeHandlerStreamHttp_keeps hI hcalled hs
      refine ⟨hI.remove ht, by simp [ProxyLinks.remove], .inr ⟨?_, hmap⟩⟩
      simp [honClose, hsome]
    case h_3 =>
      obtain ⟨ht, hmap⟩ := closeProxyConnection_keeps hI hcalled hs
      exact ⟨hI.remove ht, by simp [ProxyLinks.remove], .inl hmap⟩

/-- The close of a client lets go of the messages that it serves. -/
def Releasing (s : ProxyHandler) (c : Nat) : Prop :=
  s.links.onClose c = some (some .closeHandlerStreamHttp) ∨
    s.links.onClose c = some (some .closeProxyConnection) ∧ s.onCloseMap c = some .closeHandlerStreamHttp

/-- The close of a client lets go of its exchanges, and starts none. -/
theorem closeConnection_unsets (h : s.closeConnection depth c = some s') (hcalls : s.Releasing c) :
    ∃ t u, (t.links.exchanges = s.links.exchanges ∧ t.links.parameters = s.links.parameters) ∧
      unsetAll (s.links.messages c) t = some u ∧
      ∀ message, u.links.exchanges message = none → s'.links.exchanges message = none := by
  have hclient : s.clients c ≠ none := by
    intro hnone
    simp [Releasing, links, hnone] at hcalls
  obtain ⟨client, hclient⟩ := Option.ne_none_iff_exists'.mp hclient
  have honClose := links_onClose hclient
  unfold closeConnection at h
  simp only [hclient] at h
  obtain ⟨v, hcalled, rfl⟩ := Option.map_eq_some_iff.mp h
  have hremove : (v.setClient c none).links.exchanges = v.links.exchanges := by rw [links_setClient]
  rw [hremove]
  rcases hcalls with hcalls | ⟨hcalls, hcallsMap⟩
  · have hcalls' : client.onClose = some .closeHandlerStreamHttp := by simpa [honClose] using hcalls
    simp only [hcalls'] at hcalled
    obtain ⟨u, hunset, hlinks, -⟩ := closeHandlerStreamHttp_links hcalled
    exact ⟨s, u, ⟨rfl, rfl⟩, hunset, fun _ hnone => hlinks ▸ hnone⟩
  · have hcalls' : client.onClose = some .closeProxyConnection := by simpa [honClose] using hcalls
    simp only [hcalls'] at hcalled
    obtain ⟨t, hpropagated, hundone⟩ := closeProxyConnection_cases hcalled
    rcases hpropagated with ⟨hnone, -⟩ | ⟨-, client', hclient', hclosed⟩
    · simp [hcallsMap] at hnone
    · obtain ⟨u, hunset, hlinks, -⟩ := closeHandlerStreamHttp_links hclosed
      rw [links_setClient_onClose hclient'] at hunset
      refine ⟨_, u, ⟨?_, ?_⟩, hunset, fun message hnone => ?_⟩
      · rw [links_setClient_onClose hclient']
        rfl
      · rw [links_setClient_onClose hclient']
        rfl
      · rcases hundone with ⟨-, hundone, -⟩ | ⟨b, w, -, hlost, hundone, -⟩
        · simpa [hundone, ProxyLinks.dissociate, hlinks] using hnone
        · obtain ⟨parameters, -, -, hlose⟩ := closeBackend_links hlost
          simp [hundone, ProxyLinks.dissociate, ProxyLinks.forget, hlose, ProxyLinks.lose_exchanges, hlinks, hnone]

/-! ## Steps -/

/-- What a step may do. -/
inductive Steps (depth : Nat) (s : ProxyHandler) : ProxyInput → ProxyHandler → Prop
  | same {input : ProxyInput} {s' : ProxyHandler}
      (hother : ∀ c keepAlive method path created, input ≠ .request c keepAlive method path created)
      (hlinks : s'.links = s.links) : Steps depth s input s'
  | ignored {c : Nat} {keepAlive : Bool} {method path : Bytes} {created : Option Nat} {s' : ProxyHandler}
      (hignored : s.links.onClose c = none ∨ ∃ b, created = some b ∧ s.links.parameters b ≠ none)
      (hlinks : s'.links = s.links) : Steps depth s (.request c keepAlive method path created) s'
  | accepted {c : Nat} {session : Bool} {s' : ProxyHandler} (hclosed : s.links.onClose c = none)
      (hlinks : s'.links = s.links.accept c) : Steps depth s (.accept c session) s'
  | dispatched {c : Nat} {keepAlive : Bool} {method path : Bytes} {created : Option Nat} {s' : ProxyHandler}
      (hopen : s.links.onClose c ≠ none) (hfresh : ∀ b, created = some b → s.links.parameters b = none)
      (htakes : (s.links.dispatch c).Takes s.nextMessage c created s'.links) :
      Steps depth s (.request c keepAlive method path created) s'
  | settled {b message : Nat} {callbacks : List BackendCallback} {exchange : ProxyExchange} {s' : ProxyHandler}
      (hparameters : s.links.parameters b = some (some message)) (hexchange : s.links.exchanges message = some exchange)
      (hlinks : s'.links = s.links.settle message exchange) : Steps depth s (.data b callbacks) s'
  | released {message : Nat} {exchange : ProxyExchange} {s' : ProxyHandler}
      (hreleases : s.links.Releases message exchange) (hlinks : s'.links = s.links.release message exchange) :
      Steps depth s (.unset message) s'
  | ended {c index size message : Nat} {keepAlive : Bool} {exchange : ProxyExchange} {t s' : ProxyHandler}
      (hends : s.Ends c index message keepAlive) (hreleases : s.links.Releases message exchange)
      (hlinks : t.links = s.links.release message exchange)
      (hclosed : if keepAlive then s' = t else t.closeConnection depth exchange.connection = some s') :
      Steps depth s (.written c index size) s'
  | lost {b : Nat} {parameters : Option Nat} {s' : ProxyHandler} (hparameters : s.links.parameters b = some parameters)
      (hexchange : ∀ message, parameters = some message → s.links.exchanges message ≠ none)
      (hlinks : s'.links = s.links.lose b parameters) : Steps depth s (.lost b) s'
  | closed {c : Nat} {s' : ProxyHandler} (hclosed : s.closeConnection depth c = some s') : Steps depth s (.close c) s'

theorem step_cases {input : ProxyInput} (h : step depth input s = some s') : Steps depth s input s' := by
  cases input with
  | accept c session =>
      simp only [step] at h
      split at h
      case isTrue =>
        cases h
        exact .same nofun rfl
      case isFalse hclosed =>
        cases h
        have hnone : s.clients c = none := by simpa using hclosed
        refine .accepted (by simp [links, hnone]) ?_
        rw [links_setClient]
        rfl
  | request c keepAlive method path created =>
      simp only [step] at h
      split at h
      case h_1 hnone =>
        cases h
        exact .ignored (.inl (by simp [links, hnone])) rfl
      case h_2 client hclient =>
        split at h
        case isTrue hopen =>
          cases h
          obtain ⟨b, hcreated, hb⟩ := (Option.any_eq_true _ _).mp hopen
          obtain ⟨backend, hbackend⟩ := Option.isSome_iff_exists.mp hb
          exact .ignored (.inr ⟨b, hcreated, by simp [links_parameters hbackend]⟩) rfl
        case isFalse hfresh =>
          refine .dispatched (by simp [links_onClose hclient]) (fun b hb => ?_) ?_
          · subst hb
            have hnone : s.backends b = none := by simpa using hfresh
            simp [links, hnone]
          · have hset : (s.setHandler c client (client.session || keepAlive)).links = s.links.dispatch c :=
              setHandler_links hclient
            rw [← hset]
            have hcontext : (s.setHandler c client (client.session || keepAlive)).contexts s.nextMessage = some {
                connection := c
                connectionC := none
                keepAlive := client.session || keepAlive
                buffer := []
                outBuffer := []
                pending := false
                pendingWrite := 0 } := by simp [setHandler]
            unfold virtualUrl at h
            rw [hcontext] at h
            dsimp only at h
            split at h
            · cases h
            · exact takeBackend_links h
  | callback message callback =>
      simp only [step] at h
      split at h
      · cases h
        exact .same nofun rfl
      · exact .same nofun (clientCallback_links h)
  | data b callbacks =>
      rcases dataBackendHandler_links h with hlinks | ⟨message, exchange, hparameters, hexchange, hlinks⟩
      · exact .same nofun hlinks
      · exact .settled hparameters hexchange hlinks
  | written c index size =>
      rcases completeWrite_cases h with hlinks | ⟨message, keepAlive, exchange, t, hends, hreleases, hlinks, hclosed⟩
      · exact .same nofun hlinks
      · exact .ended hends hreleases hlinks hclosed
  | unset message =>
      simp only [step] at h
      split at h
      · cases h
        exact .same nofun rfl
      · obtain ⟨exchange, hreleases, hlinks⟩ := unsetHandler_links h
        exact .released hreleases hlinks
  | lost b =>
      simp only [step] at h
      split at h
      · cases h
        exact .same nofun rfl
      · obtain ⟨parameters, hparameters, hexchange, hlinks⟩ := closeBackend_links h
        exact .lost hparameters hexchange hlinks
  | close c => exact .closed h

/-! ## Runs -/

/-- What every step that meets a condition keeps, a run of such steps keeps. -/
theorem run_along {J : ProxyHandler → Prop} {condition : ProxyInput → ProxyHandler → Prop}
    (hstep : ∀ input s s', condition input s → step depth input s = some s' → J s → J s') {inputs : List ProxyInput}
    (halong : Along depth condition inputs s) (h : run depth inputs s = some s') (hs : J s) : J s' := by
  induction inputs generalizing s with
  | nil =>
      cases h
      exact hs
  | cons input inputs ih =>
      obtain ⟨t, hfirst, hrest⟩ := Option.bind_eq_some_iff.mp h
      obtain ⟨hcondition, halong⟩ := halong t hfirst
      exact ih halong hrest (hstep input s t hcondition hfirst hs)

theorem along_append {condition : ProxyInput → ProxyHandler → Prop} {earlier later : List ProxyInput} :
    Along depth condition (earlier ++ later) s ↔ Along depth condition earlier s ∧
      ∀ s', run depth earlier s = some s' → Along depth condition later s' := by
  induction earlier generalizing s with
  | nil => simp [Along, run]
  | cons input earlier ih =>
      simp only [List.cons_append, Along, ih, run, List.foldlM_cons]
      constructor
      · intro h
        refine ⟨fun s' hs' => ⟨(h s' hs').1, (h s' hs').2.1⟩, fun s' hrun => ?_⟩
        obtain ⟨t, ht, hrun⟩ := Option.bind_eq_some_iff.mp hrun
        exact (h t ht).2.2 s' hrun
      · rintro ⟨h, hlater⟩ t ht
        exact ⟨(h t ht).1, (h t ht).2, fun s' hrun => hlater s' (Option.bind_eq_some_iff.mpr ⟨t, ht, hrun⟩)⟩

/-- What holds in every state of a run exactly when every step of it meets a condition: an invariant is kept by the steps
that meet it, and what is to hold fails after one that does not. -/
theorem always_iff_along {I P : ProxyHandler → Prop} {condition : ProxyInput → ProxyHandler → Prop}
    (hkeeps : ∀ input s s', I s → condition input s → step depth input s = some s' → I s') (hI : ∀ s, I s → P s)
    (hneeds : ∀ input s s', I s → step depth input s = some s' → P s' → condition input s) (inputs : List ProxyInput)
    (hs : I s) :
    (∀ earlier s', earlier <+: inputs → run depth earlier s = some s' → P s') ↔ Along depth condition inputs s := by
  constructor
  · intro h
    induction inputs generalizing s with
    | nil => trivial
    | cons input inputs ih =>
        intro s' hstep
        have hfirst : run depth [input] s = some s' := by simp [run, hstep]
        have hcondition := hneeds input s s' hs hstep (h [input] s' ⟨inputs, rfl⟩ hfirst)
        refine ⟨hcondition, ih (hkeeps input s s' hs hcondition hstep) fun earlier t hprefix hrun => ?_⟩
        exact h (input :: earlier) t (List.prefix_cons_inj input |>.mpr hprefix) (by simpa [run, hstep] using hrun)
  · rintro halong earlier s' ⟨later, rfl⟩ hrun
    have hearlier : Along depth condition earlier s := (along_append.mp halong).1
    exact hI s' (run_along (fun input s s' hcondition hstep hs => hkeeps input s s' hs hcondition hstep) hearlier hrun hs)

/-- What holds of every step of a run exactly when every step of it meets a condition: an invariant is kept by the steps
that meet it and makes what is to hold of a step the same as the condition. -/
theorem every_step_iff_along {I : ProxyHandler → Prop} {P : ProxyInput → ProxyHandler → ProxyHandler → Prop}
    {condition : ProxyInput → ProxyHandler → Prop}
    (hkeeps : ∀ input s s', I s → condition input s → step depth input s = some s' → I s')
    (hP : ∀ input s s', I s → step depth input s = some s' → (P input s s' ↔ condition input s)) (inputs : List ProxyInput)
    (hs : I s) :
    (∀ earlier input t t', earlier ++ [input] <+: inputs → run depth earlier s = some t → step depth input t = some t' →
      P input t t') ↔ Along depth condition inputs s := by
  constructor
  · intro h
    induction inputs generalizing s with
    | nil => trivial
    | cons input inputs ih =>
        intro s' hstep
        have hcondition := (hP input s s' hs hstep).mp (h [] input s s' ⟨inputs, rfl⟩ rfl hstep)
        refine ⟨hcondition, ih (hkeeps input s s' hs hcondition hstep) fun earlier next t t' hprefix hrun hnext => ?_⟩
        exact h (input :: earlier) next t t' (List.prefix_cons_inj input |>.mpr hprefix) (by simpa [run, hstep] using hrun)
          hnext
  · rintro halong earlier input t t' ⟨later, rfl⟩ hrun hstep
    rw [List.append_assoc, along_append] at halong
    have ht := run_along (fun input s s' hcondition hstep hs => hkeeps input s s' hs hcondition hstep) halong.1 hrun hs
    exact (hP input t t' ht hstep).mpr (halong.2 t hrun t' hstep).1

end ProxyHandler

end Viriatum
