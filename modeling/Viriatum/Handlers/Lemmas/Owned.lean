import Viriatum.Handlers.Lemmas.Orderly

/-!
# What the exchanges of the proxy own

The backend connections and the exchanges that hold them, and what the operations of the proxy touch of them.
-/

namespace Viriatum

open Function (update)

namespace ProxyLinks

variable {o : ProxyLinks} {b c message : Nat} {exchange : ProxyExchange}

/-- The parameters of a backend connection belong to the exchange that holds it. -/
structure Owned (o : ProxyLinks) : Prop extends Listed o where
  owned : ∀ b message, o.parameters b = some (some message) ↔
    ∃ exchange, o.exchanges message = some exchange ∧ exchange.connectionC = some b

namespace Owned

theorem single (h : Owned o) {other : Nat} {exchange' : ProxyExchange} (hexchange : o.exchanges message = some exchange)
    (hb : exchange.connectionC = some b) (hother : o.exchanges other = some exchange')
    (hb' : exchange'.connectionC = some b) : message = other := by
  have hparameters := (h.owned b message).mpr ⟨exchange, hexchange, hb⟩
  have hparameters' := (h.owned b other).mpr ⟨exchange', hother, hb'⟩
  simpa [hparameters] using hparameters'

/-- Neither the parameters nor what the exchanges hold change. -/
theorem frame {o' : ProxyLinks} (h : Owned o) (hmessages : o'.messages = o.messages)
    (hnext : o'.nextMessage = o.nextMessage) (hparameters : o'.parameters = o.parameters)
    (hexchanges : o'.exchanges = o.exchanges) : Owned o' where
  toListed := h.toListed.frame hmessages hnext (fun message hnone => by rw [hexchanges, hnone])
    fun message exchange hexchange => ⟨exchange, by rw [hexchanges, hexchange], rfl⟩
  owned := by
    rw [hparameters, hexchanges]
    exact h.owned

/-- The exchange of a message that is dispatched takes a backend connection that no other one holds. -/
theorem take (h : Owned o) (hexchange : o.exchanges message = some exchange) (hnone : exchange.connectionC = none)
    (hfree : ∀ other, o.parameters b ≠ some (some other)) :
    Owned { o with
      parameters := update o.parameters b (some (some message))
      exchanges := update o.exchanges message
        (some { connection := exchange.connection, connectionC := some b, pending := true }) } where
  toListed := by
    have hreplaced : Listed { o with
        exchanges := update o.exchanges message
          (some { connection := exchange.connection, connectionC := some b, pending := true }) } :=
      h.toListed.replace hexchange rfl
    exact ⟨hreplaced.fresh, hreplaced.listed, hreplaced.nodup⟩
  owned b' message' := by
    have howned := h.owned b' message'
    have hfree' := hfree message'
    by_cases hm : message' = message
    · subst hm
      by_cases hb : b' = b
      · simp [hb]
      · have hparameters : o.parameters b' ≠ some (some message') := by simp [howned, hexchange, hnone]
        simp [hb, Ne.symm hb, hparameters]
    · by_cases hb : b' = b
      · subst hb
        simpa [hm, Ne.symm hm, hfree'] using howned
      · simpa [hm, hb] using howned

theorem fail (h : Owned o) (hexchange : o.exchanges message = some exchange) (hnone : exchange.connectionC = none) :
    Owned (o.fail message exchange.connection) where
  toListed := h.toListed.replace hexchange rfl
  owned b message' := by
    have howned := h.owned b message'
    by_cases hm : message' = message
    · subst hm
      simpa [ProxyLinks.fail, hexchange, hnone] using howned
    · simpa [ProxyLinks.fail, hm] using howned

theorem dispatch (h : Owned o) : Owned (o.dispatch c) where
  toListed := h.toListed.dispatch
  owned b message' := by
    have howned := h.owned b message'
    by_cases hm : message' = o.nextMessage
    · subst hm
      simpa [ProxyLinks.dispatch, h.fresh _ (Nat.le_refl _)] using howned
    · simpa [ProxyLinks.dispatch, hm] using howned

theorem settle (h : Owned o) (hexchange : o.exchanges message = some exchange) : Owned (o.settle message exchange) where
  toListed := h.toListed.replace hexchange rfl
  owned b message' := by
    have howned := h.owned b message'
    by_cases hm : message' = message
    · subst hm
      simpa [ProxyLinks.settle, hexchange] using howned
    · simpa [ProxyLinks.settle, hm] using howned

theorem release (h : Owned o) (hreleases : o.Releases message exchange) : Owned (o.release message exchange) where
  toListed := h.toListed.release hreleases
  owned b message' := by
    constructor
    · intro hparameters
      obtain ⟨hold, hb⟩ := release_carries hparameters
      obtain ⟨other, hother, hheld⟩ := (h.owned b message').mp hold
      have hm : message' ≠ message := by
        rintro rfl
        obtain rfl : exchange = other := by simpa [hreleases.found] using hother
        exact hb hheld
      exact ⟨other, by simpa [ProxyLinks.release, hm] using hother, hheld⟩
    · rintro ⟨other, hother, hheld⟩
      have hm : message' ≠ message := by
        rintro rfl
        simp [ProxyLinks.release] at hother
      have hother' : o.exchanges message' = some other := by simpa [ProxyLinks.release, hm] using hother
      have hparameters := (h.owned b message').mpr ⟨other, hother', hheld⟩
      cases hconnection : exchange.connectionC with
      | none => simpa [ProxyLinks.release, hconnection] using hparameters
      | some b' =>
          have hb : b ≠ b' := by
            rintro rfl
            exact hm (h.single hother' hheld hreleases.found hconnection)
          simpa [ProxyLinks.release, hconnection, hb] using hparameters

theorem lose (h : Owned o) {parameters : Option Nat} (hparameters : o.parameters b = some parameters) :
    Owned (o.lose b parameters) where
  toListed := h.toListed.lose parameters
  owned b' message := by
    constructor
    · intro hcarries
      have hb : b' ≠ b := by
        rintro rfl
        simp at hcarries
      obtain ⟨exchange, hexchange, hheld⟩ := (h.owned b' message).mp (by simpa [hb] using hcarries)
      have hne : parameters ≠ some message := by
        rintro rfl
        obtain ⟨other, hother, hheld'⟩ := (h.owned b message).mp hparameters
        obtain rfl : exchange = other := by simpa [hexchange] using hother
        rw [hheld, Option.some.injEq] at hheld'
        exact hb hheld'
      exact ⟨exchange, by simpa [lose_exchanges, hne] using hexchange, hheld⟩
    · rintro ⟨exchange, hexchange, hheld⟩
      obtain ⟨held, hold, hsame⟩ := exchange_of_lose hexchange
      split at hsame
      case isTrue => simp [hsame] at hheld
      case isFalse hne =>
        obtain rfl : exchange.connectionC = held := hsame
        have hcarries := (h.owned b' message).mpr ⟨_, hold, hheld⟩
        have hb : b' ≠ b := by
          rintro rfl
          rw [hparameters, Option.some.injEq] at hcarries
          exact hne hcarries
        simpa [hb] using hcarries

/-- The close of a client keeps what the exchanges that are left own. -/
theorem withstands (c : Nat) : Withstands c Owned where
  setOnClose h _ := h.frame rfl rfl rfl rfl
  release := release
  dissociate h _ := h.frame rfl rfl rfl rfl
  undo := by
    intro o b parameters h _ hparameters _
    exact (h.lose hparameters).frame rfl rfl rfl rfl
  remove h := ⟨h.toListed.silence, h.owned⟩

end Owned

end ProxyLinks

namespace ProxyHandler

variable {s t s' : ProxyHandler} {b c message : Nat} {held : Option Nat} {exchange : ProxyExchange}

/-- Only the exchange of a message and the backend connection that it holds are touched. -/
structure Only (message : Nat) (held : Option Nat) (s s' : ProxyHandler) : Prop where
  contexts : ∀ other, other ≠ message → s'.contexts other = s.contexts other
  backends : ∀ b, held ≠ some b → s'.backends b = s.backends b

namespace Only

theorem same (hcontexts : s'.contexts = s.contexts) (hbackends : s'.backends = s.backends) : Only message held s s' where
  contexts _ _ := by rw [hcontexts]
  backends _ _ := by rw [hbackends]

theorem trans (h : Only message held s t) (h' : Only message held t s') : Only message held s s' where
  contexts other hother := (h'.contexts other hother).trans (h.contexts other hother)
  backends b hb := (h'.backends b hb).trans (h.backends b hb)

theorem setContext {context : Option HandlerProxyContext} : Only message held s (s.setContext message context) where
  contexts other hother := by simp [ProxyHandler.setContext, hother]
  backends _ _ := rfl

theorem setBackend {backend : Option ProxyBackend} : Only message (some b) s (s.setBackend b backend) where
  contexts _ _ := rfl
  backends b' hb := by
    have hne : b' ≠ b := fun hsame => hb (congrArg some hsame.symm)
    simp [ProxyHandler.setBackend, hne]

end Only

theorem writeClient_only {write : ProxyWrite} (h : s.writeClient c write = some s') : Only message held s s' := by
  unfold writeClient at h
  split at h
  case h_1 => cases h
  case h_2 =>
    cases h
    exact .same rfl rfl

theorem unsetHandler_only (h : s.unsetHandler message = some s') :
    ∃ exchange, s.links.exchanges message = some exchange ∧ Only message exchange.connectionC s s' := by
  unfold unsetHandler at h
  split at h
  case h_1 => cases h
  case h_2 context hcontext =>
    refine ⟨context.exchange, links_exchanges hcontext, ?_⟩
    split at h
    case h_1 => cases h
    case h_2 client _ =>
      have hclient : Only message context.exchange.connectionC s (s.setClient context.connection
          (some { client with messages := client.messages.erase message })) := .same rfl rfl
      have hset : Only message context.exchange.connectionC s ((s.setClient context.connection
          (some { client with messages := client.messages.erase message })).setContext message none) :=
        hclient.trans .setContext
      dsimp only at h
      split at h
      case h_1 =>
        cases h
        exact hset
      case h_2 b hsome =>
        split at h
        case h_1 => cases h
        case h_2 =>
          cases h
          have hheld : context.exchange.connectionC = some b := hsome
          rw [hheld] at hset ⊢
          exact hset.trans .setBackend

theorem clientCallback_only {callback : ClientCallback} (h : s.clientCallback message callback = some s') :
    ∃ exchange, s.links.exchanges message = some exchange ∧ Only message exchange.connectionC s s' := by
  unfold clientCallback at h
  split at h
  case h_1 => cases h
  case h_2 context hcontext =>
    refine ⟨context.exchange, links_exchanges hcontext, ?_⟩
    cases callback with
    | messageComplete =>
        dsimp only at h
        split at h
        · split at h
          · cases h
          · exact writeClient_only h
        case h_2 b hsome =>
          split at h
          case h_1 => cases h
          case h_2 =>
            cases h
            have hheld : context.exchange.connectionC = some b := hsome
            rw [hheld]
            exact .setBackend
    | _ =>
        cases h
        exact .setContext

theorem account_only {context : HandlerProxyContext} {size : Nat} (hheld : context.connectionC = held) :
    Only message held s (s.account message context size) := by
  subst hheld
  unfold account
  dsimp only
  split
  case h_1 => exact .setContext
  case h_2 b hsome =>
    rw [hsome]
    split
    case h_1 => exact .setContext
    case h_2 =>
      split
      · exact .trans .setContext .setBackend
      · exact .setContext

theorem backendCallback_only {callback : BackendCallback} (h : s.backendCallback message callback = some s') :
    ∃ exchange, s.links.exchanges message = some exchange ∧ Only message exchange.connectionC s s' := by
  unfold backendCallback at h
  split at h
  case h_1 => cases h
  case h_2 context hcontext =>
    refine ⟨context.exchange, links_exchanges hcontext, ?_⟩
    split at h
    case h_1 => cases h
    case h_2 client hclient =>
      cases callback with
      | line written | field written =>
          cases h
          exact .setContext
      | headersComplete written =>
          obtain ⟨t, hwrite, rfl⟩ := Option.map_eq_some_iff.mp h
          exact (writeClient_only hwrite).trans (account_only rfl)
      | body data =>
          dsimp only at h
          split at h
          · cases h
          · obtain ⟨t, hwrite, rfl⟩ := Option.map_eq_some_iff.mp h
            exact (writeClient_only hwrite).trans (account_only rfl)
      | messageComplete major minor flags =>
          obtain ⟨t, hwrite, rfl⟩ := Option.map_eq_some_iff.mp h
          exact (writeClient_only hwrite).trans .setContext

/-- What the parser of a response calls touches the exchange that the response is for, however much of it there is. -/
theorem backendCallbacks_only {callbacks : List BackendCallback} (h : backendCallbacks message callbacks s = some s')
    (hexchange : s.links.exchanges message = some exchange) (hheld : exchange.connectionC = held) :
    Only message held s s' := by
  induction callbacks generalizing s exchange with
  | nil =>
      cases h
      exact .same rfl rfl
  | cons callback callbacks ih =>
      obtain ⟨t, hcallback, hrest⟩ := Option.bind_eq_some_iff.mp h
      obtain ⟨first, hfirst, honly⟩ := backendCallback_only hcallback
      obtain rfl : exchange = first := by simpa [hexchange] using hfirst
      rw [hheld] at honly
      obtain ⟨first, hfirst, hlinks⟩ := backendCallback_links hcallback
      obtain rfl : exchange = first := by simpa [hexchange] using hfirst
      rcases hlinks with hlinks | hlinks
      · exact honly.trans (ih hrest (hlinks ▸ hexchange) hheld)
      · have hsettled : t.links.exchanges message = some { exchange with pending := false } := by
          simp [hlinks, ProxyLinks.settle]
        exact honly.trans (ih hrest hsettled hheld)

theorem pendingHandler_only {size : Nat} (h : s.pendingHandler message size = some s') :
    ∃ exchange, s.links.exchanges message = some exchange ∧ Only message exchange.connectionC s s' := by
  unfold pendingHandler at h
  split at h
  case h_1 => cases h
  case h_2 context hcontext =>
    refine ⟨context.exchange, links_exchanges hcontext, ?_⟩
    dsimp only at h
    split at h
    case h_1 =>
      cases h
      exact .setContext
    case h_2 b hsome =>
      have hheld : context.exchange.connectionC = some b := hsome
      rw [hheld]
      split at h
      case h_1 => cases h
      case h_2 =>
        split at h
        · cases h
          exact .trans .setContext .setBackend
        · cases h
          exact .setContext

theorem associate_only {other : Nat} (h : s.associate c b other = some s') : Only message (some b) s s' := by
  unfold associate at h
  split at h
  case h_1 => cases h
  case h_2 =>
    cases h
    refine ⟨fun _ _ => rfl, fun b' hb => ?_⟩
    have hne : b' ≠ b := fun hsame => hb (congrArg some hsame.symm)
    simp [hne]

/-- A message takes a backend connection that may be reused, or one that is created for it, or none. -/
theorem takeBackend_only {context : HandlerProxyContext} {created : Option Nat}
    (h : s.takeBackend message context created = some s') :
    ∃ held, Only message held s s' ∧ ∀ b, held = some b →
      created = some b ∨ s.connectionsMap context.connection = some b ∧
        (s.links.parameters b = some none ∨ s.links.parameters b = some (some message) ∨
          s.links.Carries context.connection message false) := by
  unfold takeBackend at h
  dsimp only at h
  split at h
  case h_1 => cases h
  case h_2 hreuse =>
    obtain ⟨b, hmap, -, hfree⟩ := reuseBackend_cases hreuse
    simp only [hmap] at h
    split at h
    case h_1 => cases h
    case h_2 =>
      cases h
      refine ⟨some b, .trans .setContext .setBackend, fun b' hb => .inr ?_⟩
      obtain rfl : b = b' := by simpa using hb
      exact ⟨hmap, hfree⟩
  case h_3 =>
    have hleft : (s.leaveBehind (s.connectionsMap context.connection)).contexts = s.contexts ∧
        (s.leaveBehind (s.connectionsMap context.connection)).backends = s.backends := by
      unfold leaveBehind
      split <;> exact ⟨rfl, rfl⟩
    split at h
    case h_1 =>
      cases h
      exact ⟨none, .trans (.same hleft.1 hleft.2) .setContext, nofun⟩
    case h_2 b =>
      have honly : Only message (some b) _ s' := associate_only h
      exact ⟨some b, .trans (.same hleft.1 hleft.2) (.trans .setContext honly), fun b' hb => .inl hb⟩

/-- A backend connection that is closed takes nothing with it but the backend connection of the exchange that its
parameters belong to. -/
theorem closeBackend_frame (h : s.closeBackend b = some s') :
    (∀ message, s.links.parameters b ≠ some (some message) → s'.contexts message = s.contexts message) ∧
      ∀ b', b' ≠ b → s'.backends b' = s.backends b' := by
  unfold closeBackend closeBackendHandler at h
  split at h
  case h_1 => cases h
  case h_2 backend hbackend =>
    obtain ⟨u, hclosed, rfl⟩ := Option.map_eq_some_iff.mp h
    obtain ⟨t, hrestored, hdetached⟩ := Option.bind_eq_some_iff.mp hclosed
    have ht : t.contexts = s.contexts ∧ t.backends = s.backends := by
      split at hrestored
      · cases hrestored
        exact ⟨rfl, rfl⟩
      · rename_i hreverse
        exact (restoreClient_links hreverse hrestored).2
    have hu : (∀ message, s.links.parameters b ≠ some (some message) → u.contexts message = t.contexts message) ∧
        u.backends = t.backends := by
      split at hdetached
      case h_1 =>
        cases hdetached
        exact ⟨fun _ _ => rfl, rfl⟩
      case h_2 message hsome =>
        split at hdetached
        case h_1 => cases hdetached
        case h_2 =>
          cases hdetached
          refine ⟨fun other hother => ?_, rfl⟩
          have hm : other ≠ message := by
            rintro rfl
            exact hother ((links_parameters hbackend).trans (congrArg some hsome))
          simp [ProxyHandler.setContext, hm]
    refine ⟨fun message hm => ?_, fun b' hb => ?_⟩
    · exact (hu.1 message hm).trans (congrFun ht.1 message)
    · simp [ProxyHandler.setBackend, hb, hu.2, ht.2]

end ProxyHandler

end Viriatum
