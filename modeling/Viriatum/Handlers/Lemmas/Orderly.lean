import Viriatum.Handlers.Lemmas.Proxy

/-!
# The order that the proxy keeps

What holds between the clients, the exchanges and the backend connections of the proxy as long as no connection takes
the place of one that is in use, and as long as none is lost that is still pointed at.
-/

namespace Viriatum

open Function (update)

namespace ProxyLinks

variable {o o' : ProxyLinks} {b c message : Nat} {closing : Option Nat} {exchange : ProxyExchange}

/-- What the clients serve are exchanges of their own, which have been numbered. -/
structure Listed (o : ProxyLinks) : Prop where
  fresh : ∀ message, o.nextMessage ≤ message → o.exchanges message = none
  listed : ∀ c message, message ∈ o.messages c → ∃ exchange, o.exchanges message = some exchange ∧ exchange.connection = c
  nodup : ∀ c, (o.messages c).Nodup

namespace Listed

/-- Neither the numbers of the exchanges nor the clients of them change. -/
theorem frame (h : Listed o) (hmessages : o'.messages = o.messages) (hnext : o'.nextMessage = o.nextMessage)
    (hnone : ∀ message, o.exchanges message = none → o'.exchanges message = none)
    (hsome : ∀ message exchange, o.exchanges message = some exchange →
      ∃ exchange', o'.exchanges message = some exchange' ∧ exchange'.connection = exchange.connection) : Listed o' where
  fresh message hmessage := hnone message (h.fresh message (hnext ▸ hmessage))
  listed c message hmem := by
    obtain ⟨exchange, hexchange, hc⟩ := h.listed c message (hmessages ▸ hmem)
    obtain ⟨exchange', hexchange', hc'⟩ := hsome message exchange hexchange
    exact ⟨exchange', hexchange', hc'.trans hc⟩
  nodup c := hmessages ▸ h.nodup c

theorem silence (h : Listed o) {onClose : Nat → Option (Option OnClose)} :
    Listed { o with onClose, messages := update o.messages c [] } where
  fresh := h.fresh
  listed c' message hmem := by
    by_cases hc : c' = c
    · simp [hc] at hmem
    · exact h.listed c' message (by simpa [hc] using hmem)
  nodup c' := by
    by_cases hc : c' = c
    · simp [hc]
    · simpa [hc] using h.nodup c'

/-- The message that is dispatched is none of the messages served. -/
theorem next_notMem (h : Listed o) : o.nextMessage ∉ o.messages c := by
  intro hmem
  obtain ⟨exchange, hexchange, -⟩ := h.listed c _ hmem
  simp [h.fresh _ (Nat.le_refl _)] at hexchange

theorem dispatch (h : Listed o) : Listed (o.dispatch c) where
  fresh message hmessage := by
    have hlt : o.nextMessage < message := hmessage
    simpa [ProxyLinks.dispatch, (Nat.ne_of_lt hlt).symm] using h.fresh message (Nat.le_of_lt hlt)
  listed c' message hmem := by
    by_cases hm : message = o.nextMessage
    · have hc : c' = c := by
        by_contra hc
        simp only [ProxyLinks.dispatch, ne_eq, hc, not_false_eq_true, Function.update_of_ne, hm] at hmem
        exact h.next_notMem hmem
      exact ⟨{ connection := c, connectionC := none, pending := false }, by simp [ProxyLinks.dispatch, hm], hc.symm⟩
    · have hold : message ∈ o.messages c' := by
        by_cases hc : c' = c
        · subst hc
          simpa [ProxyLinks.dispatch, hm] using hmem
        · simpa [ProxyLinks.dispatch, hc] using hmem
      obtain ⟨exchange, hexchange, hconnection⟩ := h.listed c' message hold
      exact ⟨exchange, by simpa [ProxyLinks.dispatch, hm] using hexchange, hconnection⟩
  nodup c' := by
    by_cases hc : c' = c
    · simpa [ProxyLinks.dispatch, hc] using (List.nodup_append.mpr ⟨h.nodup c, by simp, by
        simpa using fun a ha hsame => h.next_notMem (hsame ▸ ha)⟩)
    · simpa [ProxyLinks.dispatch, hc] using h.nodup c'

theorem replace (h : Listed o) (hexchange : o.exchanges message = some exchange) {exchange' : ProxyExchange}
    (hconnection : exchange'.connection = exchange.connection) :
    Listed { o with exchanges := update o.exchanges message (some exchange') } := by
  refine h.frame rfl rfl (fun message' hnone => ?_) fun message' other hother => ?_
  · have hm : message' ≠ message := by
      rintro rfl
      simp [hnone] at hexchange
    simpa [hm] using hnone
  · by_cases hm : message' = message
    · obtain rfl : exchange = other := by simpa [hm, hexchange] using hother
      exact ⟨exchange', by simp [hm], hconnection⟩
    · exact ⟨other, by simpa [hm] using hother, rfl⟩

theorem release (h : Listed o) (hreleases : o.Releases message exchange) : Listed (o.release message exchange) where
  fresh message' hmessage := by
    by_cases hm : message' = message
    · simp [ProxyLinks.release, hm]
    · simpa [ProxyLinks.release, hm] using h.fresh message' hmessage
  listed c message' hmem := by
    have hkept : message' ∈ o.messages c ∧ message' ≠ message := by
      by_cases hc : c = exchange.connection
      · have herase : message' ∈ (o.messages exchange.connection).erase message := by
          simpa [ProxyLinks.release, hc] using hmem
        rw [hc]
        exact ((h.nodup exchange.connection).mem_erase_iff.mp herase).symm
      · have hold : message' ∈ o.messages c := by simpa [ProxyLinks.release, hc] using hmem
        refine ⟨hold, ?_⟩
        rintro rfl
        obtain ⟨other, hother, hconnection⟩ := h.listed c message' hold
        obtain rfl : exchange = other := by simpa [hreleases.found] using hother
        exact hc hconnection.symm
    obtain ⟨other, hother, hconnection⟩ := h.listed c message' hkept.1
    exact ⟨other, by simpa [ProxyLinks.release, hkept.2] using hother, hconnection⟩
  nodup c := by
    by_cases hc : c = exchange.connection
    · simpa [ProxyLinks.release, hc] using (h.nodup exchange.connection).erase message
    · simpa [ProxyLinks.release, hc] using h.nodup c

theorem lose (h : Listed o) (parameters : Option Nat) : Listed (o.lose b parameters) := by
  refine h.frame lose_messages lose_nextMessage (fun message hnone => ?_) fun message exchange hexchange => ?_
  · simp [lose_exchanges, hnone]
  · rw [lose_exchanges, hexchange]
    split
    · exact ⟨_, rfl, rfl⟩
    · exact ⟨exchange, rfl, rfl⟩

end Listed

/-- The order of the links; the client that is being closed, where there is one, is out of it. -/
structure Orderly (closing : Option Nat) (o : ProxyLinks) : Prop extends Listed o where
  served : ∀ message exchange, o.exchanges message = some exchange → closing ≠ some exchange.connection →
    o.onClose exchange.connection ≠ none ∧ message ∈ o.messages exchange.connection
  held : ∀ message exchange b, o.exchanges message = some exchange → closing ≠ some exchange.connection →
    exchange.connectionC = some b → o.connectionsMap exchange.connection = some b
  carried : ∀ b message, o.parameters b = some (some message) →
    ∃ exchange, o.exchanges message = some exchange ∧ exchange.connectionC = some b
  mapped : ∀ c b, closing ≠ some c → o.connectionsMap c = some b →
    o.onClose c = some (some .closeProxyConnection) ∧ o.onCloseMap c = some .closeHandlerStreamHttp ∧
      o.parameters b ≠ none
  unmapped : ∀ c, closing ≠ some c → o.onClose c ≠ none → o.connectionsMap c = none →
    o.onClose c = some (some .closeHandlerStreamHttp)
  single : ∀ c c' b, o.connectionsMap c = some b → o.connectionsMap c' = some b → c = c'
  back : ∀ b c, o.reverseMap b = some c → o.connectionsMap c = some b

namespace Orderly

theorem weaken (h : Orderly none o) (c : Nat) : Orderly (some c) o where
  toListed := h.toListed
  served message exchange hexchange _ := h.served message exchange hexchange nofun
  held message exchange b hexchange _ := h.held message exchange b hexchange nofun
  carried := h.carried
  mapped c b _ := h.mapped c b nofun
  unmapped c _ := h.unmapped c nofun
  single := h.single
  back := h.back

/-- A client that is closed and that nothing points at any more is in order. -/
theorem close (h : Orderly (some c) o) (hclosed : o.onClose c = none)
    (hexchanges : ∀ message exchange, o.exchanges message = some exchange → exchange.connection ≠ c)
    (hmap : o.connectionsMap c = none) : Orderly none o where
  toListed := h.toListed
  served message exchange hexchange _ :=
    h.served message exchange hexchange fun hsame => hexchanges message exchange hexchange (Option.some.inj hsame).symm
  held message exchange b hexchange _ :=
    h.held message exchange b hexchange fun hsame => hexchanges message exchange hexchange (Option.some.inj hsame).symm
  carried := h.carried
  mapped c' b _ hc' := by
    by_cases hc : c' = c
    · simp [hc, hmap] at hc'
    · exact h.mapped c' b (by simpa using Ne.symm hc) hc'
  unmapped c' _ hopen hc' := by
    by_cases hc : c' = c
    · simp [hc, hclosed] at hopen
    · exact h.unmapped c' (by simpa using Ne.symm hc) hopen hc'
  single := h.single
  back := h.back

theorem accept (h : Orderly none o) (hclosed : o.onClose c = none) : Orderly none (o.accept c) where
  toListed := h.toListed.silence
  served message exchange hexchange hother := by
    obtain ⟨hopen, hmem⟩ := h.served message exchange hexchange hother
    have hne : exchange.connection ≠ c := fun hsame => hopen (hsame ▸ hclosed)
    simpa [ProxyLinks.accept, hne] using ⟨hopen, hmem⟩
  held := h.held
  carried := h.carried
  mapped c' b hother hmap := by
    have hne : c' ≠ c := by
      rintro rfl
      simp [(h.mapped c' b hother hmap).1] at hclosed
    simpa [ProxyLinks.accept, hne] using h.mapped c' b hother hmap
  unmapped c' hother hopen hmap := by
    by_cases hc : c' = c
    · simp [ProxyLinks.accept, hc]
    · simp only [ProxyLinks.accept, ne_eq, hc, not_false_eq_true, Function.update_of_ne] at hopen hmap ⊢
      exact h.unmapped c' hother hopen hmap
  single := h.single
  back := h.back

/-- Every exchange of a client may be let go of. -/
theorem releases (h : Orderly none o) (hmem : message ∈ o.messages c) :
    ∃ exchange, o.Releases message exchange := by
  obtain ⟨exchange, hexchange, -⟩ := h.listed c message hmem
  refine ⟨exchange, hexchange, (h.served message exchange hexchange nofun).1, fun b hb => ?_⟩
  exact (h.mapped exchange.connection b nofun (h.held message exchange b hexchange nofun hb)).2.2

theorem dispatch (h : Orderly none o) (hopen : o.onClose c ≠ none) : Orderly none (o.dispatch c) where
  toListed := h.toListed.dispatch
  served message exchange hexchange hother := by
    by_cases hm : message = o.nextMessage
    · obtain rfl : exchange = { connection := c, connectionC := none, pending := false } := by
        simpa [ProxyLinks.dispatch, hm] using hexchange.symm
      simp [ProxyLinks.dispatch, hm, hopen]
    · have hold : o.exchanges message = some exchange := by simpa [ProxyLinks.dispatch, hm] using hexchange
      obtain ⟨hopen', hmem⟩ := h.served message exchange hold hother
      refine ⟨hopen', ?_⟩
      by_cases hc : exchange.connection = c
      · rw [hc] at hmem
        simp [ProxyLinks.dispatch, hc, hmem]
      · simpa [ProxyLinks.dispatch, hc] using hmem
  held message exchange b hexchange hother hb := by
    by_cases hm : message = o.nextMessage
    · obtain rfl : exchange = { connection := c, connectionC := none, pending := false } := by
        simpa [ProxyLinks.dispatch, hm] using hexchange.symm
      cases hb
    · exact h.held message exchange b (by simpa [ProxyLinks.dispatch, hm] using hexchange) hother hb
  carried b message hparameters := by
    obtain ⟨exchange, hexchange, hb⟩ := h.carried b message hparameters
    have hm : message ≠ o.nextMessage := by
      rintro rfl
      simp [h.fresh _ (Nat.le_refl _)] at hexchange
    exact ⟨exchange, by simpa [ProxyLinks.dispatch, hm] using hexchange, hb⟩
  mapped := h.mapped
  unmapped := h.unmapped
  single := h.single
  back := h.back

/-- What the exchange of a message points at is replaced, but for its client. -/
theorem replace (h : Orderly closing o) (hexchange : o.exchanges message = some exchange) {exchange' : ProxyExchange}
    (hconnection : exchange'.connection = exchange.connection)
    (hheld : ∀ b, exchange'.connectionC = some b → o.connectionsMap exchange.connection = some b)
    (hcarried : ∀ b, o.parameters b = some (some message) → exchange'.connectionC = some b) :
    Orderly closing { o with exchanges := update o.exchanges message (some exchange') } where
  toListed := h.toListed.replace hexchange hconnection
  served message' other hother hclosing := by
    by_cases hm : message' = message
    · obtain rfl : exchange' = other := by simpa [hm] using hother
      rw [hconnection] at hclosing ⊢
      exact hm ▸ h.served message exchange hexchange hclosing
    · exact h.served message' other (by simpa [hm] using hother) hclosing
  held message' other b hother hclosing hb := by
    by_cases hm : message' = message
    · obtain rfl : exchange' = other := by simpa [hm] using hother
      rw [hconnection]
      exact hheld b hb
    · exact h.held message' other b (by simpa [hm] using hother) hclosing hb
  carried b message' hparameters := by
    by_cases hm : message' = message
    · exact ⟨exchange', by simp [hm], hcarried b (hm ▸ hparameters)⟩
    · simpa [hm] using h.carried b message' hparameters
  mapped := h.mapped
  unmapped := h.unmapped
  single := h.single
  back := h.back

/-- No backend connection carries the exchange of a message that holds none. -/
theorem uncarried (h : Orderly closing o) (hexchange : o.exchanges message = some exchange)
    (hheld : exchange.connectionC = none) : o.parameters b ≠ some (some message) := by
  intro hparameters
  obtain ⟨other, hother, hb⟩ := h.carried b message hparameters
  obtain rfl : exchange = other := by simpa [hexchange] using hother
  simp [hheld] at hb

/-- A backend connection carries from here on the exchange of a message that holds it. -/
theorem carry (h : Orderly closing o) (hexchange : o.exchanges message = some exchange)
    (hb : exchange.connectionC = some b) :
    Orderly closing { o with parameters := update o.parameters b (some (some message)) } where
  toListed := ⟨h.fresh, h.listed, h.nodup⟩
  served := h.served
  held := h.held
  carried b' message' hparameters := by
    by_cases hsame : b' = b
    · obtain rfl : message = message' := by simpa [hsame] using hparameters
      exact ⟨exchange, hexchange, hsame ▸ hb⟩
    · exact h.carried b' message' (by simpa [hsame] using hparameters)
  mapped c' b' hclosing hmap := by
    obtain ⟨honClose, honCloseMap, hopen⟩ := h.mapped c' b' hclosing hmap
    refine ⟨honClose, honCloseMap, ?_⟩
    by_cases hsame : b' = b
    · simp [hsame]
    · simpa [hsame] using hopen
  unmapped := h.unmapped
  single := h.single
  back := h.back

theorem reuse (h : Orderly closing o) (hexchange : o.exchanges message = some exchange)
    (hheld : exchange.connectionC = none) (hmap : o.connectionsMap exchange.connection = some b) :
    Orderly closing (o.reuse message exchange.connection b) := by
  have htaken : Orderly closing { o with
      exchanges := update o.exchanges message
        (some { connection := exchange.connection, connectionC := some b, pending := true }) } :=
    h.replace hexchange rfl (fun b' hb' => (Option.some.inj hb') ▸ hmap)
      fun b' hb' => absurd hb' (h.uncarried hexchange hheld)
  exact htaken.carry (Function.update_self ..) rfl

/-- A backend connection that is not open is not pointed at. -/
theorem create (h : Orderly none o) (hexchange : o.exchanges message = some exchange)
    (hheld : exchange.connectionC = none)
    (hmap : o.connectionsMap exchange.connection = none) (hclosed : o.parameters b = none) :
    Orderly none (o.create message exchange.connection b (some .closeHandlerStreamHttp)) where
  toListed := by
    have hreplaced : Listed { o with
        exchanges := update o.exchanges message
          (some { connection := exchange.connection, connectionC := some b, pending := true }) } :=
      h.toListed.replace hexchange rfl
    exact ⟨hreplaced.fresh, hreplaced.listed, hreplaced.nodup⟩
  served := by
    have hserved := h.served
    simp only [ProxyLinks.create]
    grind [Function.update_apply]
  held := by
    have hheld := h.held
    simp only [ProxyLinks.create]
    grind [Function.update_apply]
  carried := by
    have hcarried := h.carried
    simp only [ProxyLinks.create]
    grind [Function.update_apply]
  mapped := by
    have hmapped := h.mapped
    simp only [ProxyLinks.create]
    grind [Function.update_apply]
  unmapped := by
    have hunmapped := h.unmapped
    simp only [ProxyLinks.create]
    grind [Function.update_apply]
  single := by
    have hsingle := h.single
    have hmapped := h.mapped
    simp only [ProxyLinks.create]
    grind [Function.update_apply]
  back := by
    have hback := h.back
    simp only [ProxyLinks.create]
    grind [Function.update_apply]

theorem leave (h : Orderly closing o) : Orderly closing (o.leave c) where
  toListed := h.toListed.frame leave_messages leave_nextMessage (fun message hnone => by simpa using hnone)
    fun message exchange hexchange => ⟨exchange, by simpa using hexchange, rfl⟩
  served := by simpa using h.served
  held := by simpa using h.held
  carried := by simpa using h.carried
  mapped := by simpa using h.mapped
  unmapped := by simpa using h.unmapped
  single := by simpa using h.single
  back b' c' hback := by
    cases hmap : o.connectionsMap c with
    | none =>
        simp only [ProxyLinks.leave, hmap] at hback ⊢
        exact h.back b' c' hback
    | some b =>
        simp only [ProxyLinks.leave, hmap] at hback ⊢
        by_cases hb : b' = b
        · simp [hb] at hback
        · exact h.back b' c' (by simpa [hb] using hback)

theorem settle (h : Orderly none o) (hexchange : o.exchanges message = some exchange) :
    Orderly none (o.settle message exchange) := by
  apply h.replace hexchange
  · rfl
  · exact fun b hb => h.held message exchange b hexchange nofun hb
  · intro b hb
    obtain ⟨other, hother, hheld⟩ := h.carried b message hb
    obtain rfl : exchange = other := by simpa [hexchange] using hother
    exact hheld

theorem release (h : Orderly closing o) (hreleases : o.Releases message exchange) :
    Orderly closing (o.release message exchange) where
  toListed := h.toListed.release hreleases
  served message' other hother hclosing := by
    have hm : message' ≠ message := by
      rintro rfl
      simp [ProxyLinks.release] at hother
    obtain ⟨hopen, hmem⟩ := h.served message' other (by simpa [ProxyLinks.release, hm] using hother) hclosing
    refine ⟨hopen, ?_⟩
    by_cases hc : other.connection = exchange.connection
    · rw [hc] at hmem
      simpa [ProxyLinks.release, hc] using (List.mem_erase_of_ne hm).mpr hmem
    · simpa [ProxyLinks.release, hc] using hmem
  held message' other b hother hclosing hb := by
    have hm : message' ≠ message := by
      rintro rfl
      simp [ProxyLinks.release] at hother
    exact h.held message' other b (by simpa [ProxyLinks.release, hm] using hother) hclosing hb
  carried b message' hparameters := by
    obtain ⟨hold, hb⟩ := release_carries hparameters
    obtain ⟨other, hother, hheld⟩ := h.carried b message' hold
    have hm : message' ≠ message := by
      rintro rfl
      obtain rfl : exchange = other := by simpa [hreleases.found] using hother
      exact hb hheld
    exact ⟨other, by simpa [ProxyLinks.release, hm] using hother, hheld⟩
  mapped c b hclosing hmap := by
    obtain ⟨honClose, honCloseMap, hopen⟩ := h.mapped c b hclosing hmap
    exact ⟨honClose, honCloseMap, release_open hopen⟩
  unmapped := h.unmapped
  single := h.single
  back := h.back

theorem lose (h : Orderly closing o) {parameters : Option Nat} (hparameters : o.parameters b = some parameters)
    (hback : ∀ c, closing ≠ some c → o.connectionsMap c = some b → o.reverseMap b = some c)
    (hheld : ∀ message exchange, o.exchanges message = some exchange → closing ≠ some exchange.connection →
      exchange.connectionC = some b → parameters = some message) : Orderly closing (o.lose b parameters) where
  toListed := h.toListed.lose parameters
  served message exchange hexchange hclosing := by
    obtain ⟨held, hold, -⟩ := exchange_of_lose hexchange
    obtain ⟨hopen, hmem⟩ := h.served message _ hold hclosing
    refine ⟨?_, by simpa using hmem⟩
    rw [lose_maps.2.1]
    split
    · exact Option.some_ne_none _
    · exact hopen
  held message exchange b' hexchange hclosing hb := by
    obtain ⟨held, hold, hsame⟩ := exchange_of_lose hexchange
    split at hsame
    case isTrue => simp [hsame] at hb
    case isFalse hne =>
      obtain rfl : exchange.connectionC = held := hsame
      have hmap := h.held message _ b' hold hclosing hb
      have hb' : b' ≠ b := by
        rintro rfl
        exact hne (hheld message _ hold hclosing hb)
      rw [lose_maps.1]
      split
      case isTrue hreverse =>
        have hmap' := h.back b exchange.connection hreverse
        rw [hmap, Option.some.injEq] at hmap'
        exact absurd hmap' hb'
      case isFalse => exact hmap
  carried b' message hcarries := by
    have hb : b' ≠ b := by
      rintro rfl
      simp at hcarries
    obtain ⟨exchange, hexchange, hheld'⟩ := h.carried b' message (by simpa [hb] using hcarries)
    have hne : parameters ≠ some message := by
      rintro rfl
      obtain ⟨other, hother, hheld''⟩ := h.carried b message hparameters
      obtain rfl : exchange = other := by simpa [hexchange] using hother
      rw [hheld', Option.some.injEq] at hheld''
      exact hb hheld''
    exact ⟨exchange, by simpa [lose_exchanges, hne] using hexchange, hheld'⟩
  mapped c b' hclosing hmap := by
    rw [lose_maps.1] at hmap
    split at hmap
    case isTrue => cases hmap
    case isFalse hne =>
      have hb : b' ≠ b := by
        rintro rfl
        exact hne (hback c hclosing hmap)
      simpa [lose_maps, hne, hb] using h.mapped c b' hclosing hmap
  unmapped c hclosing hopen hmap := by
    rw [lose_maps.2.1] at hopen ⊢
    rw [lose_maps.1] at hmap
    split
    case isTrue hreverse => rw [(h.mapped c b hclosing (h.back b c hreverse)).2.1]
    case isFalse hne =>
      simp only [hne, if_false] at hopen hmap
      exact h.unmapped c hclosing hopen hmap
  single c c' b' hmap hmap' := by
    rw [lose_maps.1] at hmap hmap'
    split at hmap
    case isTrue => cases hmap
    case isFalse =>
      split at hmap'
      case isTrue => cases hmap'
      case isFalse => exact h.single c c' b' hmap hmap'
  back b' c hreverse := by
    have hb : b' ≠ b := by
      rintro rfl
      simp [lose_reverseMap] at hreverse
    have hmap := h.back b' c (by simpa [lose_reverseMap, hb] using hreverse)
    rw [lose_maps.1]
    split
    case isTrue hreverse' =>
      rw [h.back b c hreverse', Option.some.injEq] at hmap
      exact absurd hmap.symm hb
    case isFalse => exact hmap

/-- A client that is being closed is out of the order: its association may be undone. -/
theorem dissociate (h : Orderly (some c) o) (hback : ∀ b, o.reverseMap b ≠ some c) :
    Orderly (some c) (o.dissociate c) where
  toListed := ⟨h.fresh, h.listed, h.nodup⟩
  served := h.served
  held message exchange b hexchange hclosing hb := by
    have hc : exchange.connection ≠ c := fun hsame => hclosing (congrArg some hsame.symm)
    simpa [ProxyLinks.dissociate, hc] using h.held message exchange b hexchange hclosing hb
  carried := h.carried
  mapped c' b hclosing hmap := by
    have hc : c' ≠ c := fun hsame => hclosing (congrArg some hsame.symm)
    simpa [ProxyLinks.dissociate, hc] using h.mapped c' b hclosing (by simpa [ProxyLinks.dissociate, hc] using hmap)
  unmapped c' hclosing hopen hmap := by
    have hc : c' ≠ c := fun hsame => hclosing (congrArg some hsame.symm)
    exact h.unmapped c' hclosing hopen (by simpa [ProxyLinks.dissociate, hc] using hmap)
  single c' c'' b hmap hmap' := by
    have hother : ∀ c', (o.dissociate c).connectionsMap c' = some b → o.connectionsMap c' = some b := by
      intro c' hmap
      have hc : c' ≠ c := by
        rintro rfl
        simp [ProxyLinks.dissociate] at hmap
      simpa [ProxyLinks.dissociate, hc] using hmap
    exact h.single c' c'' b (hother c' hmap) (hother c'' hmap')
  back b c' hreverse := by
    have hc : c' ≠ c := by
      rintro rfl
      exact hback b hreverse
    simpa [ProxyLinks.dissociate, hc] using h.back b c' hreverse

theorem forget (h : Orderly closing o) : Orderly closing (o.forget b) where
  toListed := ⟨h.fresh, h.listed, h.nodup⟩
  served := h.served
  held := h.held
  carried := h.carried
  mapped := h.mapped
  unmapped := h.unmapped
  single := h.single
  back b' c hreverse := by
    by_cases hb : b' = b
    · simp [ProxyLinks.forget, hb] at hreverse
    · exact h.back b' c (by simpa [ProxyLinks.forget, hb] using hreverse)

/-- What a client that is being closed calls, and the messages that it serves, are out of the order. -/
theorem elsewhere (h : Orderly (some c) o) {onClose : Nat → Option (Option OnClose)} {messages : Nat → List Nat}
    (honClose : ∀ c', c' ≠ c → onClose c' = o.onClose c') (hmessages : ∀ c', c' ≠ c → messages c' = o.messages c')
    (hlisted : Listed { o with onClose, messages }) : Orderly (some c) { o with onClose, messages } where
  toListed := hlisted
  served message exchange hexchange hclosing := by
    have hc : exchange.connection ≠ c := fun hsame => hclosing (congrArg some hsame.symm)
    simpa [honClose _ hc, hmessages _ hc] using h.served message exchange hexchange hclosing
  held := h.held
  carried := h.carried
  mapped c' b hclosing hmap := by
    have hc : c' ≠ c := fun hsame => hclosing (congrArg some hsame.symm)
    simpa [honClose c' hc] using h.mapped c' b hclosing hmap
  unmapped c' hclosing hopen hmap := by
    have hc : c' ≠ c := fun hsame => hclosing (congrArg some hsame.symm)
    simp only [honClose c' hc] at hopen ⊢
    exact h.unmapped c' hclosing hopen hmap
  single := h.single
  back := h.back

/-- The close of a client keeps the order of what is left. -/
theorem withstands (c : Nat) : Withstands c (Orderly (some c)) where
  setOnClose h _ := h.elsewhere (fun c' hc => by simp [hc]) (fun _ _ => rfl) ⟨h.fresh, h.listed, h.nodup⟩
  release := release
  dissociate h hmap := by
    refine h.dissociate fun b hreverse => ?_
    simp [h.back b c hreverse] at hmap
  undo := by
    intro o b parameters h hmap hparameters _
    have hlost : Orderly (some c) (o.lose b parameters) := by
      refine h.lose hparameters (fun c' hclosing hmap' => ?_) fun message exchange hexchange hclosing hb => ?_
      · exact absurd (congrArg some (h.single c c' b hmap hmap')) hclosing
      · have hmap' := h.held message exchange b hexchange hclosing hb
        exact absurd (congrArg some (h.single c exchange.connection b hmap hmap')) hclosing
    refine hlost.forget.dissociate fun b' hreverse => ?_
    have hb : b' ≠ b := by
      rintro rfl
      simp [ProxyLinks.forget] at hreverse
    have hreverse' : o.reverseMap b' = some c := by simpa [ProxyLinks.forget, lose_reverseMap, hb] using hreverse
    have hmap' := h.back b' c hreverse'
    rw [hmap, Option.some.injEq] at hmap'
    exact hb hmap'.symm
  remove h := h.elsewhere (fun c' hc => by simp [hc]) (fun c' hc => by simp [hc]) h.toListed.silence

end Orderly

end ProxyLinks

end Viriatum
