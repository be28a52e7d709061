import Viriatum.Handlers.Lemmas.Orderly

/-!
# The close of a client of the proxy

The close of a client comes to an end and closes its HTTP connection once, in every state that the proxy reaches, unless
a backend connection takes the place of one that is in use or is lost while it is still pointed at.
-/

namespace Viriatum

open Function (update)

namespace ProxyHandler

variable {s s' : ProxyHandler} {b c message depth : Nat}

/-! ## What may be let go of -/

theorem unsetHandler_exists {exchange : ProxyExchange} (h : s.links.Releases message exchange) :
    ∃ s', s.unsetHandler message = some s' := by
  obtain ⟨context, hcontext, rfl⟩ := Option.map_eq_some_iff.mp h.found
  have hopen : s.clients context.connection ≠ none := fun hnone => h.client (by simp [links, HandlerProxyContext.exchange, hnone])
  obtain ⟨client, hclient⟩ := Option.ne_none_iff_exists'.mp hopen
  unfold unsetHandler
  simp only [hcontext, hclient]
  cases hb : context.connectionC with
  | none => exact ⟨_, rfl⟩
  | some b =>
      have hbackend : s.backends b ≠ none := fun hnone => h.backend b hb (by simp [links, hnone])
      obtain ⟨backend, hbackend⟩ := Option.ne_none_iff_exists'.mp hbackend
      simp only [setContext, setClient, hbackend]
      exact ⟨_, rfl⟩

theorem unsetAll_exists {messages : List Nat} (hnodup : messages.Nodup)
    (h : ∀ message ∈ messages, ∃ exchange, s.links.Releases message exchange) : ∃ s', unsetAll messages s = some s' := by
  induction messages generalizing s with
  | nil => exact ⟨s, rfl⟩
  | cons message messages ih =>
      obtain ⟨hmem, hnodup⟩ := List.nodup_cons.mp hnodup
      obtain ⟨exchange, hreleases⟩ := h message (by simp)
      obtain ⟨t, hunset⟩ := unsetHandler_exists hreleases
      obtain ⟨released, -, hlinks⟩ := unsetHandler_links hunset
      have hrest : ∀ message' ∈ messages, ∃ exchange, t.links.Releases message' exchange := by
        intro message' hmem'
        obtain ⟨other, hother⟩ := h message' (by simp [hmem'])
        have hm : message' ≠ message := by
          rintro rfl
          exact hmem hmem'
        rw [hlinks]
        refine ⟨other, by simpa [ProxyLinks.release, hm] using hother.found, hother.client, fun b hb => ?_⟩
        exact ProxyLinks.release_open (hother.backend b hb)
      obtain ⟨s', hs'⟩ := ih hnodup hrest
      exact ⟨s', by simp [unsetAll, hunset, hs']⟩

theorem closeBackend_exists {parameters : Option Nat} (hparameters : s.links.parameters b = some parameters)
    (hexchange : ∀ message, parameters = some message → s.links.exchanges message ≠ none)
    (hreverse : ∀ c, s.reverseMap b = some c → s.links.onClose c ≠ none) : ∃ s', s.closeBackend b = some s' := by
  obtain ⟨backend, hbackend, rfl⟩ := Option.map_eq_some_iff.mp hparameters
  unfold closeBackend
  have hrestored : ∃ t : ProxyHandler, (s.reverseMap b).elim (some s) (fun c => s.restoreClient c b) = some t ∧
      t.contexts = s.contexts := by
    cases hmap : s.reverseMap b with
    | none => exact ⟨s, rfl, rfl⟩
    | some c =>
        have hopen : s.clients c ≠ none := fun hnone => hreverse c hmap (by simp [links, hnone])
        obtain ⟨client, hclient⟩ := Option.ne_none_iff_exists'.mp hopen
        simp only [Option.elim_some, restoreClient, hclient]
        exact ⟨_, rfl, rfl⟩
  obtain ⟨t, hrestored, hcontexts⟩ := hrestored
  have hclosed : ∃ u, s.closeBackendHandler b backend = some u := by
    cases hmessage : backend.parameters with
    | none =>
        refine ⟨t, Option.bind_eq_some_iff.mpr ⟨t, ?_, by simp [hmessage]⟩⟩
        cases hmap : s.reverseMap b <;> simpa [hmap] using hrestored
    | some message =>
        have hfound : t.contexts message ≠ none := by
          intro hnone
          rw [hcontexts] at hnone
          exact hexchange message hmessage (by simp [links, hnone])
        obtain ⟨context, hcontext⟩ := Option.ne_none_iff_exists'.mp hfound
        refine ⟨_, Option.bind_eq_some_iff.mpr ⟨t, ?_, by simp only [hmessage, hcontext]; rfl⟩⟩
        cases hmap : s.reverseMap b <;> simpa [hmap] using hrestored
  obtain ⟨u, hu⟩ := hclosed
  simp only [hbackend, hu]
  exact ⟨_, rfl⟩

theorem closeHandlerStreamHttp_exists (hopen : s.links.onClose c ≠ none) (hnodup : (s.links.messages c).Nodup)
    (h : ∀ message ∈ s.links.messages c, ∃ exchange, s.links.Releases message exchange) :
    ∃ s', s.closeHandlerStreamHttp c = some s' ∧ s'.closed = c :: s.closed := by
  have hclient : s.clients c ≠ none := fun hnone => hopen (by simp [links, hnone])
  obtain ⟨client, hclient⟩ := Option.ne_none_iff_exists'.mp hclient
  rw [links_messages hclient] at h hnodup
  obtain ⟨t, ht⟩ := unsetAll_exists hnodup h
  refine ⟨{ t with closed := c :: t.closed }, ?_, by simp [unsetAll_closed ht]⟩
  simp [closeHandlerStreamHttp, hclient, ht]

/-- The close of a client that is associated with a backend connection closes it as well. -/
theorem closeProxyConnection_exists (h : s.links.Orderly none) (hmap : s.connectionsMap c = some b) :
    ∃ s', closeProxyConnection 1 c s = some s' ∧ s'.closed = c :: s.closed := by
  obtain ⟨hcalls, hcallsMap, hb⟩ := h.mapped c b nofun hmap
  obtain ⟨client, hclient, -⟩ := Option.map_eq_some_iff.mp hcalls
  have hset : (s.setClient c (some { client with onClose := some .closeHandlerStreamHttp })).links =
      s.links.setOnClose c (some .closeHandlerStreamHttp) := links_setClient_onClose hclient
  have hreleased : ∃ t, (s.setClient c (some { client with onClose := some .closeHandlerStreamHttp })).closeHandlerStreamHttp c =
      some t ∧ t.closed = c :: s.closed := by
    refine closeHandlerStreamHttp_exists ?_ ?_ ?_ <;> rw [hset]
    · simp [ProxyLinks.setOnClose]
    · exact h.nodup c
    · intro message hmem
      obtain ⟨exchange, hreleases⟩ := h.releases hmem
      exact ⟨exchange, hreleases.setOnClose⟩
  obtain ⟨t, ht, hlog⟩ := hreleased
  have hstart : (s.links.setOnClose c (some .closeHandlerStreamHttp)).Orderly (some c) :=
    (ProxyLinks.Orderly.withstands c).setOnClose (h.weaken c) (by simp [hcalls])
  have horderly : t.links.Orderly (some c) :=
    (closeHandlerStreamHttp_keeps (ProxyLinks.Orderly.withstands c) ht (hset ▸ hstart)).1
  obtain ⟨u, hunset, hlinks, -⟩ := closeHandlerStreamHttp_links ht
  have hkept : t.links.parameters b ≠ none ∧ t.links.reverseMap = s.links.reverseMap ∧
      t.links.onClose = (s.links.setOnClose c (some .closeHandlerStreamHttp)).onClose := by
    rw [hlinks]
    refine unsetAll_keeps (I := fun o => o.parameters b ≠ none ∧ o.reverseMap = s.links.reverseMap ∧
      o.onClose = (s.links.setOnClose c (some .closeHandlerStreamHttp)).onClose) ?_ hunset ?_
    · exact fun o message exchange ho _ => ⟨ProxyLinks.release_open ho.1, ho.2⟩
    · rw [hset]
      exact ⟨hb, rfl, rfl⟩
  obtain ⟨hopen, hreverse, honClose⟩ := hkept
  obtain ⟨parameters, hparameters⟩ := Option.ne_none_iff_exists'.mp hopen
  have hlost : ∃ v, t.closeBackend b = some v := by
    refine closeBackend_exists hparameters (fun message hm hnone => ?_) fun c' hc' hnone => ?_
    · obtain ⟨exchange, hexchange, -⟩ := horderly.carried b message (hm ▸ hparameters)
      simp [hnone] at hexchange
    · have hback : s.links.reverseMap b = some c' := hreverse ▸ hc'
      have hsame : c = c' := h.single c c' b hmap (h.back b c' hback)
      simp [honClose, ProxyLinks.setOnClose, hsame] at hnone
  obtain ⟨v, hv⟩ := hlost
  have hdone : ∃ s', closeProxyConnection 1 c s = some s' ∧ s'.closed = v.closed := by
    have hcallsMap' : s.onCloseMap c = some .closeHandlerStreamHttp := hcallsMap
    unfold closeProxyConnection
    simp only [hcallsMap', hclient, ht, Option.bind_some, hmap, hv, Option.map_some]
    exact ⟨_, rfl, rfl⟩
  obtain ⟨s', hs', hlog'⟩ := hdone
  exact ⟨s', hs', hlog'.trans ((closeBackend_closed hv).trans hlog)⟩

/-- The close of a client comes to an end, and closes its HTTP connection once. -/
theorem closeConnection_exists (h : s.links.Orderly none) (hopen : s.clients c ≠ none) :
    ∃ s', s.closeConnection 1 c = some s' ∧ s'.closed = c :: s.closed := by
  obtain ⟨client, hclient⟩ := Option.ne_none_iff_exists'.mp hopen
  have honClose := links_onClose hclient
  have hisOpen : s.links.onClose c ≠ none := by simp [honClose]
  cases hmap : s.connectionsMap c with
  | none =>
      have hcalls := h.unmapped c nofun hisOpen hmap
      rw [honClose, Option.some.injEq] at hcalls
      obtain ⟨t, ht, hlog⟩ := closeHandlerStreamHttp_exists hisOpen (h.nodup c) fun message => h.releases
      exact ⟨t.setClient c none, by simp [closeConnection, hclient, hcalls, ht], hlog⟩
  | some b =>
      have hcalls := (h.mapped c b nofun hmap).1
      rw [honClose, Option.some.injEq] at hcalls
      obtain ⟨t, ht, hlog⟩ := closeProxyConnection_exists h hmap
      exact ⟨t.setClient c none, by simp [closeConnection, hclient, hcalls, ht], hlog⟩

/-! ## What keeps the order -/

/-- The close of a client leaves the others in order. -/
theorem closeConnection_orderly (h : s.links.Orderly none) (hclosed : s.closeConnection depth c = some s') :
    s'.links.Orderly none := by
  by_cases hopen : s.links.onClose c = none
  · have hnone : s.clients c = none := by simpa [links] using hopen
    have hsame : s' = s := by simpa [closeConnection, hnone] using hclosed.symm
    exact hsame ▸ h
  · have hstart : s.links.Orderly (some c) ∧ ∀ message exchange, s.links.exchanges message = some exchange →
        exchange.connection = c → message ∈ s.links.messages c :=
      ⟨h.weaken c, fun message exchange hexchange hc => hc ▸ (h.served message exchange hexchange (by simp)).2⟩
    obtain ⟨⟨horderly, hexchanges⟩, hgone, hmap⟩ := closeConnection_keeps
      ((ProxyLinks.Orderly.withstands c).and (ProxyLinks.withstands_exchanges c c (s.links.messages c))) hclosed hstart
    have hcalls : s.Releasing c := by
      cases hmap : s.links.connectionsMap c with
      | none => exact .inl (h.unmapped c (by simp) hopen hmap)
      | some b => exact .inr ⟨(h.mapped c b (by simp) hmap).1, (h.mapped c b (by simp) hmap).2.1⟩
    obtain ⟨t, u, -, hunset, hnone⟩ := closeConnection_unsets hclosed hcalls
    refine horderly.close hgone (fun message exchange hexchange hc => ?_) ?_
    · have hmem := hexchanges message exchange hexchange hc
      simp [hnone message (unsetAll_gone hunset hmem)] at hexchange
    · rcases hmap with hmap | ⟨hcalls', hsame⟩
      · exact hmap
      · cases hmap : s.links.connectionsMap c with
        | none => rw [hsame, hmap]
        | some b => exact absurd (h.mapped c b (by simp) hmap).1 hcalls'

/-- No backend connection is created for a client whose own one carries another exchange that is under way, and none is
lost that a client or an exchange still points at past the way back to it. -/
def Undisturbed : ProxyInput → ProxyHandler → Prop
  | .request c _ _ _ (some b), s => s.backends b = none → ¬ s.links.Carries c s.nextMessage true
  | .lost b, s =>
      (∀ c, s.connectionsMap c = some b → s.reverseMap b = some c) ∧
        ∀ message exchange, s.links.exchanges message = some exchange → exchange.connectionC = some b →
          s.links.parameters b = some (some message)
  | _, _ => True

theorem links_nextMessage : s.links.nextMessage = s.nextMessage := rfl

/-- A message that is dispatched keeps the order, unless a backend connection takes the place of one in use. -/
theorem takes_orderly (h : s.links.Orderly none) (hopen : s.links.onClose c ≠ none) {created : Option Nat}
    (hfresh : ∀ b, created = some b → s.links.parameters b = none)
    (htakes : (s.links.dispatch c).Takes s.nextMessage c created s'.links)
    (hundisturbed : created ≠ none → ¬ s.links.Carries c s.nextMessage true) : s'.links.Orderly none := by
  have hdispatch : (s.links.dispatch c).Orderly none := h.dispatch hopen
  have hexchange : (s.links.dispatch c).exchanges s.nextMessage =
      some { connection := c, connectionC := none, pending := false } := by
    simp [ProxyLinks.dispatch, links_nextMessage]
  generalize ho : s'.links = o at htakes
  cases htakes with
  | reused b hmap _ _ => exact hdispatch.reuse hexchange rfl hmap
  | created b onClose hcreated hopen' hbusy =>
      have hmap : (s.links.dispatch c).connectionsMap c = none := by
        rcases hbusy with hnone | hcarries
        · exact hnone
        · exact absurd (ProxyLinks.carries_dispatch.mp hcarries) (hundisturbed (by simp [hcreated]))
      have hleave : (s.links.dispatch c).leave c = s.links.dispatch c := by simp [ProxyLinks.leave, hmap]
      have hcalls := h.unmapped c (by simp) hopen hmap
      have honClose : onClose = some .closeHandlerStreamHttp := by
        have hsame : s.links.onClose c = some onClose := hopen'
        rw [hcalls, Option.some.injEq] at hsame
        exact hsame.symm
      rw [hleave, honClose]
      exact hdispatch.create hexchange rfl hmap (hfresh b hcreated)
  | failed _ _ =>
      have hexchange' : ((s.links.dispatch c).leave c).exchanges s.nextMessage =
          some { connection := c, connectionC := none, pending := false } := by simpa using hexchange
      exact hdispatch.leave.replace hexchange' rfl (by simp) fun b hb => absurd hb (hdispatch.leave.uncarried hexchange' rfl)

theorem orderly_start : start.links.Orderly none where
  fresh _ _ := rfl
  served _ _ h := by cases h
  held _ _ _ h := by cases h
  listed _ _ h := by cases h
  nodup _ := List.nodup_nil
  carried _ _ h := by cases h
  mapped _ _ _ h := by cases h
  unmapped _ _ h := absurd rfl h
  single _ _ _ h := by cases h
  back _ _ h := by cases h

theorem step_orderly {input : ProxyInput} (h : s.links.Orderly none) (hundisturbed : Undisturbed input s)
    (hstep : step depth input s = some s') : s'.links.Orderly none := by
  have hsteps : Steps depth s input s' := step_cases hstep
  cases hsteps with
  | same _ hlinks | ignored _ hlinks => exact hlinks ▸ h
  | accepted hclosed hlinks => exact hlinks ▸ h.accept hclosed
  | dispatched hopen hfresh htakes =>
      refine takes_orderly h hopen hfresh htakes fun hcreated => ?_
      obtain ⟨b, rfl⟩ := Option.ne_none_iff_exists'.mp hcreated
      exact hundisturbed (by simpa [links] using hfresh b rfl)
  | settled hparameters hexchange hlinks => exact hlinks ▸ h.settle hexchange
  | released hreleases hlinks => exact hlinks ▸ h.release hreleases
  | ended _ hreleases hlinks hclosed =>
      rename_i keepAlive exchange t _
      have ht : t.links.Orderly none := hlinks ▸ h.release hreleases
      cases keepAlive with
      | true =>
          cases hclosed
          exact ht
      | false => exact closeConnection_orderly ht hclosed
  | lost hparameters hexchange hlinks =>
      rw [hlinks]
      refine h.lose hparameters (fun c _ => hundisturbed.1 c) fun message exchange hfound _ hb => ?_
      have hcarries := hundisturbed.2 message exchange hfound hb
      rw [hparameters, Option.some.injEq] at hcarries
      exact hcarries
  | closed hclosed => exact closeConnection_orderly h hclosed

/-! ## What the close does not survive -/

/-- The close of every client that is open comes to an end, and closes its HTTP connection once. -/
def ClosesOnce (s : ProxyHandler) : Prop :=
  ∀ c, s.clients c ≠ none → ∃ depth s', s.closeConnection depth c = some s' ∧ s'.closed = c :: s.closed

/-- A backend connection that is not open is closed by none of the exchanges that are let go of. -/
theorem unsetAll_stays_closed {messages : List Nat} (h : unsetAll messages s = some s')
    (hclosed : s.links.parameters b = none) : s'.links.parameters b = none := by
  refine unsetAll_keeps (I := fun o => o.parameters b = none) (fun o message exchange ho hreleases => ?_) h hclosed
  cases hconnection : exchange.connectionC with
  | none => simpa [ProxyLinks.release, hconnection] using ho
  | some b' =>
      have hb : b ≠ b' := by
        rintro rfl
        exact hreleases.backend b hconnection ho
      simpa [ProxyLinks.release, hconnection, hb] using ho

/-- An exchange that holds a backend connection that is not open cannot be let go of. -/
theorem unsetAll_held {messages : List Nat} {exchange : ProxyExchange} (h : unsetAll messages s = some s')
    (hmem : message ∈ messages) (hexchange : s.links.exchanges message = some exchange)
    (hb : exchange.connectionC = some b) (hclosed : s.links.parameters b = none) : False := by
  induction messages generalizing s with
  | nil => cases hmem
  | cons first messages ih =>
      obtain ⟨t, hunset, hrest⟩ := Option.bind_eq_some_iff.mp h
      obtain ⟨released, hreleases, hlinks⟩ := unsetHandler_links hunset
      by_cases hm : message = first
      · obtain rfl : exchange = released := by simpa [hm, hreleases.found] using hexchange.symm
        exact hreleases.backend b hb hclosed
      · have ht : t.links.parameters b = none := by
          have hone : unsetAll [first] s = some t := by simp [unsetAll, hunset]
          exact unsetAll_stays_closed hone hclosed
        exact ih hrest (by simpa [hm] using hmem) (by simpa [hlinks, ProxyLinks.release, hm] using hexchange) ht

/-- A client that was to call the handler of the proxy before the proxy took it over is never closed. -/
theorem closeConnection_endless (honClose : s.links.onClose c = some (some .closeProxyConnection))
    (h : s.onCloseMap c = some .closeProxyConnection) : s.closeConnection depth c = none := by
  obtain ⟨client, hclient, hcalls⟩ := Option.map_eq_some_iff.mp honClose
  simp [closeConnection, hclient, hcalls, closeProxyConnection_endless h]

/-- A client that is mapped to a backend connection that is not open cannot be closed. -/
theorem closeConnection_dangling (honClose : s.links.onClose c = some (some .closeProxyConnection))
    (hmap : s.connectionsMap c = some b) (hclosed : s.links.parameters b = none) : s.closeConnection depth c = none := by
  obtain ⟨client, hclient, hcalls⟩ := Option.map_eq_some_iff.mp honClose
  simp only [closeConnection, hclient, hcalls, Option.map_eq_none_iff]
  cases hresult : closeProxyConnection depth c s with
  | none => rfl
  | some s' =>
      obtain ⟨t, hpropagated, hundone⟩ := closeProxyConnection_cases hresult
      have ht : t.links.parameters b = none := by
        rcases hpropagated with ⟨-, rfl⟩ | ⟨-, client', hclient', hreleased⟩
        · exact hclosed
        · obtain ⟨u, hunset, hlinks, -⟩ := closeHandlerStreamHttp_links hreleased
          rw [hlinks]
          refine unsetAll_stays_closed hunset ?_
          rw [links_setClient_onClose hclient']
          exact hclosed
      rcases hundone with ⟨hnone, -⟩ | ⟨b', u, hsome, hlost, -⟩
      · simp [hmap] at hnone
      · obtain rfl : b = b' := by simpa [hmap] using hsome
        obtain ⟨parameters, hparameters, -⟩ := closeBackend_links hlost
        simp [ht] at hparameters

/-- A client with an exchange that holds a backend connection that is not open cannot be closed. -/
theorem closeConnection_held {exchange : ProxyExchange} (hcalls : s.Releasing c)
    (hmem : message ∈ s.links.messages c) (hexchange : s.links.exchanges message = some exchange)
    (hb : exchange.connectionC = some b) (hclosed : s.links.parameters b = none) : s.closeConnection depth c = none := by
  cases hresult : s.closeConnection depth c with
  | none => rfl
  | some s' =>
      obtain ⟨t, u, ⟨hexchanges, hparameters⟩, hunset, -⟩ := closeConnection_unsets hresult hcalls
      exact (unsetAll_held hunset hmem (hexchanges ▸ hexchange) hb (hparameters ▸ hclosed)).elim

/-- A client whose backend connection is replaced while it is in use was to call the handler of the proxy already. -/
theorem created_in_use (h : s.links.Orderly none) {keepAlive : Bool} {method path : Bytes} (hb : s.backends b = none)
    (hcarries : s.links.Carries c s.nextMessage true)
    (hstep : step depth (.request c keepAlive method path (some b)) s = some s') :
    s'.links.onClose c = some (some .closeProxyConnection) ∧ s'.onCloseMap c = some .closeProxyConnection := by
  have hdispatch : (s.links.dispatch c).Carries c s.nextMessage true := ProxyLinks.carries_dispatch.mpr hcarries
  obtain ⟨b', other, exchange, hmap, -⟩ := hcarries
  have hcalls := (h.mapped c b' nofun hmap).1
  have hsteps : Steps depth s (.request c keepAlive method path (some b)) s' := step_cases hstep
  cases hsteps with
  | same hother _ => exact absurd rfl (hother _ _ _ _ _)
  | ignored hignored _ =>
      rcases hignored with hclosed | ⟨b'', hcreated, hopen⟩
      · simp [hcalls] at hclosed
      · obtain rfl : b = b'' := by simpa using hcreated
        simp [links, hb] at hopen
  | dispatched hopen hfresh htakes =>
      generalize ho : s'.links = o at htakes ⊢
      have honCloseMap : s'.onCloseMap c = o.onCloseMap c := ho ▸ rfl
      rw [honCloseMap]
      cases htakes with
      | reused _ hmap' _ hfree => exact (hdispatch.not_free hmap' hfree).elim
      | created _ onClose _ hopen' _ =>
          have hsame : s.links.onClose c = some onClose := hopen'
          rw [hcalls, Option.some.injEq] at hsame
          simp [ProxyLinks.create, hsame]
      | failed hcreated _ => cases hcreated

/-- A backend connection that is lost leaves no client mapped to it behind. -/
theorem lost_mapped (h : s.links.Orderly none) {parameters : Option Nat} (hlinks : s'.links = s.links.lose b parameters)
    (hcloses : ClosesOnce s') (hmap : s.connectionsMap c = some b) : s.reverseMap b = some c := by
  by_contra hreverse
  have hne : s.links.reverseMap b ≠ some c := hreverse
  have honClose : s'.links.onClose c = some (some .closeProxyConnection) := by
    rw [hlinks, ProxyLinks.lose_maps.2.1, if_neg hne]
    exact (h.mapped c b nofun hmap).1
  have hmap' : s'.links.connectionsMap c = some b := by
    rw [hlinks, ProxyLinks.lose_maps.1, if_neg hne]
    exact hmap
  obtain ⟨_, _, hclosed, -⟩ := hcloses c fun hnone => by simp [links, hnone] at honClose
  simp [closeConnection_dangling honClose hmap' (by simp [hlinks])] at hclosed

/-- A backend connection that is lost is held by no exchange but the one that its parameters belong to. -/
theorem lost_held (h : s.links.Orderly none) {parameters : Option Nat} {exchange : ProxyExchange}
    (hparameters : s.links.parameters b = some parameters) (hlinks : s'.links = s.links.lose b parameters)
    (hcloses : ClosesOnce s') (hexchange : s.links.exchanges message = some exchange)
    (hb : exchange.connectionC = some b) : s.links.parameters b = some (some message) := by
  by_contra hne
  have hother : parameters ≠ some message := fun hsame => hne (hsame ▸ hparameters)
  have hexchange' : s'.links.exchanges message = some exchange := by
    rw [hlinks, ProxyLinks.lose_exchanges, if_neg hother, hexchange]
  have hmem : message ∈ s'.links.messages exchange.connection := by
    rw [hlinks, ProxyLinks.lose_messages]
    exact (h.served message exchange hexchange (by simp)).2
  obtain ⟨honClose, honCloseMap, -⟩ := h.mapped _ b nofun (h.held message exchange b hexchange (by simp) hb)
  have hcalls : s'.Releasing exchange.connection := by
    have honCloseMap' : s'.onCloseMap exchange.connection = s'.links.onCloseMap exchange.connection := rfl
    rw [Releasing, honCloseMap', hlinks, ProxyLinks.lose_maps.2.1, ProxyLinks.lose_maps.2.2]
    split
    · exact .inl (congrArg some honCloseMap)
    · exact .inr ⟨honClose, honCloseMap⟩
  obtain ⟨_, _, hclosed, -⟩ := hcloses exchange.connection fun hnone => by simp [Releasing, links, hnone] at hcalls
  simp [closeConnection_held hcalls hmem hexchange' hb (by simp [hlinks])] at hclosed

theorem undisturbed_of_closesOnce {input : ProxyInput} (h : s.links.Orderly none) (hstep : step depth input s = some s')
    (hcloses : ClosesOnce s') : Undisturbed input s := by
  cases input with
  | request c keepAlive method path created =>
      cases created with
      | none => trivial
      | some b =>
          intro hb hcarries
          obtain ⟨honClose, honCloseMap⟩ := created_in_use h hb hcarries hstep
          obtain ⟨_, _, hclosed, -⟩ := hcloses c fun hnone => by simp [links, hnone] at honClose
          simp [closeConnection_endless honClose honCloseMap] at hclosed
  | lost b =>
      simp only [step] at hstep
      split at hstep
      case isTrue hclosed =>
        have hunmapped : ∀ c, s.connectionsMap c ≠ some b := fun c hmap =>
          (h.mapped c b (by simp) hmap).2.2 (by simp [links, hclosed])
        refine ⟨fun c hmap => absurd hmap (hunmapped c), fun message exchange hexchange hb => ?_⟩
        exact absurd (h.held message exchange b hexchange (by simp) hb) (hunmapped _)
      case isFalse =>
        obtain ⟨parameters, hparameters, -, hlinks⟩ := closeBackend_links hstep
        exact ⟨fun c => lost_mapped h hlinks hcloses, fun message exchange => lost_held h hparameters hlinks hcloses⟩
  | _ => trivial

/-- The close of the clients comes to an end in every state of a run, and closes their HTTP connections once, exactly when
no backend connection takes the place of one in use in it and none is lost that is still pointed at. -/
theorem closes_once_iff (inputs : List ProxyInput) :
    (∀ earlier s, earlier <+: inputs → run depth earlier start = some s → ClosesOnce s) ↔
      Along depth Undisturbed inputs start :=
  always_iff_along (fun _ _ _ hs hundisturbed hstep => step_orderly hs hundisturbed hstep)
    (fun _ hs _ hopen => ⟨1, closeConnection_exists hs hopen⟩)
    (fun _ _ _ hs hstep hcloses => undisturbed_of_closesOnce hs hstep hcloses) inputs orderly_start

/-- Two messages of a session that are under way at once, each of them on a backend connection of its own: the client
calls the handler of the proxy again and again as it closes. -/
theorem not_closes_once : ¬ ∀ (depth : Nat) (inputs : List ProxyInput) (s : ProxyHandler),
    run depth inputs start = some s → ClosesOnce s := by
  intro h
  have hrun : ∃ s, run 1 [.accept 1 true, .request 1 true (bytes "GET") (bytes "/") (some 10),
      .request 1 true (bytes "GET") (bytes "/") (some 11)] start = some s ∧
        s.links.onClose 1 = some (some .closeProxyConnection) ∧ s.onCloseMap 1 = some .closeProxyConnection := by
    refine ⟨_, rfl, ?_, ?_⟩ <;> decide
  obtain ⟨s, hrun, honClose, honCloseMap⟩ := hrun
  obtain ⟨depth, s', hclosed, -⟩ := h _ _ s hrun 1 fun hnone => by simp [links, hnone] at honClose
  simp [closeConnection_endless honClose honCloseMap] at hclosed

end ProxyHandler

end Viriatum
