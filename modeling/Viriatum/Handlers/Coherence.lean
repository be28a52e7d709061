import Viriatum.Library.Pairing
import Viriatum.Handlers.Lemmas.Tends

/-!
# The maps of the proxy

The map of the clients and the one of the backend connections lead back to one another in every state that the proxy
reaches, unless a client is left without a connection while the one that it was associated with is under way.
-/

namespace Viriatum

open Function (update)
open Library (Paired)

namespace ProxyLinks

variable {o o' : ProxyLinks} {b c c' message : Nat}

/-- The maps lead back to one another and what a client is mapped to is open. -/
structure Associated (o : ProxyLinks) : Prop where
  paired : Paired o.connectionsMap o.reverseMap
  opened : ∀ c b, o.connectionsMap c = some b → o.parameters b ≠ none

namespace Associated

/-- What edits neither of the maps keeps them, as long as it closes no backend connection. -/
theorem frame (h : Associated o) (hmap : o'.connectionsMap = o.connectionsMap) (hreverse : o'.reverseMap = o.reverseMap)
    (hopen : ∀ b, o.parameters b ≠ none → o'.parameters b ≠ none) : Associated o' where
  paired := by
    rw [hmap, hreverse]
    exact h.paired
  opened c b hc := hopen b (h.opened c b (hmap ▸ hc))

theorem reverse_none (h : Associated o) (hclosed : o.parameters b = none) : o.reverseMap b = none := by
  cases hreverse : o.reverseMap b with
  | none => rfl
  | some c => exact absurd hclosed (h.opened c b ((h.paired c b).mpr hreverse))

theorem release (h : Associated o) (message : Nat) (exchange : ProxyExchange) : Associated (o.release message exchange) :=
  h.frame rfl rfl fun _ => release_open

theorem reuse (h : Associated o) : Associated (o.reuse message c b) := by
  refine h.frame rfl rfl ?_
  intro b' hb'
  by_cases hsame : b' = b
  · simp [ProxyLinks.reuse, hsame]
  · simpa [ProxyLinks.reuse, hsame] using hb'

/-- The association that a client leaves behind is replaced by the one with a backend connection that is created. -/
theorem create (h : Associated o) {onClose : Option OnClose} (hclosed : o.parameters b = none) :
    Associated ((o.leave c).create message c b onClose) := by
  have hreverse : (o.leave c).reverseMap = Library.withdraw o.reverseMap (o.connectionsMap c) := by
    cases hmap : o.connectionsMap c <;> simp [ProxyLinks.leave, hmap, Library.withdraw]
  constructor
  · simp only [ProxyLinks.create, leave_connectionsMap, hreverse]
    exact h.paired.pair (h.reverse_none hclosed)
  · intro c' b' hc'
    simp only [ProxyLinks.create, leave_connectionsMap, leave_parameters] at hc' ⊢
    by_cases hb : b' = b
    · simp [hb]
    · by_cases hc : c' = c
      · simp [hc, Ne.symm hb] at hc'
      · simp only [ne_eq, hc, not_false_eq_true, Function.update_of_ne] at hc'
        simpa [hb] using h.opened c' b' hc'

theorem restore (h : Associated o) : Associated (o.restore b) := by
  cases hreverse : o.reverseMap b with
  | none => simpa [ProxyLinks.restore, hreverse] using h
  | some c =>
      simp only [ProxyLinks.restore, hreverse]
      constructor
      · exact h.paired.unpair ((h.paired c b).mpr hreverse)
      · intro c' b' hc'
        by_cases hc : c' = c
        · simp [hc] at hc'
        · exact h.opened c' b' (by simpa [hc] using hc')

/-- No client is mapped to a backend connection that is lost. -/
theorem restore_unmapped (h : Associated o) : (o.restore b).connectionsMap c ≠ some b := by
  cases hreverse : o.reverseMap b with
  | none =>
      intro hmap
      simp only [ProxyLinks.restore, hreverse] at hmap
      simp [(h.paired c b).mp hmap] at hreverse
  | some c' =>
      intro hmap
      simp only [ProxyLinks.restore, hreverse] at hmap
      by_cases hc : c = c'
      · simp [hc] at hmap
      · have hmap' : o.connectionsMap c = some b := by simpa [hc] using hmap
        exact hc (Option.some.inj (((h.paired c b).mp hmap').symm.trans hreverse))

end Associated

theorem Associated.lose (h : Associated o) (parameters : Option Nat) : Associated (o.lose b parameters) := by
  constructor
  · simpa [ProxyLinks.lose] using h.restore.paired
  · intro c b' hc
    simp only [ProxyLinks.lose, detach_connectionsMap] at hc ⊢
    have hb : b' ≠ b := fun hb => h.restore_unmapped (hb ▸ hc)
    simpa [hb] using h.restore.opened c b' hc

/-- The end of an association that the loss of its backend connection has undone. -/
theorem Associated.undo (h : Associated o) (parameters : Option Nat) (hmap : o.connectionsMap c = some b) :
    Associated (((o.lose b parameters).forget b).dissociate c) := by
  have hreverse : o.reverseMap b = some c := (h.paired c b).mp hmap
  have hnone : (o.lose b parameters).connectionsMap c = none := by simp [ProxyLinks.lose, ProxyLinks.restore, hreverse]
  have hnone' : (o.lose b parameters).reverseMap b = none := by simp [ProxyLinks.lose, ProxyLinks.restore, hreverse]
  exact (h.lose parameters).frame (ProxyHandler.update_same hnone) (ProxyHandler.update_same hnone') fun _ hb => hb

/-- The close of a client keeps the maps. -/
theorem withstands_associated (c : Nat) : Withstands c Associated where
  setOnClose h _ := h.frame rfl rfl fun _ hb => hb
  release h _ := h.release _ _
  dissociate h hnone := h.frame (ProxyHandler.update_same hnone) rfl fun _ hb => hb
  undo h hmap _ _ := h.undo _ hmap
  remove h := h.frame rfl rfl fun _ hb => hb

end ProxyLinks

namespace ProxyHandler

variable {s s' : ProxyHandler} {b c depth : Nat}

/-- The maps of the proxy agree: what a client is mapped to is an open backend connection that is mapped back to the
client, and no other client is mapped to it. -/
structure Coherent (s : ProxyHandler) : Prop where
  backend : ∀ c b, s.connectionsMap c = some b → s.backends b ≠ none
  reverse : ∀ c b, s.connectionsMap c = some b → s.reverseMap b = some c
  single : ∀ c c' b, s.connectionsMap c = some b → s.connectionsMap c' = some b → c = c'

/-- The creation of a backend connection fails for no message of a client whose own one carries an exchange of another
message that is under way. -/
def Spares : ProxyInput → ProxyHandler → Prop
  | .request c _ _ _ none, s => ¬ s.links.Carries c s.nextMessage true
  | _, _ => True

/-- What the maps are kept by. -/
structure Tended (s : ProxyHandler) : Prop where
  associated : s.links.Associated
  tends : ∀ c, s.links.Tends c

theorem tended_start : Tended start where
  associated := ⟨by intro c b; simp [links, start], by simp [links, start]⟩
  tends := tends_start

theorem Tended.coherent (h : Tended s) : Coherent s where
  backend c b hmap := by
    have hopen := h.associated.opened c b hmap
    intro hnone
    simp [links, hnone] at hopen
  reverse c b hmap := (h.associated.paired c b).mp hmap
  single _ _ _ hmap hmap' := h.associated.paired.injective hmap hmap'

/-- A message that is dispatched keeps the maps, unless it leaves its client without a connection. -/
theorem takes_associated (h : s.links.Associated) {created : Option Nat}
    (hfresh : ∀ b, created = some b → s.links.parameters b = none)
    (htakes : (s.links.dispatch c).Takes s.nextMessage c created s'.links)
    (hspares : created = none → ¬ s.links.Carries c s.nextMessage true) : s'.links.Associated := by
  have hdispatch : (s.links.dispatch c).Associated := h.frame rfl rfl fun _ hb => hb
  generalize s'.links = o at htakes ⊢
  cases htakes with
  | reused b hmap hopen hfree => exact hdispatch.reuse
  | created b onClose hcreated hopen hbusy => exact hdispatch.create (hfresh b hcreated)
  | failed hcreated hbusy =>
      have hnone : (s.links.dispatch c).connectionsMap c = none := by
        rcases hbusy with hnone | hcarries
        · exact hnone
        · exact absurd (ProxyLinks.carries_dispatch.mp hcarries) (hspares hcreated)
      have hleave : (s.links.dispatch c).leave c = s.links.dispatch c := by simp [ProxyLinks.leave, hnone]
      rw [hleave]
      exact hdispatch.frame rfl rfl fun _ hb => hb

theorem step_associated {input : ProxyInput} (h : s.links.Associated) (hspares : Spares input s)
    (hstep : step depth input s = some s') : s'.links.Associated := by
  have hsteps : Steps depth s input s' := step_cases hstep
  cases hsteps with
  | same _ hlinks | ignored _ hlinks => exact hlinks ▸ h
  | accepted hclosed hlinks => exact hlinks ▸ h.frame rfl rfl fun _ hb => hb
  | dispatched hopen hfresh htakes =>
      refine takes_associated h hfresh htakes fun hcreated => ?_
      subst hcreated
      exact hspares
  | settled hparameters hexchange hlinks => exact hlinks ▸ h.frame rfl rfl fun _ hb => hb
  | released hreleases hlinks => exact hlinks ▸ h.release _ _
  | ended _ hreleases hlinks hclosed =>
      rename_i keepAlive exchange t _
      have ht : t.links.Associated := hlinks ▸ h.release _ _
      cases keepAlive with
      | true =>
          cases hclosed
          exact ht
      | false => exact (closeConnection_keeps (ProxyLinks.withstands_associated _) hclosed ht).1
  | lost hparameters hexchange hlinks => exact hlinks ▸ h.lose _
  | closed hclosed => exact (closeConnection_keeps (ProxyLinks.withstands_associated _) hclosed h).1

theorem Tended.step {input : ProxyInput} (h : Tended s) (hspares : Spares input s)
    (hstep : step depth input s = some s') : Tended s' :=
  ⟨step_associated h.associated hspares hstep, step_tends h.tends hstep⟩

/-- A client whose own connection is under way loses its way back to it as the creation of another one fails. -/
theorem spares_of_coherent {input : ProxyInput} (h : Tended s) (hstep : step depth input s = some s')
    (hcoherent : Coherent s') : Spares input s := by
  cases input with
  | request c keepAlive method path created =>
      cases created with
      | some b => trivial
      | none =>
          rintro ⟨b, other, exchange, hmap, hparameters, hne, hexchange, hpending⟩
          have hcarries : (s.links.dispatch c).Carries c s.nextMessage true :=
            ProxyLinks.carries_dispatch.mpr ⟨b, other, exchange, hmap, hparameters, hne, hexchange, hpending⟩
          have hsteps : Steps depth s (.request c keepAlive method path none) s' := step_cases hstep
          cases hsteps with
          | same hother _ => exact hother _ _ _ _ _ rfl
          | ignored hignored _ =>
              rcases hignored with hclosed | ⟨_, hcreated, _⟩
              · simp [h.tends c b hmap] at hclosed
              · cases hcreated
          | dispatched hopen hfresh htakes =>
              generalize ho : s'.links = o at htakes
              cases htakes with
              | reused b' hmap' _ hfree => exact hcarries.not_free hmap' hfree
              | created _ _ hcreated => cases hcreated
              | failed _ _ =>
                  have hmap' : s'.links.connectionsMap c = some b := by
                    rw [ho]
                    simpa [ProxyLinks.fail, ProxyLinks.dispatch] using hmap
                  have hreverse : s'.links.reverseMap b = some c := hcoherent.reverse c b hmap'
                  have hleft : (s.links.dispatch c).connectionsMap c = some b := hmap
                  simp [ho, ProxyLinks.fail, ProxyLinks.leave, hleft] at hreverse
  | _ => trivial

/-- The maps agree in every state of a run exactly when no creation of a backend connection fails in it for a client
whose own one carries another exchange. -/
theorem coherent_iff (inputs : List ProxyInput) :
    (∀ earlier s, earlier <+: inputs → run depth earlier start = some s → Coherent s) ↔
      Along depth Spares inputs start :=
  always_iff_along (fun _ _ _ hs hspares hstep => hs.step hspares hstep) (fun _ => Tended.coherent)
    (fun _ _ _ hs hstep hcoherent => spares_of_coherent hs hstep hcoherent) inputs tended_start

/-- A second message of a session for which no connection can be created: the client stays mapped to the connection of
the first one, which is mapped to no client. -/
theorem not_coherent : ¬ ∀ (depth : Nat) (inputs : List ProxyInput) (s : ProxyHandler),
    run depth inputs start = some s → Coherent s := by
  intro h
  have hrun : ∃ s, run 1 [.accept 1 true, .request 1 true (bytes "GET") (bytes "/") (some 10),
      .request 1 true (bytes "GET") (bytes "/") none] start = some s ∧ s.connectionsMap 1 = some 10 ∧
        s.reverseMap 10 = none := by
    refine ⟨_, rfl, ?_, ?_⟩ <;> decide
  obtain ⟨s, hrun, hmap, hreverse⟩ := hrun
  have hback := (h _ _ s hrun).reverse 1 10 hmap
  simp [hreverse] at hback

end ProxyHandler

end Viriatum
