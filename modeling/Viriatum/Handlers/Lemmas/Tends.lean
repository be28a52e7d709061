import Viriatum.Handlers.Lemmas.Proxy

/-!
# The clients that the proxy has taken over

A client that is mapped to a backend connection calls the handler of the proxy as it closes, in every state of a run.
-/

namespace Viriatum

open Function (update)

namespace ProxyLinks

variable {o : ProxyLinks} {b c : Nat}

/-- A client that is mapped to a backend connection calls the handler of the proxy as it closes. -/
def Tends (o : ProxyLinks) (c : Nat) : Prop :=
  ∀ b, o.connectionsMap c = some b → o.onClose c = some (some .closeProxyConnection)

theorem Tends.lose (h : Tends o c) (parameters : Option Nat) : Tends (o.lose b parameters) c := by
  intro b' hc
  rw [lose_maps.1] at hc
  rw [lose_maps.2.1]
  split at hc
  case isTrue => cases hc
  case isFalse hne =>
    rw [if_neg hne]
    exact h b' hc

/-- The close of a client leaves what the other ones call as it is. -/
theorem withstands_tends (c : Nat) : Withstands c fun o => ∀ c', c' ≠ c → Tends o c' where
  setOnClose h _ c' hc b hmap := by simpa [setOnClose, hc] using h c' hc b hmap
  release h _ c' hc b hmap := h c' hc b hmap
  dissociate h _ c' hc b hmap := by
    simp only [ProxyLinks.dissociate, ne_eq, hc, not_false_eq_true, Function.update_of_ne] at hmap
    exact h c' hc b hmap
  undo h _ _ _ c' hc b hmap := by
    simp only [ProxyLinks.dissociate, forget, ne_eq, hc, not_false_eq_true, Function.update_of_ne] at hmap
    exact (h c' hc).lose _ b hmap
  remove h c' hc b hmap := by simpa [remove, hc] using h c' hc b hmap

end ProxyLinks

namespace ProxyHandler

variable {s s' : ProxyHandler} {b c depth : Nat} {input : ProxyInput}

theorem tends_start (c : Nat) : start.links.Tends c := fun _ h => by cases h

/-- A client that is closed is mapped to nothing. -/
theorem closeConnection_unmapped (h : ∀ c, s.links.Tends c) (hclosed : s.closeConnection depth c = some s') :
    s'.links.connectionsMap c = none := by
  obtain ⟨-, -, hmap⟩ := closeConnection_keeps (ProxyLinks.withstands_tends c) hclosed fun c' _ => h c'
  rcases hmap with hnone | ⟨hother, hsame⟩
  · exact hnone
  · cases hc : s.links.connectionsMap c with
    | none => rw [hsame, hc]
    | some b => exact absurd (h c b hc) hother

theorem closeConnection_tends (h : ∀ c, s.links.Tends c) (hclosed : s.closeConnection depth c = some s') (c' : Nat) :
    s'.links.Tends c' := by
  obtain ⟨htends, -⟩ := closeConnection_keeps (ProxyLinks.withstands_tends c) hclosed fun c' _ => h c'
  intro b hmap
  by_cases hc : c' = c
  · simp [hc, closeConnection_unmapped h hclosed] at hmap
  · exact htends c' hc b hmap

theorem takes_tends (h : ∀ c, s.links.Tends c) {message : Nat} {created : Option Nat}
    (htakes : (s.links.dispatch c).Takes message c created s'.links) (c' : Nat) : s'.links.Tends c' := by
  intro b' hmap
  generalize s'.links = o at htakes hmap ⊢
  cases htakes with
  | reused => exact h c' b' hmap
  | created b onClose =>
      by_cases hc : c' = c
      · simp [ProxyLinks.create, hc]
      · have hmap' : s.links.connectionsMap c' = some b' := by
          simpa [ProxyLinks.create, ProxyLinks.dispatch, hc] using hmap
        simpa [ProxyLinks.create, ProxyLinks.dispatch, hc] using h c' b' hmap'
  | failed =>
      have hmap' : s.links.connectionsMap c' = some b' := by simpa [ProxyLinks.fail, ProxyLinks.dispatch] using hmap
      simpa [ProxyLinks.fail, ProxyLinks.dispatch] using h c' b' hmap'

theorem step_tends (h : ∀ c, s.links.Tends c) (hstep : step depth input s = some s') (c : Nat) : s'.links.Tends c := by
  have hsteps : Steps depth s input s' := step_cases hstep
  cases hsteps with
  | same _ hlinks | ignored _ hlinks => exact hlinks ▸ h c
  | accepted hclosed hlinks =>
      rename_i client session
      intro b hmap
      rw [hlinks] at hmap ⊢
      have hne : c ≠ client := by
        rintro rfl
        simp [h c b hmap] at hclosed
      simpa [ProxyLinks.accept, hne] using h c b hmap
  | dispatched hopen hfresh htakes => exact takes_tends h htakes c
  | settled hparameters hexchange hlinks => exact hlinks ▸ h c
  | released hreleases hlinks => exact hlinks ▸ h c
  | ended _ hreleases hlinks hclosed =>
      rename_i keepAlive exchange t _
      have ht : ∀ c, t.links.Tends c := fun c => hlinks ▸ h c
      cases keepAlive with
      | true =>
          cases hclosed
          exact ht c
      | false => exact closeConnection_tends ht hclosed c
  | lost hparameters hexchange hlinks => exact hlinks ▸ (h c).lose _
  | closed hclosed => exact closeConnection_tends h hclosed c

end ProxyHandler

end Viriatum
