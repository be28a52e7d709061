import Viriatum.Handlers.Isolation

/-!
# The sessions of the proxy

A session of HTTP/2 outlives the exchanges that are proxied for its streams, unless the response of a backend is not
kept alive: the connection of the client is closed with the exchange then.
-/

namespace Viriatum

open Function (update)

namespace ProxyLinks

variable {o : ProxyLinks} {b c c' : Nat}

theorem lose_open {parameters : Option Nat} (h : o.onClose c ≠ none) : (o.lose b parameters).onClose c ≠ none := by
  rw [lose_maps.2.1]
  split
  · exact Option.some_ne_none _
  · exact h

/-- The close of a client closes no other one. -/
theorem withstands_open (hne : c ≠ c') : Withstands c' fun o => o.onClose c ≠ none where
  setOnClose h _ := by simpa [setOnClose, hne] using h
  release h _ := h
  dissociate h _ := h
  undo h _ _ _ := lose_open h
  remove h := by simpa [remove, hne] using h

theorem takes_open {o' : ProxyLinks} {message : Nat} {created : Option Nat} (h : o.onClose c ≠ none)
    (htakes : o.Takes message c' created o') : o'.onClose c ≠ none := by
  cases htakes with
  | reused => exact h
  | created b onClose =>
      by_cases hc : c = c'
      · simp [create, hc]
      · simpa [create, hc] using h
  | failed => simpa [fail] using h

end ProxyLinks

namespace ProxyHandler

variable {s s' : ProxyHandler} {b c depth : Nat} {input : ProxyInput}

/-- An open client that a session of HTTP/2 drives. -/
def Session (s : ProxyHandler) (c : Nat) : Prop := ∃ client, s.clients c = some client ∧ client.session = true

/-- A step closes the connection of no session but for the close of it, and touches no exchange but its own. -/
structure Survived (input : ProxyInput) (s s' : ProxyHandler) : Prop where
  isolated : Isolated input s s'
  survives : ∀ c, s.Session c → input ≠ .close c → s'.clients c ≠ none

/-- The response that ends an exchange of a session is kept alive. -/
def KeepsAlive : ProxyInput → ProxyHandler → Prop
  | .written c index _, s =>
      ∀ message context, s.Ends c index message false → s.contexts message = some context → ¬ s.Session context.connection
  | _, _ => True

theorem links_open : s.links.onClose c ≠ none ↔ s.clients c ≠ none := by simp [links]

/-- A client that is open stays open, but for its close and the end of an exchange of it that is not kept alive. -/
theorem step_open (h : s.clients c ≠ none) (hstep : step depth input s = some s') :
    s'.clients c ≠ none ∨ input = .close c ∨ ∃ c' index size message context, input = .written c' index size ∧
      s.Ends c' index message false ∧ s.contexts message = some context ∧ context.connection = c := by
  have hopen : s.links.onClose c ≠ none := links_open.mpr h
  have hsteps : Steps depth s input s' := step_cases hstep
  simp only [← links_open]
  cases hsteps with
  | same _ hlinks | ignored _ hlinks => exact .inl (hlinks ▸ hopen)
  | accepted hclosed hlinks =>
      rename_i client session
      have hne : c ≠ client := by
        rintro rfl
        exact hopen hclosed
      refine .inl ?_
      rw [hlinks]
      simpa [ProxyLinks.accept, hne] using hopen
  | dispatched _ hfresh htakes =>
      rename_i client _ _ _ _ _
      have hdispatch : (s.links.dispatch client).onClose c ≠ none := hopen
      exact .inl (ProxyLinks.takes_open hdispatch htakes)
  | settled hparameters hexchange hlinks => exact .inl (hlinks ▸ hopen)
  | released hreleases hlinks => exact .inl (hlinks ▸ hopen)
  | ended hends hreleases hlinks hclosed =>
      rename_i c' index size message keepAlive exchange t
      have ht : t.links.onClose c ≠ none := hlinks ▸ hopen
      cases keepAlive with
      | true =>
          cases hclosed
          exact .inl ht
      | false =>
          obtain ⟨context, hcontext, rfl⟩ := Option.map_eq_some_iff.mp hreleases.found
          by_cases hc : c = context.connection
          · exact .inr (.inr ⟨c', index, size, message, context, rfl, hends, hcontext, hc.symm⟩)
          · exact .inl (closeConnection_keeps (ProxyLinks.withstands_open hc) hclosed ht).1
  | lost hparameters hexchange hlinks =>
      refine .inl ?_
      rw [hlinks]
      exact ProxyLinks.lose_open hopen
  | closed hclosed =>
      rename_i client
      by_cases hc : c = client
      · exact .inr (.inl (congrArg _ hc.symm))
      · exact .inl (closeConnection_keeps (ProxyLinks.withstands_open hc) hclosed hopen).1

theorem closeConnection_closed (h : s.closeConnection depth c = some s') : s'.clients c = none := by
  unfold closeConnection at h
  split at h
  case h_1 hnone =>
    cases h
    exact hnone
  case h_2 =>
    obtain ⟨t, -, rfl⟩ := Option.map_eq_some_iff.mp h
    simp [setClient]

/-- The connection of a client is closed by the end of an exchange of it that is not kept alive. -/
theorem ends_closed {index size message : Nat} {context : HandlerProxyContext} (hends : s.Ends c index message false)
    (hcontext : s.contexts message = some context) (hstep : step depth (.written c index size) s = some s') :
    s'.clients context.connection = none := by
  obtain ⟨write, hat, hcallback⟩ := hends
  obtain ⟨client, hclient, hwrite⟩ := Option.bind_eq_some_iff.mp hat
  have hcontext' : (s.setClient c (some { client with writes := client.writes.eraseIdx index })).contexts message =
      some context := hcontext
  simp only [step, completeWrite, hclient, hwrite, hcallback, hcontext', cleanupHandler] at hstep
  obtain ⟨t, -, hclosed⟩ := Option.bind_eq_some_iff.mp hstep
  exact closeConnection_closed hclosed

theorem survived_iff (h : s.links.Owned) (htends : ∀ c, s.links.Tends c) (hstep : step depth input s = some s') :
    Survived input s s' ↔ Separate input s ∧ KeepsAlive input s := by
  constructor
  · rintro ⟨hisolated, hopen⟩
    refine ⟨separate_of_isolated h htends hstep hisolated, ?_⟩
    cases input with
    | written c index size =>
        intro message context hends hcontext hsession
        exact hopen context.connection hsession nofun (ends_closed hends hcontext hstep)
    | _ => trivial
  · rintro ⟨hseparate, hkeepsAlive⟩
    refine ⟨isolated_of_separate h hseparate hstep, fun c hsession hinput => ?_⟩
    obtain ⟨client, hclient, hsame⟩ := hsession
    have hbefore : s.clients c ≠ none := by simp [hclient]
    rcases step_open hbefore hstep with hopen | hclosed | ⟨c', index, size, message, context, rfl, hends, hcontext, rfl⟩
    · exact hopen
    · exact absurd hclosed hinput
    · exact absurd ⟨client, hclient, hsame⟩ (hkeepsAlive message context hends hcontext)

end ProxyHandler

end Viriatum
