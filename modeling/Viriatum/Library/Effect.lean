import Mathlib.Data.Option.Basic

/-!
# Computations that fail and keep their state

A computation changes a state and may stop with an error; the state it leaves behind stays as it was at the error.
The rules below reduce what holds after a computation to what holds after its parts.
-/

namespace Viriatum.Library

abbrev Effect (ε σ α : Type) := ExceptT ε (StateM σ) α

namespace Effect

variable {ε σ α β : Type}

/-- Every run of the computation from the state ends in a value and a state that satisfy `Q`, or in an error and
a state that satisfy `E`. -/
def wp (m : Effect ε σ α) (Q : α → σ → Prop) (E : ε → σ → Prop) (s : σ) : Prop :=
  match m.run s with
  | (.ok a, s') => Q a s'
  | (.error e, s') => E e s'

@[simp] theorem wp_pure {a : α} {Q : α → σ → Prop} {E : ε → σ → Prop} {s : σ} :
    wp (pure a) Q E s = Q a s := rfl

@[simp] theorem wp_throw {e : ε} {Q : α → σ → Prop} {E : ε → σ → Prop} {s : σ} :
    wp (throw e) Q E s = E e s := rfl

@[simp] theorem wp_get {Q : σ → σ → Prop} {E : ε → σ → Prop} {s : σ} :
    wp get Q E s = Q s s := rfl

@[simp] theorem wp_set {s' : σ} {Q : PUnit → σ → Prop} {E : ε → σ → Prop} {s : σ} :
    wp (set s') Q E s = Q ⟨⟩ s' := rfl

@[simp] theorem wp_modify {f : σ → σ} {Q : PUnit → σ → Prop} {E : ε → σ → Prop} {s : σ} :
    wp (modify f) Q E s = Q ⟨⟩ (f s) := rfl

@[simp] theorem wp_bind {m : Effect ε σ α} {f : α → Effect ε σ β} {Q : β → σ → Prop} {E : ε → σ → Prop} {s : σ} :
    wp (m >>= f) Q E s = wp m (fun a s' => wp (f a) Q E s') E s := by
  simp only [wp, ExceptT.run_bind]
  simp only [bind, StateT.bind]
  rcases m.run s with ⟨_ | _, _⟩ <;> rfl

@[simp] theorem wp_map {m : Effect ε σ α} {f : α → β} {Q : β → σ → Prop} {E : ε → σ → Prop} {s : σ} :
    wp (f <$> m) Q E s = wp m (fun a s' => Q (f a) s') E s := by
  rw [map_eq_pure_bind, wp_bind]
  rfl

/-- A handled error is given to the handler in the state that the error has left. -/
@[simp] theorem wp_tryCatch {m : Effect ε σ α} {f : ε → Effect ε σ α} {Q : α → σ → Prop} {E : ε → σ → Prop} {s : σ} :
    wp (tryCatch m f) Q E s = wp m Q (fun e s' => wp (f e) Q E s') s := by
  simp only [wp, tryCatch, tryCatchThe, MonadExceptOf.tryCatch, ExceptT.tryCatch]
  simp only [bind, StateT.bind, ExceptT.run, ExceptT.mk]
  rcases m s with ⟨_ | _, _⟩ <;> rfl

@[simp] theorem wp_ite {c : Prop} [Decidable c] {m n : Effect ε σ α} {Q : α → σ → Prop} {E : ε → σ → Prop} {s : σ} :
    wp (if c then m else n) Q E s = if c then wp m Q E s else wp n Q E s := by
  split <;> rfl

/-- Stops with the error when the condition holds. -/
def refuseIf (c : Prop) [Decidable c] (e : ε) : Effect ε σ Unit := if c then throw e else pure ()

@[simp] theorem wp_refuseIf {c : Prop} [Decidable c] {e : ε} {Q : Unit → σ → Prop} {E : ε → σ → Prop} {s : σ} :
    wp (refuseIf c e) Q E s = if c then E e s else Q () s := by
  unfold refuseIf
  split <;> rfl

/-- Changes the state once a computation is over, whether or not it has failed. -/
def after (m : Effect ε σ α) (f : σ → σ) : Effect ε σ α := fun s =>
  let (result, s') := m.run s
  (result, f s')

@[simp] theorem wp_after {m : Effect ε σ α} {f : σ → σ} {Q : α → σ → Prop} {E : ε → σ → Prop} {s : σ} :
    wp (after m f) Q E s = wp m (fun a s' => Q a (f s')) (fun e s' => E e (f s')) s := by
  simp only [wp, after, ExceptT.run]
  rcases m s with ⟨_ | _, _⟩ <;> rfl

/-- Runs a computation on the second part of the state. -/
def second {ρ : Type} (m : Effect ε σ α) : Effect ε (ρ × σ) α := fun (r, s) =>
  let (result, s') := m.run s
  (result, (r, s'))

@[simp] theorem wp_second {ρ : Type} {m : Effect ε σ α} {Q : α → ρ × σ → Prop} {E : ε → ρ × σ → Prop} {r : ρ} {s : σ} :
    wp (second m) Q E (r, s) = wp m (fun a s' => Q a (r, s')) (fun e s' => E e (r, s')) s := by
  simp only [wp, second, ExceptT.run]
  rcases m s with ⟨_ | _, _⟩ <;> rfl

/-- Runs a computation with a state of its own next to the one of the whole. -/
def withLocal {τ : Type} (t : τ) (m : Effect ε (σ × τ) α) : Effect ε σ (α × τ) := fun s =>
  match m.run (s, t) with
  | (.ok a, (s', t')) => (.ok (a, t'), s')
  | (.error e, (s', _)) => (.error e, s')

@[simp] theorem wp_withLocal {τ : Type} {t : τ} {m : Effect ε (σ × τ) α} {Q : α × τ → σ → Prop} {E : ε → σ → Prop}
    {s : σ} : wp (withLocal t m) Q E s = wp m (fun a p => Q (a, p.2) p.1) (fun e p => E e p.1) (s, t) := by
  simp only [wp, withLocal, ExceptT.run]
  rcases m (s, t) with ⟨_ | _, _⟩ <;> rfl

/-! ## Runs -/

theorem run_bind (m : Effect ε σ α) (f : α → Effect ε σ β) (s : σ) : (m >>= f).run s =
    match m.run s with
    | (.ok a, s') => (f a).run s'
    | (.error e, s') => (.error e, s') := by
  rw [ExceptT.run_bind]
  simp only [bind, StateT.bind]
  rcases m.run s with ⟨_ | _, _⟩ <;> rfl

theorem run_get (s : σ) : (get : Effect ε σ σ).run s = (.ok s, s) := rfl

theorem run_set (s s' : σ) : (set s' : Effect ε σ PUnit).run s = (.ok ⟨⟩, s') := rfl

theorem run_second {ρ : Type} (m : Effect ε σ α) (r : ρ) (s : σ) :
    (second m : Effect ε (ρ × σ) α).run (r, s) = ((m.run s).1, (r, (m.run s).2)) := rfl

/-- What a run of the computation ends in satisfies what the computation satisfies. -/
theorem wp_of_run {m : Effect ε σ α} {Q : α → σ → Prop} {E : ε → σ → Prop} {s s' : σ} {result : Except ε α}
    (hrun : m.run s = (result, s')) (h : wp m Q E s) :
    match result with
    | .ok a => Q a s'
    | .error e => E e s' := by
  unfold wp at h
  rw [hrun] at h
  cases result <;> exact h

theorem wp_of_run_ok {m : Effect ε σ α} {Q : α → σ → Prop} {E : ε → σ → Prop} {s s' : σ} {a : α}
    (hrun : m.run s = (.ok a, s')) : wp m Q E s = Q a s' := by
  rw [wp, hrun]

/-- Two computations that satisfy the same run to the same end. -/
theorem run_ext {m m' : Effect ε σ α} {s s' : σ} (h : ∀ Q E, wp m Q E s = wp m' Q E s') : m.run s = m'.run s' := by
  have hsame := h (fun a t => m'.run s' = (.ok a, t)) (fun e t => m'.run s' = (.error e, t))
  unfold wp at hsame
  generalize m'.run s' = result at hsame ⊢
  generalize m.run s = result' at hsame ⊢
  rcases result with ⟨_ | _, _⟩ <;> rcases result' with ⟨_ | _, _⟩ <;> simp_all

/-- What is asked of the end of a run may be replaced by what is the same there. -/
theorem wp_congr {m : Effect ε σ α} {P Q Q' : α → σ → Prop} {E : ε → σ → Prop} {s : σ} (h : wp m P (fun _ _ => True) s)
    (hsame : ∀ a s', P a s' → Q a s' = Q' a s') : wp m Q E s = wp m Q' E s := by
  unfold wp at h ⊢
  split at h
  · exact hsame _ _ h
  · rfl

/-- A computation satisfies what is weaker than what it satisfies. -/
theorem wp.mono {m : Effect ε σ α} {Q Q' : α → σ → Prop} {E E' : ε → σ → Prop} {s : σ} (h : wp m Q E s)
    (hQ : ∀ a s', Q a s' → Q' a s') (hE : ∀ e s', E e s' → E' e s') : wp m Q' E' s := by
  unfold wp at h ⊢
  split at h
  · exact hQ _ _ h
  · exact hE _ _ h

theorem wp.and {m : Effect ε σ α} {Q Q' : α → σ → Prop} {E E' : ε → σ → Prop} {s : σ} (h : wp m Q E s)
    (h' : wp m Q' E' s) : wp m (fun a s' => Q a s' ∧ Q' a s') (fun e s' => E e s' ∧ E' e s') s := by
  unfold wp at h h' ⊢
  generalize m.run s = result at h h' ⊢
  rcases result with ⟨_ | _, _⟩ <;> exact ⟨h, h'⟩

/-- A computation that does not fail ends in a value and a state. -/
theorem wp.run_ok {m : Effect ε σ α} {Q : α → σ → Prop} {s : σ} (h : wp m Q (fun _ _ => False) s) :
    ∃ a s', m.run s = (.ok a, s') ∧ Q a s' := by
  unfold wp at h
  split at h
  case h_1 a s' hrun => exact ⟨a, s', hrun, h⟩
  case h_2 => exact h.elim

end Effect

end Viriatum.Library
