import Viriatum.Polling.Loop

/-!
# What a step of the loop does

Most steps leave the buffers as they are and only call connections that are not closed. The others put a connection into
a buffer, open or close one, or go over to another phase.
-/

namespace Viriatum

open Function (update)

/-- The life of a connection is as it was, and so are its outstanding reads. -/
structure PolledConnection.Alike (before after : PolledConnection) : Prop where
  closed : after.status = .closed ↔ before.status = .closed
  created : after.created = before.created
  deleted : after.deleted = before.deleted
  isOutstanding : after.isOutstanding = before.isOutstanding

theorem PolledConnection.Alike.refl (connection : PolledConnection) : connection.Alike connection :=
  ⟨Iff.rfl, rfl, rfl, rfl⟩

namespace PollingEpoll

variable {s s' t : PollingEpoll} {c c' : Nat} {task : PollingTask}

/-! ## The connections after the operations on them -/

@[simp] theorem set_connections_self (connection : PolledConnection) :
    (s.set c connection).connections c = connection := by
  simp [set]

theorem set_connections (connection : PolledConnection) :
    (s.set c connection).connections c' = if c' = c then connection else s.connections c' := by
  simp [set, Function.update_apply]

@[simp] theorem set_pending (connection : PolledConnection) : (s.set c connection).pending = s.pending := rfl

@[simp] theorem set_phase (connection : PolledConnection) : (s.set c connection).phase = s.phase := rfl

@[simp] theorem push_connections : (s.push task).connections = s.connections := rfl

@[simp] theorem push_pending : (s.push task).pending = task :: s.pending := rfl

@[simp] theorem push_phase : (s.push task).phase = s.phase := rfl

@[simp] theorem record_connections (entry : PollingRecord) : (s.record entry).connections = s.connections := rfl

@[simp] theorem record_pending (entry : PollingRecord) : (s.record entry).pending = s.pending := rfl

@[simp] theorem record_phase (entry : PollingRecord) : (s.record entry).phase = s.phase := rfl

theorem pop_push {rest : List PollingTask} (hpending : s.pending = task :: rest) :
    ({ s with pending := rest } : PollingEpoll).push task = s := by
  cases s
  simp_all [push]

theorem turn_act {operation : PollingOperation} (h : s.turn (.act operation) = some s') : s.act operation = some s' := by
  cases hphase : s.phase with
  | cycling => simpa [turn, hphase] using h
  | _ => simp [turn, hphase] at h

/-- The wait ends with the events of it. -/
theorem turn_waiting {input : PollingInput} (hphase : s.phase = .waiting) (h : s.turn input = some s') :
    ∃ events, s' = s.takeEvents events := by
  cases input with
  | ready events =>
      simp only [turn, hphase] at h
      split at h
      · cases h
      · cases h
        exact ⟨events, rfl⟩
  | _ => simp [turn, hphase] at h

/-! ## Steps that leave the buffers as they are -/

/-- The buffers are as they were, and what has been called, or is to be closed, was not closed before. -/
structure Quiet (s s' : PollingEpoll) : Prop where
  connections : ∀ c, (s.connections c).Alike (s'.connections c)
  readOutstanding : s'.readOutstanding = s.readOutstanding
  writeOutstanding : s'.writeOutstanding = s.writeOutstanding
  removeConnections : s'.removeConnections = s.removeConnections
  freshReads : s'.freshReads = s.freshReads
  freshWrites : s'.freshWrites = s.freshWrites
  phase : s'.phase = s.phase
  closing : ∀ c, .closing c ∈ s'.pending → .closing c ∈ s.pending ∨ (s.connections c).status ≠ .closed
  log : ∃ cs : List Nat, s'.log = s.log ++ cs.map .called ∧ ∀ c ∈ cs, (s.connections c).status ≠ .closed

namespace Quiet

theorem refl (s : PollingEpoll) : s.Quiet s where
  connections _ := .refl _
  readOutstanding := rfl
  writeOutstanding := rfl
  removeConnections := rfl
  freshReads := rfl
  freshWrites := rfl
  phase := rfl
  closing _ h := .inl h
  log := ⟨[], by simp, by simp⟩

theorem trans (h : s.Quiet t) (h' : t.Quiet s') : s.Quiet s' where
  connections c :=
    { closed := (h'.connections c).closed.trans (h.connections c).closed
      created := (h'.connections c).created.trans (h.connections c).created
      deleted := (h'.connections c).deleted.trans (h.connections c).deleted
      isOutstanding := (h'.connections c).isOutstanding.trans (h.connections c).isOutstanding }
  readOutstanding := h'.readOutstanding.trans h.readOutstanding
  writeOutstanding := h'.writeOutstanding.trans h.writeOutstanding
  removeConnections := h'.removeConnections.trans h.removeConnections
  freshReads := h'.freshReads.trans h.freshReads
  freshWrites := h'.freshWrites.trans h.freshWrites
  phase := h'.phase.trans h.phase
  closing c hc := by
    cases h'.closing c hc with
    | inl hc => exact h.closing c hc
    | inr hopen => exact .inr fun hclosed => hopen ((h.connections c).closed.mpr hclosed)
  log := by
    obtain ⟨cs, hcs, hopen⟩ := h.log
    obtain ⟨cs', hcs', hopen'⟩ := h'.log
    refine ⟨cs ++ cs', by simp [hcs', hcs], fun c hc => ?_⟩
    cases List.mem_append.mp hc with
    | inl hc => exact hopen c hc
    | inr hc => exact fun hclosed => hopen' c hc ((h.connections c).closed.mpr hclosed)

/-- A change of one connection that leaves its life as it is. -/
theorem set {connection : PolledConnection} (h : (s.connections c).Alike connection) : s.Quiet (s.set c connection) where
  connections c' := by
    rw [set_connections]
    split
    · next heq => exact heq ▸ h
    · exact .refl _
  readOutstanding := rfl
  writeOutstanding := rfl
  removeConnections := rfl
  freshReads := rfl
  freshWrites := rfl
  phase := rfl
  closing _ h := .inl h
  log := ⟨[], by simp [PollingEpoll.set], by simp⟩

theorem push (h : ∀ c, task = .closing c → (s.connections c).status ≠ .closed) : s.Quiet (s.push task) where
  connections _ := .refl _
  readOutstanding := rfl
  writeOutstanding := rfl
  removeConnections := rfl
  freshReads := rfl
  freshWrites := rfl
  phase := rfl
  closing c hc := by
    cases List.mem_cons.mp hc with
    | inl heq => exact .inr (h c heq.symm)
    | inr hc => exact .inl hc
  log := ⟨[], by simp [PollingEpoll.push], by simp⟩

theorem record (h : (s.connections c).status ≠ .closed) : s.Quiet (s.record (.called c)) where
  connections _ := .refl _
  readOutstanding := rfl
  writeOutstanding := rfl
  removeConnections := rfl
  freshReads := rfl
  freshWrites := rfl
  phase := rfl
  closing _ h := .inl h
  log := ⟨[c], rfl, by simpa using h⟩

theorem call (h : (s.connections c).status ≠ .closed) : s.Quiet (s.call c) :=
  (record h).trans (push nofun)

theorem pop {rest : List PollingTask} (h : s.pending = task :: rest) : s.Quiet { s with pending := rest } where
  connections _ := .refl _
  readOutstanding := rfl
  writeOutstanding := rfl
  removeConnections := rfl
  freshReads := rfl
  freshWrites := rfl
  phase := rfl
  closing c hc := .inl (h ▸ List.mem_cons_of_mem task hc)
  log := ⟨[], by simp, by simp⟩

theorem closeConnection (s : PollingEpoll) (c : Nat) : s.Quiet (s.closeConnection c) := by
  unfold PollingEpoll.closeConnection
  split
  · exact refl s
  · next hopen =>
      refine (record hopen).trans (push fun c' heq => ?_)
      cases heq
      exact hopen

theorem walk (s : PollingEpoll) (c count : Nat) (partly : Bool) : s.Quiet (s.walk c count partly) := by
  unfold PollingEpoll.walk
  simp only
  split
  · exact refl s
  · next hopen =>
      split
      · exact push nofun
      · split
        · exact set ⟨Iff.rfl, rfl, rfl, rfl⟩
        · have hset : s.Quiet (s.set c { s.connections c with writeQueue := (s.connections c).writeQueue - 1 }) :=
            set ⟨Iff.rfl, rfl, rfl, rfl⟩
          have hpush : ∀ t : PollingEpoll, t.Quiet (t.push (.walked c (count - 1) partly)) := fun t => push nofun
          have hwalked := hset.trans (hpush _)
          exact hwalked.trans (call (by simpa using hopen))

theorem send {input : PollingInput} (h : s.send c input = some s') : s.Quiet s' := by
  unfold PollingEpoll.send at h
  split at h
  · split at h
    · cases h
      exact set ⟨Iff.rfl, rfl, rfl, rfl⟩
    · cases h
  · cases input with
    | sent count partly =>
        simp only [sendAnswered] at h
        split at h
        · cases h
        · cases h
          exact push nofun
    | wouldBlock =>
        cases h
        exact set ⟨Iff.rfl, rfl, rfl, rfl⟩
    | broken =>
        cases h
        exact closeConnection s c
    | proceed => cases h
    | act operation => cases h
    | ready events => cases h

theorem resume (htask : ∀ c, task ≠ .closing c) (h : s.resume task .proceed = some s') : s.Quiet s' := by
  cases task with
  | callback c =>
      cases h
      exact refl s
  | closing c => exact absurd rfl (htask c)
  | sending c => exact send h
  | walked c count partly =>
      cases h
      exact walk s c count partly
  | read c =>
      cases h
      split
      · next hopen => exact call (by rw [hopen]; nofun)
      · exact refl s
  | write c =>
      cases h
      split
      · next hopen => exact (record (by rw [hopen]; nofun)).trans (push nofun)
      · exact refl s
  | readEvent c =>
      cases h
      split
      · next hshaking =>
          have hpush : s.Quiet (s.push (.read c)) := push nofun
          exact hpush.trans (call (by rw [push_connections, hshaking]; nofun))
      · exact push nofun
  | writeEvent c =>
      cases h
      have hset : s.Quiet (s.set c { s.connections c with writeValid := true }) := set ⟨Iff.rfl, rfl, rfl, rfl⟩
      exact hset.trans (push nofun)
  | errorEvent c =>
      cases h
      split
      · next hopen => exact (record (by rw [hopen]; nofun)).trans (closeConnection _ c)
      · exact refl s

end Quiet

/-! ## The kinds of steps -/

/-- What a step does. -/
inductive Move (input : PollingInput) (s s' : PollingEpoll) : Prop
  | quiet (h : s.Quiet s')
  | opened (c : Nat) (hnew : (s.connections c).created = false)
      (h : s' = (s.set c { status := .opened, created := true }).call c)
  | registered (c : Nat) (t : PollingEpoll) (hinput : input = .act (.write c)) (hquiet : s.Quiet t)
      (hfree : (s.connections c).writeRegistered = false) (hvalid : (s.connections c).writeValid = true)
      (hopen : (s.connections c).status = .opened)
      (h : s' = { t with writeOutstanding := t.writeOutstanding ++ [c], freshWrites := t.freshWrites ++ [c] })
  | delayed (c : Nat) (hinput : input = .act (.addOutstanding c)) (hfree : (s.connections c).isOutstanding = false)
      (hopen : (s.connections c).status ≠ .closed) (h : s' = s.addOutstanding c)
  | closed (c : Nat) (rest : List PollingTask) (hinput : input = .proceed) (hpending : s.pending = .closing c :: rest)
      (h : s' = ({ s with pending := rest } : PollingEpoll).closeRest c)
  | taken (hphase : s.phase = .cycling) (hpending : s.pending = []) (h : s' = s.takeOutstanding)
  | entered (hinput : input = .proceed) (hphase : s.phase = .polling) (hpending : s.pending = [])
      (h : s' = { s with phase := .waiting })
  | woken (events : List PollingEvent) (hphase : s.phase = .waiting) (h : s' = s.takeEvents events)
  | swept (hphase : s.phase = .calling) (hpending : s.pending = []) (h : s' = s.sweep)

theorem act_move {operation : PollingOperation} (h : s.act operation = some s') : Move (.act operation) s s' := by
  cases operation with
  | openConnection c =>
      simp only [act] at h
      split at h
      · cases h
      · next hnew =>
          cases h
          exact .opened c (by simpa using hnew) rfl
  | handshake c =>
      simp only [act] at h
      split at h
      · cases h
      · next hopen =>
          cases h
          exact .quiet (.set ⟨by simp [hopen], rfl, rfl, rfl⟩)
  | establish c =>
      simp only [act] at h
      split at h
      · next hshaking =>
          cases h
          exact .quiet (.set ⟨by simp [hshaking], rfl, rfl, rfl⟩)
      · cases h
  | write c =>
      simp only [act] at h
      split at h
      · cases h
      · next hopen =>
          cases h
          have hqueued : s.Quiet ((s.set c { s.connections c with writeQueue := (s.connections c).writeQueue + 1 }).set c
              { s.connections c with writeQueue := (s.connections c).writeQueue + 1, writeRegistered := true }) := by
            have hset : s.Quiet (s.set c { s.connections c with writeQueue := (s.connections c).writeQueue + 1 }) :=
              .set ⟨Iff.rfl, rfl, rfl, rfl⟩
            apply hset.trans (.set _)
            rw [set_connections_self]
            exact ⟨Iff.rfl, rfl, rfl, rfl⟩
          unfold registerWrite
          simp only [set_connections_self]
          split
          · exact .quiet hqueued
          · next hregister =>
              simp only [Bool.or_eq_true, decide_eq_true_eq, not_or, Bool.not_eq_true, Bool.not_eq_eq_eq_not,
                Bool.not_true, not_not, Bool.not_eq_false] at hregister
              exact .registered c _ rfl hqueued hregister.1.1 hregister.1.2 hregister.2 rfl
  | addOutstanding c =>
      simp only [act] at h
      split at h
      · cases h
      · next hopen =>
          cases h
          cases hfree : (s.connections c).isOutstanding with
          | false => exact .delayed c rfl hfree hopen rfl
          | true =>
              have hsame : s.addOutstanding c = s := by simp [addOutstanding, hfree]
              exact .quiet (hsame.symm ▸ .refl s)
  | close c =>
      simp only [act] at h
      split at h
      · cases h
      · cases h
        exact .quiet (.closeConnection s c)
  | flush c =>
      simp only [act] at h
      split at h
      · cases h
      · cases h
        exact .quiet (.push nofun)
  | setTimeout timeout =>
      cases h
      exact .quiet { Quiet.refl s with }

theorem Move.after {input : PollingInput} {rest : List PollingTask} (hpending : s.pending = task :: rest)
    (h : ({ s with pending := rest } : PollingEpoll).Quiet s') : Move input s s' :=
  .quiet ((Quiet.pop hpending).trans h)

theorem resume_move {input : PollingInput} {rest : List PollingTask} (hpending : s.pending = task :: rest)
    (h : ({ s with pending := rest } : PollingEpoll).resume task input = some s') : Move input s s' := by
  cases input with
  | act operation =>
      cases task with
      | callback c =>
          simp only [resume, pop_push hpending] at h
          exact act_move h
      | closing c =>
          simp only [resume, pop_push hpending] at h
          exact act_move h
      | sending c => exact .after hpending (.send h)
      | _ => cases h
  | proceed =>
      cases task with
      | closing c =>
          cases h
          exact .closed c rest rfl hpending rfl
      | _ => exact .after hpending (.resume (by simp) h)
  | sent count partly =>
      cases task with
      | sending c => exact .after hpending (.send h)
      | _ => cases h
  | wouldBlock =>
      cases task with
      | sending c => exact .after hpending (.send h)
      | _ => cases h
  | broken =>
      cases task with
      | sending c => exact .after hpending (.send h)
      | _ => cases h
  | ready events =>
      cases task with
      | sending c => exact .after hpending (.send h)
      | _ => cases h

theorem turn_move {input : PollingInput} (hpending : s.pending = []) (h : s.turn input = some s') : Move input s s' := by
  unfold turn at h
  split at h
  · next hphase =>
      cases h
      exact .entered rfl hphase hpending rfl
  · next events hphase =>
      split at h
      · cases h
      · cases h
        exact .woken events hphase rfl
  · next hphase =>
      cases h
      exact .swept hphase hpending rfl
  · exact act_move h
  · next hphase =>
      cases h
      exact .taken hphase hpending rfl
  · cases h

/-- Every step does one of these. -/
theorem step_move {input : PollingInput} (h : step input s = some s') : Move input s s' := by
  cases hpending : s.pending with
  | nil => exact turn_move hpending (by simpa [step, hpending] using h)
  | cons task rest => exact resume_move hpending (by simpa [step, hpending] using h)

/-! ## The outstanding reads -/

/-- The outstanding reads are of connections that are not closed, once each. -/
structure ReadsOnce (s : PollingEpoll) : Prop where
  nodup : s.readOutstanding.Nodup
  marked : ∀ c ∈ s.readOutstanding, (s.connections c).isOutstanding = true
  unclosed : ∀ c ∈ s.readOutstanding, (s.connections c).status ≠ .closed
  unborn : ∀ c, (s.connections c).created = false → (s.connections c).status = .closed

theorem ReadsOnce.quiet (h : s.ReadsOnce) (hquiet : s.Quiet s') : s'.ReadsOnce where
  nodup := hquiet.readOutstanding ▸ h.nodup
  marked c hc := (hquiet.connections c).isOutstanding.trans (h.marked c (hquiet.readOutstanding ▸ hc))
  unclosed c hc hclosed :=
    h.unclosed c (hquiet.readOutstanding ▸ hc) ((hquiet.connections c).closed.mp hclosed)
  unborn c hc := (hquiet.connections c).closed.mpr (h.unborn c ((hquiet.connections c).created ▸ hc))

theorem closeRest_connections (s : PollingEpoll) (c c' : Nat) :
    (s.closeRest c).connections c' =
      if c' = c then { s.connections c with isOutstanding := false, status := .closed } else s.connections c' := by
  simp only [closeRest, record_connections, removeConnection]
  split <;> simp [set_connections]

@[simp] theorem closeRest_readOutstanding : (s.closeRest c).readOutstanding = s.readOutstanding.erase c := by
  simp only [closeRest, record, removeConnection]
  split <;> rfl

@[simp] theorem closeRest_writeOutstanding : (s.closeRest c).writeOutstanding = s.writeOutstanding.erase c := by
  simp only [closeRest, record, removeConnection]
  split <;> rfl

@[simp] theorem closeRest_pending : (s.closeRest c).pending = s.pending := by
  simp only [closeRest, record_pending, removeConnection]
  split <;> rfl

@[simp] theorem closeRest_phase : (s.closeRest c).phase = s.phase := by
  simp only [closeRest, record_phase, removeConnection]
  split <;> rfl

theorem ReadsOnce.step {input : PollingInput} (h : s.ReadsOnce) (hmove : Move input s s') : s'.ReadsOnce := by
  cases hmove with
  | quiet hquiet => exact h.quiet hquiet
  | opened c hnew heq =>
      have hne : ∀ c' ∈ s.readOutstanding, c' ≠ c := by
        rintro c' hc' rfl
        exact h.unclosed c' hc' (h.unborn c' hnew)
      subst heq
      constructor
      · exact h.nodup
      · intro c' hc'
        simpa [call, set_connections, hne c' hc'] using h.marked c' hc'
      · intro c' hc'
        simpa [call, set_connections, hne c' hc'] using h.unclosed c' hc'
      · intro c' hc'
        cases decEq c' c with
        | isTrue heq => simp [call, heq] at hc'
        | isFalse hne' =>
            simp only [call, push_connections, record_connections, set_connections, hne', if_false] at hc' ⊢
            exact h.unborn c' hc'
  | registered c t hinput hquiet hfree hvalid hopen heq =>
      subst heq
      exact { h.quiet hquiet with }
  | delayed c hinput hfree hopen heq =>
      have hnew : c ∉ s.readOutstanding := by
        intro hc
        rw [h.marked c hc] at hfree
        cases hfree
      subst heq
      simp only [addOutstanding, hfree, Bool.false_eq_true, if_false]
      constructor
      · simpa [List.nodup_append] using ⟨h.nodup, fun c' hc' heq => hnew (heq ▸ hc')⟩
      · intro c' hc'
        simp only [set_connections]
        split
        · rfl
        · next hne => exact h.marked c' (by simpa [hne] using hc')
      · intro c' hc'
        simp only [set_connections]
        split
        · exact hopen
        · next hne => exact h.unclosed c' (by simpa [hne] using hc')
      · intro c' hc'
        simp only [set_connections] at hc' ⊢
        split
        · next heq => exact h.unborn c (by simpa [heq] using hc')
        · next hne => exact h.unborn c' (by simpa [hne] using hc')
  | closed c rest hinput hpending heq =>
      subst heq
      constructor
      · simpa using h.nodup.erase c
      · intro c' hc'
        obtain ⟨hne, hc'⟩ := (h.nodup.mem_erase_iff).mp (by simpa using hc')
        simpa [closeRest_connections, hne] using h.marked c' hc'
      · intro c' hc'
        obtain ⟨hne, hc'⟩ := (h.nodup.mem_erase_iff).mp (by simpa using hc')
        simpa [closeRest_connections, hne] using h.unclosed c' hc'
      · intro c' hc'
        rw [closeRest_connections] at hc' ⊢
        split
        · rfl
        · next hne => exact h.unborn c' (by simpa [hne] using hc')
  | entered hinput hphase hpending heq => exact heq ▸ { h with }
  | woken events hphase heq => exact heq ▸ { h with }
  | taken hphase hpending heq =>
      subst heq
      constructor
      · exact List.nodup_nil
      · exact nofun
      · exact nofun
      · intro c hc
        simp only [takeOutstanding] at hc ⊢
        split at hc
        · next hin => simpa [hin] using h.unborn c hc
        · next hin => simpa [hin] using h.unborn c hc
  | swept hphase hpending heq =>
      subst heq
      constructor
      · exact h.nodup
      · intro c hc
        simp only [sweep]
        split
        · exact h.marked c hc
        · exact h.marked c hc
      · intro c hc
        simp only [sweep]
        split
        · exact h.unclosed c hc
        · exact h.unclosed c hc
      · intro c hc
        simp only [sweep] at hc ⊢
        split at hc
        · next hin => simpa [hin] using h.unborn c hc
        · next hin => simpa [hin] using h.unborn c hc

end PollingEpoll

end Viriatum
