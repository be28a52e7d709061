import Viriatum.Library.Traces
import Viriatum.Polling.Lemmas.Loop

/-!
# The wake ups of the loop

A wait of the loop leaves nothing behind that is to be done without an event, where whatever the handling of the
outstanding operations has put into the fresh buffers is closed by then.
-/

namespace Viriatum

open Library

/-- The connection that a task is going to reach the write handler of, is in it for, or is to close. -/
def PollingTask.attends : PollingTask → Option Nat
  | .write c | .writeEvent c | .sending c | .walked c _ _ | .closing c => some c
  | _ => none

/-- A connection with a queue is registered, and one that is registered and may be written is watched over. -/
structure PolledConnection.Minded (connection : PolledConnection) (watched : Prop) : Prop where
  registered : connection.status ≠ .closed → 0 < connection.writeQueue → connection.writeRegistered = true
  watched : connection.status = .opened → connection.writeRegistered = true → connection.writeValid = true → watched
  shaking : connection.status = .handshake → connection.writeRegistered = false

theorem PolledConnection.Minded.mono {connection : PolledConnection} {watched watched' : Prop}
    (h : connection.Minded watched) (himp : watched → watched') : connection.Minded watched' :=
  { h with watched := fun hopen hregistered hvalid => himp (h.watched hopen hregistered hvalid) }

namespace PollingEpoll

variable {s s' : PollingEpoll} {c : Nat} {spared : Option Nat} {task : PollingTask}

/-- Every connection is minded, one of them being watched over from outside. -/
def Watchful (spared : Option Nat) (s : PollingEpoll) : Prop :=
  ∀ c, (s.connections c).Minded
    (c ∈ s.writeOutstanding ∨ (∃ task ∈ s.pending, task.attends = some c) ∨ spared = some c)

namespace Watchful

theorem pop {rest : List PollingTask} (h : Watchful none s) (hpending : s.pending = task :: rest) :
    Watchful task.attends { s with pending := rest } := by
  intro c
  apply (h c).mono
  intro hwatched
  simp only [hpending, List.mem_cons, exists_eq_or_imp] at hwatched
  cases hwatched with
  | inl hin => exact .inl hin
  | inr hwatched =>
      cases hwatched with
      | inl hwatched =>
          cases hwatched with
          | inl htask => exact .inr (.inr htask)
          | inr hrest => exact .inr (.inl hrest)
      | inr hnone => cases hnone

theorem push (h : Watchful spared s) (htask : ∀ c, spared = some c → task.attends = some c) :
    Watchful none (s.push task) := by
  intro c
  apply (h c).mono
  intro hwatched
  cases hwatched with
  | inl hin => exact .inl hin
  | inr hwatched =>
      cases hwatched with
      | inl hpending =>
          obtain ⟨other, hmem, hother⟩ := hpending
          exact .inr (.inl ⟨other, by simp [hmem], hother⟩)
      | inr hspared => exact .inr (.inl ⟨task, by simp, htask c hspared⟩)

/-- The connection that is watched over from outside has no need of it. -/
theorem settle (h : Watchful spared s)
    (hspared : ∀ c, spared = some c → (s.connections c).status = .opened → (s.connections c).writeRegistered = true →
      (s.connections c).writeValid = false) : Watchful none s := by
  intro c
  refine { h c with watched := fun hopen hregistered hvalid => ?_ }
  cases (h c).watched hopen hregistered hvalid with
  | inl hin => exact .inl hin
  | inr hwatched =>
      cases hwatched with
      | inl hpending => exact .inr (.inl hpending)
      | inr hc =>
          rw [hspared c hc hopen hregistered] at hvalid
          cases hvalid

theorem set {connection : PolledConnection} (h : Watchful spared s)
    (hc : connection.Minded
      (c ∈ s.writeOutstanding ∨ (∃ task ∈ s.pending, task.attends = some c) ∨ spared = some c)) :
    Watchful spared (s.set c connection) := by
  intro c'
  rw [set_connections]
  split
  · next heq => exact heq ▸ hc
  · exact h c'

theorem invalidate (h : Watchful (some c) s) : Watchful none (s.set c { s.connections c with writeValid := false }) := by
  have hset : Watchful (some c) (s.set c { s.connections c with writeValid := false }) :=
    h.set ⟨(h c).registered, nofun, (h c).shaking⟩
  apply hset.settle
  simp

theorem unregister (h : Watchful (some c) s) (hempty : (s.connections c).writeQueue = 0) :
    Watchful none (s.set c { s.connections c with writeRegistered := false }) := by
  have hset : Watchful (some c) (s.set c { s.connections c with writeRegistered := false }) :=
    h.set ⟨by simp [hempty], nofun, fun _ => rfl⟩
  apply hset.settle
  simp

theorem record (h : Watchful spared s) (entry : PollingRecord) : Watchful spared (s.record entry) := h

theorem call (h : Watchful none s) : Watchful none (s.call c) := (h.record _).push nofun

theorem closeConnection (h : Watchful spared s) (hspared : ∀ c', spared = some c' → c' = c) :
    Watchful none (s.closeConnection c) := by
  unfold PollingEpoll.closeConnection
  split
  · next hclosed =>
      apply h.settle
      intro c' hc' hopen
      rw [hspared c' hc', hclosed] at hopen
      cases hopen
  · exact (h.record _).push fun c' hc' => by simp [PollingTask.attends, hspared c' hc']

theorem closeRest (h : Watchful (some c) s) : Watchful none (s.closeRest c) := by
  intro c'
  rw [closeRest_connections]
  split
  · constructor <;> simp
  · next hne =>
      apply (h c').mono
      simp [List.mem_erase_of_ne hne, Ne.symm hne]

theorem send {input : PollingInput} (h : Watchful (some c) s) (hsend : s.send c input = some s') :
    Watchful none s' := by
  unfold PollingEpoll.send at hsend
  split at hsend
  · next hempty =>
      split at hsend
      · cases hsend
        exact h.unregister hempty
      · cases hsend
  · cases input with
    | sent count partly =>
        simp only [sendAnswered] at hsend
        split at hsend
        · cases hsend
        · cases hsend
          exact h.push fun c' hc' => hc'
    | wouldBlock =>
        cases hsend
        exact h.invalidate
    | broken =>
        cases hsend
        exact h.closeConnection (by simp)
    | proceed => cases hsend
    | act operation => cases hsend
    | ready events => cases hsend

theorem walk {count : Nat} {partly : Bool} (h : Watchful (some c) s) : Watchful none (s.walk c count partly) := by
  have hc := h c
  unfold PollingEpoll.walk
  simp only
  split
  · next hclosed =>
      apply h.settle
      simp [hclosed]
  · split
    · exact h.push fun c' hc' => hc'
    · split
      · exact h.invalidate
      · next hqueue _ =>
          have hset : Watchful (some c)
              (s.set c { s.connections c with writeQueue := (s.connections c).writeQueue - 1 }) :=
            h.set ⟨fun hopen hleft => hc.registered hopen (Nat.lt_of_lt_of_le hleft (Nat.sub_le _ 1)), hc.watched, hc.shaking⟩
          have hwalked : ∀ c', some c = some c' → (PollingTask.walked c (count - 1) partly).attends = some c' := fun _ hc' => hc'
          exact (hset.push hwalked).call

end Watchful

/-! ## The steps -/

/-- No write is registered on a connection that is in the handshake, and when the wait is entered, with a timeout that may
block, what has been put into the buffers since they were taken is closed, the writes having been put there once. -/
def Considerate (input : PollingInput) (s : PollingEpoll) : Prop :=
  match input with
  | .act (.write c) => (s.connections c).status ≠ .handshake
  | .act (.handshake c) => (s.connections c).writeRegistered = false
  | .proceed =>
      s.phase = .polling → s.pending = [] → s.timeout ≠ 0 →
        (∀ c ∈ s.freshReads, (s.connections c).status = .closed) ∧
          (∀ c ∈ s.freshWrites, (s.connections c).status = .closed) ∧ s.freshWrites.Nodup
  | _ => True

/-- A value that is queued is either put into the buffer, or is watched over already, or waits for an edge. -/
theorem Watchful.registerWrite (h : Watchful none s) (hshaking : (s.connections c).status ≠ .handshake) :
    Watchful none
      ((s.set c { s.connections c with writeQueue := (s.connections c).writeQueue + 1 }).registerWrite c) := by
  have hset : (s.set c { s.connections c with writeQueue := (s.connections c).writeQueue + 1 }).set c
      { s.connections c with writeQueue := (s.connections c).writeQueue + 1, writeRegistered := true } =
      s.set c { s.connections c with writeQueue := (s.connections c).writeQueue + 1, writeRegistered := true } := by
    simp [PollingEpoll.set]
  unfold PollingEpoll.registerWrite
  simp only [set_connections_self, hset]
  split
  · next hkept =>
      apply h.set
      refine ⟨fun _ _ => rfl, fun hopen _ hvalid => ?_, fun hc => absurd hc hshaking⟩
      have hopen' : (s.connections c).status = .opened := hopen
      have hvalid' : (s.connections c).writeValid = true := hvalid
      have hregistered : (s.connections c).writeRegistered = true := by simpa [hopen', hvalid'] using hkept
      exact (h c).watched hopen hregistered hvalid
  · intro c'
    simp only [set_connections]
    split
    · next heq =>
        subst heq
        exact ⟨fun _ _ => rfl, fun _ _ _ => .inl (by simp), fun hc => absurd hc hshaking⟩
    · apply (h c').mono
      intro hwatched
      cases hwatched with
      | inl hin => exact .inl (List.mem_append_left _ hin)
      | inr hpending => exact .inr hpending

theorem Watchful.act {operation : PollingOperation} (h : Watchful none s) (hact : s.act operation = some s')
    (hconsiderate : Considerate (.act operation) s) : Watchful none s' := by
  cases operation with
  | openConnection c =>
      simp only [PollingEpoll.act] at hact
      split at hact
      · cases hact
      · cases hact
        exact (h.set ⟨by simp, by simp, by simp⟩).call
  | handshake c =>
      simp only [PollingEpoll.act] at hact
      split at hact
      · cases hact
      · next hopen =>
          cases hact
          exact h.set ⟨fun _ => (h c).registered hopen, by simp, fun _ => hconsiderate⟩
  | establish c =>
      simp only [PollingEpoll.act] at hact
      split at hact
      · next hshaking =>
          cases hact
          have hfree := (h c).shaking hshaking
          exact h.set ⟨fun _ => (h c).registered (by simp [hshaking]), by simp [hfree], by simp⟩
      · cases hact
  | write c =>
      simp only [PollingEpoll.act] at hact
      split at hact
      · cases hact
      · next hopen =>
          cases hact
          exact h.registerWrite hconsiderate
  | addOutstanding c =>
      simp only [PollingEpoll.act] at hact
      split at hact
      · cases hact
      · cases hact
        unfold PollingEpoll.addOutstanding
        simp only
        split
        · exact h
        · exact h.set { h c with }
  | close c =>
      simp only [PollingEpoll.act] at hact
      split at hact
      · cases hact
      · cases hact
        exact h.closeConnection (by simp)
  | flush c =>
      simp only [PollingEpoll.act] at hact
      split at hact
      · cases hact
      · cases hact
        exact h.push (by simp)
  | setTimeout timeout =>
      cases hact
      exact h

theorem Watchful.resume {input : PollingInput} (h : Watchful task.attends s)
    (hresume : s.resume task input = some s') (hinput : ∀ operation, input ≠ .act operation) : Watchful none s' := by
  cases task with
  | sending c => exact h.send hresume
  | callback c =>
      cases input with
      | act operation => exact absurd rfl (hinput operation)
      | proceed =>
          cases hresume
          exact h
      | _ => cases hresume
  | closing c =>
      cases input with
      | act operation => exact absurd rfl (hinput operation)
      | proceed =>
          cases hresume
          exact h.closeRest
      | _ => cases hresume
  | walked c count partly =>
      cases input with
      | proceed =>
          cases hresume
          exact h.walk
      | _ => cases hresume
  | read c =>
      cases input with
      | proceed =>
          cases hresume
          split
          · exact h.call
          · exact h
      | _ => cases hresume
  | write c =>
      cases input with
      | proceed =>
          cases hresume
          split
          · exact (h.record _).push fun c' hc' => hc'
          · next hclosed =>
              apply h.settle
              intro c' hc' hopen
              cases hc'
              exact absurd hopen hclosed
      | _ => cases hresume
  | readEvent c =>
      cases input with
      | proceed =>
          cases hresume
          split
          · exact (h.push nofun).call
          · exact h.push nofun
      | _ => cases hresume
  | writeEvent c =>
      cases input with
      | proceed =>
          cases hresume
          have hset : Watchful (some c) (s.set c { s.connections c with writeValid := true }) :=
            h.set ⟨(h c).registered, fun _ _ _ => .inr (.inr rfl), (h c).shaking⟩
          exact hset.push fun c' hc' => hc'
      | _ => cases hresume
  | errorEvent c =>
      cases input with
      | proceed =>
          cases hresume
          split
          · exact (h.record _).closeConnection nofun
          · exact h
      | _ => cases hresume

/-- The outstanding writes are handled from the stack once their buffer has been taken. -/
theorem Watchful.takeOutstanding (h : Watchful none s) (hpending : s.pending = []) :
    Watchful none s.takeOutstanding := by
  intro c
  have htaken : (c ∈ s.writeOutstanding ∨ (∃ task ∈ s.pending, task.attends = some c) ∨ (none : Option Nat) = some c) →
      c ∈ s.takeOutstanding.writeOutstanding ∨
        (∃ task ∈ s.takeOutstanding.pending, task.attends = some c) ∨ (none : Option Nat) = some c := by
    intro hwatched
    cases hwatched with
    | inl hin => exact .inr (.inl ⟨.write c, by simp [PollingEpoll.takeOutstanding, hin], rfl⟩)
    | inr hwatched => simp [hpending] at hwatched
  have hc := (h c).mono htaken
  simp only [PollingEpoll.takeOutstanding] at hc ⊢
  split
  · exact { hc with }
  · exact hc

theorem Watchful.turn {input : PollingInput} (h : Watchful none s) (hpending : s.pending = [])
    (hturn : s.turn input = some s') (hinput : ∀ operation, input ≠ .act operation) : Watchful none s' := by
  unfold PollingEpoll.turn at hturn
  split at hturn
  · cases hturn
    exact h
  · split at hturn
    · cases hturn
    · cases hturn
      intro c
      apply (h c).mono
      intro hwatched
      cases hwatched with
      | inl hin => exact .inl hin
      | inr hwatched => simp [hpending] at hwatched
  · cases hturn
    intro c
    simp only [sweep]
    split
    · exact { h c with }
    · exact h c
  · exact absurd rfl (hinput _)
  · cases hturn
    exact h.takeOutstanding hpending
  · cases hturn

theorem Watchful.step {input : PollingInput} (h : Watchful none s) (hstep : step input s = some s')
    (hconsiderate : Considerate input s) : Watchful none s' := by
  unfold PollingEpoll.step at hstep
  split at hstep
  · next hpending =>
      cases input with
      | act operation => exact h.act (turn_act hstep) hconsiderate
      | _ => exact h.turn hpending hstep (by simp)
  · next task rest hpending =>
      cases input with
      | act operation =>
          cases task with
          | callback c =>
              simp only [PollingEpoll.resume, pop_push hpending] at hstep
              exact h.act hstep hconsiderate
          | closing c =>
              simp only [PollingEpoll.resume, pop_push hpending] at hstep
              exact h.act hstep hconsiderate
          | sending c => exact (h.pop hpending).send hstep
          | _ => cases hstep
      | _ => exact (h.pop hpending).resume hstep (by simp)

/-- What the buffers hold has been put into them since they were taken, and no more often than that; a connection that is
closed has been taken out of them once. -/
structure Counted (s : PollingEpoll) : Prop where
  reads : ∀ c ∈ s.readOutstanding, c ∈ s.freshReads
  writes : ∀ c, s.writeOutstanding.count c ≤ s.freshWrites.count c
  closed : ∀ c, (s.connections c).status = .closed → s.writeOutstanding.count c ≤ s.freshWrites.count c - 1

theorem Counted.quiet (h : s.Counted) (hquiet : s.Quiet s') : s'.Counted where
  reads c hc := hquiet.freshReads ▸ h.reads c (hquiet.readOutstanding ▸ hc)
  writes c := by simpa [hquiet.writeOutstanding, hquiet.freshWrites] using h.writes c
  closed c hc := by
    simpa [hquiet.writeOutstanding, hquiet.freshWrites] using h.closed c ((hquiet.connections c).closed.mp hc)

theorem Counted.step {input : PollingInput} (h : s.Counted) (hmove : Move input s s') : s'.Counted := by
  cases hmove with
  | quiet hquiet => exact h.quiet hquiet
  | opened c hnew heq =>
      subst heq
      constructor
      · exact h.reads
      · exact h.writes
      · intro c' hc'
        simp only [call, push_connections, record_connections, set_connections] at hc'
        split at hc'
        · cases hc'
        · exact h.closed c' hc'
  | registered c t hinput hquiet hfree hvalid hopen heq =>
      have ht := h.quiet hquiet
      subst heq
      constructor
      · exact ht.reads
      · intro c'
        simpa [List.count_append] using ht.writes c'
      · intro c' hc'
        have hne : c ≠ c' := by
          rintro rfl
          have hclosed := (hquiet.connections c).closed.mp hc'
          rw [hopen] at hclosed
          cases hclosed
        simpa [List.count_append, List.count_singleton, hne] using ht.closed c' hc'
  | delayed c hinput hfree hopen heq =>
      subst heq
      simp only [addOutstanding, hfree, Bool.false_eq_true, if_false]
      constructor
      · intro c' hc'
        simp only [List.mem_append] at hc' ⊢
        exact hc'.imp_left (h.reads c')
      · exact h.writes
      · intro c' hc'
        simp only [set_connections] at hc'
        split at hc'
        · exact absurd hc' hopen
        · exact h.closed c' hc'
  | closed c rest hinput hpending heq =>
      have hfresh : s'.freshReads = s.freshReads ∧ s'.freshWrites = s.freshWrites := by
        rw [heq, closeRest, record, removeConnection]
        simp only
        split <;> exact ⟨rfl, rfl⟩
      have hless : ∀ c', s'.writeOutstanding.count c' ≤ s.writeOutstanding.count c' := by
        intro c'
        rw [heq, closeRest_writeOutstanding]
        exact List.erase_sublist.count_le c'
      constructor
      · intro c' hc'
        rw [heq, closeRest_readOutstanding] at hc'
        exact hfresh.1 ▸ h.reads c' (List.mem_of_mem_erase hc')
      · exact fun c' => hfresh.2 ▸ Nat.le_trans (hless c') (h.writes c')
      · intro c' hc'
        rw [hfresh.2]
        cases decEq c' c with
        | isTrue hsame =>
            rw [heq, closeRest_writeOutstanding, hsame, List.count_erase_self]
            exact Nat.sub_le_sub_right (h.writes c) 1
        | isFalse hne =>
            rw [heq, closeRest_connections, if_neg hne] at hc'
            exact Nat.le_trans (hless c') (h.closed c' hc')
  | taken hphase hpending heq =>
      subst heq
      exact ⟨(fun c hc => by cases hc), fun c => Nat.le_refl 0, fun c _ => Nat.le_refl 0⟩
  | entered hinput hphase hpending heq => exact heq ▸ { h with }
  | woken events hphase heq => exact heq ▸ { h with }
  | swept hphase hpending heq =>
      subst heq
      refine ⟨h.reads, h.writes, fun c hc => h.closed c ?_⟩
      simp only [sweep] at hc
      split at hc <;> exact hc

/-! ## Runs -/

/-- Nothing is left that could be done without an event. -/
structure Awake (s : PollingEpoll) : Prop where
  reads : s.readOutstanding = []
  writes : s.writeOutstanding = []
  edges : ∀ c, (s.connections c).status = .opened → 0 < (s.connections c).writeQueue →
    (s.connections c).writeValid = false

/-- What is kept of the loop. -/
structure Attentive (s : PollingEpoll) : Prop where
  once : s.ReadsOnce
  counted : s.Counted
  watchful : Watchful none s
  waiting : s.phase = .waiting → s.pending = [] ∧ (s.timeout ≠ 0 → s.Awake)

theorem Attentive.enter (h : s.Attentive) (hconsiderate : Considerate .proceed s) (hphase : s.phase = .polling)
    (hpending : s.pending = []) (htimeout : s.timeout ≠ 0) : s.Awake := by
  obtain ⟨hreads, hwrites, hnodup⟩ := hconsiderate hphase hpending htimeout
  have hempty : s.writeOutstanding = [] := by
    apply List.eq_nil_iff_forall_not_mem.mpr
    intro c hc
    have hin : 0 < s.writeOutstanding.count c := List.count_pos_iff.mpr hc
    have hfresh : c ∈ s.freshWrites := List.count_pos_iff.mp (Nat.lt_of_lt_of_le hin (h.counted.writes c))
    have hgone := h.counted.closed c (hwrites c hfresh)
    rw [List.count_eq_one_of_mem hnodup hfresh] at hgone
    exact Nat.not_lt.mpr hgone hin
  constructor
  · apply List.eq_nil_iff_forall_not_mem.mpr
    exact fun c hc => h.once.unclosed c hc (hreads c (h.counted.reads c hc))
  · exact hempty
  · intro c hopen hqueue
    cases hvalid : (s.connections c).writeValid with
    | false => rfl
    | true =>
        have hregistered := (h.watchful c).registered (by rw [hopen]; nofun) hqueue
        have hwatched := (h.watchful c).watched hopen hregistered hvalid
        simp [hempty, hpending] at hwatched

theorem Attentive.step {input : PollingInput} (h : s.Attentive) (hconsiderate : Considerate input s)
    (hstep : step input s = some s') : s'.Attentive where
  once := h.once.step (step_move hstep)
  counted := h.counted.step (step_move hstep)
  watchful := h.watchful.step hstep hconsiderate
  waiting hwaiting := by
    cases hphase : s.phase with
    | waiting =>
        have hpending := (h.waiting hphase).1
        obtain ⟨events, rfl⟩ := turn_waiting hphase (by simpa [PollingEpoll.step, hpending] using hstep)
        cases hwaiting
    | _ =>
        cases step_move hstep with
        | entered hinput hpolling hpending heq =>
            subst heq hinput
            refine ⟨hpending, fun htimeout => ?_⟩
            exact { h.enter hconsiderate hpolling hpending htimeout with }
        | quiet hquiet => simp [hquiet.phase, hphase] at hwaiting
        | opened c hnew heq => simp [heq, call, hphase] at hwaiting
        | registered c t hinput hquiet hfree hvalid hopen heq => simp [heq, hquiet.phase, hphase] at hwaiting
        | delayed c hinput hfree hopen heq => simp [heq, addOutstanding, hfree, hphase] at hwaiting
        | closed c rest hinput hpending heq => simp [heq, hphase] at hwaiting
        | taken hcycling hpending heq => simp [heq, takeOutstanding] at hwaiting
        | woken events hbefore heq => simp [heq, takeEvents] at hwaiting
        | swept hcalling hpending heq => simp [heq, sweep] at hwaiting

theorem start_attentive : start.Attentive where
  once := ⟨List.nodup_nil, nofun, nofun, fun _ _ => rfl⟩
  counted := ⟨nofun, fun _ => Nat.le_refl 0, fun _ _ => Nat.le_refl 0⟩
  watchful c := ⟨by simp [start], by simp [start], by simp [start]⟩
  waiting := nofun

theorem run_attentive {inputs : List PollingInput} (hmeets : Meets step Considerate inputs start)
    (hrun : run inputs start = some s) : s.Attentive :=
  hmeets.keeps (fun _ _ _ h hconsiderate hstep => h.step hconsiderate hstep) hrun start_attentive

instance (input : PollingInput) (s : PollingEpoll) : Decidable (Considerate input s) :=
  match input with
  | .proceed =>
      inferInstanceAs (Decidable (s.phase = .polling → s.pending = [] → s.timeout ≠ 0 →
        (∀ c ∈ s.freshReads, (s.connections c).status = .closed) ∧
          (∀ c ∈ s.freshWrites, (s.connections c).status = .closed) ∧ s.freshWrites.Nodup))
  | .act operation => match operation with
    | .write c => inferInstanceAs (Decidable ((s.connections c).status ≠ .handshake))
    | .handshake c => inferInstanceAs (Decidable ((s.connections c).writeRegistered = false))
    | .openConnection _ | .establish _ | .addOutstanding _ | .close _ | .flush _ | .setTimeout _ => isTrue trivial
  | .sent _ _ | .wouldBlock | .broken | .ready _ => isTrue trivial

/-- A connection is accepted and may be written; its request is answered when it is read. -/
def promptRun : List PollingInput :=
  [.act (.openConnection 1), .proceed, .proceed, .proceed, .ready [⟨1, true, true, false⟩], .proceed, .proceed,
    .act (.write 1), .proceed, .proceed, .proceed, .sent 1 false, .proceed, .proceed, .proceed, .proceed, .proceed,
    .proceed, .proceed]

/-- The same, the rest of the request being left for the next round and answered then. -/
def delayedRun : List PollingInput :=
  [.act (.openConnection 1), .proceed, .proceed, .proceed, .ready [⟨1, true, true, false⟩], .proceed, .proceed,
    .act (.addOutstanding 1), .proceed, .proceed, .proceed, .proceed, .proceed, .proceed, .proceed,
    .act (.write 1), .proceed, .proceed]

end PollingEpoll

end Viriatum
