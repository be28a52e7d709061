import Viriatum.Library.Traces
import Viriatum.Polling.Lemmas.Loop

/-!
# The buffers of the loop

The buffers keep to their size and hold no connection that has been deleted, and every connection that is closed is
deleted once, after the last callback of it, where each step finds room in the buffer that it puts a connection into and
takes every entry of a connection that it closes out of the outstanding writes.
-/

namespace Viriatum

open Library

/-- After a connection has been deleted it is neither called nor deleted. -/
def PollingRecord.Precedes (earlier later : PollingRecord) : Prop :=
  ∀ c, earlier = .deleted c → later ≠ .called c ∧ later ≠ .deleted c

namespace PollingEpoll

variable {s s' : PollingEpoll} {c : Nat}

/-- What is to hold of the buffers, and of the lives of the connections. -/
structure Tidy (s : PollingEpoll) : Prop where
  reads : s.readOutstanding.length ≤ viriatumMaxEvents
  writes : s.writeOutstanding.length ≤ viriatumMaxEvents
  removals : s.removeConnections.length ≤ viriatumMaxEvents
  alive : ∀ c, c ∈ s.readOutstanding ∨ c ∈ s.writeOutstanding ∨ c ∈ s.removeConnections →
    (s.connections c).deleted = false
  lives : s.log.Pairwise PollingRecord.Precedes
  closed : ∀ c, (s.connections c).created = true → (s.connections c).status = .closed →
    .deleted c ∈ s.log ∨ c ∈ s.removeConnections
  swept : s.log.getLast? = some .swept → s.removeConnections = []

/-- There is room in the buffer that a step puts a connection into, and a connection that it closes is in the outstanding
writes once at most, unless they are taken before the next deletion. -/
def Fits (input : PollingInput) (s : PollingEpoll) : Prop :=
  match input with
  | .act (.write c) =>
      (s.connections c).writeRegistered = false → (s.connections c).writeValid = true →
        (s.connections c).status = .opened → s.writeOutstanding.length < viriatumMaxEvents
  | .act (.addOutstanding c) =>
      (s.connections c).isOutstanding = false → s.readOutstanding.length < viriatumMaxEvents
  | .proceed =>
      match s.pending with
      | .closing c :: _ =>
          (c ∉ s.removeConnections → s.removeConnections.length < viriatumMaxEvents) ∧
            (s.phase ≠ .cycling → s.writeOutstanding.count c ≤ 1)
      | _ => True
  | _ => True

instance (input : PollingInput) (s : PollingEpoll) : Decidable (Fits input s) := by
  unfold Fits
  split
  · infer_instance
  · infer_instance
  · split <;> infer_instance
  · infer_instance

/-- What is kept of the buffers, and of the lives of the connections. -/
structure Kept (s : PollingEpoll) : Prop where
  once : s.ReadsOnce
  reads : s.readOutstanding.length ≤ viriatumMaxEvents
  writes : s.writeOutstanding.length ≤ viriatumMaxEvents
  removals : s.removeConnections.length ≤ viriatumMaxEvents
  taken : ∀ c ∈ s.writeOutstanding, (s.connections c).status = .closed → s.phase = .cycling ∧ (s.connections c).deleted = false
  removed : ∀ c ∈ s.removeConnections, (s.connections c).status = .closed ∧ (s.connections c).created = true ∧
    (s.connections c).deleted = false
  nodup : s.removeConnections.Nodup
  dead : ∀ c, (s.connections c).deleted = true → (s.connections c).status = .closed ∧ (s.connections c).created = true
  logged : ∀ c, (s.connections c).deleted = true ↔ .deleted c ∈ s.log
  lives : s.log.Pairwise PollingRecord.Precedes
  closed : ∀ c, (s.connections c).created = true → (s.connections c).status = .closed →
    (s.connections c).deleted = true ∨ c ∈ s.removeConnections
  swept : s.log.getLast? = some .swept → s.removeConnections = []
  closing : ∀ c, .closing c ∈ s.pending → (s.connections c).created = true ∧ (s.connections c).deleted = false

theorem Kept.tidy (h : s.Kept) : s.Tidy where
  reads := h.reads
  writes := h.writes
  removals := h.removals
  alive c hc := by
    cases hdeleted : (s.connections c).deleted with
    | false => rfl
    | true =>
        have hclosed := (h.dead c hdeleted).1
        cases hc with
        | inl hread => exact absurd hclosed (h.once.unclosed c hread)
        | inr hc =>
            cases hc with
            | inl hwrite => exact hdeleted ▸ (h.taken c hwrite hclosed).2
            | inr hremoved => exact hdeleted ▸ (h.removed c hremoved).2.2
  lives := h.lives
  closed c hcreated hclosed := (h.closed c hcreated hclosed).imp_left (h.logged c).mp
  swept := h.swept

/-! ## The steps -/

/-- The log after calls of connections that are not closed. -/
theorem lives_called {log : List PollingRecord} {cs : List Nat} (h : log.Pairwise PollingRecord.Precedes)
    (halive : ∀ c ∈ cs, PollingRecord.deleted c ∉ log) :
    (log ++ cs.map PollingRecord.called).Pairwise PollingRecord.Precedes := by
  apply List.pairwise_append.mpr
  refine ⟨h, ?_, ?_⟩
  · apply List.pairwise_map.mpr
    exact List.pairwise_of_forall nofun
  · intro earlier hearlier later hlater c heq
    obtain ⟨c', hc', rfl⟩ := List.mem_map.mp hlater
    refine ⟨fun heq' => ?_, by simp⟩
    cases heq'
    exact halive c hc' (heq ▸ hearlier)

theorem Kept.quiet (h : s.Kept) (hquiet : s.Quiet s') : s'.Kept := by
  obtain ⟨cs, hlog, hopen⟩ := hquiet.log
  have halive : ∀ c ∈ cs, PollingRecord.deleted c ∉ s.log := fun c hc hdeleted =>
    hopen c hc (h.dead c ((h.logged c).mpr hdeleted)).1
  constructor
  · exact h.once.quiet hquiet
  · exact hquiet.readOutstanding ▸ h.reads
  · exact hquiet.writeOutstanding ▸ h.writes
  · exact hquiet.removeConnections ▸ h.removals
  · intro c hc hclosed
    rw [hquiet.phase, (hquiet.connections c).deleted]
    exact h.taken c (hquiet.writeOutstanding ▸ hc) ((hquiet.connections c).closed.mp hclosed)
  · intro c hc
    rw [(hquiet.connections c).closed, (hquiet.connections c).created, (hquiet.connections c).deleted]
    exact h.removed c (hquiet.removeConnections ▸ hc)
  · exact hquiet.removeConnections ▸ h.nodup
  · intro c hc
    rw [(hquiet.connections c).closed, (hquiet.connections c).created]
    exact h.dead c ((hquiet.connections c).deleted ▸ hc)
  · intro c
    rw [(hquiet.connections c).deleted, h.logged c, hlog]
    simp
  · exact hlog ▸ lives_called h.lives halive
  · intro c hcreated hclosed
    rw [(hquiet.connections c).deleted, hquiet.removeConnections]
    exact h.closed c ((hquiet.connections c).created ▸ hcreated) ((hquiet.connections c).closed.mp hclosed)
  · intro hlast
    rw [hquiet.removeConnections]
    rw [hlog] at hlast
    cases cs using List.reverseRecOn with
    | nil => exact h.swept (by simpa using hlast)
    | append_singleton cs c _ => simp at hlast
  · intro c hc
    rw [(hquiet.connections c).created, (hquiet.connections c).deleted]
    cases hquiet.closing c hc with
    | inl hc => exact h.closing c hc
    | inr hopen =>
        constructor
        · cases hcreated : (s.connections c).created with
          | true => rfl
          | false => exact absurd (h.once.unborn c hcreated) hopen
        · cases hdeleted : (s.connections c).deleted with
          | false => rfl
          | true => exact absurd (h.dead c hdeleted).1 hopen

theorem Kept.opened (h : s.Kept) (hnew : (s.connections c).created = false)
    (honce : ((s.set c { status := .opened, created := true }).call c).ReadsOnce) :
    ((s.set c { status := .opened, created := true }).call c).Kept := by
  have hdeleted : (s.connections c).deleted = false := by
    cases hdeleted : (s.connections c).deleted with
    | false => rfl
    | true => simp [(h.dead c hdeleted).2] at hnew
  have hother : ∀ {c' connection}, c' ≠ c →
      ((s.set c connection).call c).connections c' = s.connections c' := fun hne => by
    simp [call, set_connections, hne]
  constructor
  · exact honce
  · exact h.reads
  · exact h.writes
  · exact h.removals
  · intro c' hc' hclosed
    cases decEq c' c with
    | isTrue heq => simp [call, heq] at hclosed
    | isFalse hne =>
        rw [hother hne] at hclosed ⊢
        exact h.taken c' hc' hclosed
  · intro c' hc'
    have hne : c' ≠ c := by
      rintro rfl
      simp [(h.removed c' hc').2.1] at hnew
    rw [hother hne]
    exact h.removed c' hc'
  · exact h.nodup
  · intro c' hc'
    cases decEq c' c with
    | isTrue heq => simp [call, heq] at hc'
    | isFalse hne =>
        rw [hother hne] at hc' ⊢
        exact h.dead c' hc'
  · intro c'
    have hlogged : PollingRecord.deleted c' ∈ ((s.set c { status := .opened, created := true }).call c).log ↔
        PollingRecord.deleted c' ∈ s.log := by simp [call, record, push, set]
    rw [hlogged]
    cases decEq c' c with
    | isTrue heq => simp [call, heq, ← h.logged, hdeleted]
    | isFalse hne =>
        rw [hother hne]
        exact h.logged c'
  · have hlives : (s.log ++ [c].map PollingRecord.called).Pairwise PollingRecord.Precedes :=
      lives_called h.lives (by simp [← h.logged, hdeleted])
    exact hlives
  · intro c' hcreated hclosed
    cases decEq c' c with
    | isTrue heq => simp [call, heq] at hclosed
    | isFalse hne =>
        rw [hother hne] at hcreated hclosed ⊢
        exact h.closed c' hcreated hclosed
  · intro hlast
    simp [call, record, push] at hlast
  · intro c' hc'
    have hin : .closing c' ∈ s.pending := by simpa [call] using hc'
    have hne : c' ≠ c := by
      rintro rfl
      simp [(h.closing c' hin).1] at hnew
    rw [hother hne]
    exact h.closing c' hin

theorem Kept.registered (h : s.Kept) (hopen : (s.connections c).status ≠ .closed)
    (hroom : s.writeOutstanding.length < viriatumMaxEvents) :
    Kept { s with writeOutstanding := s.writeOutstanding ++ [c], freshWrites := s.freshWrites ++ [c] } := by
  refine { h with once := { h.once with }, writes := ?_, taken := fun c' hc' hclosed => ?_ }
  · simpa using Nat.succ_le_of_lt hroom
  · cases List.mem_append.mp hc' with
    | inl hin => exact h.taken c' hin hclosed
    | inr hlast =>
        rw [List.mem_singleton.mp hlast] at hclosed
        exact absurd hclosed hopen

theorem Kept.delayed (h : s.Kept) (hfree : (s.connections c).isOutstanding = false)
    (hroom : s.readOutstanding.length < viriatumMaxEvents) (honce : (s.addOutstanding c).ReadsOnce) :
    (s.addOutstanding c).Kept := by
  have hsame : ∀ c', ((s.addOutstanding c).connections c').status = (s.connections c').status ∧
      ((s.addOutstanding c).connections c').created = (s.connections c').created ∧
      ((s.addOutstanding c).connections c').deleted = (s.connections c').deleted := by
    intro c'
    simp only [addOutstanding, hfree, Bool.false_eq_true, if_false, set_connections]
    split
    · next heq => exact heq ▸ ⟨rfl, rfl, rfl⟩
    · exact ⟨rfl, rfl, rfl⟩
  have hbuffers : (s.addOutstanding c).readOutstanding = s.readOutstanding ++ [c] ∧
      s.addOutstanding c = { s with
        connections := (s.addOutstanding c).connections
        readOutstanding := s.readOutstanding ++ [c]
        freshReads := s.freshReads ++ [c] } := by
    simp [addOutstanding, hfree, PollingEpoll.set]
  rw [hbuffers.2] at honce ⊢
  constructor
  · exact honce
  · simpa using Nat.succ_le_of_lt hroom
  · exact h.writes
  · exact h.removals
  · intro c' hc' hclosed
    obtain ⟨hstatus, hcreated, hdeleted⟩ := hsame c'
    exact ⟨(h.taken c' hc' (hstatus ▸ hclosed)).1, hdeleted.trans (h.taken c' hc' (hstatus ▸ hclosed)).2⟩
  · intro c' hc'
    obtain ⟨hstatus, hcreated, hdeleted⟩ := hsame c'
    simpa [hstatus, hcreated, hdeleted] using h.removed c' hc'
  · exact h.nodup
  · intro c' hc'
    obtain ⟨hstatus, hcreated, hdeleted⟩ := hsame c'
    simpa [hstatus, hcreated] using h.dead c' (hdeleted ▸ hc')
  · intro c'
    simpa [(hsame c').2.2] using h.logged c'
  · exact h.lives
  · intro c' hc' hclosed
    obtain ⟨hstatus, hcreated, hdeleted⟩ := hsame c'
    simpa [hdeleted] using h.closed c' (hcreated ▸ hc') (hstatus ▸ hclosed)
  · exact h.swept
  · intro c' hc'
    obtain ⟨hstatus, hcreated, hdeleted⟩ := hsame c'
    simpa [hcreated, hdeleted] using h.closing c' hc'

theorem closeRest_removeConnections (s : PollingEpoll) (c : Nat) :
    (s.closeRest c).removeConnections =
      if c ∈ s.removeConnections then s.removeConnections else s.removeConnections ++ [c] := by
  simp only [closeRest, record, removeConnection, set]
  split
  · next hin => simp [hin]
  · next hnew => simp [hnew]

theorem closeRest_log (s : PollingEpoll) (c : Nat) : (s.closeRest c).log = s.log ++ [.closed c] := by
  cases Decidable.em (c ∈ s.removeConnections) with
  | inl hin => simp [closeRest, record, removeConnection, set, hin]
  | inr hnew => simp [closeRest, record, removeConnection, set, hnew]

/-- A connection that is closed is taken out of the outstanding writes, or these are taken before the next deletion. -/
theorem Kept.closeRest (h : s.Kept) (hcreated : (s.connections c).created = true)
    (hdeleted : (s.connections c).deleted = false)
    (hroom : c ∉ s.removeConnections → s.removeConnections.length < viriatumMaxEvents)
    (hsingle : s.phase ≠ .cycling → s.writeOutstanding.count c ≤ 1) (honce : (s.closeRest c).ReadsOnce) :
    (s.closeRest c).Kept := by
  constructor
  · exact honce
  · rw [closeRest_readOutstanding]
    exact Nat.le_trans List.length_erase_le h.reads
  · rw [closeRest_writeOutstanding]
    exact Nat.le_trans List.length_erase_le h.writes
  · rw [closeRest_removeConnections]
    split
    · exact h.removals
    · next hnew => simpa using Nat.succ_le_of_lt (hroom hnew)
  · intro c' hc' hclosed
    rw [closeRest_writeOutstanding] at hc'
    rw [closeRest_connections] at hclosed ⊢
    rw [closeRest_phase]
    cases decEq c' c with
    | isTrue heq =>
        subst heq
        rw [if_pos rfl]
        refine ⟨?_, hdeleted⟩
        cases decEq s.phase .cycling with
        | isTrue hphase => exact hphase
        | isFalse hphase =>
            have hleft : 0 < (s.writeOutstanding.erase c').count c' := List.count_pos_iff.mpr hc'
            rw [List.count_erase_self] at hleft
            exact absurd (hsingle hphase) (by omega)
    | isFalse hne =>
        rw [if_neg hne] at hclosed ⊢
        exact h.taken c' (List.mem_of_mem_erase hc') hclosed
  · intro c' hc'
    rw [closeRest_connections]
    split
    · exact ⟨rfl, hcreated, hdeleted⟩
    · next hne =>
        apply h.removed c'
        rw [closeRest_removeConnections] at hc'
        split at hc'
        · exact hc'
        · simpa [hne] using hc'
  · rw [closeRest_removeConnections]
    split
    · exact h.nodup
    · next hnew => simpa [List.nodup_append] using ⟨h.nodup, fun c' hc' heq => hnew (heq ▸ hc')⟩
  · intro c' hc'
    rw [closeRest_connections] at hc' ⊢
    split
    · exact ⟨rfl, hcreated⟩
    · next hne => exact h.dead c' (by simpa [hne] using hc')
  · intro c'
    rw [closeRest_connections, closeRest_log]
    split
    · next heq => simpa [heq] using h.logged c
    · simpa using h.logged c'
  · rw [closeRest_log]
    apply List.pairwise_append.mpr
    refine ⟨h.lives, by simp, fun earlier _ later hlater c' _ => ?_⟩
    rw [List.mem_singleton.mp hlater]
    exact ⟨nofun, nofun⟩
  · intro c' hc' hclosed
    rw [closeRest_connections] at hc' hclosed ⊢
    rw [closeRest_removeConnections]
    split
    · next heq =>
        subst heq
        apply Or.inr
        split
        · assumption
        · simp
    · next hne =>
        rw [if_neg hne] at hc' hclosed
        cases h.closed c' hc' hclosed with
        | inl hgone => exact .inl hgone
        | inr hin =>
            apply Or.inr
            split
            · exact hin
            · exact List.mem_append_left _ hin
  · intro hlast
    simp [closeRest_log] at hlast
  · intro c' hc'
    rw [closeRest_pending] at hc'
    rw [closeRest_connections]
    split
    · exact ⟨hcreated, hdeleted⟩
    · exact h.closing c' hc'

theorem Kept.takeOutstanding (h : s.Kept) (honce : s.takeOutstanding.ReadsOnce) :
    s.takeOutstanding.Kept := by
  have hsame : ∀ c, (s.takeOutstanding.connections c).status = (s.connections c).status ∧
      (s.takeOutstanding.connections c).created = (s.connections c).created ∧
      (s.takeOutstanding.connections c).deleted = (s.connections c).deleted := by
    intro c
    simp only [PollingEpoll.takeOutstanding]
    split <;> exact ⟨rfl, rfl, rfl⟩
  constructor
  · exact honce
  · exact Nat.zero_le _
  · exact Nat.zero_le _
  · exact h.removals
  · intro c hc
    cases hc
  · intro c hc
    obtain ⟨hstatus, hcreated, hdeleted⟩ := hsame c
    rw [hstatus, hcreated, hdeleted]
    exact h.removed c hc
  · exact h.nodup
  · intro c hc
    obtain ⟨hstatus, hcreated, hdeleted⟩ := hsame c
    rw [hstatus, hcreated]
    exact h.dead c (hdeleted ▸ hc)
  · intro c
    rw [(hsame c).2.2]
    exact h.logged c
  · exact h.lives
  · intro c hc hclosed
    obtain ⟨hstatus, hcreated, hdeleted⟩ := hsame c
    rw [hdeleted]
    exact h.closed c (hcreated ▸ hc) (hstatus ▸ hclosed)
  · exact h.swept
  · intro c hc
    simp [PollingEpoll.takeOutstanding] at hc

theorem Kept.sweep (h : s.Kept) (hphase : s.phase = .calling) (hpending : s.pending = []) (honce : s.sweep.ReadsOnce) :
    s.sweep.Kept := by
  have hdeleted : ∀ c, (s.sweep.connections c).deleted = true ↔
      (s.connections c).deleted = true ∨ c ∈ s.removeConnections := by
    intro c
    simp only [PollingEpoll.sweep]
    split
    · next hin => simp [hin]
    · next hin => simp [hin]
  have hsame : ∀ c, (s.sweep.connections c).status = (s.connections c).status ∧
      (s.sweep.connections c).created = (s.connections c).created := by
    intro c
    simp only [PollingEpoll.sweep]
    split <;> exact ⟨rfl, rfl⟩
  have hclosed : ∀ c, (s.sweep.connections c).deleted = true →
      (s.connections c).status = .closed ∧ (s.connections c).created = true := by
    intro c hc
    cases (hdeleted c).mp hc with
    | inl hc => exact h.dead c hc
    | inr hc => exact ⟨(h.removed c hc).1, (h.removed c hc).2.1⟩
  constructor
  · exact honce
  · exact h.reads
  · exact h.writes
  · exact Nat.zero_le _
  · intro c hc hstatus
    have hbefore := (h.taken c hc ((hsame c).1 ▸ hstatus)).1
    rw [hphase] at hbefore
    cases hbefore
  · intro c hc
    cases hc
  · exact List.nodup_nil
  · intro c hc
    rw [(hsame c).1, (hsame c).2]
    exact hclosed c hc
  · intro c
    rw [hdeleted, h.logged]
    simp [PollingEpoll.sweep]
  · have hnew : (s.removeConnections.map PollingRecord.deleted ++ [PollingRecord.swept]).Pairwise PollingRecord.Precedes := by
      apply List.pairwise_append.mpr
      refine ⟨?_, by simp, fun earlier _ later hlater c _ => ?_⟩
      · apply List.pairwise_map.mpr
        apply h.nodup.imp
        intro c c' hne other heq
        cases heq
        exact ⟨by simp, fun heq => hne (PollingRecord.deleted.inj heq).symm⟩
      · rw [List.mem_singleton.mp hlater]
        exact ⟨by simp, by simp⟩
    simp only [PollingEpoll.sweep, List.append_assoc]
    apply List.pairwise_append.mpr
    refine ⟨h.lives, hnew, fun earlier hearlier later hlater c heq => ?_⟩
    have hgone : (s.connections c).deleted = true := (h.logged c).mpr (heq ▸ hearlier)
    cases List.mem_append.mp hlater with
    | inl hlater =>
        obtain ⟨c', hc', rfl⟩ := List.mem_map.mp hlater
        refine ⟨by simp, fun heq' => ?_⟩
        cases heq'
        simp [(h.removed c hc').2.2] at hgone
    | inr hlater =>
        rw [List.mem_singleton.mp hlater]
        exact ⟨by simp, by simp⟩
  · intro c hc hstatus
    rw [(hsame c).2] at hc
    rw [(hsame c).1] at hstatus
    exact .inl ((hdeleted c).mpr (h.closed c hc hstatus))
  · exact fun _ => rfl
  · intro c hc
    simp [PollingEpoll.sweep, hpending] at hc

theorem Kept.step {input : PollingInput} (h : s.Kept) (hfits : Fits input s) (hstep : step input s = some s') :
    s'.Kept := by
  have hmove := step_move hstep
  have honce := h.once.step hmove
  cases hmove with
  | quiet hquiet => exact h.quiet hquiet
  | opened c hnew heq =>
      subst heq
      exact h.opened hnew honce
  | registered c t hinput hquiet hfree hvalid hopen heq =>
      subst heq hinput
      have hroom : t.writeOutstanding.length < viriatumMaxEvents :=
        hquiet.writeOutstanding ▸ hfits hfree hvalid hopen
      have hunclosed : (t.connections c).status ≠ .closed := by
        rw [ne_eq, (hquiet.connections c).closed, hopen]
        nofun
      exact (h.quiet hquiet).registered hunclosed hroom
  | delayed c hinput hfree hopen heq =>
      subst heq hinput
      exact h.delayed hfree (hfits hfree) honce
  | closed c rest hinput hpending heq =>
      subst heq hinput
      have hpop : Kept { s with pending := rest } := h.quiet (.pop hpending)
      obtain ⟨hcreated, hdeleted⟩ := h.closing c (by simp [hpending])
      simp only [Fits, hpending] at hfits
      exact hpop.closeRest hcreated hdeleted hfits.1 hfits.2 honce
  | taken hphase hpending heq =>
      subst heq
      exact h.takeOutstanding honce
  | entered hinput hphase hpending heq =>
      subst heq
      exact { h with
        once := honce
        taken := fun c hc hclosed => absurd (hphase.symm.trans (h.taken c hc hclosed).1) nofun }
  | woken events hphase heq =>
      subst heq
      exact { h with
        once := honce
        taken := fun c hc hclosed => absurd (hphase.symm.trans (h.taken c hc hclosed).1) nofun
        closing := fun c hc => by simp [takeEvents] at hc }
  | swept hphase hpending heq =>
      subst heq
      exact h.sweep hphase hpending honce

/-! ## Runs -/

theorem start_kept : start.Kept where
  once := ⟨List.nodup_nil, nofun, nofun, fun _ _ => rfl⟩
  reads := Nat.zero_le _
  writes := Nat.zero_le _
  removals := Nat.zero_le _
  taken := nofun
  removed := nofun
  nodup := List.nodup_nil
  dead := nofun
  logged c := by simp [start]
  lives := List.Pairwise.nil
  closed := nofun
  swept := nofun
  closing := nofun

/-- Two connections are accepted, the first of which may be written. -/
def acceptedRun : List PollingInput :=
  [.act (.openConnection 1), .proceed, .act (.openConnection 2), .proceed, .proceed, .proceed,
    .ready [⟨1, false, true, false⟩], .proceed, .proceed, .proceed, .proceed, .proceed, .proceed]

/-- The first connection is answered, left for the next round and closed, when it is read. -/
def closedRun : List PollingInput :=
  acceptedRun ++ [.ready [⟨1, true, false, false⟩], .proceed, .proceed, .act (.write 1), .act (.addOutstanding 1),
    .act (.close 1), .proceed, .proceed, .proceed, .proceed]

/-- The first connection is answered when it is read, and the answer goes out; the second one is lost, and the close of
it writes to the first one and closes it. -/
def staleRun : List PollingInput :=
  acceptedRun ++ [.ready [⟨1, true, true, false⟩, ⟨2, false, false, true⟩], .proceed, .proceed, .act (.write 1), .proceed,
    .proceed, .proceed, .sent 1 false, .proceed, .proceed, .proceed, .proceed, .proceed, .act (.write 1), .act (.close 1),
    .proceed, .proceed, .proceed]

end PollingEpoll

end Viriatum
