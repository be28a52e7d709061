import Mathlib.Algebra.Order.BigOperators.Group.List
import Viriatum.Stream.Acyclic

/-!
# The scheduling of payload

The scheduling leaves no payload behind that could go out, unless it comes to a stream whose window is smaller than
the fragment it holds back first: the round that only exhausts the window of that stream is taken for the last one.
-/

namespace Viriatum

open Library Forest

namespace Http2Connection

open Outline

/-! ## The order of the scheduling -/

section Order

variable (s : Http2Connection)

/-- Whether the stream in a slot holds payload back and a window that lets it through. -/
def busy (slot : Nat) : Bool := (s.stream slot).pending ≠ [] ∧ (s.stream slot).sendWindow > 0

/-- Whether the walk up from an identifier meets a stream of the ones given. -/
def heldBy (active : Nat → Bool) : (steps streamId : Nat) → Bool
  | 0, _ => false
  | steps + 1, streamId =>
      if streamId = 0 then false
      else
        match s.findStream streamId with
        | none => false
        | some parent => if active parent then true else heldBy active steps (s.stream parent).priority.dependency

/-- The first of the heaviest of the streams given that none of them holds back. -/
def heaviest (active : Nat → Bool) : Option Nat :=
  (List.range s.count).foldl
    (fun chosen slot =>
      if active slot ∧ s.heldBy active s.count (s.stream slot).priority.dependency = false then
        match chosen with
        | none => some slot
        | some best =>
            if (s.stream slot).priority.weight > (s.stream best).priority.weight then some slot else chosen
      else chosen)
    none

/-- The stream that comes next once the ones given are done with. -/
def next (done : List Nat) : Option Nat := s.heaviest fun slot => s.busy slot ∧ slot ∉ done

/-- The streams that the scheduling comes to one after the other, the latest first. -/
def InOrder : List Nat → Prop
  | [] => True
  | slot :: done => s.next done = some slot ∧ InOrder done

/-- The payload that the stream in a slot holds back. -/
def held (slot : Nat) : Nat := ((s.stream slot).pending.map Http2Pending.remaining).sum

/-- The payload of the first of the fragments that the stream in a slot holds back. -/
def firstHeld (slot : Nat) : Nat := ((s.stream slot).pending.head?.map Http2Pending.remaining).getD 0

/-- What the stream in a slot sends when the window of the connection leaves it to. -/
def share (slot : Nat) : Int := min (s.stream slot).sendWindow (s.held slot)

/-- Where the scheduling comes to a stream whose window is smaller than its first fragment and another stream would
come after it, the streams up to that one take all of the window of the connection. -/
def Unstalled : Prop :=
  ∀ slot done, s.InOrder (slot :: done) → (s.stream slot).sendWindow < s.firstHeld slot →
    (s.next (slot :: done)).isSome → s.sendWindow ≤ ((slot :: done).map s.share).sum

/-- No payload is left that could go out: the stream has no window, the connection has none, or a stream above holds
payload back and a window for it. -/
def Maximal : Prop :=
  ∀ slot, slot < s.count → (s.stream slot).pending ≠ [] →
    (s.stream slot).sendWindow ≤ 0 ∨ s.sendWindow ≤ 0 ∨ s.blocked slot = true

end Order

variable {s t : Http2Connection} {slot : Nat} {active : Nat → Bool}

theorem blockedFrom_eq_heldBy {steps streamId : Nat} : s.blockedFrom steps streamId = s.heldBy s.busy steps streamId := by
  induction steps generalizing streamId with
  | zero => rfl
  | succ steps ih =>
      unfold blockedFrom heldBy
      cases s.findStream streamId with
      | none => rfl
      | some parent => simp only [busy, ih, decide_eq_true_eq]

theorem writable_iff : s.writable slot = true ↔
    s.busy slot = true ∧ s.heldBy s.busy s.count (s.stream slot).priority.dependency = false := by
  simp [writable, blocked, blockedFrom_eq_heldBy, busy, and_assoc]

theorem choose_eq : s.choose = s.heaviest s.busy := by
  unfold choose heaviest
  congr 1
  funext chosen slot
  by_cases h : s.writable slot = true
  · cases chosen with
    | none => simp only [if_pos h, if_pos (writable_iff.mp h)]
    | some best => simp only [if_pos h, if_pos (writable_iff.mp h)]
  · simp only [if_neg h, if_neg (mt writable_iff.mpr h)]

/-! ## The heaviest -/

section Fold

variable {able : Nat → Prop} [DecidablePred able] {weight : Nat → Nat} {slots : List Nat} {chosen : Option Nat}

/-- A round of the search for the heaviest. -/
def heavier (able : Nat → Prop) [DecidablePred able] (weight : Nat → Nat) (chosen : Option Nat) (slot : Nat) :
    Option Nat :=
  if able slot then
    match chosen with
    | none => some slot
    | some best => if weight slot > weight best then some slot else chosen
  else chosen

theorem foldl_heavier_eq_none :
    slots.foldl (heavier able weight) chosen = none ↔ chosen = none ∧ ∀ slot ∈ slots, ¬ able slot := by
  induction slots generalizing chosen with
  | nil => simp
  | cons slot slots ih =>
      rw [List.foldl_cons, ih, List.forall_mem_cons, ← and_assoc]
      apply and_congr_left'
      unfold heavier
      split
      case isTrue h =>
        cases chosen with
        | none => simp [h]
        | some best =>
            simp only [reduceCtorEq, false_and, iff_false]
            split <;> simp
      case isFalse h => simp [h]

theorem foldl_heavier_some {slot : Nat} (h : slots.foldl (heavier able weight) chosen = some slot) :
    chosen = some slot ∨ slot ∈ slots ∧ able slot := by
  induction slots generalizing chosen with
  | nil => exact Or.inl h
  | cons first slots ih =>
      rw [List.foldl_cons] at h
      cases ih h with
      | inr hrest => exact Or.inr ⟨List.mem_cons_of_mem _ hrest.1, hrest.2⟩
      | inl hfirst =>
          unfold heavier at hfirst
          split at hfirst
          case isFalse => exact Or.inl hfirst
          case isTrue hable =>
            cases chosen with
            | none =>
                cases hfirst
                exact Or.inr ⟨List.mem_cons_self, hable⟩
            | some best =>
                dsimp only at hfirst
                split at hfirst
                · cases hfirst
                  exact Or.inr ⟨List.mem_cons_self, hable⟩
                · exact Or.inl hfirst

end Fold

theorem heaviest_eq_fold : s.heaviest active = (List.range s.count).foldl
    (heavier (fun slot => active slot = true ∧ s.heldBy active s.count (s.stream slot).priority.dependency = false)
      fun slot => (s.stream slot).priority.weight) none := rfl

theorem heaviest_eq_none : s.heaviest active = none ↔
    ∀ slot < s.count, active slot = true → s.heldBy active s.count (s.stream slot).priority.dependency = true := by
  rw [heaviest_eq_fold, foldl_heavier_eq_none]
  simp

theorem heaviest_some (h : s.heaviest active = some slot) : slot < s.count ∧ active slot = true := by
  rw [heaviest_eq_fold] at h
  rcases foldl_heavier_some h with h | ⟨hmem, hable, _⟩
  · cases h
  · exact ⟨List.mem_range.mp hmem, hable⟩

/-- When nothing is able to write, nothing that could go out is left. -/
theorem maximal_of_choose (h : s.choose = none) : s.Maximal := by
  rw [choose_eq, heaviest_eq_none] at h
  intro slot hlt hpending
  by_cases hwindow : (s.stream slot).sendWindow ≤ 0
  · exact Or.inl hwindow
  · refine Or.inr (Or.inr ?_)
    rw [blocked, blockedFrom_eq_heldBy]
    exact h slot hlt (decide_eq_true ⟨hpending, by omega⟩)

theorem maximal_iff_choose (hwindow : 0 < s.sendWindow) : s.Maximal ↔ s.choose = none := by
  refine ⟨fun h => ?_, maximal_of_choose⟩
  rw [choose_eq, heaviest_eq_none]
  intro slot hlt hbusy
  obtain ⟨hpending, hstream⟩ := of_decide_eq_true hbusy
  rcases h slot hlt hpending with h | h | h
  · omega
  · omega
  · rwa [blocked, blockedFrom_eq_heldBy] at h

/-! ## Flushing a stream -/

/-- What the windows let through on the stream in a slot. -/
def window (s : Http2Connection) (slot : Nat) : Int := min (s.stream slot).sendWindow s.sendWindow

/-- A session in which the stream in a slot has sent a number of bytes. -/
structure Flushed (slot : Nat) (s t : Http2Connection) (sent : Nat) : Prop where
  count : t.count = s.count
  remote : t.remote = s.remote
  others : ∀ i, i ≠ slot → t.stream i = s.stream i
  streamId : (t.stream slot).streamId = (s.stream slot).streamId
  priority : (t.stream slot).priority = (s.stream slot).priority
  stream : (t.stream slot).sendWindow = (s.stream slot).sendWindow - sent
  connection : t.sendWindow = s.sendWindow - sent

namespace Flushed

theorem refl (slot : Nat) (s : Http2Connection) : Flushed slot s s 0 := by
  constructor <;> simp

theorem trans {s t u : Http2Connection} {n m : Nat} (h : Flushed slot s t n) (h' : Flushed slot t u m) :
    Flushed slot s u (n + m) where
  count := h'.count.trans h.count
  remote := h'.remote.trans h.remote
  others i hi := (h'.others i hi).trans (h.others i hi)
  streamId := h'.streamId.trans h.streamId
  priority := h'.priority.trans h.priority
  stream := by
    rw [h'.stream, h.stream]
    omega
  connection := by
    rw [h'.connection, h.connection]
    omega

theorem window {s t : Http2Connection} {n : Nat} (h : Flushed slot s t n) : t.window slot = s.window slot - n := by
  unfold Http2Connection.window
  rw [h.stream, h.connection]
  omega

end Flushed

theorem stream_set {stream : Http2Stream} {i : Nat} (hslot : slot < s.count) :
    ({ s with streams := s.streams.set slot stream } : Http2Connection).stream i =
      if i = slot then stream else s.stream i := by
  simp only [Http2Connection.stream, List.getD_eq_getElem?_getD, List.getElem?_set]
  by_cases h : slot = i
  · subst h
    simp [hslot]
  · have h' : ¬ i = slot := fun h' => h h'.symm
    simp [h, h']

theorem flushFragment_flushed (fragment : Http2Pending) (hslot : slot < s.count) :
    Flushed slot s (s.flushFragment slot fragment) (s.flushAllowed slot fragment) ∧
      ((s.flushFragment slot fragment).stream slot).pending =
        if s.flushAllowed slot fragment = fragment.remaining then (s.stream slot).pending.tail
        else { fragment with offset := fragment.offset + s.flushAllowed slot fragment } ::
          (s.stream slot).pending.tail := by
  have hget : ∀ i, (s.flushFragment slot fragment).stream i = if i = slot then _ else s.stream i :=
    fun i => stream_set (s := s) hslot
  have hself := hget slot
  rw [if_pos rfl] at hself
  refine ⟨⟨?_, rfl, fun i hi => ?_, ?_, ?_, ?_, rfl⟩, ?_⟩
  · simp [flushFragment, count]
  · rw [hget i, if_neg hi]
  · rw [hself]
    split <;> rfl
  · rw [hself]
    split <;> rfl
  · rw [hself]
    split <;> rfl
  · rw [hself]
    split <;> rfl

/-- What the flushing of a stream comes to: it has sent all that it held back or all that the windows let through, and
it holds as many fragments as before exactly when the first of them was too large for the windows. -/
structure Drained (slot : Nat) (s t : Http2Connection) (sent : Nat) : Prop extends Flushed slot s t sent where
  held : t.held slot + sent = s.held slot
  bound : 0 < s.window slot → (sent : Int) ≤ s.window slot
  idle : s.window slot ≤ 0 → sent = 0 ∧ (t.stream slot).pending = (s.stream slot).pending
  finished : (t.stream slot).pending = [] ∨ s.window slot ≤ sent
  shorter : (t.stream slot).pending.length ≤ (s.stream slot).pending.length
  stuck : (s.stream slot).pending ≠ [] → 0 < s.window slot →
    ((t.stream slot).pending.length = (s.stream slot).pending.length ↔ s.window slot < s.firstHeld slot)

theorem Drained.refl_of_nil (h : (s.stream slot).pending = []) : Drained slot s s 0 where
  toFlushed := .refl slot s
  held := by simp
  bound := by omega
  idle := fun _ => ⟨rfl, rfl⟩
  finished := Or.inl h
  shorter := le_rfl
  stuck := fun hne => absurd h hne

theorem Drained.refl_of_window (h : s.window slot ≤ 0) : Drained slot s s 0 where
  toFlushed := .refl slot s
  held := by simp
  bound := by omega
  idle := fun _ => ⟨rfl, rfl⟩
  finished := Or.inr (by omega)
  shorter := le_rfl
  stuck := by omega

theorem flushAllowed_spec (fragment : Http2Pending) (hwindow : 0 < s.window slot) :
    s.flushAllowed slot fragment ≤ fragment.remaining ∧ (s.flushAllowed slot fragment : Int) ≤ s.window slot ∧
      (fragment.remaining ≠ 0 → 0 < s.flushAllowed slot fragment) ∧
      (s.window slot < fragment.remaining → s.flushAllowed slot fragment < fragment.remaining) := by
  have hmax : 0 < s.remote.maxFrameSize := by
    have := s.remote.le_maxFrameSize
    simp only [http2DefaultFrameSize] at this
    omega
  unfold flushAllowed
  unfold window at *
  dsimp only
  omega

/-- The fragment flushed first goes out as a whole. -/
theorem Drained.of_complete {t : Http2Connection} {fragment : Http2Pending} {rest : List Http2Pending} {sent : Nat}
    (hslot : slot < s.count) (hpending : (s.stream slot).pending = fragment :: rest) (hwindow : 0 < s.window slot)
    (hcomplete : s.flushAllowed slot fragment = fragment.remaining)
    (h : Drained slot (s.flushFragment slot fragment) t sent) :
    Drained slot s t (s.flushAllowed slot fragment + sent) := by
  obtain ⟨hflushed, hrest⟩ := flushFragment_flushed fragment hslot
  have hallowed := flushAllowed_spec fragment hwindow
  rw [if_pos hcomplete, hpending, List.tail_cons] at hrest
  have hw := hflushed.window
  have hheld := h.held
  have hbound := h.bound
  have hidle := fun hw => (h.idle hw).1
  have hfinished := h.finished
  have hshorter := h.shorter
  simp only [Http2Connection.held, hrest] at hheld hshorter
  refine ⟨hflushed.trans h.toFlushed, ?_, ?_, ?_, ?_, ?_, ?_⟩
  · simp only [Http2Connection.held, hpending, List.map_cons, List.sum_cons]
    omega
  · omega
  · exact fun h => absurd hwindow (by omega)
  · rcases hfinished with hnil | hw'
    · exact Or.inl hnil
    · exact Or.inr (by omega)
  · rw [hpending, List.length_cons]
    omega
  · intro _ _
    simp only [firstHeld, hpending, List.head?_cons, Option.map_some, Option.getD_some, List.length_cons]
    omega

/-- The fragment flushed first only goes out in part. -/
theorem Drained.of_piece {t : Http2Connection} {fragment : Http2Pending} {rest : List Http2Pending} {sent : Nat}
    (hslot : slot < s.count) (hpending : (s.stream slot).pending = fragment :: rest) (hwindow : 0 < s.window slot)
    (hpiece : s.flushAllowed slot fragment ≠ fragment.remaining)
    (h : Drained slot (s.flushFragment slot fragment) t sent) :
    Drained slot s t (s.flushAllowed slot fragment + sent) := by
  obtain ⟨hflushed, hrest⟩ := flushFragment_flushed fragment hslot
  have hallowed := flushAllowed_spec fragment hwindow
  rw [if_neg hpiece, hpending, List.tail_cons] at hrest
  have hw := hflushed.window
  have hheld := h.held
  have hbound := h.bound
  have hidle := fun hw => (h.idle hw).1
  have hfinished := h.finished
  have hshorter := h.shorter
  have hstuck := h.stuck (by simp [hrest])
  simp only [Http2Connection.held, firstHeld, hrest, List.map_cons, List.sum_cons, List.length_cons, List.head?_cons,
    Option.map_some, Option.getD_some, Http2Pending.remaining, Http2Pending.size] at hheld hshorter hstuck
  simp only [Http2Pending.remaining, Http2Pending.size] at hallowed hpiece
  refine ⟨hflushed.trans h.toFlushed, ?_, ?_, ?_, ?_, ?_, ?_⟩
  · simp only [Http2Connection.held, hpending, List.map_cons, List.sum_cons, Http2Pending.remaining, Http2Pending.size]
    omega
  · omega
  · exact fun h => absurd hwindow (by omega)
  · rcases hfinished with hnil | hw'
    · exact Or.inl hnil
    · exact Or.inr (by omega)
  · rw [hpending, List.length_cons]
    exact hshorter
  · intro _ _
    simp only [firstHeld, hpending, List.head?_cons, Option.map_some, Option.getD_some, List.length_cons,
      Http2Pending.remaining, Http2Pending.size]
    by_cases hpos : 0 < (s.flushFragment slot fragment).window slot
    · rw [hstuck hpos]
      omega
    · have hlength := congrArg List.length (h.idle (Int.le_of_not_gt hpos)).2
      rw [hrest, List.length_cons] at hlength
      simp only [hlength, true_iff]
      omega

theorem flushStream_drained {rounds : Nat} (hrounds : flushRounds (s.stream slot).pending ≤ rounds) :
    ∃ sent, Drained slot s (flushStream slot rounds s) sent := by
  induction rounds generalizing s with
  | zero =>
      refine ⟨0, .refl_of_nil ?_⟩
      cases hpending : (s.stream slot).pending with
      | nil => rfl
      | cons fragment rest => simp [hpending, flushRounds] at hrounds
  | succ rounds ih =>
      unfold flushStream
      split
      case h_1 hpending => exact ⟨0, .refl_of_nil hpending⟩
      case h_2 fragment rest hpending =>
        split
        case isTrue hwindow => exact ⟨0, .refl_of_window hwindow⟩
        case isFalse hwindow =>
          have hwindow : 0 < s.window slot := Int.lt_of_not_ge hwindow
          have hslot : slot < s.count := lt_of_pending (by simp [hpending])
          obtain ⟨_, hrest⟩ := flushFragment_flushed fragment hslot
          have hallowed := flushAllowed_spec fragment hwindow
          simp only [hpending, flushRounds, List.map_cons, List.sum_cons, List.tail_cons] at hrounds hrest
          by_cases hcomplete : s.flushAllowed slot fragment = fragment.remaining
          · rw [if_pos hcomplete] at hrest
            obtain ⟨sent, h⟩ := ih (s := s.flushFragment slot fragment) (by rw [hrest, flushRounds]; omega)
            exact ⟨_, .of_complete hslot hpending hwindow hcomplete h⟩
          · rw [if_neg hcomplete] at hrest
            have hshorter : flushRounds ((s.flushFragment slot fragment).stream slot).pending ≤ rounds := by
              simp only [hrest, flushRounds, List.map_cons, List.sum_cons, Http2Pending.remaining, Http2Pending.size]
              simp only [Http2Pending.remaining, Http2Pending.size] at hrounds hallowed hcomplete
              omega
            obtain ⟨sent, h⟩ := ih hshorter
            exact ⟨_, .of_piece hslot hpending hwindow hcomplete h⟩

/-! ## Rounds -/

theorem findStream_congr (hcount : t.count = s.count) (hid : ∀ i, (t.stream i).streamId = (s.stream i).streamId)
    (streamId : Nat) : t.findStream streamId = s.findStream streamId := by
  have hids : t.streams.map Http2Stream.streamId = s.streams.map Http2Stream.streamId := by
    apply List.ext_getElem
    · simpa using hcount
    · intro i hi hi'
      rw [List.length_map] at hi hi'
      rw [List.getElem_map, List.getElem_map, ← stream_of_lt hi, ← stream_of_lt hi']
      exact hid i
  have hfind : ∀ u : Http2Connection, u.findStream streamId =
      (u.streams.map Http2Stream.streamId).findIdx? fun id => id = streamId := fun u => by
    rw [List.findIdx?_map]
    rfl
  rw [hfind, hfind, hids]

theorem heaviest_congr {active' : Nat → Bool} (hcount : t.count = s.count)
    (hid : ∀ i, (t.stream i).streamId = (s.stream i).streamId)
    (hpriority : ∀ i, (t.stream i).priority = (s.stream i).priority) (hactive : ∀ i, active' i = active i) :
    t.heaviest active' = s.heaviest active := by
  have hheld : ∀ steps streamId, t.heldBy active' steps streamId = s.heldBy active steps streamId := by
    intro steps
    induction steps with
    | zero => exact fun _ => rfl
    | succ steps ih =>
        intro streamId
        unfold heldBy
        rw [findStream_congr hcount hid]
        cases s.findStream streamId with
        | none => rfl
        | some parent => simp only [hactive, hpriority, ih]
  unfold heaviest
  rw [hcount]
  simp only [hactive, hpriority, hheld]

/-- The session after the scheduling is done with some streams, each of which has sent its share. -/
structure After (s t : Http2Connection) (done : List Nat) : Prop where
  count : t.count = s.count
  streamId : ∀ i, (t.stream i).streamId = (s.stream i).streamId
  priority : ∀ i, (t.stream i).priority = (s.stream i).priority
  others : ∀ i, i ∉ done → t.stream i = s.stream i
  settled : ∀ i ∈ done, t.busy i = false
  window : t.sendWindow = s.sendWindow - (done.map s.share).sum
  order : s.InOrder done

variable {done : List Nat}

theorem next_some (h : s.next done = some slot) : slot < s.count ∧ s.busy slot = true ∧ slot ∉ done := by
  obtain ⟨hlt, hactive⟩ := heaviest_some h
  have hactive := of_decide_eq_true hactive
  exact ⟨hlt, hactive.1, hactive.2⟩

theorem InOrder.nodup (h : s.InOrder done) : done.Nodup := by
  induction done with
  | nil => exact List.nodup_nil
  | cons slot done ih => exact List.nodup_cons.mpr ⟨(next_some h.1).2.2, ih h.2⟩

theorem InOrder.lt (h : s.InOrder done) : ∀ slot ∈ done, slot < s.count := by
  induction done with
  | nil => simp
  | cons slot done ih => exact List.forall_mem_cons.mpr ⟨(next_some h.1).1, ih h.2⟩

theorem InOrder.share_nonneg (h : s.InOrder done) : ∀ share ∈ done.map s.share, 0 ≤ share := by
  induction done with
  | nil => simp
  | cons slot done ih =>
      refine List.forall_mem_cons.mpr ⟨?_, ih h.2⟩
      have hbusy := of_decide_eq_true (next_some h.1).2.1
      have hwindow := hbusy.2
      simp only [share]
      omega

theorem InOrder.of_suffix {done' : List Nat} (h : s.InOrder done') (hsuffix : done <:+ done') : s.InOrder done := by
  obtain ⟨first, rfl⟩ := hsuffix
  induction first with
  | nil => exact h
  | cons slot first ih => exact ih h.2

/-- The streams that come after some of them start with the next one. -/
theorem InOrder.next_suffix {done' : List Nat} {last : Nat} (h : s.InOrder (last :: done')) (hsuffix : done <:+ done') :
    ∃ slot, s.next done = some slot ∧ (done' = done ∧ last = slot ∨ slot :: done <:+ done') := by
  obtain ⟨first, rfl⟩ := hsuffix
  cases first using List.reverseRec with
  | nil => exact ⟨last, h.1, Or.inl ⟨rfl, rfl⟩⟩
  | append_singleton first slot _ =>
      rw [List.append_assoc, List.singleton_append] at h ⊢
      have horder : s.InOrder (slot :: done) := h.of_suffix ⟨last :: first, rfl⟩
      exact ⟨slot, horder.1, Or.inr ⟨first, rfl⟩⟩

namespace After

theorem nil (s : Http2Connection) : After s s [] where
  count := rfl
  streamId := fun _ => rfl
  priority := fun _ => rfl
  others := fun _ _ => rfl
  settled := by simp
  window := by simp
  order := trivial

theorem choose (h : After s t done) : t.choose = s.next done := by
  rw [choose_eq]
  refine heaviest_congr h.count h.streamId h.priority fun i => ?_
  by_cases hi : i ∈ done
  · simp [h.settled i hi, hi]
  · simp [busy, h.others i hi, hi]

theorem flushed {u : Http2Connection} {sent : Nat} (h : After s t done) (hnext : s.next done = some slot)
    (hflush : Flushed slot t u sent) (hbusy : u.busy slot = false) (hshare : (sent : Int) = s.share slot) :
    After s u (slot :: done) where
  count := hflush.count.trans h.count
  streamId i := by
    by_cases hi : i = slot
    · rw [hi, hflush.streamId, h.streamId]
    · rw [hflush.others i hi, h.streamId]
  priority i := by
    by_cases hi : i = slot
    · rw [hi, hflush.priority, h.priority]
    · rw [hflush.others i hi, h.priority]
  others i hi := by
    rw [List.mem_cons, not_or] at hi
    rw [hflush.others i hi.1, h.others i hi.2]
  settled := by
    refine List.forall_mem_cons.mpr ⟨hbusy, fun i hi => ?_⟩
    have hne : i ≠ slot := by
      rintro rfl
      exact (next_some hnext).2.2 hi
    rw [busy, hflush.others i hne]
    exact h.settled i hi
  window := by
    rw [hflush.connection, h.window, List.map_cons, List.sum_cons, hshare]
    omega
  order := ⟨hnext, h.order⟩

end After

/-- Where the scheduling comes to a stream after the ones given, as above. -/
def UnstalledFrom (s : Http2Connection) (done : List Nat) : Prop :=
  ∀ slot done', s.InOrder (slot :: done') → done <:+ done' → (s.stream slot).sendWindow < s.firstHeld slot →
    (s.next (slot :: done')).isSome → s.sendWindow ≤ ((slot :: done').map s.share).sum

theorem unstalledFrom_nil : s.UnstalledFrom [] ↔ s.Unstalled := by
  simp [UnstalledFrom, Unstalled]

theorem unstalledFrom_of_none (h : s.next done = none) : s.UnstalledFrom done := by
  intro slot done' horder hsuffix
  obtain ⟨_, hnext, _⟩ := horder.next_suffix hsuffix
  rw [h] at hnext
  cases hnext

theorem unstalledFrom_cons (horder : s.InOrder done) (hnext : s.next done = some slot) :
    s.UnstalledFrom done ↔
      ((s.stream slot).sendWindow < s.firstHeld slot → (s.next (slot :: done)).isSome →
        s.sendWindow ≤ ((slot :: done).map s.share).sum) ∧ s.UnstalledFrom (slot :: done) := by
  constructor
  · intro h
    refine ⟨h slot done ⟨hnext, horder⟩ (List.suffix_refl _), fun last done' hlast hsuffix => ?_⟩
    exact h last done' hlast ((List.suffix_cons slot done).trans hsuffix)
  · rintro ⟨hfirst, hrest⟩ last done' hlast hsuffix
    obtain ⟨slot', hnext', hcase⟩ := hlast.next_suffix hsuffix
    rw [hnext, Option.some.injEq] at hnext'
    subst hnext'
    rcases hcase with ⟨rfl, rfl⟩ | hsuffix'
    · exact hfirst
    · exact hrest last done' hlast hsuffix'

theorem flush_drained (s : Http2Connection) (slot : Nat) : ∃ sent, Drained slot s (s.flush slot) sent :=
  flushStream_drained le_rfl

theorem maximal_of_window (h : s.sendWindow ≤ 0) : s.Maximal := fun _ _ _ => Or.inr (Or.inl h)

theorem Drained.eq_of_window {u : Http2Connection} {sent : Nat} (h : Drained slot s u sent) (hw : s.sendWindow ≤ 0) :
    u.sendWindow ≤ 0 := by
  have hidle := (h.idle (by unfold window; omega)).1
  rw [h.connection]
  omega

/-- The scheduling leaves a window of the connection that is exhausted as it is. -/
theorem scheduleRounds_window {rounds : Nat} (h : s.sendWindow ≤ 0) : (scheduleRounds rounds s).sendWindow ≤ 0 := by
  induction rounds generalizing s with
  | zero => exact h
  | succ rounds ih =>
      unfold scheduleRounds
      split
      case h_1 => exact h
      case h_2 chosen _ =>
        obtain ⟨sent, hdrained⟩ := flush_drained s chosen
        have hwindow := hdrained.eq_of_window h
        dsimp only
        split
        · exact hwindow
        · exact ih hwindow

theorem firstHeld_le (s : Http2Connection) (slot : Nat) : s.firstHeld slot ≤ s.held slot := by
  unfold firstHeld held
  cases (s.stream slot).pending with
  | nil => exact Nat.zero_le _
  | cons fragment rest => simp

theorem held_of_nil (h : (s.stream slot).pending = []) : s.held slot = 0 := by simp [held, h]

/-- Flushing a stream whose share the window of the connection covers sends the share. -/
theorem Drained.sent_share {u : Http2Connection} {sent : Nat} (h : Drained slot t u sent) (hbusy : t.busy slot = true)
    (hshare : t.share slot < t.sendWindow) : (sent : Int) = t.share slot ∧ u.busy slot = false := by
  obtain ⟨_, hwindow⟩ := of_decide_eq_true hbusy
  have hheld := h.held
  have hstream := h.stream
  simp only [share] at hshare ⊢
  have hpos : 0 < t.window slot := by
    unfold window
    omega
  have hbound := h.bound hpos
  unfold window at hbound
  have hfinished := h.finished
  unfold window at hfinished
  have hnil : (u.stream slot).pending = [] → u.held slot = 0 := held_of_nil
  refine ⟨?_, decide_eq_false ?_⟩
  · rcases hfinished with hempty | hsent
    · have := hnil hempty
      omega
    · omega
  · rintro ⟨hne, hleft⟩
    rcases hfinished with hempty | hsent
    · exact hne hempty
    · omega

/-- Flushing a stream whose share the window of the connection does not cover exhausts that window. -/
theorem Drained.exhausted {u : Http2Connection} {sent : Nat} (h : Drained slot t u sent) (hbusy : t.busy slot = true)
    (hshare : t.sendWindow ≤ t.share slot) : u.sendWindow ≤ 0 := by
  obtain ⟨_, hwindow⟩ := of_decide_eq_true hbusy
  have hheld := h.held
  simp only [share] at hshare
  have hfinished := h.finished
  unfold window at hfinished
  rw [h.connection]
  rcases hfinished with hempty | hsent
  · have hnil := held_of_nil hempty
    omega
  · omega

/-- A share that is covered but too small for the first fragment is all that the window of the stream lets through. -/
theorem window_short (hshare : t.share slot < t.sendWindow) (hshort : t.window slot < t.firstHeld slot) :
    (t.stream slot).sendWindow < t.firstHeld slot := by
  have hfirst := firstHeld_le t slot
  simp only [share] at hshare
  unfold window at hshort
  omega

theorem sum_share_le {done' : List Nat} (horder : s.InOrder done') (hsuffix : done <:+ done') :
    (done.map s.share).sum ≤ (done'.map s.share).sum := by
  obtain ⟨first, rfl⟩ := hsuffix
  rw [List.map_append, List.sum_append]
  have hnonneg : 0 ≤ (first.map s.share).sum := by
    apply List.sum_nonneg
    intro share hmem
    obtain ⟨slot, hslot, rfl⟩ := List.mem_map.mp hmem
    exact horder.share_nonneg _ (List.mem_map_of_mem (List.mem_append_left _ hslot))
  omega

/-- Every slot has had its turn after as many turns as there are streams. -/
theorem InOrder.mem_of_length (horder : s.InOrder done) (hlength : s.count ≤ done.length) (hslot : slot < s.count) :
    slot ∈ done := by
  have hsub : done ⊆ List.range s.count := fun i hi => List.mem_range.mpr (horder.lt i hi)
  have hperm : done.Perm (List.range s.count) :=
    (horder.nodup.subperm hsub).perm_of_length_le (by simpa using hlength)
  exact hperm.symm.subset (List.mem_range.mpr hslot)

theorem scheduleRounds_maximal_iff {rounds : Nat} (h : After s t done) (hopen : 0 < t.sendWindow)
    (hrounds : s.count ≤ rounds + done.length) : (scheduleRounds rounds t).Maximal ↔ s.UnstalledFrom done := by
  induction rounds generalizing t done with
  | zero =>
      have hnone : s.next done = none := by
        cases hnext : s.next done with
        | none => rfl
        | some slot =>
            obtain ⟨hlt, _, hnot⟩ := next_some hnext
            exact absurd (h.order.mem_of_length (by omega) hlt) hnot
      exact iff_of_true (maximal_of_choose (h.choose.trans hnone)) (unstalledFrom_of_none hnone)
  | succ rounds ih =>
      unfold scheduleRounds
      rw [h.choose]
      cases hnext : s.next done with
      | none => exact iff_of_true (maximal_of_choose (h.choose.trans hnext)) (unstalledFrom_of_none hnext)
      | some slot =>
          obtain ⟨hlt, hbusy, hnot⟩ := next_some hnext
          have hsame := h.others slot hnot
          have hbusy' : t.busy slot = true := by rw [busy, hsame]; exact hbusy
          have hshare : t.share slot = s.share slot := by simp only [share, held, hsame]
          have hwindow := h.window
          obtain ⟨sent, hdrained⟩ := flush_drained t slot
          dsimp only
          generalize t.flush slot = u at hdrained ⊢
          by_cases hcovered : t.share slot < t.sendWindow
          · obtain ⟨hsent, hidle⟩ := hdrained.sent_share hbusy' hcovered
            have hafter := h.flushed hnext hdrained.toFlushed hidle (hsent.trans hshare)
            have hopen' : 0 < u.sendWindow := by
              rw [hdrained.connection]
              omega
            obtain ⟨hpending, hstream⟩ := of_decide_eq_true hbusy'
            have hstuck := hdrained.stuck hpending (by unfold window; omega)
            have hfirst : t.firstHeld slot = s.firstHeld slot := by simp only [firstHeld, hsame]
            have hleft : ((slot :: done).map s.share).sum < s.sendWindow := by
              have := hafter.window
              omega
            rw [unstalledFrom_cons h.order hnext]
            split
            case isTrue hlength =>
              -- the window of the stream is smaller than its first fragment, so that the rounds end
              have hshort : (s.stream slot).sendWindow < s.firstHeld slot := by
                have hshort := window_short hcovered (hstuck.mp hlength)
                rwa [hfirst, hsame] at hshort
              rw [maximal_iff_choose hopen', hafter.choose]
              constructor
              · intro hnone
                exact ⟨fun _ hsome => by simp [hnone] at hsome, unstalledFrom_of_none hnone⟩
              · rintro ⟨hstalled, _⟩
                cases hlast : s.next (slot :: done) with
                | none => rfl
                | some last =>
                    have := hstalled hshort (by rw [hlast]; rfl)
                    omega
            case isFalse hlength =>
              rw [ih hafter hopen' (by rw [List.length_cons]; omega)]
              refine ⟨fun hrest => ⟨fun hshort => ?_, hrest⟩, And.right⟩
              refine absurd (hstuck.mpr ?_) hlength
              rw [window, hfirst, hsame]
              omega
          · -- the stream exhausts the window of the connection
            have hout := hdrained.exhausted hbusy' (by omega)
            have hmaximal : (if (u.stream slot).pending.length = (t.stream slot).pending.length then u
                else scheduleRounds rounds u).Maximal := by
              split
              · exact maximal_of_window hout
              · exact maximal_of_window (scheduleRounds_window hout)
            refine iff_of_true hmaximal ?_
            intro last done' horder hsuffix _ _
            obtain ⟨slot', hnext', hcase⟩ := horder.next_suffix hsuffix
            rw [hnext, Option.some.injEq] at hnext'
            subst hnext'
            have hle : ((slot :: done).map s.share).sum ≤ ((last :: done').map s.share).sum := by
              apply sum_share_le horder
              rcases hcase with ⟨rfl, rfl⟩ | hsuffix'
              · exact List.suffix_refl _
              · exact hsuffix'.trans (List.suffix_cons _ _)
            refine le_trans ?_ hle
            rw [List.map_cons, List.sum_cons]
            omega

theorem unstalled_of_window (h : s.sendWindow ≤ 0) : s.Unstalled := by
  intro slot done horder _ _
  have := sum_share_le horder List.nil_suffix
  simp only [List.map_nil, List.sum_nil] at this
  omega

/-! ## Under the tree -/

/-- No payload is left behind but for want of a window. -/
def Exhausted (s : Http2Connection) : Prop :=
  s.sendWindow ≤ 0 ∨ ∀ slot, slot < s.count → (s.stream slot).pending ≠ [] → (s.stream slot).sendWindow ≤ 0

theorem Waits.above {other : Nat} (h : Rooted s.outline) (hslot : slot < s.count) (hw : s.Waits slot other) :
    Relation.TransGen (Up s.parent) (s.stream slot).streamId (s.stream other).streamId := by
  have hparent : s.parent (s.stream slot).streamId = some (s.stream slot).priority.dependency := by
    rw [parent, findStream_streamId h.nodup hslot]
    rfl
  exact Relation.TransGen.head' hparent hw.2.2

/-- Under a tree without a cycle a stream that waits waits for one that does not. -/
theorem maximal_iff_exhausted (h : Rooted s.outline) : s.Maximal ↔ s.Exhausted := by
  constructor
  · intro hmax
    by_cases hopen : s.sendWindow ≤ 0
    · exact Or.inl hopen
    refine Or.inr ?_
    have hg : s.parent.Grounded := by
      rw [parent_eq]
      exact h.grounded
    have hwalk : ∀ streamId, Acc (Relation.TransGen fun b a => Up s.parent a b) streamId →
        ∀ slot, (s.stream slot).streamId = streamId → slot < s.count → (s.stream slot).pending ≠ [] →
          (s.stream slot).sendWindow ≤ 0 := by
      intro streamId hacc
      induction hacc with
      | intro streamId _ ih =>
          intro slot hid hslot hpending
          rcases hmax slot hslot hpending with hwindow | hwindow | hblocked
          · exact hwindow
          · exact absurd hwindow hopen
          · obtain ⟨other, hother, hw⟩ := (blocked_iff h).mp hblocked
            have habove := hw.above h hslot
            rw [hid] at habove
            have hclosed := ih _ (Relation.transGen_swap.mp habove) other rfl hother hw.1
            exact absurd hw.2.1 (Int.not_lt.mpr hclosed)
    exact fun slot => hwalk _ (hg _).transGen slot rfl
  · rintro (hwindow | hwindow)
    · exact maximal_of_window hwindow
    · exact fun slot hslot hpending => Or.inl (hwindow slot hslot hpending)

theorem rooted_schedule (h : Rooted s.outline) : Rooted (schedule s).outline := by
  have hdoes : Does (fun kind => kind = .emitted) s (schedule s) := schedule_does rfl
  refine Moves.keeps ?_ hdoes h
  rintro kind o o' rfl hm ho
  cases hm with
  | emitted i stream frame hi =>
      exact ho.of_tree (map_set_same hi rfl) rfl rfl

/-- The scheduling leaves nothing that could go out, exactly when it is not cut short; under a tree without a cycle
this leaves payload behind for want of a window only. -/
theorem schedule_maximal_iff (h : s.count ≤ http2StreamSlots) :
    ((schedule s).Maximal ↔ s.Unstalled) ∧
      (Rooted s.outline → ((schedule s).Exhausted ↔ s.Unstalled)) := by
  have hmaximal : (schedule s).Maximal ↔ s.Unstalled := by
    by_cases hopen : 0 < s.sendWindow
    · rw [schedule, scheduleRounds_maximal_iff (.nil s) hopen (by simpa using h), unstalledFrom_nil]
    · have hwindow : s.sendWindow ≤ 0 := Int.le_of_not_gt hopen
      exact iff_of_true (maximal_of_window (scheduleRounds_window hwindow)) (unstalled_of_window hwindow)
  exact ⟨hmaximal, fun hrooted => (maximal_iff_exhausted (rooted_schedule hrooted)).symm.trans hmaximal⟩

/-- The table of a session never holds more streams than there are slots. -/
theorem count_run (inputs : List (Service × Input)) : (run inputs start).count ≤ http2StreamSlots := by
  rw [← length_outline]
  refine run_keeps (I := fun o => o.streams.length ≤ http2StreamSlots) ?_ inputs (by decide)
  intro kind o o' hm ho
  cases hm with
  | received | called | began | wrote | widened | skipped | reset | away => exact ho
  | emitted | granted => simpa [Outline.record] using ho
  | opened _ _ _ hroom | promised _ _ _ _ _ _ _ _ hroom =>
      simp only [enrol, Outline.record, List.length_append, List.length_singleton]
      exact hroom
  | prioritised i stream dependency exclusive =>
      have hlength := congrArg List.length (ids_place o.streams i stream dependency exclusive)
      rw [List.length_map, List.length_map] at hlength
      exact hlength.trans_le ho
  | closed i stream streams hi hperm =>
      have hlength := hperm.length_eq
      rw [List.length_map] at hlength
      exact (hlength.trans_le (List.length_eraseIdx_le _ _)).trans ho
  | applied => simpa [Outline.record] using ho
  | spoiled window streams _ hplace =>
      have hlength := congrArg List.length hplace
      rw [List.length_map, List.length_map] at hlength
      exact hlength.trans_le ho
  | failed error =>
      unfold Outline.fail
      split <;> exact ho

/-! ## Pages that wait for a window -/

instance : Decidable s.Maximal :=
  inferInstanceAs (Decidable (∀ slot, slot < s.count → (s.stream slot).pending ≠ [] →
    (s.stream slot).sendWindow ≤ 0 ∨ s.sendWindow ≤ 0 ∨ s.blocked slot = true))

/-- A service that answers every request with a page of ten bytes. -/
def pageService : Service where
  description := bytes "viriatum"
  handle := fun _ callback =>
    match callback with
    | .messageComplete _ => [.writeFlush 1024 200 [] false none, .writeChunk (bytes "0123456789") true none]
    | _ => []

/-- The settings of a peer that gives every stream a window. -/
def windowSettings (window : Nat) : Http2Frame where
  type := .settings
  flags := 0x00
  streamId := 0
  payload := [0, 4] ++ encodeNumberHttp2 window

def pageRequest (streamId : Nat) : Service × Input :=
  (pageService, .frame (rootRequest streamId http2FlagEndStream []))

/-- Three pages asked for while no stream has a window, and then a window that takes half of each of them: the
handling of the last settings ends with the scheduling. -/
def stalledRun : List (Service × Input) :=
  [(pageService, .frame (windowSettings 0)), pageRequest 1, pageRequest 3, pageRequest 5,
    (pageService, .frame (windowSettings 5))]

/-- Nothing is promised in the run, and neither the end of it nor the scheduling once more is maximal. -/
theorem stalledRun_told :
    ((run stalledRun start).history.all fun event =>
      match event with
      | .promised _ _ _ => false
      | _ => true) = true ∧
    ¬ (run stalledRun start).Maximal ∧ ¬ (schedule (run stalledRun start)).Maximal := by
  decide +kernel

theorem rooted_stalledRun : Rooted (run stalledRun start).outline := by
  apply rooted_run
  intro parentId streamId tree hmem
  have hfalse := List.all_eq_true.mp stalledRun_told.1 _ hmem
  cases hfalse

/-- The scheduling leaves the second page behind as it ends, and the third when it is called once more. -/
theorem schedule_not_maximal :
    ¬ (run stalledRun start).Maximal ∧ ¬ (schedule (run stalledRun start)).Maximal :=
  stalledRun_told.2

theorem schedule_maximal_iff_stalled :
    ¬ (run stalledRun start).Unstalled ∧ ¬ (schedule (run stalledRun start)).Exhausted := by
  have hiff := schedule_maximal_iff (s := run stalledRun start) (count_run stalledRun)
  have hstalled : ¬ (run stalledRun start).Unstalled := fun h => stalledRun_told.2.2 (hiff.1.mpr h)
  exact ⟨hstalled, fun h => hstalled ((hiff.2 rooted_stalledRun).mp h)⟩

end Http2Connection

end Viriatum
