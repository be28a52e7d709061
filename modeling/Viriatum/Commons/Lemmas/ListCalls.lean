import Mathlib.Data.List.Nodup
import Viriatum.Commons.Lemmas.Linked

/-!
# What the calls do to a linked list

Each operation on a list that is linked, by the list it leaves and by what it has needed.
-/

namespace Viriatum

open Library

namespace ListMemory

variable {m m' : ListMemory} {places front back : List Nat} {place : Nat} {pointer : Option Nat}

theorem Linked.nodup (h : m.Linked places) : places.Nodup := h.segment.nodup

theorem Linked.inUse (h : m.Linked places) (hmem : place ∈ places) : (m.value place).isSome := by
  rw [← next_isSome]
  exact h.segment.next_of_mem hmem

theorem inUse_of_next (h : m.next place = some pointer) : (m.value place).isSome := by
  rw [← next_isSome, h]
  rfl

/-- A list stays linked where the links of its nodes stay. -/
theorem Linked.congr (h : m.Linked places) (hlist : m'.list = m.list)
    (hnext : ∀ place ∈ places, m'.next place = m.next place)
    (hprevious : ∀ place ∈ places, m'.previous place = m.previous place) : m'.Linked places where
  size := by rw [hlist, h.size]
  segment := h.segment.congr hnext hprevious
  first := by rw [hlist, h.first]
  last := by rw [hlist, h.last]

/-! ## Appending -/

theorem appendLinkedList_eq (h : m.Linked places) (hapart : place ∉ places) (houter : m.next place = some none)
    (hinner : places = [] → m.previous place = some none) :
    ∃ m', m.appendLinkedList place = some m' ∧ m'.Linked (places ++ [place]) ∧ m'.value = m.value := by
  rcases List.eq_nil_or_concat places with rfl | ⟨front, last, rfl⟩
  · have hsize : m.list.size = 0 := h.size
    refine ⟨((m.setFirst (some place)).setLast (some place)).setSize (m.list.size + 1), ?_, ⟨?_, ?_, rfl, rfl⟩, rfl⟩
    · rw [appendLinkedList, if_pos hsize]
      rfl
    · exact congrArg (· + 1) hsize
    · exact Segment.singleton_iff.mpr ⟨hinner rfl, houter⟩
  · rw [List.concat_eq_append] at *
    have hlast : m.list.last = some last := by rw [h.last, List.getLast?_concat]
    have hsize : m.list.size ≠ 0 := by rw [h.size]; simp
    have hne : place ≠ last := fun heq => hapart (by simp [heq])
    have hnodup := h.nodup
    obtain ⟨m₁, hset₁, hlist₁, hnext₁, hprevious₁, hvalue₁⟩ :=
      setNext_eq (some place) (h.inUse (List.mem_append_right front (List.mem_singleton_self last)))
    obtain ⟨m₂, hset₂, hlist₂, hnext₂, hprevious₂, hvalue₂⟩ :=
      setPrevious_eq (m := m₁) (some last) (by rw [hvalue₁]; exact inUse_of_next houter)
    refine ⟨(m₂.setLast (some place)).setSize (m₂.list.size + 1), ?_, ⟨?_, ?_, ?_, ?_⟩, ?_⟩
    · rw [appendLinkedList, if_neg hsize, hlast]
      simp only [Option.bind_eq_bind, hset₁, Option.bind_some, hlist₁, hlast, hset₂]
      rfl
    · simp [setSize, hlist₂, hlist₁, h.size]
    · rw [next_setSize, next_setLast, previous_setSize, previous_setLast, hnext₂, hprevious₂, hnext₁, hprevious₁]
      apply Segment.append_iff.mpr
      constructor
      · have hrelinked := h.segment.relink_after (some place) hnodup
        rw [List.getLast?_concat] at hrelinked
        refine hrelinked.congr (fun _ _ => rfl) ?_
        intro other hmem
        exact Function.update_of_ne (ne_of_mem_of_not_mem hmem hapart) _ _
      · rw [List.getLast?_concat]
        refine Segment.singleton_iff.mpr ⟨Function.update_self .., ?_⟩
        rw [Function.update_of_ne hne, houter]
    · simp [setSize, setLast, hlist₂, hlist₁, h.first]
    · simp [setSize, setLast]
    · rw [value_setSize, value_setLast, hvalue₂, hvalue₁]

theorem of_appendLinkedList (h : m.Linked places) (happend : m.appendLinkedList place = some m')
    (h' : m'.Linked (places ++ [place])) :
    place ∉ places ∧ m.next place = some none ∧ (places = [] → m.previous place = some none) := by
  have hapart : place ∉ places := fun hmem => (List.nodup_append.mp h'.nodup).2.2 _ hmem _ (by simp) rfl
  have hend := Segment.singleton_iff.mp (Segment.append_iff.mp h'.segment).2
  rcases List.eq_nil_or_concat places with rfl | ⟨front, last, rfl⟩
  · have hsize : m.list.size = 0 := h.size
    rw [appendLinkedList, if_pos hsize] at happend
    cases happend
    exact ⟨hapart, hend.2, fun _ => hend.1⟩
  · rw [List.concat_eq_append] at *
    have hlast : m.list.last = some last := by rw [h.last, List.getLast?_concat]
    have hsize : m.list.size ≠ 0 := by rw [h.size]; simp
    have hne : place ≠ last := fun heq => hapart (by simp [heq])
    rw [appendLinkedList, if_neg hsize, hlast] at happend
    obtain ⟨m₁, hset₁, happend⟩ := Option.bind_eq_some_iff.mp happend
    obtain ⟨m₂, hset₂, happend⟩ := Option.bind_eq_some_iff.mp happend
    obtain ⟨_, heq, _, _, hnext₁, _⟩ := of_setNext hset₁
    cases heq
    obtain ⟨_, _, _, _, hnext₂, _⟩ := of_setPrevious hset₂
    cases happend
    refine ⟨hapart, ?_, fun heq => absurd heq (by simp)⟩
    have hnext := hend.2
    rw [next_setSize, next_setLast, hnext₂, hnext₁, Function.update_of_ne hne] at hnext
    exact hnext

theorem appendFrontLinkedList_eq (h : m.Linked places) (hapart : place ∉ places) (houter : m.previous place = some none)
    (hinner : places = [] → m.next place = some none) :
    ∃ m', m.appendFrontLinkedList place = some m' ∧ m'.Linked (place :: places) ∧ m'.value = m.value := by
  cases places with
  | nil =>
      have hsize : m.list.size = 0 := h.size
      refine ⟨((m.setLast (some place)).setFirst (some place)).setSize (m.list.size + 1), ?_, ⟨?_, ?_, rfl, rfl⟩, rfl⟩
      · rw [appendFrontLinkedList, if_pos hsize]
        rfl
      · exact congrArg (· + 1) hsize
      · exact Segment.singleton_iff.mpr ⟨houter, hinner rfl⟩
  | cons first rest =>
      have hfirst : m.list.first = some first := h.first
      have hsize : m.list.size ≠ 0 := by rw [h.size]; simp
      have hne : place ≠ first := fun heq => hapart (by simp [heq])
      obtain ⟨m₁, hset₁, hlist₁, hnext₁, hprevious₁, hvalue₁⟩ :=
        setPrevious_eq (some place) (h.inUse List.mem_cons_self)
      have hin : (m.value place).isSome := by rw [← previous_isSome, houter]; rfl
      obtain ⟨m₂, hset₂, hlist₂, hnext₂, hprevious₂, hvalue₂⟩ :=
        setNext_eq (m := m₁) (some first) (by rw [hvalue₁]; exact hin)
      refine ⟨(m₂.setFirst (some place)).setSize (m₂.list.size + 1), ?_, ⟨?_, ?_, ?_, ?_⟩, ?_⟩
      · rw [appendFrontLinkedList, if_neg hsize, hfirst]
        simp only [Option.bind_eq_bind, hset₁, Option.bind_some, hlist₁, hfirst, hset₂]
        rfl
      · simp [setSize, hlist₂, hlist₁, h.size]
      · rw [next_setSize, next_setFirst, previous_setSize, previous_setFirst, hnext₂, hprevious₂, hnext₁, hprevious₁]
        refine ⟨?_, Function.update_self .., ?_⟩
        · rw [Function.update_of_ne hne, houter]
        · have hrelinked := h.segment.relink_before (some place) h.nodup
          refine hrelinked.congr ?_ fun _ _ => rfl
          intro other hmem
          exact Function.update_of_ne (ne_of_mem_of_not_mem hmem hapart) _ _
      · simp [setSize, setFirst]
      · simp [setSize, setFirst, hlist₂, hlist₁, h.last]
      · rw [value_setSize, value_setFirst, hvalue₂, hvalue₁]

theorem of_appendFrontLinkedList (h : m.Linked places) (happend : m.appendFrontLinkedList place = some m')
    (h' : m'.Linked (place :: places)) :
    place ∉ places ∧ m.previous place = some none ∧ (places = [] → m.next place = some none) := by
  have hapart := (List.nodup_cons.mp h'.nodup).1
  have hend := h'.segment
  cases places with
  | nil =>
      have hsize : m.list.size = 0 := h.size
      rw [appendFrontLinkedList, if_pos hsize] at happend
      cases happend
      exact ⟨hapart, hend.1, fun _ => hend.2.1⟩
  | cons first rest =>
      have hfirst : m.list.first = some first := h.first
      have hsize : m.list.size ≠ 0 := by rw [h.size]; simp
      have hne : place ≠ first := fun heq => hapart (by simp [heq])
      rw [appendFrontLinkedList, if_neg hsize, hfirst] at happend
      obtain ⟨m₁, hset₁, happend⟩ := Option.bind_eq_some_iff.mp happend
      obtain ⟨m₂, hset₂, happend⟩ := Option.bind_eq_some_iff.mp happend
      obtain ⟨_, heq, _, _, _, hprevious₁, _⟩ := of_setPrevious hset₁
      cases heq
      obtain ⟨_, _, _, _, _, hprevious₂, _⟩ := of_setNext hset₂
      cases happend
      refine ⟨hapart, ?_, fun heq => absurd heq (by simp)⟩
      have hprevious := hend.1
      rw [previous_setSize, previous_setFirst, hprevious₂, hprevious₁, Function.update_of_ne hne] at hprevious
      exact hprevious

/-! ## Looking nodes up -/

theorem node_of_next (h : m.next place = some pointer) :
    ∃ node, m.node (some place) = some node ∧ node.next = pointer :=
  Option.map_eq_some_iff.mp h

theorem next_of_node {node : LinkedListNode} (h : m.node (some place) = some node) : m.next place = some node.next :=
  congrArg (Option.map _) h

theorem previous_of_node {node : LinkedListNode} (h : m.node (some place) = some node) :
    m.previous place = some node.previous :=
  congrArg (Option.map _) h

theorem value_of_node {node : LinkedListNode} (h : m.node (some place) = some node) :
    m.value place = some node.value :=
  congrArg (Option.map _) h

/-- Going over the first nodes of a segment finds the slot behind them. -/
theorem seek_segment {before : Option Nat} (h : Segment m.next m.previous before (front ++ place :: back) none) :
    m.seek front.length (front ++ place :: back).head? before = some (some place, front.getLast?.or before) := by
  induction front generalizing before with
  | nil => rfl
  | cons other front ih =>
      obtain ⟨_, hforth, hrest⟩ := h
      obtain ⟨node, hnode, hnext⟩ := node_of_next hforth
      obtain ⟨y, ys, hys⟩ : ∃ y ys, front ++ place :: back = y :: ys := by
        cases front with
        | nil => exact ⟨_, _, rfl⟩
        | cons y front => exact ⟨_, _, rfl⟩
      have hhead : node.next = some y := by
        change node.next = ((front ++ place :: back).head?).or none at hnext
        rw [hnext, hys]
        rfl
      have hsecond : m.previous y = some (some other) ∧ (m.next y).isSome := by
        have hsegment : Segment m.next m.previous (some other) (front ++ place :: back) none := hrest
        rw [hys] at hsegment
        exact ⟨hsegment.1, by rw [hsegment.2.1]; rfl⟩
      obtain ⟨pointer', hpointer'⟩ := Option.isSome_iff_exists.mp hsecond.2
      obtain ⟨node', hnode', _⟩ := node_of_next hpointer'
      have hprevious : node'.previous = some other :=
        Option.some.inj ((previous_of_node hnode').symm.trans hsecond.1)
      have hstep := ih hrest
      rw [hys, List.head?_cons] at hstep
      simp only [List.cons_append, List.head?_cons, List.length_cons, seek, hnode, Option.bind_eq_bind, Option.bind_some,
        hhead, hnode', hprevious, hstep, List.getLast?_cons]
      cases front.getLast? <;> rfl

/-- Going over nodes that follow each other leads to the one behind them. -/
theorem walk_chain (h : Chain m.next pointer places none) {index : Nat} (hindex : index ≤ places.length) :
    m.walk index pointer = some places[index]? := by
  induction index generalizing pointer places with
  | zero => rw [walk, h.pointer_eq, Option.or_none, List.head?_eq_getElem?]
  | succ index ih =>
      cases places with
      | nil => simp at hindex
      | cons other places =>
          obtain ⟨rfl, pointer', hlink, hrest⟩ := h
          obtain ⟨node, hnode, hnext⟩ := node_of_next hlink
          simp only [walk, hnode, Option.bind_eq_bind, Option.bind_some, hnext, List.getElem?_cons_succ]
          exact ih hrest (by simpa using hindex)

theorem Linked.forwards (h : m.Linked places) : Chain m.next m.list.first places none := by
  have hchains := Segment.iff_chains.mp ⟨h.segment, rfl, h.last.trans Option.or_none.symm⟩
  rw [h.first]
  rw [Option.or_none] at hchains
  exact hchains.1

theorem getLinkedList_eq (h : m.Linked places) {index : Nat} (hindex : index ≤ places.length) :
    m.getLinkedList index = some places[index]? :=
  walk_chain h.forwards hindex

theorem topIndex_eq (h : m.Linked places) : m.getLinkedList m.topIndex = some places.getLast? := by
  have hindex : m.topIndex = places.length - 1 := by
    rw [topIndex, h.size]
    split <;> omega
  rw [getLinkedList_eq h (by omega), hindex, List.getLast?_eq_getElem?]

theorem findValue_chain (item : Option Nat) (h : Chain m.next pointer places none) :
    m.findValue item places.length pointer = some (places.find? fun place => m.value place = some item) := by
  induction places generalizing pointer with
  | nil => rfl
  | cons other places ih =>
      obtain ⟨rfl, pointer', hlink, hrest⟩ := h
      obtain ⟨node, hnode, hnext⟩ := node_of_next hlink
      rw [List.length_cons, findValue]
      simp only [hnode, Option.bind_eq_bind, Option.bind_some, List.find?_cons, value_of_node hnode, Option.some.injEq]
      by_cases hitem : node.value = item
      · simp [hitem]
      · simp only [hitem, if_false, decide_false, hnext]
        exact ih hrest

theorem iterate_chain (h : Chain m.next pointer places none) (count : Nat) : m.iterate count pointer =
    some ((List.range count).map fun index => (places[index]?.bind m.value).join) := by
  induction count generalizing pointer places with
  | zero => rfl
  | succ count ih =>
      rw [List.range_succ_eq_map, List.map_cons, List.map_map]
      cases places with
      | nil =>
          have hnone : pointer = none := h
          have hrest := ih (show Chain m.next none [] none from rfl)
          simp only [iterate, getNextIteratorLinkedList, hnone, if_true, Option.bind_eq_bind, Option.bind_some, hrest]
          rfl
      | cons other places =>
          obtain ⟨rfl, pointer', hlink, hrest⟩ := h
          obtain ⟨node, hnode, hnext⟩ := node_of_next hlink
          simp only [iterate, getNextIteratorLinkedList, reduceCtorEq, if_false, hnode, Option.map_some,
            Option.bind_eq_bind, Option.bind_some, hnext, ih hrest, List.getElem?_cons_zero, value_of_node hnode,
            Option.join_some]
          rfl

theorem valueOf_eq (h : ∀ place ∈ pointer, (m.value place).isSome) :
    m.valueOf pointer = some (pointer.bind m.value).join := by
  cases pointer with
  | none => rfl
  | some place =>
      obtain ⟨item, hitem⟩ := Option.isSome_iff_exists.mp (h place rfl)
      obtain ⟨node, hnode⟩ := inUse_iff.mp (h place rfl)
      have hnode : m.node (some place) = some node := hnode
      simp [valueOf, hnode, value_of_node hnode]

/-! ## Linking between two nodes -/

theorem setNextIf_eq (h : ∀ place ∈ pointer, (m.value place).isSome) (target : Option Nat) :
    ∃ m', m.setNextIf pointer target = some m' ∧
      m'.Becomes m.list (relink m.next pointer target) m.previous m.value := by
  cases pointer with
  | none => exact ⟨m, rfl, rfl, rfl, rfl, rfl⟩
  | some place => exact setNext_eq target (h place rfl)

theorem setPreviousIf_eq (h : ∀ place ∈ pointer, (m.value place).isSome) (target : Option Nat) :
    ∃ m', m.setPreviousIf pointer target = some m' ∧
      m'.Becomes m.list m.next (relink m.previous pointer target) m.value := by
  cases pointer with
  | none => exact ⟨m, rfl, rfl, rfl, rfl, rfl⟩
  | some place => exact setPrevious_eq target (h place rfl)

/-- A node is linked into the slot between two others of a list. -/
theorem insertBetween_eq {follower : Nat} (h : m.Linked (front ++ follower :: back))
    (hapart : place ∉ front ++ follower :: back) (hin : (m.value place).isSome) (first last : Option Nat)
    (hfirst : first = (front ++ place :: follower :: back).head?)
    (hlast : last = (front ++ place :: follower :: back).getLast?) :
    ∃ m', ((m.setFirst first).setLast last).insertBetween place (some follower) front.getLast? = some m' ∧
      m'.Linked (front ++ place :: follower :: back) ∧ m'.value = m.value := by
  have hnodup := h.nodup
  obtain ⟨hnodup_front, hnodup_back, hdisjoint⟩ := List.nodup_append.mp hnodup
  have hin_last : ∀ other ∈ front.getLast?, other ∈ front := fun other hmem => List.mem_of_getLast? hmem
  have hne : front.getLast? ≠ some place := fun heq =>
    hapart (List.mem_append_left _ (hin_last place heq))
  have hne' : place ≠ follower := fun heq => hapart (by simp [heq])
  obtain ⟨m₁, hset₁, hlist₁, hnext₁, hprevious₁, hvalue₁⟩ :=
    setNext_eq (m := (m.setFirst first).setLast last) (some follower) hin
  obtain ⟨m₂, hset₂, hlist₂, hnext₂, hprevious₂, hvalue₂⟩ :=
    setPrevious_eq (m := m₁) front.getLast? (by rw [hvalue₁]; exact hin)
  obtain ⟨m₃, hset₃, hlist₃, hnext₃, hprevious₃, hvalue₃⟩ :=
    setPrevious_eq (m := m₂) (some place)
      (show (m₂.value follower).isSome by rw [hvalue₂, hvalue₁]; exact h.inUse (by simp))
  obtain ⟨m₄, hset₄, hlist₄, hnext₄, hprevious₄, hvalue₄⟩ :=
    setNextIf_eq (m := m₃) (fun other hmem => by
      rw [hvalue₃, hvalue₂, hvalue₁]
      exact h.inUse (List.mem_append_left _ (hin_last other hmem))) (some place)
  have hlist : m₄.list = ((m.setFirst first).setLast last).list := by rw [hlist₄, hlist₃, hlist₂, hlist₁]
  refine ⟨m₄.setSize (m₄.list.size + 1), ?_, ⟨?_, ?_, ?_, ?_⟩, ?_⟩
  · have hset₃ : m₂.setPreviousIf (some follower) (some place) = some m₃ := hset₃
    simp [insertBetween, hset₁, hset₂, hset₃, hset₄]
  · change m₄.list.size + 1 = _
    rw [hlist]
    change m.list.size + 1 = _
    rw [h.size]
    simp only [List.length_append, List.length_cons]
    omega
  · rw [next_setSize, previous_setSize, hnext₄, hprevious₄, hnext₃, hprevious₃, hnext₂, hprevious₂, hnext₁, hprevious₁]
    obtain ⟨hsegment, hsegment'⟩ := Segment.append_iff.mp h.segment
    have happly : ∀ other, other ≠ place → other ≠ follower →
        Function.update (Function.update m.previous place (some front.getLast?)) follower (some (some place)) other =
          m.previous other := fun other hother hother' => by
      rw [Function.update_of_ne hother', Function.update_of_ne hother]
    apply Segment.append_iff.mpr
    constructor
    · refine (hsegment.relink_after (some place) hnodup_front).congr ?_ ?_
      · intro other hmem
        have hother : other ≠ place := ne_of_mem_of_not_mem (List.mem_append_left _ hmem) hapart
        cases hfront : front.getLast? with
        | none => exact Function.update_of_ne hother _ _
        | some end' =>
            rcases eq_or_ne other end' with rfl | hend
            · exact (Function.update_self ..).trans relink_self.symm
            · exact (Function.update_of_ne hend _ _).trans
                ((Function.update_of_ne hother _ _).trans (Function.update_of_ne hend _ _).symm)
      · intro other hmem
        exact happly other (ne_of_mem_of_not_mem (List.mem_append_left _ hmem) hapart)
          (hdisjoint other hmem follower List.mem_cons_self)
    · refine ⟨?_, ?_, ?_⟩
      · rw [Function.update_of_ne hne', Function.update_self, Option.or_none]
      · rw [relink_of_ne hne]
        exact Function.update_self ..
      · refine (hsegment'.relink_before (some place) hnodup_back).congr ?_ ?_
        · intro other hmem
          have hother : other ≠ place := ne_of_mem_of_not_mem (List.mem_append_right _ hmem) hapart
          have hfront : front.getLast? ≠ some other := fun heq =>
            hdisjoint other (hin_last other heq) other hmem rfl
          rw [relink_of_ne hfront]
          exact Function.update_of_ne hother _ _
        · intro other hmem
          have hother : other ≠ place := ne_of_mem_of_not_mem (List.mem_append_right _ hmem) hapart
          rcases eq_or_ne other follower with rfl | hfollower
          · exact (Function.update_self ..).trans relink_self.symm
          · exact (happly other hother hfollower).trans (Function.update_of_ne hfollower _ _).symm
  · change m₄.list.first = _
    rw [hlist]
    exact hfirst
  · change m₄.list.last = _
    rw [hlist]
    exact hlast
  · rw [value_setSize, hvalue₄, hvalue₃, hvalue₂, hvalue₁]
    rfl

/-- What is between its neighbours no more leaves a list behind that is linked. -/
theorem unlink_eq (h : m.Linked (front ++ place :: back)) :
    ∃ m', m.unlink front.getLast? back.head? = some m' ∧ m'.Linked (front ++ back) ∧ m'.value = m.value := by
  have hnodup := h.nodup
  obtain ⟨hnodup_front, hnodup_back, hdisjoint⟩ := List.nodup_append.mp hnodup
  have hin_last : ∀ other ∈ front.getLast?, other ∈ front := fun other hmem => List.mem_of_getLast? hmem
  have hin_head : ∀ other ∈ back.head?, other ∈ back := fun other hmem => List.mem_of_head? hmem
  obtain ⟨m₁, hset₁, hlist₁, hnext₁, hprevious₁, hvalue₁⟩ := setNextIf_eq (m := m)
    (fun other hmem => h.inUse (List.mem_append_left _ (hin_last other hmem))) back.head?
  obtain ⟨m₂, hset₂, hlist₂, hnext₂, hprevious₂, hvalue₂⟩ := setPreviousIf_eq (m := m₁)
    (fun other hmem => by
      rw [hvalue₁]
      exact h.inUse (List.mem_append_right _ (List.mem_cons_of_mem _ (hin_head other hmem)))) front.getLast?
  obtain ⟨hsegment, _, _, hsegment'⟩ := Segment.append_iff.mp h.segment
  have hlist : m₂.list = m.list := by rw [hlist₂, hlist₁]
  have hset₃ : m₂.updateLast front.getLast? back.head? = some (m₂.setLast (front ++ back).getLast?) := by
    rw [updateLast]
    cases back with
    | nil => simp
    | cons follower back =>
        have hfront : front.getLast? ≠ some follower := fun heq =>
          hdisjoint follower (hin_last follower heq) follower (by simp) rfl
        have hforth : m₂.next follower = some back.head? := by
          rw [hnext₂, hnext₁, relink_of_ne hfront, hsegment'.2.1, Option.or_none]
        obtain ⟨node, hnode, hnode_next⟩ := node_of_next hforth
        have hlast : m₂.list.last = (front ++ follower :: back).getLast? := by
          rw [hlist, h.last]
          simp
        simp only [List.head?_cons, reduceCtorEq, if_false, hnode, Option.bind_eq_bind, Option.bind_some, hnode_next]
        cases back with
        | nil => simp
        | cons other back =>
            rw [List.head?_cons, if_neg (by simp), ← hlast]
            rfl
  let m₃ := m₂.setLast (front ++ back).getLast?
  let m₄ := if front.getLast? = none then m₃.setFirst back.head? else m₃
  have hviews : m₄.next = m₂.next ∧ m₄.previous = m₂.previous ∧ m₄.value = m₂.value ∧
      m₄.list = { size := m.list.size, first := (front ++ back).head?, last := (front ++ back).getLast? } := by
    cases front with
    | nil => exact ⟨rfl, rfl, rfl, by simp [m₄, m₃, setFirst, setLast, hlist]⟩
    | cons other front =>
        have hne : (other :: front).getLast? ≠ none := by simp
        have hfirst : m.list.first = some other := h.first
        simp only [m₄, if_neg hne]
        exact ⟨rfl, rfl, rfl, by simp [m₃, setLast, hlist, hfirst]⟩
  obtain ⟨hnext₄, hprevious₄, hvalue₄, hlist₄⟩ := hviews
  refine ⟨m₄.setSize (countDown m₄.list.size), ?_, ⟨?_, ?_, ?_, ?_⟩, ?_⟩
  · simp only [unlink, hset₁, hset₂, hset₃, Option.bind_eq_bind, Option.bind_some]
    rfl
  · change countDown m₄.list.size = _
    rw [hlist₄, h.size, List.length_append, List.length_append, List.length_cons, countDown, if_neg (by omega)]
    omega
  · rw [next_setSize, previous_setSize, hnext₄, hprevious₄, hnext₂, hprevious₂, hnext₁, hprevious₁]
    apply Segment.append_iff.mpr
    constructor
    · rw [Option.or_none]
      refine (hsegment.relink_after back.head? hnodup_front).congr (fun _ _ => rfl) ?_
      intro other hmem
      refine relink_of_ne fun heq => ?_
      exact hdisjoint other hmem other (List.mem_cons_of_mem _ (hin_head other heq)) rfl
    · rw [Option.or_none]
      refine (hsegment'.relink_before front.getLast? (List.nodup_cons.mp hnodup_back).2).congr ?_
        fun _ _ => rfl
      intro other hmem
      refine relink_of_ne fun heq => ?_
      exact hdisjoint other (hin_last other heq) other (List.mem_cons_of_mem _ hmem) rfl
  · change m₄.list.first = _
    rw [hlist₄]
  · change m₄.list.last = _
    rw [hlist₄]
  · rw [value_setSize, hvalue₄, hvalue₂, hvalue₁]

/-- A node of a list is taken out of it. -/
theorem removeLinkedList_eq (h : m.Linked (front ++ place :: back)) (delete : Bool) :
    ∃ m', m.removeLinkedList (some place) delete = some m' ∧ m'.Linked (front ++ back) ∧
      m'.value = if delete then Function.update m.value place none else m.value := by
  obtain ⟨_, hback, hforth, _⟩ := Segment.append_iff.mp h.segment
  obtain ⟨node, hnode, hnext⟩ := node_of_next hforth
  have hprevious : node.previous = front.getLast? := by
    rw [previous_of_node hnode, Option.or_none] at hback
    exact Option.some.inj hback
  rw [Option.or_none] at hnext
  obtain ⟨m₁, hunlink, hlinked, hvalue⟩ := unlink_eq h
  have hnot : place ∉ front ++ back := by
    have hnodup := h.nodup
    rw [List.nodup_middle] at hnodup
    exact (List.nodup_cons.mp hnodup).1
  cases delete with
  | false => exact ⟨m₁, by simp [removeLinkedList, hnode, hprevious, hnext, hunlink], hlinked, hvalue⟩
  | true =>
      have hin : (m₁.value place).isSome := by
        rw [hvalue]
        exact h.inUse (by simp)
      obtain ⟨m₂, hdelete, hlist₂, hnext₂, hprevious₂, hvalue₂⟩ := deleteLinkedListNode_eq hin
      refine ⟨m₂, by simp [removeLinkedList, hnode, hprevious, hnext, hunlink, hdelete], hlinked.congr hlist₂ ?_ ?_, ?_⟩
      · intro other hmem
        rw [hnext₂, Function.update_of_ne (ne_of_mem_of_not_mem hmem hnot)]
      · intro other hmem
        rw [hprevious₂, Function.update_of_ne (ne_of_mem_of_not_mem hmem hnot)]
      · rw [hvalue₂, hvalue]
        rfl

theorem list_setNextIf {target : Option Nat} (h : m.setNextIf pointer target = some m') : m'.list = m.list := by
  rw [setNextIf] at h
  split at h
  · obtain ⟨_, _, _, hbecomes⟩ := of_setNext h
    exact hbecomes.list
  · cases h
    rfl

theorem list_setPreviousIf {target : Option Nat} (h : m.setPreviousIf pointer target = some m') : m'.list = m.list := by
  rw [setPreviousIf] at h
  split at h
  · obtain ⟨_, _, _, hbecomes⟩ := of_setPrevious h
    exact hbecomes.list
  · cases h
    rfl

theorem size_updateLast {previous next : Option Nat} (h : m.updateLast previous next = some m') :
    m'.list.size = m.list.size := by
  rw [updateLast] at h
  split at h
  · cases h
    rfl
  · obtain ⟨node, _, h⟩ := Option.bind_eq_some_iff.mp h
    cases h
    split <;> rfl

/-- The size is counted down whatever the node that is taken out. -/
theorem size_removeLinkedList {delete : Bool} (h : m.removeLinkedList (some place) delete = some m') :
    m'.list.size = countDown m.list.size := by
  rw [removeLinkedList, if_neg (by simp)] at h
  obtain ⟨node, _, h⟩ := Option.bind_eq_some_iff.mp h
  obtain ⟨m₁, hunlink, h⟩ := Option.bind_eq_some_iff.mp h
  have hsize : m₁.list.size = countDown m.list.size := by
    obtain ⟨m₂, hset₂, hunlink⟩ := Option.bind_eq_some_iff.mp hunlink
    obtain ⟨m₃, hset₃, hunlink⟩ := Option.bind_eq_some_iff.mp hunlink
    obtain ⟨m₄, hset₄, hunlink⟩ := Option.bind_eq_some_iff.mp hunlink
    cases hunlink
    have hsize₄ := size_updateLast hset₄
    rw [list_setPreviousIf hset₃, list_setNextIf hset₂] at hsize₄
    split <;> exact congrArg countDown hsize₄
  split at h
  · rw [list_deleteLinkedListNode h, hsize]
  · cases h
    exact hsize

/-! ## New nodes -/

/-- A new node is in no list, and its links are not set. -/
theorem createLinkedListNode_linked (item : Option Nat) (h : m.Linked places) (hfree : m.value place = none) :
    ∃ m', m.createLinkedListNode place item = some m' ∧ m'.Linked places ∧ place ∉ places ∧
      m'.next place = some none ∧ m'.previous place = some none ∧
      m'.value = Function.update m.value place (some item) := by
  have hapart : place ∉ places := fun hmem => by
    have hin := h.inUse hmem
    rw [hfree] at hin
    cases hin
  obtain ⟨m', hcreate, hlist, hnext, hprevious, hvalue⟩ := createLinkedListNode_eq item hfree
  refine ⟨m', hcreate, h.congr hlist ?_ ?_, hapart, ?_, ?_, hvalue⟩
  · intro other hmem
    rw [hnext, Function.update_of_ne (ne_of_mem_of_not_mem hmem hapart)]
  · intro other hmem
    rw [hprevious, Function.update_of_ne (ne_of_mem_of_not_mem hmem hapart)]
  · rw [hnext, Function.update_self]
  · rw [hprevious, Function.update_self]

/-! ## Adding at an index -/

theorem insertIdx_length (front back : List Nat) (place : Nat) :
    (front ++ back).insertIdx front.length place = front ++ place :: back := by
  induction front with
  | nil => rfl
  | cons other front ih => simp [ih]

theorem setEnds_eq {index : Nat} (h : index < m.list.size) : m.setEnds place index =
    (m.setFirst (if index = 0 then some place else m.list.first)).setLast m.list.last := by
  have hne : index ≠ m.list.size := Nat.ne_of_lt h
  unfold setEnds
  split
  case isTrue => exact if_neg hne
  case isFalse => exact if_neg hne

/-- A node is added between two others. -/
theorem appendIndexLinkedList_eq {index : Nat} (h : m.Linked places) (hindex : index < places.length)
    (hapart : place ∉ places) (hin : (m.value place).isSome) :
    ∃ m', m.appendIndexLinkedList place index = some m' ∧ m'.Linked (places.insertIdx index place) ∧
      m'.value = m.value := by
  obtain ⟨front, follower, back, rfl, rfl⟩ : ∃ front follower back, places = front ++ follower :: back ∧
      index = front.length := by
    refine ⟨places.take index, places[index], places.drop (index + 1), ?_, ?_⟩
    · rw [← List.drop_eq_getElem_cons hindex, List.take_append_drop]
    · rw [List.length_take]
      omega
  rw [insertIdx_length]
  have hfirst : (if front.length = 0 then some place else m.list.first) =
      (front ++ place :: follower :: back).head? := by
    cases front with
    | nil => rfl
    | cons other front => exact h.first
  have hlast : m.list.last = (front ++ place :: follower :: back).getLast? := by
    rw [h.last]
    simp
  obtain ⟨m', hinsert, hlinked, hvalue⟩ := insertBetween_eq h hapart hin _ _ hfirst hlast
  refine ⟨m', ?_, hlinked, hvalue⟩
  have hsize : m.list.size = front.length + back.length + 1 := by
    rw [h.size, List.length_append, List.length_cons]
    omega
  rw [appendIndexLinkedList, if_neg (by omega), if_neg (by omega), h.first, seek_segment h.segment, Option.or_none]
  simp only [Option.bind_eq_bind, Option.bind_some]
  rw [setEnds_eq (by omega)]
  exact hinsert

/-- A node that has been added at an index is in use. -/
theorem inUse_of_appendIndex {index : Nat} (hindex : index < m.list.size)
    (h : m.appendIndexLinkedList place index = some m') : (m.value place).isSome := by
  rw [appendIndexLinkedList, if_neg (by omega), if_neg (by omega)] at h
  obtain ⟨⟨next, previous⟩, _, h⟩ := Option.bind_eq_some_iff.mp h
  obtain ⟨m₁, hset, _⟩ := Option.bind_eq_some_iff.mp h
  obtain ⟨_, heq, hin, _⟩ := of_setNext hset
  cases heq
  rw [setEnds_eq hindex] at hin
  exact hin

end ListMemory

end Viriatum
