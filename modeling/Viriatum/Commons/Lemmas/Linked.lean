import Viriatum.Commons.ValueSequence

/-!
# Lists that are linked

What the operations on the nodes do to the links, and with them to a list that is linked in both directions.
-/

namespace Viriatum

open Library

namespace ListMemory

variable {m m' : ListMemory} {places : List Nat} {place : Nat} {pointer target : Option Nat}

/-- What an operation leaves, by its views. -/
structure Becomes (m : ListMemory) (list : LinkedList) (next previous value : Nat → Option (Option Nat)) : Prop where
  list : m.list = list
  next : m.next = next
  previous : m.previous = previous
  value : m.value = value

theorem next_isSome : (m.next place).isSome = (m.value place).isSome := by
  simp [next, value]

theorem previous_isSome : (m.previous place).isSome = (m.value place).isSome := by
  simp [previous, value]

theorem inUse_iff : (m.value place).isSome ↔ ∃ node, m.nodes place = some node := by
  simp [value, Option.isSome_iff_exists]

theorem map_update {β : Type} (f : LinkedListNode → β) (nodes : Nat → Option LinkedListNode) (place : Nat)
    (node : Option LinkedListNode) : (fun other => (Function.update nodes place node other).map f) =
      Function.update (fun other => (nodes other).map f) place (node.map f) := by
  funext other
  rcases eq_or_ne other place with rfl | hne
  · rw [Function.update_self, Function.update_self]
  · rw [Function.update_of_ne hne, Function.update_of_ne hne]

/-- The views of the nodes once one of them has been written. -/
theorem becomes_write (m : ListMemory) (place : Nat) (node : Option LinkedListNode) :
    ({ m with nodes := Function.update m.nodes place node } : ListMemory).Becomes m.list
      (Function.update m.next place (node.map (·.next))) (Function.update m.previous place (node.map (·.previous)))
      (Function.update m.value place (node.map (·.value))) :=
  ⟨rfl, map_update _ _ _ _, map_update _ _ _ _, map_update _ _ _ _⟩

theorem update_same {β : Type} {view : Nat → Option β} {item : Option β} (h : view place = item) :
    Function.update view place item = view := by
  rw [← h, Function.update_eq_self]

theorem setNext_eq (target : Option Nat) (h : (m.value place).isSome) : ∃ m', m.setNext (some place) target = some m' ∧
    m'.Becomes m.list (Function.update m.next place (some target)) m.previous m.value := by
  obtain ⟨node, hnode⟩ := inUse_iff.mp h
  obtain ⟨hlist, hnext, hprevious, hvalue⟩ := m.becomes_write place (some { node with next := target })
  refine ⟨_, by simp only [setNext, hnode, Option.bind_eq_bind, Option.bind_some], hlist, hnext, ?_, ?_⟩
  · exact hprevious.trans (update_same (by rw [previous, hnode]; rfl))
  · exact hvalue.trans (update_same (by rw [value, hnode]; rfl))

theorem setPrevious_eq (target : Option Nat) (h : (m.value place).isSome) : ∃ m', m.setPrevious (some place) target = some m' ∧
    m'.Becomes m.list m.next (Function.update m.previous place (some target)) m.value := by
  obtain ⟨node, hnode⟩ := inUse_iff.mp h
  obtain ⟨hlist, hnext, hprevious, hvalue⟩ := m.becomes_write place (some { node with previous := target })
  refine ⟨_, by simp only [setPrevious, hnode, Option.bind_eq_bind, Option.bind_some], hlist, ?_, hprevious, ?_⟩
  · exact hnext.trans (update_same (by rw [next, hnode]; rfl))
  · exact hvalue.trans (update_same (by rw [value, hnode]; rfl))

theorem of_setNext (h : m.setNext pointer target = some m') : ∃ place, pointer = some place ∧
    (m.value place).isSome ∧ m'.Becomes m.list (Function.update m.next place (some target)) m.previous m.value := by
  cases pointer with
  | none => cases h
  | some place =>
      have hin : (m.value place).isSome := by
        cases hnode : m.nodes place with
        | none => simp [setNext, hnode] at h
        | some node => exact inUse_iff.mpr ⟨node, hnode⟩
      obtain ⟨m'', hset, hbecomes⟩ := setNext_eq target hin
      rw [hset] at h
      cases h
      exact ⟨place, rfl, hin, hbecomes⟩

theorem of_setPrevious (h : m.setPrevious pointer target = some m') : ∃ place, pointer = some place ∧
    (m.value place).isSome ∧ m'.Becomes m.list m.next (Function.update m.previous place (some target)) m.value := by
  cases pointer with
  | none => cases h
  | some place =>
      have hin : (m.value place).isSome := by
        cases hnode : m.nodes place with
        | none => simp [setPrevious, hnode] at h
        | some node => exact inUse_iff.mpr ⟨node, hnode⟩
      obtain ⟨m'', hset, hbecomes⟩ := setPrevious_eq target hin
      rw [hset] at h
      cases h
      exact ⟨place, rfl, hin, hbecomes⟩

theorem createLinkedListNode_eq (item : Option Nat) (h : m.value place = none) :
    ∃ m', m.createLinkedListNode place item = some m' ∧
      m'.Becomes m.list (Function.update m.next place (some none)) (Function.update m.previous place (some none))
        (Function.update m.value place (some item)) := by
  have hfree : m.nodes place = none := by
    simpa [value] using h
  exact ⟨_, by rw [createLinkedListNode, hfree]; rfl, m.becomes_write place (some _)⟩

theorem of_createLinkedListNode {item : Option Nat} (h : m.createLinkedListNode place item = some m') :
    m.value place = none := by
  rw [createLinkedListNode] at h
  split at h
  case isTrue => cases h
  case isFalse hfree => simpa [value] using hfree

theorem deleteLinkedListNode_eq (h : (m.value place).isSome) : ∃ m', m.deleteLinkedListNode (some place) = some m' ∧
    m'.Becomes m.list (Function.update m.next place none) (Function.update m.previous place none)
      (Function.update m.value place none) := by
  obtain ⟨node, hnode⟩ := inUse_iff.mp h
  exact ⟨_, by simp only [deleteLinkedListNode, hnode, Option.bind_eq_bind, Option.bind_some], m.becomes_write place none⟩

theorem list_deleteLinkedListNode (h : m.deleteLinkedListNode pointer = some m') : m'.list = m.list := by
  cases pointer with
  | none => cases h
  | some place =>
      cases hnode : m.nodes place with
      | none => simp [deleteLinkedListNode, hnode] at h
      | some node =>
          simp only [deleteLinkedListNode, hnode, Option.bind_eq_bind, Option.bind_some] at h
          cases h
          rfl

@[simp] theorem next_setFirst : (m.setFirst pointer).next = m.next := rfl
@[simp] theorem next_setLast : (m.setLast pointer).next = m.next := rfl
@[simp] theorem next_setSize {size : Nat} : (m.setSize size).next = m.next := rfl
@[simp] theorem previous_setFirst : (m.setFirst pointer).previous = m.previous := rfl
@[simp] theorem previous_setLast : (m.setLast pointer).previous = m.previous := rfl
@[simp] theorem previous_setSize {size : Nat} : (m.setSize size).previous = m.previous := rfl
@[simp] theorem value_setFirst : (m.setFirst pointer).value = m.value := rfl
@[simp] theorem value_setLast : (m.setLast pointer).value = m.value := rfl
@[simp] theorem value_setSize {size : Nat} : (m.setSize size).value = m.value := rfl

/-- A list whose nodes are linked to their neighbours, the first and the last one to nothing outside. -/
structure Linked (m : ListMemory) (places : List Nat) : Prop where
  size : m.list.size = places.length
  segment : Segment m.next m.previous none places none
  first : m.list.first = places.head?
  last : m.list.last = places.getLast?

theorem represents_iff {s : ValueSequence} : m.Represents s ↔ m.Linked s.places ∧ m.value = s.values := by
  have hchains : (Segment m.next m.previous none s.places none ∧ m.list.first = s.places.head?.or none ∧
      m.list.last = s.places.getLast?.or none) ↔
      Chain m.next m.list.first s.places none ∧ Chain m.previous m.list.last s.places.reverse none := Segment.iff_chains
  rw [Option.or_none, Option.or_none] at hchains
  constructor
  · intro h
    obtain ⟨hsegment, hfirst, hlast⟩ := hchains.mpr ⟨h.forwards, h.backwards⟩
    exact ⟨⟨h.size, hsegment, hfirst, hlast⟩, h.values⟩
  · rintro ⟨h, hvalues⟩
    obtain ⟨hforwards, hbackwards⟩ := hchains.mp ⟨h.segment, h.first, h.last⟩
    exact ⟨h.size, hforwards, hbackwards, hvalues⟩

end ListMemory

end Viriatum
