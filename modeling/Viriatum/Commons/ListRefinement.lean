import Viriatum.Commons.Lemmas.ListCalls

/-!
# Runs of the linked list

The calls of a run do to the list what they do to the sequence as long as the list takes them.
-/

namespace Viriatum

open Library

namespace ListMemory

variable {m m' : ListMemory} {s : ValueSequence} {pointer : Option Nat} {place : Nat}

theorem Represents.linked (h : m.Represents s) : m.Linked s.places := (represents_iff.mp h).1

theorem insert_length : s.insert s.places.length place = { s with places := s.places ++ [place] } := by
  have hinsert := insertIdx_length s.places [] place
  rw [List.append_nil] at hinsert
  rw [ValueSequence.insert, if_neg (Nat.lt_irrefl _), hinsert]

theorem insert_zero : s.insert 0 place = { s with places := place :: s.places } := by
  rw [ValueSequence.insert, if_neg (Nat.not_lt_zero _)]
  rfl

/-! ## Adding nodes -/

theorem append_iff (h : m.Represents s) : m.Detached s m.next m.previous place ↔
    ∃ m', m.appendLinkedList place = some m' ∧ m'.Represents (s.insert s.places.length place) := by
  rw [insert_length]
  constructor
  · rintro ⟨hapart, houter, hinner⟩
    obtain ⟨m', happend, hlinked, hvalue⟩ := appendLinkedList_eq h.linked hapart houter hinner
    exact ⟨m', happend, represents_iff.mpr ⟨hlinked, hvalue.trans h.values⟩⟩
  · rintro ⟨m', happend, h'⟩
    obtain ⟨hapart, houter, hinner⟩ := of_appendLinkedList h.linked happend h'.linked
    exact ⟨hapart, houter, hinner⟩

theorem appendFront_iff (h : m.Represents s) : m.Detached s m.previous m.next place ↔
    ∃ m', m.appendFrontLinkedList place = some m' ∧ m'.Represents (s.insert 0 place) := by
  rw [insert_zero]
  constructor
  · rintro ⟨hapart, houter, hinner⟩
    obtain ⟨m', happend, hlinked, hvalue⟩ := appendFrontLinkedList_eq h.linked hapart houter hinner
    exact ⟨m', happend, represents_iff.mpr ⟨hlinked, hvalue.trans h.values⟩⟩
  · rintro ⟨m', happend, h'⟩
    obtain ⟨hapart, houter, hinner⟩ := of_appendFrontLinkedList h.linked happend h'.linked
    exact ⟨hapart, houter, hinner⟩

theorem appendIndex_iff (h : m.Represents s) {index : Nat} : m.Takes s (.appendIndex place index) ↔
    ∃ m', m.appendIndexLinkedList place index = some m' ∧ m'.Represents (s.insert index place) := by
  rcases Nat.lt_trichotomy index s.places.length with hlt | rfl | hgt
  · have hinsert : s.insert index place = { s with places := s.places.insertIdx index place } :=
      if_neg (Nat.not_lt.mpr (Nat.le_of_lt hlt))
    rw [hinsert]
    constructor
    · rintro (⟨heq, _⟩ | ⟨_, hapart, hin⟩ | hgt)
      · omega
      · rw [← h.values] at hin
        obtain ⟨m', happend, hlinked, hvalue⟩ := appendIndexLinkedList_eq h.linked hlt hapart hin
        exact ⟨m', happend, represents_iff.mpr ⟨hlinked, hvalue.trans h.values⟩⟩
      · omega
    · rintro ⟨m', happend, h'⟩
      refine .inr (.inl ⟨hlt, fun hmem => ?_, ?_⟩)
      · have hnodup := h'.linked.nodup
        rw [(List.perm_insertIdx place s.places (Nat.le_of_lt hlt)).nodup_iff] at hnodup
        exact (List.nodup_cons.mp hnodup).1 hmem
      · rw [← h.values]
        exact inUse_of_appendIndex (by rw [h.size]; exact hlt) happend
  · have hsame : m.appendIndexLinkedList place s.places.length = m.appendLinkedList place := by
      rw [appendIndexLinkedList, if_neg (by rw [h.size]; exact Nat.lt_irrefl _), if_pos h.size.symm]
    rw [hsame, ← append_iff h]
    constructor
    · rintro (⟨_, hdetached⟩ | ⟨hlt, _⟩ | hgt)
      · exact hdetached
      · omega
      · omega
    · exact fun hdetached => .inl ⟨rfl, hdetached⟩
  · have hsame : m.appendIndexLinkedList place index = some m := if_pos (by rw [h.size]; exact hgt)
    have hinsert : s.insert index place = s := if_pos hgt
    rw [hsame, hinsert]
    exact ⟨fun _ => ⟨m, rfl, h⟩, fun _ => .inr (.inr hgt)⟩

/-- A new node is one that can be added anywhere. -/
theorem create_represents (item : Option Nat) (h : m.Represents s) (hfree : s.values place = none) :
    ∃ m', m.createLinkedListNode place item = some m' ∧ m'.Represents (s.create place item) ∧ place ∉ s.places ∧
      m'.next place = some none ∧ m'.previous place = some none := by
  rw [← h.values] at hfree
  obtain ⟨m', hcreate, hlinked, hapart, hnext, hprevious, hvalue⟩ :=
    createLinkedListNode_linked item h.linked hfree
  refine ⟨m', hcreate, represents_iff.mpr ⟨hlinked, ?_⟩, hapart, hnext, hprevious⟩
  rw [hvalue, h.values]
  rfl

theorem create_iff {item : Option Nat} (h : m.Represents s) : s.values place = none ↔
    ∃ m', m.createLinkedListNode place item = some m' ∧ m'.Represents (s.create place item) := by
  constructor
  · intro hfree
    obtain ⟨m', hcreate, h', _⟩ := create_represents item h hfree
    exact ⟨m', hcreate, h'⟩
  · rintro ⟨m', hcreate, _⟩
    rw [← h.values]
    exact of_createLinkedListNode hcreate

/-- A node that is created and then added needs no more than a place that is not in use. -/
theorem createThen_iff (place : Nat) (item : Option Nat) (add : ListMemory → Option ListMemory) (s' : ValueSequence)
    (h : m.Represents s) (hadd : ∀ m₁, m₁.Represents (s.create place item) → place ∉ s.places →
      m₁.next place = some none → m₁.previous place = some none → ∃ m', add m₁ = some m' ∧ m'.Represents s') :
    s.values place = none ↔
      ∃ m', (m.createLinkedListNode place item >>= add) = some m' ∧ m'.Represents s' := by
  constructor
  · intro hfree
    obtain ⟨m₁, hcreate, h₁, hapart, hnext, hprevious⟩ := create_represents item h hfree
    obtain ⟨m', happend, h'⟩ := hadd m₁ h₁ hapart hnext hprevious
    exact ⟨m', by rw [hcreate]; exact happend, h'⟩
  · rintro ⟨m', hrun, _⟩
    obtain ⟨m₁, hcreate, _⟩ := Option.bind_eq_some_iff.mp hrun
    rw [← h.values]
    exact of_createLinkedListNode hcreate

/-! ## Removing nodes -/

theorem remove_represents (delete : Bool) (h : m.Represents s) (hmem : ∀ place ∈ pointer, place ∈ s.places) :
    ∃ m', m.removeLinkedList pointer delete = some m' ∧ m'.Represents (s.take pointer delete) := by
  cases pointer with
  | none => exact ⟨m, rfl, h⟩
  | some place =>
      obtain ⟨front, back, hplaces⟩ := List.append_of_mem (hmem place rfl)
      have hlinked := h.linked
      have hnodup := hlinked.nodup
      rw [hplaces] at hlinked hnodup
      obtain ⟨m', hremove, hlinked', hvalue⟩ := removeLinkedList_eq hlinked delete
      have hnot : place ∉ front := fun hin =>
        (List.nodup_append.mp hnodup).2.2 place hin place List.mem_cons_self rfl
      refine ⟨m', hremove, represents_iff.mpr ⟨?_, ?_⟩⟩
      · change m'.Linked (s.places.erase place)
        rw [hplaces, List.erase_append_right _ hnot, List.erase_cons_head]
        exact hlinked'
      · rw [hvalue, h.values]
        rfl

theorem remove_iff {delete : Bool} (h : m.Represents s) : (∀ place ∈ pointer, place ∈ s.places) ↔
    ∃ m', m.removeLinkedList pointer delete = some m' ∧ m'.Represents (s.take pointer delete) := by
  constructor
  · exact remove_represents _ h
  · rintro ⟨m', hremove, h'⟩ place rfl
    by_contra hnot
    have hsize := size_removeLinkedList hremove
    have hsize' : m'.list.size = (s.places.erase place).length := h'.size
    rw [hsize', h.size, List.erase_of_not_mem hnot, countDown] at hsize
    split at hsize <;> omega

/-- The value of a node that has been taken out is read, and the node deleted. -/
theorem takeValue_represents (delete : Bool) (h : m.Represents s) (hin : ∀ place ∈ pointer, (s.values place).isSome)
    (hapart : ∀ place ∈ pointer, place ∉ s.places) :
    ∃ m', m.takeValue pointer delete = some (m', s.valueAt pointer) ∧ m'.Represents (s.take pointer delete) := by
  have hvalue := valueOf_eq (m := m) (by rw [h.values]; exact hin)
  rw [h.values] at hvalue
  cases pointer with
  | none => exact ⟨m, by simp [takeValue, hvalue, ValueSequence.valueAt], h⟩
  | some place =>
      have hplaces : s.places.erase place = s.places := List.erase_of_not_mem (hapart place rfl)
      cases delete with
      | false =>
          refine ⟨m, by simp [takeValue, hvalue, ValueSequence.valueAt], ?_⟩
          rw [ValueSequence.take, hplaces]
          exact h
      | true =>
          obtain ⟨m', hdelete, hlist, hnext, hprevious, hvalue'⟩ :=
            deleteLinkedListNode_eq (m := m) (by rw [h.values]; exact hin place rfl)
          refine ⟨m', by simp [takeValue, hvalue, hdelete, ValueSequence.valueAt], represents_iff.mpr ⟨?_, ?_⟩⟩
          · rw [ValueSequence.take, hplaces]
            refine h.linked.congr hlist ?_ ?_
            · intro other hmem
              rw [hnext, Function.update_of_ne (ne_of_mem_of_not_mem hmem (hapart place rfl))]
            · intro other hmem
              rw [hprevious, Function.update_of_ne (ne_of_mem_of_not_mem hmem (hapart place rfl))]
          · rw [hvalue', h.values]
            rfl

/-- What is taken out by its value is taken out and then deleted. -/
theorem take_take {delete : Bool} (hnodup : s.places.Nodup) (hmem : ∀ place ∈ pointer, place ∈ s.places) :
    (s.take pointer false).take pointer delete = s.take pointer delete := by
  cases pointer with
  | none => rfl
  | some place =>
      have hnot : place ∉ s.places.erase place := List.Nodup.not_mem_erase hnodup
      simp only [ValueSequence.take, List.erase_of_not_mem hnot]
      rfl

theorem popThen_represents (delete : Bool) (h : m.Represents s) (hmem : ∀ place ∈ pointer, place ∈ s.places) :
    ∃ m', (do
        let m ← m.removeLinkedList pointer false
        m.takeValue pointer delete) = some (m', s.valueAt pointer) ∧ m'.Represents (s.take pointer delete) := by
  obtain ⟨m₁, hremove, h₁⟩ := remove_represents false h hmem
  have hvalues : (s.take pointer false).values = s.values := by
    cases pointer with
    | none => rfl
    | some place => rfl
  obtain ⟨m', htake, h'⟩ := takeValue_represents delete h₁
    (fun place heq => by
      rw [hvalues, ← h.values]
      exact h.linked.inUse (hmem place heq))
    (fun place heq => by
      cases heq
      exact List.Nodup.not_mem_erase h.linked.nodup)
  rw [take_take h.linked.nodup hmem] at h'
  refine ⟨m', ?_, h'⟩
  rw [hremove]
  simp only [Option.bind_eq_bind, Option.bind_some, htake, ValueSequence.valueAt, hvalues]

theorem getLinkedList_head (h : m.Linked s.places) : m.getLinkedList 0 = some s.places.head? := by
  rw [getLinkedList_eq h (Nat.zero_le _), List.head?_eq_getElem?]

theorem list_deleteNodes {count : Nat} (h : deleteNodes count pointer m = some m') : m'.list = m.list := by
  induction count generalizing pointer m with
  | zero =>
      cases h
      rfl
  | succ count ih =>
      rw [deleteNodes] at h
      obtain ⟨node, _, h⟩ := Option.bind_eq_some_iff.mp h
      obtain ⟨m₁, hdelete, h⟩ := Option.bind_eq_some_iff.mp h
      rw [ih h, list_deleteLinkedListNode hdelete]

/-- A list is cleared as a sequence is exactly when it is empty. -/
theorem clear_iff (h : m.Represents s) : s.places = [] ↔ ∃ m', m.clearLinkedList = some m' ∧
    m'.Represents { places := [], values := fun place => if place ∈ s.places then none else s.values place } := by
  constructor
  · intro hempty
    have hsize : m.list.size = 0 := by rw [h.size, hempty]; rfl
    refine ⟨m.setSize 0, by rw [clearLinkedList, hsize]; rfl, rfl, ?_, ?_, ?_⟩
    · have hfirst := h.forwards
      rw [hempty] at hfirst
      exact hfirst
    · have hlast := h.backwards
      rw [hempty] at hlast
      exact hlast
    · simp [hempty, h.values]
  · rintro ⟨m', hclear, h'⟩
    obtain ⟨m₁, hdelete, hclear⟩ := Option.bind_eq_some_iff.mp hclear
    cases hclear
    have hfirst : m₁.list.first = none := h'.forwards
    rw [list_deleteNodes hdelete, h.linked.first] at hfirst
    exact List.head?_eq_none_iff.mp hfirst

/-! ## Steps and runs -/

theorem answered_iff {run : Option ListMemory} {answer : ListAnswer} {s' : ValueSequence} :
    (∃ m', run.map (·, answer) = some (m', answer) ∧ m'.Represents s') ↔ ∃ m', run = some m' ∧ m'.Represents s' := by
  simp

/-- What the list takes it does as the sequence does, and nothing else. -/
theorem takes_iff (call : ListCall) (h : m.Represents s) : m.Takes s call ↔
    ∃ m', m.perform call = some (m', (s.perform call).2) ∧ m'.Represents (s.perform call).1 := by
  have hhead : ∀ place ∈ s.places.head?, place ∈ s.places := fun place hmem => List.mem_of_head? hmem
  have hlast : ∀ place ∈ s.places.getLast?, place ∈ s.places := fun place hmem => List.mem_of_getLast? hmem
  have hin : ∀ {pointer : Option Nat}, (∀ place ∈ pointer, place ∈ s.places) →
      m.valueOf pointer = some (s.valueAt pointer) := fun hmem => by
    rw [valueOf_eq fun place heq => h.linked.inUse (hmem place heq), h.values]
    rfl
  have hget := getLinkedList_head h.linked
  have htop := topIndex_eq h.linked
  cases call with
  | createNode place item => exact (create_iff h).trans answered_iff.symm
  | append place => exact (append_iff h).trans answered_iff.symm
  | appendFront place => exact (appendFront_iff h).trans answered_iff.symm
  | appendIndex place index => exact (appendIndex_iff h).trans answered_iff.symm
  | appendValue place item =>
      have happend := createThen_iff place item (fun m => m.appendLinkedList place)
        ((s.create place item).insert s.places.length place) h fun m₁ h₁ hapart hnext hprevious =>
          (append_iff h₁).mp ⟨hapart, hnext, fun _ => hprevious⟩
      exact happend.trans answered_iff.symm
  | appendFrontValue place item =>
      have happend := createThen_iff place item (fun m => m.appendFrontLinkedList place)
        ((s.create place item).insert 0 place) h fun m₁ h₁ hapart hnext hprevious =>
          (appendFront_iff h₁).mp ⟨hapart, hprevious, fun _ => hnext⟩
      exact happend.trans answered_iff.symm
  | appendIndexValue place item index =>
      have happend := createThen_iff place item (fun m => m.appendIndexLinkedList place index)
        ((s.create place item).insert index place) h fun m₁ h₁ hapart hnext hprevious => by
          apply (appendIndex_iff h₁).mp
          rcases Nat.lt_trichotomy index s.places.length with hlt | heq | hgt
          · exact .inr (.inl ⟨hlt, hapart, by simp [ValueSequence.create]⟩)
          · exact .inl ⟨heq, hapart, hnext, fun _ => hprevious⟩
          · exact .inr (.inr hgt)
      exact happend.trans answered_iff.symm
  | remove pointer delete => exact (remove_iff h).trans answered_iff.symm
  | removeValue item delete =>
      have hfind := findValue_chain item h.linked.forwards
      have hmem : ∀ place ∈ s.places.find? (fun place => s.values place = some item), place ∈ s.places :=
        fun place heq => List.mem_of_find?_eq_some heq
      obtain ⟨m', hremove, h'⟩ := remove_represents delete h hmem
      refine iff_of_true trivial ⟨m', ?_, h'⟩
      have hrun : m.removeValueLinkedList item delete = some m' := by
        rw [removeValueLinkedList, h.size, hfind, h.values, Option.bind_eq_bind, Option.bind_some]
        split
        case isTrue hnone =>
          rw [hnone] at hremove
          exact hremove
        case isFalse => exact hremove
      rw [perform, hrun]
      rfl
  | pop =>
      obtain ⟨m', hremove, h'⟩ := remove_represents false h hhead
      exact iff_of_true trivial ⟨m', by simp [perform, ValueSequence.perform, popLinkedList, hget, hremove], h'⟩
  | popTop =>
      obtain ⟨m', hremove, h'⟩ := remove_represents false h hlast
      exact iff_of_true trivial ⟨m', by simp [perform, ValueSequence.perform, popTopLinkedList, htop, hremove], h'⟩
  | popValue delete =>
      obtain ⟨m', htake, h'⟩ := popThen_represents delete h hhead
      obtain ⟨m₁, hremove, htake⟩ := Option.bind_eq_some_iff.mp htake
      exact iff_of_true trivial
        ⟨m', by simp [perform, ValueSequence.perform, popValueLinkedList, popLinkedList, hget, hremove, htake], h'⟩
  | popTopValue delete =>
      obtain ⟨m', htake, h'⟩ := popThen_represents delete h hlast
      obtain ⟨m₁, hremove, htake⟩ := Option.bind_eq_some_iff.mp htake
      exact iff_of_true trivial
        ⟨m', by simp [perform, ValueSequence.perform, popTopValueLinkedList, popTopLinkedList, htop, hremove, htake], h'⟩
  | peek => exact iff_of_true trivial ⟨m, by simp [perform, ValueSequence.perform, peekLinkedList, hget], h⟩
  | peekTop => exact iff_of_true trivial ⟨m, by simp [perform, ValueSequence.perform, peekTopLinkedList, htop], h⟩
  | peekValue =>
      exact iff_of_true trivial
        ⟨m, by simp [perform, ValueSequence.perform, peekValueLinkedList, peekLinkedList, hget, hin hhead], h⟩
  | peekTopValue =>
      exact iff_of_true trivial
        ⟨m, by simp [perform, ValueSequence.perform, peekTopValueLinkedList, peekTopLinkedList, htop, hin hlast], h⟩
  | clear => exact (clear_iff h).trans answered_iff.symm
  | iterate count =>
      refine iff_of_true trivial ⟨m, ?_, h⟩
      rw [perform, iterate_chain h.linked.forwards, h.values]
      rfl

theorem refines_iff (calls : List ListCall) (h : m.Represents s) : m.Refines s calls ↔ m.Keeps s calls := by
  induction calls generalizing m s with
  | nil => exact iff_of_true h trivial
  | cons call calls ih =>
      rw [Refines, Keeps, takes_iff call h]
      constructor
      · rintro ⟨_, m', hperform, hrest⟩
        have h' : m'.Represents (s.perform call).1 := by
          cases calls with
          | nil => exact hrest
          | cons call' calls => exact hrest.1
        refine ⟨⟨m', hperform, h'⟩, fun m'' answer hperform' => ?_⟩
        rw [hperform, Option.some.injEq] at hperform'
        cases hperform'
        exact (ih h').mp hrest
      · rintro ⟨⟨m', hperform, h'⟩, hrest⟩
        exact ⟨h, m', hperform, (ih h').mpr (hrest m' _ hperform)⟩

end ListMemory

open ListMemory

theorem represents_create : createLinkedList.Represents .empty where
  size := rfl
  forwards := rfl
  backwards := rfl
  values := rfl

/-- From a new list on, the runs that are those of the sequence are the ones whose calls the list takes. -/
theorem list_refines_sequence (calls : List ListCall) :
    createLinkedList.Refines .empty calls ↔ createLinkedList.Keeps .empty calls :=
  refines_iff calls represents_create

/-- A list that has been cleared still has its first node. -/
theorem not_list_refines_sequence :
    ¬ ∀ calls, createLinkedList.Refines .empty calls := by
  intro h
  have hkeeps := (refines_iff _ represents_create).mp (h [.appendValue 1 (some 7), .clear])
  have hempty := (hkeeps.2 _ _ rfl).1
  cases hempty

end Viriatum
