import Viriatum.Http.HpackStore

/-!
# The dynamic table is the list of the specification

The table in memory holds the entries of the ring, and these are the headers of the list, whatever is inserted and however
the table is resized.
-/

namespace Viriatum

open Library

/-! ## The memory holds the ring -/

/-- An entry that owns the name and the value of a header. -/
def HpackEntry.of (header : HpackHeader) : HpackEntry := ⟨some header.name, some header.value, header.size⟩

namespace HpackStore

variable {s : HpackStore} {t : HpackRing} {index : Nat}

/-- The entries in use own the headers of the ring. -/
structure Holds (s : HpackStore) (t : HpackRing) : Prop where
  entries : s.entries.toList = t.list.map .of
  size : s.size = t.size
  maxSize : s.maxSize = t.maxSize
  count_le : s.entries.count ≤ hpackMaxEntries

namespace Holds

theorem count (h : s.Holds t) : s.entries.count = t.entries.count := by
  have hlength := congrArg List.length h.entries
  rwa [Ring.length_toList, List.length_map, HpackRing.length_list] at hlength

theorem nth (h : s.Holds t) {i : Nat} (hi : i < s.entries.count) : s.entries.nth i = .of (t.entries.nth i) := by
  have hs := Ring.getElem?_toList hi
  have ht := Ring.getElem?_toList (h.count ▸ hi)
  rw [h.entries, List.getElem?_map, ht] at hs
  exact (Option.some.inj hs).symm

theorem evict (h : s.Holds t) (hpos : 0 < s.entries.count) : s.evict.Holds t.evict where
  entries := by
    have hlist := Ring.toList_release (r := s.entries) .released h.count_le
    rw [HpackRing.evict_list, List.map_dropLast, ← h.entries]
    exact hlist
  size := by
    have hlast := h.nth (i := s.entries.count - 1) (by omega)
    simp only [HpackStore.evict, HpackRing.evict]
    rw [hlast, h.count, h.size]
    rfl
  maxSize := h.maxSize
  count_le := Nat.le_trans (Nat.sub_le _ 1) h.count_le

theorem makeRoom (h : s.Holds t) (room rounds : Nat) : (s.makeRoom room rounds).Holds (t.makeRoom room rounds) := by
  induction rounds generalizing s t with
  | zero => exact h
  | succ rounds ih =>
      rw [HpackStore.makeRoom, HpackRing.makeRoom, h.count, h.size, h.maxSize]
      split
      · next hgo => exact ih (h.evict (by rw [h.count]; exact hgo.1))
      · exact h

theorem resize (h : s.Holds t) {maxSize : Nat} (hfits : maxSize ≤ hpackTableSize) :
    ∃ s' t', s.resize maxSize = .ok s' ∧ t.resize maxSize = .ok t' ∧ s'.Holds t' := by
  have hset : HpackStore.Holds { s with maxSize } { t with maxSize } := { h with maxSize := rfl }
  have hroom := hset.makeRoom 0 s.entries.count
  refine ⟨_, _, if_neg (Nat.not_lt.mpr hfits), if_neg (Nat.not_lt.mpr hfits), ?_⟩
  rw [← h.count]
  exact hroom

/-- A field that is held in buffers is stored whole. -/
theorem insert (h : s.Holds t) (hwf : t.Wf) (header : HpackHeader) :
    ∃ s', s.insert header.field = some s' ∧ s'.Holds (t.insert header) := by
  have hsize : header.field.size = header.size := rfl
  have hroom := h.makeRoom header.size s.entries.count
  have hcount := (hwf.insert header).count_le
  unfold HpackStore.insert
  unfold HpackRing.insert at hcount ⊢
  simp only [hsize, hroom.maxSize, ← h.count] at hcount ⊢
  split
  · exact ⟨_, rfl, hroom⟩
  · next hfits =>
      rw [if_neg hfits] at hcount
      have hfree : (s.makeRoom header.size s.entries.count).entries.count < hpackMaxEntries := by
        rw [hroom.count]
        exact hcount
      refine ⟨_, rfl, ?_, ?_, rfl, hfree⟩
      · rw [Ring.toList_push _ hfree, hroom.entries]
        have hpush := Ring.toList_push header (hroom.count ▸ hfree)
        exact (congrArg (List.map HpackEntry.of) hpush).symm
      · exact congrArg (· + header.size) hroom.size

theorem list (h : s.Holds t) : s.list = some t.list := by
  unfold HpackStore.list
  rw [h.entries]
  generalize t.list = headers
  induction headers with
  | nil => rfl
  | cons header headers ih =>
      rw [List.map_cons, List.mapM_cons, ih]
      rfl

/-- What the index of the table gives refers to the header that the ring has there. -/
theorem get (h : s.Holds t) (index : Nat) :
    match t.get index with
    | .error e => s.get index = .error e
    | .ok header => ∃ field, s.get index = .ok field ∧ s.readField field = some header := by
  unfold HpackRing.get HpackStore.get
  cases Decidable.em (index = 0) with
  | inl hzero => simp [hzero]
  | inr hzero =>
      cases Decidable.em (index ≤ hpackStaticSize) with
      | inl hstatic =>
          simp only [hzero, hstatic, if_true, if_false]
          exact ⟨_, rfl, rfl⟩
      | inr hstatic =>
          cases Decidable.em (index - hpackStaticSize > s.entries.count) with
          | inl habove => simp [hzero, hstatic, habove, ← h.count]
          | inr habove =>
              simp only [hzero, hstatic, habove, ← h.count, if_false]
              have hnth := h.nth (i := index - hpackStaticSize - 1) (by omega)
              have hentry : s.entries.places[s.entries.place (index - hpackStaticSize - 1)] =
                  .of (t.entries.nth (index - hpackStaticSize - 1)) := hnth
              refine ⟨_, rfl, ?_⟩
              simp only [readField, read, hentry]
              rfl

theorem find (h : s.Holds t) (header : HpackHeader) : s.find header = some (t.find header) := by
  unfold HpackStore.find HpackRing.find
  rw [h.list]
  generalize HpackRing.findFrom header 1 0 hpackStaticTable = result
  cases result with
  | mk index found => cases found <;> rfl

end Holds

end HpackStore

/-! ## The ring holds the list -/

theorem dropToFit_eq (maxSize : Nat) (headers : List HpackHeader) : dropToFit maxSize headers = HpackRing.fitting maxSize headers := by
  induction hlength : headers.length generalizing headers with
  | zero =>
      rw [List.eq_nil_of_length_eq_zero hlength, dropToFit]
      simp [HpackRing.fitting]
  | succ length ih =>
      rw [dropToFit]
      split
      · next hfits => rw [HpackRing.fitting_of_le hfits]
      · next hbig =>
          rw [ih headers.dropLast (by simp [hlength])]
          exact HpackRing.fitting_dropLast (by omega)

namespace HpackRing

variable {t : HpackRing} {l : HpackList}

/-- The entries in use are the headers of the list. -/
structure Lists (t : HpackRing) (l : HpackList) : Prop where
  wf : t.Wf
  headers : t.list = l.headers
  maxSize : t.maxSize = l.maxSize

namespace Lists

theorem insert (h : t.Lists l) (header : HpackHeader) : (t.insert header).Lists (l.insert header) where
  wf := h.wf.insert header
  headers := by
    rw [(insert_spec h.wf header).2.2, HpackList.insert, dropToFit_eq, h.headers, h.maxSize]
  maxSize := (insert_spec h.wf header).2.1.trans h.maxSize

theorem resize {t' : HpackRing} {maxSize : Nat} (h : t.Lists l) (hresize : t.resize maxSize = .ok t') :
    t'.Lists { maxSize, headers := dropToFit maxSize l.headers } := by
  obtain ⟨-, hmax, -, hlist⟩ := resize_spec h.wf hresize
  exact ⟨h.wf.resize hresize, by rw [hlist, dropToFit_eq, h.headers], hmax⟩

theorem get (h : t.Lists l) (index : Nat) : t.get index = l.get index := by
  have hlength : hpackStaticTable.length = hpackStaticSize := rfl
  unfold HpackRing.get HpackList.get
  cases Decidable.em (index = 0) with
  | inl hzero => simp [hzero]
  | inr hzero =>
      rw [if_neg hzero, if_neg hzero]
      cases Decidable.em (index ≤ hpackStaticSize) with
      | inl hstatic =>
          have hin : index - 1 < hpackStaticTable.length := by omega
          rw [if_pos hstatic, List.getElem?_append_left hin, List.getD_eq_getElem?_getD,
            List.getElem?_eq_getElem hin]
          rfl
      | inr hstatic =>
          rw [if_neg hstatic, List.getElem?_append_right (by omega), hlength, ← h.headers]
          cases Decidable.em (index - hpackStaticSize > t.entries.count) with
          | inl habove =>
              rw [if_pos habove, List.getElem?_eq_none (by rw [length_list]; omega)]
          | inr habove =>
              have hnth := Ring.getElem?_toList (r := t.entries) (i := index - 1 - hpackStaticSize) (by omega)
              rw [if_neg habove, hnth, show index - hpackStaticSize - 1 = index - 1 - hpackStaticSize by omega]

/-- The walk gives the place of the header, or else the one of the first entry with its name. -/
theorem findFrom_eq (header : HpackHeader) (position index : Nat) (entries : List HpackHeader) :
    findFrom header (position + 1) index entries =
      match entries.findIdx? (· = header) with
      | some i => (position + i + 1, true)
      | none =>
          if index ≠ 0 then (index, false)
          else
            match entries.findIdx? (·.name = header.name) with
            | some i => (position + i + 1, false)
            | none => (0, false) := by
  induction entries generalizing position index with
  | nil =>
      cases index with
      | zero => rfl
      | succ index => rfl
  | cons entry entries ih =>
      rw [findFrom, List.findIdx?_cons, List.findIdx?_cons]
      cases Decidable.em (entry.name = header.name) with
      | inr hname =>
          have hne : entry ≠ header := fun h => hname (congrArg HpackHeader.name h)
          simp only [ne_eq, hname, hne, not_false_eq_true, if_true, decide_false, Bool.false_eq_true, if_false]
          rw [ih]
          cases entries.findIdx? (· = header) with
          | some i => simp [Nat.add_assoc, Nat.add_comm 1]
          | none =>
              cases entries.findIdx? (·.name = header.name) with
              | some i => simp [Nat.add_assoc, Nat.add_comm 1]
              | none => simp
      | inl hname =>
          cases Decidable.em (entry.value = header.value) with
          | inr hvalue =>
              have hne : entry ≠ header := fun h => hvalue (congrArg HpackHeader.value h)
              simp only [ne_eq, hname, hvalue, hne, not_true_eq_false, not_false_eq_true, if_true, decide_true,
                decide_false, Bool.false_eq_true, if_false]
              rw [ih]
              cases entries.findIdx? (· = header) with
              | some i => simp [Nat.add_assoc, Nat.add_comm 1]
              | none =>
                  cases index with
                  | zero => simp
                  | succ index => simp
          | inl hvalue =>
              have heq : entry = header := by
                cases entry
                cases header
                simp_all
              simp [heq]

theorem find (h : t.Lists l) (header : HpackHeader) : t.find header = l.find header := by
  have hspace : t.find header = findFrom header 1 0 (hpackStaticTable ++ t.list) := by
    rw [findFrom_append]
    rfl
  rw [hspace, findFrom_eq, h.headers]
  simp only [ne_eq, not_true_eq_false, if_false, Nat.zero_add]
  rfl

end Lists

end HpackRing

/-! ## A run of operations -/

namespace HpackStore

variable {s s' : HpackStore} {l : HpackList}

/-- The table in memory is the list, by way of the ring. -/
def Refines (s : HpackStore) (l : HpackList) : Prop := ∃ t : HpackRing, s.Holds t ∧ t.Lists l

theorem refines_create : HpackStore.create.Refines .create := by
  refine ⟨.create, ⟨rfl, rfl, rfl, Nat.zero_le _⟩, ?_, rfl, rfl⟩
  exact ⟨rfl, Nat.zero_le _, Nat.le_refl _⟩

namespace Refines

theorem insert (h : s.Refines l) (header : HpackHeader) :
    ∃ s', s.insert header.field = some s' ∧ s'.Refines (l.insert header) := by
  obtain ⟨t, hholds, hlists⟩ := h
  obtain ⟨s', hs', hholds'⟩ := hholds.insert hlists.wf header
  exact ⟨s', hs', _, hholds', hlists.insert header⟩

/-- The index refers to the header that the list has at it. -/
theorem get (h : s.Refines l) (index : Nat) :
    match l.get index with
    | .error e => s.get index = .error e
    | .ok header => ∃ field, s.get index = .ok field ∧ s.readField field = some header := by
  obtain ⟨t, hholds, hlists⟩ := h
  rw [← hlists.get]
  exact hholds.get index

theorem step (h : s.Refines l) (operation : HpackOperation) :
    ∃ s', s.step operation = some s' ∧ s'.Refines (l.step operation) := by
  cases operation with
  | insert header => exact h.insert header
  | insertIndexed index value =>
      have hget := h.get index
      simp only [HpackStore.step, HpackList.step]
      cases hindex : l.get index with
      | error e =>
          rw [hindex] at hget
          rw [hget]
          exact ⟨s, rfl, h⟩
      | ok header =>
          rw [hindex] at hget
          obtain ⟨field, hfield, hread⟩ := hget
          obtain ⟨name, hname, hvalue⟩ := Option.bind_eq_some_iff.mp hread
          obtain ⟨_, -, hheader⟩ := Option.bind_eq_some_iff.mp hvalue
          have heq : header.name = name := (congrArg HpackHeader.name (Option.some.inj hheader)).symm
          simp only [hfield, hname, heq, Option.bind_eq_bind, Option.bind_some]
          split
          · exact ⟨s, rfl, h⟩
          · exact h.insert ⟨name, value⟩
  | resize maxSize =>
      obtain ⟨t, hholds, hlists⟩ := h
      simp only [HpackStore.step, HpackList.step]
      cases Decidable.em (maxSize > hpackTableSize) with
      | inl hbig =>
          rw [if_pos hbig, HpackStore.resize, if_pos hbig]
          exact ⟨s, rfl, t, hholds, hlists⟩
      | inr hfits =>
          obtain ⟨s', t', hs', ht', hholds'⟩ := hholds.resize (Nat.not_lt.mp hfits)
          rw [if_neg hfits, hs']
          exact ⟨s', rfl, t', hholds', hlists.resize ht'⟩

theorem run (h : s.Refines l) (operations : List HpackOperation) :
    ∃ s', s.run operations = some s' ∧ s'.Refines (l.run operations) := by
  induction operations generalizing s l with
  | nil => exact ⟨s, rfl, h⟩
  | cons operation operations ih =>
      obtain ⟨s', hs', h'⟩ := h.step operation
      obtain ⟨s'', hs'', h''⟩ := ih h'
      refine ⟨s'', ?_, h''⟩
      rw [HpackStore.run, List.foldlM_cons, hs']
      exact hs''

theorem list (h : s.Refines l) : s.list = some l.headers := by
  obtain ⟨t, hholds, hlists⟩ := h
  rw [hholds.list, hlists.headers]

theorem maxSize (h : s.Refines l) : s.maxSize = l.maxSize := by
  obtain ⟨t, hholds, hlists⟩ := h
  rw [hholds.maxSize, hlists.maxSize]

theorem size (h : s.Refines l) : s.size = HpackRing.sizeOf l.headers ∧ s.size ≤ s.maxSize := by
  obtain ⟨t, hholds, hlists⟩ := h
  rw [hholds.size, hholds.maxSize, ← hlists.headers]
  exact ⟨hlists.wf.size_eq, hlists.wf.size_le⟩

theorem read (h : s.Refines l) (index : Nat) : (s.get index).map s.readField = (l.get index).map some := by
  have hget := h.get index
  cases hindex : l.get index with
  | error e =>
      rw [hindex] at hget
      rw [hget]
      rfl
  | ok header =>
      rw [hindex] at hget
      obtain ⟨field, hfield, hread⟩ := hget
      rw [hfield]
      exact congrArg Except.ok hread

theorem find (h : s.Refines l) (header : HpackHeader) : s.find header = some (l.find header) := by
  obtain ⟨t, hholds, hlists⟩ := h
  rw [hholds.find, hlists.find]

end Refines

end HpackStore

/-- Nothing fits in less than what it takes. -/
theorem dropToFit_large {maxSize : Nat} {header : HpackHeader} (hlarge : maxSize < header.size) (headers : List HpackHeader) :
    dropToFit maxSize (header :: headers) = [] := by
  rw [dropToFit_eq, HpackRing.fitting, if_neg (Nat.not_le.mpr hlarge)]

/-- Whatever is done to the table, read newest first it is the list: of the size that is kept, with the same indexes; what
does not fit empties it, and the name taken from an entry is stored even if that entry has to go. -/
theorem hpack_refines_list (operations : List HpackOperation) :
    ∃ s : HpackStore, HpackStore.create.run operations = some s ∧
      let l := HpackList.create.run operations
      s.list = some l.headers ∧ s.maxSize = l.maxSize ∧
      s.size = HpackRing.sizeOf l.headers ∧ s.size ≤ s.maxSize ∧
      (∀ index, (s.get index).map s.readField = (l.get index).map some) ∧
      (∀ header, s.find header = some (l.find header)) ∧
      (∀ header, ∃ s', s.insert header.field = some s' ∧
        s'.list = some (dropToFit s.maxSize (header :: l.headers)) ∧
        (s.maxSize < header.size → s'.list = some [] ∧ s'.size = 0)) ∧
      (∀ index value header, l.get index = .ok header → header.name.length ≤ hpackMaxNameSize →
        ∃ s', s.step (.insertIndexed index value) = some s' ∧
          s'.list = some (dropToFit s.maxSize (⟨header.name, value⟩ :: l.headers))) := by
  obtain ⟨s, hrun, h⟩ := HpackStore.refines_create.run operations
  refine ⟨s, hrun, h.list, h.maxSize, h.size.1, h.size.2, h.read, h.find, ?_, ?_⟩
  · intro header
    obtain ⟨s', hs', h'⟩ := h.insert header
    have hlist : s'.list = some (dropToFit s.maxSize (header :: (HpackList.create.run operations).headers)) := by
      rw [h'.list, h.maxSize]
      rfl
    refine ⟨s', hs', hlist, fun hlarge => ?_⟩
    have hempty : dropToFit s.maxSize (header :: (HpackList.create.run operations).headers) = [] := dropToFit_large hlarge _
    rw [hempty] at hlist
    refine ⟨hlist, ?_⟩
    have hheaders := h'.list.symm.trans hlist
    rw [h'.size.1, Option.some.inj hheaders]
    rfl
  · intro index value header hget hname
    obtain ⟨s', hs', h'⟩ := h.step (.insertIndexed index value)
    refine ⟨s', hs', ?_⟩
    rw [h'.list, h.maxSize]
    simp only [HpackList.step, hget, if_neg (Nat.not_lt.mpr hname)]
    rfl

end Viriatum
