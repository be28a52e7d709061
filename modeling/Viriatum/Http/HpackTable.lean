import Viriatum.Library.Ring
import Viriatum.Http.Huffman

/-!
# The tables of the header compression

The static table and the dynamic one of a direction of a connection, which is a ring of entries whose accounted
sizes never add up to more than the maximum size of the table.
-/

namespace Viriatum

open Library

/-- The bytes of an ASCII text of the source. -/
def bytes (s : String) : Bytes := s.toList.map fun c => UInt8.ofNat c.toNat

def hpackStaticSize : Nat := 61

/-- The maximum size of the dynamic table, which is the one advertised to the peer. -/
def hpackTableSize : Nat := 4096

/-- What an entry is accounted for on top of the sizes of its name and of its value. -/
def hpackEntryOverhead : Nat := 32

def hpackMaxEntries : Nat := hpackTableSize / hpackEntryOverhead

def hpackMaxHeaderListSize : Nat := 32768

def hpackMaxNameSize : Nat := 1024

def hpackMaxValueSize : Nat := 4096

structure HpackHeader where
  name : Bytes
  value : Bytes
deriving DecidableEq, Repr

def HpackHeader.ofStrings (name value : String) : HpackHeader := ⟨bytes name, bytes value⟩

/-- The size of the header as the specification accounts it. -/
def HpackHeader.size (h : HpackHeader) : Nat := h.name.length + h.value.length + hpackEntryOverhead

def hpackStaticTable : List HpackHeader :=
  [ .ofStrings ":authority" "", .ofStrings ":method" "GET", .ofStrings ":method" "POST",
    .ofStrings ":path" "/", .ofStrings ":path" "/index.html", .ofStrings ":scheme" "http",
    .ofStrings ":scheme" "https", .ofStrings ":status" "200", .ofStrings ":status" "204",
    .ofStrings ":status" "206", .ofStrings ":status" "304", .ofStrings ":status" "400",
    .ofStrings ":status" "404", .ofStrings ":status" "500", .ofStrings "accept-charset" "",
    .ofStrings "accept-encoding" "gzip, deflate", .ofStrings "accept-language" "",
    .ofStrings "accept-ranges" "", .ofStrings "accept" "", .ofStrings "access-control-allow-origin" "",
    .ofStrings "age" "", .ofStrings "allow" "", .ofStrings "authorization" "",
    .ofStrings "cache-control" "", .ofStrings "content-disposition" "",
    .ofStrings "content-encoding" "", .ofStrings "content-language" "", .ofStrings "content-length" "",
    .ofStrings "content-location" "", .ofStrings "content-range" "", .ofStrings "content-type" "",
    .ofStrings "cookie" "", .ofStrings "date" "", .ofStrings "etag" "", .ofStrings "expect" "",
    .ofStrings "expires" "", .ofStrings "from" "", .ofStrings "host" "", .ofStrings "if-match" "",
    .ofStrings "if-modified-since" "", .ofStrings "if-none-match" "", .ofStrings "if-range" "",
    .ofStrings "if-unmodified-since" "", .ofStrings "last-modified" "", .ofStrings "link" "",
    .ofStrings "location" "", .ofStrings "max-forwards" "", .ofStrings "proxy-authenticate" "",
    .ofStrings "proxy-authorization" "", .ofStrings "range" "", .ofStrings "referer" "",
    .ofStrings "refresh" "", .ofStrings "retry-after" "", .ofStrings "server" "",
    .ofStrings "set-cookie" "", .ofStrings "strict-transport-security" "",
    .ofStrings "transfer-encoding" "", .ofStrings "user-agent" "", .ofStrings "vary" "",
    .ofStrings "via" "", .ofStrings "www-authenticate" "" ]

/-! ## The ring of the dynamic table -/

/-- The dynamic table as the code keeps it. The size of an entry, which the code stores in it, is the one of the
header it holds. -/
structure HpackRing where
  entries : Ring HpackHeader hpackMaxEntries
  size : Nat
  maxSize : Nat
deriving DecidableEq, Repr

namespace HpackRing

def evict (t : HpackRing) : HpackRing :=
  { t with entries := t.entries.dropOldest, size := t.size - (t.entries.nth (t.entries.count - 1)).size }

/-- Evicts the oldest entries while the table is not empty and `room` more bytes do not fit in it; each round
drops an entry, so there are no more of them than entries. -/
def makeRoom (room : Nat) : (rounds : Nat) → HpackRing → HpackRing
  | 0, t => t
  | rounds + 1, t =>
      if t.entries.count > 0 ∧ t.size + room > t.maxSize then makeRoom room rounds t.evict else t

def create : HpackRing where
  entries := { places := Vector.replicate _ ⟨[], []⟩, head := ⟨hpackMaxEntries - 1, by decide⟩, count := 0 }
  size := 0
  maxSize := hpackTableSize

def resize (t : HpackRing) (maxSize : Nat) : Except HpackError HpackRing :=
  if maxSize > hpackTableSize then .error .sizeAboveAdvertised
  else .ok (makeRoom 0 t.entries.count { t with maxSize })

def insert (t : HpackRing) (header : HpackHeader) : HpackRing :=
  let t := makeRoom header.size t.entries.count t
  if header.size > t.maxSize then t
  else { t with entries := t.entries.push header, size := t.size + header.size }

def get (t : HpackRing) (index : Nat) : Except HpackError HpackHeader :=
  if index = 0 then .error .zeroIndex
  else if index ≤ hpackStaticSize then .ok (hpackStaticTable.getD (index - 1) ⟨[], []⟩)
  else if index - hpackStaticSize > t.entries.count then .error .indexAboveTable
  else .ok (t.entries.nth (index - hpackStaticSize - 1))

/-- Walks the entries, the first of them having the given position. The index kept is the one of the first entry
with the name of the header; the walk stops at the first one that has its value as well. -/
def findFrom (header : HpackHeader) : (position index : Nat) → List HpackHeader → Nat × Bool
  | _, index, [] => (index, false)
  | position, index, entry :: rest =>
      if entry.name ≠ header.name then findFrom header (position + 1) index rest
      else
        let index := if index = 0 then position else index
        if entry.value ≠ header.value then findFrom header (position + 1) index rest
        else (position, true)

def find (t : HpackRing) (header : HpackHeader) : Nat × Bool :=
  match findFrom header 1 0 hpackStaticTable with
  | (index, true) => (index, true)
  | (index, false) => findFrom header (hpackStaticSize + 1) index t.entries.toList

/-- The size kept is the one of the entries, it is within the maximum size and this one within the size
advertised. -/
structure Wf (t : HpackRing) : Prop where
  size_eq : t.size = (t.entries.toList.map HpackHeader.size).sum
  size_le : t.size ≤ t.maxSize
  maxSize_le : t.maxSize ≤ hpackTableSize

/-! ## The ring holds the list of the specification -/

/-- The longest front of a list of headers whose sizes fit in the limit. -/
def fitting : (limit : Nat) → List HpackHeader → List HpackHeader
  | _, [] => []
  | limit, header :: rest => if header.size ≤ limit then header :: fitting (limit - header.size) rest else []

/-- The sum of the sizes of the headers. -/
def sizeOf (headers : List HpackHeader) : Nat := (headers.map HpackHeader.size).sum

@[simp] theorem sizeOf_nil : sizeOf [] = 0 := rfl

@[simp] theorem sizeOf_cons (header : HpackHeader) (headers : List HpackHeader) :
    sizeOf (header :: headers) = header.size + sizeOf headers := rfl

@[simp] theorem sizeOf_concat (headers : List HpackHeader) (header : HpackHeader) :
    sizeOf (headers ++ [header]) = sizeOf headers + header.size := by
  simp [sizeOf]

attribute [local simp] fitting

theorem length_le_sizeOf (headers : List HpackHeader) : hpackEntryOverhead * headers.length ≤ sizeOf headers := by
  induction headers with
  | nil => simp
  | cons header headers ih =>
      rw [List.length_cons, sizeOf_cons, HpackHeader.size, Nat.mul_succ]
      omega

theorem fitting_of_le {limit : Nat} {headers : List HpackHeader} (h : sizeOf headers ≤ limit) :
    fitting limit headers = headers := by
  induction headers generalizing limit with
  | nil => rfl
  | cons header headers ih =>
      rw [sizeOf_cons] at h
      rw [fitting, if_pos (by omega), ih (by omega)]

theorem fitting_dropLast {limit : Nat} {headers : List HpackHeader} (h : limit < sizeOf headers) :
    fitting limit headers.dropLast = fitting limit headers := by
  induction headers generalizing limit with
  | nil => rfl
  | cons header headers ih =>
      rw [sizeOf_cons] at h
      cases headers with
      | nil =>
          rw [sizeOf_nil] at h
          simp only [List.dropLast_singleton, fitting]
          rw [if_neg (by omega)]
      | cons next headers =>
          rw [List.dropLast_cons_cons, fitting, fitting]
          split
          · rw [ih (by omega)]
          · rfl

theorem sizeOf_fitting_le (limit : Nat) (headers : List HpackHeader) : sizeOf (fitting limit headers) ≤ limit := by
  induction headers generalizing limit with
  | nil => simp [fitting]
  | cons header headers ih =>
      rw [fitting]
      split
      · have := ih (limit - header.size)
        rw [sizeOf_cons]
        omega
      · simp

/-- The entries in use, the newest first. -/
abbrev list (t : HpackRing) : List HpackHeader := t.entries.toList

theorem length_list (t : HpackRing) : t.list.length = t.entries.count := t.entries.length_toList

theorem evict_list (t : HpackRing) : t.evict.list = t.list.dropLast := t.entries.toList_dropOldest

theorem evict_size {t : HpackRing} (h : t.size = sizeOf t.list) (hc : 0 < t.entries.count) :
    t.evict.size = sizeOf t.evict.list := by
  have hne : t.list ≠ [] := by
    rw [← List.length_pos_iff, length_list]
    exact hc
  have hlast : t.list.getLast hne = t.entries.nth (t.entries.count - 1) := by
    have hnth := Ring.getElem?_toList (r := t.entries) (i := t.entries.count - 1) (by omega)
    rw [List.getLast_eq_getElem]
    rw [List.getElem?_eq_some_iff] at hnth
    obtain ⟨_, hnth⟩ := hnth
    simpa [length_list] using hnth
  have hsum : sizeOf t.list = sizeOf t.list.dropLast + (t.list.getLast hne).size := by
    rw [← sizeOf_concat, List.dropLast_concat_getLast]
  rw [evict_list, evict, ← hlast]
  simp only
  omega

/-- Making room keeps the newest entries that leave it. -/
theorem makeRoom_spec (room rounds : Nat) {t : HpackRing} (h : t.size = sizeOf t.list)
    (hr : t.entries.count ≤ rounds) :
    (makeRoom room rounds t).size = sizeOf (makeRoom room rounds t).list ∧
      (makeRoom room rounds t).maxSize = t.maxSize ∧
      (makeRoom room rounds t).list = if room ≤ t.maxSize then fitting (t.maxSize - room) t.list else [] := by
  induction rounds generalizing t with
  | zero =>
      have hnil : t.list = [] := List.eq_nil_of_length_eq_zero (by rw [length_list]; omega)
      refine ⟨h, rfl, ?_⟩
      simp [makeRoom, hnil, fitting]
  | succ rounds ih =>
      rw [makeRoom]
      split
      case isTrue hgo =>
        obtain ⟨hpos, hbig⟩ := hgo
        obtain ⟨hsize, hmax, hlist⟩ := ih (t := t.evict) (evict_size h hpos) (by
          have : t.evict.entries.count = t.entries.count - 1 := rfl
          omega)
        refine ⟨hsize, hmax, ?_⟩
        rw [hlist, evict_list]
        have hmax' : t.evict.maxSize = t.maxSize := rfl
        rw [hmax']
        split
        · rw [fitting_dropLast (by omega)]
        · rfl
      case isFalse hstop =>
        refine ⟨h, rfl, ?_⟩
        by_cases hpos : 0 < t.entries.count
        · have hfit : t.size + room ≤ t.maxSize := by
            by_contra hbig
            exact hstop ⟨hpos, by omega⟩
          rw [if_pos (by omega), fitting_of_le (by omega)]
        · have hnil : t.list = [] := List.eq_nil_of_length_eq_zero (by rw [length_list]; omega)
          simp [hnil, fitting]

theorem Wf.count_le {t : HpackRing} (h : t.Wf) : t.entries.count ≤ hpackMaxEntries := by
  have hlen := length_le_sizeOf t.list
  rw [length_list, ← show t.size = sizeOf t.list from h.size_eq] at hlen
  have := h.size_le
  have := h.maxSize_le
  simp only [hpackMaxEntries, hpackTableSize, hpackEntryOverhead] at *
  omega

theorem insert_spec {t : HpackRing} (h : t.Wf) (header : HpackHeader) :
    (t.insert header).size = sizeOf (t.insert header).list ∧ (t.insert header).maxSize = t.maxSize ∧
      (t.insert header).list = fitting t.maxSize (header :: t.list) := by
  obtain ⟨hsize, hmax, hlist⟩ := makeRoom_spec header.size t.entries.count h.size_eq le_rfl
  rw [insert]
  simp only [hmax]
  split
  case isTrue hbig =>
    rw [if_neg (by omega)] at hlist
    refine ⟨hsize, hmax, ?_⟩
    rw [hlist, fitting, if_neg (by omega)]
  case isFalse hfits =>
    rw [if_pos (by omega)] at hlist
    obtain ⟨r, hr⟩ : ∃ r, r = makeRoom header.size t.entries.count t := ⟨_, rfl⟩
    rw [← hr] at hsize hmax hlist ⊢
    have hroom : r.entries.count < hpackMaxEntries := by
      have hlen := length_le_sizeOf r.list
      have hle := sizeOf_fitting_le (t.maxSize - header.size) t.list
      have := h.maxSize_le
      rw [length_list] at hlen
      rw [hlist] at hlen
      have : hpackEntryOverhead ≤ header.size := by
        simp [HpackHeader.size]
      simp only [hpackMaxEntries, hpackTableSize, hpackEntryOverhead] at *
      omega
    have hpush : (r.entries.push header).toList = header :: r.list := Ring.toList_push header hroom
    refine ⟨?_, rfl, ?_⟩
    · show r.size + header.size = sizeOf (r.entries.push header).toList
      rw [hpush, sizeOf_cons]
      omega
    · show (r.entries.push header).toList = _
      rw [hpush, hlist, fitting, if_pos (by omega)]

theorem Wf.insert {t : HpackRing} (h : t.Wf) (header : HpackHeader) : (t.insert header).Wf := by
  obtain ⟨hsize, hmax, hlist⟩ := insert_spec h header
  refine ⟨hsize, ?_, ?_⟩
  · rw [hsize, hlist, hmax]
    exact sizeOf_fitting_le _ _
  · rw [hmax]
    exact h.maxSize_le

theorem resize_spec {t t' : HpackRing} {maxSize : Nat} (h : t.Wf) (hr : t.resize maxSize = .ok t') :
    t'.size = sizeOf t'.list ∧ t'.maxSize = maxSize ∧ maxSize ≤ hpackTableSize ∧
      t'.list = fitting maxSize t.list := by
  rw [resize] at hr
  split at hr
  · cases hr
  · cases hr
    obtain ⟨hsize, hmax, hlist⟩ := makeRoom_spec 0 t.entries.count (t := { t with maxSize }) h.size_eq le_rfl
    exact ⟨hsize, hmax, by omega, by simpa using hlist⟩

theorem Wf.resize {t t' : HpackRing} {maxSize : Nat} (h : t.Wf) (hr : t.resize maxSize = .ok t') : t'.Wf := by
  obtain ⟨hsize, hmax, hle, hlist⟩ := resize_spec h hr
  refine ⟨hsize, ?_, by omega⟩
  rw [hsize, hlist, hmax]
  exact sizeOf_fitting_le _ _

theorem Wf.create : create.Wf where
  size_eq := rfl
  size_le := Nat.zero_le _
  maxSize_le := le_rfl

end HpackRing

/-! ## The table -/

/-- A dynamic table: a ring that is well formed. -/
structure HpackTable extends HpackRing where
  wf : toHpackRing.Wf
deriving DecidableEq

namespace HpackTable

def create : HpackTable := ⟨.create, .create⟩

def insert (t : HpackTable) (header : HpackHeader) : HpackTable := ⟨t.toHpackRing.insert header, t.wf.insert header⟩

def resize (t : HpackTable) (maxSize : Nat) : Except HpackError HpackTable :=
  match h : t.toHpackRing.resize maxSize with
  | .ok ring => .ok ⟨ring, t.wf.resize h⟩
  | .error e => .error e

def get (t : HpackTable) (index : Nat) : Except HpackError HpackHeader := t.toHpackRing.get index

def find (t : HpackTable) (header : HpackHeader) : Nat × Bool := t.toHpackRing.find header

/-- Two tables hold the same entries in the same order, of the same size and within the same maximum. -/
structure Same (t u : HpackTable) : Prop where
  list_eq : t.list = u.list
  size_eq : t.size = u.size
  maxSize_eq : t.maxSize = u.maxSize

theorem Same.refl (t : HpackTable) : t.Same t := ⟨rfl, rfl, rfl⟩

/-- The entries and the maximum size of a table settle the size that it keeps. -/
theorem same_of_list_eq {t u : HpackTable} (hl : t.list = u.list) (hm : t.maxSize = u.maxSize) : t.Same u where
  list_eq := hl
  size_eq := by
    have := t.wf.size_eq
    have := u.wf.size_eq
    simp_all only [HpackRing.list]
  maxSize_eq := hm

/-- Same tables are the same after the same insertion. -/
theorem Same.insert {t u : HpackTable} (h : t.Same u) (header : HpackHeader) :
    (t.insert header).Same (u.insert header) := by
  obtain ⟨_, htm, htl⟩ := HpackRing.insert_spec t.wf header
  obtain ⟨_, hum, hul⟩ := HpackRing.insert_spec u.wf header
  refine same_of_list_eq ?_ ?_
  · show (t.toHpackRing.insert header).list = (u.toHpackRing.insert header).list
    rw [htl, hul, h.list_eq, h.maxSize_eq]
  · show (t.toHpackRing.insert header).maxSize = (u.toHpackRing.insert header).maxSize
    rw [htm, hum, h.maxSize_eq]

/-- The combined address space: the static entries followed by the ones of the table. -/
def space (t : HpackTable) : List HpackHeader := hpackStaticTable ++ t.list

theorem get_eq {t : HpackTable} {index : Nat} {header : HpackHeader} (h0 : 0 < index)
    (h : t.space[index - 1]? = some header) : t.get index = .ok header := by
  have hstatic : hpackStaticTable.length = hpackStaticSize := rfl
  rw [get, HpackRing.get, if_neg (by omega)]
  by_cases hs : index ≤ hpackStaticSize
  · rw [space, List.getElem?_append_left (by omega)] at h
    rw [if_pos hs, List.getD_eq_getElem?_getD, h]
    rfl
  · rw [space, List.getElem?_append_right (by omega), hstatic] at h
    have hlt : index - 1 - hpackStaticSize < t.entries.count := by
      have := (List.getElem?_eq_some_iff.mp h).1
      rwa [HpackRing.length_list] at this
    have hnth := Ring.getElem?_toList hlt
    rw [h] at hnth
    cases hnth
    rw [if_neg hs, if_neg (by omega), show index - hpackStaticSize - 1 = index - 1 - hpackStaticSize by omega]

theorem length_space_le (t : HpackTable) : t.space.length ≤ hpackStaticSize + hpackMaxEntries := by
  rw [space, List.length_append, HpackRing.length_list]
  exact Nat.add_le_add_left t.wf.count_le _

end HpackTable

end Viriatum
