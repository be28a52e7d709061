import Viriatum.Http.Lemmas.HpackTable

/-!
# The dynamic table in memory

The dynamic table with the memory that its entries own, which the eviction releases. Read from the newest entry to the
oldest one it is the list of the specification, and a field whose name is taken from an entry is stored whole, whether or
not the entry is evicted by it.
-/

namespace Viriatum

open Library

/-- An entry: what it owns of a name and of a value, which is none once it has been released, and its accounted size. -/
structure HpackEntry where
  name : Option Bytes
  value : Option Bytes
  size : Nat
deriving DecidableEq, Repr

def HpackEntry.released : HpackEntry := ⟨none, none, 0⟩

/-- Where a part of a field is: in memory that lasts, or in the entry at a place of the ring. -/
inductive HpackSource where
  | buffer (data : Bytes)
  | entryName (place : Fin hpackMaxEntries) (size : Nat)
  | entryValue (place : Fin hpackMaxEntries) (size : Nat)
deriving DecidableEq, Repr

def HpackSource.size : HpackSource → Nat
  | .buffer data => data.length
  | .entryName _ size => size
  | .entryValue _ size => size

structure HpackField where
  name : HpackSource
  value : HpackSource
deriving DecidableEq, Repr

def HpackField.size (field : HpackField) : Nat := field.name.size + field.value.size + hpackEntryOverhead

/-- The field of a header that is held in buffers. -/
def HpackHeader.field (header : HpackHeader) : HpackField := ⟨.buffer header.name, .buffer header.value⟩

structure HpackStore where
  entries : Ring HpackEntry hpackMaxEntries
  size : Nat
  maxSize : Nat
deriving DecidableEq, Repr

namespace HpackStore

theorem lastPlace_lt : hpackMaxEntries - 1 < hpackMaxEntries := by decide

def create : HpackStore where
  entries := { places := Vector.replicate _ .released, head := ⟨hpackMaxEntries - 1, lastPlace_lt⟩, count := 0 }
  size := 0
  maxSize := hpackTableSize

/-- Reads a part of a field. There is nothing to be read in an entry that has been released. -/
def read (s : HpackStore) : HpackSource → Option Bytes
  | .buffer data => some data
  | .entryName place _ => s.entries.places[place].name
  | .entryValue place _ => s.entries.places[place].value

def readField (s : HpackStore) (field : HpackField) : Option HpackHeader := do
  let name ← s.read field.name
  let value ← s.read field.value
  some ⟨name, value⟩

/-- Releases the oldest entry. -/
def evict (s : HpackStore) : HpackStore :=
  { s with
    entries := s.entries.release .released
    size := s.size - (s.entries.nth (s.entries.count - 1)).size }

/-- Evicts the oldest entries while `room` more bytes do not fit, in no more rounds than there are entries. -/
def makeRoom (room : Nat) : (rounds : Nat) → HpackStore → HpackStore
  | 0, s => s
  | rounds + 1, s =>
      if s.entries.count > 0 ∧ s.size + room > s.maxSize then makeRoom room rounds s.evict else s

def resize (s : HpackStore) (maxSize : Nat) : Except HpackError HpackStore :=
  if maxSize > hpackTableSize then .error .sizeAboveAdvertised
  else .ok (makeRoom 0 s.entries.count { s with maxSize })

/-- Inserts a field, whose parts are copied after the eviction. It is none where one of them is no longer there. -/
def insert (s : HpackStore) (field : HpackField) : Option HpackStore :=
  let size := field.size
  let s := makeRoom size s.entries.count s
  if size > s.maxSize then some s
  else do
    let name ← s.read field.name
    let value ← s.read field.value
    some { s with entries := s.entries.push ⟨some name, some value, size⟩, size := s.size + size }

/-- The field of an index; it refers to what the entry owns. -/
def get (s : HpackStore) (index : Nat) : Except HpackError HpackField :=
  if index = 0 then .error .zeroIndex
  else if index ≤ hpackStaticSize then .ok (hpackStaticTable.getD (index - 1) ⟨[], []⟩).field
  else if index - hpackStaticSize > s.entries.count then .error .indexAboveTable
  else
    let place := s.entries.place (index - hpackStaticSize - 1)
    let entry := s.entries.places[place]
    .ok ⟨.entryName place (entry.name.getD []).length, .entryValue place (entry.value.getD []).length⟩

/-- What the entries in use hold, the newest first. -/
def list (s : HpackStore) : Option (List HpackHeader) :=
  s.entries.toList.mapM fun entry => do
    let name ← entry.name
    let value ← entry.value
    some ⟨name, value⟩

def find (s : HpackStore) (header : HpackHeader) : Option (Nat × Bool) :=
  match HpackRing.findFrom header 1 0 hpackStaticTable with
  | (index, true) => some (index, true)
  | (index, false) => s.list.map (HpackRing.findFrom header (hpackStaticSize + 1) index)

end HpackStore

/-- What is done to a table: the insertion of a header, the one of a field whose name has an index, and a new size. -/
inductive HpackOperation where
  | insert (header : HpackHeader)
  | insertIndexed (index : Nat) (value : Bytes)
  | resize (maxSize : Nat)
deriving DecidableEq, Repr

namespace HpackStore

/-- The name of an index is copied out of the table before the field is inserted. What is refused changes nothing. -/
def step (s : HpackStore) : HpackOperation → Option HpackStore
  | .insert header => s.insert header.field
  | .insertIndexed index value =>
      match s.get index with
      | .error _ => some s
      | .ok field => do
          let name ← s.read field.name
          if name.length > hpackMaxNameSize then some s else s.insert ⟨.buffer name, .buffer value⟩
  | .resize maxSize =>
      match s.resize maxSize with
      | .error _ => some s
      | .ok s => some s

def run (operations : List HpackOperation) (s : HpackStore) : Option HpackStore := operations.foldlM step s

end HpackStore

/-! ## The list of the specification -/

/-- Drops headers from the end until the sizes of the others fit. -/
def dropToFit (maxSize : Nat) (headers : List HpackHeader) : List HpackHeader :=
  if HpackRing.sizeOf headers ≤ maxSize then headers else dropToFit maxSize headers.dropLast
termination_by headers.length
decreasing_by
  cases headers with
  | nil => simp at *
  | cons header headers => simp

structure HpackList where
  headers : List HpackHeader
  maxSize : Nat
deriving DecidableEq, Repr

namespace HpackList

def create : HpackList := ⟨[], hpackTableSize⟩

def insert (l : HpackList) (header : HpackHeader) : HpackList :=
  { l with headers := dropToFit l.maxSize (header :: l.headers) }

def get (l : HpackList) (index : Nat) : Except HpackError HpackHeader :=
  if index = 0 then .error .zeroIndex
  else
    match (hpackStaticTable ++ l.headers)[index - 1]? with
    | none => .error .indexAboveTable
    | some header => .ok header

/-- The index of the header, or else the one of the first with its name, or else zero. -/
def find (l : HpackList) (header : HpackHeader) : Nat × Bool :=
  let space := hpackStaticTable ++ l.headers
  match space.findIdx? (· = header) with
  | some i => (i + 1, true)
  | none =>
      match space.findIdx? (·.name = header.name) with
      | some i => (i + 1, false)
      | none => (0, false)

def step (l : HpackList) : HpackOperation → HpackList
  | .insert header => l.insert header
  | .insertIndexed index value =>
      match l.get index with
      | .error _ => l
      | .ok header => if header.name.length > hpackMaxNameSize then l else l.insert ⟨header.name, value⟩
  | .resize maxSize =>
      if maxSize > hpackTableSize then l else { maxSize, headers := dropToFit maxSize l.headers }

def run (operations : List HpackOperation) (l : HpackList) : HpackList := operations.foldl step l

end HpackList

end Viriatum
