import Viriatum.Commons.LinkedList

/-!
# Sorting

The quicksort of an array, the sorting of a list through an array of its values and the comparator of the entries of a
directory.
-/

namespace Viriatum

/-- Negative, zero or positive, as the first value is smaller than, equal to or greater than the second one. -/
abbrev Comparator (α : Type) := α → α → Int

/-- The elements that a pointer leads to. Where there is none, reading and writing ends the run. -/
abbrev Elements (α : Type) := Nat → Option α

section

variable {α : Type} (cmp : Comparator α)

def swapQuicksort (first second : Nat) (sequence : Elements α) : Option (Elements α) := do
  let accumulator ← sequence first
  let value ← sequence second
  some (Function.update (Function.update sequence first (some value)) second (some accumulator))

/-- The window between the two indexes is narrowed from one end or from the other. -/
def narrowQuicksort (pivot : α) (left right : Nat) (sequence : Elements α) : Option (Nat × Nat × Elements α) :=
  if left < right then do
    let value ← sequence left
    if cmp value pivot ≤ 0 then narrowQuicksort pivot (left + 1) right sequence
    else do
      let sequence ← swapQuicksort left (right - 1) sequence
      narrowQuicksort pivot left (right - 1) sequence
  else some (left, right, sequence)
termination_by right - left

/-- The indexes are of a size_t. The calls inside of each other are counted, and ended where there are too many. -/
def sortQuicksort : Nat → Nat → Nat → Elements α → Option (Elements α)
  | 0, _, _, _ => none
  | depth + 1, beginning, last, sequence =>
      if last ≤ (beginning + 1) % 2 ^ 64 then some sequence
      else do
        let pivot ← sequence beginning
        let (left, right, sequence) ← narrowQuicksort cmp pivot ((beginning + 1) % 2 ^ 64) last sequence
        let sequence ← swapQuicksort (ListMemory.countDown left) beginning sequence
        let sequence ← sortQuicksort depth beginning (ListMemory.countDown left) sequence
        sortQuicksort depth right last sequence

end

namespace ListMemory

variable (m : ListMemory)

/-- The values of so many nodes, from the one of a pointer on. -/
def takeValues : Nat → Option Nat → Option (List (Option Nat))
  | 0, _ => some []
  | count + 1, current => do
      let node ← m.node current
      let values ← takeValues count node.next
      some (node.value :: values)

def toSequenceLinkedList : Option (Elements (Option Nat)) := do
  let values ← m.takeValues m.list.size m.list.first
  some fun index => values[index]?

def setValue (pointer value : Option Nat) : Option ListMemory := do
  let place ← pointer
  let node ← m.nodes place
  some { m with nodes := Function.update m.nodes place (some { node with value }) }

/-- The values are put back into so many nodes. -/
def putValues (sequence : Elements (Option Nat)) : Nat → Nat → Option Nat → ListMemory → Option ListMemory
  | 0, _, _, m => some m
  | count + 1, index, current, m => do
      let node ← m.node current
      let value ← sequence index
      let m ← m.setValue current value
      putValues sequence count (index + 1) node.next m

def sortLinkedList (cmp : Comparator (Option Nat)) (depth : Nat) : Option ListMemory := do
  let sequence ← m.toSequenceLinkedList
  let sequence ← sortQuicksort cmp depth 0 m.list.size sequence
  putValues sequence m.list.size 0 m.list.first m

end ListMemory

/-! ## The entries of a directory -/

inductive FileType where
  | directory
  | regular
  | link
deriving DecidableEq, Repr

def FileType.code : FileType → Int
  | .directory => 1
  | .regular => 2
  | .link => 3

/-- The name of an entry goes up to a zero, which is not part of it. -/
structure DirectoryEntry where
  type : FileType
  name : List UInt8
  name_ends : 0 ∉ name
deriving DecidableEq, Repr

/-- `strcmp` -/
def compareNames : List UInt8 → List UInt8 → Int
  | [], [] => 0
  | [], second :: _ => -(second.toNat : Int)
  | first :: _, [] => first.toNat
  | first :: firsts, second :: seconds =>
      if first = second then compareNames firsts seconds else (first.toNat : Int) - second.toNat

def entryCompareFile (first second : DirectoryEntry) : Int :=
  if first.type = second.type then compareNames first.name second.name else first.type.code - second.type.code

end Viriatum
