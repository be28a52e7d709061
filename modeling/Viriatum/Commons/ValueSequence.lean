import Viriatum.Commons.LinkedList
import Viriatum.Library.Segment

/-!
# The linked list as a sequence

What the calls on a list do to the sequence of its nodes, and which calls do it.
-/

namespace Viriatum

open Library

/-- The nodes of a list in their order, and the values of all the nodes in use. -/
structure ValueSequence where
  places : List Nat
  values : Nat → Option (Option Nat)

namespace ValueSequence

def empty : ValueSequence := { places := [], values := fun _ => none }

variable (s : ValueSequence)

/-- The value of a node, null if there is none. -/
def valueAt (pointer : Option Nat) : Option Nat := (pointer.bind s.values).join

def create (place : Nat) (value : Option Nat) : ValueSequence :=
  { s with values := Function.update s.values place (some value) }

def insert (index place : Nat) : ValueSequence :=
  if index > s.places.length then s else { s with places := s.places.insertIdx index place }

/-- A node leaves the list, and is given back if it is to be deleted. -/
def take (pointer : Option Nat) (delete : Bool) : ValueSequence :=
  match pointer with
  | none => s
  | some place =>
      { places := s.places.erase place
        values := if delete then Function.update s.values place none else s.values }

/-- What a call does to the sequence, and what it answers. -/
def perform : ListCall → ValueSequence × ListAnswer
  | .createNode place value => (s.create place value, [some place])
  | .append place => (s.insert s.places.length place, [])
  | .appendFront place => (s.insert 0 place, [])
  | .appendIndex place index => (s.insert index place, [])
  | .appendValue place value => ((s.create place value).insert s.places.length place, [])
  | .appendFrontValue place value => ((s.create place value).insert 0 place, [])
  | .appendIndexValue place value index => ((s.create place value).insert index place, [])
  | .remove pointer delete => (s.take pointer delete, [])
  | .removeValue value delete => (s.take (s.places.find? fun place => s.values place = some value) delete, [])
  | .pop => (s.take s.places.head? false, [s.places.head?])
  | .popTop => (s.take s.places.getLast? false, [s.places.getLast?])
  | .popValue delete => (s.take s.places.head? delete, [s.valueAt s.places.head?])
  | .popTopValue delete => (s.take s.places.getLast? delete, [s.valueAt s.places.getLast?])
  | .peek => (s, [s.places.head?])
  | .peekTop => (s, [s.places.getLast?])
  | .peekValue => (s, [s.valueAt s.places.head?])
  | .peekTopValue => (s, [s.valueAt s.places.getLast?])
  | .clear => ({ places := [], values := fun place => if place ∈ s.places then none else s.values place }, [])
  | .iterate count => (s, (List.range count).map fun index => s.valueAt s.places[index]?)

end ValueSequence

namespace ListMemory

def next (m : ListMemory) (place : Nat) : Option (Option Nat) := (m.nodes place).map (·.next)

def previous (m : ListMemory) (place : Nat) : Option (Option Nat) := (m.nodes place).map (·.previous)

def value (m : ListMemory) (place : Nat) : Option (Option Nat) := (m.nodes place).map (·.value)

/-- The list is the sequence: read forwards and backwards, by its size, and by the values of the nodes. -/
structure Represents (m : ListMemory) (s : ValueSequence) : Prop where
  size : m.list.size = s.places.length
  forwards : Chain m.next m.list.first s.places none
  backwards : Chain m.previous m.list.last s.places.reverse none
  values : m.value = s.values

/-- Every call of a run answers as on the sequence, and before and after each the list is the sequence. -/
def Refines : ListMemory → ValueSequence → List ListCall → Prop
  | m, s, [] => m.Represents s
  | m, s, call :: calls => m.Represents s ∧
      ∃ m', m.perform call = some (m', (s.perform call).2) ∧ Refines m' (s.perform call).1 calls

/-- A node that is in no list, with the links of a new one where it is put at the end. -/
structure Detached (m : ListMemory) (s : ValueSequence) (outer inner : Nat → Option (Option Nat)) (place : Nat) : Prop where
  apart : place ∉ s.places
  outer : outer place = some none
  inner : s.places = [] → inner place = some none

/-- The calls that a list takes: new nodes at places not in use, nodes added that are in no list and have no link to
the outside left, nodes removed that are in the list, and no list cleared but an empty one. -/
def Takes (m : ListMemory) (s : ValueSequence) : ListCall → Prop
  | .createNode place _ => s.values place = none
  | .append place => m.Detached s m.next m.previous place
  | .appendFront place => m.Detached s m.previous m.next place
  | .appendIndex place index =>
      index = s.places.length ∧ m.Detached s m.next m.previous place ∨
        index < s.places.length ∧ place ∉ s.places ∧ (s.values place).isSome ∨ s.places.length < index
  | .appendValue place _ => s.values place = none
  | .appendFrontValue place _ => s.values place = none
  | .appendIndexValue place _ _ => s.values place = none
  | .remove pointer _ => ∀ place ∈ pointer, place ∈ s.places
  | .clear => s.places = []
  | _ => True

/-- Every call of a run is one that the list takes. -/
def Keeps : ListMemory → ValueSequence → List ListCall → Prop
  | _, _, [] => True
  | m, s, call :: calls => m.Takes s call ∧
      ∀ m' answer, m.perform call = some (m', answer) → Keeps m' (s.perform call).1 calls

end ListMemory

end Viriatum
