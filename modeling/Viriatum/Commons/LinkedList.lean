import Mathlib.Algebra.Group.Nat.Defs
import Mathlib.Logic.Function.Basic

/-!
# The linked list

The operations on a list of nodes that are linked both ways, over the memory of the nodes. What is read or written
through a pointer that is null, or that leads to a node given back, ends the run.
-/

namespace Viriatum

structure LinkedListNode where
  value : Option Nat
  next : Option Nat
  previous : Option Nat
deriving DecidableEq, Repr

structure LinkedList where
  size : Nat
  first : Option Nat
  last : Option Nat
deriving DecidableEq, Repr

/-- A list and the nodes in use, those of other owners and those that are in no list included. -/
structure ListMemory where
  list : LinkedList
  nodes : Nat → Option LinkedListNode

namespace ListMemory

variable (m : ListMemory)

/-- The node that a pointer leads to. -/
def node (pointer : Option Nat) : Option LinkedListNode := pointer.bind m.nodes

def setNext (pointer next : Option Nat) : Option ListMemory := do
  let place ← pointer
  let node ← m.nodes place
  some { m with nodes := Function.update m.nodes place (some { node with next }) }

def setPrevious (pointer previous : Option Nat) : Option ListMemory := do
  let place ← pointer
  let node ← m.nodes place
  some { m with nodes := Function.update m.nodes place (some { node with previous }) }

/-- Writes the link of a node if there is one. -/
def setNextIf (pointer next : Option Nat) : Option ListMemory :=
  if pointer.isSome then m.setNext pointer next else some m

def setPreviousIf (pointer previous : Option Nat) : Option ListMemory :=
  if pointer.isSome then m.setPrevious pointer previous else some m

def setFirst (first : Option Nat) : ListMemory := { m with list.first := first }

def setLast (last : Option Nat) : ListMemory := { m with list.last := last }

def setSize (size : Nat) : ListMemory := { m with list.size := size }

/-- What a size_t holds once it has been counted down. -/
def countDown (size : Nat) : Nat := if size = 0 then 2 ^ 64 - 1 else size - 1

/-- Creates a node at the place that the pool hands out, which is one that is not in use. -/
def createLinkedListNode (place : Nat) (value : Option Nat) : Option ListMemory :=
  if (m.nodes place).isSome then none
  else some { m with nodes := Function.update m.nodes place (some { value, next := none, previous := none }) }

def deleteLinkedListNode (pointer : Option Nat) : Option ListMemory := do
  let place ← pointer
  let _ ← m.nodes place
  some { m with nodes := Function.update m.nodes place none }

/-- Deletes so many nodes, from the one of a pointer on. -/
def deleteNodes : Nat → Option Nat → ListMemory → Option ListMemory
  | 0, _, m => some m
  | count + 1, current, m => do
      let node ← m.node current
      let m ← m.deleteLinkedListNode current
      deleteNodes count node.next m

/-- The pointers to the first and to the last node stay as they are. -/
def clearLinkedList : Option ListMemory := do
  let m ← deleteNodes m.list.size m.list.first m
  some (m.setSize 0)

def appendLinkedList (place : Nat) : Option ListMemory := do
  let m ← if m.list.size = 0 then some (m.setFirst (some place))
    else do
      let m ← m.setNext m.list.last (some place)
      m.setPrevious (some place) m.list.last
  let m := m.setLast (some place)
  some (m.setSize (m.list.size + 1))

def appendFrontLinkedList (place : Nat) : Option ListMemory := do
  let m ← if m.list.size = 0 then some (m.setLast (some place))
    else do
      let m ← m.setPrevious m.list.first (some place)
      m.setNext (some place) m.list.first
  let m := m.setFirst (some place)
  some (m.setSize (m.list.size + 1))

/-- Goes so many nodes on: the pointers to the node reached and to the one before it. -/
def seek : Nat → Option Nat → Option Nat → Option (Option Nat × Option Nat)
  | 0, next, previous => some (next, previous)
  | index + 1, next, _ => do
      let node ← m.node next
      let node' ← m.node node.next
      seek index node.next node'.previous

/-- Links a node into the slot between two others. -/
def insertBetween (place : Nat) (next previous : Option Nat) : Option ListMemory := do
  let m ← m.setNext (some place) next
  let m ← m.setPrevious (some place) previous
  let m ← m.setPreviousIf next (some place)
  let m ← m.setNextIf previous (some place)
  some (m.setSize (m.list.size + 1))

/-- Lets the list begin, or end, with a node put at an index. -/
def setEnds (place index : Nat) : ListMemory :=
  let m := if index = 0 then m.setFirst (some place) else m
  if index = m.list.size then m.setLast (some place) else m

def appendIndexLinkedList (place index : Nat) : Option ListMemory :=
  if index > m.list.size then some m
  else if index = m.list.size then m.appendLinkedList place
  else do
    let (next, previous) ← m.seek index m.list.first none
    (m.setEnds place index).insertBetween place next previous

def appendValueLinkedList (place : Nat) (value : Option Nat) : Option ListMemory := do
  let m ← m.createLinkedListNode place value
  m.appendLinkedList place

def appendFrontValueLinkedList (place : Nat) (value : Option Nat) : Option ListMemory := do
  let m ← m.createLinkedListNode place value
  m.appendFrontLinkedList place

def appendIndexValueLinkedList (place : Nat) (value : Option Nat) (index : Nat) : Option ListMemory := do
  let m ← m.createLinkedListNode place value
  m.appendIndexLinkedList place index

/-- Sets the pointer to the last node where the node taken out was the last one, or the last but one. -/
def updateLast (previous next : Option Nat) : Option ListMemory :=
  if next = none then some (m.setLast previous)
  else do
    let node ← m.node next
    some (if node.next = none then m.setLast next else m)

/-- Takes a node out from between its neighbours. -/
def unlink (previous next : Option Nat) : Option ListMemory := do
  let m ← m.setNextIf previous next
  let m ← m.setPreviousIf next previous
  let m ← m.updateLast previous next
  let m := if previous = none then m.setFirst next else m
  some (m.setSize (countDown m.list.size))

def removeLinkedList (pointer : Option Nat) (delete : Bool) : Option ListMemory :=
  if pointer = none then some m
  else do
    let node ← m.node pointer
    let m ← m.unlink node.previous node.next
    if delete then m.deleteLinkedListNode pointer else some m

/-- The first of so many nodes that has a value. -/
def findValue (value : Option Nat) : Nat → Option Nat → Option (Option Nat)
  | 0, _ => some none
  | count + 1, current => do
      let node ← m.node current
      if node.value = value then some current else findValue value count node.next

def removeValueLinkedList (value : Option Nat) (delete : Bool) : Option ListMemory := do
  let target ← m.findValue value m.list.size m.list.first
  if target = none then some m else m.removeLinkedList target delete

/-- The pointer that going so many nodes on leads to. -/
def walk : Nat → Option Nat → Option (Option Nat)
  | 0, current => some current
  | index + 1, current => do
      let node ← m.node current
      walk index node.next

def getLinkedList (index : Nat) : Option (Option Nat) := m.walk index m.list.first

def topIndex : Nat := if m.list.size > 0 then m.list.size - 1 else 0

def popLinkedList : Option (ListMemory × Option Nat) := do
  let pointer ← m.getLinkedList 0
  let m ← m.removeLinkedList pointer false
  some (m, pointer)

def popTopLinkedList : Option (ListMemory × Option Nat) := do
  let pointer ← m.getLinkedList m.topIndex
  let m ← m.removeLinkedList pointer false
  some (m, pointer)

/-- The value of a node that has been found, if one has. -/
def valueOf (pointer : Option Nat) : Option (Option Nat) :=
  if pointer = none then some none else (m.node pointer).map (·.value)

/-- The value of a node that has been taken out, which is then deleted if that is asked for. -/
def takeValue (pointer : Option Nat) (delete : Bool) : Option (ListMemory × Option Nat) := do
  let value ← m.valueOf pointer
  if pointer ≠ none ∧ delete then do
    let m ← m.deleteLinkedListNode pointer
    some (m, value)
  else some (m, value)

def popValueLinkedList (delete : Bool) : Option (ListMemory × Option Nat) := do
  let (m, pointer) ← m.popLinkedList
  m.takeValue pointer delete

def popTopValueLinkedList (delete : Bool) : Option (ListMemory × Option Nat) := do
  let (m, pointer) ← m.popTopLinkedList
  m.takeValue pointer delete

def peekLinkedList : Option (Option Nat) := m.getLinkedList 0

def peekTopLinkedList : Option (Option Nat) := m.getLinkedList m.topIndex

def peekValueLinkedList : Option (Option Nat) := do
  let pointer ← m.peekLinkedList
  m.valueOf pointer

def peekTopValueLinkedList : Option (Option Nat) := do
  let pointer ← m.peekTopLinkedList
  m.valueOf pointer

/-- The next value of an iterator and the pointer it goes on from. -/
def getNextIteratorLinkedList (current : Option Nat) : Option (Option Nat × Option Nat) :=
  if current = none then some (none, none)
  else (m.node current).map fun node => (node.next, node.value)

/-- The values that so many calls of an iterator give. -/
def iterate : Nat → Option Nat → Option (List (Option Nat))
  | 0, _ => some []
  | count + 1, current => do
      let (next, value) ← m.getNextIteratorLinkedList current
      let values ← iterate count next
      some (value :: values)

end ListMemory

/-- The calls on a list. Where one creates a node, it comes with the place that the pool hands out for it. -/
inductive ListCall where
  | createNode (place : Nat) (value : Option Nat)
  | append (place : Nat)
  | appendFront (place : Nat)
  | appendIndex (place index : Nat)
  | appendValue (place : Nat) (value : Option Nat)
  | appendFrontValue (place : Nat) (value : Option Nat)
  | appendIndexValue (place : Nat) (value : Option Nat) (index : Nat)
  | remove (pointer : Option Nat) (delete : Bool)
  | removeValue (value : Option Nat) (delete : Bool)
  | pop
  | popTop
  | popValue (delete : Bool)
  | popTopValue (delete : Bool)
  | peek
  | peekTop
  | peekValue
  | peekTopValue
  | clear
  | iterate (count : Nat)
deriving DecidableEq, Repr

/-- What a call hands back: pointers to nodes, or values. -/
abbrev ListAnswer := List (Option Nat)

def ListMemory.perform (m : ListMemory) : ListCall → Option (ListMemory × ListAnswer)
  | .createNode place value => (m.createLinkedListNode place value).map (·, [some place])
  | .append place => (m.appendLinkedList place).map (·, [])
  | .appendFront place => (m.appendFrontLinkedList place).map (·, [])
  | .appendIndex place index => (m.appendIndexLinkedList place index).map (·, [])
  | .appendValue place value => (m.appendValueLinkedList place value).map (·, [])
  | .appendFrontValue place value => (m.appendFrontValueLinkedList place value).map (·, [])
  | .appendIndexValue place value index => (m.appendIndexValueLinkedList place value index).map (·, [])
  | .remove pointer delete => (m.removeLinkedList pointer delete).map (·, [])
  | .removeValue value delete => (m.removeValueLinkedList value delete).map (·, [])
  | .pop => m.popLinkedList.map fun (m, pointer) => (m, [pointer])
  | .popTop => m.popTopLinkedList.map fun (m, pointer) => (m, [pointer])
  | .popValue delete => (m.popValueLinkedList delete).map fun (m, value) => (m, [value])
  | .popTopValue delete => (m.popTopValueLinkedList delete).map fun (m, value) => (m, [value])
  | .peek => m.peekLinkedList.map fun pointer => (m, [pointer])
  | .peekTop => m.peekTopLinkedList.map fun pointer => (m, [pointer])
  | .peekValue => m.peekValueLinkedList.map fun value => (m, [value])
  | .peekTopValue => m.peekTopValueLinkedList.map fun value => (m, [value])
  | .clear => m.clearLinkedList.map (·, [])
  | .iterate count => (m.iterate count m.list.first).map (m, ·)

/-- A new list, in a memory without nodes. -/
def createLinkedList : ListMemory := { list := { size := 0, first := none, last := none }, nodes := fun _ => none }

end Viriatum
