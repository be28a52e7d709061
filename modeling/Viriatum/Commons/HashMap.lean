import Mathlib.Data.Set.Card
import Viriatum.Commons.Passwd
import Viriatum.Library.KeyedTable

/-!
# The hash map

The table of a hash map with string keys: setting and getting with linear probing, and the rebuilding of the table when
it has grown too full.
-/

namespace Viriatum.Structures

open Library

/-- A copy of a key, by its address and the bytes before its terminator. -/
structure KeyString where
  address : Nat
  text : Bytes
deriving DecidableEq, Repr

/-- An element that is used. -/
structure HashMapElement where
  value : Option Nat
  key : Nat
  keyString : KeyString
deriving DecidableEq, Repr

structure HashMap where
  size : Nat
  maximumSize : Nat
  elements : List (Option HashMapElement)
deriving DecidableEq, Repr

def defaultHashMapSize : Nat := 1024

/-- The load factor is three quarters. -/
def maximumLoad (size : Nat) : Nat := size * 3 / 4

def defaultResizeFactor : Nat := 4

def createHashMap (initialSize : Nat) : HashMap :=
  let initialSize := if initialSize = 0 then defaultHashMapSize else initialSize
  { size := 0, maximumSize := maximumLoad initialSize, elements := List.replicate initialSize none }

namespace HashMap

variable (map : HashMap)

/-- Puts an element into the first place that is not used or has its key, whatever the key string there, and counts it. -/
def put (element : HashMapElement) : Option HashMap :=
  (searchKey HashMapElement.key map.elements element.key).map fun index =>
    { map with size := map.size + 1, elements := map.elements.set index (some element) }

/-- Copies an element into a table that is being rebuilt. If that one had to be rebuilt in turn, the run would end. -/
def copyElement (element : HashMapElement) : Option HashMap :=
  if map.size ≥ map.maximumSize then none else map.put element

def resizeHashMap : Option HashMap :=
  let size := map.elements.length * defaultResizeFactor
  map.elements.reduceOption.foldlM copyElement
    { size := 0, maximumSize := maximumLoad size, elements := List.replicate size none }

/-- Sets a value under a key and a copy of the key string, for which an address has been allocated. -/
def setValueHashMap (key : Nat) (keyString : KeyString) (value : Option Nat) : Option HashMap := do
  let map ← if map.size ≥ map.maximumSize then map.resizeHashMap else some map
  map.put { value, key, keyString }

/-- The element of a key and a key string, or the one that is not used where the search has ended. -/
def getHashMap (key : Nat) (keyString : Bytes) : Option (Option HashMapElement) :=
  (search (fun element => element.key = key ∧ element.keyString.text = keyString) map.elements key).map fun index =>
    map.elements[index]?.join

def getValueHashMap (key : Nat) (keyString : Bytes) : Option (Option Nat) :=
  (map.getHashMap key keyString).map fun element => element.bind HashMapElement.value

end HashMap

/-- A value set under a string; to set it to null removes it. -/
structure SetCall where
  keyString : KeyString
  value : Option Nat
deriving DecidableEq, Repr

def SetCall.text (call : SetCall) : Bytes := call.keyString.text

/-- A call, with the hash of the string for its key. -/
def HashMap.set (hash : Bytes → Nat) (map : HashMap) (call : SetCall) : Option HashMap :=
  map.setValueHashMap (hash call.text) call.keyString call.value

/-! ## The finite map -/

/-- The values that are held, by their strings. -/
abbrev FiniteMap := Bytes → Option Nat

def FiniteMap.set (s : FiniteMap) (call : SetCall) : FiniteMap := Function.update s call.text call.value

def FiniteMap.held (s : FiniteMap) : Set Bytes := {text | s text ≠ none}

/-- Every string has the value that is held for it. -/
def HashMap.Finds (hash : Bytes → Nat) (map : HashMap) (s : FiniteMap) : Prop :=
  ∀ text, map.getValueHashMap (hash text) text = some (s text)

/-- The size is the number of strings that a value is held for. -/
def HashMap.Counts (map : HashMap) (s : FiniteMap) : Prop := map.size = s.held.ncard

/-- In every state of a run, all of whose calls come to their end, the map and the values held are so related. -/
def HashMap.Along (related : HashMap → FiniteMap → Prop) (hash : Bytes → Nat) :
    HashMap → FiniteMap → List SetCall → Prop
  | map, s, [] => related map s
  | map, s, call :: calls =>
      related map s ∧ ∃ map', map.set hash call = some map' ∧ Along related hash map' (s.set call) calls

/-- A condition on the values held before each call. -/
def FiniteMap.Meets (condition : FiniteMap → SetCall → Prop) : FiniteMap → List SetCall → Prop
  | _, [] => True
  | s, call :: calls => condition s call ∧ Meets condition (s.set call) calls

/-- No value is held for another string of the same hash. -/
def Apart (hash : Bytes → Nat) (s : FiniteMap) (call : SetCall) : Prop :=
  ∀ text ∈ s.held, hash text = hash call.text → text = call.text

/-- The call sets a value, and none is held for a string of the same hash, this one included. -/
def Fresh (hash : Bytes → Nat) (s : FiniteMap) (call : SetCall) : Prop :=
  call.value ≠ none ∧ ∀ text ∈ s.held, hash text ≠ hash call.text

end Viriatum.Structures
