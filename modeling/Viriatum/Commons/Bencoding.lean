import Viriatum.Commons.HashMapRefinement
import Viriatum.Commons.Url
import Viriatum.Library.Responses

/-!
# Bencoding

The encoder of the typed values, and the decoder: a scanner of the bytes that calls a handler, which keeps the sequences
that are open and the keys they were met under.
-/

namespace Viriatum

open Library Http2Connection

/-- A typed value. A map is given by its entries, in the order they were set in. -/
inductive BencodingType where
  | integer (value : Int)
  | string (value : Bytes)
  | list (values : List BencodingType)
  | map (entries : List (Bytes × BencodingType))

/-! ## The encoder -/

/-- An int in decimal. -/
def decimal (value : Int) : Bytes :=
  if value < 0 then 45 :: numeral 10 value.natAbs else numeral 10 value.natAbs

/-- A string, its size printed into a buffer of sixteen bytes. -/
def encodeStringType (value : Bytes) : Except Fault Bytes :=
  if (numeral 10 value.length).length + 1 > 16 then .error .outOfBounds
  else .ok (numeral 10 value.length ++ 58 :: value)

mutual
def encodeType : BencodingType → Except Fault Bytes
  | .integer value => .ok (105 :: decimal value ++ [101])
  | .string value => encodeStringType value
  | .list values => do return 108 :: (← encodeValues values) ++ [101]
  | .map entries => do return 100 :: (← encodeEntries entries) ++ [101]

def encodeValues : List BencodingType → Except Fault Bytes
  | [] => .ok []
  | value :: values => do return (← encodeType value) ++ (← encodeValues values)

def encodeEntries : List (Bytes × BencodingType) → Except Fault Bytes
  | [] => .ok []
  | (key, value) :: entries => do
      return (← encodeStringType key) ++ ((← encodeType value) ++ (← encodeEntries entries))
end

/-- The joined text, in a buffer of one byte more than the length that has been counted. -/
def encodeBencoding (type : BencodingType) : Except Fault Bytes := do
  let text ← encodeType type
  if text.length + 1 ≥ 2 ^ 64 then .error .outOfBounds else .ok text

/-! ## The handler -/

/-- An open sequence, and the key that was current where it began. -/
structure BencodingFrame where
  sequence : BencodingType
  key : Option Bytes

/-- The first value: none yet, the outermost of the open sequences, or one that is complete. -/
inductive BencodingTop where
  | unset
  | opened
  | closed (type : BencodingType)

structure BencodingHandler where
  /-- The innermost sequence comes first. -/
  stack : List BencodingFrame := []
  top : BencodingTop := .unset
  key : Option Bytes := none
  nextKey : Bool := false

namespace BencodingHandler

variable (handler : BencodingHandler)

/-- Adds a value to the innermost sequence, in a map under the text of the key. -/
def add (key : Option Bytes) (type : BencodingType) : Except Fault BencodingHandler :=
  match handler.stack with
  | ⟨.list values, saved⟩ :: stack => .ok { handler with stack := ⟨.list (values ++ [type]), saved⟩ :: stack }
  | ⟨.map entries, saved⟩ :: stack =>
      match key with
      | none => .error .unset
      | some key =>
          .ok { handler with stack := ⟨.map (entries ++ [(cString key, type)]), saved⟩ :: stack, nextKey := true }
  | _ => .ok handler

/-- Takes a value for the top one when there is none; the value may be one that nothing has been assigned to. -/
def setTop (type : Option BencodingType) : Except Fault BencodingHandler :=
  match handler.top, type with
  | .unset, none => .error .unset
  | .unset, some type => .ok { handler with top := .closed type }
  | _, _ => .ok handler

def integerEnd (text : Bytes) : Except Fault BencodingHandler :=
  match handler.stack with
  | [] => handler.setTop none
  | _ :: _ => do
      let type := .integer ((atoi text : Int).bmod (2 ^ 32))
      (← handler.add handler.key type).setTop (some type)

def stringEnd (text : Bytes) : Except Fault BencodingHandler :=
  if handler.nextKey then { handler with key := some text, nextKey := false }.setTop none
  else match handler.stack with
    | [] => handler.setTop none
    | _ :: _ => do (← handler.add handler.key (.string text)).setTop (some (.string text))

def sequenceStart (sequence : BencodingType) (nextKey : Bool) : BencodingHandler :=
  { stack := ⟨sequence, handler.key⟩ :: handler.stack
    top := match handler.top with
      | .unset => .opened
      | top => top
    key := none
    nextKey }

def listStart : BencodingHandler := handler.sequenceStart (.list []) false

def dictionaryStart : BencodingHandler := handler.sequenceStart (.map []) true

/-- The outermost sequence is complete once it is closed. -/
def close (sequence : BencodingType) : BencodingTop → BencodingTop
  | .opened => .closed sequence
  | top => top

def sequenceEnd : Except Fault BencodingHandler :=
  match handler.stack with
  | [] => .error .unset
  | frame :: stack =>
      let key := match frame.sequence with
        | .map _ => none
        | _ => handler.key
      let popped : BencodingHandler := { handler with stack, key }
      match stack with
      | [] => .ok { popped with top := close frame.sequence handler.top }
      | ⟨.list _, _⟩ :: _ => do return { ← popped.add frame.key frame.sequence with nextKey := false }
      | ⟨.map _, _⟩ :: _ => do return { ← popped.add frame.key frame.sequence with key := frame.key }
      | _ => .ok popped

/-- What the top type points to. -/
def topType : Option BencodingType :=
  match handler.top with
  | .unset => none
  | .opened => handler.stack.getLast?.map BencodingFrame.sequence
  | .closed type => some type

end BencodingHandler

/-! ## The engine -/

/-- The state with the variables it goes on with: the bytes since the mark and the size of the string, a size_t. -/
inductive BencodingState where
  | normal
  | integer (mark : Bytes)
  | stringSize (size : Nat)
  | string (size : Nat) (mark : Bytes)

structure BencodingEngine where
  state : BencodingState := .normal
  handler : BencodingHandler := {}

/-- The next digit of a size, whichever byte it is. -/
def pushDigit (size : Nat) (character : UInt8) : Nat := (size * 10 + character.toNat + (2 ^ 64 - 48)) % 2 ^ 64

def BencodingEngine.step (engine : BencodingEngine) (character : UInt8) : Except Fault BencodingEngine :=
  match engine.state with
  | .normal =>
      if character = 105 then .ok { engine with state := .integer [] }
      else if character = 108 then .ok { engine with handler := engine.handler.listStart }
      else if character = 100 then .ok { engine with handler := engine.handler.dictionaryStart }
      else if character = 101 then do return { engine with handler := ← engine.handler.sequenceEnd }
      else if character = 32 then .ok engine
      else .ok { engine with state := .stringSize (pushDigit 0 character) }
  | .integer mark =>
      if character = 101 then do return { state := .normal, handler := ← engine.handler.integerEnd mark }
      else .ok { engine with state := .integer (mark ++ [character]) }
  | .string size mark =>
      if size = 1 then do return { state := .normal, handler := ← engine.handler.stringEnd (mark ++ [character]) }
      else .ok { engine with state := .string ((size + (2 ^ 64 - 1)) % 2 ^ 64) (mark ++ [character]) }
  | .stringSize size =>
      if character = 58 then .ok { engine with state := .string size [] }
      else .ok { engine with state := .stringSize (pushDigit size character) }

def BencodingEngine.run (engine : BencodingEngine) (text : Bytes) : Except Fault BencodingEngine :=
  text.foldlM BencodingEngine.step engine

/-- The error code, which is always that of no error, and the top type. -/
def decodeBencoding (text : Bytes) : Except Fault (Nat × Option BencodingType) := do
  let engine ← BencodingEngine.run {} text
  return (0, engine.handler.topType)

/-! ## Values that are held -/

mutual
/-- An integer is an int, and the keys of a map are strings that it tells apart. -/
def BencodingType.Held : BencodingType → Prop
  | .integer value => -2 ^ 31 ≤ value ∧ value < 2 ^ 31
  | .string _ => True
  | .list values => HeldValues values
  | .map entries =>
      entries.Pairwise (fun entry entry' => Structures.stringHash entry.1 ≠ Structures.stringHash entry'.1) ∧
        HeldEntries entries

def HeldValues : List BencodingType → Prop
  | [] => True
  | value :: values => value.Held ∧ HeldValues values

def HeldEntries : List (Bytes × BencodingType) → Prop
  | [] => True
  | (key, value) :: entries => 0 ∉ key ∧ value.Held ∧ HeldEntries entries
end

/-- A value that the structures can hold. -/
structure HeldType where
  type : BencodingType
  held : type.Held

/-- Decoding gives back what has been encoded. -/
def HeldType.RoundTrips (v : HeldType) : Prop :=
  ∃ text, encodeBencoding v.type = .ok text ∧ decodeBencoding text = .ok (0, some v.type)

/-- The text is decoded to the end, and either it is refused or it is the encoding of the value it is decoded to. -/
def Handles (text : Bytes) : Prop :=
  ∃ error type, decodeBencoding text = .ok (error, type) ∧
    (error ≠ 0 ∨ ∃ v : HeldType, type = some v.type ∧ encodeBencoding v.type = .ok text)

/-! ## Values that come through -/

mutual
/-- No string in the value is empty, or has a size of sixteen digits. -/
def BencodingType.Filled : BencodingType → Prop
  | .integer _ => True
  | .string value => value ≠ [] ∧ value.length < 10 ^ 15
  | .list values => FilledValues values
  | .map entries => FilledEntries entries

def FilledValues : List BencodingType → Prop
  | [] => True
  | value :: values => value.Filled ∧ FilledValues values

def FilledEntries : List (Bytes × BencodingType) → Prop
  | [] => True
  | (key, value) :: entries => (key ≠ [] ∧ key.length < 10 ^ 15) ∧ value.Filled ∧ FilledEntries entries
end

mutual
/-- The number of bytes that a value takes in a text. -/
def BencodingType.extent : BencodingType → Nat
  | .integer value => (decimal value).length + 2
  | .string value => (numeral 10 value.length).length + 1 + value.length
  | .list values => extentValues values + 2
  | .map entries => extentEntries entries + 2

def extentValues : List BencodingType → Nat
  | [] => 0
  | value :: values => value.extent + extentValues values

def extentEntries : List (Bytes × BencodingType) → Nat
  | [] => 0
  | (key, value) :: entries =>
      (numeral 10 key.length).length + 1 + key.length + (value.extent + extentEntries entries)
end

/-- A list or a dictionary of filled values that fits into memory. -/
def BencodingType.Sound (type : BencodingType) : Prop :=
  match type with
  | .list _ | .map _ => type.Filled ∧ type.extent + 1 < 2 ^ 64
  | _ => False

end Viriatum
