import Viriatum.Commons.SortMap

/-!
# The configuration files

The engine that goes over a configuration file byte by byte, and the handler that puts each value under the section and
the key read last, into a sort map of sort maps.
-/

namespace Viriatum

open Structures Http2Connection

def iniKeyMaxSize : Nat := 1024

inductive IniState where
  | normal
  | section
  | key
  | value
  | comment
deriving DecidableEq, Repr

/-- Why the reading of a file does not come to its end. -/
inductive IniStop where
  | fault (fault : Fault)
  /-- A search in a table goes round for ever. -/
  | endless
  /-- The address for a key string is in use, as no address is that `malloc` gives. -/
  | clash
deriving DecidableEq, Repr

/-- The handler: the buffers, the sort maps and the value strings by their addresses, and how many key strings have been
allocated. -/
structure IniHandler where
  sectionBuffer : Option Bytes := none
  keyBuffer : Option Bytes := none
  configuration : SortMap := createSortMap 0
  sections : List SortMap := []
  values : List Bytes := []
  allocated : Nat := 0
deriving DecidableEq, Repr

/-- What is left of the buffer without the spaces at its end. -/
def trailingSize (buffer : Bytes) : Nat → Nat
  | 0 => 0
  | size + 1 => if buffer.getD size 0 = 32 then trailingSize buffer size else size + 1

/-- The spaces at the start of a buffer; behind it stands the end of the line. -/
def leadingOffset : Bytes → Nat
  | [] => 0
  | byte :: rest => if byte = 32 then leadingOffset rest + 1 else 0

/-- A text in a buffer of the handler, where it is ended by a zero byte. -/
def iniBuffer (text : Bytes) : Except IniStop Bytes :=
  if text.length < iniKeyMaxSize then .ok (cString text) else .error (.fault .outOfBounds)

def iniRead (buffer : Option Bytes) : Except IniStop Bytes :=
  match buffer with
  | none => .error (.fault .unset)
  | some text => .ok text

/-- Sets a value in a sort map. -/
def iniSet (map : SortMap) (call : SetCall) : Except IniStop SortMap :=
  if (map.hashMap.elements.reduceOption.filter fun element => element.key ≠ stringHash call.text).any
      fun element => element.keyString.address = call.keyString.address then .error .clash
  else match map.set stringHash call with
    | none => .error .endless
    | some map' => .ok map'

namespace IniHandler

variable (malloc : Nat → Nat) (handler : IniHandler)

/-- `_ini_section_end_callback` -/
def sectionEnd (text : Bytes) : Except IniStop IniHandler := do
  let name ← iniBuffer text
  .ok { handler with sectionBuffer := some name }

/-- `_ini_key_end_callback` -/
def keyEnd (text : Bytes) : Except IniStop IniHandler := do
  let key ← iniBuffer (text.take (trailingSize text text.length))
  .ok { handler with keyBuffer := some key }

/-- A new sort map for the section of a name. -/
def createSection (name : Bytes) : Except IniStop (IniHandler × Nat) := do
  let configuration ← iniSet handler.configuration
    { keyString := ⟨malloc handler.allocated, name⟩, value := some handler.sections.length }
  .ok ({ handler with
    configuration
    sections := handler.sections ++ [createSortMap 0]
    allocated := handler.allocated + 1 }, handler.sections.length)

/-- The sort map of the section of a name, which is created if there is none. -/
def findSection (name : Bytes) : Except IniStop (IniHandler × Nat) :=
  match handler.configuration.hashMap.getValueHashMap (stringHash name) name with
  | none => .error .endless
  | some (some address) => .ok (handler, address)
  | some none => handler.createSection malloc name

/-- `_ini_value_end_callback` -/
def valueEnd (text : Bytes) : Except IniStop IniHandler := do
  let name ← iniRead handler.sectionBuffer
  let key ← iniRead handler.keyBuffer
  let (found, address) ← handler.findSection malloc name
  match found.sections[address]? with
  | none => .error (.fault .outOfBounds)
  | some map => do
      let map ← iniSet map { keyString := ⟨malloc found.allocated, key⟩, value := some found.values.length }
      .ok { found with
        sections := found.sections.set address map
        values := found.values ++ [text.drop (leadingOffset text)]
        allocated := found.allocated + 1 }

end IniHandler

/-- The engine between two bytes; the mark of the state is kept by the bytes since it. -/
structure IniEngine where
  state : IniState := .normal
  mark : Bytes := []
  handler : IniHandler := {}
deriving DecidableEq, Repr

def isLineEnd (character : UInt8) : Bool := character = 10 ∨ character = 13

def IniEngine.step (malloc : Nat → Nat) (engine : IniEngine) (character : UInt8) : Except IniStop IniEngine :=
  let skipped := { engine with mark := engine.mark ++ [character] }
  match engine.state with
  | .normal =>
      if character = 91 then .ok { engine with state := .section, mark := [] }
      else if character = 59 then .ok { engine with state := .comment, mark := [] }
      else if isLineEnd character then .ok engine
      else .ok { engine with state := .key, mark := [character] }
  | .section =>
      if character = 93 then do
        let handler ← engine.handler.sectionEnd engine.mark
        .ok { handler }
      else .ok skipped
  | .comment => if isLineEnd character then .ok { handler := engine.handler } else .ok skipped
  | .key =>
      if character = 61 then do
        let handler ← engine.handler.keyEnd engine.mark
        .ok { state := .value, handler }
      else .ok skipped
  | .value =>
      if isLineEnd character then do
        let handler ← engine.handler.valueEnd malloc engine.mark
        .ok { handler }
      else .ok skipped

/-- The handler that the contents of a file leave. -/
def processIni (malloc : Nat → Nat) (contents : Bytes) : Except IniStop IniHandler := do
  let engine ← contents.foldlM (IniEngine.step malloc) {}
  .ok engine.handler

/-- Reads the file at a path; one that cannot be read is an error, which leaves no configuration. -/
def processIniFile (malloc : Nat → Nat) (files : Bytes → Option Bytes) (path : Bytes) :
    Except IniStop (Option IniHandler) :=
  match files path with
  | none => .ok none
  | some contents => do
      let handler ← processIni malloc contents
      .ok (some handler)

end Viriatum
