import Viriatum.Commons.Ini
import Viriatum.Library.Association

/-!
# The configuration files and their text

A configuration, its text line by line, the map that it stands for, and what it takes for the text to be read as it.
-/

namespace Viriatum

open Structures Library Http2Connection

/-! ## The files -/

inductive LineEnd where
  | newline
  | carriageReturn
  | both
deriving DecidableEq, Repr

def LineEnd.text : LineEnd → Bytes
  | .newline => [10]
  | .carriageReturn => [13]
  | .both => [13, 10]

/-- A key and a value, with spaces around the equals sign. -/
structure IniPair where
  key : Bytes
  before : Nat
  after : Nat
  value : Bytes
  key_first : ∃ first rest, key = first :: rest ∧ first ≠ 91 ∧ first ≠ 59 ∧ isLineEnd first = false
  key_plain : 61 ∉ key ∧ 0 ∉ key
  key_trimmed : key.getLast? ≠ some 32
  value_plain : ∀ byte ∈ value, isLineEnd byte = false ∧ byte ≠ 0
  value_trimmed : value.head? ≠ some 32

namespace IniPair

def keyText (p : IniPair) : Bytes := p.key ++ List.replicate p.before 32

def valueText (p : IniPair) : Bytes := List.replicate p.after 32 ++ p.value

end IniPair

inductive IniFiller where
  | blank
  | comment (text : Bytes) (plain : ∀ byte ∈ text, isLineEnd byte = false)

inductive IniLine where
  | filler (filler : IniFiller)
  | header (name : Bytes) (plain : 93 ∉ name ∧ 0 ∉ name)
  | pair (pair : IniPair)

def IniLine.text : IniLine → Bytes
  | .filler .blank => []
  | .filler (.comment text _) => 59 :: text
  | .header name _ => 91 :: (name ++ [93])
  | .pair p => p.keyText ++ 61 :: p.valueText

/-- A section: its name and the lines below it, which are pairs with comments and blank lines between them. -/
structure IniSection where
  name : Bytes
  plain : 93 ∉ name ∧ 0 ∉ name
  ending : LineEnd
  entries : List ((IniFiller ⊕ IniPair) × LineEnd)

structure IniConfiguration where
  opening : List (IniFiller × LineEnd)
  sections : List IniSection

namespace IniSection

def pairs (s : IniSection) : List IniPair := s.entries.filterMap fun entry => entry.1.getRight?

def lines (s : IniSection) : List (IniLine × LineEnd) :=
  (.header s.name s.plain, s.ending) :: s.entries.map fun entry => (entry.1.elim .filler .pair, entry.2)

end IniSection

/-- The value of a key in a section. -/
abbrev IniSetting := Bytes × Bytes × Bytes

namespace IniConfiguration

def lines (c : IniConfiguration) : List (IniLine × LineEnd) :=
  c.opening.map (fun line => (.filler line.1, line.2)) ++ c.sections.flatMap IniSection.lines

def settings (c : IniConfiguration) : List IniSetting :=
  c.sections.flatMap fun s => s.pairs.map fun p => (s.name, p.key, p.value)

end IniConfiguration

/-- The text of some lines, the last of which is ended or not. -/
def renderIni (ended : Bool) : List (IniLine × LineEnd) → Bytes
  | [] => []
  | [last] => last.1.text ++ if ended then last.2.text else []
  | line :: rest => line.1.text ++ line.2.text ++ renderIni ended rest

/-! ## What is read -/

/-- The map that a configuration stands for: for each section and key the last value, the sections and the keys in the
order of their first appearance. -/
def iniMap (settings : List IniSetting) : List (Bytes × List (Bytes × Bytes)) :=
  (grouped settings).map fun group => (group.1, lastValues group.2)

/-- Going over a sort map gives the entries, and they are found by their keys. -/
def Structures.SortMap.Tells (map : SortMap) (entries : AssociationList) : Prop :=
  map.Yields entries ∧ map.hashMap.Finds stringHash fun text => (entries.lookup text).join

namespace IniHandler

variable (handler : IniHandler)

def ShowsValue (entry : Bytes × Option Nat) (pair : Bytes × Bytes) : Prop :=
  entry.1 = pair.1 ∧ ∃ address, entry.2 = some address ∧ (handler.values[address]?).map cString = some pair.2

def ShowsSection (entry : Bytes × Option Nat) (group : Bytes × List (Bytes × Bytes)) : Prop :=
  entry.1 = group.1 ∧ ∃ address map pairs, entry.2 = some address ∧ handler.sections[address]? = some map ∧
    map.Tells pairs ∧ List.Forall₂ handler.ShowsValue pairs group.2

/-- The sort map of sort maps holds exactly the groups, in their order. -/
def Shows (groups : List (Bytes × List (Bytes × Bytes))) : Prop :=
  ∃ entries, handler.configuration.Tells entries ∧ List.Forall₂ handler.ShowsSection entries groups

end IniHandler

/-- The contents are read as the map of the settings. -/
def BuildsExactly (malloc : Nat → Nat) (contents : Bytes) (settings : List IniSetting) : Prop :=
  ∃ handler, processIni malloc contents = .ok handler ∧ handler.Shows (iniMap settings)

namespace IniConfiguration

/-- The file ends in a value, which no line end follows. -/
def lost (ended : Bool) (c : IniConfiguration) : Bool :=
  !ended && match c.lines.getLast? with
    | some (.pair _, _) => true
    | _ => false

/-- The settings whose values are ended. -/
def kept (ended : Bool) (c : IniConfiguration) : List IniSetting :=
  if c.lost ended then c.settings.dropLast else c.settings

/-- The names and the keys fit in the buffers; of the settings whose values are ended no two sections and no two keys
of a section have the same hash, so that no key is given twice in a section; and the value that is not ended has been
given before. -/
structure Fits (ended : Bool) (c : IniConfiguration) : Prop where
  names : ∀ s ∈ c.sections, s.name.length < iniKeyMaxSize
  keys : ∀ setting ∈ c.settings, setting.2.1.length < iniKeyMaxSize
  sections_apart : ∀ group ∈ grouped (c.kept ended), ∀ group' ∈ grouped (c.kept ended),
    stringHash group.1 = stringHash group'.1 → group.1 = group'.1
  keys_apart : ∀ group ∈ grouped (c.kept ended), (group.2.map fun pair => stringHash pair.1).Nodup
  last : ∀ setting ∈ c.settings, setting ∈ c.kept ended

end IniConfiguration

end Viriatum
