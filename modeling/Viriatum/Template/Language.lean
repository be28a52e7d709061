import Viriatum.Template.Handler

/-!
# The template language

Templates as they are written: texts with tags between them, which stand alone or are paired with one that closes them.
-/

namespace Viriatum

open Http2Connection Structures

/-- A value as it is written, a string in quotes. -/
inductive WrittenValue where
  | string (text : Bytes)
  | number (text : Bytes)
  | reference (name : Bytes)
deriving DecidableEq, Repr

/-- A parameter as it is written, behind one blank and any number of blanks more. -/
structure WrittenParameter where
  blanks : Nat := 0
  name : Bytes
  value : WrittenValue
deriving DecidableEq, Repr

/-- An opening of a tag as it is written, with the blanks before its end. -/
structure WrittenTag where
  name : Bytes
  parameters : List WrittenParameter := []
  blanks : Nat := 0
deriving DecidableEq, Repr

inductive Template where
  | text (text : Bytes)
  | single (text : Bytes) (opening : WrittenTag) (rest : Template)
  | paired (text : Bytes) (opening : WrittenTag) (body : Template) (closing : Bytes) (rest : Template)
deriving DecidableEq, Repr

/-! ## What is written -/

def WrittenValue.text : WrittenValue → Bytes
  | .string text => 34 :: (text ++ [34])
  | .number text => text
  | .reference name => name

def blanksText (n : Nat) : Bytes := List.replicate n 32

def WrittenParameter.text (parameter : WrittenParameter) : Bytes :=
  32 :: (blanksText parameter.blanks ++ (parameter.name ++ 61 :: parameter.value.text))

def parametersText (parameters : List WrittenParameter) : Bytes := parameters.flatMap WrittenParameter.text

/-- An opening up to what it ends on. -/
def WrittenTag.text (opening : WrittenTag) : Bytes :=
  36 :: 123 :: (opening.name ++ (parametersText opening.parameters ++ blanksText opening.blanks))

def singleEnd : Bytes := [47, 125]

def closingText (name : Bytes) : Bytes := 36 :: 123 :: 47 :: (name ++ [125])

namespace Template

def print : Template → Bytes
  | .text content => content
  | .single content opening rest => content ++ (opening.text ++ (singleEnd ++ rest.print))
  | .paired content opening body closing rest =>
      content ++ (opening.text ++ 125 :: (body.print ++ (closingText closing ++ rest.print)))

/-- The text behind the last tag. -/
def last : Template → Bytes
  | .text content => content
  | .single _ _ rest => rest.last
  | .paired _ _ _ _ rest => rest.last

end Template

/-! ## What may be written -/

/-- Whether a dollar that may open a tag stands at the end of a text, in which no tag is opened. -/
def dollarBehind : Bool → Bytes → Option Bool
  | dollar, [] => some dollar
  | false, byte :: text => dollarBehind (byte = 36) text
  | true, byte :: text => if byte = 123 then none else dollarBehind false text

/-- A text that goes on with a tag. -/
def TagMayFollow (text : Bytes) : Prop := dollarBehind false text = some false

/-- A value without quotes ends where a blank stands, or the tag ends. -/
def BareValue (text : Bytes) : Prop :=
  (∀ byte ∈ text, byte ≠ 0 ∧ byte ≠ 32 ∧ byte ≠ 34 ∧ byte ≠ 125) ∧ text.getLast? ≠ some 47

def startsNumber (text : Bytes) : Bool := 47 < text.headD 0 ∧ text.headD 0 < 88

/-- A value that is read as what it is, and that fits its buffers. -/
def WrittenValue.WellFormed : WrittenValue → Prop
  | .string text => text.length < 126 ∧ ∀ byte ∈ text, byte ≠ 0 ∧ byte ≠ 34
  | .number text => text.length < 128 ∧ BareValue text ∧ startsNumber text = true
  | .reference name => name.length < 64 ∧ BareValue name ∧ startsNumber name = false

def WrittenValue.isString : WrittenValue → Bool
  | .string _ => true
  | _ => false

def TagName (name : Bytes) : Prop := ∀ byte ∈ name, byte ≠ 0 ∧ byte ≠ 32 ∧ byte ≠ 47 ∧ byte ≠ 125

structure WrittenParameter.WellFormed (parameter : WrittenParameter) : Prop where
  nonempty : parameter.name ≠ []
  fits : parameter.name.length < 64
  name : TagName parameter.name ∧ 61 ∉ parameter.name
  value : parameter.value.WellFormed

structure WrittenTag.WellFormed (opening : WrittenTag) : Prop where
  nonempty : opening.name ≠ []
  name : TagName opening.name
  parameters : ∀ parameter ∈ opening.parameters, parameter.WellFormed

/-- The slash of a single tag stands behind a name, a string in quotes or a blank. -/
def WrittenTag.MayEnd (opening : WrittenTag) : Prop :=
  0 < opening.blanks ∨ ∀ parameter, opening.parameters.getLast? = some parameter → parameter.value.isString = true

def Template.WellFormed : Template → Prop
  | .text content => dollarBehind false content ≠ none
  | .single content opening rest => TagMayFollow content ∧ opening.WellFormed ∧ opening.MayEnd ∧ rest.WellFormed
  | .paired content opening body closing rest =>
      TagMayFollow content ∧ opening.WellFormed ∧ body.WellFormed ∧ TagMayFollow body.last ∧
        (TagName closing ∧ closing ≠ []) ∧ rest.WellFormed

instance (text : Bytes) : Decidable (TagMayFollow text) := inferInstanceAs (Decidable (_ = _))

instance (text : Bytes) : Decidable (BareValue text) :=
  have := List.decidableBAll (fun byte : UInt8 => byte ≠ 0 ∧ byte ≠ 32 ∧ byte ≠ 34 ∧ byte ≠ 125) text
  instDecidableAnd

instance (name : Bytes) : Decidable (TagName name) := List.decidableBAll _ name

instance WrittenValue.decidableWellFormed : (value : WrittenValue) → Decidable value.WellFormed
  | .string text =>
      have := List.decidableBAll (fun byte : UInt8 => byte ≠ 0 ∧ byte ≠ 34) text
      instDecidableAnd
  | .number _ => inferInstanceAs (Decidable (_ ∧ _))
  | .reference _ => inferInstanceAs (Decidable (_ ∧ _))

theorem WrittenParameter.wellFormed_iff (parameter : WrittenParameter) :
    parameter.WellFormed ↔ parameter.name ≠ [] ∧ parameter.name.length < 64 ∧
      (TagName parameter.name ∧ 61 ∉ parameter.name) ∧ parameter.value.WellFormed :=
  ⟨fun h => ⟨h.nonempty, h.fits, h.name, h.value⟩, fun h => ⟨h.1, h.2.1, h.2.2.1, h.2.2.2⟩⟩

instance (parameter : WrittenParameter) : Decidable parameter.WellFormed :=
  decidable_of_iff _ parameter.wellFormed_iff.symm

theorem WrittenTag.wellFormed_iff (opening : WrittenTag) :
    opening.WellFormed ↔ opening.name ≠ [] ∧ TagName opening.name ∧ ∀ parameter ∈ opening.parameters, parameter.WellFormed :=
  ⟨fun h => ⟨h.nonempty, h.name, h.parameters⟩, fun h => ⟨h.1, h.2.1, h.2.2⟩⟩

instance (opening : WrittenTag) : Decidable opening.WellFormed := decidable_of_iff _ opening.wellFormed_iff.symm

theorem WrittenTag.mayEnd_iff (opening : WrittenTag) :
    opening.MayEnd ↔
      0 < opening.blanks ∨ opening.parameters.getLast?.all (fun parameter => parameter.value.isString) = true := by
  cases h : opening.parameters.getLast? <;> simp [WrittenTag.MayEnd, h]

instance (opening : WrittenTag) : Decidable opening.MayEnd := decidable_of_iff _ opening.mayEnd_iff.symm

instance Template.decidableWellFormed : (template : Template) → Decidable template.WellFormed
  | .text _ => inferInstanceAs (Decidable (_ ≠ _))
  | .single _ _ rest =>
      have := rest.decidableWellFormed
      inferInstanceAs (Decidable (_ ∧ _ ∧ _ ∧ _))
  | .paired _ _ body _ rest =>
      have := body.decidableWellFormed
      have := rest.decidableWellFormed
      inferInstanceAs (Decidable (_ ∧ _ ∧ _ ∧ _ ∧ _ ∧ _))

/-! ## The calls -/

def WrittenParameter.calls (parameter : WrittenParameter) : List TemplateCall :=
  [.data .parameter parameter.name, .data .parameterValue parameter.value.text]

/-- What is called from the end of the text before a tag to the start of the one behind it. -/
def WrittenTag.calls (opening : WrittenTag) (text ending : Bytes) : List TemplateCall :=
  .data .textEnd text :: .tagBegin :: .data .tagName opening.name ::
    (opening.parameters.flatMap WrittenParameter.calls ++ [.data .tagEnd (opening.text ++ ending), .textBegin])

def closingCalls (text name : Bytes) : List TemplateCall :=
  [.data .textEnd text, .tagBegin, .tagCloseBegin, .data .tagName name, .data .tagEnd (closingText name), .textBegin]

/-- The calls over a template behind the start of its first text, up to the end of its last one. -/
def Template.calls : Template → List TemplateCall
  | .text _ => []
  | .single content opening rest => opening.calls content singleEnd ++ rest.calls
  | .paired content opening body closing rest =>
      opening.calls content [125] ++ (body.calls ++ (closingCalls body.last closing ++ rest.calls))

/-! ## The tree -/

def WrittenValue.parameter (name : Bytes) : WrittenValue → TemplateParameter
  | .string text =>
      { name, type := some .string, rawValue := some (34 :: (text ++ [34])), stringValue := some text }
  | .number text => { name, type := some .integer, rawValue := some text, intValue := templateInteger text }
  | .reference source =>
      { name, type := some .reference, rawValue := some source, referenceValue := some source }

def WrittenTag.tag (type : TemplateNodeType) (opening : WrittenTag) : TemplateTag where
  type
  name := some opening.name
  parameters := opening.parameters.map fun parameter => parameter.value.parameter parameter.name

def textNode (text : Bytes) : TemplateNode := .node { type := .text, name := some text } []

def Template.nodes : Template → List TemplateNode
  | .text content => [textNode content]
  | .single content opening rest => textNode content :: .node (opening.tag .single) [] :: rest.nodes
  | .paired content opening body _ rest => textNode content :: .node (opening.tag .opened) body.nodes :: rest.nodes

def Template.root (template : Template) : TemplateNode := .node { type := .root } template.nodes

end Viriatum
