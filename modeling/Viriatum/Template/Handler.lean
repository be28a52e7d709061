import Viriatum.Commons.Bencoding
import Viriatum.Template.Engine

/-!
# The template handler

The tree of nodes that the handler builds through the calls of the engine, and the page that is rendered out of it.
-/

namespace Viriatum

open Http2Connection Structures

inductive TemplateNodeType where
  | root
  | text
  | single
  | opened
  | close
deriving DecidableEq, Repr

inductive TemplateParameterType where
  | string
  | reference
  | integer
deriving DecidableEq, Repr

/-- Why a template is not gone through: a text does not fit its buffer, what is not set is read, or a value is read as
one of another type. -/
inductive TemplateStop where
  | overflow
  | unset
  | misread
deriving DecidableEq, Repr

/-- A parameter of a tag, with the texts of its buffers. -/
structure TemplateParameter where
  name : Bytes
  type : Option TemplateParameterType := none
  rawValue : Option Bytes := none
  stringValue : Option Bytes := none
  referenceValue : Option Bytes := none
  intValue : Int := 0
deriving DecidableEq, Repr

/-- A node without its children; the last parameter is the temporary one. -/
structure TemplateTag where
  type : TemplateNodeType
  name : Option Bytes := none
  parameters : List TemplateParameter := []
deriving DecidableEq, Repr

inductive TemplateNode where
  | node (tag : TemplateTag) (children : List TemplateNode)

/-- A value of a hash map with string keys, whose entries are given in the order they were set in: one takes the place of
another of the same hash. -/
def getValueString {α : Type} (entries : List (Bytes × α)) (text : Bytes) : Option α :=
  (entries.reverse.find? fun entry => stringHash entry.1 = stringHash text).bind fun entry =>
    if entry.1 = text then some entry.2 else none

def templateRead {α : Type} (field : Option α) : Except TemplateStop α :=
  match field with
  | none => .error .unset
  | some value => .ok value

/-! ## The tree -/

/-- A node that is open. -/
structure TemplateContext where
  tag : TemplateTag
  children : List TemplateNode := []

def TemplateContext.node (context : TemplateContext) : TemplateNode := .node context.tag context.children

def TemplateContext.append (context : TemplateContext) (node : TemplateNode) : TemplateContext :=
  { context with children := context.children ++ [node] }

/-- The handler while a template is parsed. A node that is open is put among the children of the one above it where it is
closed, or where the tree is read. -/
structure TemplateBuilder where
  currentNode : Option TemplateContext := some { tag := { type := .root } }
  temporaryNode : Option TemplateTag := none
  contexts : Option (List TemplateContext) := none

/-- A text of the template, copied into a buffer of a size, where it is ended by a zero byte. -/
def templateBuffer (size : Nat) (text : Bytes) : Except TemplateStop Bytes :=
  if text.length < size then .ok (cString text) else .error .overflow

/-- The signed number of 32 bits that the digits at the start of a string stand for. -/
def templateInteger (text : Bytes) : Int := Int.bmod (atoi text) (2 ^ 32)

/-- The value of a parameter: a string in quotes, a number where it starts with a byte from a zero to a capital W, or a
reference. -/
def TemplateParameter.setValue (parameter : TemplateParameter) (data : Bytes) : Except TemplateStop TemplateParameter := do
  let raw ← templateBuffer 128 data
  let first := raw.headD 0
  let parameter := { parameter with rawValue := some raw }
  if first = 34 then
    let value ← templateBuffer 128 (data.drop 1).dropLast
    .ok { parameter with stringValue := some value, type := some .string }
  else if 47 < first ∧ first < 88 then
    .ok { parameter with intValue := templateInteger raw, type := some .integer }
  else
    let value ← templateBuffer 64 data
    .ok { parameter with referenceValue := some value, type := some .reference }

/-- Changes the last parameter. -/
def TemplateTag.setParameterValue (tag : TemplateTag) (data : Bytes) : Except TemplateStop TemplateTag := do
  let parameter ← templateRead tag.parameters.getLast?
  let parameter ← parameter.setValue data
  .ok { tag with parameters := tag.parameters.dropLast ++ [parameter] }

namespace TemplateBuilder

variable (builder : TemplateBuilder)

/-- `_text_end_callback` -/
def textEnd (data : Bytes) : Except TemplateStop TemplateBuilder := do
  let current ← templateRead builder.currentNode
  .ok { builder with
    currentNode := some (current.append (.node { type := .text, name := some data } []))
    temporaryNode := none }

/-- `_open_context_template_handler` -/
def openContext (current : TemplateContext) (tag : TemplateTag) : TemplateBuilder :=
  { builder with
    currentNode := some { tag }
    contexts := some (current :: builder.contexts.getD []) }

/-- `_close_context_template_handler` -/
def closeContext : Except TemplateStop TemplateBuilder := do
  let contexts ← templateRead builder.contexts
  match contexts, builder.currentNode with
  | parent :: contexts, some current =>
      .ok { builder with currentNode := some (parent.append current.node), contexts := some contexts }
  | parent :: contexts, none => .ok { builder with currentNode := some parent, contexts := some contexts }
  | [], _ => .ok { builder with currentNode := none }

/-- `_tag_end_callback` -/
def tagEnd (data : Bytes) : Except TemplateStop TemplateBuilder := do
  let tag ← templateRead builder.temporaryNode
  let tag := if data.getD (data.length - 2) 0 = 47 then { tag with type := .single } else tag
  let builder := { builder with temporaryNode := none }
  match tag.type with
  | .close => builder.closeContext
  | .opened => do
      let current ← templateRead builder.currentNode
      .ok (builder.openContext current tag)
  | _ => do
      let current ← templateRead builder.currentNode
      .ok { builder with currentNode := some (current.append (.node tag [])) }

/-- Changes the temporary node. -/
def temporary (change : TemplateTag → Except TemplateStop TemplateTag) : Except TemplateStop TemplateBuilder := do
  let tag ← templateRead builder.temporaryNode
  let tag ← change tag
  .ok { builder with temporaryNode := some tag }

def call : TemplateCall → Except TemplateStop TemplateBuilder
  | .textBegin => .ok builder
  | .tagBegin => .ok { builder with temporaryNode := some { type := .opened } }
  | .tagCloseBegin => builder.temporary fun tag => .ok { tag with type := .close }
  | .data .textEnd data => builder.textEnd data
  | .data .tagEnd data => builder.tagEnd data
  | .data .tagName data => builder.temporary fun tag => .ok { tag with name := some data }
  | .data .parameter data => builder.temporary fun tag => do
      let name ← templateBuffer 64 data
      .ok { tag with parameters := tag.parameters ++ [{ name }] }
  | .data .parameterValue data => builder.temporary fun tag => tag.setParameterValue data

/-- The tree from its root, the nodes that are still open included. -/
def root : Option TemplateNode :=
  builder.currentNode.map fun current =>
    (builder.contexts.getD []).foldl (fun node parent => (parent.append node).node) current.node

end TemplateBuilder

/-- The handler that the contents of a template leave. -/
def buildTemplate (contents : Bytes) : Except TemplateStop TemplateBuilder :=
  (processBufferTemplateEngine contents).foldlM TemplateBuilder.call {}

/-! ## The page -/

/-- The handler while a page is rendered: the names in the order they were assigned in, and the page. -/
structure TemplateHandler where
  names : List (Bytes × BencodingType) := []
  stringValue : Bytes := []

/-- `to_string_type`, where the text of a string is not copied -/
def toStringType : BencodingType → Bytes
  | .integer value => decimal value
  | .string value => cString value
  | _ => bytes "undefined"

/-- The value that the tokens behind the first one lead to. -/
def getTokens (value : BencodingType) : List Bytes → Except TemplateStop (Option BencodingType)
  | [] => .ok (some value)
  | token :: tokens => match value with
    | .map entries => match getValueString entries token with
      | none => .ok none
      | some value => getTokens value tokens
    | _ => .error .misread

namespace TemplateHandler

variable (handler : TemplateHandler)

def append (text : Bytes) : TemplateHandler := { handler with stringValue := handler.stringValue ++ text }

def assign (name : Bytes) (value : BencodingType) : TemplateHandler :=
  { handler with names := handler.names ++ [(name, value)] }

/-- `get_template_handler`: the value is not set where the name has no token. -/
def get (name : Bytes) : Except TemplateStop (Option BencodingType) :=
  match (name.splitOn 46).filter (· ≠ []) with
  | [] => .error .unset
  | token :: tokens => match getValueString handler.names token with
    | none => .ok none
    | some value => getTokens value tokens

end TemplateHandler

/-- A parameter of the map. -/
def TemplateTag.getParameter (tag : TemplateTag) (name : Bytes) : Option TemplateParameter :=
  getValueString (tag.parameters.map fun parameter => (parameter.name, parameter)) name

/-- `_traverse_out_buffer` -/
def traverseOut (tag : TemplateTag) (handler : TemplateHandler) : Except TemplateStop TemplateHandler :=
  match tag.getParameter (bytes "value") with
  | none => .ok handler
  | some parameter => match parameter.type with
    | none => .ok handler
    | some .string => do return handler.append (← templateRead parameter.stringValue)
    | some .integer => do return handler.append (← templateRead parameter.rawValue)
    | some .reference => do
        match ← handler.get (← templateRead parameter.referenceValue) with
        | none => .ok handler
        | some value => .ok (handler.append (toStringType value))

/-- `_traverse_for_each_buffer`, with the traversal of the nodes inside -/
def traverseForEach (tag : TemplateTag) (nodes : TemplateHandler → Except TemplateStop TemplateHandler)
    (handler : TemplateHandler) : Except TemplateStop TemplateHandler :=
  match tag.getParameter (bytes "item"), tag.getParameter (bytes "from") with
  | some item, some source => do
      match ← handler.get (← templateRead source.referenceValue) with
      | none => .ok handler
      | some (.list values) =>
          values.foldlM (fun handler value => do nodes (handler.assign (← templateRead item.referenceValue) value)) handler
      | some _ => .error .misread
  | _, _ => .ok handler

/-- `_traverse_if_buffer`, with the traversal of the nodes inside -/
def traverseIf (tag : TemplateTag) (nodes : TemplateHandler → Except TemplateStop TemplateHandler)
    (handler : TemplateHandler) : Except TemplateStop TemplateHandler :=
  match tag.getParameter (bytes "item"), tag.getParameter (bytes "value") with
  | some item, some compared => do
      match ← handler.get (← templateRead item.referenceValue) with
      | none => .ok handler
      | some (.integer value) => if value ≠ compared.intValue then .ok handler else nodes handler
      | some _ => .error .misread
  | _, _ => .ok handler

def traverseTag (tag : TemplateTag) (nodes : TemplateHandler → Except TemplateStop TemplateHandler)
    (handler : TemplateHandler) : Except TemplateStop TemplateHandler := do
  let name := cString (← templateRead tag.name)
  if name = bytes "out" then traverseOut tag handler
  else if name = bytes "foreach" then traverseForEach tag nodes handler
  else if name = bytes "if" then traverseIf tag nodes handler
  else .ok handler

mutual
def traverseNode : TemplateNode → TemplateHandler → Except TemplateStop TemplateHandler
  | .node tag children, handler => match tag.type with
    | .root => traverseNodes children handler
    | .text => do return handler.append (cString (← templateRead tag.name))
    | .single => traverseTag tag (traverseNodes children) handler
    | .opened => traverseTag tag (traverseNodes children) handler
    | .close => .ok handler

def traverseNodes : List TemplateNode → TemplateHandler → Except TemplateStop TemplateHandler
  | [], handler => .ok handler
  | child :: children, handler => do traverseNodes children (← traverseNode child handler)
end

/-- The page that is rendered out of a node. -/
def renderTemplate (node : Option TemplateNode) (names : List (Bytes × BencodingType)) : Except TemplateStop Bytes := do
  let handler ← traverseNode (← templateRead node) { names }
  .ok handler.stringValue

/-- `process_template_handler`: the page is rendered out of the node that is current when the parsing is over. -/
def processTemplateHandler (contents : Bytes) (names : List (Bytes × BencodingType)) : Except TemplateStop Bytes := do
  let builder ← buildTemplate contents
  renderTemplate (builder.currentNode.map TemplateContext.node) names

end Viriatum
