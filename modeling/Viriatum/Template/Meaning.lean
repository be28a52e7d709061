import Viriatum.Library.Output
import Viriatum.Template.RoundTrip

/-!
# What templates mean

A template is given its meaning as it is written, as a computation on what its names stand for that writes a page; the
page that the handler renders out of the tree is that one.
-/

namespace Viriatum

open Http2Connection Structures Library

/-! ## Names -/

/-- What names stand for. -/
abbrev TemplateScope := Bytes → Option BencodingType

namespace TemplateScope

variable (scope : TemplateScope)

/-- An assignment changes what a name stands for, and takes away the names of the same hash. -/
def assign (name : Bytes) (value : BencodingType) : TemplateScope := fun other =>
  if stringHash name = stringHash other then if name = other then some value else none else scope other

/-- What a path of names leads to. -/
def get (path : Bytes) : Except TemplateStop (Option BencodingType) :=
  match (path.splitOn 46).filter (· ≠ []) with
  | [] => .error .unset
  | name :: names => match scope name with
    | none => .ok none
    | some value => getTokens value names

end TemplateScope

theorem getValueString_append {α : Type} (entries : List (Bytes × α)) (name : Bytes) (value : α) (other : Bytes) :
    getValueString (entries ++ [(name, value)]) other =
      if stringHash name = stringHash other then if name = other then some value else none
      else getValueString entries other := by
  simp only [getValueString, List.reverse_append, List.reverse_cons, List.reverse_nil, List.nil_append, List.cons_append,
    List.find?_cons]
  by_cases h : stringHash name = stringHash other <;> simp [h]

/-! ## Tags -/

namespace WrittenValue

/-- The name that a value refers to. -/
def source : WrittenValue → Except TemplateStop Bytes
  | .reference name => .ok name
  | _ => .error .unset

/-- The number that a value is compared as. -/
def compared : WrittenValue → Int
  | .number text => templateInteger text
  | _ => 0

end WrittenValue

namespace WrittenTag

variable (opening : WrittenTag)

/-- The value of the last parameter of a name, unless one of the same hash stands behind it. -/
def find (name : Bytes) : Option WrittenValue :=
  getValueString (opening.parameters.map fun parameter => (parameter.name, parameter.value)) name

/-- A text as it is written, or what a name stands for. -/
def out : Scribe TemplateScope TemplateStop UInt8 := fun scope =>
  match opening.find (bytes "value") with
  | none => Scribe.nothing scope
  | some (.string text) => Scribe.write text scope
  | some (.number text) => Scribe.write text scope
  | some (.reference name) => do
      match ← scope.get name with
      | none => Scribe.nothing scope
      | some value => Scribe.write (toStringType value) scope

/-- The body once for each of the values of a list, to which the item is assigned; the last assignment stays. -/
def forEach (body : Scribe TemplateScope TemplateStop UInt8) : Scribe TemplateScope TemplateStop UInt8 := fun scope =>
  match opening.find (bytes "item"), opening.find (bytes "from") with
  | some item, some source => do
      match ← scope.get (← source.source) with
      | none => Scribe.nothing scope
      | some (.list values) =>
          Scribe.each (fun value scope => do body (TemplateScope.assign scope (← item.source) value)) values scope
      | some _ => .error .misread
  | _, _ => Scribe.nothing scope

/-- The body where a name stands for a number. -/
def onlyIf (body : Scribe TemplateScope TemplateStop UInt8) : Scribe TemplateScope TemplateStop UInt8 := fun scope =>
  match opening.find (bytes "item"), opening.find (bytes "value") with
  | some item, some compared => do
      match ← scope.get (← item.source) with
      | none => Scribe.nothing scope
      | some (.integer value) => if value ≠ compared.compared then Scribe.nothing scope else body scope
      | some _ => .error .misread
  | _, _ => Scribe.nothing scope

/-- What a tag means that stands around a body; other tags leave nothing. -/
def meaning (body : Scribe TemplateScope TemplateStop UInt8) : Scribe TemplateScope TemplateStop UInt8 :=
  if opening.name = bytes "out" then opening.out
  else if opening.name = bytes "foreach" then opening.forEach body
  else if opening.name = bytes "if" then opening.onlyIf body
  else .nothing

end WrittenTag

/-- The page that a template means; a text is written up to its first zero byte. -/
def Template.meaning : Template → Scribe TemplateScope TemplateStop UInt8
  | .text content => .write (cString content)
  | .single content opening rest => .andThen (.write (cString content)) (.andThen (opening.meaning .nothing) rest.meaning)
  | .paired content opening body _ rest =>
      .andThen (.write (cString content)) (.andThen (opening.meaning body.meaning) rest.meaning)

/-! ## The handler writes what is meant -/

/-- The names of the handler stand for what the scope has them stand for. -/
def TemplateHandler.Under (handler : TemplateHandler) (scope : TemplateScope) : Prop :=
  ∀ name, getValueString handler.names name = scope name

/-- The handler renders what a computation writes. -/
abbrev Renders (render : TemplateHandler → Except TemplateStop TemplateHandler)
    (meaning : Scribe TemplateScope TemplateStop UInt8) : Prop :=
  WritesAs TemplateHandler.Under TemplateHandler.stringValue render meaning

section

variable {handler : TemplateHandler} {scope : TemplateScope}

theorem TemplateHandler.Under.get (h : handler.Under scope) (path : Bytes) : handler.get path = scope.get path := by
  rw [TemplateHandler.get, TemplateScope.get]
  cases (path.splitOn 46).filter (· ≠ []) with
  | nil => rfl
  | cons name names =>
      cases hname : scope name <;> simp only [h name, hname]

theorem TemplateHandler.Under.assign (h : handler.Under scope) (name : Bytes) (value : BencodingType) :
    (handler.assign name value).Under (scope.assign name value) := by
  intro other
  rw [TemplateHandler.assign, getValueString_append, h other, TemplateScope.assign]

end

theorem renders_write (text : Bytes) : Renders (fun handler => .ok (handler.append text)) (.write text) :=
  fun handler _ h => ⟨handler.append text, rfl, h, rfl⟩


theorem getParameter_tag (type : TemplateNodeType) (opening : WrittenTag) (name : Bytes) :
    (opening.tag type).getParameter name = (opening.find name).map (WrittenValue.parameter name) := by
  have hname : ∀ parameter : WrittenParameter, (parameter.value.parameter parameter.name).name = parameter.name := by
    intro parameter
    cases parameter.value <;> rfl
  rw [TemplateTag.getParameter, WrittenTag.tag, WrittenTag.find, getValueString, getValueString]
  simp only [List.map_map, ← List.map_reverse, List.find?_map, Function.comp_def, hname]
  cases opening.parameters.reverse.find? fun parameter => stringHash parameter.name = stringHash name with
  | none => rfl
  | some parameter =>
      by_cases h : parameter.name = name <;> simp [h]

theorem intValue_parameter (name : Bytes) (value : WrittenValue) : (value.parameter name).intValue = value.compared := by
  cases value <;> simp [WrittenValue.parameter, WrittenValue.compared]

section

variable (type : TemplateNodeType) (opening : WrittenTag)

theorem renders_out : Renders (traverseOut (opening.tag type)) opening.out := by
  intro handler scope h
  rw [traverseOut, getParameter_tag, WrittenTag.out]
  cases opening.find (bytes "value") with
  | none => exact writesAs_nothing handler scope h
  | some value =>
      cases value with
      | string text => exact renders_write text handler scope h
      | number text => exact renders_write text handler scope h
      | reference name =>
          simp only [Option.map_some, WrittenValue.parameter, templateRead, bind, Except.bind, h.get name]
          cases scope.get name with
          | error stop => rfl
          | ok found =>
              cases found with
              | none => exact writesAs_nothing handler scope h
              | some value => exact renders_write (toStringType value) handler scope h

variable {nodes : TemplateHandler → Except TemplateStop TemplateHandler} {body : Scribe TemplateScope TemplateStop UInt8}

theorem renders_forEach (hnodes : Renders nodes body) :
    Renders (traverseForEach (opening.tag type) nodes) (opening.forEach body) := by
  intro handler scope h
  rw [traverseForEach, getParameter_tag, getParameter_tag, WrittenTag.forEach]
  cases opening.find (bytes "item") with
  | none => exact writesAs_nothing handler scope h
  | some item =>
      cases opening.find (bytes "from") with
      | none => exact writesAs_nothing handler scope h
      | some value =>
          simp only [Option.map_some, bind, Except.bind]
          cases value with
          | string text => rfl
          | number text => rfl
          | reference name =>
              simp only [WrittenValue.parameter, templateRead, WrittenValue.source, h.get name]
              cases scope.get name with
              | error stop => rfl
              | ok found =>
                  cases found with
                  | none => exact writesAs_nothing handler scope h
                  | some found =>
                      cases found with
                      | list values =>
                          dsimp only
                          refine writesAs_each (fun value _ handler scope h => ?_) handler scope h
                          cases item with
                          | string text => rfl
                          | number text => rfl
                          | reference name => exact hnodes _ _ (h.assign name value)
                      | _ => rfl

theorem renders_onlyIf (hnodes : Renders nodes body) :
    Renders (traverseIf (opening.tag type) nodes) (opening.onlyIf body) := by
  intro handler scope h
  rw [traverseIf, getParameter_tag, getParameter_tag, WrittenTag.onlyIf]
  cases opening.find (bytes "item") with
  | none => exact writesAs_nothing handler scope h
  | some item =>
      cases opening.find (bytes "value") with
      | none => exact writesAs_nothing handler scope h
      | some value =>
          simp only [Option.map_some, bind, Except.bind, intValue_parameter]
          cases item with
          | string text => rfl
          | number text => rfl
          | reference name =>
              simp only [WrittenValue.parameter, templateRead, WrittenValue.source, h.get name]
              cases scope.get name with
              | error stop => rfl
              | ok found =>
                  cases found with
                  | none => exact writesAs_nothing handler scope h
                  | some found =>
                      cases found with
                      | integer found =>
                          dsimp only
                          by_cases hequal : found = value.compared
                          · rw [if_neg (not_not.mpr hequal), if_neg (not_not.mpr hequal)]
                            exact hnodes handler scope h
                          · rw [if_pos hequal, if_pos hequal]
                            exact writesAs_nothing handler scope h
                      | _ => rfl

theorem renders_tag (hopening : opening.WellFormed) (hnodes : Renders nodes body) :
    Renders (traverseTag (opening.tag type) nodes) (opening.meaning body) := by
  have hzero : ∀ byte ∈ opening.name, byte ≠ 0 := fun byte hin => (hopening.name byte hin).1
  have hname : cString opening.name = opening.name := cString_of_text fun hin => hzero 0 hin rfl
  intro handler scope h
  simp only [traverseTag, WrittenTag.tag, templateRead, bind, Except.bind, hname]
  rw [WrittenTag.meaning]
  split_ifs
  · exact renders_out type opening handler scope h
  · exact renders_forEach type opening hnodes handler scope h
  · exact renders_onlyIf type opening hnodes handler scope h
  · exact writesAs_nothing handler scope h

end

theorem renders_text (content : Bytes) : Renders (traverseNode (textNode content)) (.write (cString content)) := by
  have hnode : traverseNode (textNode content) = fun handler => .ok (handler.append (cString content)) := by
    funext handler
    simp only [traverseNode, textNode, templateRead, bind, Except.bind, pure, Except.pure]
  rw [hnode]
  exact renders_write (cString content)

theorem renders_child {child : TemplateNode} {children : List TemplateNode}
    {before behind : Scribe TemplateScope TemplateStop UInt8} (hchild : Renders (traverseNode child) before)
    (hchildren : Renders (traverseNodes children) behind) :
    Renders (traverseNodes (child :: children)) (.andThen before behind) := by
  have hnodes : traverseNodes (child :: children) = (fun handler => do
      traverseNodes children (← traverseNode child handler)) := by
    funext handler
    rw [traverseNodes]
  rw [hnodes]
  exact hchild.andThen hchildren

theorem renders_opening {opening : WrittenTag} {children : List TemplateNode} {type : TemplateNodeType}
    {body : Scribe TemplateScope TemplateStop UInt8} (htype : type = .single ∨ type = .opened) (h : opening.WellFormed)
    (hbody : Renders (traverseNodes children) body) :
    Renders (traverseNode (.node (opening.tag type) children)) (opening.meaning body) := by
  have hnode : traverseNode (.node (opening.tag type) children) = traverseTag (opening.tag type) (traverseNodes children) := by
    funext handler
    rcases htype with rfl | rfl <;> rw [traverseNode] <;> rfl
  rw [hnode]
  exact renders_tag type opening h hbody

/-- The nodes of a template are rendered as it is meant. -/
theorem renders_nodes {template : Template} (h : template.WellFormed) :
    Renders (traverseNodes template.nodes) template.meaning := by
  have hnone : Renders (traverseNodes []) Scribe.nothing := by
    have hnodes : traverseNodes [] = .ok := by
      funext handler
      rw [traverseNodes]
    rw [hnodes]
    exact writesAs_nothing
  induction template with
  | text content =>
      intro handler scope h
      have hrendered := renders_child (renders_text content) hnone handler scope h
      simpa [Scribe.andThen, Scribe.write, Scribe.nothing, bind, Except.bind, Template.nodes, Template.meaning] using hrendered
  | single content opening rest ih =>
      obtain ⟨-, hopening, -, hrest⟩ := h
      exact renders_child (renders_text content) (renders_child (renders_opening (.inl rfl) hopening hnone) (ih hrest))
  | paired content opening body closing rest ihbody ih =>
      obtain ⟨-, hopening, hbody, -, -, hrest⟩ := h
      exact renders_child (renders_text content) (renders_child (renders_opening (.inr rfl) hopening (ihbody hbody)) (ih hrest))

/-- The page that is rendered out of a template is the one that it means, and the rendering fails where the template has no
meaning. -/
theorem processTemplateHandler_print {template : Template} (h : template.WellFormed) (names : List (Bytes × BencodingType)) :
    processTemplateHandler template.print names = (template.meaning (getValueString names)).map Prod.snd := by
  obtain ⟨contexts, -, hbuilt⟩ := TemplateBuilder.built_print h
  have hrendered := renders_nodes h { names } (getValueString names) fun _ => rfl
  simp only [processTemplateHandler, hbuilt, Option.map_some, TemplateContext.node, renderTemplate, templateRead, bind,
    Except.bind, traverseNode]
  cases hmeaning : template.meaning (getValueString names) with
  | error stop =>
      rw [hmeaning] at hrendered
      simp only at hrendered
      rw [hrendered]
      rfl
  | ok result =>
      rw [hmeaning] at hrendered
      obtain ⟨after, hafter, -, hwritten⟩ := hrendered
      rw [hafter]
      simp [hwritten, Except.map]

/-- A list with an item for each of the names. -/
theorem processTemplateHandler_list :
    let template := Template.paired [60, 117, 62] ⟨[102, 111, 114, 101, 97, 99, 104],
        [{ name := [105, 116, 101, 109], value := .reference [120] },
          { name := [102, 114, 111, 109], value := .reference [97, 46, 98] }], 0⟩
      (.single [60, 108, 62] ⟨[111, 117, 116], [{ name := [118, 97, 108, 117, 101], value := .reference [120] }], 1⟩
        (.text [36, 10]))
      [102] (.text [60, 47, 117, 62])
    let names : List (Bytes × BencodingType) := [([97], BencodingType.map [([98], .list [.integer 1, .string [49]])])]
    processTemplateHandler template.print names = (template.meaning (getValueString names)).map Prod.snd :=
  processTemplateHandler_print (by decide) _

end Viriatum
