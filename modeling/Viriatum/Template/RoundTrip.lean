import Viriatum.Commons.Buffer
import Viriatum.Template.Lemmas.Tags

/-!
# Templates are built as they are written

The tree that the handler builds over a template that is written is the one that the template stands for.
-/

namespace Viriatum

open Http2Connection Structures

/-! ## Parameters -/

theorem templateBuffer_eq {text : Bytes} {size : Nat} (hsize : text.length < size) (h : ∀ byte ∈ text, byte ≠ 0) :
    templateBuffer size text = .ok text := by
  rw [templateBuffer, if_pos hsize, cString_of_text fun hin => h 0 hin rfl]

theorem headD_of_bare {text : Bytes} (h : BareValue text) : text.headD 0 ≠ 34 := by
  cases text with
  | nil => simp
  | cons byte text => exact (h.1 byte (by simp)).2.2.1

/-- A value is read as what it is written as. -/
theorem setValue_text (name : Bytes) {value : WrittenValue} (h : value.WellFormed) :
    ({ name } : TemplateParameter).setValue value.text = .ok (value.parameter name) := by
  cases value with
  | string text =>
      obtain ⟨hlength, hbytes⟩ := h
      have hraw : templateBuffer 128 (34 :: (text ++ [34])) = .ok (34 :: (text ++ [34])) := by
        refine templateBuffer_eq (by simp; omega) fun byte hin => ?_
        simp only [List.mem_cons, List.mem_append, List.not_mem_nil, or_false] at hin
        rcases hin with rfl | hin | rfl
        · simp
        · exact (hbytes byte hin).1
        · simp
      have hstring : templateBuffer 128 text = .ok text := templateBuffer_eq (by omega) fun byte hin => (hbytes byte hin).1
      simp [TemplateParameter.setValue, WrittenValue.text, WrittenValue.parameter, hraw, hstring, bind, Except.bind]
  | number text =>
      obtain ⟨hlength, hbare, hnumber⟩ := h
      have hraw := templateBuffer_eq hlength fun byte hin => (hbare.1 byte hin).1
      have hstart : 47 < text.headD 0 ∧ text.headD 0 < 88 := by simpa [startsNumber] using hnumber
      have hquote := headD_of_bare hbare
      simp only [TemplateParameter.setValue, WrittenValue.text, WrittenValue.parameter, hraw, bind, Except.bind]
      rw [if_neg hquote, if_pos hstart]
  | reference source =>
      obtain ⟨hlength, hbare, hnumber⟩ := h
      have hraw := templateBuffer_eq (show source.length < 128 by omega) fun byte hin => (hbare.1 byte hin).1
      have hname := templateBuffer_eq hlength fun byte hin => (hbare.1 byte hin).1
      have hstart : ¬(47 < source.headD 0 ∧ source.headD 0 < 88) := by simpa [startsNumber] using hnumber
      have hquote := headD_of_bare hbare
      simp only [TemplateParameter.setValue, WrittenValue.text, WrittenValue.parameter, hraw, hname, bind, Except.bind]
      rw [if_neg hquote, if_neg hstart]

/-! ## The byte before the end -/

/-- A text that does not end with a slash. -/
def Unslashed (text : Bytes) : Prop := text.getLast? ≠ some 47

theorem Unslashed.append {first second : Bytes} (hfirst : Unslashed first) (hsecond : Unslashed second) :
    Unslashed (first ++ second) := by
  rw [Unslashed, List.getLast?_append]
  cases hlast : second.getLast? with
  | none => simpa [Unslashed, hlast] using hfirst
  | some byte => simpa [Unslashed, hlast] using hsecond

theorem Unslashed.cons {byte : UInt8} {text : Bytes} (hbyte : byte ≠ 47) (h : Unslashed text) :
    Unslashed (byte :: text) :=
  (show Unslashed [byte] by simpa [Unslashed] using hbyte).append h

theorem unslashed_of_mem {text : Bytes} (h : ∀ byte ∈ text, byte ≠ 47) : Unslashed text := fun hlast =>
  h 47 (List.mem_of_getLast? hlast) rfl

theorem unslashed_value {value : WrittenValue} (h : value.WellFormed) : Unslashed value.text := by
  cases value with
  | string text => simp [Unslashed, WrittenValue.text, List.getLast?_cons]
  | number text => exact h.2.1.2
  | reference name => exact h.2.1.2

theorem unslashed_parameters {parameters : List WrittenParameter} (h : ∀ parameter ∈ parameters, parameter.WellFormed) :
    Unslashed (parametersText parameters) := by
  induction parameters with
  | nil => simp [Unslashed, parametersText]
  | cons parameter parameters ih =>
      have hparameter := h parameter (by simp)
      have htext : Unslashed parameter.text := by
        refine .cons (by simp) (.append (unslashed_of_mem fun byte hin => ?_) (.append (unslashed_of_mem fun byte hin => ?_)
          (.cons (by simp) (unslashed_value hparameter.value))))
        · simp [List.eq_of_mem_replicate hin]
        · exact (hparameter.name.1 byte hin).2.2.1
      simpa [parametersText] using htext.append (ih fun other hin => h other (by simp [hin]))

theorem unslashed_opening {opening : WrittenTag} (h : opening.WellFormed) : Unslashed opening.text := by
  refine .cons (by simp) (.cons (by simp) (.append (unslashed_of_mem fun byte hin => (h.name byte hin).2.2.1)
    (.append (unslashed_parameters h.parameters) (unslashed_of_mem fun byte hin => ?_))))
  simp [List.eq_of_mem_replicate hin]

theorem byte_before_end {text : Bytes} (hne : text ≠ []) (h : Unslashed text) :
    (text ++ [125]).getD ((text ++ [125]).length - 2) 0 ≠ 47 := by
  obtain ⟨first, byte, rfl⟩ := (List.eq_nil_or_concat text).resolve_left hne
  have hbyte : byte ≠ 47 := by simpa [Unslashed] using h
  simpa [List.getD] using hbyte

namespace TemplateBuilder

variable {builder : TemplateBuilder} {tag : TemplateTag} {current : TemplateContext}

theorem call_parameter {parameter : WrittenParameter} (htag : builder.temporaryNode = some tag)
    (h : parameter.WellFormed) :
    parameter.calls.foldlM call builder =
      .ok { builder with
        temporaryNode := some
          { tag with parameters := tag.parameters ++ [parameter.value.parameter parameter.name] } } := by
  have hname := templateBuffer_eq h.fits fun byte hin => (h.name.1 byte hin).1
  have hvalue := setValue_text parameter.name h.value
  simp [WrittenParameter.calls, call, temporary, htag, templateRead, hname, TemplateTag.setParameterValue, hvalue, bind,
    Except.bind, pure, Except.pure]

theorem call_parameters (builder : TemplateBuilder) {parameters : List WrittenParameter} (htag : builder.temporaryNode = some tag)
    (h : ∀ parameter ∈ parameters, parameter.WellFormed) :
    (parameters.flatMap WrittenParameter.calls).foldlM call builder =
      .ok { builder with
        temporaryNode := some
          { tag with
            parameters := tag.parameters ++ parameters.map fun parameter => parameter.value.parameter parameter.name } } := by
  induction parameters generalizing builder tag with
  | nil => simp [← htag]; rfl
  | cons parameter parameters ih =>
      rw [List.flatMap_cons, List.foldlM_append, call_parameter htag (h parameter (by simp))]
      refine (ih _ rfl fun other hin => h other (by simp [hin])).trans ?_
      simp

/-! ## Tags and texts -/

theorem call_textEnd {text : Bytes} (hcurrent : builder.currentNode = some current) :
    builder.call (.data .textEnd text) =
      .ok { builder with currentNode := some (current.append (textNode text)), temporaryNode := none } := by
  simp [call, textEnd, hcurrent, templateRead, textNode, bind, Except.bind]

/-- The calls of an opening before its end. -/
theorem call_opening {opening : WrittenTag} {text : Bytes} (hcurrent : builder.currentNode = some current)
    (h : opening.WellFormed) :
    (.data .textEnd text :: .tagBegin :: .data .tagName opening.name ::
        opening.parameters.flatMap WrittenParameter.calls).foldlM call builder =
      .ok { builder with
        currentNode := some (current.append (textNode text))
        temporaryNode := some (opening.tag .opened) } := by
  rw [List.foldlM_cons, call_textEnd hcurrent]
  have hparameters := call_parameters { builder with
    currentNode := some (current.append (textNode text))
    temporaryNode := some { type := .opened, name := some opening.name } } rfl h.parameters
  simpa [call, temporary, templateRead, bind, Except.bind, WrittenTag.tag] using hparameters

/-- The calls of an opening, which leave what its end does. -/
theorem call_tag {opening : WrittenTag} {text ending : Bytes} {after : TemplateBuilder}
    (hcurrent : builder.currentNode = some current) (h : opening.WellFormed)
    (hend : TemplateBuilder.tagEnd { builder with
      currentNode := some (current.append (textNode text))
      temporaryNode := some (opening.tag .opened) } (opening.text ++ ending) = .ok after) :
    (opening.calls text ending).foldlM call builder = .ok after := by
  have hsplit : opening.calls text ending =
      (.data .textEnd text :: .tagBegin :: .data .tagName opening.name ::
        opening.parameters.flatMap WrittenParameter.calls) ++ [.data .tagEnd (opening.text ++ ending), .textBegin] := by
    simp [WrittenTag.calls]
  rw [hsplit, List.foldlM_append, call_opening hcurrent h]
  simp only [bind, Except.bind, List.foldlM_cons, List.foldlM_nil, call, hend, pure, Except.pure]

theorem call_single {opening : WrittenTag} {text : Bytes} (hcurrent : builder.currentNode = some current)
    (h : opening.WellFormed) :
    (opening.calls text singleEnd).foldlM call builder =
      .ok { builder with
        currentNode := some ((current.append (textNode text)).append (.node (opening.tag .single) []))
        temporaryNode := none } := by
  refine call_tag hcurrent h ?_
  have hslash : (opening.text ++ singleEnd).getD ((opening.text ++ singleEnd).length - 2) 0 = 47 := by
    simp [singleEnd, List.getD]
  simp only [tagEnd, templateRead, bind, Except.bind, if_pos hslash, WrittenTag.tag]

theorem call_opened {opening : WrittenTag} {text : Bytes} (hcurrent : builder.currentNode = some current)
    (h : opening.WellFormed) :
    (opening.calls text [125]).foldlM call builder =
      .ok { currentNode := some { tag := opening.tag .opened }
            temporaryNode := none
            contexts := some (current.append (textNode text) :: builder.contexts.getD []) } := by
  refine call_tag hcurrent h ?_
  have hslash := byte_before_end (by simp [WrittenTag.text]) (unslashed_opening h)
  simp only [tagEnd, templateRead, bind, Except.bind, if_neg hslash, WrittenTag.tag, openContext]

theorem call_closing {text name : Bytes} {parent : TemplateContext} {contexts : List TemplateContext}
    (hname : TagName name ∧ name ≠ []) (hcurrent : builder.currentNode = some current)
    (hcontexts : builder.contexts = some (parent :: contexts)) :
    (closingCalls text name).foldlM call builder =
      .ok { currentNode := some (parent.append (current.append (textNode text)).node)
            temporaryNode := none
            contexts := some contexts } := by
  have hslash : (closingText name).getD ((closingText name).length - 2) 0 ≠ 47 := by
    have hlast : Unslashed (36 :: 123 :: 47 :: name) := by
      obtain ⟨first, byte, rfl⟩ := (List.eq_nil_or_concat name).resolve_left hname.2
      simpa [Unslashed, List.getLast?_cons] using (hname.1 byte (by simp)).2.2.1
    simpa [closingText] using byte_before_end (by simp) hlast
  rw [closingCalls, List.foldlM_cons, call_textEnd hcurrent]
  simp only [List.foldlM_cons, List.foldlM_nil, call, temporary, tagEnd, templateRead, bind, Except.bind, pure, Except.pure,
    if_neg hslash, closeContext, hcontexts]

/-! ## Templates -/

/-- The calls over a template leave its nodes, but for the last text, and the nodes that were open before. -/
theorem call_template (builder : TemplateBuilder) {template : Template} (h : template.WellFormed) (hcurrent : builder.currentNode = some current) :
    ∃ after inner, template.calls.foldlM call builder = .ok after ∧ after.currentNode = some inner ∧
      inner.append (textNode template.last) = { current with children := current.children ++ template.nodes } ∧
      after.contexts.getD [] = builder.contexts.getD [] := by
  induction template generalizing builder current with
  | text text => exact ⟨builder, current, rfl, hcurrent, rfl, rfl⟩
  | single text opening others ih =>
      obtain ⟨-, hopening, -, hothers⟩ := h
      obtain ⟨after, inner, hfold, hinner, hnodes, hcontexts⟩ := ih { builder with
        currentNode := some ((current.append (textNode text)).append (.node (opening.tag .single) []))
        temporaryNode := none } hothers rfl
      refine ⟨after, inner, ?_, hinner, ?_, hcontexts⟩
      · rw [Template.calls, List.foldlM_append, call_single hcurrent hopening]
        exact hfold
      · simpa [TemplateContext.append, Template.nodes, Template.last] using hnodes
  | paired text opening body closing others ihbody ih =>
      obtain ⟨-, hopening, hbody, -, hclosing, hothers⟩ := h
      obtain ⟨closed, inside, hfold, hinside, hnodes, hcontexts⟩ := ihbody
        { currentNode := some { tag := opening.tag .opened }
          temporaryNode := none
          contexts := some (current.append (textNode text) :: builder.contexts.getD []) } hbody rfl
      have hopen : closed.contexts = some (current.append (textNode text) :: builder.contexts.getD []) := by
        cases hclosed : closed.contexts with
        | none => simp [hclosed] at hcontexts
        | some contexts => simpa [hclosed] using hcontexts
      obtain ⟨after, inner, hfold', hinner, hnodes', hcontexts'⟩ := ih
        { currentNode := some ((current.append (textNode text)).append (inside.append (textNode body.last)).node)
          temporaryNode := none
          contexts := some (builder.contexts.getD []) } hothers rfl
      refine ⟨after, inner, ?_, hinner, ?_, hcontexts'⟩
      · rw [Template.calls, List.foldlM_append, call_opened hcurrent hopening]
        simp only [bind, Except.bind, List.foldlM_append, hfold, call_closing hclosing hinside hopen]
        exact hfold'
      · rw [Template.last, hnodes', hnodes]
        simp [TemplateContext.append, TemplateContext.node, Template.nodes]

/-- What is built over a template: its root, with no node left open. -/
theorem built_print {template : Template} (h : template.WellFormed) :
    ∃ contexts : Option (List TemplateContext), contexts.getD [] = [] ∧
      buildTemplate template.print =
        .ok { currentNode := some { tag := { type := .root }, children := template.nodes }, contexts } := by
  obtain ⟨builder, inner, hfold, hinner, hnodes, hcontexts⟩ := call_template {} h rfl
  have htext : builder.call (.data .textEnd template.last) = _ := call_textEnd hinner
  rw [hnodes] at htext
  refine ⟨builder.contexts, hcontexts, ?_⟩
  rw [buildTemplate, process_print h, List.foldlM_cons, call]
  simp only [bind, Except.bind, List.foldlM_append, hfold, List.foldlM_cons, List.foldlM_nil, htext, pure, Except.pure]
  rfl

end TemplateBuilder

/-- A template that is written is built to the tree that it stands for, in which no tag is left open. -/
theorem buildTemplate_print {template : Template} (h : template.WellFormed) :
    ∃ builder : TemplateBuilder, buildTemplate template.print = .ok builder ∧
      builder.currentNode.map TemplateContext.node = some template.root ∧ builder.root = some template.root := by
  obtain ⟨contexts, hclosed, hbuilt⟩ := TemplateBuilder.built_print h
  refine ⟨_, hbuilt, rfl, ?_⟩
  simp only [TemplateBuilder.root, hclosed]
  rfl

/-- A list with an item for each of the names. -/
theorem buildTemplate_list :
    let template := Template.paired [60, 117, 62] ⟨[102, 111, 114, 101, 97, 99, 104],
        [{ name := [105, 116, 101, 109], value := .reference [120] },
          { name := [102, 114, 111, 109], value := .reference [97, 46, 98] }], 0⟩
      (.single [60, 108, 62] { name := [111, 117, 116], parameters := [{ name := [118], value := .string [120, 47] }] }
        (.text [36, 10]))
      [102] (.text [60, 47, 117, 62])
    ∃ builder : TemplateBuilder, buildTemplate template.print = .ok builder ∧
      builder.currentNode.map TemplateContext.node = some template.root ∧ builder.root = some template.root :=
  buildTemplate_print (by decide)

end Viriatum
