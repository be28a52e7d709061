import Viriatum.Template.Phases

/-!
# How the building of a template ends

Every text is built to a tree, unless a name or a value does not fit its buffer or a closing tag comes where no tag is open.
-/

namespace Viriatum

open Http2Connection Structures

/-! ## The tags that are open -/

structure TagCount where
  closing : Bool := false
  depth : Nat := 0
deriving DecidableEq, Repr

/-- A tag that ends with a slash stands alone, a closing one closes the last one that is open, and any other is open. -/
def TagCount.next (count : TagCount) : TemplateCall → Option TagCount
  | .tagBegin => some { count with closing := false }
  | .tagCloseBegin => some { count with closing := true }
  | .data .tagEnd tag =>
      if tag.getD (tag.length - 2) 0 = 47 then some count
      else if !count.closing then some { count with depth := count.depth + 1 }
      else if count.depth = 0 then none
      else some { count with depth := count.depth - 1 }
  | _ => some count

/-- The number of the tags that calls leave open, unless more are closed than are open. -/
def openTags (calls : List TemplateCall) : Option Nat := (calls.foldlM TagCount.next {}).map TagCount.depth

/-- A name or a value has room in the buffers that it is copied to. -/
def TemplateCall.Fits : TemplateCall → Prop
  | .data .parameter name => name.length < 64
  | .data .parameterValue value => value.length < 128 ∧
      ((cString value).headD 0 = 34 ∨ startsNumber (cString value) = true ∨ value.length < 64)
  | _ => True

theorem setValue_fits (parameter : TemplateParameter) (value : Bytes) :
    (TemplateCall.data .parameterValue value).Fits ∧ (∃ set, parameter.setValue value = .ok set) ∨
      ¬(TemplateCall.data .parameterValue value).Fits ∧ parameter.setValue value = .error .overflow := by
  simp only [TemplateCall.Fits, TemplateParameter.setValue]
  by_cases hraw : value.length < 128
  · have hbuffer : templateBuffer 128 value = .ok (cString value) := if_pos hraw
    simp only [hbuffer, bind, Except.bind]
    by_cases hquote : (cString value).headD 0 = 34
    · have hstring : templateBuffer 128 (value.drop 1).dropLast = .ok (cString (value.drop 1).dropLast) := by
        refine if_pos ?_
        simp only [List.length_dropLast, List.length_drop]
        omega
      rw [if_pos hquote, hstring]
      exact .inl ⟨⟨hraw, .inl hquote⟩, _, rfl⟩
    · by_cases hnumber : 47 < (cString value).headD 0 ∧ (cString value).headD 0 < 88
      · refine .inl ⟨⟨hraw, .inr (.inl (by simpa [startsNumber] using hnumber))⟩, ?_⟩
        rw [if_neg hquote, if_pos hnumber]
        exact ⟨_, rfl⟩
      · have hstart : startsNumber (cString value) = false := by
          cases h : startsNumber (cString value) with
          | false => rfl
          | true => exact absurd (by simpa [startsNumber] using h) hnumber
        rw [if_neg hquote, if_neg hnumber]
        by_cases hname : value.length < 64
        · have hreference : templateBuffer 64 value = .ok (cString value) := if_pos hname
          exact .inl ⟨⟨hraw, .inr (.inr hname)⟩, by simp [hreference]⟩
        · have hreference : templateBuffer 64 value = .error .overflow := if_neg hname
          refine .inr ⟨?_, by simp [hreference]⟩
          rintro ⟨-, h | h | h⟩
          · exact hquote h
          · simp [hstart] at h
          · exact hname h
  · have hbuffer : templateBuffer 128 value = .error .overflow := if_neg hraw
    exact .inr ⟨fun h => hraw h.1, by simp [hbuffer, bind, Except.bind]⟩

/-! ## A call -/

/-- Whether a tag is being read in a phase. -/
def TemplatePhase.inTag : TemplatePhase → Bool
  | .begun | .closing | .named | .valued => true
  | _ => false

namespace TemplateBuilder

variable {builder : TemplateBuilder} {phase next : TemplatePhase} {count : TagCount} {call : TemplateCall}

/-- The nodes that the calls have left. -/
structure Kept (builder : TemplateBuilder) (phase : TemplatePhase) (count : TagCount) : Prop where
  current : ∃ current, builder.currentNode = some current
  contexts : (builder.contexts.getD []).length = count.depth
  tag : phase.inTag = true → ∃ tag, builder.temporaryNode = some tag ∧
    tag.type = (if count.closing then .close else .opened) ∧ (phase = .valued → tag.parameters ≠ [])

/-- What comes of a call: it leaves the nodes, it does not fit, or it closes a tag where none is open. -/
def Taken (builder : TemplateBuilder) (next : TemplatePhase) (count : TagCount) (call : TemplateCall) : Prop :=
  (∃ after counted, builder.call call = .ok after ∧ count.next call = some counted ∧ call.Fits ∧ after.Kept next counted) ∨
  (builder.call call = .error .overflow ∧ ¬call.Fits) ∨
  (count.next call = none ∧ next = .ended ∧
    (builder.call call = .error .unset ∨ ∃ after, builder.call call = .ok after ∧ after.currentNode = none))

theorem Kept.temporary (h : builder.Kept phase count) (hphase : phase.inTag = true)
    {change : TemplateTag → Except TemplateStop TemplateTag} (hcall : builder.call call = builder.temporary change)
    (hcount : ∃ counted, count.next call = some counted ∧ counted.depth = count.depth ∧
      ∀ tag : TemplateTag, tag.type = (if count.closing then .close else .opened) →
        (phase = .valued → tag.parameters ≠ []) →
        (∃ changed, change tag = .ok changed ∧ call.Fits ∧ changed.type = (if counted.closing then .close else .opened) ∧
          (next = .valued → changed.parameters ≠ [])) ∨ change tag = .error .overflow ∧ ¬call.Fits) :
    builder.Taken next count call := by
  obtain ⟨tag, htag, htype, hparameters⟩ := h.tag hphase
  obtain ⟨counted, hcounted, hdepth, hchange⟩ := hcount
  rcases hchange tag htype hparameters with ⟨changed, hchanged, hfits, htype', hparameters'⟩ | ⟨hchanged, hfits⟩
  · refine .inl ⟨{ builder with temporaryNode := some changed }, counted, ?_, hcounted, hfits, h.current, ?_,
      fun _ => ⟨changed, rfl, htype', hparameters'⟩⟩
    · rw [hcall]
      simp [TemplateBuilder.temporary, htag, templateRead, hchanged, bind, Except.bind]
    · rw [hdepth]
      exact h.contexts
  · refine .inr (.inl ⟨?_, hfits⟩)
    rw [hcall]
    simp [TemplateBuilder.temporary, htag, templateRead, hchanged, bind, Except.bind]

/-- The end of a tag: it stands alone, opens a context or closes one. -/
theorem Kept.tagEnd (h : builder.Kept phase count) (hphase : phase.inTag = true) (data : Bytes) :
    builder.Taken .ended count (.data .tagEnd data) := by
  obtain ⟨tag, htag, htype, -⟩ := h.tag hphase
  obtain ⟨current, hcurrent⟩ := h.current
  have hread : templateRead builder.temporaryNode = .ok tag := by rw [htag]; rfl
  have hnode : templateRead builder.currentNode = .ok current := by rw [hcurrent]; rfl
  by_cases hslash : data.getD (data.length - 2) 0 = 47
  · refine .inl ⟨{ builder with
      currentNode := some (current.append (.node { tag with type := .single } []))
      temporaryNode := none }, count, ?_, if_pos hslash, trivial, ⟨_, rfl⟩, h.contexts, by simp [TemplatePhase.inTag]⟩
    simp only [TemplateBuilder.call, TemplateBuilder.tagEnd, hread, bind, Except.bind, if_pos hslash, hnode]
  · cases hclosing : count.closing with
    | false =>
        have hopened : tag.type = .opened := by simpa [hclosing] using htype
        refine .inl ⟨{ builder with
          currentNode := some { tag }
          temporaryNode := none
          contexts := some (current :: builder.contexts.getD []) }, { count with depth := count.depth + 1 }, ?_, ?_, trivial,
          ⟨_, rfl⟩, by simp [h.contexts], by simp [TemplatePhase.inTag]⟩
        · simp only [TemplateBuilder.call, TemplateBuilder.tagEnd, hread, bind, Except.bind, if_neg hslash, hopened, hnode,
            openContext]
        · simp only [TagCount.next, if_neg hslash, hclosing]
          rfl
    | true =>
        have hclose : tag.type = .close := by simpa [hclosing] using htype
        have hcall : builder.call (.data .tagEnd data) = ({ builder with temporaryNode := none } : TemplateBuilder).closeContext := by
          simp only [TemplateBuilder.call, TemplateBuilder.tagEnd, hread, bind, Except.bind, if_neg hslash, hclose]
        cases hcontexts : builder.contexts with
        | none =>
            have hdepth : count.depth = 0 := by simpa [hcontexts] using h.contexts.symm
            refine .inr (.inr ⟨?_, rfl, .inl ?_⟩)
            · rw [TagCount.next, if_neg hslash, if_neg (by simp [hclosing]), if_pos hdepth]
            · rw [hcall]
              simp [closeContext, hcontexts, templateRead, bind, Except.bind]
        | some contexts =>
            have hlength : contexts.length = count.depth := by simpa [hcontexts] using h.contexts
            cases contexts with
            | nil =>
                have hdepth : count.depth = 0 := by simpa using hlength.symm
                refine .inr (.inr ⟨?_, rfl, .inr ⟨{ builder with currentNode := none, temporaryNode := none }, ?_, rfl⟩⟩)
                · rw [TagCount.next, if_neg hslash, if_neg (by simp [hclosing]), if_pos hdepth]
                · rw [hcall]
                  simp [closeContext, hcontexts, templateRead, bind, Except.bind]
            | cons parent contexts =>
                have hdepth : count.depth = contexts.length + 1 := by simpa using hlength.symm
                refine .inl ⟨{ currentNode := some (parent.append current.node)
                               temporaryNode := none
                               contexts := some contexts }, { count with depth := count.depth - 1 }, ?_, ?_, trivial,
                  ⟨_, rfl⟩, by simp [hdepth], by simp [TemplatePhase.inTag]⟩
                · rw [hcall]
                  simp [closeContext, hcontexts, hcurrent, templateRead, bind, Except.bind]
                · rw [TagCount.next, if_neg hslash, if_neg (by simp [hclosing]), if_neg (by simp [hdepth])]

/-- A call that comes in order. -/
theorem Kept.taken (h : builder.Kept phase count) (hnext : phase.next call = some next) :
    builder.Taken next count call := by
  obtain ⟨current, hcurrent⟩ := h.current
  cases call with
  | textBegin =>
      have hphase : next.inTag = false := by
        cases phase <;> simp [TemplatePhase.next] at hnext <;> subst hnext <;> rfl
      exact .inl ⟨builder, count, rfl, rfl, trivial, h.current, h.contexts, by simp [hphase]⟩
  | tagBegin =>
      refine .inl ⟨{ builder with temporaryNode := some { type := .opened } }, { count with closing := false }, rfl, rfl,
        trivial, h.current, h.contexts, fun _ => ⟨{ type := .opened }, rfl, rfl, ?_⟩⟩
      cases phase <;> simp [TemplatePhase.next] at hnext
      subst hnext
      simp
  | tagCloseBegin =>
      cases phase <;> simp [TemplatePhase.next] at hnext
      subst hnext
      refine h.temporary rfl rfl ⟨{ count with closing := true }, rfl, rfl, fun tag _ _ => .inl ?_⟩
      exact ⟨_, rfl, trivial, rfl, by simp⟩
  | data part data =>
      cases part with
      | textEnd =>
          have hphase : next.inTag = false := by
            cases phase <;> simp [TemplatePhase.next] at hnext
            subst hnext
            rfl
          refine .inl ⟨{ builder with currentNode := some (current.append (textNode data)), temporaryNode := none }, count, ?_,
            rfl, trivial, ⟨_, rfl⟩, h.contexts, by simp [hphase]⟩
          simp [TemplateBuilder.call, textEnd, hcurrent, templateRead, textNode, bind, Except.bind]
      | tagEnd =>
          have hphase : phase.inTag = true ∧ next = .ended := by
            cases phase <;> simp [TemplatePhase.next] at hnext <;> simp [TemplatePhase.inTag, hnext.2]
          rw [hphase.2]
          exact h.tagEnd hphase.1 data
      | tagName =>
          have hphase : phase.inTag = true ∧ next = .named := by
            cases phase <;> simp [TemplatePhase.next] at hnext <;> simp [TemplatePhase.inTag, hnext]
          refine h.temporary hphase.1 rfl ⟨count, rfl, rfl, fun tag htype _ => .inl ?_⟩
          exact ⟨_, rfl, trivial, htype, by simp [hphase.2]⟩
      | parameter =>
          have hphase : phase.inTag = true := by
            cases phase <;> simp [TemplatePhase.next] at hnext
            rfl
          refine h.temporary hphase rfl ⟨count, rfl, rfl, fun tag htype _ => ?_⟩
          by_cases hname : data.length < 64
          · have hbuffer : templateBuffer 64 data = .ok (cString data) := if_pos hname
            exact .inl ⟨{ tag with parameters := tag.parameters ++ [{ name := cString data }] },
              by simp only [hbuffer, bind, Except.bind], hname, htype, by simp⟩
          · have hbuffer : templateBuffer 64 data = .error .overflow := if_neg hname
            exact .inr ⟨by simp only [hbuffer, bind, Except.bind], hname⟩
      | parameterValue =>
          have hphase : phase = .valued ∧ next = .named := by
            cases phase <;> simp [TemplatePhase.next] at hnext
            exact ⟨rfl, hnext.2.symm⟩
          refine h.temporary (by rw [hphase.1]; rfl) rfl ⟨count, rfl, rfl, fun tag htype hparameters => ?_⟩
          obtain ⟨parameter, hparameter⟩ : ∃ parameter, tag.parameters.getLast? = some parameter :=
            ⟨_, List.getLast?_eq_some_getLast (hparameters hphase.1)⟩
          rcases setValue_fits parameter data with ⟨hfits, set, hset⟩ | ⟨hfits, hset⟩
          · refine .inl ⟨{ tag with parameters := tag.parameters.dropLast ++ [set] }, ?_, hfits, htype, by simp [hphase.2]⟩
            simp only [TemplateTag.setParameterValue, hparameter, templateRead, hset, bind, Except.bind]
          · refine .inr ⟨?_, hfits⟩
            simp only [TemplateTag.setParameterValue, hparameter, templateRead, hset, bind, Except.bind]

/-! ## All the calls -/

/-- How the calls end: with a node that is current and as many as are open, or at a call that does not fit or closes a tag
where none is open. -/
def Ends (calls : List TemplateCall) (count : TagCount) : Except TemplateStop TemplateBuilder → Prop
  | .ok builder => (∀ call ∈ calls, call.Fits) ∧ (∃ current, builder.currentNode = some current) ∧
      (calls.foldlM TagCount.next count).map TagCount.depth = some (builder.contexts.getD []).length
  | .error .overflow => ∃ call ∈ calls, ¬call.Fits
  | .error .unset => calls.foldlM TagCount.next count = none
  | .error .misread => False

/-- A node that is missing is used by the text behind the tag. -/
theorem unset_of_missing {after : TemplateBuilder} {calls : List TemplateCall} {last : TemplatePhase}
    (hmissing : after.currentNode = none) (hcalls : TemplatePhase.ended.after calls = some last)
    (hlast : last ≠ .text ∧ last ≠ .ended) : calls.foldlM TemplateBuilder.call after = .error .unset := by
  cases calls with
  | nil => exact absurd (Option.some.inj hcalls).symm hlast.2
  | cons first calls =>
      cases first <;> simp [TemplatePhase.after, TemplatePhase.next] at hcalls
      cases calls with
      | nil => exact absurd (Option.some.inj hcalls).symm hlast.1
      | cons second calls =>
          have hend : ∃ text, second = .data .textEnd text := by
            cases second with
            | data part data => cases part <;> simp [TemplatePhase.next] at hcalls ⊢
            | _ => simp [TemplatePhase.next] at hcalls
          obtain ⟨text, rfl⟩ := hend
          simp [TemplateBuilder.call, textEnd, hmissing, templateRead, bind, Except.bind]

theorem Kept.calls {calls : List TemplateCall} {last : TemplatePhase} (h : builder.Kept phase count)
    (hcalls : phase.after calls = some last) (hlast : last ≠ .text ∧ last ≠ .ended) :
    Ends calls count (calls.foldlM TemplateBuilder.call builder) := by
  induction calls generalizing builder phase count with
  | nil => exact ⟨by simp, h.current, by simp [h.contexts]⟩
  | cons call calls ih =>
      obtain ⟨next, hnext, hrest⟩ := Option.bind_eq_some_iff.mp hcalls
      rw [List.foldlM_cons]
      rcases h.taken hnext with ⟨after, counted, hcall, hcount, hfits, hafter⟩ | ⟨hcall, hfits⟩ |
          ⟨hcount, hended, hcall | ⟨after, hcall, hmissing⟩⟩
      · have hends := ih hafter hrest
        simp only [hcall, bind, Except.bind]
        cases hresult : calls.foldlM TemplateBuilder.call after with
        | ok result =>
            rw [hresult] at hends
            obtain ⟨hall, hcurrent, hopen⟩ := hends
            refine ⟨?_, hcurrent, by simpa [hcount] using hopen⟩
            intro other hin
            rcases List.mem_cons.mp hin with rfl | hin
            · exact hfits
            · exact hall other hin
        | error stop =>
            rw [hresult] at hends
            cases stop with
            | overflow =>
                obtain ⟨other, hin, hother⟩ := hends
                exact ⟨other, List.mem_cons_of_mem _ hin, hother⟩
            | unset => simpa [Ends, hcount] using hends
            | misread => exact hends
      · simp only [hcall, bind, Except.bind]
        exact ⟨call, List.mem_cons_self, hfits⟩
      · simp only [hcall, bind, Except.bind]
        simp [Ends, hcount]
      · rw [hended] at hrest
        simp only [hcall, bind, Except.bind, unset_of_missing hmissing hrest hlast]
        simp [Ends, hcount]

theorem ends_build (contents : Bytes) : Ends (processBufferTemplateEngine contents) {} (buildTemplate contents) := by
  obtain ⟨last, hcalls, hlast⟩ := process_phases contents
  have hkept : ({} : TemplateBuilder).Kept .start {} := ⟨⟨_, rfl⟩, rfl, by simp [TemplatePhase.inTag]⟩
  exact hkept.calls hcalls hlast

end TemplateBuilder

/-- Every text is built to a tree with a current node, and with as many nodes above it as there are tags open, exactly where
the names and the values fit their buffers and no closing tag comes where no tag is open. What is wrong where it is not is
one of these. -/
theorem buildTemplate_outcome (contents : Bytes) :
    ((∃ builder, buildTemplate contents = .ok builder) ↔
      (∀ call ∈ processBufferTemplateEngine contents, call.Fits) ∧ openTags (processBufferTemplateEngine contents) ≠ none) ∧
    (∀ builder, buildTemplate contents = .ok builder → builder.currentNode ≠ none ∧
      openTags (processBufferTemplateEngine contents) = some (builder.contexts.getD []).length) ∧
    (buildTemplate contents = .error .overflow → ∃ call ∈ processBufferTemplateEngine contents, ¬call.Fits) ∧
    (buildTemplate contents = .error .unset → openTags (processBufferTemplateEngine contents) = none) ∧
    buildTemplate contents ≠ .error .misread := by
  have hends := TemplateBuilder.ends_build contents
  have hopen : ∀ calls, openTags calls = none ↔ calls.foldlM TagCount.next {} = none := by
    intro calls
    rw [openTags, Option.map_eq_none_iff]
  cases hbuild : buildTemplate contents with
  | ok builder =>
      rw [hbuild] at hends
      obtain ⟨hfits, ⟨current, hcurrent⟩, hcount⟩ := hends
      have hsome : openTags (processBufferTemplateEngine contents) = some (builder.contexts.getD []).length := hcount
      refine ⟨⟨fun _ => ⟨hfits, by simp [hsome]⟩, fun _ => ⟨builder, rfl⟩⟩, ?_, by simp, by simp, by simp⟩
      rintro other hother
      cases hother
      exact ⟨by simp [hcurrent], hsome⟩
  | error stop =>
      rw [hbuild] at hends
      cases stop with
      | overflow =>
          obtain ⟨call, hin, hcall⟩ := hends
          exact ⟨⟨by simp, fun h => absurd (h.1 call hin) hcall⟩, by simp, fun _ => ⟨call, hin, hcall⟩, by simp, by simp⟩
      | unset =>
          have hnone := (hopen _).mpr hends
          exact ⟨⟨by simp, fun h => absurd hnone h.2⟩, by simp, by simp, fun _ => hnone, by simp⟩
      | misread => exact hends.elim

end Viriatum
