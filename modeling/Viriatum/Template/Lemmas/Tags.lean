import Viriatum.Template.Language

/-!
# What the engine reads

The runs of the engine over the parts of a template: a text, and the name, the parameters and the end of a tag, each of
which ends where the next one starts.
-/

namespace Viriatum

open Http2Connection Structures

namespace TemplateEngine

variable {engine : TemplateEngine} {byte : UInt8} {chunk rest : Bytes}

/-! ## Single bytes -/

/-- The engine with a part of the rest read. -/
def skip (engine : TemplateEngine) (chunk rest : Bytes) : TemplateEngine :=
  { engine with read := engine.read ++ chunk, rest }

theorem run_eq_of_next {other : TemplateEngine} {after : UInt8 × TemplateEngine} (h : engine.next = some after)
    (hother : other.next = some after) : engine.run = other.run := by
  rw [run, run]
  split
  · next hnext => simp [h] at hnext
  · next hnext =>
      split
      · next hnext' => simp [hother] at hnext'
      · next hnext' =>
          rw [h] at hnext
          rw [hother] at hnext'
          cases hnext
          cases hnext'
          rfl

theorem next_of_rest (hahead : engine.ahead = none) (hrest : engine.rest = byte :: rest) :
    engine.next = some (byte, engine.skip [byte] rest) := by
  simp [next, hahead, hrest, getc, skip]

theorem run_of_rest (engine : TemplateEngine) (hahead : engine.ahead = none) (hrest : engine.rest = byte :: rest) :
    engine.run = ((engine.skip [byte] rest).step byte).run := by
  have hnext := next_of_rest hahead hrest
  rw [run]
  split
  · next h => simp [hnext] at h
  · next h =>
      rw [hnext] at h
      cases h
      rfl

theorem run_of_nil (hahead : engine.ahead = none) (hrest : engine.rest = []) : engine.run = engine := by
  rw [run]
  split
  · rfl
  · next h => simp [next, hahead, hrest] at h

/-- A look at the next byte does not change what is read. -/
theorem run_lookAhead (hahead : engine.ahead = none) (hrest : engine.rest = byte :: rest) :
    engine.lookAhead.run = engine.run := by
  have hnext : engine.lookAhead.next = some (byte, engine.skip [byte] rest) := by
    simp [next, lookAhead, getc, hrest, unsetAhead, skip, hahead]
  exact run_eq_of_next hnext (next_of_rest hahead hrest)

theorem ahead_lookAhead (engine : TemplateEngine) (hrest : engine.rest = byte :: rest) : engine.lookAhead.ahead = some byte := by
  simp [lookAhead, getc, hrest]

theorem unsetAhead_lookAhead (hahead : engine.ahead = none) (hrest : engine.rest = byte :: rest) :
    engine.lookAhead.unsetAhead = engine.skip [byte] rest := by
  simp [lookAhead, getc, hrest, unsetAhead, skip, hahead]

theorem slash_ends {ends goesOn : TemplateEngine → TemplateEngine} (hahead : engine.ahead = none)
    (hrest : engine.rest = 125 :: rest) : engine.slash ends goesOn = ends (engine.skip [125] rest) := by
  simp only [slash, engine.ahead_lookAhead hrest, if_true, unsetAhead_lookAhead hahead hrest]

theorem slash_goesOn {ends goesOn : TemplateEngine → TemplateEngine} (hrest : engine.rest = byte :: rest)
    (hbyte : byte ≠ 125) : engine.slash ends goesOn = goesOn engine.lookAhead := by
  simp [slash, engine.ahead_lookAhead hrest, hbyte]

@[simp] theorem skip_nil (engine : TemplateEngine) : engine.skip [] engine.rest = engine := by simp [skip]

@[simp] theorem skip_skip (engine : TemplateEngine) (first second before after : Bytes) :
    (engine.skip first before).skip second after = engine.skip (first ++ second) after := by
  simp [skip]

@[simp] theorem read_skip (chunk rest : Bytes) : (engine.skip chunk rest).read = engine.read ++ chunk := rfl

@[simp] theorem rest_skip (chunk rest : Bytes) : (engine.skip chunk rest).rest = rest := rfl

@[simp] theorem ahead_skip (chunk rest : Bytes) : (engine.skip chunk rest).ahead = engine.ahead := rfl

@[simp] theorem state_skip (chunk rest : Bytes) : (engine.skip chunk rest).state = engine.state := rfl

@[simp] theorem marks_skip (chunk rest : Bytes) : (engine.skip chunk rest).marks = engine.marks := rfl

@[simp] theorem calls_skip (chunk rest : Bytes) : (engine.skip chunk rest).calls = engine.calls := rfl

/-- The engine reads on over bytes that change nothing. -/
theorem run_skip (hahead : engine.ahead = none) (hrest : engine.rest = chunk ++ rest)
    (hstays : ∀ byte ∈ chunk, ∀ other : TemplateEngine, other.state = engine.state → other.step byte = other) :
    engine.run = (engine.skip chunk rest).run := by
  induction chunk generalizing engine with
  | nil =>
      rw [List.nil_append] at hrest
      rw [← hrest, skip_nil]
  | cons byte chunk ih =>
      rw [List.cons_append] at hrest
      have hstep := hstays byte (by simp) (engine.skip [byte] (chunk ++ rest)) rfl
      have hafter := ih (show (engine.skip [byte] (chunk ++ rest)).ahead = none from hahead) rfl
        (fun other hin => hstays other (by simp [hin]))
      rw [engine.run_of_rest hahead hrest, hstep, hafter, skip_skip]
      rfl

/-! ## Texts -/

theorem run_text {dollar after : Bool} (hahead : engine.ahead = none)
    (hstate : engine.state = if dollar then .dollar else .normal) (hrest : engine.rest = chunk ++ rest)
    (hchunk : dollarBehind dollar chunk = some after) :
    engine.run = ((engine.skip chunk rest).enter (if after then .dollar else .normal)).run := by
  induction chunk generalizing engine dollar with
  | nil =>
      rw [List.nil_append] at hrest
      cases hchunk
      rw [← hrest, skip_nil, enter, ← hstate]
  | cons byte chunk ih =>
      rw [List.cons_append] at hrest
      rw [engine.run_of_rest hahead hrest]
      cases dollar with
      | false =>
          rw [dollarBehind] at hchunk
          have hstep : (engine.skip [byte] (chunk ++ rest)).step byte =
              (engine.skip [byte] (chunk ++ rest)).enter (if decide (byte = 36) then .dollar else .normal) := by
            by_cases hbyte : byte = 36 <;> simp [step, hstate, hbyte, enter, skip]
          rw [hstep, ih (by exact hahead) rfl rfl hchunk]
          simp [enter, skip]
      | true =>
          rw [dollarBehind] at hchunk
          by_cases hbyte : byte = 123
          · simp [hbyte] at hchunk
          · rw [if_neg hbyte] at hchunk
            have hstep : (engine.skip [byte] (chunk ++ rest)).step byte =
                (engine.skip [byte] (chunk ++ rest)).enter .normal := by
              simp [step, hstate, hbyte, dollar]
            rw [hstep, ih (by exact hahead) rfl rfl hchunk]
            simp [enter, skip]

/-! ## Places -/

/-- The engine stands in a state behind a part of a template, of which the mark at the start of it tells. -/
structure Stands (engine : TemplateEngine) (state : TemplateEngineState) (part : TemplateMark) (before text rest : Bytes)
    (calls : List TemplateCall) : Prop where
  state : engine.state = state
  ahead : engine.ahead = none
  read : engine.read = before ++ text
  rest : engine.rest = rest
  mark : engine.marks part = some before.length
  calls : engine.calls = calls

variable {part : TemplateMark} {before text ending : Bytes} {calls : List TemplateCall}

/-- The call that is made with the bytes behind a mark. -/
theorem callbackData_eq (engine : TemplateEngine) (part : TemplateMark) (n : Nat) (hmark : engine.marks part = some before.length) (hread : engine.read = before ++ (text ++ ending))
    (hn : ending.length = n) :
    engine.callbackData part n =
      { engine with
        marks := Function.update engine.marks part none
        calls := engine.calls ++ [.data part text] } := by
  have hsince : engine.since before.length n = text := by
    simp only [since, hread, List.drop_left, List.length_append]
    rw [show before.length + (text.length + ending.length) - before.length - n = text.length by omega]
    exact List.take_left
  simp [callbackData, hmark, hsince]

/-- The run is the one of an engine at a place. -/
def Leads (engine : TemplateEngine) (place : TemplateEngine → Prop) : Prop :=
  ∃ after : TemplateEngine, engine.run = after.run ∧ place after

theorem Leads.here {place : TemplateEngine → Prop} (h : place engine) : engine.Leads place := ⟨engine, rfl, h⟩

theorem Leads.of_run {place : TemplateEngine → Prop} {other : TemplateEngine} (hrun : engine.run = other.run)
    (h : other.Leads place) : engine.Leads place := by
  obtain ⟨after, hafter, hplace⟩ := h
  exact ⟨after, hrun.trans hafter, hplace⟩

theorem Leads.trans {place goal : TemplateEngine → Prop} (h : engine.Leads place)
    (hgoal : ∀ after, place after → after.Leads goal) : engine.Leads goal := by
  obtain ⟨after, hafter, hplace⟩ := h
  exact .of_run hafter (hgoal after hplace)

/-! ## The start of a tag -/

theorem dollar_tag (hrest : engine.rest = byte :: rest) (hbyte : byte ≠ 47) :
    engine.dollar 123 = engine.beginTag.lookAhead := by
  have hahead := engine.beginTag.ahead_lookAhead (rest_beginTag engine |>.trans hrest)
  simp [dollar, hahead, hbyte]

theorem dollar_closing (hahead : engine.beginTag.ahead = none) (hrest : engine.rest = 47 :: rest) :
    engine.dollar 123 = ((engine.beginTag.skip [47] rest).callback .tagCloseBegin).mark .tagName 0 := by
  have hrest' := rest_beginTag engine |>.trans hrest
  have hunset := unsetAhead_lookAhead hahead hrest'
  simp only [dollar, if_true, engine.beginTag.ahead_lookAhead hrest', ← hunset]
  rfl

theorem beginTag_stands (hahead : engine.ahead = none) (hread : engine.read = before ++ (text ++ [36, 123]))
    (hmark : engine.marks .textEnd = some before.length) :
    engine.beginTag.Stands .tagOpen .tagEnd (before ++ text) [36, 123] engine.rest
        (engine.calls ++ [.data .textEnd text, .tagBegin]) ∧
      engine.beginTag.marks .tagName = some (before ++ text ++ [36, 123]).length := by
  have hdata := ((engine.mark .tagName 0).mark .tagEnd 2).callbackData_eq .textEnd 2 hmark hread rfl
  rw [beginTag, hdata]
  refine ⟨⟨rfl, hahead, ?_, rfl, ?_, ?_⟩, ?_⟩
  · simp [mark, callback, enter, hread]
  · simp [mark, callback, enter, hread, ← Nat.add_assoc]
  · simp [mark, callback, enter]
  · simp [mark, callback, enter, hread]

/-- A text goes on with the first two bytes of a tag. -/
theorem Stands.run_dollar (h : engine.Stands .normal .textEnd before text (36 :: 123 :: rest) calls) :
    ∃ opened : TemplateEngine, engine.run = (opened.dollar 123).run ∧ opened.ahead = none ∧ opened.rest = rest ∧
      opened.read = before ++ (text ++ [36, 123]) ∧ opened.marks .textEnd = some before.length ∧ opened.calls = calls := by
  refine ⟨((engine.skip [36] (123 :: rest)).enter .dollar).skip [123] rest, ?_, h.ahead, rfl, ?_, h.mark, h.calls⟩
  · have hstep : (engine.skip [36] (123 :: rest)).step 36 = (engine.skip [36] (123 :: rest)).enter .dollar := by
      simp [step, h.state]
    rw [engine.run_of_rest h.ahead h.rest, hstep,
      ((engine.skip [36] (123 :: rest)).enter .dollar).run_of_rest h.ahead rfl]
    rfl
  · simp [enter, skip, h.read]

theorem Stands.beginTag (h : engine.Stands .normal .textEnd before text (36 :: 123 :: byte :: rest) calls)
    (hbyte : byte ≠ 47) :
    engine.Leads fun after =>
      after.Stands .tagOpen .tagEnd (before ++ text) [36, 123] (byte :: rest) (calls ++ [.data .textEnd text, .tagBegin]) ∧
      after.marks .tagName = some (before ++ text ++ [36, 123]).length := by
  obtain ⟨opened, hrun, hahead, hrest, hread, hmark, hcalls⟩ := h.run_dollar
  have hstands := beginTag_stands hahead hread hmark
  rw [hrest, hcalls] at hstands
  refine ⟨opened.beginTag, ?_, hstands⟩
  rw [hrun, dollar_tag hrest hbyte]
  exact run_lookAhead hstands.1.ahead hstands.1.rest

theorem Stands.beginClosing (h : engine.Stands .normal .textEnd before text (36 :: 123 :: 47 :: rest) calls) :
    engine.Leads fun after =>
      after.Stands .tagOpen .tagEnd (before ++ text) [36, 123, 47] rest
          (calls ++ [.data .textEnd text, .tagBegin, .tagCloseBegin]) ∧
        after.marks .tagName = some (before ++ text ++ [36, 123, 47]).length := by
  obtain ⟨opened, hrun, hahead, hrest, hread, hmark, hcalls⟩ := h.run_dollar
  obtain ⟨hstands, -⟩ := beginTag_stands hahead hread hmark
  rw [hrest, hcalls] at hstands
  have hrun' := dollar_closing hstands.ahead hrest
  refine ⟨((opened.beginTag.skip [47] rest).callback .tagCloseBegin).mark .tagName 0, by rw [hrun, hrun'],
    ⟨hstands.state, hstands.ahead, ?_, rfl, ?_, ?_⟩, ?_⟩
  · simp [TemplateEngine.mark, callback, skip, hstands.read]
  · simp [TemplateEngine.mark, callback, skip, hstands.mark]
  · simp [TemplateEngine.mark, callback, skip, hstands.calls]
  · simp [TemplateEngine.mark, callback, skip, hstands.read]

/-! ## The inside of a tag -/

variable {state : TemplateEngineState}

/-- The engine reads on over bytes that change nothing at a place. -/
theorem Stands.skip (h : engine.Stands state part before text (chunk ++ rest) calls)
    (hstays : ∀ byte ∈ chunk, ∀ other : TemplateEngine, other.state = state → other.step byte = other) :
    engine.Leads fun after =>
      after.Stands state part before (text ++ chunk) rest calls ∧ after.marks = engine.marks := by
  refine ⟨engine.skip chunk rest, run_skip h.ahead h.rest (by rw [h.state]; exact hstays), ⟨h.state, h.ahead, ?_, rfl,
    h.mark, h.calls⟩, rfl⟩
  simp [h.read]

theorem Stands.run_byte (h : engine.Stands state part before text (byte :: rest) calls) :
    engine.run = ((engine.skip [byte] rest).step byte).run ∧
      (engine.skip [byte] rest).Stands state part before (text ++ [byte]) rest calls :=
  ⟨engine.run_of_rest h.ahead h.rest, h.state, h.ahead, by simp [h.read], rfl, h.mark, h.calls⟩

/-- The end of a tag, behind all of its calls but the last ones. -/
theorem Stands.endTag (h : engine.Stands state .tagEnd before text rest calls) :
    engine.endTag.Stands .normal .textEnd (before ++ text) [] rest (calls ++ [.data .tagEnd text, .textBegin]) := by
  have hread : engine.read = before ++ (text ++ []) := by simp [h.read]
  have hdata := ((engine.enter .normal).mark .textEnd 0).callbackData_eq .tagEnd 0 h.mark hread rfl
  rw [TemplateEngine.endTag, hdata]
  refine ⟨rfl, h.ahead, ?_, h.rest, ?_, ?_⟩
  · simp [TemplateEngine.mark, callback, enter, h.read]
  · simp [TemplateEngine.mark, callback, enter, h.read]
  · simp [TemplateEngine.mark, callback, enter, h.calls]

/-- A call with the bytes behind a mark that is another one than the mark of the place. -/
theorem Stands.callbackData {other : TemplateMark} {first : Bytes} {n : Nat}
    (h : engine.Stands state part before (first ++ (text ++ ending)) rest calls) (hother : other ≠ part)
    (hmark : engine.marks other = some (before ++ first).length) (hn : ending.length = n) :
    (engine.callbackData other n).Stands state part before (first ++ (text ++ ending)) rest
      (calls ++ [.data other text]) := by
  have hread : engine.read = before ++ first ++ (text ++ ending) := by simp [h.read]
  have hdata := engine.callbackData_eq other n hmark hread hn
  rw [hdata]
  refine ⟨h.state, h.ahead, h.read, h.rest, ?_, ?_⟩
  · simp [Function.update_of_ne hother.symm, h.mark]
  · simp [h.calls]

end TemplateEngine

/-! ## Tags -/

theorem Template.WellFormed.last {template : Template} (h : template.WellFormed) :
    dollarBehind false template.last ≠ none := by
  induction template with
  | text text => exact h
  | single text opening others ih => exact ih h.2.2.2
  | paired text opening body closing others ihbody ih => exact ih h.2.2.2.2.2

namespace TemplateEngine

variable {engine : TemplateEngine} {byte : UInt8} {before text name value rest : Bytes} {calls : List TemplateCall}

/-- The engine stands behind a name, a value without quotes or anything else of a tag. The call of a name or a value is
made where it ends, and a value is lost where the tag ends with a slash. -/
def Pending (engine : TemplateEngine) (slash : Bool) (before text rest : Bytes) (calls : List TemplateCall) : Prop :=
  engine.Stands .parameters .tagEnd before text rest calls ∨
  (∃ first name earlier, text = first ++ name ∧ calls = earlier ++ [.data .tagName name] ∧
    engine.Stands .tagOpen .tagEnd before text rest earlier ∧
    engine.marks .tagName = some (before ++ first).length) ∨
  (slash = false ∧ ∃ first value earlier, text = first ++ value ∧ calls = earlier ++ [.data .parameterValue value] ∧
    engine.Stands .parameterValue .tagEnd before text rest earlier ∧
    engine.marks .parameterValue = some (before ++ first).length)

/-- The place behind a tag. -/
def Ended (engine : TemplateEngine) (before text rest : Bytes) (calls : List TemplateCall) : Prop :=
  engine.Stands .normal .textEnd (before ++ text) [] rest (calls ++ [.data .tagEnd text, .textBegin])

theorem Pending.blank {slash : Bool} (h : engine.Pending slash before text (32 :: rest) calls) :
    engine.Leads fun after => after.Stands .parameters .tagEnd before (text ++ [32]) rest calls := by
  rcases h with h | ⟨first, name, earlier, rfl, rfl, h, hmark⟩ | ⟨-, first, value, earlier, rfl, rfl, h, hmark⟩
  · obtain ⟨hrun, hstands⟩ := h.run_byte
    exact ⟨_, hrun, by simpa [step, h.state, parameters] using hstands⟩
  · obtain ⟨hrun, hstands⟩ := h.run_byte
    rw [List.append_assoc] at hstands
    have hdata := hstands.callbackData (n := 1) (by simp) hmark rfl
    refine ⟨_, hrun, ?_⟩
    simp only [step, hstands.state, tagOpen]
    rw [List.append_assoc]
    exact ⟨rfl, hdata.ahead, hdata.read, hdata.rest, hdata.mark, hdata.calls⟩
  · obtain ⟨hrun, hstands⟩ := h.run_byte
    rw [List.append_assoc] at hstands
    have hdata := hstands.callbackData (n := 1) (by simp) hmark rfl
    refine ⟨_, hrun, ?_⟩
    simp only [step, hstands.state, parameterValue]
    rw [List.append_assoc]
    exact ⟨rfl, hdata.ahead, hdata.read, hdata.rest, hdata.mark, hdata.calls⟩

theorem parameterValue_brace {k : Nat} (hmark : engine.marks .parameterValue = some k) :
    engine.parameterValue 125 = (engine.callbackData .parameterValue 1).endTag := by
  have htag : ((engine.enter .normal).mark .textEnd 0).callbackData .parameterValue 1 =
      ((engine.callbackData .parameterValue 1).enter .normal).mark .textEnd 0 := by
    simp [callbackData, mark, enter, hmark, since, Function.update_comm (show TemplateMark.parameterValue ≠ .textEnd by simp)]
  simp only [parameterValue, endTag, ← htag]
  rfl

theorem Pending.brace {slash : Bool} (h : engine.Pending slash before text (125 :: rest) calls) :
    engine.Leads fun after => after.Ended before (text ++ [125]) rest calls := by
  rcases h with h | ⟨first, name, earlier, rfl, rfl, h, hmark⟩ | ⟨-, first, value, earlier, rfl, rfl, h, hmark⟩
  · obtain ⟨hrun, hstands⟩ := h.run_byte
    refine ⟨_, hrun, ?_⟩
    simpa [step, h.state, parameters, Ended] using hstands.endTag
  · obtain ⟨hrun, hstands⟩ := h.run_byte
    rw [List.append_assoc] at hstands
    have hdata := hstands.callbackData (n := 1) (by simp) hmark rfl
    refine ⟨_, hrun, ?_⟩
    rw [List.append_assoc]
    simpa [step, h.state, tagOpen, Ended] using hdata.endTag
  · obtain ⟨hrun, hstands⟩ := h.run_byte
    rw [List.append_assoc] at hstands
    have hdata := hstands.callbackData (n := 1) (by simp) hmark rfl
    refine ⟨_, hrun, ?_⟩
    have hstep : (engine.skip [125] rest).step 125 = (engine.skip [125] rest).parameterValue 125 := by
      simp [step, h.state]
    have hbrace := parameterValue_brace (show (engine.skip [125] rest).marks .parameterValue = _ from hmark)
    rw [List.append_assoc, hstep, hbrace]
    exact hdata.endTag

theorem step_tagOpen_slash (h : engine.state = .tagOpen) :
    engine.step 47 = engine.slash (fun engine => (engine.callbackData .tagName 2).endTag) id := by
  simp [step, h, tagOpen]

theorem step_parameters_slash (h : engine.state = .parameters) :
    engine.step 47 = engine.slash TemplateEngine.endTag fun engine => (engine.mark .parameter 1).enter .parameter := by
  simp [step, h, parameters]

theorem Stands.slash {state : TemplateEngineState} {ends goesOn : TemplateEngine → TemplateEngine}
    (h : engine.Stands state .tagEnd before text (47 :: 125 :: rest) calls)
    (hstep : ∀ other : TemplateEngine, other.state = state → other.step 47 = other.slash ends goesOn) :
    ∃ after : TemplateEngine, engine.run = (ends after).run ∧
      after.Stands state .tagEnd before (text ++ [47, 125]) rest calls ∧ after.marks = engine.marks := by
  obtain ⟨hrun, hstands⟩ := h.run_byte
  have hends : (engine.skip [47] (125 :: rest)).slash ends goesOn = _ := slash_ends hstands.ahead hstands.rest
  refine ⟨(engine.skip [47] (125 :: rest)).skip [125] rest, ?_, ⟨hstands.state, hstands.ahead, ?_, rfl, hstands.mark,
    hstands.calls⟩, rfl⟩
  · rw [hrun, hstep _ hstands.state, hends]
  · simp [h.read]

theorem Pending.slash (h : engine.Pending true before text (47 :: 125 :: rest) calls) :
    engine.Leads fun after => after.Ended before (text ++ singleEnd) rest calls := by
  rcases h with h | ⟨first, name, earlier, rfl, rfl, h, hmark⟩ | ⟨hslash, -⟩
  · obtain ⟨after, hrun, hafter, -⟩ := h.slash fun _ => step_parameters_slash
    exact ⟨_, hrun, hafter.endTag⟩
  · obtain ⟨after, hrun, hafter, hmarks⟩ := h.slash fun _ => step_tagOpen_slash
    rw [List.append_assoc] at hafter
    have hdata := hafter.callbackData (n := 2) (show TemplateMark.tagName ≠ .tagEnd by simp) (by rw [hmarks, hmark]) rfl
    refine ⟨_, hrun, ?_⟩
    rw [List.append_assoc]
    exact hdata.endTag
  · cases hslash

/-! ## Names and values -/

/-- The engine reads on over the name of a tag. -/
theorem Stands.tagName (h : engine.Stands .tagOpen .tagEnd before text (name ++ rest) calls) (hname : TagName name)
    (hmark : engine.marks .tagName = some (before ++ text).length) :
    engine.Leads fun after => after.Pending true before (text ++ name) rest (calls ++ [.data .tagName name]) := by
  refine (h.skip ?_).trans ?_
  · intro byte hin other hother
    obtain ⟨-, hblank, hslash, hbrace⟩ := hname byte hin
    simp [step, hother, tagOpen, hblank, hslash, hbrace]
  · rintro after ⟨hafter, hmarks⟩
    exact .here (.inr (.inl ⟨text, name, calls, rfl, rfl, hafter, by rw [hmarks, hmark]⟩))

theorem Stands.blanks {n : Nat} (h : engine.Stands .parameters .tagEnd before text (blanksText n ++ rest) calls) :
    engine.Leads fun after => after.Stands .parameters .tagEnd before (text ++ blanksText n) rest calls := by
  refine (h.skip ?_).trans fun after hafter => .here hafter.1
  intro byte hin other hother
  rw [List.eq_of_mem_replicate hin]
  simp [step, hother, parameters]

/-- The name of a parameter, up to the sign behind it. -/
theorem Stands.parameterName (h : engine.Stands .parameters .tagEnd before text (name ++ 61 :: rest) calls)
    (hname : TagName name ∧ 61 ∉ name) (hne : name ≠ []) :
    engine.Leads fun after =>
      after.Stands .parameterValue .tagEnd before (text ++ (name ++ [61])) rest (calls ++ [.data .parameter name]) ∧
        after.marks .parameterValue = some (before ++ (text ++ (name ++ [61]))).length := by
  cases name with
  | nil => exact absurd rfl hne
  | cons byte name =>
      rw [List.cons_append] at h
      obtain ⟨hrun, hstands⟩ := h.run_byte
      obtain ⟨-, hblank, hslash, hbrace⟩ := hname.1 byte (by simp)
      have hstep : (engine.skip [byte] (name ++ 61 :: rest)).step byte =
          ((engine.skip [byte] (name ++ 61 :: rest)).mark .parameter 1).enter .parameter := by
        simp [step, h.state, parameters, hblank, hslash, hbrace]
      obtain ⟨begun, hbegun⟩ : ∃ begun, begun = ((engine.skip [byte] (name ++ 61 :: rest)).mark .parameter 1).enter .parameter :=
        ⟨_, rfl⟩
      have hplace : begun.Stands .parameter .tagEnd before (text ++ [byte]) (name ++ 61 :: rest) calls := by
        rw [hbegun]
        exact ⟨rfl, hstands.ahead, hstands.read, rfl, by simp [TemplateEngine.mark, enter, h.mark], hstands.calls⟩
      have hmark : begun.marks .parameter = some (before ++ text).length := by
        simp [hbegun, TemplateEngine.mark, enter, h.read, ← Nat.add_assoc]
      refine .of_run (hrun.trans (by rw [hstep, hbegun])) ((hplace.skip ?_).trans ?_)
      · intro other hin engine hengine
        obtain ⟨-, -, hslash, hbrace⟩ := hname.1 other (by simp [hin])
        have hsign : other ≠ 61 := fun heq => hname.2 (by simp [← heq, hin])
        simp [step, hengine, TemplateEngine.parameter, hslash, hbrace, hsign]
      · rintro after ⟨hafter, hmarks⟩
        obtain ⟨hrun, hlast⟩ := hafter.run_byte
        have htext : text ++ [byte] ++ name ++ [61] = text ++ (byte :: name ++ [61]) := by simp
        rw [htext] at hlast
        have hdata := hlast.callbackData (n := 1) (show TemplateMark.parameter ≠ .tagEnd by simp)
          (by rw [marks_skip, hmarks, hmark]) rfl
        refine ⟨_, hrun, ?_⟩
        have hstep : (after.skip [61] rest).step 61 = (((after.skip [61] rest).callbackData .parameter 1).mark
            .parameterValue 0).enter .parameterValue := by
          simp [step, hafter.state, TemplateEngine.parameter]
        rw [hstep]
        refine ⟨⟨rfl, hdata.ahead, hdata.read, hdata.rest, ?_, hdata.calls⟩, ?_⟩
        · simp [TemplateEngine.mark, enter, hdata.mark]
        · simp [TemplateEngine.mark, enter, hdata.read]

/-- The engine reads on over a value without quotes, a slash in which does not end the tag. -/
theorem Stands.bareValue (h : engine.Stands .parameterValue .tagEnd before text (value ++ rest) calls)
    (hvalue : BareValue value) :
    engine.Leads fun after =>
      after.Stands .parameterValue .tagEnd before (text ++ value) rest calls ∧ after.marks = engine.marks := by
  induction value generalizing engine text with
  | nil => exact .here ⟨by simpa using h, rfl⟩
  | cons byte value ih =>
      rw [List.cons_append] at h
      obtain ⟨hrun, hstands⟩ := h.run_byte
      obtain ⟨hbytes, hlast⟩ := hvalue
      obtain ⟨-, hblank, hquote, hbrace⟩ := hbytes byte (by simp)
      have hrest : BareValue value := by
        refine ⟨fun other hin => hbytes other (by simp [hin]), ?_⟩
        cases value with
        | nil => simp
        | cons next value => simpa using hlast
      have hskip : engine.run = (engine.skip [byte] (value ++ rest)).run := by
        by_cases hslash : byte = 47
        · cases value with
          | nil => exact absurd (by simp [hslash]) hlast
          | cons next value =>
              have hnext := (hbytes next (by simp)).2.2.2
              have hgoes : (engine.skip [byte] (next :: value ++ rest)).slash TemplateEngine.endTag id = _ :=
                slash_goesOn hstands.rest hnext
              have hstep : (engine.skip [byte] (next :: value ++ rest)).step byte =
                  (engine.skip [byte] (next :: value ++ rest)).slash TemplateEngine.endTag id := by
                simp [step, h.state, parameterValue, hslash]
              rw [hrun, hstep, hgoes]
              exact run_lookAhead hstands.ahead hstands.rest
        · rw [hrun]
          simp [step, h.state, parameterValue, hslash, hblank, hquote, hbrace]
      refine .of_run hskip ((ih hstands hrest).trans ?_)
      rintro after ⟨hafter, hmarks⟩
      exact .here ⟨by simpa using hafter, hmarks⟩

theorem Stands.pendingValue (h : engine.Stands .parameterValue .tagEnd before text (value ++ rest) calls)
    (hvalue : BareValue value) (hmark : engine.marks .parameterValue = some (before ++ text).length) :
    engine.Leads fun after =>
      after.Pending false before (text ++ value) rest (calls ++ [.data .parameterValue value]) := by
  refine (h.bareValue hvalue).trans ?_
  rintro after ⟨hafter, hmarks⟩
  exact .here (.inr (.inr ⟨rfl, text, value, calls, rfl, rfl, hafter, by rw [hmarks, hmark]⟩))

/-- A string in quotes ends with its last quote. -/
theorem Stands.stringValue (h : engine.Stands .parameterValue .tagEnd before text (34 :: (value ++ 34 :: rest)) calls)
    (hvalue : ∀ byte ∈ value, byte ≠ 34) (hmark : engine.marks .parameterValue = some (before ++ text).length) :
    engine.Leads fun after => after.Stands .parameters .tagEnd before (text ++ (34 :: (value ++ [34]))) rest
      (calls ++ [.data .parameterValue (34 :: (value ++ [34]))]) := by
  obtain ⟨hrun, hstands⟩ := h.run_byte
  have hstep : (engine.skip [34] (value ++ 34 :: rest)).step 34 =
      (engine.skip [34] (value ++ 34 :: rest)).enter .parameterValueString := by
    simp [step, h.state, parameterValue]
  have hplace : ((engine.skip [34] (value ++ 34 :: rest)).enter .parameterValueString).Stands .parameterValueString .tagEnd
      before (text ++ [34]) (value ++ 34 :: rest) calls :=
    ⟨rfl, hstands.ahead, hstands.read, rfl, hstands.mark, hstands.calls⟩
  refine .of_run (hrun.trans (by rw [hstep])) ((hplace.skip ?_).trans ?_)
  · intro byte hin other hother
    simp [step, hother, parameterValueString, hvalue byte hin]
  · rintro after ⟨hafter, hmarks⟩
    obtain ⟨hrun, hlast⟩ := hafter.run_byte
    have htext : text ++ [34] ++ value ++ [34] = text ++ (34 :: (value ++ [34]) ++ []) := by simp
    rw [htext] at hlast
    have hdata := hlast.callbackData (n := 0) (show TemplateMark.parameterValue ≠ .tagEnd by simp)
      (by rw [marks_skip, hmarks]; exact hmark) rfl
    have hstep : (after.skip [34] rest).step 34 =
        ((after.skip [34] rest).callbackData .parameterValue 0).enter .parameters := by
      simp [step, hafter.state, parameterValueString]
    refine ⟨_, hrun, ?_⟩
    rw [hstep]
    rw [List.append_nil] at hdata
    exact ⟨rfl, hdata.ahead, hdata.read, hdata.rest, hdata.mark, hdata.calls⟩

/-! ## Parameters -/

theorem Pending.parameter {slash : Bool} {parameter : WrittenParameter}
    (h : engine.Pending slash before text (parameter.text ++ rest) calls) (hparameter : parameter.WellFormed) :
    engine.Leads fun after =>
      after.Pending parameter.value.isString before (text ++ parameter.text) rest (calls ++ parameter.calls) := by
  have htext : parameter.text ++ rest =
      32 :: (blanksText parameter.blanks ++ (parameter.name ++ 61 :: (parameter.value.text ++ rest))) := by
    simp [WrittenParameter.text]
  rw [htext] at h
  refine h.blank.trans fun after hafter => hafter.blanks.trans fun after hafter =>
    (hafter.parameterName hparameter.name hparameter.nonempty).trans ?_
  rintro after ⟨hafter, hmark⟩
  have hbefore : text ++ [32] ++ blanksText parameter.blanks ++ (parameter.name ++ [61]) ++ parameter.value.text =
      text ++ parameter.text := by
    simp [WrittenParameter.text]
  have hvalue := hparameter.value
  rw [WrittenParameter.calls]
  cases hwritten : parameter.value with
  | string value =>
      rw [hwritten] at hafter hvalue hbefore
      simp only [WrittenValue.text, List.cons_append, List.append_assoc] at hafter
      refine (hafter.stringValue (fun byte hin => (hvalue.2 byte hin).2) ?_).trans fun after hafter => .here (.inl ?_)
      · simpa using hmark
      · simpa [← hbefore, WrittenValue.text] using hafter
  | number value =>
      rw [hwritten] at hafter hvalue hbefore
      simpa [← hbefore, WrittenValue.isString, WrittenValue.text] using hafter.pendingValue hvalue.2.1 hmark
  | reference value =>
      rw [hwritten] at hafter hvalue hbefore
      simpa [← hbefore, WrittenValue.isString, WrittenValue.text] using hafter.pendingValue hvalue.2.1 hmark

/-- Whether the slash of a single tag may follow parameters. -/
def slashAfter (slash : Bool) (parameters : List WrittenParameter) : Bool :=
  (parameters.getLast?.map fun parameter => parameter.value.isString).getD slash

theorem Pending.parameters {slash : Bool} {parameters : List WrittenParameter}
    (h : engine.Pending slash before text (parametersText parameters ++ rest) calls)
    (hparameters : ∀ parameter ∈ parameters, parameter.WellFormed) :
    engine.Leads fun after => after.Pending (slashAfter slash parameters) before (text ++ parametersText parameters) rest
      (calls ++ parameters.flatMap WrittenParameter.calls) := by
  induction parameters generalizing engine slash text calls with
  | nil => exact .here (by simpa [parametersText, slashAfter] using h)
  | cons parameter parameters ih =>
      have htext : parametersText (parameter :: parameters) ++ rest = parameter.text ++ (parametersText parameters ++ rest) := by
        simp [parametersText]
      rw [htext] at h
      refine (h.parameter (hparameters parameter (by simp))).trans fun after hafter =>
        (ih hafter fun other hin => hparameters other (by simp [hin])).trans fun after hafter => .here ?_
      have hslash : slashAfter slash (parameter :: parameters) = slashAfter parameter.value.isString parameters := by
        rw [slashAfter, slashAfter, List.getLast?_cons]
        cases parameters.getLast? <;> rfl
      simpa [parametersText, hslash] using hafter

theorem Pending.blanks {slash : Bool} {n : Nat} (h : engine.Pending slash before text (blanksText n ++ rest) calls) :
    engine.Leads fun after =>
      after.Pending (if n = 0 then slash else true) before (text ++ blanksText n) rest calls := by
  cases n with
  | zero => exact .here (by simpa [blanksText] using h)
  | succ n =>
      refine (Pending.blank h).trans fun after hafter => (hafter.blanks).trans fun after hafter => .here (.inl ?_)
      simpa [blanksText, List.replicate_succ] using hafter

/-! ## Whole tags -/

/-- The engine reads on from a text to what an opening ends on. -/
theorem Stands.opening {opening : WrittenTag} (h : engine.Stands .normal .textEnd before text (opening.text ++ rest) calls)
    (hopening : opening.WellFormed) :
    engine.Leads fun after =>
      after.Pending (if opening.blanks = 0 then slashAfter true opening.parameters else true) (before ++ text) opening.text
        rest (calls ++ (.data .textEnd text :: .tagBegin :: .data .tagName opening.name ::
          opening.parameters.flatMap WrittenParameter.calls)) := by
  obtain ⟨byte, name, hname⟩ : ∃ byte name, opening.name = byte :: name := List.exists_cons_of_ne_nil hopening.nonempty
  have htext : opening.text ++ rest =
      36 :: 123 :: (opening.name ++ (parametersText opening.parameters ++ (blanksText opening.blanks ++ rest))) := by
    simp [WrittenTag.text]
  have hbyte := (hopening.name byte (by simp [hname])).2.2.1
  rw [htext, hname, List.cons_append] at h
  refine (h.beginTag hbyte).trans ?_
  rintro after ⟨hafter, hmark⟩
  rw [← List.cons_append, ← hname] at hafter
  refine (hafter.tagName hopening.name hmark).trans fun after hafter =>
    (hafter.parameters hopening.parameters).trans fun after hafter => hafter.blanks.trans fun after hafter => .here ?_
  simpa [WrittenTag.text] using hafter

theorem Stands.single {opening : WrittenTag}
    (h : engine.Stands .normal .textEnd before text (opening.text ++ (singleEnd ++ rest)) calls)
    (hopening : opening.WellFormed) (hend : opening.MayEnd) :
    engine.Leads fun after => after.Stands .normal .textEnd (before ++ text ++ (opening.text ++ singleEnd)) [] rest
      (calls ++ opening.calls text singleEnd) := by
  have hslash : (if opening.blanks = 0 then slashAfter true opening.parameters else true) = true := by
    rcases hend with hblanks | hlast
    · simp [Nat.pos_iff_ne_zero.mp hblanks]
    · cases hparameters : opening.parameters.getLast? with
      | none => simp [slashAfter, hparameters]
      | some parameter => simp [slashAfter, hparameters, hlast parameter hparameters]
  refine (h.opening hopening).trans fun after hafter => ?_
  rw [hslash] at hafter
  refine (Pending.slash hafter).trans fun after hafter => .here ?_
  simpa [Ended, WrittenTag.calls] using hafter

theorem Stands.opened {opening : WrittenTag}
    (h : engine.Stands .normal .textEnd before text (opening.text ++ 125 :: rest) calls) (hopening : opening.WellFormed) :
    engine.Leads fun after => after.Stands .normal .textEnd (before ++ text ++ (opening.text ++ [125])) [] rest
      (calls ++ opening.calls text [125]) := by
  refine (h.opening hopening).trans fun after hafter => (Pending.brace hafter).trans fun after hafter => .here ?_
  simpa [Ended, WrittenTag.calls] using hafter

theorem Stands.closing (h : engine.Stands .normal .textEnd before text (closingText name ++ rest) calls)
    (hname : TagName name) :
    engine.Leads fun after => after.Stands .normal .textEnd (before ++ text ++ closingText name) [] rest
      (calls ++ closingCalls text name) := by
  have htext : closingText name ++ rest = 36 :: 123 :: 47 :: (name ++ 125 :: rest) := by simp [closingText]
  rw [htext] at h
  refine h.beginClosing.trans ?_
  rintro after ⟨hafter, hmark⟩
  refine (hafter.tagName hname hmark).trans fun after hafter => (Pending.brace hafter).trans fun after hafter => .here ?_
  simpa [Ended, closingText, closingCalls] using hafter

/-! ## Templates -/

def textState (dollar : Bool) : TemplateEngineState := if dollar then .dollar else .normal

theorem Stands.readText {dollar : Bool} (h : engine.Stands .normal .textEnd before [] (text ++ rest) calls)
    (htext : dollarBehind false text = some dollar) :
    engine.Leads fun after => after.Stands (textState dollar) .textEnd before text rest calls :=
  ⟨_, run_text h.ahead (by rw [h.state]; rfl) h.rest htext, rfl, h.ahead, by simp [enter, h.read], rfl, h.mark, h.calls⟩

/-- The engine reads on over a template to the end of its last text. -/
theorem Stands.template {template : Template} {dollar : Bool}
    (h : engine.Stands .normal .textEnd before [] (template.print ++ rest) calls) (htemplate : template.WellFormed)
    (hlast : dollarBehind false template.last = some dollar) :
    engine.Leads fun after => ∃ before,
      after.Stands (textState dollar) .textEnd before template.last rest (calls ++ template.calls) := by
  induction template generalizing engine before calls rest dollar with
  | text text =>
      rw [Template.print] at h
      refine (h.readText hlast).trans fun after hafter => .here ⟨before, ?_⟩
      simpa [Template.calls, Template.last] using hafter
  | single text opening others ih =>
      obtain ⟨htext, hopening, hend, hothers⟩ := htemplate
      simp only [Template.print, List.append_assoc] at h
      refine (h.readText htext).trans fun after hafter => (hafter.single hopening hend).trans fun after hafter =>
        (ih hafter hothers hlast).trans fun after hafter => .here ?_
      simpa [Template.calls, Template.last] using hafter
  | paired text opening body closing others ihbody ih =>
      obtain ⟨htext, hopening, hbody, hbodyLast, hclosing, hothers⟩ := htemplate
      simp only [Template.print, List.append_assoc, List.cons_append] at h
      refine (h.readText htext).trans fun after hafter => (hafter.opened hopening).trans fun after hafter =>
        (ihbody hafter hbody hbodyLast).trans ?_
      rintro after ⟨before, hafter⟩
      refine (hafter.closing hclosing.1).trans fun after hafter => (ih hafter hothers hlast).trans fun after hafter =>
        .here ?_
      simpa [Template.calls, Template.last] using hafter

end TemplateEngine

/-- The calls over a template as it is written. -/
theorem process_print {template : Template} (h : template.WellFormed) :
    processBufferTemplateEngine template.print =
      .textBegin :: (template.calls ++ [.data .textEnd template.last]) := by
  obtain ⟨dollar, hdollar⟩ := Option.ne_none_iff_exists'.mp h.last
  have hstart : ((({ rest := template.print } : TemplateEngine).mark .textEnd 0).callback .textBegin).Stands .normal
      .textEnd [] [] (template.print ++ []) [.textBegin] :=
    ⟨rfl, rfl, rfl, by simp [TemplateEngine.mark, TemplateEngine.callback], rfl, rfl⟩
  obtain ⟨after, hrun, before, hafter⟩ := hstart.template h hdollar
  have hflush := after.callbackData_eq .textEnd 0 hafter.mark (by rw [List.append_nil]; exact hafter.read) rfl
  have hstate : after.state = .normal ∨ after.state = .dollar := by
    rw [hafter.state]
    cases dollar <;> simp [TemplateEngine.textState]
  rw [processBufferTemplateEngine, hrun, TemplateEngine.run_of_nil hafter.ahead hafter.rest, TemplateEngine.flush,
    if_pos hstate, hflush, hafter.calls]
  simp

end Viriatum
