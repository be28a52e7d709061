import Viriatum.Template.Lemmas.Tags

/-!
# The order of the calls

Over every text, the calls of the engine come in an order in which each of them finds what it changes.
-/

namespace Viriatum

open Http2Connection Structures

/-- What has been called last: the start of a text, the end of one, the start of a tag or of a closing one, the name of a
tag or a value, a parameter, or the end of a tag. -/
inductive TemplatePhase where
  | start
  | text
  | between
  | begun
  | closing
  | named
  | valued
  | ended
deriving DecidableEq, Repr

/-- A tag has two bytes before its end, and a string a quote behind the first one. -/
def TemplatePhase.next : TemplatePhase → TemplateCall → Option TemplatePhase
  | start, .textBegin => some text
  | text, .data .textEnd _ => some between
  | between, .tagBegin => some begun
  | begun, .tagCloseBegin => some closing
  | begun, .data .tagName _ => some named
  | closing, .data .tagName _ => some named
  | named, .data .parameter _ => some valued
  | valued, .data .parameterValue value => if value.head? = some 34 ∧ value.length < 2 then none else some named
  | named, .data .tagEnd tag => if tag.length < 3 then none else some ended
  | valued, .data .tagEnd tag => if tag.length < 3 then none else some ended
  | ended, .textBegin => some text
  | _, _ => none

/-- The phase that calls lead to from another one. -/
def TemplatePhase.after (phase : TemplatePhase) (calls : List TemplateCall) : Option TemplatePhase :=
  calls.foldlM TemplatePhase.next phase

theorem TemplatePhase.after_append {phase middle : TemplatePhase} {first second : List TemplateCall}
    (h : phase.after first = some middle) : phase.after (first ++ second) = middle.after second := by
  rw [TemplatePhase.after, List.foldlM_append, ← TemplatePhase.after, h]
  rfl

namespace TemplateEngine

variable {engine : TemplateEngine} {byte : UInt8} {rest : Bytes} {phase : TemplatePhase}

/-- A mark is set, and as many bytes at least have been read behind it. -/
def Marked (engine : TemplateEngine) (part : TemplateMark) (n : Nat) : Prop :=
  ∃ mark, engine.marks part = some mark ∧ mark + n ≤ engine.read.length

/-- The phase that the calls have led to. -/
def Called (engine : TemplateEngine) (phase : TemplatePhase) : Prop := TemplatePhase.start.after engine.calls = some phase

/-- What the engine keeps to in each of its states. -/
def Orderly (engine : TemplateEngine) : Prop :=
  match engine.state with
  | .normal => engine.Called .text ∧ engine.Marked .textEnd 0
  | .dollar => engine.Called .text ∧ engine.Marked .textEnd 1
  | .tagOpen => (engine.Called .begun ∨ engine.Called .closing) ∧ engine.Marked .tagName 0 ∧ engine.Marked .tagEnd 2
  | .parameters => engine.Called .named ∧ engine.Marked .tagEnd 3
  | .parameter => engine.Called .named ∧ engine.Marked .parameter 0 ∧ engine.Marked .tagEnd 3
  | .parameterValue => engine.Called .valued ∧ engine.Marked .tagEnd 3 ∧
      ∃ mark, engine.marks .parameterValue = some mark ∧ mark ≤ engine.read.length ∧
        (engine.read.drop mark).head? ≠ some 34
  | .parameterValueString => engine.Called .valued ∧ engine.Marked .parameterValue 1 ∧ engine.Marked .tagEnd 3

/-! ## Calls -/

theorem Marked.mono {part : TemplateMark} {m n : Nat} (h : engine.Marked part n) (hle : m ≤ n) : engine.Marked part m := by
  obtain ⟨mark, hmark, hlen⟩ := h
  exact ⟨mark, hmark, by omega⟩

theorem Marked.skip {part : TemplateMark} {n : Nat} (h : engine.Marked part n) (byte : UInt8) (rest : Bytes) :
    (engine.skip [byte] rest).Marked part (n + 1) := by
  obtain ⟨mark, hmark, hlen⟩ := h
  exact ⟨mark, hmark, by simp; omega⟩

/-- A call with the bytes behind a mark. -/
theorem callbackData_called (engine : TemplateEngine) {part : TemplateMark} {n : Nat} {next : TemplatePhase} (h : engine.Called phase)
    (hmark : engine.Marked part n) (hnext : ∀ mark, engine.marks part = some mark →
      phase.next (.data part (engine.since mark n)) = some next) :
    (engine.callbackData part n).Called next ∧ ∀ other k, other ≠ part → engine.Marked other k →
      (engine.callbackData part n).Marked other k := by
  obtain ⟨mark, hmark, -⟩ := hmark
  have hcalled : TemplatePhase.start.after (engine.calls ++ [.data part (engine.since mark n)]) = some next := by
    rw [TemplatePhase.after_append h]
    simp [TemplatePhase.after, hnext mark hmark]
  simp only [callbackData, hmark]
  refine ⟨hcalled, ?_⟩
  rintro other k hother ⟨place, hplace, hlen⟩
  exact ⟨place, by simp [Function.update_of_ne hother, hplace], hlen⟩

theorem length_since (engine : TemplateEngine) (mark n : Nat) :
    (engine.since mark n).length = engine.read.length - mark - n := by
  simp only [since, List.length_take, List.length_drop]
  omega

theorem endTag_eq {mark : Nat} (hmark : engine.marks .tagEnd = some mark) :
    engine.endTag =
      { engine with
        state := .normal
        marks := Function.update (Function.update engine.marks .textEnd (some engine.read.length)) .tagEnd none
        calls := engine.calls ++ [.data .tagEnd (engine.since mark 0), .textBegin] } := by
  simp [endTag, callbackData, hmark, TemplateEngine.mark, enter, callback, since]

/-- The end of a tag starts a text. -/
theorem orderly_endTag (h : engine.Called .named ∨ engine.Called .valued) (hmark : engine.Marked .tagEnd 3) :
    engine.endTag.Orderly := by
  obtain ⟨mark, hmark, hlen⟩ := hmark
  have hlength : ¬(engine.since mark 0).length < 3 := by
    rw [length_since]
    omega
  rw [endTag_eq hmark]
  refine ⟨?_, engine.read.length, by simp, le_rfl⟩
  rcases h with h | h
  · exact (TemplatePhase.after_append h).trans (by simp [TemplatePhase.after, TemplatePhase.next, hlength])
  · exact (TemplatePhase.after_append h).trans (by simp [TemplatePhase.after, TemplatePhase.next, hlength])

/-! ## Looks ahead -/

theorem lookAhead_of_nil (hrest : engine.rest = []) : engine.lookAhead = { engine with ahead := some 255 } := by
  simp [lookAhead, getc, hrest]

/-- The byte that stands for the end of the text is read once. -/
theorem run_ahead (engine : TemplateEngine) (ahead : UInt8) :
    ({ engine with ahead := some ahead } : TemplateEngine).run = (engine.unsetAhead.step ahead).run := by
  rw [run]
  split
  · next h => simp [next] at h
  · next h =>
      simp only [next] at h
      cases h
      rfl

theorem unsetAhead_of_none (hahead : engine.ahead = none) : engine.unsetAhead = engine := by
  rw [unsetAhead, ← hahead]

/-- A slash that does not end a tag changes nothing. -/
theorem run_slash_id {ends : TemplateEngine → TemplateEngine} (hahead : engine.ahead = none)
    (hend : engine.step 255 = engine) (hrest : engine.rest.head? ≠ some 125) : (engine.slash ends id).run = engine.run := by
  cases hbytes : engine.rest with
  | nil =>
      have hlook := lookAhead_of_nil hbytes
      simp only [slash, hlook, id]
      rw [if_neg (by simp), run_ahead, unsetAhead_of_none hahead, hend]
  | cons byte rest =>
      have hbyte : byte ≠ 125 := by simpa [hbytes] using hrest
      rw [slash_goesOn hbytes hbyte]
      exact run_lookAhead hahead hbytes

/-- The engine at the start of the name of a parameter. -/
def beginsParameter (engine : TemplateEngine) (mark : Nat) : TemplateEngine :=
  { engine with
    marks := Function.update engine.marks .parameter (some mark)
    state := .parameter }

/-- The name of a parameter starts behind a slash that does not end the tag, or with it at the end of the text. -/
theorem run_slash_begins (engine : TemplateEngine) {ends : TemplateEngine → TemplateEngine} (hahead : engine.ahead = none)
    (hrest : engine.rest.head? ≠ some 125) :
    ∃ mark ≤ engine.read.length, (engine.slash ends fun engine => (engine.mark .parameter 1).enter .parameter).run =
      (engine.beginsParameter mark).run := by
  by_cases hnil : engine.rest = []
  · refine ⟨engine.read.length - 1, Nat.sub_le _ _, ?_⟩
    have hlook := lookAhead_of_nil hnil
    have hrun := run_ahead (engine.beginsParameter (engine.read.length - 1)) 255
    rw [unsetAhead_of_none (show (engine.beginsParameter (engine.read.length - 1)).ahead = none from hahead)] at hrun
    simp only [slash, hlook, TemplateEngine.mark, enter]
    rw [if_neg (by simp)]
    exact hrun
  · obtain ⟨byte, rest, hbytes⟩ := List.exists_cons_of_ne_nil hnil
    have hbyte : byte ≠ 125 := by simpa [hbytes] using hrest
    have hnext : (engine.beginsParameter engine.read.length).next = _ := next_of_rest hahead hbytes
    refine ⟨engine.read.length, le_rfl, ?_⟩
    rw [slash_goesOn hbytes hbyte]
    refine run_eq_of_next ?_ hnext
    simp [next, lookAhead, getc, hbytes, unsetAhead, skip, hahead, TemplateEngine.mark, enter, beginsParameter]

/-! ## Steps -/

/-- The engine goes on to where it keeps to the order, with less of the text left. -/
def Proceeds (engine : TemplateEngine) : Prop :=
  ∃ after : TemplateEngine, engine.run = after.run ∧ after.ahead = none ∧ after.rest.length < engine.rest.length ∧
    after.Orderly

theorem Proceeds.of_step (hahead : engine.ahead = none) (hrest : engine.rest = byte :: rest)
    (h : ∃ after : TemplateEngine, ((engine.skip [byte] rest).step byte).run = after.run ∧ after.ahead = none ∧
      after.rest.length ≤ rest.length ∧ after.Orderly) : engine.Proceeds := by
  obtain ⟨after, hrun, hafter, hlength, horderly⟩ := h
  refine ⟨after, (engine.run_of_rest hahead hrest).trans hrun, hafter, ?_, horderly⟩
  rw [hrest, List.length_cons]
  omega

/-- A slash ends a tag, or the engine goes on. -/
theorem run_slash (engine : TemplateEngine) {ends goesOn : TemplateEngine → TemplateEngine} (hahead : engine.ahead = none) :
    (∃ rest, engine.rest = 125 :: rest ∧ engine.slash ends goesOn = ends (engine.skip [125] rest)) ∨
      engine.rest.head? ≠ some 125 := by
  by_cases hrest : engine.rest.head? = some 125
  · obtain ⟨rest, hrest⟩ : ∃ rest, engine.rest = 125 :: rest := List.head?_eq_some_iff.mp hrest
    exact .inl ⟨rest, hrest, slash_ends hahead hrest⟩
  · exact .inr hrest

theorem beginTag_eq {mark : Nat} (hmark : engine.marks .textEnd = some mark) :
    engine.beginTag =
      { engine with
        state := .tagOpen
        marks := Function.update (Function.update (Function.update engine.marks .tagName (some engine.read.length)) .tagEnd
          (some (engine.read.length - 2))) .textEnd none
        calls := engine.calls ++ [.data .textEnd (engine.since mark 2), .tagBegin] } := by
  simp [beginTag, callbackData, hmark, TemplateEngine.mark, enter, callback, since]

theorem orderly_beginTag (h : engine.Called .text) (hmark : engine.Marked .textEnd 2) : engine.beginTag.Orderly := by
  obtain ⟨mark, hmark, hlen⟩ := hmark
  rw [beginTag_eq hmark]
  refine ⟨.inl ?_, ⟨engine.read.length, by simp, le_rfl⟩, engine.read.length - 2, by simp, ?_⟩
  · exact (TemplatePhase.after_append h).trans rfl
  · simp only
    omega

theorem orderly_normal (h : engine.Called .text) (hmark : engine.Marked .textEnd 0) (hstate : engine.state = .normal) :
    engine.Orderly := by
  rw [Orderly, hstate]
  exact ⟨h, hmark⟩

theorem proceeds_normal (hahead : engine.ahead = none) (hrest : engine.rest = byte :: rest) (hstate : engine.state = .normal)
    (h : engine.Called .text ∧ engine.Marked .textEnd 0) : engine.Proceeds := by
  obtain ⟨hcalled, hmark⟩ := h
  refine .of_step hahead hrest ?_
  by_cases hbyte : byte = 36
  · refine ⟨(engine.skip [byte] rest).enter .dollar, by simp [step, hstate, hbyte], hahead, le_rfl, hcalled, ?_⟩
    exact hmark.skip byte rest
  · exact ⟨engine.skip [byte] rest, by simp [step, hstate, hbyte], hahead, le_rfl,
      orderly_normal hcalled ((hmark.skip byte rest).mono (Nat.zero_le _)) hstate⟩

theorem step_tagOpen_eof (hstate : engine.state = .tagOpen) : engine.step 255 = engine := by
  simp [step, hstate, tagOpen]

/-- The first byte of a tag is looked at. -/
theorem run_dollar_brace (hahead : engine.ahead = none) (hcalled : engine.Called .text) (hmark : engine.Marked .textEnd 2) :
    ∃ after : TemplateEngine, (engine.dollar 123).run = after.run ∧ after.ahead = none ∧
      after.rest.length ≤ engine.rest.length ∧ after.Orderly := by
  have horderly := orderly_beginTag hcalled hmark
  obtain ⟨mark, hmark, hlen⟩ := hmark
  have hbegun := beginTag_eq hmark
  have hahead' : engine.beginTag.ahead = none := by rw [hbegun]; exact hahead
  have hstate : engine.beginTag.state = .tagOpen := by rw [hbegun]
  have hrest' := rest_beginTag engine
  by_cases hnil : engine.rest = []
  · refine ⟨engine.beginTag, ?_, hahead', by rw [hrest'], horderly⟩
    have hlook := lookAhead_of_nil (hrest'.trans hnil)
    have hrun := run_ahead engine.beginTag 255
    rw [unsetAhead_of_none hahead', step_tagOpen_eof hstate] at hrun
    simp only [dollar, hlook, if_true]
    rw [if_neg (by simp)]
    exact hrun
  · obtain ⟨byte, rest, hbytes⟩ := List.exists_cons_of_ne_nil hnil
    by_cases hbyte : byte = 47
    · rw [hbyte] at hbytes
      refine ⟨_, congrArg run (dollar_closing hahead' hbytes), hahead', by simp [TemplateEngine.mark, callback, hbytes], ?_⟩
      rw [hbegun]
      refine ⟨.inr ?_, ⟨engine.read.length + 1, by simp [TemplateEngine.mark, callback, skip],
        by simp [TemplateEngine.mark, callback, skip]⟩, engine.read.length - 2,
        by simp [TemplateEngine.mark, callback, skip], ?_⟩
      · exact (TemplatePhase.after_append (TemplatePhase.after_append hcalled |>.trans rfl)).trans rfl
      · simp only [TemplateEngine.mark, callback, read_skip, List.length_append]
        omega
    · refine ⟨engine.beginTag, ?_, hahead', by rw [hrest'], horderly⟩
      rw [dollar_tag hbytes hbyte]
      exact run_lookAhead hahead' (hrest'.trans hbytes)

theorem proceeds_dollar (hahead : engine.ahead = none) (hrest : engine.rest = byte :: rest) (hstate : engine.state = .dollar)
    (h : engine.Called .text ∧ engine.Marked .textEnd 1) : engine.Proceeds := by
  obtain ⟨hcalled, hmark⟩ := h
  refine .of_step hahead hrest ?_
  by_cases hbyte : byte = 123
  · have hstep : (engine.skip [byte] rest).step byte = (engine.skip [byte] rest).dollar 123 := by
      simp [step, hstate, hbyte]
    rw [hstep]
    exact run_dollar_brace hahead hcalled (hmark.skip byte rest)
  · refine ⟨(engine.skip [byte] rest).enter .normal, by simp [step, hstate, dollar, hbyte], hahead, le_rfl, hcalled, ?_⟩
    exact (hmark.skip byte rest).mono (Nat.zero_le _)

theorem callbackData_tagName (engine : TemplateEngine) {n : Nat} (h : engine.Called .begun ∨ engine.Called .closing) (hname : engine.Marked .tagName n)
    (htag : engine.Marked .tagEnd 3) :
    (engine.callbackData .tagName n).Called .named ∧ (engine.callbackData .tagName n).Marked .tagEnd 3 := by
  rcases h with h | h
  · obtain ⟨hcalled, hmarked⟩ := engine.callbackData_called h hname fun _ _ => rfl
    exact ⟨hcalled, hmarked _ _ (by simp) htag⟩
  · obtain ⟨hcalled, hmarked⟩ := engine.callbackData_called h hname fun _ _ => rfl
    exact ⟨hcalled, hmarked _ _ (by simp) htag⟩

theorem proceeds_tagOpen (hahead : engine.ahead = none) (hrest : engine.rest = byte :: rest)
    (hstate : engine.state = .tagOpen)
    (h : (engine.Called .begun ∨ engine.Called .closing) ∧ engine.Marked .tagName 0 ∧ engine.Marked .tagEnd 2) :
    engine.Proceeds := by
  obtain ⟨hcalled, hname, htag⟩ := h
  have hname' := hname.skip byte rest
  have htag' := htag.skip byte rest
  have hstays : (engine.skip [byte] rest).Orderly := by
    rw [Orderly, state_skip, hstate]
    exact ⟨hcalled, hname'.mono (Nat.zero_le _), htag'.mono (by omega)⟩
  refine .of_step hahead hrest ?_
  by_cases hslash : byte = 47
  · have hstep : (engine.skip [byte] rest).step byte =
        (engine.skip [byte] rest).slash (fun engine => (engine.callbackData .tagName 2).endTag) id := by
      simp [step, hstate, tagOpen, hslash]
    rw [hstep]
    rcases (engine.skip [byte] rest).run_slash hahead with ⟨others, hothers, hend⟩ | hgoes
    · obtain ⟨hnamed, hmarked⟩ := ((engine.skip [byte] rest).skip [125] others).callbackData_tagName hcalled
        (hname'.skip 125 others) ((htag'.skip 125 others).mono (show 3 ≤ 4 by omega))
      refine ⟨_, congrArg run hend, by simp [hahead], ?_, orderly_endTag (.inl hnamed) hmarked⟩
      have hlength : rest = 125 :: others := hothers
      simp [hlength]
    · refine ⟨engine.skip [byte] rest, run_slash_id hahead ?_ hgoes, hahead, le_rfl, hstays⟩
      exact step_tagOpen_eof hstate
  · obtain ⟨hnamed, hmarked⟩ := (engine.skip [byte] rest).callbackData_tagName hcalled hname' htag'
    by_cases hbrace : byte = 125
    · have hstep : (engine.skip [byte] rest).step byte = ((engine.skip [byte] rest).callbackData .tagName 1).endTag := by
        simp [step, hstate, tagOpen, hbrace]
      exact ⟨_, congrArg run hstep, by simp [hahead], by simp, orderly_endTag (.inl hnamed) hmarked⟩
    · by_cases hblank : byte = 32
      · have hstep : (engine.skip [byte] rest).step byte =
            ((engine.skip [byte] rest).callbackData .tagName 1).enter .parameters := by
          simp [step, hstate, tagOpen, hblank]
        exact ⟨_, congrArg run hstep, by simp [enter, hahead], by simp [enter], hnamed, hmarked⟩
      · exact ⟨engine.skip [byte] rest, by simp [step, hstate, tagOpen, hslash, hbrace, hblank], hahead, le_rfl, hstays⟩

theorem orderly_beginsParameter {mark : Nat} (h : engine.Called .named) (htag : engine.Marked .tagEnd 3)
    (hmark : mark ≤ engine.read.length) : (engine.beginsParameter mark).Orderly := by
  obtain ⟨place, hplace, hlen⟩ := htag
  exact ⟨h, ⟨mark, by simp [beginsParameter], hmark⟩, place, by simp [beginsParameter, hplace], hlen⟩

theorem proceeds_parameters (hahead : engine.ahead = none) (hrest : engine.rest = byte :: rest)
    (hstate : engine.state = .parameters) (h : engine.Called .named ∧ engine.Marked .tagEnd 3) : engine.Proceeds := by
  obtain ⟨hcalled, htag⟩ := h
  have htag' := (htag.skip byte rest).mono (show 3 ≤ 4 by omega)
  refine .of_step hahead hrest ?_
  by_cases hslash : byte = 47
  · have hstep : (engine.skip [byte] rest).step byte = (engine.skip [byte] rest).slash endTag fun engine =>
        (engine.mark .parameter 1).enter .parameter := by
      simp [step, hstate, parameters, hslash]
    rw [hstep]
    rcases (engine.skip [byte] rest).run_slash hahead with ⟨others, hothers, hend⟩ | hgoes
    · have hlength : rest = 125 :: others := hothers
      exact ⟨_, congrArg run hend, by simp [hahead], by simp [hlength],
        orderly_endTag (.inl hcalled) ((htag'.skip 125 others).mono (by omega))⟩
    · obtain ⟨mark, hmark, hrun⟩ := (engine.skip [byte] rest).run_slash_begins hahead hgoes
      exact ⟨_, hrun, hahead, le_rfl, orderly_beginsParameter hcalled htag' hmark⟩
  · by_cases hbrace : byte = 125
    · have hstep : (engine.skip [byte] rest).step byte = (engine.skip [byte] rest).endTag := by
        simp [step, hstate, parameters, hbrace]
      exact ⟨_, congrArg run hstep, by simp [hahead], by simp, orderly_endTag (.inl hcalled) htag'⟩
    · by_cases hblank : byte = 32
      · refine ⟨engine.skip [byte] rest, by simp [step, hstate, parameters, hblank], hahead, le_rfl, ?_⟩
        rw [Orderly, state_skip, hstate]
        exact ⟨hcalled, htag'⟩
      · have hstep : (engine.skip [byte] rest).step byte =
            (engine.skip [byte] rest).beginsParameter ((engine.skip [byte] rest).read.length - 1) := by
          simp [step, hstate, parameters, hslash, hbrace, hblank, TemplateEngine.mark, enter, beginsParameter]
        exact ⟨_, congrArg run hstep, hahead, le_rfl, orderly_beginsParameter hcalled htag' (Nat.sub_le _ _)⟩

theorem proceeds_parameter (hahead : engine.ahead = none) (hrest : engine.rest = byte :: rest)
    (hstate : engine.state = .parameter)
    (h : engine.Called .named ∧ engine.Marked .parameter 0 ∧ engine.Marked .tagEnd 3) : engine.Proceeds := by
  obtain ⟨hcalled, hname, htag⟩ := h
  have hname' := hname.skip byte rest
  have htag' := (htag.skip byte rest).mono (show 3 ≤ 4 by omega)
  have hstays : (engine.skip [byte] rest).Orderly := by
    rw [Orderly, state_skip, hstate]
    exact ⟨hcalled, hname'.mono (Nat.zero_le _), htag'⟩
  refine .of_step hahead hrest ?_
  by_cases hslash : byte = 47
  · have hstep : (engine.skip [byte] rest).step byte = (engine.skip [byte] rest).slash endTag id := by
      simp [step, hstate, parameter, hslash]
    rw [hstep]
    rcases (engine.skip [byte] rest).run_slash hahead with ⟨others, hothers, hend⟩ | hgoes
    · have hlength : rest = 125 :: others := hothers
      exact ⟨_, congrArg run hend, by simp [hahead], by simp [hlength],
        orderly_endTag (.inl hcalled) ((htag'.skip 125 others).mono (by omega))⟩
    · refine ⟨engine.skip [byte] rest, run_slash_id hahead ?_ hgoes, hahead, le_rfl, hstays⟩
      simp [step, hstate, parameter]
  · by_cases hbrace : byte = 125
    · have hstep : (engine.skip [byte] rest).step byte = (engine.skip [byte] rest).endTag := by
        simp [step, hstate, parameter, hbrace]
      exact ⟨_, congrArg run hstep, by simp [hahead], by simp, orderly_endTag (.inl hcalled) htag'⟩
    · by_cases hsign : byte = 61
      · have hstep : (engine.skip [byte] rest).step byte = (((engine.skip [byte] rest).callbackData .parameter 1).mark
            .parameterValue 0).enter .parameterValue := by
          simp [step, hstate, parameter, hsign]
        have hnext : ∀ name, TemplatePhase.named.next (.data .parameter name) = some .valued := fun _ => rfl
        obtain ⟨hvalued, hmarked⟩ := (engine.skip [byte] rest).callbackData_called hcalled hname' fun _ _ => hnext _
        obtain ⟨place, hplace, hlen⟩ := hmarked .tagEnd 3 (by simp) htag'
        refine ⟨_, congrArg run hstep, by simp [enter, TemplateEngine.mark, hahead], by simp [enter, TemplateEngine.mark],
          hvalued, ⟨place, by simpa [enter, TemplateEngine.mark] using hplace, hlen⟩,
          ((engine.skip [byte] rest).callbackData .parameter 1).read.length,
          by simp [enter, TemplateEngine.mark], le_rfl, ?_⟩
        simp [enter, TemplateEngine.mark]
      · exact ⟨engine.skip [byte] rest, by simp [step, hstate, parameter, hslash, hbrace, hsign], hahead, le_rfl, hstays⟩

/-- The call of a value, which is a string in both of its quotes or none. -/
theorem callbackData_value (engine : TemplateEngine) {mark n : Nat} (h : engine.Called .valued)
    (hmark : engine.marks .parameterValue = some mark) (hlen : mark + n ≤ engine.read.length)
    (hvalue : (engine.read.drop mark).head? ≠ some 34 ∨ mark + n + 2 ≤ engine.read.length)
    (htag : engine.Marked .tagEnd 3) :
    (engine.callbackData .parameterValue n).Called .named ∧ (engine.callbackData .parameterValue n).Marked .tagEnd 3 := by
  obtain ⟨hcalled, hmarked⟩ := engine.callbackData_called h ⟨mark, hmark, hlen⟩ (by
    intro place hplace
    show _ = some TemplatePhase.named
    obtain rfl : mark = place := Option.some.inj (hmark.symm.trans hplace)
    have hlength := length_since engine mark n
    have hquote : ¬((engine.since mark n).head? = some 34 ∧ (engine.since mark n).length < 2) := by
      rintro ⟨hhead, hshort⟩
      rcases hvalue with hvalue | hlong
      · refine hvalue ?_
        rw [since] at hhead
        cases hdrop : engine.read.drop mark with
        | nil => simp [hdrop] at hhead
        | cons byte others =>
            rw [hdrop] at hhead
            cases hcount : engine.read.length - mark - n with
            | zero => simp [hcount] at hhead
            | succ count => simpa [hcount] using hhead
      · omega
    exact if_neg hquote)
  exact ⟨hcalled, hmarked _ _ (by simp) htag⟩

theorem head_drop_append {α : Type} {l : List α} {m : Nat} {a : α} (hm : m < l.length) :
    ((l ++ [a]).drop m).head? = (l.drop m).head? := by
  simp [List.head?_drop, List.getElem?_append_left hm]

theorem proceeds_parameterValue (hahead : engine.ahead = none) (hrest : engine.rest = byte :: rest)
    (hstate : engine.state = .parameterValue) (h : engine.Called .valued ∧ engine.Marked .tagEnd 3 ∧
      ∃ mark, engine.marks .parameterValue = some mark ∧ mark ≤ engine.read.length ∧
        (engine.read.drop mark).head? ≠ some 34) : engine.Proceeds := by
  obtain ⟨hcalled, htag, mark, hmark, hlen, hhead⟩ := h
  have htag' := (htag.skip byte rest).mono (show 3 ≤ 4 by omega)
  -- the value still starts with no quote, where the byte is none
  have hhead' : byte ≠ 34 → ((engine.skip [byte] rest).read.drop mark).head? ≠ some 34 := by
    intro hquote
    rcases Nat.lt_or_ge mark engine.read.length with hlt | hge
    · rw [read_skip, head_drop_append hlt]
      exact hhead
    · have hsame : mark = engine.read.length := by omega
      simpa [hsame] using hquote
  have hlen' : mark + 1 ≤ (engine.skip [byte] rest).read.length := by
    simp
    omega
  have hstays : byte ≠ 34 → (engine.skip [byte] rest).Orderly := by
    intro hquote
    rw [Orderly, state_skip, hstate]
    exact ⟨hcalled, htag', mark, hmark, by omega, hhead' hquote⟩
  refine .of_step hahead hrest ?_
  by_cases hslash : byte = 47
  · have hstep : (engine.skip [byte] rest).step byte = (engine.skip [byte] rest).slash endTag id := by
      simp [step, hstate, parameterValue, hslash]
    rw [hstep]
    rcases (engine.skip [byte] rest).run_slash hahead with ⟨others, hothers, hend⟩ | hgoes
    · have hlength : rest = 125 :: others := hothers
      exact ⟨_, congrArg run hend, by simp [hahead], by simp [hlength],
        orderly_endTag (.inr hcalled) ((htag'.skip 125 others).mono (by omega))⟩
    · refine ⟨engine.skip [byte] rest, run_slash_id hahead ?_ hgoes, hahead, le_rfl, hstays (by simp [hslash])⟩
      simp [step, hstate, parameterValue]
  · by_cases hquote : byte = 34
    · refine ⟨(engine.skip [byte] rest).enter .parameterValueString, by simp [step, hstate, parameterValue, hquote], hahead,
        le_rfl, hcalled, ⟨mark, hmark, hlen'⟩, htag'⟩
    · obtain ⟨hnamed, hmarked⟩ := (engine.skip [byte] rest).callbackData_value hcalled hmark hlen' (.inl (hhead' hquote)) htag'
      by_cases hbrace : byte = 125
      · have hstep : (engine.skip [byte] rest).step byte =
            ((engine.skip [byte] rest).callbackData .parameterValue 1).endTag := by
          have hvalue := parameterValue_brace (show (engine.skip [byte] rest).marks .parameterValue = some mark from hmark)
          rw [← hvalue]
          simp [step, hstate, hbrace]
        exact ⟨_, congrArg run hstep, by simp [hahead], by simp, orderly_endTag (.inl hnamed) hmarked⟩
      · by_cases hblank : byte = 32
        · have hstep : (engine.skip [byte] rest).step byte =
              ((engine.skip [byte] rest).callbackData .parameterValue 1).enter .parameters := by
            simp [step, hstate, parameterValue, hblank]
          exact ⟨_, congrArg run hstep, by simp [enter, hahead], by simp [enter], hnamed, hmarked⟩
        · exact ⟨engine.skip [byte] rest, by simp [step, hstate, parameterValue, hslash, hquote, hbrace, hblank], hahead,
            le_rfl, hstays hquote⟩

theorem proceeds_string (hahead : engine.ahead = none) (hrest : engine.rest = byte :: rest)
    (hstate : engine.state = .parameterValueString)
    (h : engine.Called .valued ∧ engine.Marked .parameterValue 1 ∧ engine.Marked .tagEnd 3) : engine.Proceeds := by
  obtain ⟨hcalled, ⟨mark, hmark, hlen⟩, htag⟩ := h
  have htag' := (htag.skip byte rest).mono (show 3 ≤ 4 by omega)
  have hlen' : mark + 2 ≤ (engine.skip [byte] rest).read.length := by
    simp
    omega
  refine .of_step hahead hrest ?_
  by_cases hquote : byte = 34
  · have hstep : (engine.skip [byte] rest).step byte =
        ((engine.skip [byte] rest).callbackData .parameterValue 0).enter .parameters := by
      simp [step, hstate, parameterValueString, hquote]
    obtain ⟨hnamed, hmarked⟩ := (engine.skip [byte] rest).callbackData_value (n := 0) hcalled hmark (by omega) (.inr hlen') htag'
    exact ⟨_, congrArg run hstep, by simp [enter, hahead], by simp [enter], hnamed, hmarked⟩
  · refine ⟨engine.skip [byte] rest, by simp [step, hstate, parameterValueString, hquote], hahead, le_rfl, ?_⟩
    rw [Orderly, state_skip, hstate]
    exact ⟨hcalled, ⟨mark, hmark, by omega⟩, htag'⟩

/-- A byte of the text, in each of the states. -/
theorem Orderly.proceeds (h : engine.Orderly) (hahead : engine.ahead = none) (hrest : engine.rest = byte :: rest) :
    engine.Proceeds := by
  rw [Orderly] at h
  cases hstate : engine.state with
  | normal => rw [hstate] at h; exact proceeds_normal hahead hrest hstate h
  | dollar => rw [hstate] at h; exact proceeds_dollar hahead hrest hstate h
  | tagOpen => rw [hstate] at h; exact proceeds_tagOpen hahead hrest hstate h
  | parameters => rw [hstate] at h; exact proceeds_parameters hahead hrest hstate h
  | parameter => rw [hstate] at h; exact proceeds_parameter hahead hrest hstate h
  | parameterValue => rw [hstate] at h; exact proceeds_parameterValue hahead hrest hstate h
  | parameterValueString => rw [hstate] at h; exact proceeds_string hahead hrest hstate h

/-- The order is kept to the end of the text. -/
theorem Orderly.run (h : engine.Orderly) (hahead : engine.ahead = none) : engine.run.Orderly := by
  induction hlength : engine.rest.length using Nat.strong_induction_on generalizing engine with
  | _ n ih =>
      cases hrest : engine.rest with
      | nil => rw [run_of_nil hahead hrest]; exact h
      | cons byte rest =>
          obtain ⟨after, hrun, hafter, hless, horderly⟩ := h.proceeds hahead hrest
          rw [hrun]
          exact ih after.rest.length (by omega) horderly hafter rfl

end TemplateEngine

/-- The calls over every text come in order, and do not end within a text. -/
theorem process_phases (contents : Bytes) :
    ∃ phase, TemplatePhase.start.after (processBufferTemplateEngine contents) = some phase ∧
      phase ≠ .text ∧ phase ≠ .ended := by
  obtain ⟨engine, hengine⟩ : ∃ engine, engine =
      (({ rest := contents : TemplateEngine }.mark .textEnd 0).callback .textBegin).run := ⟨_, rfl⟩
  have horderly : engine.Orderly := by
    rw [hengine]
    refine TemplateEngine.Orderly.run ?_ rfl
    exact ⟨rfl, 0, by simp [TemplateEngine.mark, TemplateEngine.callback], Nat.zero_le _⟩
  have hflush : engine.Called .text → (∃ n, engine.Marked .textEnd n) →
      (engine.callbackData .textEnd 0).Called .between := by
    rintro hcalled ⟨n, hmark⟩
    exact (engine.callbackData_called hcalled (hmark.mono (Nat.zero_le n)) fun _ _ => rfl).1
  rw [processBufferTemplateEngine, ← hengine, TemplateEngine.flush]
  rw [TemplateEngine.Orderly] at horderly
  cases hstate : engine.state with
  | normal =>
      rw [hstate] at horderly
      rw [if_pos (.inl rfl)]
      exact ⟨.between, hflush horderly.1 ⟨0, horderly.2⟩, by simp, by simp⟩
  | dollar =>
      rw [hstate] at horderly
      rw [if_pos (.inr rfl)]
      exact ⟨.between, hflush horderly.1 ⟨1, horderly.2⟩, by simp, by simp⟩
  | tagOpen =>
      rw [hstate] at horderly
      rw [if_neg (by simp)]
      rcases horderly.1 with h | h
      · exact ⟨.begun, h, by simp, by simp⟩
      · exact ⟨.closing, h, by simp, by simp⟩
  | parameters => rw [hstate] at horderly; exact ⟨.named, by rw [if_neg (by simp)]; exact horderly.1, by simp, by simp⟩
  | parameter => rw [hstate] at horderly; exact ⟨.named, by rw [if_neg (by simp)]; exact horderly.1, by simp, by simp⟩
  | parameterValue =>
      rw [hstate] at horderly
      exact ⟨.valued, by rw [if_neg (by simp)]; exact horderly.1, by simp, by simp⟩
  | parameterValueString =>
      rw [hstate] at horderly
      exact ⟨.valued, by rw [if_neg (by simp)]; exact horderly.1, by simp, by simp⟩

end Viriatum
