import Mathlib.Logic.Function.Basic
import Viriatum.Stream.Respond

/-!
# The template engine

The engine that goes over a template byte by byte, with the marks that tell where the part being read has begun, and the
calls that it makes to its settings.
-/

namespace Viriatum

open Http2Connection

inductive TemplateEngineState where
  | normal
  | dollar
  | tagOpen
  | parameters
  | parameter
  | parameterValue
  | parameterValueString
deriving DecidableEq, Repr

/-- The parts that a mark is kept for; each of them has a call that is made with its bytes. -/
inductive TemplateMark where
  | textEnd
  | tagEnd
  | tagName
  | parameter
  | parameterValue
deriving DecidableEq, Repr

inductive TemplateCall where
  | textBegin
  | tagBegin
  | tagCloseBegin
  | data (mark : TemplateMark) (bytes : Bytes)
deriving DecidableEq, Repr

/-- The engine between two bytes: the pointer stands behind what is read, and the marks are distances from the start of
the buffer. -/
structure TemplateEngine where
  read : Bytes := []
  rest : Bytes
  ahead : Option UInt8 := none
  state : TemplateEngineState := .normal
  marks : TemplateMark → Option Nat := fun _ => none
  calls : List TemplateCall := []

namespace TemplateEngine

variable (engine : TemplateEngine)

def enter (state : TemplateEngineState) : TemplateEngine := { engine with state }

/-- `TEMPLATE_MARK_N` -/
def mark (part : TemplateMark) (n : Nat) : TemplateEngine :=
  { engine with marks := Function.update engine.marks part (some (engine.read.length - n)) }

/-- `TEMPLATE_CALLBACK` -/
def callback (call : TemplateCall) : TemplateEngine := { engine with calls := engine.calls ++ [call] }

/-- The bytes from a mark to `n` before the pointer. -/
def since (mark n : Nat) : Bytes := (engine.read.drop mark).take (engine.read.length - mark - n)

/-- `TEMPLATE_CALLBACK_DATA_N`: nothing for a mark that is not set. -/
def callbackData (part : TemplateMark) (n : Nat) : TemplateEngine :=
  match engine.marks part with
  | none => engine
  | some mark =>
      { engine with
        marks := Function.update engine.marks part none
        calls := engine.calls ++ [.data part (engine.since mark n)] }

/-- `_getc_template_engine`, which returns the end of file marker where nothing remains. -/
def getc : UInt8 × TemplateEngine :=
  match engine.rest with
  | [] => (255, engine)
  | current :: rest => (current, { engine with read := engine.read ++ [current], rest })

def lookAhead : TemplateEngine := { engine.getc.2 with ahead := some engine.getc.1 }

def unsetAhead : TemplateEngine := { engine with ahead := none }

/-- What is done where a tag has begun; the state is changed before the look ahead. -/
def beginTag : TemplateEngine :=
  ((engine.mark .tagName 0).mark .tagEnd 2).callbackData .textEnd 2 |>.callback .tagBegin |>.enter .tagOpen

/-- What is done where a tag has come to its end. -/
def endTag : TemplateEngine :=
  ((engine.enter .normal).mark .textEnd 0).callbackData .tagEnd 0 |>.callback .textBegin

/-- The tag ends with a slash and a brace; otherwise the engine goes on, with the byte that it has looked at. -/
def slash (ends goesOn : TemplateEngine → TemplateEngine) : TemplateEngine :=
  let engine := engine.lookAhead
  if engine.ahead = some 125 then ends engine.unsetAhead else goesOn engine

def dollar (current : UInt8) : TemplateEngine :=
  if current = 123 then
    let engine := engine.beginTag.lookAhead
    if engine.ahead = some 47 then (engine.callback .tagCloseBegin).unsetAhead.mark .tagName 0
    else engine
  else engine.enter .normal

def tagOpen (current : UInt8) : TemplateEngine :=
  if current = 47 then engine.slash (fun engine => (engine.callbackData .tagName 2).endTag) id
  else if current = 125 then (engine.callbackData .tagName 1).endTag
  else if current = 32 then (engine.callbackData .tagName 1).enter .parameters
  else engine

def parameters (current : UInt8) : TemplateEngine :=
  let begins := fun engine : TemplateEngine => (engine.mark .parameter 1).enter .parameter
  if current = 47 then engine.slash endTag begins
  else if current = 125 then engine.endTag
  else if current = 32 then engine
  else begins engine

def parameter (current : UInt8) : TemplateEngine :=
  if current = 47 then engine.slash endTag id
  else if current = 125 then engine.endTag
  else if current = 61 then
    ((engine.callbackData .parameter 1).mark .parameterValue 0).enter .parameterValue
  else engine

def parameterValue (current : UInt8) : TemplateEngine :=
  if current = 47 then engine.slash endTag id
  else if current = 125 then
    ((engine.enter .normal).mark .textEnd 0).callbackData .parameterValue 1 |>.callbackData .tagEnd 0
      |>.callback .textBegin
  else if current = 34 then engine.enter .parameterValueString
  else if current = 32 then (engine.callbackData .parameterValue 1).enter .parameters
  else engine

def parameterValueString (current : UInt8) : TemplateEngine :=
  if current = 34 then (engine.callbackData .parameterValue 0).enter .parameters else engine

def step (current : UInt8) : TemplateEngine :=
  match engine.state with
  | .normal => if current = 36 then engine.enter .dollar else engine
  | .dollar => engine.dollar current
  | .tagOpen => engine.tagOpen current
  | .parameters => engine.parameters current
  | .parameter => engine.parameter current
  | .parameterValue => engine.parameterValue current
  | .parameterValueString => engine.parameterValueString current

/-- The byte looked at before, or the next one of the buffer; the cycle breaks where there is none. -/
def next : Option (UInt8 × TemplateEngine) :=
  match engine.ahead with
  | some ahead => some (ahead, engine.unsetAhead)
  | none => match engine.rest with
    | [] => none
    | _ :: _ => some engine.getc

/-- What is left to be done: a byte of the buffer may be looked at and the end of it once more. -/
def weight : Nat :=
  3 * engine.rest.length + match engine.ahead with
    | none => 0
    | some ahead => if ahead = 255 then 1 else 2

@[simp] theorem weight_enter (state : TemplateEngineState) : (engine.enter state).weight = engine.weight := rfl

@[simp] theorem weight_mark (part : TemplateMark) (n : Nat) : (engine.mark part n).weight = engine.weight := rfl

@[simp] theorem weight_callback (call : TemplateCall) : (engine.callback call).weight = engine.weight := rfl

@[simp] theorem rest_callbackData (part : TemplateMark) (n : Nat) : (engine.callbackData part n).rest = engine.rest := by
  rw [callbackData]
  cases engine.marks part <;> rfl

@[simp] theorem ahead_callbackData (part : TemplateMark) (n : Nat) :
    (engine.callbackData part n).ahead = engine.ahead := by
  rw [callbackData]
  cases engine.marks part <;> rfl

@[simp] theorem rest_beginTag : engine.beginTag.rest = engine.rest := rest_callbackData _ _ _

@[simp] theorem rest_endTag : engine.endTag.rest = engine.rest := rest_callbackData _ _ _

@[simp] theorem ahead_endTag : engine.endTag.ahead = engine.ahead := ahead_callbackData _ _ _

theorem weight_of_none (h : engine.ahead = none) : engine.weight = 3 * engine.rest.length := by
  simp [weight, h]

theorem weight_unsetAhead : engine.unsetAhead.weight ≤ engine.weight := Nat.add_le_add_left (Nat.zero_le _) _

theorem weight_lookAhead : engine.lookAhead.weight ≤ 3 * engine.rest.length + 1 := by
  rw [lookAhead, getc, weight]
  cases h : engine.rest with
  | nil => simp [h]
  | cons current rest =>
      simp only [List.length_cons]
      split <;> omega

theorem weight_slash {ends goesOn : TemplateEngine → TemplateEngine}
    (hends : ∀ engine, (ends engine).weight = engine.weight) (hgoesOn : ∀ engine, (goesOn engine).weight = engine.weight) :
    (engine.slash ends goesOn).weight ≤ 3 * engine.rest.length + 1 := by
  have hlook := engine.weight_lookAhead
  simp only [slash]
  split
  · rw [hends]
    exact engine.lookAhead.weight_unsetAhead.trans hlook
  · rwa [hgoesOn]

@[simp] theorem weight_callbackData (part : TemplateMark) (n : Nat) :
    (engine.callbackData part n).weight = engine.weight := by
  simp [weight]

@[simp] theorem weight_endTag : engine.endTag.weight = engine.weight := by
  simp [weight]

/-- A step looks at no more than one byte, and at none behind the end of the file marker. -/
theorem weight_step {current : UInt8} (h : engine.ahead = none) :
    (engine.step current).weight ≤ 3 * engine.rest.length + if current = 255 then 0 else 1 := by
  have hstays := engine.weight_of_none h
  have hslash : ∀ {ends goesOn : TemplateEngine → TemplateEngine}, (∀ engine, (ends engine).weight = engine.weight) →
      (∀ engine, (goesOn engine).weight = engine.weight) → current = 47 →
      (engine.slash ends goesOn).weight ≤ 3 * engine.rest.length + if current = 255 then 0 else 1 := by
    intro ends goesOn hends hgoesOn hcurrent
    rw [hcurrent]
    exact engine.weight_slash hends hgoesOn
  rw [step]
  cases engine.state with
  | normal => dsimp only; split <;> simp [hstays]
  | dollar =>
      simp only [dollar]
      split
      · next hcurrent =>
          have hlook := engine.beginTag.weight_lookAhead
          rw [rest_beginTag] at hlook
          rw [hcurrent]
          split
          · exact (weight_unsetAhead (engine.beginTag.lookAhead.callback .tagCloseBegin)).trans hlook
          · exact hlook
      · simp [hstays]
  | tagOpen =>
      simp only [tagOpen]
      split
      · next hcurrent => exact hslash (by simp) (by simp) hcurrent
      · split_ifs <;> simp [hstays]
  | parameters =>
      simp only [parameters]
      split
      · next hcurrent => exact hslash (by simp) (by simp) hcurrent
      · split_ifs <;> simp [hstays]
  | parameter =>
      simp only [parameter]
      split
      · next hcurrent => exact hslash (by simp) (by simp) hcurrent
      · split_ifs <;> simp [hstays]
  | parameterValue =>
      simp only [parameterValue]
      split
      · next hcurrent => exact hslash (by simp) (by simp) hcurrent
      · split_ifs <;> simp [hstays]
  | parameterValueString =>
      simp only [parameterValueString]
      split <;> simp [hstays]
theorem weight_next {engine : TemplateEngine} {current : UInt8} {after : TemplateEngine}
    (h : engine.next = some (current, after)) :
    after.ahead = none ∧ 3 * after.rest.length + (if current = 255 then 0 else 1) < engine.weight := by
  rw [next] at h
  cases hahead : engine.ahead with
  | some ahead =>
      rw [hahead] at h
      obtain ⟨rfl, rfl⟩ := Prod.mk.inj (Option.some.inj h)
      refine ⟨rfl, ?_⟩
      rw [weight, hahead]
      dsimp only [unsetAhead]
      split_ifs <;> omega
  | none =>
      rw [hahead] at h
      cases hrest : engine.rest with
      | nil => simp [hrest] at h
      | cons byte rest =>
          simp only [hrest, getc] at h
          obtain ⟨rfl, rfl⟩ := Prod.mk.inj (Option.some.inj h)
          refine ⟨hahead, ?_⟩
          rw [weight, hahead, hrest, List.length_cons]
          split_ifs <;> grind

/-- The cycle over the buffer. -/
def run (engine : TemplateEngine) : TemplateEngine :=
  match _hnext : engine.next with
  | none => engine
  | some (current, after) => run (after.step current)
termination_by engine.weight
decreasing_by
  obtain ⟨hahead, hweight⟩ := weight_next _hnext
  exact (after.weight_step hahead).trans_lt hweight

/-- A dollar that the buffer ends on is the last character of the text. -/
def flush : TemplateEngine :=
  if engine.state = .normal ∨ engine.state = .dollar then engine.callbackData .textEnd 0 else engine

end TemplateEngine

/-- The calls that are made over the contents of a template. -/
def processBufferTemplateEngine (buffer : Bytes) : List TemplateCall :=
  (({ rest := buffer : TemplateEngine }.mark .textEnd 0).callback .textBegin).run.flush.calls

end Viriatum
