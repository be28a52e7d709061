import Viriatum.Lua.Handler
import Viriatum.Library.Traces

/-!
# The balance of the Lua stack

What the handler leaves on the stack of a Lua state, over the requests that the state serves.
-/

namespace Viriatum

open Http2Connection Library Library.Effect

abbrev LuaSlot := Slot LuaPurpose LuaValue

/-! ## What the operations do -/

section Operations

variable {Q : Unit → LuaState → Prop} {E : Unit → LuaState → Prop} {slots : List LuaSlot} {proper fileDirty : Bool}

@[simp] theorem wp_luaPush (purpose : LuaPurpose) (value : LuaValue) :
    wp (luaPush purpose value) Q E ⟨⟨slots, proper⟩, fileDirty⟩ =
      Q () ⟨⟨⟨purpose, value⟩ :: slots, proper⟩, fileDirty⟩ := rfl

@[simp] theorem wp_luaPop (count : Nat) :
    wp (luaPop count) Q E ⟨⟨slots, proper⟩, fileDirty⟩ =
      Q () ⟨⟨slots.drop count, proper && decide (count ≤ slots.length)⟩, fileDirty⟩ := rfl

@[simp] theorem wp_luaRemove (position : Nat) :
    wp (luaRemove position) Q E ⟨⟨slots, proper⟩, fileDirty⟩ =
      Q () ⟨⟨slots.eraseIdx (position - 1), proper⟩, fileDirty⟩ := rfl

@[simp] theorem wp_luaTake (count : Nat) (purpose : LuaPurpose) :
    wp (luaTake count purpose) Q E ⟨⟨slots, proper⟩, fileDirty⟩ =
      Q () ⟨(⟨slots, proper⟩ : Slots LuaPurpose LuaValue).take count purpose, fileDirty⟩ := rfl

@[simp] theorem wp_luaRead {Q : LuaValue → LuaState → Prop} (position : Nat) (purposes : List LuaPurpose) :
    wp (luaRead position purposes) Q E ⟨⟨slots, proper⟩, fileDirty⟩ =
      Q (((slots[position - 1]?).map Slot.value).getD .nil)
        ⟨(⟨slots, proper⟩ : Slots LuaPurpose LuaValue).read position purposes, fileDirty⟩ := rfl

@[simp] theorem wp_luaLookup (purpose : LuaPurpose) (answer : Option LuaValue) :
    wp (luaLookup purpose answer) Q E ⟨⟨slots, proper⟩, fileDirty⟩ =
      match answer with
      | some value => Q () ⟨⟨⟨purpose, value⟩ :: slots, proper⟩, fileDirty⟩
      | none => E () ⟨⟨slots, proper⟩, fileDirty⟩ := by
  cases answer <;> rfl

@[simp] theorem wp_luaSetField (table value : LuaPurpose) :
    wp (luaSetField table value) Q E ⟨⟨slots, proper⟩, fileDirty⟩ =
      Q () ⟨((⟨slots, proper⟩ : Slots LuaPurpose LuaValue).read 2 [table]).take 1 value, fileDirty⟩ := rfl

end Operations

/-! ## What the handler does -/

/-- Whether everything read so far was read from where it had been pushed; what is kept when a call does not return. -/
def LuaState.Proper (s : LuaState) : Prop := s.stack.proper = true

variable {base : List LuaSlot} {fileDirty : Bool}

theorem startEnvironLua_keeps (context : HandlerLuaContext) {E : Unit → LuaState → Prop} :
    wp (startEnvironLua context) (fun _ s => s = ⟨⟨⟨.environ, .table⟩ :: base, true⟩, fileDirty⟩) E
      ⟨⟨base, true⟩, fileDirty⟩ := by
  have hfields : ∀ fields (Q : Unit → LuaState → Prop), Q () ⟨⟨⟨.environ, .table⟩ :: base, true⟩, fileDirty⟩ →
      wp (pushFields fields) Q E ⟨⟨⟨.environ, .table⟩ :: base, true⟩, fileDirty⟩ := by
    intro fields
    induction fields with
    | nil => exact fun Q hQ => hQ
    | cons field fields ih =>
        intro Q hQ
        simpa [pushFields] using ih Q hQ
  simp only [startEnvironLua, wp_bind, wp_luaPush]
  apply hfields
  simp [luaInputPush]

/-! ## The fields of the response -/

def LuaValue.isNumber : LuaValue → Bool
  | .number _ _ => true
  | _ => false

/-- None of the names that are seen before the end of the table is a number. -/
def NoNumbers : List (Option (LuaValue × LuaValue)) → Prop
  | some (name, _) :: fields => name.isNumber = false ∧ NoNumbers fields
  | _ => True

/-- The string that Lua makes of a value. -/
def LuaValue.text : LuaValue → Option Bytes
  | .number _ text => some text
  | .string text => some text
  | _ => none

theorem wp_luaToString_top {slots : List LuaSlot} {Q : Option Bytes → LuaState → Prop} {E : Unit → LuaState → Prop}
    {value : LuaValue} {purpose : LuaPurpose}
    (hQ : ∀ slot, Q value.text ⟨⟨slot :: slots, true⟩, fileDirty⟩) :
    wp (luaToString 1 purpose) Q E ⟨⟨⟨purpose, value⟩ :: slots, true⟩, fileDirty⟩ := by
  cases value <;> simpa [luaToString, LuaValue.text] using hQ _

theorem wp_luaToString_name {top : LuaSlot} {slots : List LuaSlot} {Q : Option Bytes → LuaState → Prop}
    {E : Unit → LuaState → Prop} {name : LuaValue} (hname : name.isNumber = false)
    (hQ : Q name.text ⟨⟨top :: ⟨.headerName, name⟩ :: slots, true⟩, fileDirty⟩) :
    wp (luaToString 2 .headerName) Q E ⟨⟨top :: ⟨.headerName, name⟩ :: slots, true⟩, fileDirty⟩ := by
  cases name with
  | number integer text => cases hname
  | _ => simpa [luaToString, LuaValue.text] using hQ

theorem writeFieldsLua_keeps {iterator headers name : LuaValue} {fields : List (Option (LuaValue × LuaValue))}
    (h : NoNumbers fields) {Q : List (Bytes × Bytes) → LuaState → Prop}
    (hQ : none ∈ fields → ∀ written, Q written ⟨⟨⟨.iterator, iterator⟩ :: ⟨.headers, headers⟩ :: base, true⟩, fileDirty⟩) :
    wp (writeFieldsLua fields) Q (fun _ s => s.Proper)
      ⟨⟨⟨.headerName, name⟩ :: ⟨.iterator, iterator⟩ :: ⟨.headers, headers⟩ :: base, true⟩, fileDirty⟩ := by
  induction fields generalizing name Q with
  | nil => simp [writeFieldsLua, LuaState.Proper]
  | cons field fields ih =>
      simp only [writeFieldsLua, wp_bind, wp_luaRead, Slots.read_mk, wp_luaTake, Slots.take_mk]
      cases field with
      | none => simpa using hQ List.mem_cons_self []
      | some field =>
          simp only [wp_bind, wp_luaPush]
          apply wp_luaToString_name h.1
          apply wp_luaToString_top
          intro slot
          simp only [wp_luaPop]
          apply ih h.2
          intro hend written
          have hmem : none ∈ some field :: fields := List.mem_cons_of_mem _ hend
          split <;> exact hQ hmem _

/-! ## The pieces of the body -/

/-- The piece that is added for a string, which is none without bytes. -/
def textChunk : Option Bytes → List Bytes
  | some (byte :: text) => [byte :: text]
  | _ => []

/-- The pieces that are added before the end of the body. -/
def gathered : List (Option LuaValue) → List Bytes
  | some piece :: pieces => if piece = .nil then [] else textChunk piece.text ++ gathered pieces
  | _ => []

/-- The end of the body is seen: the function fails or gives nil. -/
def Ends (pieces : List (Option LuaValue)) : Prop := none ∈ pieces ∨ some .nil ∈ pieces

/-- The buffer keeps nothing on the stack after any of the pieces. -/
def LuaLibrary.OffStack (library : LuaLibrary) (added pieces : List Bytes) : Prop :=
  ∀ part, part <+: pieces → library.kept (added ++ part) = 0

variable {library : LuaLibrary}

theorem LuaLibrary.OffStack.now {added pieces : List Bytes} (h : library.OffStack added pieces) :
    library.kept added = 0 := by
  simpa using h [] List.nil_prefix

theorem LuaLibrary.OffStack.next {added chunk pieces : List Bytes} (h : library.OffStack added (chunk ++ pieces)) :
    library.OffStack (added ++ chunk) pieces := by
  intro part hpart
  rw [List.append_assoc]
  exact h _ ((List.prefix_append_right_inj chunk).mpr hpart)

theorem collectPiecesLua_keeps {iterator : LuaValue} {pieces : List (Option LuaValue)} {added : List Bytes}
    (h : library.OffStack added (gathered pieces)) {Q : List Bytes → LuaState → Prop}
    (hQ : Ends pieces → Q (added ++ gathered pieces) ⟨⟨⟨.iterator, iterator⟩ :: base, true⟩, fileDirty⟩) :
    wp (collectPiecesLua library pieces added) Q (fun _ s => s.Proper)
      ⟨⟨⟨.iterator, iterator⟩ :: base, true⟩, fileDirty⟩ := by
  induction pieces generalizing added Q with
  | nil => simp [collectPiecesLua, LuaState.Proper]
  | cons piece pieces ih =>
      cases piece with
      | none => simpa [collectPiecesLua, gathered, Ends] using hQ
      | some piece =>
          simp only [collectPiecesLua, wp_bind, wp_luaRead, Slots.read_mk, wp_luaTake, Slots.take_mk, wp_luaPush, wp_ite]
          by_cases hnil : piece = .nil
          · simpa [gathered, Ends, hnil] using hQ
          · have hgathered : gathered (some piece :: pieces) = textChunk piece.text ++ gathered pieces := by
              simp [gathered, hnil]
            rw [hgathered] at h
            have hnext : Ends pieces → Q (added ++ textChunk piece.text ++ gathered pieces)
                ⟨⟨⟨.iterator, iterator⟩ :: base, true⟩, fileDirty⟩ := by
              intro hend
              rw [List.append_assoc, ← hgathered]
              exact hQ (hend.imp (List.mem_cons_of_mem _) (List.mem_cons_of_mem _))
            have hnow := h.now
            have hmore := ih h.next hnext
            simp only [hnil, List.getElem?_cons_zero, Nat.sub_self, Option.map_some, Option.getD_some, if_false,
              List.drop_succ_cons, List.drop_zero]
            apply wp_luaToString_top
            intro slot
            cases htext : piece.text with
            | none => simpa [textChunk, htext] using hmore
            | some text =>
                cases text with
                | nil => simpa [textChunk, htext] using hmore
                | cons byte text =>
                    have hchunk : textChunk piece.text = [byte :: text] := by rw [htext, textChunk]
                    rw [hchunk] at h hmore
                    simpa [hnow, h.next.now] using hmore

theorem gathered_nonempty {pieces : List (Option LuaValue)} {piece : Bytes} (h : piece ∈ gathered pieces) :
    0 < piece.length := by
  induction pieces with
  | nil => cases h
  | cons first pieces ih =>
      cases first with
      | none => cases h
      | some first =>
          rw [gathered] at h
          split at h
          · cases h
          · cases List.mem_append.mp h with
            | inl hfirst =>
                unfold textChunk at hfirst
                split at hfirst
                · simp [List.mem_singleton.mp hfirst]
                · cases hfirst
            | inr hlater => exact ih hlater

theorem gathered_length {pieces : List (Option LuaValue)} (h : gathered pieces ≠ []) :
    0 < (gathered pieces).flatten.length := by
  obtain ⟨piece, hmem⟩ := List.exists_mem_of_ne_nil _ h
  obtain ⟨byte, hbyte⟩ := List.exists_mem_of_length_pos (gathered_nonempty hmem)
  exact List.length_pos_of_mem (List.mem_flatten.mpr ⟨piece, hmem, hbyte⟩)

/-! ## The whole of a response -/

/-- What the fields and the pieces of a response are to be for the stack to be as it was once it has been gathered: no name
that is a number, some byte in the body that a function gives, and a buffer that keeps nothing on the stack. -/
structure LuaScript.Fits (library : LuaLibrary) (script : LuaScript) (headers iterator : LuaValue) : Prop where
  names : headers = .table → NoNumbers script.fields
  kept : (headers = .table → none ∈ script.fields) → iterator = .function →
    library.OffStack [] (gathered script.pieces)
  bytes : (headers = .table → none ∈ script.fields) → iterator = .function → Ends script.pieces →
    gathered script.pieces ≠ []

variable {script : LuaScript} {status headers iterator : LuaValue}

theorem collectBodyLua_keeps {Q : Nat → LuaState → Prop}
    (hkept : iterator = .function → library.OffStack [] (gathered script.pieces))
    (hnone : iterator ≠ .function → Q 0 ⟨⟨⟨.iterator, iterator⟩ :: base, true⟩, fileDirty⟩)
    (hbody : iterator = .function → Ends script.pieces → ∀ body, Q (gathered script.pieces).flatten.length
      ⟨⟨⟨.body, body⟩ :: ⟨.iterator, iterator⟩ :: base, true⟩, fileDirty⟩) :
    wp (collectBodyLua library script) Q (fun _ s => s.Proper) ⟨⟨⟨.iterator, iterator⟩ :: base, true⟩, fileDirty⟩ := by
  by_cases hfunction : iterator = .function
  · have hoff := hkept hfunction
    simp [collectBodyLua, hfunction, hoff.now]
    apply collectPiecesLua_keeps hoff
    intro hend
    have hlast : library.kept (gathered script.pieces) = 0 := hoff _ List.prefix_rfl
    simpa [hlast, hfunction] using hbody hfunction hend _
  · simpa [collectBodyLua, hfunction] using hnone hfunction

theorem takeBodyLua_keeps {Q : Bytes → LuaState → Prop}
    (hkept : iterator = .function → library.OffStack [] (gathered script.pieces))
    (hbytes : iterator = .function → Ends script.pieces → gathered script.pieces ≠ [])
    (hQ : ∀ body, Q body ⟨⟨base, true⟩, fileDirty⟩) :
    wp (takeBodyLua library script) Q (fun _ s => s.Proper)
      ⟨⟨⟨.iterator, iterator⟩ :: ⟨.headers, headers⟩ :: ⟨.status, status⟩ :: base, true⟩, fileDirty⟩ := by
  simp only [takeBodyLua, wp_bind]
  apply collectBodyLua_keeps hkept
  · intro hnot
    simpa using hQ []
  · intro hfunction hend body
    have hlength := gathered_length (hbytes hfunction hend)
    simp only [gt_iff_lt, hlength, if_true, wp_bind]
    apply wp_luaToString_top
    intro slot
    simpa using hQ _

theorem sendReplyLua_keeps (h : script.Fits library headers iterator) :
    wp (sendReplyLua library script) (fun _ s => s = ⟨⟨base, true⟩, fileDirty⟩) (fun _ s => s.Proper)
      ⟨⟨⟨.iterator, iterator⟩ :: ⟨.headers, headers⟩ :: ⟨.status, status⟩ :: base, true⟩, fileDirty⟩ := by
  by_cases htable : headers = .table
  · simp [sendReplyLua, htable]
    apply writeFieldsLua_keeps (h.names htable)
    intro hend written
    exact takeBodyLua_keeps (h.kept fun _ => hend) (h.bytes fun _ => hend) (fun _ => rfl)
  · simp [sendReplyLua, htable]
    have habsent : headers = .table → none ∈ script.fields := fun hsame => absurd hsame htable
    exact takeBodyLua_keeps (h.kept habsent) (h.bytes habsent) (fun _ => rfl)

/-! ## The whole of a request -/

/-- A script that is loaded returns one value, if it does not fail. -/
def LuaScript.Loads (script : LuaScript) : Prop := ∀ values, script.file = some values → values.length = 1

/-- A function to run is found. -/
def LuaScript.Runs (script : LuaScript) : Prop :=
  script.run = some .function ∨
    script.run = some .nil ∧ script.application ≠ some .nil ∧ script.applicationRun = some .function

/-- What a script is to do for the stack to be balanced: one that is loaded returns one value, and the response of one that
is run is as it is to be. -/
structure LuaState.Meets (library : LuaLibrary) (s : LuaState) (script : LuaScript) : Prop where
  loads : s.fileDirty = true → script.Loads
  fits : (s.fileDirty = true → script.file ≠ none) → script.Runs → ∀ status headers iterator,
    script.response = some (status, headers, iterator) → script.Fits library headers iterator

theorem loadFileLua_keeps (hloads : fileDirty = true → script.Loads) {Q : Option String → LuaState → Prop}
    (hnone : (fileDirty = true → script.file ≠ none) → Q none ⟨⟨base, true⟩, false⟩)
    (hsome : ∀ message, Q (some message) ⟨⟨[], true⟩, true⟩) :
    wp (loadFileLua script) Q (fun _ s => s.Proper) ⟨⟨base, true⟩, fileDirty⟩ := by
  cases fileDirty with
  | false => simpa [loadFileLua] using hnone (by simp)
  | true =>
      cases hfile : script.file with
      | none => simpa [loadFileLua, hfile] using hsome _
      | some values =>
          obtain ⟨value, rfl⟩ := List.length_eq_one_iff.mp (hloads rfl values hfile)
          have hnext := hnone (by simp [hfile])
          by_cases htable : value = .table
          · simpa [loadFileLua, hfile, htable] using hnext
          · simpa [loadFileLua, hfile, htable, Slots.depth] using hnext

theorem findRunLua_keeps {Q : Bool → LuaState → Prop}
    (hfound : script.Runs → Q true ⟨⟨⟨.run, .function⟩ :: base, true⟩, fileDirty⟩)
    (hnot : ∀ slot, Q false ⟨⟨slot :: base, true⟩, fileDirty⟩) :
    wp (findRunLua script) Q (fun _ s => s.Proper) ⟨⟨base, true⟩, fileDirty⟩ := by
  have hread : ∀ value, (value = .function → script.Runs) →
      Q (decide (value = .function)) ⟨⟨⟨.run, value⟩ :: base, true⟩, fileDirty⟩ := by
    intro value hruns
    by_cases hvalue : value = .function
    · subst hvalue
      exact hfound (hruns rfl)
    · simpa [hvalue] using hnot _
  simp only [findRunLua, wp_bind, wp_luaLookup]
  cases hrun : script.run with
  | none => rfl
  | some run =>
      simp only [wp_luaRead, Slots.read_mk, wp_ite]
      by_cases hnil : run = .nil
      · subst hnil
        simp
        cases happlication : script.application with
        | none => rfl
        | some application =>
            simp
            by_cases happ : application = .nil
            · simpa [happ] using hnot _
            · simp [happ]
              cases hfield : script.applicationRun with
              | none => rfl
              | some value =>
                  simp
                  have hvalue := hread value (fun hsame => .inr ⟨hrun, by simp [happlication, happ], by rw [hfield, hsame]⟩)
                  simpa using hvalue
      · simp [hnil]
        have hvalue := hread run (fun hsame => .inl (by rw [hrun, hsame]))
        simpa using hvalue

/-- What holds of the state once a request has been served. -/
theorem sendResponseHandlerLua_keeps (context : HandlerLuaContext)
    (h : LuaState.Meets library ⟨⟨[], true⟩, fileDirty⟩ script) :
    wp (sendResponseHandlerLua library context script) (fun _ s => s.stack = ⟨[], true⟩) (fun _ s => s.Proper)
      ⟨⟨[], true⟩, fileDirty⟩ := by
  simp only [sendResponseHandlerLua, wp_bind]
  apply loadFileLua_keeps h.loads
  · intro hloaded
    simp only [wp_bind]
    apply findRunLua_keeps
    · intro hruns
      simp only [if_true, wp_bind]
      apply wp.mono (startEnvironLua_keeps context (E := fun _ s => s.Proper)) ?_ (fun _ _ hE => hE)
      rintro _ _ rfl
      cases hresponse : script.response with
      | none => simp
      | some response =>
          obtain ⟨status, headers, iterator⟩ := response
          have hfits := h.fits hloaded hruns status headers iterator hresponse
          simp
          apply wp.mono (sendReplyLua_keeps hfits) ?_ (fun _ _ hE => hE)
          rintro _ _ rfl
          rfl
    · intro slot
      simp
  · intro message
    rfl

/-! ## The requests that a state serves -/

/-- A Lua state, until a call of the handler does not return. -/
structure LuaService where
  state : LuaState := {}
  running : Bool := true
deriving DecidableEq, Repr

namespace LuaService

def serve (library : LuaLibrary) (r : LuaService) (request : HandlerLuaContext × LuaScript) : LuaService :=
  if r.running then
    match (sendResponseHandlerLua library request.1 request.2).run r.state with
    | (.ok _, state) => { state, running := true }
    | (.error _, state) => { state, running := false }
  else r

/-- A request reads nothing from where it was not pushed, and leaves the stack as deep as it was. -/
def Keeps (library : LuaLibrary) (r : LuaService) (request : HandlerLuaContext × LuaScript) : Prop :=
  (r.serve library request).state.Proper ∧
    ((r.serve library request).running = true →
      (r.serve library request).state.stack.depth = r.state.stack.depth)

/-- The stack is empty between the requests. -/
def Empty (r : LuaService) : Prop := r.state.Proper ∧ (r.running = true → r.state.stack = ⟨[], true⟩)

theorem serve_empty {r : LuaService} {request : HandlerLuaContext × LuaScript} (h : r.Empty)
    (hmeets : r.running = true → r.state.Meets library request.2) : (r.serve library request).Empty := by
  by_cases hrunning : r.running = true
  · obtain ⟨⟨stack, fileDirty⟩, running⟩ := r
    have hstack : stack = ⟨[], true⟩ := h.2 hrunning
    change running = true at hrunning
    subst hstack hrunning
    have hkeeps := sendResponseHandlerLua_keeps request.1 (hmeets rfl)
    simp only [serve, if_true]
    unfold wp at hkeeps
    split at hkeeps
    case h_1 a s' hrun =>
      rw [hrun]
      exact ⟨by rw [LuaState.Proper, hkeeps], fun _ => hkeeps⟩
    case h_2 e s' hrun =>
      rw [hrun]
      exact ⟨hkeeps, by simp⟩
  · simpa [serve, hrunning] using h

/-- Over the requests that a Lua state serves, each with a script that does what it is to do, every request keeps the
stack. -/
theorem stack_balanced (library : LuaLibrary) (requests : List (HandlerLuaContext × LuaScript))
    (h : Throughout (serve library) (fun r request => r.running = true → r.state.Meets library request.2) {} requests) :
    ∀ earlier request, earlier ++ [request] <+: requests → (earlier.foldl (serve library) {}).Keeps library request := by
  rintro earlier request ⟨later, rfl⟩
  have hbefore := throughout_append.mp (throughout_append.mp h).1
  have hempty : Empty (earlier.foldl (serve library) {}) :=
    hbefore.1.invariant (fun _ _ => serve_empty) ⟨rfl, fun _ => rfl⟩
  have hafter := serve_empty hempty hbefore.2.1
  refine ⟨hafter.1, fun hrunning => ?_⟩
  have hrunning' : (earlier.foldl (serve library) {}).running = true := by
    by_contra hnot
    rw [serve, if_neg hnot] at hrunning
    exact hnot hrunning
  rw [hafter.2 hrunning, hempty.2 hrunning']

/-- A request without fields or a body, for a buffer that keeps nothing on the stack. -/
def emptyContext : HandlerLuaContext :=
  { method := bytes "GET", headers := [], prefixName := [], fileName := [], query := [], serverName := [], port := [],
    contentType := [], contentLength := [] }

def idleLibrary : LuaLibrary := ⟨fun _ => 0, fun _ => 0⟩

/-- The script of a module that answers with the pieces, and with a field. -/
def moduleScript (pieces : List (Option LuaValue)) : LuaScript :=
  { file := some [.table], run := some .nil, application := some .table, applicationRun := some .function,
    response := some (.number 302 (bytes "302"), .table, .function),
    fields := [some (.string (bytes "Location"), .string (bytes "/")), none], pieces }

/-- A response with a body of two pieces. -/
theorem stack_balanced_pieces :
    ({} : LuaService).Keeps idleLibrary
      (emptyContext, moduleScript [some (.string [97]), some (.string [98, 99]), some .nil]) := by
  have hmeets : Throughout (serve idleLibrary)
      (fun r request => r.running = true → r.state.Meets idleLibrary request.2) {}
      [(emptyContext, moduleScript [some (.string [97]), some (.string [98, 99]), some .nil])] := by
    refine ⟨fun _ => ⟨?_, ?_⟩, trivial⟩
    · intro _ values hvalues
      cases hvalues
      rfl
    · intro _ _ status headers iterator hresponse
      cases hresponse
      refine ⟨fun _ => by simp [moduleScript, NoNumbers, LuaValue.isNumber], fun _ _ _ _ => rfl, fun _ _ _ => ?_⟩
      simp [moduleScript, gathered, textChunk, LuaValue.text]
  exact stack_balanced idleLibrary _ hmeets [] _ List.prefix_rfl

/-- A redirection whose function gives no piece leaves a value on the stack. -/
theorem not_stack_balanced : ¬ ∀ (library : LuaLibrary) (requests : List (HandlerLuaContext × LuaScript)) earlier request,
    earlier ++ [request] <+: requests → (earlier.foldl (serve library) {}).Keeps library request := by
  intro h
  have hkeeps := h idleLibrary [(emptyContext, moduleScript [some .nil])] [] _ List.prefix_rfl
  have hrunning : (({} : LuaService).serve idleLibrary (emptyContext, moduleScript [some .nil])).running = true := by decide +kernel
  have hdepth := hkeeps.2 hrunning
  revert hdepth
  decide +kernel

end LuaService

end Viriatum
