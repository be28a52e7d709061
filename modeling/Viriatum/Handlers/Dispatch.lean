import Viriatum.Handlers.FilePath

/-!
# Dispatch

The url callback of the dispatch handler: the location of a request is the first one whose expression matches the path,
and the handler of the location is notified in place of the dispatch handler. For a path that ends in a slash an index
file is looked for, and with it the path is matched once more.
-/

namespace Viriatum

open Http2Connection

/-- A location of the service, and the name of the handler of it. -/
structure Location (ρ : Type) where
  expression : ρ
  handler : Bytes
deriving DecidableEq

structure HttpHandler where
  resolveIndex : Bool
deriving DecidableEq

/-- The service, as far as the dispatch of a request goes, with the engine of the expressions and the files that are
there to be accessed. The engine gives back where a match starts and where it ends. -/
structure DispatchService (ρ : Type) where
  locations : List (Location ρ)
  httpHandlersMap : Bytes → Option HttpHandler
  contentsPath : CString
  defaultIndex : Bool
  index : List CString
  pcreExec : ρ → Bytes → Option (Nat × Nat)
  access : Bytes → Bool

def dispatchDefaultHandler : Bytes := bytes "file"

/-- The variables that the loops over the expressions leave. -/
structure Selection where
  handlerName : Bytes := dispatchDefaultHandler
  regexMatch : Bool := false
  index : Nat := 0
  matchSize : Nat := 0
deriving DecidableEq, Repr

/-- The selection for a request, and the handler that is to be notified; there is none behind the missing one of a path
as it has come, and there may be none behind the one of an index file. -/
inductive Dispatched where
  | missing (path : Bytes) (selection : Selection)
  | found (path : Bytes) (selection : Selection) (handler : Option HttpHandler)
deriving DecidableEq

namespace Dispatched

def path : Dispatched → Bytes
  | .missing path _ => path
  | .found path _ _ => path

def selection : Dispatched → Selection
  | .missing _ selection => selection
  | .found _ selection _ => selection

end Dispatched

/-- The notifications of the handler of a location. A virtual url is a position in the target and a size. -/
inductive DispatchCall where
  | messageBegin
  | url (data : Bytes)
  | path (data : Bytes)
  | location (index offset : Nat)
  | virtualUrl (start size : Nat)
deriving DecidableEq

inductive DispatchOutcome where
  | missing (context : Bytes)
  | notified (handlerName : Bytes) (calls : List DispatchCall)
deriving DecidableEq

/-- The difference of two sizes, which wraps around below zero. -/
def sizeSub (size size' : Nat) : Nat := if size' ≤ size then size - size' else 2 ^ 64 - (size' - size)

/-- Prints a string into a buffer of the given size. -/
def printInto (size : Nat) (string : Bytes) : Except Fault Bytes :=
  if string.length < size then .ok string else .error .outOfBounds

/-- The target of a request up to its parameters. -/
def targetPath (data : Bytes) : Bytes := data.takeWhile (· ≠ 63)

namespace DispatchService

variable {ρ : Type} (service : DispatchService ρ)

/-- The loop over the expressions that are left, from the index that it has come to. -/
def matchFrom (path : Bytes) : List (Location ρ) → Nat → Selection → Selection
  | [], index, selection => { selection with index }
  | location :: rest, index, selection =>
      match service.pcreExec location.expression path with
      | none => matchFrom path rest (index + 1) selection
      | some (_, stop) => { handlerName := location.handler, regexMatch := true, index, matchSize := stop }

def matchRegex (path : Bytes) (selection : Selection) : Selection :=
  service.matchFrom path service.locations 0 selection

/-- The first of the names that is the one of a file under the base path. -/
def validateFile (basePath : Bytes) : List CString → Except Fault (Option Bytes)
  | [] => .ok none
  | name :: names => do
      let filePath ← printInto maxPathSize (basePath ++ bytes "/" ++ name.val)
      if service.access filePath then .ok (some name.val) else validateFile basePath names

/-- The name of the index file that is to be appended to the path; the path is the one that has come, not decoded. -/
def indexFile (handler : HttpHandler) (path : Bytes) : Except Fault (Option Bytes) :=
  if handler.resolveIndex ∧ service.defaultIndex ∧ (path = [] ∨ path.getLast? = some 47) then do
    let basePath ← printInto maxUrlSize (service.contentsPath.val ++ cString path)
    service.validateFile basePath service.index
  else .ok none

/-- Matches the path with the name of an index file behind it; what no expression sets is left as it is. -/
def rematch (handler : HttpHandler) (path name : Bytes) (selection : Selection) : Except Fault Dispatched := do
  let path ← printInto maxUrlSize (path ++ name)
  let selection' := service.matchRegex path selection
  .ok (.found path selection'
    (if selection'.index ≠ selection.index then service.httpHandlersMap selection'.handlerName else some handler))

/-- Selects the location of a target. -/
def select (data : Bytes) : Except Fault Dispatched := do
  let path ← printInto maxUrlSize (targetPath data)
  let selection := service.matchRegex path {}
  match service.httpHandlersMap selection.handlerName with
  | none => .ok (.missing path selection)
  | some handler => do
      match ← service.indexFile handler path with
      | none => .ok (.found path selection (some handler))
      | some name => service.rematch handler path name selection

/-- Where the virtual url starts: at the end of the match, or at the slash that the match ends in. The byte is looked for
in the target, behind which there are other bytes. -/
def virtualUrlOffset (data behind : Bytes) (matchSize : Nat) : Except Fault Nat :=
  if 0 < matchSize then
    match (data ++ behind)[matchSize - 1]? with
    | none => .error .outOfBounds
    | some byte => .ok (if byte = 47 then matchSize - 1 else matchSize)
  else .ok matchSize

/-- The notifications about the location, when there has been a match. -/
def locationCalls (data behind : Bytes) (selection : Selection) : Except Fault (List DispatchCall) :=
  if selection.regexMatch then do
    let offset ← virtualUrlOffset data behind selection.matchSize
    .ok [.location selection.index offset, .virtualUrl offset (sizeSub data.length offset)]
  else .ok []

def urlCallback (data behind : Bytes) : Except Fault DispatchOutcome := do
  match ← service.select data with
  | .missing path _ => .ok (.missing path)
  | .found _ _ none => .error .unset
  | .found path selection (some _) => do
      let calls ← locationCalls data behind selection
      .ok (.notified selection.handlerName (.messageBegin :: .url data :: .path path :: calls))

/-! ## What is selected -/

def Matches (location : Location ρ) (path : Bytes) : Prop :=
  (service.pcreExec location.expression path).isSome

instance (location : Location ρ) (path : Bytes) : Decidable (service.Matches location path) :=
  inferInstanceAs (Decidable (_ = true))

/-- The location at the index is the first one that matches the path. -/
structure First (path : Bytes) (index : Nat) (location : Location ρ) : Prop where
  configured : service.locations[index]? = some location
  matched : service.Matches location path
  earlier : ∀ index' < index, ∀ location', service.locations[index']? = some location' →
    ¬ service.Matches location' path

theorem matchFrom_cases (path : Bytes) (locations : List (Location ρ)) (index : Nat) (selection : Selection) :
    (∃ position location start stop, locations[position]? = some location ∧
        service.pcreExec location.expression path = some (start, stop) ∧
        (∀ position' < position, ∀ location', locations[position']? = some location' →
          ¬ service.Matches location' path) ∧
        service.matchFrom path locations index selection =
          { handlerName := location.handler, regexMatch := true, index := index + position, matchSize := stop }) ∨
      ((∀ location ∈ locations, ¬ service.Matches location path) ∧
        service.matchFrom path locations index selection =
          { selection with index := index + locations.length }) := by
  induction locations generalizing index with
  | nil => exact .inr ⟨by simp, rfl⟩
  | cons location rest ih =>
      cases hexec : service.pcreExec location.expression path with
      | some span =>
          refine .inl ⟨0, location, span.1, span.2, rfl, hexec, by simp, ?_⟩
          simp [matchFrom, hexec]
      | none =>
          have hnot : ¬ service.Matches location path := by simp [Matches, hexec]
          have hloop : service.matchFrom path (location :: rest) index selection =
              service.matchFrom path rest (index + 1) selection := by simp [matchFrom, hexec]
          rw [hloop]
          rcases ih (index + 1) with ⟨position, location', start, stop, hget, hspan, hearlier, heq⟩ | ⟨hnone, heq⟩
          · refine .inl ⟨position + 1, location', start, stop, hget, hspan, ?_, ?_⟩
            · intro position' hlt location'' hget'
              cases position' with
              | zero =>
                  obtain rfl : location = location'' := by simpa using hget'
                  exact hnot
              | succ position' => exact hearlier position' (by omega) location'' hget'
            · rw [heq, Nat.add_right_comm, Nat.add_assoc]
          · refine .inr ⟨by simpa using ⟨hnot, hnone⟩, ?_⟩
            rw [heq, List.length_cons, Nat.add_assoc, Nat.add_comm 1]

/-- The loop selects the first location that matches, or leaves everything but the index. -/
theorem matchRegex_cases (path : Bytes) (selection : Selection) :
    (∃ index location start stop, service.First path index location ∧
        service.pcreExec location.expression path = some (start, stop) ∧
        service.matchRegex path selection =
          { handlerName := location.handler, regexMatch := true, index, matchSize := stop }) ∨
      ((∀ location ∈ service.locations, ¬ service.Matches location path) ∧
        service.matchRegex path selection = { selection with index := service.locations.length }) := by
  rcases service.matchFrom_cases path service.locations 0 selection with
    ⟨index, location, start, stop, hget, hspan, hearlier, heq⟩ | ⟨hnone, heq⟩
  · refine .inl ⟨index, location, start, stop, ⟨hget, by simp [Matches, hspan], hearlier⟩, hspan, ?_⟩
    rw [matchRegex, heq, Nat.zero_add]
  · refine .inr ⟨hnone, ?_⟩
    rw [matchRegex, heq, Nat.zero_add]

theorem First.unique {path : Bytes} {index index' : Nat} {location location' : Location ρ}
    (h : service.First path index location) (h' : service.First path index' location') :
    index = index' ∧ location = location' := by
  have hindex : index = index' := by
    rcases Nat.lt_trichotomy index index' with hlt | heq | hgt
    · exact absurd h.matched (h'.earlier index hlt location h.configured)
    · exact heq
    · exact absurd h'.matched (h.earlier index' hgt location' h'.configured)
  subst hindex
  have := h.configured
  rw [h'.configured, Option.some.injEq] at this
  exact ⟨rfl, this.symm⟩

end DispatchService

end Viriatum
