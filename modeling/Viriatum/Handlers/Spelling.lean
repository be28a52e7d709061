import Viriatum.Handlers.Confinement
import Viriatum.Handlers.Locations

/-!
# Spellings of a target

The location is selected for the target as it has come, and the file is opened for the decoded one: two targets that
name the same file go to the same location exactly when the expressions tell no difference between the paths they are
matched with.
-/

namespace Viriatum

open Http2Connection

/-- The targets have the same path once they are decoded. -/
def SameFile (data data' : Bytes) : Prop :=
  ∃ decoded, percentDecode (targetPath data) = some decoded ∧ percentDecode (targetPath data') = some decoded

/-- The file that the handler of the files opens for a target under the path of the contents. -/
def Opens (options : FileOptions) (data path : Bytes) : Prop :=
  ∃ context events, ({} : FileContext).run options [.url data, .messageComplete] = .ok (context, events) ∧
    .opened path ∈ events

theorem opens_of_decode {options : FileOptions} {data decoded : Bytes}
    (hfits : FileContext.TargetFits options.contentsPath (targetPath data))
    (hdecoded : percentDecode (targetPath data) = some decoded) :
    Opens options data (options.contentsPath.val ++ cString decoded) := by
  obtain ⟨context, error, decoded', hset, hdecoded', -, hholds, -⟩ :=
    FileContext.setTarget_eq FileContext.sized_fresh hfits
  obtain rfl : decoded = decoded' := by simpa [hdecoded] using hdecoded'
  have hurl : ({} : FileContext).urlCallback options data = .ok (context, error) := hset
  refine ⟨context, error.toList.map .refused ++ [.opened (options.contentsPath.val ++ cString decoded)], ?_, by simp⟩
  simp [FileContext.run, FileContext.step, hurl, FileContext.ignoreError, FileContext.messageCompleteCallback,
    hholds.readString, bind, Except.bind]

/-- Targets that name the same file have the same file opened for them. -/
theorem SameFile.opens {options : FileOptions} {data data' : Bytes} (h : SameFile data data')
    (hfits : FileContext.TargetFits options.contentsPath (targetPath data))
    (hfits' : FileContext.TargetFits options.contentsPath (targetPath data')) :
    ∃ path, Opens options data path ∧ Opens options data' path := by
  obtain ⟨decoded, hdecoded, hdecoded'⟩ := h
  exact ⟨_, opens_of_decode hfits hdecoded, opens_of_decode hfits' hdecoded'⟩

/-- The location that is notified, if any, and the handler that it is notified to. -/
def Selection.location (selection : Selection) : Option Nat × Bytes :=
  (if selection.regexMatch then some selection.index else none, selection.handlerName)

namespace DispatchService

variable {ρ : Type} (service : DispatchService ρ)

/-- The targets go to the same location of the same handler. -/
def SameLocation (data data' : Bytes) : Prop :=
  ∀ dispatched dispatched', service.select data = .ok dispatched → service.select data' = .ok dispatched' →
    dispatched.selection.location = dispatched'.selection.location

/-- Two targets that name the same file go to the same location. -/
def KeepsLocation (data data' : Bytes) : Prop := SameFile data data' → service.SameLocation data data'

/-- Up to the first expression that matches one of the paths, the expressions match both or neither. -/
def SameVerdicts (path path' : Bytes) : Prop :=
  ∀ (index : Nat) location, service.locations[index]? = some location →
    (∀ index' < index, ∀ location', service.locations[index']? = some location' →
      ¬ service.Matches location' path ∧ ¬ service.Matches location' path') →
    (service.Matches location path ↔ service.Matches location path')

/-- The handler of the first location that matches the target as it has come. -/
def firstHandler (data : Bytes) : Option Bytes :=
  (service.locations.find? fun location => service.Matches location (targetPath data)).map Location.handler

/-- The expressions tell no difference between the paths that are matched last; where none matches these, the ones that
match the targets, if any, are of the same handler. -/
def Indifferent (data data' : Bytes) : Prop :=
  ∀ path path', service.FinalPath data path → service.FinalPath data' path' →
    service.SameVerdicts path path' ∧
      ((∀ location ∈ service.locations, ¬ service.Matches location path) →
        service.firstHandler data = service.firstHandler data')

/-! ## The first match of two paths -/

theorem SameVerdicts.symm {service : DispatchService ρ} {path path' : Bytes} (h : service.SameVerdicts path path') :
    service.SameVerdicts path' path := fun index location hget hearlier =>
  (h index location hget fun index' hlt location' hget' => (hearlier index' hlt location' hget').symm).symm

/-- What matches neither path up to a location has matched neither one by one. -/
theorem SameVerdicts.earlier {service : DispatchService ρ} {path path' : Bytes} (h : service.SameVerdicts path path') {index : Nat}
    (hnone : ∀ index' < index, ∀ location', service.locations[index']? = some location' →
      ¬ service.Matches location' path) :
    ∀ index' < index, ∀ location', service.locations[index']? = some location' →
      ¬ service.Matches location' path ∧ ¬ service.Matches location' path' := by
  intro index'
  induction index' using Nat.strong_induction_on with
  | _ index' ih =>
      intro hlt location' hget
      have hpath := hnone index' hlt location' hget
      have hverdict := h index' location' hget fun position hposition => ih position hposition (hposition.trans hlt)
      exact ⟨hpath, fun hmatch => hpath (hverdict.mpr hmatch)⟩

theorem SameVerdicts.first {service : DispatchService ρ} {path path' : Bytes} (h : service.SameVerdicts path path') {index : Nat}
    {location : Location ρ} (hfirst : service.First path index location) : service.First path' index location := by
  have hearlier := h.earlier hfirst.earlier
  exact ⟨hfirst.configured, (h index location hfirst.configured hearlier).mp hfirst.matched,
    fun index' hlt location' hget => (hearlier index' hlt location' hget).2⟩

theorem first_or_none (path : Bytes) : (∃ index location, service.First path index location) ∨
    ∀ location ∈ service.locations, ¬ service.Matches location path := by
  rcases service.matchRegex_cases path {} with ⟨index, location, -, -, hfirst, -⟩ | ⟨hnone, -⟩
  · exact .inl ⟨index, location, hfirst⟩
  · exact .inr hnone

theorem First.not_none {service : DispatchService ρ} {path : Bytes} {index : Nat} {location : Location ρ}
    (h : service.First path index location) : ¬ ∀ location ∈ service.locations, ¬ service.Matches location path :=
  fun hnone => hnone location (List.mem_of_getElem? h.configured) h.matched

theorem sameVerdicts_of_first {path path' : Bytes}
    (h : ∀ index location, service.First path index location ↔ service.First path' index location) :
    service.SameVerdicts path path' := by
  intro index location hget hearlier
  constructor
  · intro hmatch
    exact ((h index location).mp ⟨hget, hmatch, fun index' hlt location' hget' =>
      (hearlier index' hlt location' hget').1⟩).matched
  · intro hmatch
    exact ((h index location).mpr ⟨hget, hmatch, fun index' hlt location' hget' =>
      (hearlier index' hlt location' hget').2⟩).matched

/-- The same verdicts are the same first match. -/
theorem sameVerdicts_iff {path path' : Bytes} : service.SameVerdicts path path' ↔
    ∀ index location, service.First path index location ↔ service.First path' index location := by
  refine ⟨fun h index location => ⟨h.first, h.symm.first⟩, service.sameVerdicts_of_first⟩

theorem firstHandler_of_first {data : Bytes} {index : Nat} {location : Location ρ}
    (h : service.First (targetPath data) index location) : service.firstHandler data = some location.handler := by
  obtain ⟨hlt, hget⟩ := List.getElem?_eq_some_iff.mp h.configured
  have hfind : service.locations.find? (fun location => service.Matches location (targetPath data)) = some location := by
    rw [List.find?_eq_some_iff_getElem]
    refine ⟨by simpa using h.matched, index, hlt, hget, fun position hposition => ?_⟩
    have := h.earlier position hposition service.locations[position] (List.getElem?_eq_getElem (hposition.trans hlt))
    simpa using this
  rw [firstHandler, hfind, Option.map_some]

theorem firstHandler_of_none {data : Bytes}
    (h : ∀ location ∈ service.locations, ¬ service.Matches location (targetPath data)) :
    service.firstHandler data = none := by
  have hfind : service.locations.find? (fun location => service.Matches location (targetPath data)) = none :=
    List.find?_eq_none.mpr fun location hmem => by simpa using h location hmem
  rw [firstHandler, hfind, Option.map_none]

/-! ## The location of a selection -/

/-- What is selected when no expression matches the path that is matched last. -/
def leftLocation : Option Bytes → Option Nat × Bytes
  | none => (none, dispatchDefaultHandler)
  | some handler => (some service.locations.length, handler)

theorem leftLocation_injective {handler handler' : Option Bytes}
    (h : service.leftLocation handler = service.leftLocation handler') : handler = handler' := by
  cases handler with
  | none => cases handler' <;> simp_all [leftLocation]
  | some handler => cases handler' <;> simp_all [leftLocation]

theorem Selected.location_of_first {data path : Bytes} {selection : Selection}
    (h : service.Selected data path selection) {index : Nat} {location : Location ρ}
    (hfirst : service.First path index location) : selection.location = (some index, location.handler) := by
  cases h with
  | matched index' location' start stop hfirst' hspan heq =>
      obtain ⟨rfl, rfl⟩ := hfirst.unique _ hfirst'
      rw [heq]
      rfl
  | unmatched _ hnone _ => exact absurd hnone hfirst.not_none
  | left hnone _ => exact absurd hnone hfirst.not_none

theorem Selected.location_of_none {data path : Bytes} {selection : Selection}
    (h : service.Selected data path selection)
    (hnone : ∀ location ∈ service.locations, ¬ service.Matches location path) :
    selection.location = service.leftLocation (service.firstHandler data) := by
  cases h with
  | matched index location start stop hfirst _ _ => exact absurd hnone hfirst.not_none
  | unmatched htarget _ heq =>
      rw [heq, service.firstHandler_of_none (htarget ▸ hnone)]
      rfl
  | left _ heq =>
      rcases service.matchRegex_cases (targetPath data) {} with
        ⟨index, location, start, stop, hfirst, -, heq'⟩ | ⟨hnone', heq'⟩
      · rw [heq, heq', service.firstHandler_of_first hfirst]
        rfl
      · rw [heq, heq', service.firstHandler_of_none hnone']
        rfl

/-- The locations of two selections are the same exactly when the paths have the same first match, or neither has one
and the same handler is left. -/
theorem location_eq_iff {data data' path path' : Bytes} {selection selection' : Selection}
    (h : service.Selected data path selection) (h' : service.Selected data' path' selection') :
    selection.location = selection'.location ↔ service.SameVerdicts path path' ∧
      ((∀ location ∈ service.locations, ¬ service.Matches location path) →
        service.firstHandler data = service.firstHandler data') := by
  rw [service.sameVerdicts_iff]
  rcases service.first_or_none path with ⟨index, location, hfirst⟩ | hnone
  · rw [h.location_of_first service hfirst]
    rcases service.first_or_none path' with ⟨index', location', hfirst'⟩ | hnone'
    · rw [h'.location_of_first service hfirst']
      constructor
      · intro heq
        obtain rfl : index = index' := by simpa using congrArg Prod.fst heq
        have hlocation := hfirst.configured
        rw [hfirst'.configured, Option.some.injEq] at hlocation
        subst hlocation
        refine ⟨fun position other => ⟨fun hother => ?_, fun hother => ?_⟩, fun hnone => absurd hnone hfirst.not_none⟩
        · obtain ⟨rfl, rfl⟩ := hfirst.unique _ hother
          exact hfirst'
        · obtain ⟨rfl, rfl⟩ := hfirst'.unique _ hother
          exact hfirst
      · rintro ⟨hsame, -⟩
        obtain ⟨rfl, rfl⟩ := hfirst'.unique _ ((hsame index location).mp hfirst)
        rfl
    · rw [h'.location_of_none service hnone']
      have hlt := (List.getElem?_eq_some_iff.mp hfirst.configured).1
      constructor
      · intro heq
        have hne := Nat.ne_of_lt hlt
        cases hhandler : service.firstHandler data' <;> simp_all [leftLocation]
      · rintro ⟨hsame, -⟩
        exact absurd hnone' ((hsame index location).mp hfirst).not_none
  · rw [h.location_of_none service hnone]
    rcases service.first_or_none path' with ⟨index', location', hfirst'⟩ | hnone'
    · rw [h'.location_of_first service hfirst']
      have hlt := (List.getElem?_eq_some_iff.mp hfirst'.configured).1
      constructor
      · intro heq
        have hne := Nat.ne_of_gt hlt
        cases hhandler : service.firstHandler data <;> simp_all [leftLocation]
      · rintro ⟨hsame, -⟩
        exact absurd hnone ((hsame index' location').mpr hfirst').not_none
    · rw [h'.location_of_none service hnone']
      constructor
      · intro heq
        refine ⟨fun index location => ⟨fun hfirst => ?_, fun hfirst => ?_⟩, fun _ => service.leftLocation_injective heq⟩
        · exact absurd hnone hfirst.not_none
        · exact absurd hnone' hfirst.not_none
      · rintro ⟨-, hleft⟩
        rw [hleft hnone]

/-- Two targets go to the same location exactly when the expressions tell no difference between them. -/
theorem sameLocation_iff (data data' : Bytes) :
    service.SameLocation data data' ↔ service.Indifferent data data' := by
  constructor
  · intro h path path' hpath hpath'
    obtain ⟨dispatched, hselect, rfl⟩ := service.select_of_finalPath hpath
    obtain ⟨dispatched', hselect', rfl⟩ := service.select_of_finalPath hpath'
    exact (service.location_eq_iff (service.select_ok hselect).2 (service.select_ok hselect').2).mp
      (h dispatched dispatched' hselect hselect')
  · intro h dispatched dispatched' hselect hselect'
    obtain ⟨hpath, hselected⟩ := service.select_ok hselect
    obtain ⟨hpath', hselected'⟩ := service.select_ok hselect'
    exact (service.location_eq_iff hselected hselected').mpr (h _ _ hpath hpath')

theorem contents_plain : 0 ∉ bytes "/www" := by simp [bytes]

/-- A service whose one location is the one of the private files. -/
def privateService : DispatchService Bytes where
  locations := [⟨bytes "/private", bytes "file"⟩]
  httpHandlersMap := fun name => if name = bytes "file" then some { resolveIndex := true } else none
  contentsPath := ⟨bytes "/www", contents_plain⟩
  defaultIndex := false
  index := []
  pcreExec := fun expression path => if expression <+: path then some (0, expression.length) else none
  access := fun _ => false

end DispatchService

end Viriatum
