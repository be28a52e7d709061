import Viriatum.Handlers.Dispatch

/-!
# Locations of a dispatch

The location that a handler is notified of is one that matches the path it is notified of, and the virtual url lies
within the target, unless the name of an index file stands behind the path: what the first match has left is then
notified even if nothing matches any more, and a match may end beyond the target.
-/

namespace Viriatum

open Http2Connection

namespace DispatchService

variable {ρ : Type} (service : DispatchService ρ)

/-! ## What is to hold -/

/-- A match that the engine finds ends within its subject. -/
def SoundExec : Prop :=
  ∀ expression path start stop, service.pcreExec expression path = some (start, stop) → stop ≤ path.length

/-- The virtual urls are what is left of the target from some position on. -/
def SuffixUrls (data : Bytes) (calls : List DispatchCall) : Prop :=
  ∀ start size, .virtualUrl start size ∈ calls → start ≤ data.length ∧ start + size = data.length

/-- The location is one that matches the path up to the offset, and the virtual urls are suffixes of the target. -/
structure Consistent (data : Bytes) (calls : List DispatchCall) : Prop where
  location : ∀ index offset, .location index offset ∈ calls → ∃ path location start, .path path ∈ calls ∧
    service.locations[index]? = some location ∧ service.pcreExec location.expression path = some (start, offset) ∧
    offset ≤ path.length
  virtualUrl : SuffixUrls data calls

/-- The end of a match in the target, or the slash that it ends in. -/
def matchEnd (data : Bytes) (stop : Nat) : Nat := if 0 < stop ∧ data[stop - 1]? = some 47 then stop - 1 else stop

/-- The location is the first one that matches the path, up to the offset or to the slash at it. -/
structure Aligned (data : Bytes) (calls : List DispatchCall) : Prop where
  location : ∀ index offset, .location index offset ∈ calls → ∃ path location start stop, .path path ∈ calls ∧
    service.First path index location ∧ service.pcreExec location.expression path = some (start, stop) ∧
    offset = matchEnd data stop ∧ offset ≤ path.length
  virtualUrl : SuffixUrls data calls

/-- The path is the one of the target, or one that is matched within the target. -/
def Covered (data path : Bytes) : Prop :=
  path = targetPath data ∨
    ∃ index location start stop, service.First path index location ∧
      service.pcreExec location.expression path = some (start, stop) ∧ stop ≤ data.length

/-! ## What is notified -/

theorem printInto_ok {size : Nat} {string printed : Bytes} (h : printInto size string = .ok printed) :
    printed = string ∧ string.length < size := by
  rw [printInto] at h
  by_cases hfits : string.length < size
  · rw [if_pos hfits, Except.ok.injEq] at h
    exact ⟨h.symm, hfits⟩
  · rw [if_neg hfits] at h
    cases h

theorem targetPath_length_le (data : Bytes) : (targetPath data).length ≤ data.length :=
  (List.takeWhile_prefix _).length_le

/-- The selection comes from a match of the path, or it has been left from the target. -/
inductive Selected (data path : Bytes) (selection : Selection) : Prop
  | matched (index : Nat) (location : Location ρ) (start stop : Nat) (first : service.First path index location)
      (span : service.pcreExec location.expression path = some (start, stop))
      (eq : selection = { handlerName := location.handler, regexMatch := true, index, matchSize := stop })
  | unmatched (target : path = targetPath data) (none : ∀ location ∈ service.locations, ¬ service.Matches location path)
      (eq : selection = { index := service.locations.length })
  | left (none : ∀ location ∈ service.locations, ¬ service.Matches location path)
      (eq : selection = { service.matchRegex (targetPath data) {} with index := service.locations.length })

theorem selected_target (data : Bytes) :
    service.Selected data (targetPath data) (service.matchRegex (targetPath data) {}) := by
  rcases service.matchRegex_cases (targetPath data) {} with ⟨index, location, start, stop, hfirst, hspan, heq⟩ | ⟨hnone, heq⟩
  · exact .matched index location start stop hfirst hspan heq
  · exact .unmatched rfl hnone heq

theorem selected_rematch (data path : Bytes) :
    service.Selected data path (service.matchRegex path (service.matchRegex (targetPath data) {})) := by
  rcases service.matchRegex_cases path (service.matchRegex (targetPath data) {}) with
    ⟨index, location, start, stop, hfirst, hspan, heq⟩ | ⟨hnone, heq⟩
  · exact .matched index location start stop hfirst hspan heq
  · exact .left hnone heq

/-- The path that is matched last: the one of the target, with the name of an index file behind it if there is one. -/
def finalPath (data : Bytes) : Except Fault Bytes :=
  match service.httpHandlersMap (service.matchRegex (targetPath data) {}).handlerName with
  | none => .ok (targetPath data)
  | some handler => do
      let name ← service.indexFile handler (targetPath data)
      .ok (targetPath data ++ name.getD [])

/-- The path that is matched last, if the buffer of the dispatch holds it. -/
def FinalPath (data path : Bytes) : Prop := service.finalPath data = .ok path ∧ path.length < maxUrlSize

/-- The selection is made for the path that is matched last. -/
theorem select_ok {data : Bytes} {dispatched : Dispatched} (h : service.select data = .ok dispatched) :
    service.FinalPath data dispatched.path ∧ service.Selected data dispatched.path dispatched.selection := by
  rw [select] at h
  cases hpath : printInto maxUrlSize (targetPath data) with
  | error fault => simp [hpath, bind, Except.bind] at h
  | ok printed =>
      obtain ⟨rfl, hfits⟩ := printInto_ok hpath
      simp only [hpath, bind, Except.bind] at h
      rw [FinalPath, finalPath]
      cases hhandler : service.httpHandlersMap (service.matchRegex (targetPath data) {}).handlerName with
      | none =>
          simp only [hhandler, Except.ok.injEq] at h
          subst h
          exact ⟨⟨rfl, hfits⟩, service.selected_target data⟩
      | some first =>
          simp only [hhandler] at h
          cases hindex : service.indexFile first (targetPath data) with
          | error fault => simp [hindex] at h
          | ok found =>
              simp only [hindex] at h
              cases found with
              | none =>
                  simp only [Except.ok.injEq] at h
                  subst h
                  exact ⟨⟨by simp [hindex, Dispatched.path, bind, Except.bind], hfits⟩, service.selected_target data⟩
              | some name =>
                  simp only [rematch, bind, Except.bind] at h
                  cases hextended : printInto maxUrlSize (targetPath data ++ name) with
                  | error fault => simp [hextended] at h
                  | ok extended =>
                      obtain ⟨rfl, hfits'⟩ := printInto_ok hextended
                      simp only [hextended, Except.ok.injEq] at h
                      subst h
                      exact ⟨⟨by simp [hindex, Dispatched.path, bind, Except.bind], hfits'⟩,
                        service.selected_rematch data (targetPath data ++ name)⟩

/-- A selection is made whenever there is a path to be matched last. -/
theorem select_of_finalPath {data path : Bytes} (h : service.FinalPath data path) :
    ∃ dispatched, service.select data = .ok dispatched ∧ dispatched.path = path := by
  obtain ⟨hpath, hfits⟩ := h
  rw [finalPath] at hpath
  rw [select]
  cases hhandler : service.httpHandlersMap (service.matchRegex (targetPath data) {}).handlerName with
  | none =>
      simp only [hhandler, Except.ok.injEq] at hpath
      subst hpath
      exact ⟨.missing (targetPath data) (service.matchRegex (targetPath data) {}),
        by simp [printInto, hfits, hhandler, bind, Except.bind], rfl⟩
  | some first =>
      simp only [hhandler, bind, Except.bind] at hpath
      cases hindex : service.indexFile first (targetPath data) with
      | error fault => simp [hindex] at hpath
      | ok found =>
          simp only [hindex, Except.ok.injEq] at hpath
          subst hpath
          have htarget : (targetPath data).length < maxUrlSize := by
            rw [List.length_append] at hfits
            omega
          cases found with
          | none =>
              exact ⟨.found (targetPath data) (service.matchRegex (targetPath data) {}) (some first),
                by simp [printInto, htarget, hhandler, hindex, bind, Except.bind], by simp [Dispatched.path]⟩
          | some name =>
              have hextended : (targetPath data ++ name).length < maxUrlSize := hfits
              exact ⟨_, by simp only [printInto, if_pos htarget, hhandler, hindex, rematch, if_pos hextended, bind,
                Except.bind]; rfl, rfl⟩

/-- What is notified is the target, the path and, after a match, the location and the virtual url. -/
theorem urlCallback_notified {data behind handlerName : Bytes} {calls : List DispatchCall}
    (h : service.urlCallback data behind = .ok (.notified handlerName calls)) :
    ∃ path selection, service.Selected data path selection ∧
      ∃ more, locationCalls data behind selection = .ok more ∧
        calls = .messageBegin :: .url data :: .path path :: more := by
  rw [urlCallback] at h
  cases hselect : service.select data with
  | error fault => simp [hselect, bind, Except.bind] at h
  | ok dispatched =>
      simp only [hselect, bind, Except.bind] at h
      cases dispatched with
      | missing path selection => simp at h
      | found path selection handler =>
          cases handler with
          | none => simp at h
          | some handler =>
              cases hcalls : locationCalls data behind selection with
              | error fault => simp [hcalls] at h
              | ok more =>
                  simp only [hcalls, Except.ok.injEq, DispatchOutcome.notified.injEq] at h
                  exact ⟨path, selection, (service.select_ok hselect).2, more, hcalls, h.2.symm⟩

theorem locationCalls_mem {data behind : Bytes} {selection : Selection} {more : List DispatchCall}
    (h : locationCalls data behind selection = .ok more) :
    more = [] ∧ selection.regexMatch = false ∨
      selection.regexMatch = true ∧ ∃ offset, virtualUrlOffset data behind selection.matchSize = .ok offset ∧
        more = [.location selection.index offset, .virtualUrl offset (sizeSub data.length offset)] := by
  rw [locationCalls] at h
  by_cases hmatch : selection.regexMatch
  · rw [if_pos hmatch] at h
    cases hoffset : virtualUrlOffset data behind selection.matchSize with
    | error fault => simp [hoffset, bind, Except.bind] at h
    | ok offset =>
        simp only [hoffset, bind, Except.bind, Except.ok.injEq] at h
        exact .inr ⟨hmatch, offset, rfl, h.symm⟩
  · rw [if_neg hmatch, Except.ok.injEq] at h
    exact .inl ⟨h.symm, by simpa using hmatch⟩

/-- Within the target, the offset is the end of the match, or the slash that it ends in. -/
theorem virtualUrlOffset_eq {data behind : Bytes} {stop offset : Nat} (hstop : stop ≤ data.length)
    (h : virtualUrlOffset data behind stop = .ok offset) : offset = matchEnd data stop := by
  rw [virtualUrlOffset] at h
  by_cases hpos : 0 < stop
  · have hbyte : stop - 1 < data.length := by omega
    rw [if_pos hpos, List.getElem?_append_left hbyte, List.getElem?_eq_getElem hbyte] at h
    simp only [Except.ok.injEq] at h
    simp [matchEnd, hpos, ← h, List.getElem?_eq_getElem hbyte]
  · rw [if_neg hpos, Except.ok.injEq] at h
    rw [matchEnd, if_neg (fun hslash => hpos hslash.1), h]

theorem matchEnd_le (data : Bytes) (stop : Nat) : matchEnd data stop ≤ stop := by
  rw [matchEnd]
  split
  · exact Nat.sub_le stop 1
  · exact Nat.le_refl stop

theorem sizeSub_add {size offset : Nat} (h : offset ≤ size) : offset + sizeSub size offset = size := by
  rw [sizeSub, if_pos h]
  omega

/-- The path that is covered is one that nothing is left from. -/
theorem Covered.stop_le {data path : Bytes} {index start stop : Nat} {location : Location ρ}
    (hexec : service.SoundExec) (hcovered : service.Covered data path) (hfirst : service.First path index location)
    (hspan : service.pcreExec location.expression path = some (start, stop)) : stop ≤ data.length := by
  rcases hcovered with rfl | ⟨index', location', start', stop', hfirst', hspan', hle⟩
  · exact (hexec _ _ _ _ hspan).trans (targetPath_length_le data)
  · obtain ⟨-, rfl⟩ := hfirst.unique _ hfirst'
    rw [hspan', Option.some.injEq, Prod.mk.injEq] at hspan
    exact hspan.2 ▸ hle

theorem Covered.matched {data path : Bytes} (hcovered : service.Covered data path)
    (hnone : ∀ location ∈ service.locations, ¬ service.Matches location path) : path = targetPath data := by
  rcases hcovered with heq | ⟨index, location, start, stop, hfirst, -⟩
  · exact heq
  · exact absurd hfirst.matched (hnone location (List.mem_of_getElem? hfirst.configured))

/-- The location is notified with the path that it matches, and the virtual url is within the target. -/
theorem locations_aligned (hexec : service.SoundExec) {data behind handlerName path : Bytes}
    {calls : List DispatchCall} (h : service.urlCallback data behind = .ok (.notified handlerName calls))
    (hpath : .path path ∈ calls) (hcovered : service.Covered data path) : service.Aligned data calls := by
  obtain ⟨path', selection, hselected, more, hmore, rfl⟩ := service.urlCallback_notified h
  have hunmatched : more = [] → service.Aligned data (.messageBegin :: .url data :: .path path' :: more) := by
    rintro rfl
    exact ⟨by simp, by simp [SuffixUrls]⟩
  rcases locationCalls_mem hmore with ⟨rfl, -⟩ | ⟨hmatch, offset, hoffset, rfl⟩
  · exact hunmatched rfl
  · obtain rfl : path = path' := by simpa using hpath
    cases hselected with
    | matched index location start stop hfirst hspan heq =>
        subst heq
        have hstop := hcovered.stop_le service hexec hfirst hspan
        have hend := virtualUrlOffset_eq hstop hoffset
        have hle := matchEnd_le data stop
        constructor
        · intro index' offset' hcall
          simp only [List.mem_cons, reduceCtorEq, List.not_mem_nil, or_false, false_or,
            DispatchCall.location.injEq] at hcall
          obtain ⟨rfl, rfl⟩ := hcall
          exact ⟨path, location, start, stop, by simp, hfirst, hspan, hend, hend ▸ hle.trans (hexec _ _ _ _ hspan)⟩
        · intro start' size hcall
          simp only [List.mem_cons, reduceCtorEq, List.not_mem_nil, or_false, false_or,
            DispatchCall.virtualUrl.injEq] at hcall
          obtain ⟨rfl, rfl⟩ := hcall
          have hbound : start' ≤ data.length := hend ▸ hle.trans hstop
          exact ⟨hbound, sizeSub_add hbound⟩
    | unmatched htarget hnone heq =>
        rw [heq] at hmatch
        cases hmatch
    | left hnone heq =>
        obtain rfl := hcovered.matched service hnone
        rcases service.matchRegex_cases (targetPath data) {} with ⟨index, location, start, stop, hfirst, -, -⟩ | ⟨-, heq'⟩
        · exact absurd hfirst.matched (hnone location (List.mem_of_getElem? hfirst.configured))
        · rw [heq, heq'] at hmatch
          cases hmatch

/-! ## Runs -/

/-- A service whose one location matches one path, and which has files in the directory of the documents or not. -/
def exactService (files : Bool) : DispatchService Bytes where
  locations := [⟨bytes "/docs/", bytes "file"⟩]
  httpHandlersMap := fun name => if name = bytes "file" then some { resolveIndex := true } else none
  contentsPath := ⟨bytes "/www", by simp [bytes]⟩
  defaultIndex := true
  index := [⟨bytes "index.html", by simp [bytes]⟩]
  pcreExec := fun expression path => if expression = path then some (0, path.length) else none
  access := fun path => files && path = bytes "/www/docs//index.html"

theorem soundExec_exact (files : Bool) : (exactService files).SoundExec := by
  intro expression path start stop h
  by_cases heq : expression = path
  · simp only [exactService, if_pos heq, Option.some.injEq, Prod.mk.injEq] at h
    exact h.2 ▸ Nat.le_refl _
  · simp [exactService, heq] at h

/-- The location that ends in a slash is notified with the offset of the slash; once an index file has been found
behind it, nothing matches, and a location that does not exist is notified. -/
theorem not_consistent :
    (∃ calls, (exactService false).urlCallback (bytes "/docs/") [] = .ok (.notified (bytes "file") calls) ∧
        ¬ (exactService false).Consistent (bytes "/docs/") calls) ∧
      ∃ calls, (exactService true).urlCallback (bytes "/docs/") [] = .ok (.notified (bytes "file") calls) ∧
        ¬ (exactService true).Consistent (bytes "/docs/") calls := by
  constructor
  · refine ⟨[.messageBegin, .url (bytes "/docs/"), .path (bytes "/docs/"), .location 0 5, .virtualUrl 5 1], rfl,
      fun h => ?_⟩
    obtain ⟨path, location, start, hpath, -, hspan, -⟩ := h.location 0 5 (by simp)
    obtain rfl : path = bytes "/docs/" := by simpa using hpath
    by_cases heq : location.expression = bytes "/docs/"
    · simp [exactService, heq, bytes] at hspan
    · simp [exactService, heq] at hspan
  · refine ⟨[.messageBegin, .url (bytes "/docs/"), .path (bytes "/docs/index.html"), .location 1 5, .virtualUrl 5 1],
      rfl, fun h => ?_⟩
    obtain ⟨path, location, start, -, hget, -⟩ := h.location 1 5 (by simp)
    cases hget

theorem locations_aligned_exact : (exactService false).Aligned (bytes "/docs/")
    [.messageBegin, .url (bytes "/docs/"), .path (bytes "/docs/"), .location 0 5, .virtualUrl 5 1] := by
  have hrun : (exactService false).urlCallback (bytes "/docs/") [] = .ok (.notified (bytes "file")
      [.messageBegin, .url (bytes "/docs/"), .path (bytes "/docs/"), .location 0 5, .virtualUrl 5 1]) := rfl
  have hpath : bytes "/docs/" = targetPath (bytes "/docs/") := rfl
  exact (exactService false).locations_aligned (soundExec_exact false) hrun (by simp) (.inl hpath)

end DispatchService

end Viriatum
