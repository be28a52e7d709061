import Viriatum.Handlers.FilePath

/-!
# Confinement of the paths

The path that is opened for a request lies under the path of the contents or the one of a location, and leaves it
through no segment of two dots, as long as no check has refused the target: a refusal stops nothing.
-/

namespace Viriatum

open Http2Connection Library

/-! ## What is to hold -/

namespace FileOptions

/-- The directories that a configuration serves the files of. -/
def bases (options : FileOptions) : List CString :=
  options.contentsPath :: options.locations.filterMap FileLocation.basePath

end FileOptions

namespace FileEvent

def IsRefused : FileEvent → Prop
  | .refused _ => True
  | .opened _ => False

def IsOpened : FileEvent → Prop
  | .refused _ => False
  | .opened _ => True

end FileEvent

namespace FileContext

/-- The callbacks keep within their buffers, the paths they open are confined, and nothing is opened for a target that
has been refused. -/
def Confines (options : FileOptions) (calls : List FileCallback) : Prop :=
  ∃ context events, ({} : FileContext).run options calls = .ok (context, events) ∧
    (∀ path, .opened path ∈ events → ∃ base ∈ options.bases, Confined base path) ∧
    events.Pairwise fun event event' => event.IsRefused → ¬ event'.IsOpened

/-! ## When it holds -/

/-- A target fits under a base: the buffers hold it, its percent sequences are whole, the base is not one that the
decoding changes, and joining the two makes no segment of two dots. -/
structure TargetFits (base data : Bytes) : Prop where
  url_fits : data.length < maxUrlSize
  path_fits : base.length + (cString data).length < maxPathSize
  no_percent : 37 ∉ base
  no_plus : 43 ∉ base
  whole : ∃ decoded, percentDecode data = some decoded ∧ ¬ JoinsParent base (cString decoded)

/-- The rest of a url at a location fits under the base of it. -/
structure LocationFits (base : Bytes) (url : Buffer) : Prop where
  no_percent : 37 ∉ base
  no_plus : 43 ∉ base
  whole : ∃ string decoded, url.Holds string ∧ base.length + string.length < maxPathSize ∧
    percentDecode string = some decoded

def Fits (options : FileOptions) (context : FileContext) : FileCallback → Prop
  | .url data => TargetFits options.contentsPath (data.takeWhile (· ≠ 63))
  | .path data => TargetFits (context.basePath.getD options.contentsPath) data
  | .location index offset => ∃ location, options.locations[index]? = some location ∧
      ∀ base, location.basePath = some base → LocationFits base (context.url.drop offset)
  | .messageComplete => ∃ path, context.filePathD.Holds path

def TargetRefused (data : Bytes) : Prop :=
  ∃ decoded, percentDecode data = some decoded ∧ pathSafe (cString decoded) = false

/-- The check of the callback refuses what it is given. -/
def Refuses (options : FileOptions) (context : FileContext) : FileCallback → Prop
  | .url data => TargetRefused (data.takeWhile (· ≠ 63))
  | .path data => TargetRefused data
  | .location index offset => ∃ location base string, options.locations[index]? = some location ∧
      location.basePath = some base ∧ Buffer.Holds (context.url.drop offset) string ∧ TargetRefused (base.val ++ string)
  | .messageComplete => False

/-- The condition holds of each of the callbacks, in the context that it is called in. -/
def AtEach (options : FileOptions) (condition : FileContext → FileCallback → Prop) (calls : List FileCallback) : Prop :=
  ∀ before call after context events, calls = before ++ call :: after →
    ({} : FileContext).run options before = .ok (context, events) → condition context call

/-! ## What a callback does -/

/-- The buffers of the context have their sizes. -/
structure Sized (context : FileContext) : Prop where
  url : context.url.length = maxUrlSize
  urlD : context.urlD.length = maxUrlSize
  filePath : context.filePath.length = maxPathSize
  filePathD : context.filePathD.length = maxPathSize

theorem sized_fresh : Sized {} := by
  constructor <;> exact List.length_replicate

/-- The path that the context holds is confined. -/
structure Secure (options : FileOptions) (context : FileContext) : Prop where
  path : ∀ path, context.filePathD.Holds path → ∃ base ∈ options.bases, Confined base path

theorem secure_fresh (options : FileOptions) : Secure options {} :=
  ⟨fun path h => absurd h (Buffer.not_holds_fresh maxPathSize path)⟩

/-- The base path of the context is one of the bases. -/
def Based (options : FileOptions) (context : FileContext) : Prop :=
  ∀ base, context.basePath = some base → base ∈ options.bases

theorem mem_bases_location {options : FileOptions} {index : Nat} {location : FileLocation} {base : CString}
    (hlocation : options.locations[index]? = some location) (hbase : location.basePath = some base) :
    base ∈ options.bases := by
  have hmem := List.mem_of_getElem? hlocation
  exact List.mem_cons_of_mem _ (List.mem_filterMap.mpr ⟨location, hmem, hbase⟩)

theorem decodePercent_of_decode {data decoded : Bytes} (h : percentDecode data = some decoded) (target rest : Buffer)
    (hfits : decoded.length < target.length) :
    ∃ written, decodePercent (data.map some ++ some 0 :: rest) data.length target =
        .ok { error := none, buffer := written } ∧
      written.Holds (cString decoded) ∧ written.length = target.length := by
  have hwrite : target.write (decoded ++ [0]) = _ := Buffer.write_eq (by simpa using Nat.succ_le_of_lt hfits)
  refine ⟨_, ?_, Buffer.holds_cString decoded _, Buffer.length_of_write hwrite⟩
  rw [decodePercent, decodePercentLoop_of_decode h (some 0 :: rest)]
  simp only [bind, Except.bind, if_true, hwrite]

/-- The path of the file is the base and the decoded string behind it. -/
theorem setFilePath_eq {context : FileContext} {base : CString} {string decoded : Bytes} (hsized : context.Sized)
    (hfits : base.val.length + string.length < maxPathSize) (hpercent : 37 ∉ base.val) (hplus : 43 ∉ base.val)
    (h : percentDecode string = some decoded) :
    ∃ filePath filePathD, context.setFilePath base string = .ok { context with filePath, filePathD } ∧
      filePathD.Holds (base.val ++ cString decoded) ∧ Sized { context with filePath, filePathD } := by
  have hdecode : percentDecode (base.val ++ string) = some (base.val ++ decoded) := by
    rw [percentDecode_append hpercent hplus, h]
    rfl
  have hlength := length_of_percentDecode h
  have hwrite : context.filePath.write (base.val ++ string ++ [0]) = _ := Buffer.write_eq
    (by simp only [List.length_append, List.length_cons, List.length_nil, hsized.filePath]; omega)
  obtain ⟨filePathD, hrun, hholds, hsize⟩ := decodePercent_of_decode hdecode
    context.filePathD (context.filePath.drop (base.val ++ string ++ [0]).length)
    (by rw [List.length_append, hsized.filePathD]; omega)
  rw [cString_append base.property] at hholds
  refine ⟨(base.val ++ string ++ [0]).map some ++ context.filePath.drop (base.val ++ string ++ [0]).length, filePathD,
    ?_, hholds, ?_⟩
  · rw [setFilePath, hwrite]
    simp only [bind, Except.bind]
    rw [List.map_append, List.append_assoc, List.map_singleton, List.singleton_append, ← List.length_append, hrun]
  · exact ⟨hsized.url, hsized.urlD, (Buffer.length_of_write hwrite).trans hsized.filePath, hsize.trans hsized.filePathD⟩

/-- The target is kept, and its path is made; the check is the one of the decoded target. -/
theorem setTarget_eq {context : FileContext} {base : CString} {data : Bytes} (hsized : context.Sized)
    (hfits : TargetFits base data) :
    ∃ context' error decoded, context.setTarget base data = .ok (context', error) ∧
      percentDecode data = some decoded ∧ error = (if pathSafe (cString decoded) then none else some traversalMessage) ∧
      context'.filePathD.Holds (base.val ++ cString decoded) ∧ context'.Sized ∧
      context'.basePath = context.basePath := by
  obtain ⟨decoded, hdecoded, -⟩ := hfits.whole
  obtain ⟨decoded', hdecoded', hcString⟩ := percentDecode_cString hdecoded
  have hurl := hfits.url_fits
  have hwrite : context.url.write (data ++ [0]) = _ := Buffer.write_eq
    (by simp only [List.length_append, List.length_cons, List.length_nil, hsized.url]; omega)
  have hlength := length_of_percentDecode hdecoded
  obtain ⟨urlD, hrun, hholds, hsize⟩ := decodePercent_of_decode hdecoded
    context.urlD (context.url.drop (data ++ [0]).length) (by rw [hsized.urlD]; omega)
  obtain ⟨url, hurl⟩ : ∃ url, url = (data ++ [0]).map some ++ context.url.drop (data ++ [0]).length := ⟨_, rfl⟩
  have hread := (Buffer.holds_cString data (context.url.drop (data ++ [0]).length)).readString
  have hsized' : Sized { context with url, urlD } :=
    ⟨by rw [hurl, Buffer.length_of_write hwrite, hsized.url], hsize.trans hsized.urlD, hsized.filePath,
      hsized.filePathD⟩
  obtain ⟨filePath, filePathD, hset, hpath, hsized''⟩ :=
    setFilePath_eq hsized' hfits.path_fits hfits.no_percent hfits.no_plus hdecoded'
  refine ⟨_, _, decoded, ?_, hdecoded, rfl, hcString ▸ hpath, hsized'', rfl⟩
  rw [setTarget, hwrite, ← hurl]
  simp only [bind, Except.bind]
  rw [hurl, hread]
  simp only
  rw [List.map_append, List.append_assoc, List.map_singleton, List.singleton_append, hrun]
  simp only
  rw [← List.singleton_append, ← List.map_singleton, ← List.append_assoc, ← List.map_append, ← hurl, hset]
  simp only [isPathSafe_of_holds hholds]

/-- What a callback leaves. -/
structure Done (options : FileOptions) (context : FileContext) (call : FileCallback) (context' : FileContext)
    (events : List FileEvent) : Prop where
  sized : context'.Sized
  based : context.Based options → context'.Based options
  refused : (∃ event ∈ events, event.IsRefused) ↔ Refuses options context call
  secure : ¬ Refuses options context call → context.Based options → context.Secure options → context'.Secure options
  opened : ∀ event ∈ events, event.IsOpened → call = .messageComplete
  completed : call = .messageComplete → ∃ path, context.filePathD.Holds path ∧ events = [.opened path]

/-- The events of a callback that makes a check. -/
theorem checked_refused {safe : Bool} :
    (∃ event ∈ ((if safe then none else some traversalMessage).toList.map FileEvent.refused), event.IsRefused) ↔
      safe = false := by
  cases safe <;> simp [FileEvent.IsRefused]

theorem checked_not_opened {error : Option String} {event : FileEvent} (h : event ∈ error.toList.map FileEvent.refused) :
    ¬ event.IsOpened := by
  obtain ⟨message, -, rfl⟩ := List.mem_map.mp h
  exact id

theorem step_target {options : FileOptions} {context : FileContext} {call : FileCallback} {base : CString}
    {data : Bytes} (hcall : call ≠ .messageComplete)
    (hstep : context.step options call = ignoreError (context.setTarget base data))
    (hrefuses : Refuses options context call ↔ TargetRefused data)
    (hbase : context.Based options → base ∈ options.bases) (hsized : context.Sized) (hfits : TargetFits base data) :
    ∃ context' events, context.step options call = .ok (context', events) ∧
      Done options context call context' events := by
  obtain ⟨context', error, decoded, hset, hdecoded, rfl, hpath, hsized', hkept⟩ := setTarget_eq hsized hfits
  refine ⟨context', _, by rw [hstep, hset]; rfl, ?_⟩
  constructor
  case sized => exact hsized'
  case based =>
    intro hbased base' hbase'
    exact hbased base' (hkept ▸ hbase')
  case refused =>
    rw [hrefuses, checked_refused]
    constructor
    · intro hunsafe
      exact ⟨decoded, hdecoded, hunsafe⟩
    · intro ⟨decoded', hdecoded', hunsafe⟩
      rw [hdecoded, Option.some.injEq] at hdecoded'
      rw [hdecoded', hunsafe]
  case secure =>
    intro hsafe hbased _
    refine ⟨fun path hholds => ⟨base, hbase hbased, ?_⟩⟩
    rw [hholds.unique hpath]
    obtain ⟨decoded', hdecoded', hjoin⟩ := hfits.whole
    rw [hdecoded, Option.some.injEq] at hdecoded'
    subst hdecoded'
    refine Confined.of_target ?_ hjoin
    cases hpathSafe : pathSafe (cString decoded) with
    | true => rfl
    | false => exact absurd (hrefuses.mpr ⟨decoded, hdecoded, hpathSafe⟩) hsafe
  case opened =>
    intro event hmem hopened
    exact (checked_not_opened hmem hopened).elim
  case completed =>
    intro hcomplete
    exact absurd hcomplete hcall

theorem step_location {options : FileOptions} {context : FileContext} {index offset : Nat} (hsized : context.Sized)
    (hfits : Fits options context (.location index offset)) :
    ∃ context' events, context.step options (.location index offset) = .ok (context', events) ∧
      Done options context (.location index offset) context' events := by
  obtain ⟨location, hlocation, hbases⟩ := hfits
  cases hbase : location.basePath with
  | none =>
      refine ⟨{ context with basePath := none }, [], ?_, ?_⟩
      · simp only [step, locationCallback, hlocation, hbase]
        rfl
      constructor
      case sized => exact ⟨hsized.url, hsized.urlD, hsized.filePath, hsized.filePathD⟩
      case based =>
        intro _ base h
        cases h
      case refused =>
        constructor
        · intro ⟨event, hmem, _⟩
          cases hmem
        · intro ⟨location', base, string, hlocation', hbase', _⟩
          rw [hlocation, Option.some.injEq] at hlocation'
          rw [← hlocation', hbase] at hbase'
          cases hbase'
      case secure =>
        intro _ _ hsecure
        exact ⟨hsecure.path⟩
      case opened =>
        intro event hmem
        cases hmem
      case completed =>
        intro h
        cases h
  | some base =>
      obtain ⟨hpercent, hplus, string, decoded, hholds, hroom, hdecoded⟩ := hbases base hbase
      have hmem := mem_bases_location hlocation hbase
      have hsized' : Sized { context with basePath := some base } :=
        ⟨hsized.url, hsized.urlD, hsized.filePath, hsized.filePathD⟩
      obtain ⟨filePath, filePathD, hset, hpath, hsized''⟩ := setFilePath_eq hsized' hroom hpercent hplus hdecoded
      refine ⟨{ context with basePath := some base, filePath, filePathD },
        (if pathSafe (base.val ++ cString decoded) then none else some traversalMessage).toList.map .refused, ?_, ?_⟩
      · simp only [step, locationCallback, hlocation, hbase, hholds.readString, bind, Except.bind, hset,
          isPathSafe_of_holds hpath, ignoreError]
      have hwhole : percentDecode (base.val ++ string) = some (base.val ++ decoded) := by
        rw [percentDecode_append hpercent hplus, hdecoded]
        rfl
      have hstring : cString (base.val ++ decoded) = base.val ++ cString decoded := cString_append base.property
      constructor
      case sized => exact hsized''
      case based =>
        intro _ base' hbase'
        cases hbase'
        exact hmem
      case refused =>
        rw [checked_refused]
        constructor
        · intro hunsafe
          exact ⟨location, base, string, hlocation, hbase, hholds, base.val ++ decoded, hwhole, hstring ▸ hunsafe⟩
        · intro ⟨location', base', string', hlocation', hbase', hholds', decoded', hdecoded', hunsafe⟩
          rw [hlocation, Option.some.injEq] at hlocation'
          subst hlocation'
          rw [hbase, Option.some.injEq] at hbase'
          subst hbase'
          rw [hholds'.unique hholds, hwhole, Option.some.injEq] at hdecoded'
          rw [← hstring, hdecoded', hunsafe]
      case secure =>
        intro hsafe _ _
        refine ⟨fun path hopened => ⟨base, hmem, ?_⟩⟩
        rw [hopened.unique hpath]
        refine Confined.of_pathSafe (List.prefix_append base.val (cString decoded)) ?_
        cases hpathSafe : pathSafe (base.val ++ cString decoded) with
        | true => rfl
        | false =>
            exact absurd
              ⟨location, base, string, hlocation, hbase, hholds, base.val ++ decoded, hwhole, hstring ▸ hpathSafe⟩ hsafe
      case opened =>
        intro event hevent hopened
        exact (checked_not_opened hevent hopened).elim
      case completed =>
        intro h
        cases h

theorem step_complete {options : FileOptions} {context : FileContext} (hsized : context.Sized)
    (hfits : Fits options context .messageComplete) :
    ∃ context' events, context.step options .messageComplete = .ok (context', events) ∧
      Done options context .messageComplete context' events := by
  obtain ⟨path, hpath⟩ := hfits
  refine ⟨context, [.opened path], ?_, ?_⟩
  · simp only [step, messageCompleteCallback, hpath.readString]
    rfl
  constructor
  case sized => exact hsized
  case based => exact id
  case refused =>
    constructor
    · intro ⟨event, hmem, hrefused⟩
      rw [List.mem_singleton.mp hmem] at hrefused
      exact hrefused
    · exact False.elim
  case secure =>
    intro _ _ hsecure
    exact hsecure
  case opened =>
    intro _ _ _
    rfl
  case completed =>
    intro _
    exact ⟨path, hpath, rfl⟩

/-- What fits is done. -/
theorem step_done {options : FileOptions} {context : FileContext} {call : FileCallback} (hsized : context.Sized)
    (hbased : context.Based options) (hfits : Fits options context call) :
    ∃ context' events, context.step options call = .ok (context', events) ∧
      Done options context call context' events := by
  cases call with
  | url data =>
      refine step_target (fun h => by cases h) rfl Iff.rfl ?_ hsized hfits
      intro _
      exact List.mem_cons_self
  | path data =>
      refine step_target (fun h => by cases h) rfl Iff.rfl ?_ hsized hfits
      intro _
      cases hbase : context.basePath with
      | none => exact List.mem_cons_self
      | some base => exact hbased base hbase
  | location index offset => exact step_location hsized hfits
  | messageComplete => exact step_complete hsized hfits

/-! ## Runs -/

theorem run_append {options : FileOptions} {before after : List FileCallback} {start context : FileContext}
    {events : List FileEvent} (hrun : start.run options before = .ok (context, events)) :
    start.run options (before ++ after) = (context.run options after).map fun p => (p.1, events ++ p.2) := by
  induction before generalizing start events with
  | nil =>
      cases hrun
      rw [List.nil_append]
      cases context.run options after <;> rfl
  | cons first rest ih =>
      obtain ⟨⟨context₁, events₁⟩, hfirst, hmore⟩ := Except.bind_ok hrun
      obtain ⟨⟨context₂, events₂⟩, hrest, hend⟩ := Except.bind_ok hmore
      cases hend
      simp only [List.cons_append, run, hfirst, bind, Except.bind, ih hrest]
      cases context.run options after with
      | error fault => rfl
      | ok p => simp [Except.map]

theorem run_snoc {options : FileOptions} {calls : List FileCallback} {call : FileCallback}
    {start context context' : FileContext} {events more : List FileEvent}
    (hrun : start.run options calls = .ok (context, events))
    (hstep : context.step options call = .ok (context', more)) :
    start.run options (calls ++ [call]) = .ok (context', events ++ more) := by
  rw [run_append hrun, run, hstep]
  simp [run, bind, Except.bind, Except.map]

theorem AtEach.append {options : FileOptions} {condition : FileContext → FileCallback → Prop}
    {before after : List FileCallback} (h : AtEach options condition (before ++ after)) :
    AtEach options condition before := by
  intro before' call after' context events hcalls hrun
  exact h before' call (after' ++ after) context events (by simp [hcalls]) hrun

theorem AtEach.last {options : FileOptions} {condition : FileContext → FileCallback → Prop} {calls : List FileCallback}
    {call : FileCallback} {context : FileContext} {events : List FileEvent}
    (h : AtEach options condition (calls ++ [call])) (hrun : ({} : FileContext).run options calls = .ok (context, events)) :
    condition context call :=
  h calls call [] context events rfl hrun

theorem AtEach.snoc {options : FileOptions} {condition : FileContext → FileCallback → Prop} {calls : List FileCallback}
    {call : FileCallback} (h : AtEach options condition calls)
    (hlast : ∀ context events, ({} : FileContext).run options calls = .ok (context, events) → condition context call) :
    AtEach options condition (calls ++ [call]) := by
  intro before call' after context events hcalls hrun
  cases after using List.reverseRecOn with
  | nil =>
      obtain ⟨rfl, hcall⟩ := List.append_inj' hcalls rfl
      cases hcall
      exact hlast context events hrun
  | append_singleton after last =>
      have hsplit : calls ++ [call] = (before ++ call' :: after) ++ [last] := by simp [hcalls]
      obtain ⟨hcalls', -⟩ := List.append_inj' hsplit rfl
      exact h before call' after context events hcalls' hrun

/-- A run whose callbacks fit comes to its end; a refusal is seen in it exactly when a check refuses, and without one
what the context holds is confined. -/
theorem run_done {options : FileOptions} {calls : List FileCallback} (hfits : AtEach options (Fits options) calls) :
    ∃ context events, ({} : FileContext).run options calls = .ok (context, events) ∧ context.Sized ∧
      context.Based options ∧
      ((∀ event ∈ events, ¬ event.IsRefused) ↔
        AtEach options (fun context call => ¬ Refuses options context call) calls) ∧
      (AtEach options (fun context call => ¬ Refuses options context call) calls → context.Secure options) := by
  induction calls using List.reverseRecOn with
  | nil =>
      refine ⟨{}, [], rfl, sized_fresh, fun base h => (by cases h), ?_, fun _ => secure_fresh options⟩
      constructor
      · intro _ before call after context events hcalls
        simp at hcalls
      · intro _ event hmem
        cases hmem
  | append_singleton calls call ih =>
      obtain ⟨context, events, hrun, hsized, hbased, hrefused, hsecure⟩ := ih hfits.append
      obtain ⟨context', more, hstep, hdone⟩ := step_done hsized hbased (hfits.last hrun)
      have hrun' := run_snoc hrun hstep
      refine ⟨context', events ++ more, hrun', hdone.sized, hdone.based hbased, ?_, fun hnone => ?_⟩
      · constructor
        · intro hnone
          refine AtEach.snoc (hrefused.mp fun event hmem => hnone event (List.mem_append_left _ hmem)) ?_
          intro context₁ events₁ hrun₁ hrefuses
          rw [hrun, Except.ok.injEq, Prod.mk.injEq] at hrun₁
          obtain ⟨event, hmem, hevent⟩ := hdone.refused.mpr (hrun₁.1 ▸ hrefuses)
          exact hnone event (List.mem_append_right _ hmem) hevent
        · intro hnone event hmem hevent
          rcases List.mem_append.mp hmem with hmem | hmem
          · exact hrefused.mpr hnone.append event hmem hevent
          · exact hnone.last hrun (hdone.refused.mp ⟨event, hmem, hevent⟩)
      · exact hdone.secure (hnone.last hrun) hbased (hsecure hnone.append)

/-- Nothing is opened behind a refusal. -/
def OpensUnrefused (options : FileOptions) (calls : List FileCallback) : Prop :=
  ∀ before after, calls = before ++ .messageComplete :: after →
    AtEach options (fun context call => ¬ Refuses options context call) before

theorem run_confined {options : FileOptions} {calls : List FileCallback} (hfits : AtEach options (Fits options) calls)
    (hopens : OpensUnrefused options calls) : Confines options calls := by
  induction calls using List.reverseRecOn with
  | nil => exact ⟨{}, [], rfl, fun path hmem => (by cases hmem), .nil⟩
  | append_singleton calls call ih =>
      have hopens' : OpensUnrefused options calls := fun before after hcalls =>
        hopens before (after ++ [call]) (by simp [hcalls])
      obtain ⟨context₁, events₁, hrun₁, hconfined, horderly⟩ := ih hfits.append hopens'
      obtain ⟨context, events, hrun, hsized, hbased, hrefused, hsecure⟩ := run_done hfits.append
      rw [hrun, Except.ok.injEq, Prod.mk.injEq] at hrun₁
      obtain ⟨rfl, rfl⟩ := hrun₁
      obtain ⟨context', more, hstep, hdone⟩ := step_done hsized hbased (hfits.last hrun)
      refine ⟨context', events ++ more, run_snoc hrun hstep, ?_, ?_⟩
      · intro path hmem
        rcases List.mem_append.mp hmem with hmem | hmem
        · exact hconfined path hmem
        · have hcall := hdone.opened _ hmem trivial
          obtain ⟨path', hholds, rfl⟩ := hdone.completed hcall
          have hunrefused := hopens calls [] (by rw [hcall])
          cases List.mem_singleton.mp hmem
          exact (hsecure hunrefused).path path hholds
      · refine List.pairwise_append.mpr ⟨horderly, ?_, ?_⟩
        · cases call with
          | messageComplete =>
              obtain ⟨path, -, rfl⟩ := hdone.completed rfl
              exact List.pairwise_singleton _ _
          | _ =>
              refine List.pairwise_of_forall_mem_list fun event _ event' hmem _ hopened => ?_
              cases hdone.opened event' hmem hopened
        · intro event hevent event' hevent' hrefuse hopened
          have hcall := hdone.opened event' hevent' hopened
          have hunrefused := hopens calls [] (by rw [hcall])
          exact hrefused.mpr hunrefused event hevent hrefuse

/-- In every run whose callbacks fit the paths are confined, and nothing is opened for a target that has been refused,
exactly when no check refuses before a path is opened. -/
theorem confines_iff_unrefused {options : FileOptions} {calls : List FileCallback}
    (hfits : AtEach options (Fits options) calls) :
    Confines options calls ↔ OpensUnrefused options calls := by
  refine ⟨fun ⟨context, events, hrun, _, horderly⟩ before after hcalls => ?_, run_confined hfits⟩
  subst hcalls
  obtain ⟨context₁, events₁, hrun₁, -, -, hrefused, -⟩ := run_done hfits.append
  obtain ⟨path, hholds⟩ := hfits before .messageComplete after context₁ events₁ rfl hrun₁
  have hstep : context₁.step options .messageComplete = .ok (context₁, [.opened path]) := by
    simp only [step, messageCompleteCallback, hholds.readString]
    rfl
  rw [run_append hrun₁, run, hstep] at hrun
  simp only [bind, Except.bind] at hrun
  refine hrefused.mp fun event hmem hevent => ?_
  cases hafter : context₁.run options after with
  | error fault =>
      rw [hafter] at hrun
      cases hrun
  | ok p =>
      rw [hafter] at hrun
      cases hrun
      exact (List.pairwise_append.mp horderly).2.2 event hmem (.opened path) List.mem_cons_self hevent trivial

/-! ## Samples -/

def siteOptions : FileOptions where
  contentsPath := ⟨bytes "/srv/www", by decide⟩
  locations := []

/-- The callbacks for a target, as it is dispatched. -/
def dispatched (target : Bytes) : List FileCallback := [.url target, .path target, .messageComplete]

/-- A target whose callbacks fit. -/
def indexTarget : Bytes := bytes "/index.html"

theorem indexTarget_fits : TargetFits siteOptions.contentsPath indexTarget where
  url_fits := by decide
  path_fits := by decide
  no_percent := by decide
  no_plus := by decide
  whole := ⟨indexTarget, by decide, not_joinsParent (by decide)⟩

theorem dispatched_fits : AtEach siteOptions (Fits siteOptions) (dispatched indexTarget) := by
  have hnil : AtEach siteOptions (Fits siteOptions) [] := fun before call after _ _ hcalls => by simp at hcalls
  have hurl : AtEach siteOptions (Fits siteOptions) ([] ++ [.url indexTarget]) := by
    refine hnil.snoc fun context events _ => ?_
    exact indexTarget_fits
  have hpath : AtEach siteOptions (Fits siteOptions) ([.url indexTarget] ++ [.path indexTarget]) := by
    refine hurl.snoc fun context events hrun => ?_
    have hbase : (({} : FileContext).run siteOptions [.url indexTarget]).map (fun p => p.1.basePath) = .ok none := by
      decide +kernel
    rw [List.nil_append] at hrun
    rw [hrun, Except.map, Except.ok.injEq] at hbase
    rw [Fits, hbase]
    exact indexTarget_fits
  refine hpath.snoc fun context events hrun => ?_
  have hread : (({} : FileContext).run siteOptions [.url indexTarget, .path indexTarget]).map
      (fun p => p.1.messageCompleteCallback) = .ok (.ok (bytes "/srv/www/index.html")) := by
    decide +kernel
  rw [show [.url indexTarget] ++ [.path indexTarget] = [FileCallback.url indexTarget, .path indexTarget] from rfl] at hrun
  rw [hrun, Except.map, Except.ok.injEq] at hread
  exact ⟨_, Buffer.holds_of_readString hread⟩

theorem dispatched_unrefused : OpensUnrefused siteOptions (dispatched indexTarget) := by
  intro before after hcalls
  have hbefore : before = [.url indexTarget, .path indexTarget] := by
    match before, hcalls with
    | [first, second], hcalls =>
        cases hcalls
        rfl
    | first :: second :: third :: rest, hcalls => simp [dispatched] at hcalls
  subst hbefore
  have hfits := dispatched_fits
  rw [hcalls] at hfits
  obtain ⟨context, events, hrun, -, -, hrefused, -⟩ := run_done hfits.append
  have hevents : (({} : FileContext).run siteOptions [.url indexTarget, .path indexTarget]).map Prod.snd = .ok [] := by
    decide +kernel
  rw [hrun, Except.map, Except.ok.injEq] at hevents
  refine hrefused.mp fun event hmem => ?_
  rw [show events = [] from hevents] at hmem
  cases hmem

/-- What is not refused is opened under the path of the contents. -/
theorem confines_index : Confines siteOptions (dispatched indexTarget) :=
  (confines_iff_unrefused dispatched_fits).mpr dispatched_unrefused

/-- A target that is refused is opened. -/
theorem not_confines : ¬ Confines siteOptions (dispatched (bytes "/../secret")) := by
  intro ⟨context, events, hrun, hconfined, horderly⟩
  have hevents : (({} : FileContext).run siteOptions (dispatched (bytes "/../secret"))).map Prod.snd =
      .ok [.refused traversalMessage, .refused traversalMessage, .opened (bytes "/srv/www/../secret")] := by
    decide +kernel
  rw [hrun] at hevents
  cases hevents
  exact (List.pairwise_cons.mp horderly).1 (.opened (bytes "/srv/www/../secret")) (by simp) trivial trivial

end FileContext

end Viriatum
