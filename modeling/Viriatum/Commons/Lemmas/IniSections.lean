import Mathlib.Data.List.Forall2
import Viriatum.Commons.Lemmas.IniLines
import Viriatum.Commons.Lemmas.SortMapRuns

/-!
# The sort maps of a configuration

The calls that the lines of a file make on the sort maps, and when the sort maps show the last values.
-/

namespace Viriatum

open Structures Library Http2Connection

/-! ## What the handler holds -/

/-- The calls set the pairs of a section. -/
def SetsPairs (values : List Bytes) (calls : List SetCall) (pairs : List (Bytes × Bytes)) : Prop :=
  List.Forall₂ (fun call pair => call.text = pair.1 ∧
    ∃ address, call.value = some address ∧ (values[address]?).map cString = some pair.2) calls pairs

/-- The handler once some settings are set: the calls create the sections, and other calls for each of them set the
pairs of the section in its sort map. -/
structure IniHandler.Represents (handler : IniHandler) (calls : List SetCall) (settings : List IniSetting) : Prop where
  configuration : handler.configuration.Holds stringHash calls
  addresses : ∀ (index : Nat) (call : SetCall), calls[index]? = some call → call.value = some index
  count : handler.sections.length = calls.length
  sections : ∀ (index : Nat) (map : SortMap) (call : SetCall), handler.sections[index]? = some map →
    calls[index]? = some call → ∃ keyCalls, SortMap.Reached stringHash map keyCalls ∧
      SetsPairs handler.values keyCalls ((settings.filter (·.1 == call.text)).map Prod.snd)

/-- The names that the sections have been created for, in the order of their first settings. -/
def Named (calls : List SetCall) (settings : List IniSetting) : Prop :=
  calls.map SetCall.text = (settings.map Prod.fst).eraseDups

theorem Named.mem {calls : List SetCall} {settings : List IniSetting} (hnamed : Named calls settings) {name : Bytes} :
    (∃ call ∈ calls, call.text = name) ↔ ∃ setting ∈ settings, setting.1 = name := by
  have hmem : name ∈ calls.map SetCall.text ↔ name ∈ settings.map Prod.fst := by
    rw [hnamed]
    exact List.mem_eraseDups
  simpa only [List.mem_map] using hmem

theorem iniSet_eq {map : SortMap} (h : map.hashMap.Sound stringHash) (call : SetCall) :
    iniSet map call = .error .clash ∨ ∃ map', iniSet map call = .ok map' ∧ map.set stringHash call = some map' := by
  rw [iniSet]
  split
  case isTrue => exact Or.inl rfl
  case isFalse hfree =>
    obtain ⟨hashMap', hset, hsets⟩ := HashMap.set_eq h call
    have hget : hashMap'.getHashMap (stringHash call.text) call.text = some (some (SortMap.elementOf stringHash call)) :=
      HashMap.getHashMap_of_mem hsets.sound ((hsets.mem (SortMap.elementOf stringHash call)).mpr (.inl rfl))
    have hmap : map.set stringHash call = some
        { hashMap := hashMap'
          keyList := map.keyList ++ [stringHash call.text]
          keyStringList := map.keyStringList ++ [call.keyString.address] } := by
      simp only [SortMap.set]
      rw [if_neg hfree]
      simp only [hset, Option.bind_eq_bind, Option.bind_some, hget]
      rfl
    rw [hmap]
    exact Or.inr ⟨_, rfl, rfl⟩

theorem set_of_iniSet {map map' : SortMap} {call : SetCall} (h : iniSet map call = .ok map') :
    map.set stringHash call = some map' := by
  rw [iniSet] at h
  split at h
  case isTrue => cases h
  case isFalse =>
    cases hset : map.set stringHash call with
    | none =>
        rw [hset] at h
        cases h
    | some found =>
        rw [hset] at h
        cases h
        rfl

theorem SetsPairs.append {values : List Bytes} {calls : List SetCall} {pairs : List (Bytes × Bytes)}
    (h : SetsPairs values calls pairs) (more : List Bytes) : SetsPairs (values ++ more) calls pairs := by
  apply List.Forall₂.imp _ h
  rintro call pair ⟨htext, address, hvalue, hget⟩
  obtain ⟨value, hfound, hstring⟩ := Option.map_eq_some_iff.mp hget
  have hlt := (List.getElem?_eq_some_iff.mp hfound).1
  refine ⟨htext, address, hvalue, ?_⟩
  rw [List.getElem?_append_left hlt, hfound, Option.map_some, hstring]

theorem SetsPairs.concat {values : List Bytes} {calls : List SetCall} {pairs : List (Bytes × Bytes)}
    (h : SetsPairs values calls pairs) (keyString : KeyString) (value : Bytes) :
    SetsPairs (values ++ [value]) (calls ++ [{ keyString, value := some values.length }])
      (pairs ++ [(keyString.text, cString value)]) := by
  apply List.rel_append (h.append [value])
  exact List.Forall₂.cons ⟨rfl, values.length, rfl, by simp⟩ List.Forall₂.nil

namespace IniHandler

variable {malloc : Nat → Nat} {handler : IniHandler} {calls : List SetCall} {settings : List IniSetting}

theorem represents_new : IniHandler.Represents {} [] [] where
  configuration := SortMap.holds_create stringHash 0
  addresses _ _ h := by simp at h
  count := rfl
  sections _ _ _ h := by simp at h

/-- A call that creates a section leaves it without settings. -/
theorem Represents.createSection (h : handler.Represents calls settings) {configuration : SortMap} {call : SetCall}
    (hset : handler.configuration.set stringHash call = some configuration) (hvalue : call.value = some calls.length)
    (hhash : ∀ other ∈ calls, stringHash other.text ≠ stringHash call.text)
    (hnew : ∀ setting ∈ settings, setting.1 ≠ call.text) (allocated : Nat) :
    IniHandler.Represents
      { handler with configuration, sections := handler.sections ++ [createSortMap 0], allocated }
      (calls ++ [call]) settings := by
  obtain ⟨haddress, -⟩ := SortMap.of_set h.configuration.sound hset
  have hdistinct : ∀ other ∈ calls, Distinct stringHash other call := fun other hother =>
    ⟨hhash other hother,
      haddress _ ((h.configuration.elements _).mpr ⟨other, hother, rfl⟩) (hhash other hother)⟩
  obtain ⟨map', hset', hholds⟩ := h.configuration.set hdistinct
  cases hset.symm.trans hset'
  constructor
  · exact hholds
  · intro index other hother
    rw [List.getElem?_append] at hother
    split at hother
    case isTrue => exact h.addresses index other hother
    case isFalse hlt =>
      have hindex : index = calls.length := by
        have hsome := (List.getElem?_eq_some_iff.mp hother).1
        rw [List.length_singleton] at hsome
        omega
      rw [hindex, Nat.sub_self] at hother
      cases hother
      rw [hvalue, hindex]
  · simp [h.count]
  · intro index map other hmap hother
    dsimp only at hmap
    rw [List.getElem?_append] at hmap hother
    rw [h.count] at hmap
    split at hmap
    case isTrue hlt =>
      rw [if_pos hlt] at hother
      exact h.sections index map other hmap hother
    case isFalse hlt =>
      rw [if_neg hlt] at hother
      have hindex : index - calls.length = 0 := by
        have hsome := (List.getElem?_eq_some_iff.mp hother).1
        rw [List.length_singleton] at hsome
        omega
      rw [hindex] at hmap hother
      cases hmap
      cases hother
      refine ⟨[], SortMap.reached_nil stringHash, ?_⟩
      rw [List.filter_eq_nil_iff.mpr fun setting hmem => by simpa using hnew setting hmem]
      exact List.Forall₂.nil

/-- The section of a name is found, or created with no setting in it. -/
theorem Represents.findSection (malloc : Nat → Nat) (h : handler.Represents calls settings)
    (hnamed : Named calls settings) (name : Bytes)
    (hapart : ∀ setting ∈ settings, stringHash setting.1 = stringHash name → setting.1 = name) :
    handler.findSection malloc name = .error .clash ∨
      ∃ (found : IniHandler) (index : Nat) (call : SetCall) (calls' : List SetCall),
        handler.findSection malloc name = .ok (found, index) ∧
        found.Represents calls' settings ∧ calls'[index]? = some call ∧ call.text = name ∧
        calls'.map SetCall.text = (settings.map Prod.fst ++ [name]).eraseDups ∧
        found.sectionBuffer = handler.sectionBuffer ∧ found.values = handler.values := by
  rw [IniHandler.findSection, eraseDups_concat, ← hnamed]
  by_cases hmem : ∃ setting ∈ settings, setting.1 = name
  · obtain ⟨call, hcall, rfl⟩ := hnamed.mem.mpr hmem
    obtain ⟨index, hindex⟩ := List.mem_iff_getElem?.mp hcall
    have hfinds := HashMap.getValue_of_mem h.configuration.sound ((h.configuration.elements _).mpr ⟨call, hcall, rfl⟩)
    have htext : (SortMap.elementOf stringHash call).keyString.text = call.text := rfl
    have hvalue : (SortMap.elementOf stringHash call).value = some index := h.addresses index call hindex
    rw [htext, hvalue] at hfinds
    have hcontains : (settings.map Prod.fst).contains call.text = true := by
      obtain ⟨setting, hsetting, hname⟩ := hmem
      simpa using ⟨setting.2.1, setting.2.2, by rw [← hname]; exact hsetting⟩
    rw [hfinds, hcontains, if_pos rfl, List.append_nil]
    exact Or.inr ⟨handler, index, call, calls, rfl, h, hindex, rfl, rfl, rfl, rfl⟩
  · have hnone : ∀ call ∈ calls, call.text ≠ name := fun call hcall htext => hmem (hnamed.mem.mp ⟨call, hcall, htext⟩)
    have hfinds := HashMap.getValue_of_not_mem h.configuration.sound fun other hother htext => by
      obtain ⟨call, hcall, rfl⟩ := (h.configuration.elements other).mp hother
      exact hnone call hcall htext
    have hcontains : (settings.map Prod.fst).contains name = false := by
      rw [← Bool.not_eq_true, List.contains_iff_mem, List.mem_map]
      exact hmem
    rw [hfinds, hcontains]
    simp only [IniHandler.createSection, Bool.false_eq_true, ↓reduceIte]
    generalize hcall : SetCall.mk ⟨malloc handler.allocated, name⟩ (some handler.sections.length) = call
    have htext : call.text = name := by rw [← hcall]; rfl
    have hvalue : call.value = some calls.length := by rw [← hcall, ← h.count]
    cases iniSet_eq h.configuration.sound call with
    | inl hclash =>
        rw [hclash]
        exact Or.inl rfl
    | inr hok =>
        obtain ⟨configuration, hset, hmap⟩ := hok
        rw [hset, h.count]
        have hcreated := h.createSection hmap hvalue
          (fun other hother hhash => hnone other hother (by
            obtain ⟨setting, hsetting, hname⟩ := hnamed.mem.mp ⟨other, hother, rfl⟩
            rw [← hname]
            exact hapart setting hsetting (by rw [hname, hhash, htext])))
          (fun setting hsetting hname => hmem ⟨setting, hsetting, hname.trans htext⟩) (handler.allocated + 1)
        refine Or.inr ⟨_, calls.length, call, calls ++ [call], rfl, hcreated, by simp, htext, ?_, rfl, rfl⟩
        rw [List.map_append, List.map_singleton, htext]

/-- A call that sets a pair in the sort map of a section. -/
theorem Represents.setPair (h : handler.Represents calls settings) {index : Nat} {call keyCall : SetCall}
    {map map' : SortMap} (hcall : calls[index]? = some call) (hmap : handler.sections[index]? = some map)
    (hset : map.set stringHash keyCall = some map') (hvalue : keyCall.value = some handler.values.length)
    (value : Bytes) (allocated : Nat) :
    IniHandler.Represents
      { handler with sections := handler.sections.set index map', values := handler.values ++ [value], allocated }
      calls (settings ++ [(call.text, keyCall.text, cString value)]) := by
  have hlt := (List.getElem?_eq_some_iff.mp hmap).1
  constructor
  · exact h.configuration
  · exact h.addresses
  · simp [h.count]
  · intro index' map₁ call₁ hmap₁ hcall₁
    dsimp only at hmap₁
    by_cases hindex : index' = index
    · subst hindex
      rw [List.getElem?_set_self hlt] at hmap₁
      cases hmap₁
      cases hcall.symm.trans hcall₁
      obtain ⟨keyCalls, hreached, hpairs⟩ := h.sections index' map call hmap hcall
      refine ⟨keyCalls ++ [keyCall], hreached.concat hset, ?_⟩
      have hfilter : ((settings ++ [(call.text, keyCall.text, cString value)]).filter (·.1 == call.text)).map Prod.snd =
          (settings.filter (·.1 == call.text)).map Prod.snd ++ [(keyCall.text, cString value)] := by simp
      have hconcat := hpairs.concat keyCall.keyString value
      have hkeyCall : keyCall = { keyString := keyCall.keyString, value := some handler.values.length } := by
        rw [← hvalue]
      rw [hfilter]
      rwa [← hkeyCall] at hconcat
    · rw [List.getElem?_set_ne (Ne.symm hindex)] at hmap₁
      obtain ⟨keyCalls, hreached, hpairs⟩ := h.sections index' map₁ call₁ hmap₁ hcall₁
      refine ⟨keyCalls, hreached, ?_⟩
      have hother : call.text ≠ call₁.text := by
        intro htext
        have hsame := SortMap.pairwise_distinct_eq h.configuration.distinct (List.mem_of_getElem? hcall)
          (List.mem_of_getElem? hcall₁) (.inl (by rw [htext]))
        have haddress := (h.addresses index call hcall).symm.trans
          ((congrArg _ hsame).trans (h.addresses index' call₁ hcall₁))
        exact hindex (Option.some.inj haddress).symm
      have hfilter : ((settings ++ [(call.text, keyCall.text, cString value)]).filter (·.1 == call₁.text)) =
          settings.filter (·.1 == call₁.text) := by simp [hother]
      rw [hfilter]
      exact hpairs.append [value]

/-- A value that is ended is set under the section and the key read last. -/
theorem Represents.valueEnd (malloc : Nat → Nat) (h : handler.Represents calls settings)
    (hnamed : Named calls settings) {name key : Bytes} (hname : handler.sectionBuffer = some name) (hkey : handler.keyBuffer = some key)
    (hapart : ∀ setting ∈ settings, stringHash setting.1 = stringHash name → setting.1 = name) (text : Bytes) :
    handler.valueEnd malloc text = .error .clash ∨ ∃ handler' calls', handler.valueEnd malloc text = .ok handler' ∧
      handler'.Represents calls' (settings ++ [(name, key, cString (text.drop (leadingOffset text)))]) ∧
      Named calls' (settings ++ [(name, key, cString (text.drop (leadingOffset text)))]) ∧
      handler'.sectionBuffer = some name := by
  rw [IniHandler.valueEnd, hname, hkey]
  simp only [iniRead, bind, Except.bind]
  cases h.findSection malloc hnamed name hapart with
  | inl hclash =>
      rw [hclash]
      exact Or.inl rfl
  | inr hfound =>
      obtain ⟨found, index, call, calls', hfind, h', hcall, rfl, hnames, hbuffer, -⟩ := hfound
      rw [hfind]
      have hlt : index < found.sections.length := by
        rw [h'.count]
        exact (List.getElem?_eq_some_iff.mp hcall).1
      obtain ⟨map, hmap⟩ : ∃ map, found.sections[index]? = some map := ⟨_, List.getElem?_eq_getElem hlt⟩
      obtain ⟨keyCalls, hreached, -⟩ := h'.sections index map call hmap hcall
      simp only [hmap]
      generalize hkeyCall : SetCall.mk ⟨malloc found.allocated, key⟩ (some found.values.length) = keyCall
      have hkeyText : keyCall.text = key := by rw [← hkeyCall]; rfl
      cases iniSet_eq hreached.follows.sound keyCall with
      | inl hclash =>
          rw [hclash]
          exact Or.inl rfl
      | inr hok =>
          obtain ⟨map', hset, hmapset⟩ := hok
          rw [hset]
          have hpair := h'.setPair hcall hmap hmapset (by rw [← hkeyCall]) (text.drop (leadingOffset text))
            (found.allocated + 1)
          rw [hkeyText] at hpair
          refine Or.inr ⟨_, calls', rfl, hpair, ?_, hbuffer.trans hname⟩
          rw [Named, hnames, List.map_append]
          rfl

/-- Whatever the settings, the sort map of the sections stays sound. -/
theorem sound_valueEnd {handler' : IniHandler} {text : Bytes} (h : handler.configuration.hashMap.Sound stringHash)
    (hvalue : handler.valueEnd malloc text = .ok handler') : handler'.configuration.hashMap.Sound stringHash := by
  rw [IniHandler.valueEnd] at hvalue
  obtain ⟨name, -, hvalue⟩ := Except.bind_ok hvalue
  obtain ⟨key, -, hvalue⟩ := Except.bind_ok hvalue
  obtain ⟨⟨found, index⟩, hfind, hvalue⟩ := Except.bind_ok hvalue
  have hfound : found.configuration.hashMap.Sound stringHash := by
    rw [IniHandler.findSection] at hfind
    split at hfind
    · cases hfind
    · cases hfind
      exact h
    · rw [IniHandler.createSection] at hfind
      obtain ⟨configuration, hset, hfind⟩ := Except.bind_ok hfind
      cases hfind
      exact (SortMap.of_set h (set_of_iniSet hset)).2.1.sound
  dsimp only at hvalue
  split at hvalue
  · cases hvalue
  · obtain ⟨map, -, hvalue⟩ := Except.bind_ok hvalue
    cases hvalue
    exact hfound

end IniHandler

/-! ## The lines of a file -/

namespace IniLine

/-- The names and the keys that the buffers hold. -/
def Held : IniLine → Prop
  | .filler _ => True
  | .header name _ => name.length < iniKeyMaxSize
  | .pair p => p.key.length < iniKeyMaxSize

/-- The settings of lines, which stand below a header of a name. -/
def settings : Bytes → List (IniLine × LineEnd) → List IniSetting
  | _, [] => []
  | name, (.filler _, _) :: rest => settings name rest
  | _, (.header name _, _) :: rest => settings name rest
  | name, (.pair p, _) :: rest => (name, p.key, p.value) :: settings name rest

end IniLine

theorem iniBuffer_eq {text : Bytes} (h : text.length < iniKeyMaxSize) : iniBuffer text = .ok (cString text) := if_pos h

theorem length_of_iniBuffer {text string : Bytes} (h : iniBuffer text = .ok string) : text.length < iniKeyMaxSize := by
  rw [iniBuffer] at h
  split at h
  case isTrue hfits => exact hfits
  case isFalse => cases h

theorem keyEnd_pair (handler : IniHandler) (p : IniPair) : handler.keyEnd p.keyText =
    (iniBuffer p.key).map fun key => { handler with keyBuffer := some key } := by
  rw [IniHandler.keyEnd, p.take_keyText]
  cases iniBuffer p.key <;> rfl

theorem sectionEnd_eq (handler : IniHandler) {name : Bytes} (htext : 0 ∉ name) (h : name.length < iniKeyMaxSize) :
    handler.sectionEnd name = .ok { handler with sectionBuffer := some name } := by
  rw [IniHandler.sectionEnd, iniBuffer_eq h, cString_of_text htext]
  rfl

namespace IniHandler

variable {malloc : Nat → Nat} {handler handler' : IniHandler} {calls : List SetCall} {settings : List IniSetting}

theorem Represents.buffers (h : handler.Represents calls settings) (sectionBuffer keyBuffer : Option Bytes) :
    IniHandler.Represents { handler with sectionBuffer, keyBuffer } calls settings :=
  ⟨h.configuration, h.addresses, h.count, h.sections⟩

/-- Lines below a header set their settings. -/
theorem Represents.actLines (malloc : Nat → Nat) (lines : List (IniLine × LineEnd)) {name : Bytes}
    (h : handler.Represents calls settings) (hnamed : Named calls settings) (hname : handler.sectionBuffer = some name)
    (hheld : ∀ line ∈ lines, line.1.Held)
    (hapart : ∀ setting ∈ settings ++ IniLine.settings name lines,
      ∀ setting' ∈ settings ++ IniLine.settings name lines,
      stringHash setting.1 = stringHash setting'.1 → setting.1 = setting'.1) :
    Viriatum.actLines malloc handler lines = .error .clash ∨
      ∃ handler' calls', Viriatum.actLines malloc handler lines = .ok handler' ∧
        handler'.Represents calls' (settings ++ IniLine.settings name lines) ∧
        Named calls' (settings ++ IniLine.settings name lines) := by
  induction lines generalizing handler calls settings name with
  | nil =>
      rw [IniLine.settings, List.append_nil]
      exact Or.inr ⟨handler, calls, rfl, h, hnamed⟩
  | cons line rest ih =>
      obtain ⟨line, ending⟩ := line
      have hline := hheld (line, ending) List.mem_cons_self
      have hrest : ∀ line ∈ rest, line.1.Held := fun line hmem => hheld line (List.mem_cons_of_mem _ hmem)
      have hcons : ∀ {handler' : IniHandler}, line.act malloc handler = .ok handler' →
          Viriatum.actLines malloc handler ((line, ending) :: rest) = Viriatum.actLines malloc handler' rest := by
        intro handler' hact
        rw [Viriatum.actLines, List.foldlM_cons, hact]
        rfl
      cases line with
      | filler filler =>
          rw [hcons rfl]
          exact ih h hnamed hname hrest hapart
      | header name' plain =>
          rw [hcons (sectionEnd_eq handler plain.2 hline)]
          exact ih (h.buffers (some name') handler.keyBuffer) hnamed rfl hrest hapart
      | pair p =>
          have hkey : handler.keyEnd p.keyText = .ok { handler with keyBuffer := some p.key } := by
            rw [keyEnd_pair, iniBuffer_eq hline, cString_of_text p.key_plain.2]
            rfl
          have hbuffer := h.buffers handler.sectionBuffer (some p.key)
          have hvalue := hbuffer.valueEnd malloc hnamed hname rfl (fun setting hmem =>
            hapart setting (List.mem_append_left _ hmem) (name, p.key, p.value) (by simp [IniLine.settings])) p.valueText
          rw [p.drop_valueText, p.value_text] at hvalue
          cases hvalue with
          | inl hclash =>
              apply Or.inl
              rw [Viriatum.actLines, List.foldlM_cons, IniLine.act, hkey]
              simp only [bind, Except.bind, hclash]
          | inr hok =>
              obtain ⟨handler', calls', hvalue, h', hnamed', hname'⟩ := hok
              have hact : (IniLine.pair p).act malloc handler = .ok handler' := by
                rw [IniLine.act, hkey]
                exact hvalue
              have hassoc : settings ++ IniLine.settings name ((.pair p, ending) :: rest) =
                  settings ++ [(name, p.key, p.value)] ++ IniLine.settings name rest := by simp [IniLine.settings]
              rw [hassoc] at hapart ⊢
              rw [hcons hact]
              exact ih h' hnamed' hname' hrest hapart

/-- Lines that come to their end have names and keys that the buffers hold, and leave a sound sort map. -/
theorem of_actLines (lines : List (IniLine × LineEnd)) (h : handler.configuration.hashMap.Sound stringHash)
    (hact : Viriatum.actLines malloc handler lines = .ok handler') :
    handler'.configuration.hashMap.Sound stringHash ∧ ∀ line ∈ lines, line.1.Held := by
  induction lines generalizing handler with
  | nil =>
      cases hact
      exact ⟨h, nofun⟩
  | cons line rest ih =>
      rw [Viriatum.actLines, List.foldlM_cons] at hact
      obtain ⟨between, hline, hrest⟩ := Except.bind_ok hact
      have hstep : between.configuration.hashMap.Sound stringHash ∧ line.1.Held := by
        obtain ⟨line, ending⟩ := line
        cases line with
        | filler filler =>
            cases hline
            exact ⟨h, trivial⟩
        | header name plain =>
            obtain ⟨string, hbuffer, hok⟩ := Except.bind_ok hline
            cases hok
            exact ⟨h, length_of_iniBuffer hbuffer⟩
        | pair p =>
            obtain ⟨keyed, hkey, hvalue⟩ := Except.bind_ok hline
            rw [keyEnd_pair] at hkey
            cases hbuffer : iniBuffer p.key with
            | error stop =>
                rw [hbuffer] at hkey
                cases hkey
            | ok string =>
                rw [hbuffer] at hkey
                cases hkey
                have hkeyed : IniHandler.valueEnd malloc { handler with keyBuffer := some string } p.valueText =
                    .ok between := hvalue
                have hsound : ({ handler with keyBuffer := some string } : IniHandler).configuration.hashMap.Sound
                    stringHash := h
                exact ⟨sound_valueEnd hsound hkeyed, length_of_iniBuffer hbuffer⟩
      obtain ⟨hsound, hheld⟩ := ih hstep.1 hrest
      refine ⟨hsound, fun other hmem => ?_⟩
      cases hmem with
      | head => exact hstep.2
      | tail _ hmem => exact hheld other hmem

end IniHandler

/-! ## What the map of sort maps shows -/

theorem forall₂_left {α β : Type} {related : α → β → Prop} {items : List α} {others : List β}
    (h : List.Forall₂ related items others) {item : α} (hmem : item ∈ items) : ∃ other ∈ others, related item other := by
  induction h with
  | nil => cases hmem
  | cons hhead _ ih =>
      cases hmem with
      | head => exact ⟨_, List.mem_cons_self, hhead⟩
      | tail _ hmem =>
          obtain ⟨other, hother, hrelated⟩ := ih hmem
          exact ⟨other, List.mem_cons_of_mem _ hother, hrelated⟩

theorem forall₂_fst {α β κ : Type} {related : κ × α → κ × β → Prop} {items : List (κ × α)} {others : List (κ × β)}
    (h : List.Forall₂ related items others) (hrelated : ∀ item other, related item other → item.1 = other.1) :
    items.map Prod.fst = others.map Prod.fst := by
  induction h with
  | nil => rfl
  | cons hhead _ ih => rw [List.map_cons, List.map_cons, hrelated _ _ hhead, ih]

theorem names_iniMap (settings : List IniSetting) :
    (iniMap settings).map Prod.fst = (settings.map Prod.fst).eraseDups := by
  rw [iniMap, grouped, List.map_map, List.map_map]
  exact List.map_id _

theorem grouped_eq {calls : List SetCall} {settings : List IniSetting} (hnamed : Named calls settings) :
    grouped settings = calls.map fun call => (call.text, (settings.filter (·.1 == call.text)).map Prod.snd) := by
  rw [grouped, ← hnamed, List.map_map]
  rfl

theorem mem_iniMap {settings : List IniSetting} {group : Bytes × List (Bytes × Bytes)} (h : group ∈ iniMap settings) :
    group.2 = lastValues ((settings.filter (·.1 == group.1)).map Prod.snd) := by
  obtain ⟨group', hmem, rfl⟩ := List.mem_map.mp h
  obtain ⟨name, -, rfl⟩ := List.mem_map.mp hmem
  rfl

/-- Where no key of a section is given twice, and the other settings repeat such ones, the map has the settings
themselves. -/
theorem iniMap_eq_grouped {kept settings : List IniSetting}
    (hkeys : ∀ group ∈ grouped kept, (group.2.map Prod.fst).Nodup)
    (hsettings : settings = kept ∨ ∃ last ∈ kept, settings = kept ++ [last]) : iniMap settings = grouped kept := by
  have hkept : iniMap kept = grouped kept := by
    rw [iniMap]
    conv_rhs => rw [← List.map_id (grouped kept)]
    exact List.map_congr_left fun group hmem => by rw [lastValues_of_nodup (hkeys group hmem)]; rfl
  rcases hsettings with rfl | ⟨last, hlast, rfl⟩
  · exact hkept
  · have hname : last.1 ∈ kept.map Prod.fst := List.mem_map.mpr ⟨last, hlast, rfl⟩
    have hcontains : (kept.map Prod.fst).contains last.1 = true := by rwa [List.contains_iff_mem]
    rw [← hkept, iniMap, iniMap, grouped, grouped, List.map_append, List.map_singleton, eraseDups_concat, hcontains,
      if_pos rfl, List.append_nil, List.map_map, List.map_map]
    apply List.map_congr_left
    intro name hmem
    by_cases heq : last.1 = name
    · have hfilter : ((kept ++ [last]).filter (·.1 == name)).map Prod.snd =
          (kept.filter (·.1 == name)).map Prod.snd ++ [last.2] := by simp [heq]
      have hin : last.2 ∈ (kept.filter (·.1 == name)).map Prod.snd :=
        List.mem_map.mpr ⟨last, List.mem_filter.mpr ⟨hlast, by simp [heq]⟩, rfl⟩
      have hnodup := hkeys (name, (kept.filter (·.1 == name)).map Prod.snd) (List.mem_map.mpr ⟨name, hmem, rfl⟩)
      simp only [Function.comp_apply, hfilter, lastValues_concat hnodup hin]
    · have hfilter : (kept ++ [last]).filter (·.1 == name) = kept.filter (·.1 == name) := by simp [heq]
      simp only [Function.comp_apply, hfilter]

namespace IniHandler

variable {handler : IniHandler} {calls : List SetCall} {kept settings : List IniSetting}

theorem showsValue_unique (handler : IniHandler) : Relator.RightUnique handler.ShowsValue := by
  rintro entry pair pair' ⟨hkey, address, hentry, hvalue⟩ ⟨hkey', address', hentry', hvalue'⟩
  cases hentry.symm.trans hentry'
  exact Prod.ext (hkey.symm.trans hkey') (Option.some.inj (hvalue.symm.trans hvalue'))

theorem showsValue_of_sets {keyCalls : List SetCall} {pairs : List (Bytes × Bytes)}
    (h : SetsPairs handler.values keyCalls pairs) :
    List.Forall₂ handler.ShowsValue (keyCalls.map fun call => (call.text, call.value)) pairs :=
  List.forall₂_map_left_iff.mpr h

theorem keys_of_sets {values : List Bytes} {keyCalls : List SetCall} {pairs : List (Bytes × Bytes)}
    (h : SetsPairs values keyCalls pairs) :
    (keyCalls.map fun call => stringHash call.text) = pairs.map fun pair => stringHash pair.1 := by
  induction h with
  | nil => rfl
  | cons hhead _ ih => rw [List.map_cons, List.map_cons, hhead.1, ih]

/-- A section that shows the last values of some pairs has had each key set once, so that its pairs are those. -/
theorem Represents.section_pairs (h : handler.Represents calls kept) {call : SetCall} (hcall : call ∈ calls)
    {pairs : List (Bytes × Bytes)}
    (hshows : handler.ShowsSection (call.text, call.value) (call.text, lastValues pairs)) :
    (kept.filter (·.1 == call.text)).map Prod.snd = lastValues pairs ∧
      (((kept.filter (·.1 == call.text)).map Prod.snd).map fun pair => stringHash pair.1).Nodup := by
  obtain ⟨-, address, map, entries, hvalue, hmap, hyields, hpairs⟩ := hshows
  obtain ⟨index, hindex⟩ := List.mem_iff_getElem?.mp hcall
  cases (h.addresses index call hindex).symm.trans hvalue
  obtain ⟨keyCalls, hreached, hsets⟩ := h.sections address map call hmap hindex
  have hkeys := forall₂_fst hpairs fun _ _ hshown => hshown.1
  have hnodup : (entries.map Prod.fst).Nodup := by
    rw [hkeys, keys_lastValues]
    exact nodup_eraseDups _
  have hhashes := hreached.follows.nodup hyields.1 hnodup
  rw [hyields.1.unique (hreached.holds hhashes).yields] at hpairs
  refine ⟨Relator.RightUnique.forall₂ handler.showsValue_unique (showsValue_of_sets hsets) hpairs, ?_⟩
  rwa [keys_of_sets hsets] at hhashes

/-- The map of sort maps shows the last values exactly where the keys of a section have different hashes, and a value
that has not been set is there already. -/
theorem Represents.shows_iff (h : handler.Represents calls kept) (hnamed : Named calls kept)
    (hsettings : settings = kept ∨ ∃ last, settings = kept ++ [last]) :
    handler.Shows (iniMap settings) ↔ (∀ group ∈ grouped kept, (group.2.map fun pair => stringHash pair.1).Nodup) ∧
      ∀ setting ∈ settings, setting ∈ kept := by
  have hnodup : ∀ pairs : List (Bytes × Bytes), (pairs.map fun pair => stringHash pair.1).Nodup →
      (pairs.map Prod.fst).Nodup := fun pairs hhashes => by
    apply List.Nodup.of_map stringHash
    rwa [List.map_map]
  constructor
  · rintro ⟨entries, hentries, hgroups⟩
    rw [hentries.1.unique h.configuration.yields] at hgroups
    have hnames := forall₂_fst hgroups fun _ _ hshown => hshown.1
    have hsection : ∀ call ∈ calls, handler.ShowsSection (call.text, call.value)
        (call.text, lastValues ((settings.filter (·.1 == call.text)).map Prod.snd)) := fun call hcall => by
      obtain ⟨group, hgroup, hshown⟩ := forall₂_left hgroups (List.mem_map.mpr ⟨call, hcall, rfl⟩)
      have hpairs := mem_iniMap hgroup
      obtain ⟨name, pairs⟩ := group
      cases hshown.1
      exact hpairs ▸ hshown
    constructor
    · rw [grouped_eq hnamed]
      intro group hmem
      obtain ⟨call, hcall, rfl⟩ := List.mem_map.mp hmem
      exact (h.section_pairs hcall (hsection call hcall)).2
    · rcases hsettings with rfl | ⟨last, rfl⟩
      · exact fun setting hmem => hmem
      · have hlast : last ∈ kept := by
          have hname : last.1 ∈ calls.map SetCall.text := by
            have htexts : calls.map SetCall.text = ((kept ++ [last]).map Prod.fst).eraseDups := by
              rw [← names_iniMap, ← hnames, List.map_map]
              rfl
            rw [htexts, List.mem_eraseDups]
            simp
          obtain ⟨call, hcall, hname⟩ := List.mem_map.mp hname
          have hpairs := (h.section_pairs hcall (hsection call hcall)).1
          have hmem : last.2 ∈ (kept.filter (·.1 == call.text)).map Prod.snd := by
            have hfilter : ((kept ++ [last]).filter (·.1 == call.text)).map Prod.snd =
                (kept.filter (·.1 == call.text)).map Prod.snd ++ [last.2] := by simp [hname]
            rw [hpairs, hfilter]
            apply mem_lastValues.mpr
            have hconcat := lookup_reverse_concat ((kept.filter (·.1 == call.text)).map Prod.snd) last.2.1 last.2.1
              last.2.2
            rw [hconcat, if_pos (beq_self_eq_true _)]
          obtain ⟨setting, hsetting, hpair⟩ := List.mem_map.mp hmem
          obtain ⟨hin, hsame⟩ := List.mem_filter.mp hsetting
          have heq : setting = last := Prod.ext ((beq_iff_eq.mp hsame).trans hname) hpair
          exact heq ▸ hin
        intro setting hmem
        cases List.mem_append.mp hmem with
        | inl hin => exact hin
        | inr hin => exact List.mem_singleton.mp hin ▸ hlast
  · rintro ⟨hkeys, hlast⟩
    have hsettings' : settings = kept ∨ ∃ last ∈ kept, settings = kept ++ [last] := by
      rcases hsettings with rfl | ⟨last, rfl⟩
      · exact Or.inl rfl
      · exact Or.inr ⟨last, hlast last (by simp), rfl⟩
    rw [iniMap_eq_grouped (fun group hmem => hnodup _ (hkeys group hmem)) hsettings']
    refine ⟨_, ⟨h.configuration.yields, h.configuration.finds⟩, ?_⟩
    rw [grouped_eq hnamed, List.forall₂_map_left_iff, List.forall₂_map_right_iff, List.forall₂_same]
    intro call hcall
    obtain ⟨index, hindex⟩ := List.mem_iff_getElem?.mp hcall
    have hlt : index < handler.sections.length := by
      rw [h.count]
      exact (List.getElem?_eq_some_iff.mp hindex).1
    have hmap := List.getElem?_eq_getElem hlt
    obtain ⟨keyCalls, hreached, hsets⟩ := h.sections index _ call hmap hindex
    have hgroup := hkeys _ (by rw [grouped_eq hnamed]; exact List.mem_map.mpr ⟨call, hcall, rfl⟩)
    rw [← keys_of_sets hsets] at hgroup
    have hholds := hreached.holds hgroup
    exact ⟨rfl, index, _, _, h.addresses index call hindex, hmap, ⟨hholds.yields, hholds.finds⟩,
      showsValue_of_sets hsets⟩

end IniHandler

end Viriatum
