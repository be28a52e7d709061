import Viriatum.Commons.Lemmas.IniSections

/-!
# The configuration files that are read exactly

A configuration is read as the map from each section and key to the last value given, but for the settings that the
engine or the sort maps cannot keep.
-/

namespace Viriatum

open Structures Library Http2Connection

/-! ## The lines of a configuration -/

/-- No pair stands before the first header. -/
def Headed : List (IniLine × LineEnd) → Prop
  | [] => True
  | (.filler _, _) :: rest => Headed rest
  | (.header _ _, _) :: _ => True
  | (.pair _, _) :: _ => False

theorem Headed.of_append {lines more : List (IniLine × LineEnd)} (h : Headed (lines ++ more)) : Headed lines := by
  induction lines with
  | nil => trivial
  | cons line rest ih =>
      obtain ⟨line, ending⟩ := line
      cases line with
      | filler filler => exact ih h
      | header name plain => trivial
      | pair p => exact h

/-- Lines that begin with a header, or fillers before it, set their settings. -/
theorem actLines_headed (malloc : Nat → Nat) {lines : List (IniLine × LineEnd)} (h : Headed lines)
    (hheld : ∀ line ∈ lines, line.1.Held)
    (hapart : ∀ setting ∈ IniLine.settings [] lines, ∀ setting' ∈ IniLine.settings [] lines,
      stringHash setting.1 = stringHash setting'.1 → setting.1 = setting'.1) :
    actLines malloc {} lines = .error .clash ∨ ∃ handler calls, actLines malloc {} lines = .ok handler ∧
      handler.Represents calls (IniLine.settings [] lines) ∧ Named calls (IniLine.settings [] lines) := by
  induction lines with
  | nil => exact Or.inr ⟨{}, [], rfl, IniHandler.represents_new, rfl⟩
  | cons line rest ih =>
      obtain ⟨line, ending⟩ := line
      have hrest : ∀ line ∈ rest, line.1.Held := fun line hmem => hheld line (List.mem_cons_of_mem _ hmem)
      cases line with
      | filler filler => exact ih h hrest hapart
      | header name plain =>
          have hline : name.length < iniKeyMaxSize := hheld _ List.mem_cons_self
          have hstart := IniHandler.represents_new.buffers (some name) none
          have hact := hstart.actLines malloc rest rfl rfl hrest hapart
          have hcons : actLines malloc {} ((.header name plain, ending) :: rest) =
              actLines malloc { sectionBuffer := some name } rest := by
            rw [actLines, List.foldlM_cons, IniLine.act, sectionEnd_eq {} plain.2 hline]
            rfl
          rw [hcons]
          exact hact
      | pair p => exact absurd h id

theorem settings_concat (name : Bytes) (lines : List (IniLine × LineEnd)) (p : IniPair) (ending : LineEnd) :
    ∃ name', IniLine.settings name (lines ++ [(.pair p, ending)]) =
      IniLine.settings name lines ++ [(name', p.key, p.value)] := by
  induction lines generalizing name with
  | nil => exact ⟨name, rfl⟩
  | cons line rest ih =>
      obtain ⟨line, ending'⟩ := line
      cases line with
      | filler filler => exact ih name
      | header name' plain => exact ih name'
      | pair p' =>
          obtain ⟨name', h⟩ := ih name
          exact ⟨name', by simp [IniLine.settings, h]⟩

namespace IniSection

theorem settings_entries (name : Bytes) (entries : List ((IniFiller ⊕ IniPair) × LineEnd))
    (more : List (IniLine × LineEnd)) :
    IniLine.settings name (entries.map (fun entry => (entry.1.elim .filler .pair, entry.2)) ++ more) =
      (entries.filterMap fun entry => entry.1.getRight?).map (fun p => (name, p.key, p.value)) ++
        IniLine.settings name more := by
  induction entries with
  | nil => rfl
  | cons entry rest ih =>
      obtain ⟨entry, ending⟩ := entry
      cases entry with
      | inl filler => exact ih
      | inr p => exact congrArg ((name, p.key, p.value) :: ·) ih

end IniSection

namespace IniConfiguration

theorem settings_sections (name : Bytes) (sections : List IniSection) :
    IniLine.settings name (sections.flatMap IniSection.lines) =
      sections.flatMap fun s => s.pairs.map fun p => (s.name, p.key, p.value) := by
  induction sections generalizing name with
  | nil => rfl
  | cons s rest ih =>
      have hentries := IniSection.settings_entries s.name s.entries (rest.flatMap IniSection.lines)
      rw [List.flatMap_cons, List.flatMap_cons, ← ih s.name]
      exact hentries

theorem settings_lines (c : IniConfiguration) : IniLine.settings [] c.lines = c.settings := by
  have hopening : ∀ opening : List (IniFiller × LineEnd),
      IniLine.settings [] (opening.map (fun line => (.filler line.1, line.2)) ++ c.sections.flatMap IniSection.lines) =
        IniLine.settings [] (c.sections.flatMap IniSection.lines) := by
    intro opening
    induction opening with
    | nil => rfl
    | cons line rest ih => exact ih
  rw [lines, hopening, settings_sections, settings]

theorem headed_lines (c : IniConfiguration) : Headed c.lines := by
  have hopening : ∀ opening : List (IniFiller × LineEnd),
      Headed (opening.map (fun line => (.filler line.1, line.2)) ++ c.sections.flatMap IniSection.lines) := by
    intro opening
    induction opening with
    | nil =>
        cases c.sections with
        | nil => trivial
        | cons s rest => trivial
    | cons line rest ih => exact ih
  exact hopening c.opening

/-- The lines have names and keys that the buffers hold exactly where the sections and the settings have. -/
theorem held_iff (c : IniConfiguration) : (∀ line ∈ c.lines, line.1.Held) ↔
    (∀ s ∈ c.sections, s.name.length < iniKeyMaxSize) ∧
      ∀ setting ∈ c.settings, setting.2.1.length < iniKeyMaxSize := by
  constructor
  · intro h
    have hsection : ∀ s ∈ c.sections, ∀ line ∈ s.lines, line.1.Held := fun s hs line hline =>
      h line (List.mem_append_right _ (List.mem_flatMap.mpr ⟨s, hs, hline⟩))
    constructor
    · exact fun s hs => hsection s hs _ List.mem_cons_self
    · intro setting hmem
      obtain ⟨s, hs, hmem⟩ := List.mem_flatMap.mp hmem
      obtain ⟨p, hp, rfl⟩ := List.mem_map.mp hmem
      obtain ⟨entry, hentry, hright⟩ := List.mem_filterMap.mp hp
      obtain ⟨entry, ending⟩ := entry
      cases entry with
      | inl filler => cases hright
      | inr p' =>
          cases hright
          exact hsection s hs (.pair p, ending) (List.mem_cons_of_mem _ (List.mem_map.mpr ⟨_, hentry, rfl⟩))
  · rintro ⟨hnames, hkeys⟩ line hmem
    cases List.mem_append.mp hmem with
    | inl hopening =>
        obtain ⟨filler, -, rfl⟩ := List.mem_map.mp hopening
        trivial
    | inr hsections =>
        obtain ⟨s, hs, hline⟩ := List.mem_flatMap.mp hsections
        cases hline with
        | head => exact hnames s hs
        | tail _ hline =>
            obtain ⟨⟨entry, ending⟩, hentry, rfl⟩ := List.mem_map.mp hline
            cases entry with
            | inl filler => trivial
            | inr p =>
                exact hkeys (s.name, p.key, p.value) (List.mem_flatMap.mpr ⟨s, hs, List.mem_map.mpr
                  ⟨p, List.mem_filterMap.mpr ⟨(.inr p, ending), hentry, rfl⟩, rfl⟩⟩)

/-- The lines of a file whose last value is ended are all ended; of any other file the last pair is not. -/
theorem cases_ended (c : IniConfiguration) (ended : Bool) :
    (unendedPair ended c.lines = none ∧ endedLines ended c.lines = c.lines ∧ c.kept ended = c.settings) ∨
      ∃ p name ending, unendedPair ended c.lines = some p ∧
        c.lines = endedLines ended c.lines ++ [(.pair p, ending)] ∧
        IniLine.settings [] (endedLines ended c.lines) = c.kept ended ∧
        c.settings = c.kept ended ++ [(name, p.key, p.value)] := by
  rw [endedLines, kept, lost, unendedPair]
  cases ended with
  | true => exact Or.inl ⟨rfl, rfl, rfl⟩
  | false =>
      cases hlast : c.lines.getLast? with
      | none => exact Or.inl ⟨rfl, rfl, rfl⟩
      | some last =>
          obtain ⟨line, ending⟩ := last
          cases line with
          | filler filler => exact Or.inl ⟨rfl, rfl, rfl⟩
          | header name plain => exact Or.inl ⟨rfl, rfl, rfl⟩
          | pair p =>
              have hlines := List.dropLast_append_getLast? _ hlast
              obtain ⟨name, hsettings⟩ := settings_concat [] c.lines.dropLast p ending
              rw [hlines, settings_lines] at hsettings
              refine Or.inr ⟨p, name, ending, rfl, hlines.symm, ?_, ?_⟩
              · simp [hsettings]
              · simp [hsettings]

theorem settings_ended (c : IniConfiguration) (ended : Bool) :
    IniLine.settings [] (endedLines ended c.lines) = c.kept ended := by
  rcases c.cases_ended ended with ⟨-, hlines, hkept⟩ | ⟨p, name, ending, -, -, hsettings, -⟩
  · rw [hlines, settings_lines, hkept]
  · exact hsettings

theorem headed_ended (c : IniConfiguration) (ended : Bool) : Headed (endedLines ended c.lines) := by
  rcases c.cases_ended ended with ⟨-, hlines, -⟩ | ⟨p, name, ending, -, hlines, -, -⟩
  · rw [hlines]
    exact c.headed_lines
  · have hheaded := c.headed_lines
    rw [hlines] at hheaded
    exact hheaded.of_append

/-- Where the lines that are ended take effect, the map that is read is the one that they leave, and it is read exactly
where the key of a pair that is not ended fits. -/
theorem shows_of_act {malloc : Nat → Nat} {ended : Bool} {c : IniConfiguration} {handler : IniHandler}
    (hact : actLines malloc {} (endedLines ended c.lines) = .ok handler)
    (hheld : ∀ line ∈ endedLines ended c.lines, line.1.Held) :
    BuildsExactly malloc (renderIni ended c.lines) c.settings ↔
      handler.Shows (iniMap c.settings) ∧ ∀ line ∈ c.lines, line.1.Held := by
  rw [BuildsExactly, processIni_render, hact]
  simp only [bind, Except.bind]
  rcases c.cases_ended ended with ⟨hpair, hlines, -⟩ | ⟨p, name, ending, hpair, hlines, -, -⟩
  · rw [hpair]
    rw [hlines] at hheld
    constructor
    · rintro ⟨handler', heq, hshows⟩
      cases heq
      exact ⟨hshows, hheld⟩
    · exact fun h => ⟨handler, rfl, h.1⟩
  · rw [hpair]
    dsimp only
    rw [keyEnd_pair]
    constructor
    · rintro ⟨handler', heq, hshows⟩
      cases hbuffer : iniBuffer p.key with
      | error stop =>
          rw [hbuffer] at heq
          cases heq
      | ok key =>
          rw [hbuffer] at heq
          cases heq
          refine ⟨hshows, fun line hmem => ?_⟩
          rw [hlines] at hmem
          cases List.mem_append.mp hmem with
          | inl hin => exact hheld line hin
          | inr hin =>
              rw [List.mem_singleton.mp hin]
              exact length_of_iniBuffer hbuffer
    · rintro ⟨hshows, hall⟩
      have hkey : p.key.length < iniKeyMaxSize := hall (.pair p, ending) (by rw [hlines]; simp)
      rw [iniBuffer_eq hkey]
      exact ⟨_, rfl, hshows⟩

/-- A file is read as the map of its settings exactly where they fit. -/
theorem builds_iff_fits (malloc : Nat → Nat) (ended : Bool) (c : IniConfiguration)
    (hmalloc : processIni malloc (renderIni ended c.lines) ≠ .error .clash) :
    BuildsExactly malloc (renderIni ended c.lines) c.settings ↔ c.Fits ended := by
  have hnoclash : actLines malloc {} (endedLines ended c.lines) ≠ .error .clash := by
    intro hclash
    apply hmalloc
    rw [processIni_render, hclash]
    rfl
  have hsettings : c.settings = c.kept ended ∨ ∃ last, c.settings = c.kept ended ++ [last] := by
    rcases c.cases_ended ended with ⟨-, -, hkept⟩ | ⟨p, name, ending, -, -, -, hkept⟩
    · exact Or.inl hkept.symm
    · exact Or.inr ⟨_, hkept⟩
  have hgroups : ∀ setting ∈ c.kept ended, ∃ group ∈ grouped (c.kept ended), group.1 = setting.1 :=
    fun setting hmem => ⟨_, List.mem_map.mpr
      ⟨setting.1, List.mem_eraseDups.mpr (List.mem_map.mpr ⟨setting, hmem, rfl⟩), rfl⟩, rfl⟩
  have hrun : (∀ line ∈ endedLines ended c.lines, line.1.Held) →
      (∀ group ∈ grouped (c.kept ended), ∀ group' ∈ grouped (c.kept ended),
        stringHash group.1 = stringHash group'.1 → group.1 = group'.1) →
      ∃ handler calls, actLines malloc {} (endedLines ended c.lines) = .ok handler ∧
        handler.Represents calls (c.kept ended) ∧ Named calls (c.kept ended) := by
    intro hheld hapart
    have hact := actLines_headed malloc (c.headed_ended ended) hheld (by
      rw [c.settings_ended]
      intro setting hmem setting' hmem' hhash
      obtain ⟨group, hgroup, hname⟩ := hgroups setting hmem
      obtain ⟨group', hgroup', hname'⟩ := hgroups setting' hmem'
      rw [← hname, ← hname'] at hhash ⊢
      exact hapart group hgroup group' hgroup' hhash)
    rw [c.settings_ended] at hact
    exact hact.resolve_left hnoclash
  constructor
  · intro hbuilds
    obtain ⟨handler, hact, -⟩ : ∃ handler, actLines malloc {} (endedLines ended c.lines) = .ok handler ∧ True := by
      obtain ⟨handler', hprocess, -⟩ := hbuilds
      rw [processIni_render] at hprocess
      obtain ⟨handler, hact, -⟩ := Except.bind_ok hprocess
      exact ⟨handler, hact, trivial⟩
    obtain ⟨hsound, hheld⟩ := IniHandler.of_actLines _ IniHandler.represents_new.configuration.sound hact
    obtain ⟨hshows, hall⟩ := (shows_of_act hact hheld).mp hbuilds
    obtain ⟨hnames, hkeys⟩ := c.held_iff.mp hall
    have hapart : ∀ group ∈ grouped (c.kept ended), ∀ group' ∈ grouped (c.kept ended),
        stringHash group.1 = stringHash group'.1 → group.1 = group'.1 := by
      obtain ⟨entries, hentries, hshown⟩ := hshows
      have hfst := forall₂_fst hshown fun _ _ h => h.1
      have hentry : ∀ group ∈ grouped (c.kept ended), ∃ entry ∈ entries, entry.1 = group.1 := by
        intro group hgroup
        obtain ⟨name, hname, rfl⟩ := List.mem_map.mp hgroup
        obtain ⟨setting, hsetting, rfl⟩ := List.mem_map.mp (List.mem_eraseDups.mp hname)
        have hin : setting ∈ c.settings := by
          rcases hsettings with heq | ⟨last, heq⟩
          · rw [heq]
            exact hsetting
          · rw [heq]
            exact List.mem_append_left _ hsetting
        have hmem : setting.1 ∈ entries.map Prod.fst := by
          rw [hfst, names_iniMap, List.mem_eraseDups]
          exact List.mem_map.mpr ⟨setting, hin, rfl⟩
        exact List.mem_map.mp hmem
      intro group hgroup group' hgroup' hhash
      obtain ⟨entry, hmem, hname⟩ := hentry group hgroup
      obtain ⟨entry', hmem', hname'⟩ := hentry group' hgroup'
      rw [← hname, ← hname'] at hhash ⊢
      exact hentries.1.apart hsound hmem hmem' hhash
    obtain ⟨handler', calls, hact', hrepresents, hnamed⟩ := hrun hheld hapart
    cases hact.symm.trans hact'
    obtain ⟨hdistinct, hlast⟩ := (hrepresents.shows_iff hnamed hsettings).mp hshows
    exact ⟨hnames, hkeys, hapart, hdistinct, hlast⟩
  · intro h
    have hall := c.held_iff.mpr ⟨h.names, h.keys⟩
    have hheld : ∀ line ∈ endedLines ended c.lines, line.1.Held := by
      intro line hmem
      rcases c.cases_ended ended with ⟨-, hlines, -⟩ | ⟨p, name, ending, -, hlines, -, -⟩
      · exact hall line (hlines ▸ hmem)
      · exact hall line (by rw [hlines]; exact List.mem_append_left _ hmem)
    obtain ⟨handler, calls, hact, hrepresents, hnamed⟩ := hrun hheld h.sections_apart
    exact (shows_of_act hact hheld).mpr ⟨(hrepresents.shows_iff hnamed hsettings).mpr ⟨h.keys_apart, h.last⟩, hall⟩

end IniConfiguration

/-- Exactly which files are read as the map of their settings, whatever addresses not in use `malloc` gives. -/
theorem ini_files_read (malloc : Nat → Nat) (ended : Bool) (c : IniConfiguration)
    (hmalloc : processIni malloc (renderIni ended c.lines) ≠ .error .clash) :
    BuildsExactly malloc (renderIni ended c.lines) c.settings ↔ c.Fits ended := c.builds_iff_fits malloc ended hmalloc

/-- The file with one section, which has one pair. -/
def smallIni : IniConfiguration where
  opening := []
  sections :=
    [{ name := bytes "s"
       plain := by decide
       ending := .newline
       entries := [(.inr
        { key := bytes "k"
          before := 1
          after := 1
          value := bytes "v"
          key_first := ⟨107, [], rfl, by decide, by decide, rfl⟩
          key_plain := by decide
          key_trimmed := by decide
          value_plain := by simp [bytes, isLineEnd]
          value_trimmed := by decide }, .newline)] }]

theorem ini_files_read_small :
    BuildsExactly id (renderIni true smallIni.lines) smallIni.settings ↔ smallIni.Fits true :=
  ini_files_read id true smallIni fun hclash => by
    have hok : (processIni id (renderIni true smallIni.lines)).isOk = true := by decide +kernel
    rw [hclash] at hok
    cases hok

/-- A value that the file ends in is lost. -/
theorem not_ini_files_read : ¬ ∀ (malloc : Nat → Nat) (ended : Bool) (c : IniConfiguration),
    processIni malloc (renderIni ended c.lines) ≠ .error .clash →
      BuildsExactly malloc (renderIni ended c.lines) c.settings := by
  intro h
  have hmalloc : processIni id (renderIni false smallIni.lines) ≠ .error .clash := fun hclash => by
    have hok : (processIni id (renderIni false smallIni.lines)).isOk = true := by decide +kernel
    rw [hclash] at hok
    cases hok
  have hfits := (smallIni.builds_iff_fits id false hmalloc).mp (h id false smallIni hmalloc)
  cases hfits.last (bytes "s", bytes "k", bytes "v") List.mem_cons_self

end Viriatum
