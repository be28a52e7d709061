import Viriatum.Caches.Templates
import Viriatum.Commons.BencodingRoundTrip
import Viriatum.Template.Building

/-!
# Pages are rendered out of the templates that are there

In every run, a page that comes out of the cache is the one that its template is rendered to anew, as the template stands
behind its path within the last seconds.
-/

namespace Viriatum

open Function Http2Connection Library Structures

/-! ## Keys -/

theorem numeral_injective {a b : Nat} (h : numeral 10 a = numeral 10 b) : a = b := by
  have hread := readNumeral_numeral (show 1 < 10 by decide) (by decide) a
  rw [h, readNumeral_numeral (by decide) (by decide)] at hread
  exact (Option.some.inj hread).symm

theorem head_ne_numeral (number : Nat) (text : Bytes) : 45 :: text ≠ numeral 10 number := by
  intro h
  have hin : 45 ∈ numeral 10 number := h ▸ List.mem_cons_self
  exact absurd (numeral_octets (by decide) (by decide) 45 hin) (by decide)

theorem decimal_injective {a b : Int} (h : decimal a = decimal b) : a = b := by
  rw [decimal, decimal] at h
  split_ifs at h
  · have hsame := numeral_injective (List.cons.inj h).2
    omega
  · exact absurd h (head_ne_numeral _ _)
  · exact absurd h.symm (head_ne_numeral _ _)
  · have hsame := numeral_injective h
    omega

theorem blank_not_mem_decimal (value : Int) : 32 ∉ decimal value := by
  have hnumeral : 32 ∉ numeral 10 value.natAbs := fun hin =>
    absurd (numeral_octets (by decide) (by decide) 32 hin) (by decide)
  rw [decimal]
  split
  · simpa using hnumeral
  · exact hnumeral

/-- The key of a page tells the code and the message. -/
theorem errorKey_injective {code code' : Int} {message message' : Bytes} (h : errorKey code message = errorKey code' message') :
    code = code' ∧ message = message' := by
  have hcode : ∀ (code : Int) (message : Bytes), (errorKey code message).takeWhile (· ≠ 32) = decimal code := by
    intro code message
    rw [errorKey, List.takeWhile_append_of_pos]
    · simp
    · intro byte hin
      have hne : byte ≠ 32 := by
        rintro rfl
        exact blank_not_mem_decimal code hin
      simpa using hne
  have hsame : decimal code = decimal code' := by rw [← hcode code message, h, hcode]
  rw [errorKey, errorKey, hsame] at h
  exact ⟨decimal_injective hsame, (List.cons.inj (List.append_cancel_left h)).2⟩

/-! ## What is rendered -/

/-- The page of a template that is built and rendered at once, from its root. -/
def renderContents (contents : Bytes) (names : List (Bytes × BencodingType)) : Except TemplateStop Bytes := do
  let builder ← buildTemplate contents
  renderTemplate builder.root names

/-- Where every tag is closed, the root is the node that is current at the end. -/
theorem renderContents_eq {contents : Bytes} (h : openTags (processBufferTemplateEngine contents) = some 0)
    (names : List (Bytes × BencodingType)) : renderContents contents names = processTemplateHandler contents names := by
  have hends := TemplateBuilder.ends_build contents
  rw [renderContents, processTemplateHandler]
  cases hbuilt : buildTemplate contents with
  | error stop => rfl
  | ok builder =>
      rw [hbuilt] at hends
      obtain ⟨-, ⟨current, hcurrent⟩, hcount⟩ := hends
      have hclosed : builder.contexts.getD [] = [] := by
        have hlength : some 0 = some (builder.contexts.getD []).length := h.symm.trans hcount
        exact List.eq_nil_of_length_eq_zero (Option.some.inj hlength).symm
      simp [bind, Except.bind, TemplateBuilder.root, hclosed]

/-- What a template is rendered to as it stands behind a path within the last seconds, in a file that has had the same size
and the same time of writing since: the same as without the cache, where every tag is closed. -/
def Kernel.Renders (kernel : Kernel) (path : Bytes) (names : List (Bytes × BencodingType)) (result : Except TemplateStop Bytes) :
    Prop :=
  ∃ file, ∃ moment ∈ kernel.moments, moment.paths path = some file ∧ kernel.moment.now - moment.now < 4 ∧
    (moment.files file).contents.length = (kernel.moment.files file).contents.length ∧
    (moment.files file).written = (kernel.moment.files file).written ∧
    renderContents (moment.files file).contents names = result ∧
    (openTags (processBufferTemplateEngine (moment.files file).contents) = some 0 →
      processTemplateHandler (moment.files file).contents names = result)

theorem Kernel.Renders.of_contents {kernel : Kernel} {path : Bytes} {names : List (Bytes × BencodingType)}
    {result : Except TemplateStop Bytes} {file : Nat} {moment : Moment} (hin : moment ∈ kernel.moments)
    (hpath : moment.paths path = some file) (hrecent : kernel.moment.now - moment.now < 4)
    (hsize : (moment.files file).contents.length = (kernel.moment.files file).contents.length)
    (hwritten : (moment.files file).written = (kernel.moment.files file).written)
    (hresult : renderContents (moment.files file).contents names = result) : kernel.Renders path names result :=
  ⟨file, moment, hin, hpath, hrecent, hsize, hwritten, hresult, fun hclosed =>
    (renderContents_eq hclosed names).symm.trans hresult⟩

/-! ## What an entry is held for -/

/-- The tree of an entry is the one of a file, and so are its size and the time of its writing. -/
structure TemplateCacheEntry.Parsed (entry : TemplateCacheEntry) (stored : StoredFile) : Prop where
  size : stored.contents.length = entry.size
  written : stored.written = entry.written
  root : ∀ names, renderContents stored.contents names = renderTemplate entry.root names

/-- Every page that is held is the one that its key tells of. -/
def TemplateCacheEntry.Paged (entry : TemplateCacheEntry) : Prop :=
  ∀ slot page, entry.pages slot = some page → ∃ code message,
    page.key = errorKey code message ∧ renderTemplate entry.root (errorNames code message) = .ok page.contents

def TemplateCacheEntry.Reached (moments : List Moment) (index : Nat) (entry : TemplateCacheEntry) (file : Nat) : Prop :=
  index = templateSlot entry.path ∧ entry.Paged ∧ ∃ moment ∈ moments,
    moment.paths entry.path = some file ∧ moment.now = entry.checked ∧ entry.Parsed (moment.files file)

/-- An entry that may be handed out under a path. -/
def TemplateCacheEntry.Current (kernel : Kernel) (path : Bytes) (entry : TemplateCacheEntry) : Prop :=
  entry.path = path ∧ entry.Paged ∧ ∀ names, kernel.Renders path names (renderTemplate entry.root names)

/-- Why a template is not handed out. -/
def TemplateCacheStop.Cause (kernel : Kernel) (path : Bytes) (numbering : Numbering) : TemplateCacheStop → Prop
  | .problem => 1024 ≤ path.length ∨ kernel.moment.paths path = none ∨ (∃ descriptors, numbering.pick descriptors = none) ∨
      ∃ file, (kernel.moment.files file).described = false ∨ (kernel.moment.files file).readable = false
  | .fault stop => ∀ names, kernel.Renders path names (.error stop)

/-- What a request for a page is answered with: the page that the template is rendered to, or why there is none. -/
def Answered (kernel : Kernel) (path : Bytes) (names : List (Bytes × BencodingType)) (numbering : Numbering) :
    Except TemplateCacheStop Bytes → Prop
  | .ok page => kernel.Renders path names (.ok page)
  | .error (.fault stop) => kernel.Renders path names (.error stop)
  | .error .problem => TemplateCacheStop.problem.Cause kernel path numbering

namespace TemplateCache

abbrev Sound (cache : TemplateCache) : Prop :=
  DescriptorCache.Sound TemplateCacheEntry.descriptor TemplateCacheEntry.Reached cache

abbrev Keeps (before after : TemplateCache) : Prop :=
  DescriptorCache.Keeps TemplateCacheEntry.descriptor TemplateCacheEntry.Reached before after

/-- What the acquiring of a template leaves, and what it hands out. -/
def Acquired (before : TemplateCache) (path : Bytes) (numbering : Numbering) :
    Except TemplateCacheStop TemplateCacheEntry × TemplateCache → Prop
  | (.ok entry, after) =>
      Keeps before after ∧ after.entries (templateSlot path) = some entry ∧ entry.Current after.kernel path
  | (.error stop, after) => Keeps before after ∧ stop.Cause before.kernel path numbering

variable {cache before : TemplateCache} {path : Bytes} {numbering : Numbering}

theorem Acquired.of_keeps {result : Except TemplateCacheStop TemplateCacheEntry × TemplateCache} (h : Keeps before cache)
    (hacquired : Acquired cache path numbering result) : Acquired before path numbering result := by
  obtain ⟨stop | _, _⟩ := result
  · refine ⟨h.trans hacquired.1, ?_⟩
    have hcause := hacquired.2
    cases stop with
    | problem => simpa only [TemplateCacheStop.Cause, h.moment] using hcause
    | fault stop => simpa only [TemplateCacheStop.Cause, Kernel.Renders, Kernel.moments, h.moment, h.past] using hcause
  · exact ⟨h.trans hacquired.1, hacquired.2⟩

/-- What the building of a template out of a file comes to. -/
def Built (stored : StoredFile) : Except TemplateCacheStop (Option TemplateNode) → Prop
  | .error .problem => stored.readable = false
  | .error (.fault stop) => ∀ names, renderContents stored.contents names = .error stop
  | .ok root => ∀ names, renderContents stored.contents names = renderTemplate root names

theorem built_parse {kernel : Kernel} {descriptor file : Nat} (hfile : kernel.descriptors descriptor = some file) :
    Built (kernel.moment.files file) (parse kernel descriptor (kernel.moment.files file).contents.length) := by
  rw [parse, Kernel.readAt, hfile]
  simp only [Option.bind_eq_bind, Option.bind_some]
  cases hreadable : (kernel.moment.files file).readable with
  | false => exact hreadable
  | true =>
      simp only [List.take_length, if_true]
      cases hbuilt : buildTemplate (kernel.moment.files file).contents with
      | error stop => simp [Built, renderContents, hbuilt, bind, Except.bind]
      | ok builder => simp [Built, renderContents, hbuilt, bind, Except.bind]

theorem reopen_acquired (h : cache.Sound) (path : Bytes) (numbering : Numbering) :
    Acquired cache path numbering (cache.reopen path numbering) := by
  obtain ⟨hreleased, hfree⟩ := DescriptorCache.Sound.release h (templateSlot path)
  refine .of_keeps hreleased ?_
  rw [reopen, ← TemplateCache.release] at *
  have hsound : (cache.release (templateSlot path)).Sound := hreleased.sound
  generalize cache.release (templateSlot path) = released at hsound hfree
  dsimp only
  split
  · next hlong => exact ⟨.refl hsound, .inl hlong⟩
  · cases hopen : released.kernel.openRead path numbering with
    | none =>
        exact ⟨.refl hsound, (Kernel.openRead_eq_none hopen).elim (fun h => .inr (.inl h)) fun h => .inr (.inr (.inl h))⟩
    | some opened =>
        obtain ⟨descriptor, kernel⟩ := opened
        obtain ⟨file, hfile, hdescriptor, hmoment, hpast⟩ := Kernel.openRead_eq_some hopen
        dsimp only
        cases hstat : kernel.statRead descriptor with
        | none =>
            refine ⟨hsound.openClose hopen, .inr (.inr (.inr ⟨file, .inl ?_⟩))⟩
            exact hmoment ▸ Kernel.statRead_eq_none hdescriptor hstat
        | some stat =>
            obtain ⟨file', hfile', hsize, hwritten, -⟩ := Kernel.statRead_eq_some hstat
            rw [hdescriptor] at hfile'
            cases hfile'
            have hparse := built_parse hdescriptor
            rw [hmoment] at hsize hwritten hparse
            have hrenders : ∀ names result, renderContents (released.kernel.moment.files file).contents names = result →
                released.kernel.Renders path names result := fun names result hresult =>
              .of_contents (List.mem_cons_self ..) hfile (by simp) rfl rfl hresult
            dsimp only
            rw [hsize]
            cases hroot : parse kernel descriptor (released.kernel.moment.files file).contents.length with
            | error stop =>
                rw [hroot] at hparse
                refine ⟨hsound.openClose hopen, ?_⟩
                cases stop with
                | problem => exact .inr (.inr (.inr ⟨file, .inr hparse⟩))
                | fault stop => exact fun names => hrenders names _ (hparse names)
            | ok root =>
                rw [hroot] at hparse
                dsimp only
                have hpaged : TemplateCacheEntry.Paged
                    { path, descriptor, size := (released.kernel.moment.files file).contents.length, written := stat.written,
                      checked := kernel.moment.now, root } := by
                  intro slot page hpage
                  cases hpage
                refine ⟨hsound.hold hfree hopen fun file' hfile' => ?_, update_self .., rfl, hpaged, fun names => ?_⟩
                · rw [hfile] at hfile'
                  cases hfile'
                  exact ⟨rfl, hpaged, released.kernel.moment, List.mem_cons_self .., hfile, by rw [hmoment],
                    ⟨rfl, hwritten.symm, hparse⟩⟩
                · have hresult := hrenders names _ (hparse names)
                  simpa only [Kernel.Renders, Kernel.moments, hmoment, hpast] using hresult

theorem acquire_acquired (h : cache.Sound) (path : Bytes) (numbering : Numbering) :
    Acquired cache path numbering (cache.acquire path numbering) := by
  rw [acquire]
  cases hentry : cache.entries (templateSlot path) with
  | none => exact reopen_acquired h path numbering
  | some entry =>
      dsimp only
      split
      · next hpath =>
          obtain ⟨file, hdescriptor, -, hpaged, moment, hmoment, hfile, hchecked, hparsed⟩ := h.accounted.isOpen hentry
          cases hstat : cache.kernel.statRead entry.descriptor with
          | none =>
              exact ⟨(DescriptorCache.Sound.release h _).1,
                .inr (.inr (.inr ⟨file, .inl (Kernel.statRead_eq_none hdescriptor hstat)⟩))⟩
          | some stat =>
              obtain ⟨file', hfile', hsize, hwritten, -⟩ := Kernel.statRead_eq_some hstat
              rw [hdescriptor] at hfile'
              cases hfile'
              dsimp only
              split
              · next hsame =>
                  obtain ⟨hsameSize, hsameWritten, hrecent⟩ := hsame
                  refine ⟨.refl h, hentry, hpath, hpaged, fun names =>
                    .of_contents hmoment (hpath ▸ hfile) ?_ ?_ ?_ (hparsed.root names)⟩
                  · rwa [hchecked]
                  · rw [hparsed.size, ← hsameSize, hsize]
                  · rw [hparsed.written, ← hsameWritten, hwritten]
              · exact reopen_acquired h path numbering
      · exact reopen_acquired h path numbering

/-! ## Pages -/

theorem renders_of_keeps (h : Keeps before cache) {names : List (Bytes × BencodingType)} {result : Except TemplateStop Bytes}
    (hrenders : cache.kernel.Renders path names result) : before.kernel.Renders path names result := by
  simpa only [Kernel.Renders, Kernel.moments, h.moment, h.past] using hrenders

theorem answered_of_keeps (h : Keeps before cache) {names : List (Bytes × BencodingType)}
    {result : Except TemplateCacheStop Bytes} (hanswered : Answered cache.kernel path names numbering result) :
    Answered before.kernel path names numbering result := by
  cases result with
  | ok page => exact renders_of_keeps h hanswered
  | error stop =>
      cases stop with
      | problem => simpa only [Answered, TemplateCacheStop.Cause, h.moment] using hanswered
      | fault stop => exact renders_of_keeps h hanswered

theorem answered_stop {stop : TemplateCacheStop} (h : stop.Cause cache.kernel path numbering)
    (names : List (Bytes × BencodingType)) : Answered cache.kernel path names numbering (.error stop) := by
  cases stop with
  | problem => exact h
  | fault stop => exact h names

theorem answered_render {entry : TemplateCacheEntry} (hentry : entry.Current cache.kernel path)
    (names : List (Bytes × BencodingType)) : Answered cache.kernel path names numbering (render entry names) := by
  have hrenders := hentry.2.2 names
  rw [render]
  cases hresult : renderTemplate entry.root names with
  | error stop =>
      rw [hresult] at hrenders
      exact hrenders
  | ok page =>
      rw [hresult] at hrenders
      exact hrenders

theorem process_keeps (h : cache.Sound) (names : List (Bytes × BencodingType)) :
    Keeps cache (cache.process path names numbering).2 ∧
      Answered cache.kernel path names numbering (cache.process path names numbering).1 := by
  have hacquired := acquire_acquired h path numbering
  rw [process]
  generalize cache.acquire path numbering = result at hacquired
  obtain ⟨stop | entry, after⟩ := result
  · exact ⟨hacquired.1, answered_stop hacquired.2 names⟩
  · exact ⟨hacquired.1, answered_of_keeps hacquired.1 (answered_render hacquired.2.2 names)⟩

/-- A page that has been rendered is held under its key. -/
theorem renderPage_keeps (h : cache.Sound) {entry : TemplateCacheEntry} (hentry : cache.entries (templateSlot path) = some entry)
    (hcurrent : entry.Current cache.kernel path) (code : Int) (message : Bytes) :
    Keeps cache (cache.renderPage path (errorKey code message) (errorNames code message) entry).2 ∧
      Answered cache.kernel path (errorNames code message) numbering
        (cache.renderPage path (errorKey code message) (errorNames code message) entry).1 := by
  have hanswered : Answered cache.kernel path (errorNames code message) numbering (render entry (errorNames code message)) :=
    answered_render hcurrent (errorNames code message)
  rw [renderPage]
  cases hresult : render entry (errorNames code message) with
  | error stop => exact ⟨.refl h, by rwa [hresult] at hanswered⟩
  | ok contents =>
      rw [hresult] at hanswered
      have hcontents : renderTemplate entry.root (errorNames code message) = .ok contents := by
        rw [render] at hresult
        cases hrendered : renderTemplate entry.root (errorNames code message) with
        | error stop => simp [hrendered] at hresult
        | ok page => simpa [hrendered] using hresult
      refine ⟨h.renew _ hentry rfl fun file hreached => ?_, hanswered⟩
      obtain ⟨hindex, hpaged, hmoment⟩ := hreached
      obtain ⟨moment, hin, hpath, hchecked, hparsed⟩ := hmoment
      refine ⟨hindex, fun slot page hpage => ?_, moment, hin, hpath, hchecked, ⟨hparsed.size, hparsed.written, hparsed.root⟩⟩
      by_cases hslot : slot = pageSlot (errorKey code message)
      · simp only [hslot, update_self, Option.some.injEq] at hpage
        exact ⟨code, message, by rw [← hpage], by rw [← hpage]; exact hcontents⟩
      · simp only [update_of_ne hslot] at hpage
        exact hpaged slot page hpage

theorem errorPage_keeps (h : cache.Sound) (code : Int) (message : Bytes) :
    Keeps cache (cache.errorPage path code message numbering).2 ∧
      ((errorKey code message).length < 1024 →
        Answered cache.kernel path (errorNames code message) numbering (cache.errorPage path code message numbering).1) := by
  rw [errorPage]
  split
  · next hfits =>
      have hacquired := acquire_acquired h path numbering
      rw [processPage]
      generalize cache.acquire path numbering = result at hacquired
      obtain ⟨stop | entry, after⟩ := result
      · exact ⟨hacquired.1, fun _ => answered_stop hacquired.2 _⟩
      · obtain ⟨hkeeps, hentry, hcurrent⟩ := hacquired
        have hrendered : Keeps cache (after.renderPage path (errorKey code message) (errorNames code message) entry).2 ∧
            ((errorKey code message).length < 1024 → Answered cache.kernel path (errorNames code message) numbering
              (after.renderPage path (errorKey code message) (errorNames code message) entry).1) := by
          obtain ⟨hkeeps', hanswered⟩ := renderPage_keeps hkeeps.sound hentry hcurrent code message
          exact ⟨hkeeps.trans hkeeps', fun _ => answered_of_keeps hkeeps hanswered⟩
        dsimp only
        cases hpage : entry.pages (pageSlot (errorKey code message)) with
        | none => exact hrendered
        | some page =>
            dsimp only
            split
            · next hkey =>
                refine ⟨hkeeps, fun _ => renders_of_keeps hkeeps ?_⟩
                obtain ⟨code', message', hkey', hcontents⟩ := hcurrent.2.1 _ page hpage
                obtain ⟨rfl, rfl⟩ := errorKey_injective (hkey.symm.trans hkey')
                exact hcontents ▸ hcurrent.2.2 _
            · exact hrendered
  · next hlong => exact ⟨.refl h, fun hfits => absurd hfits hlong⟩

theorem clear_keeps (h : cache.Sound) : Keeps cache cache.clear := by
  rw [clear]
  exact DescriptorCache.Sound.releases h _

/-- Once the cache is cleared, nothing is open but what is owned. -/
theorem clear_descriptors (h : cache.Sound) (d : Nat) :
    cache.clear.kernel.descriptors d ≠ none ↔ d ∈ cache.clear.kernel.owned := by
  have hindices : ∀ index entry file, TemplateCacheEntry.Reached cache.kernel.moments index entry file → index ∈ List.range 32 := by
    intro index entry file hreached
    rw [hreached.1, List.mem_range]
    exact Nat.mod_lt _ (by simp)
  rw [clear]
  generalize List.range 32 = indices at hindices ⊢
  exact DescriptorCache.Sound.emptied h hindices d

/-! ## Runs -/

theorem step_sound (h : cache.Sound) (event : TemplateCacheEvent) : (cache.step event).Sound := by
  cases event with
  | change moment =>
      refine DescriptorCache.Sound.change h moment fun index entry file hreached => ?_
      obtain ⟨hindex, hpaged, earlier, hearlier, hrest⟩ := hreached
      exact ⟨hindex, hpaged, earlier, List.mem_cons_of_mem _ hearlier, hrest⟩
  | process path names numbering => exact (process_keeps h names).1.sound
  | errorPage path code message numbering => exact (errorPage_keeps h code message).1.sound
  | openOther file numbering => exact (DescriptorCache.Sound.openOwned h file numbering).sound
  | close descriptor => exact (DescriptorCache.Sound.closeOwned h descriptor).1
  | clear =>
      rw [step]
      exact (clear_keeps h).sound

theorem run_sound (moment : Moment) (events : List TemplateCacheEvent) : (run moment events).Sound := by
  rw [run]
  have hstart : Sound { kernel := { moment } } := ⟨.start, rfl⟩
  generalize ({ kernel := { moment } } : TemplateCache) = cache at hstart
  induction events generalizing cache with
  | nil => exact hstart
  | cons event events ih => exact ih _ (step_sound hstart event)

end TemplateCache

/-! ## Main results -/

/-- In every run, the descriptors that are open are those that are owned and those of the entries, one each; nothing is
closed that is not open, and the clearing of the cache leaves none open that is not owned. -/
theorem templateCache_descriptors (moment : Moment) (events : List TemplateCacheEvent) :
    let cache := TemplateCache.run moment events
    (∀ d, cache.kernel.descriptors d ≠ none ↔
      d ∈ cache.kernel.owned ∨ ∃ index entry, cache.entries index = some entry ∧ entry.descriptor = d) ∧
    (∀ i j entry other, cache.entries i = some entry → cache.entries j = some other → entry.descriptor = other.descriptor →
      i = j) ∧
    (∀ index entry, cache.entries index = some entry → entry.descriptor ∉ cache.kernel.owned) ∧
    cache.kernel.proper = true ∧
    ∀ d, cache.clear.kernel.descriptors d ≠ none ↔ d ∈ cache.clear.kernel.owned := by
  have h := TemplateCache.run_sound moment events
  exact ⟨h.accounted.opened_iff, h.accounted.apart, h.accounted.inside, h.proper, TemplateCache.clear_descriptors h⟩

end Viriatum
