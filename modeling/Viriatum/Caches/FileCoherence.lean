import Viriatum.Caches.Files

/-!
# Files that are handed out are the ones that are there

In every run the descriptors that are open are accounted for, and a file that is handed out is described as it is, under
a path that has led to it within the last seconds.
-/

namespace Viriatum

open Function Http2Connection Library Structures

/-- What an entry is held for: its file is the one that its path has led to where it was opened. -/
def FileCacheEntry.Reached (moments : List Moment) (index : Nat) (entry : FileCacheEntry) (file : Nat) : Prop :=
  index = fileSlot entry.path ∧ entry.path.length < 1024 ∧ ∃ moment ∈ moments,
    moment.paths entry.path = some file ∧ (moment.files file).directory = false ∧ moment.now = entry.checked

/-- A file that may be handed out under a path. -/
def FileCacheEntry.Current (kernel : Kernel) (path : Bytes) (entry : FileCacheEntry) : Prop :=
  entry.path = path ∧ ∃ file, kernel.descriptors entry.descriptor = some file ∧
    entry.size = (kernel.moment.files file).contents.length ∧ entry.written = (kernel.moment.files file).written ∧
    ∃ moment ∈ kernel.moments, moment.paths path = some file ∧ (moment.files file).directory = false ∧
      kernel.moment.now - moment.now < 4

/-- A descriptor reaches a file that a path has led to within the last seconds. -/
def Kernel.Recent (kernel : Kernel) (path : Bytes) (descriptor : Nat) : Prop :=
  ∃ file, kernel.descriptors descriptor = some file ∧ ∃ moment ∈ kernel.moments,
    moment.paths path = some file ∧ (moment.files file).directory = false ∧ kernel.moment.now - moment.now < 4

theorem FileCacheEntry.Current.recent {kernel : Kernel} {path : Bytes} {entry : FileCacheEntry}
    (h : entry.Current kernel path) : kernel.Recent path entry.descriptor := by
  obtain ⟨-, file, hfile, -, -, hmoment⟩ := h
  exact ⟨file, hfile, hmoment⟩

/-- Why a file is not handed out. -/
def FileCacheStop.Cause (moment : Moment) (path : Bytes) (numbering : Numbering) : FileCacheStop → Prop
  | .directory => ∃ file, moment.paths path = some file ∧ (moment.files file).directory = true
  | .problem => 1024 ≤ path.length ∨ moment.paths path = none ∨ (∃ descriptors, numbering.pick descriptors = none) ∨
      ∃ file, (moment.files file).described = false

namespace FileCache

abbrev Sound (cache : FileCache) : Prop := DescriptorCache.Sound FileCacheEntry.descriptor FileCacheEntry.Reached cache

abbrev Keeps (before after : FileCache) : Prop :=
  DescriptorCache.Keeps FileCacheEntry.descriptor FileCacheEntry.Reached before after

/-- What the acquiring of a file leaves, and what it hands out. -/
def Acquired (before : FileCache) (path : Bytes) (numbering : Numbering) :
    Except FileCacheStop FileCacheEntry × FileCache → Prop
  | (.ok entry, after) => Keeps before after ∧ entry.Current after.kernel path
  | (.error stop, after) => Keeps before after ∧ stop.Cause before.kernel.moment path numbering

variable {cache before : FileCache} {path : Bytes} {numbering : Numbering}

theorem Acquired.of_keeps {result : Except FileCacheStop FileCacheEntry × FileCache} (h : Keeps before cache)
    (hacquired : Acquired cache path numbering result) : Acquired before path numbering result := by
  obtain ⟨_ | _, _⟩ := result
  · exact ⟨h.trans hacquired.1, h.moment ▸ hacquired.2⟩
  · exact ⟨h.trans hacquired.1, hacquired.2⟩

theorem reopen_acquired (h : cache.Sound) (path : Bytes) (numbering : Numbering) :
    Acquired cache path numbering (cache.reopen path numbering) := by
  obtain ⟨hreleased, hfree⟩ := DescriptorCache.Sound.release h (fileSlot path)
  refine .of_keeps hreleased ?_
  rw [reopen, ← FileCache.release] at *
  have hsound : (cache.release (fileSlot path)).Sound := hreleased.sound
  generalize cache.release (fileSlot path) = released at hsound hfree
  dsimp only
  split
  · next hlong => exact ⟨.refl hsound, .inl hlong⟩
  · next hshort =>
      cases hopen : released.kernel.openRead path numbering with
      | none => exact ⟨.refl hsound, (Kernel.openRead_eq_none hopen).elim (fun h => .inr (.inl h)) fun h => .inr (.inr (.inl h))⟩
      | some opened =>
          obtain ⟨descriptor, kernel⟩ := opened
          obtain ⟨file, hfile, hdescriptor, hmoment, hpast⟩ := Kernel.openRead_eq_some hopen
          dsimp only
          cases hstat : kernel.statRead descriptor with
          | none =>
              refine ⟨hsound.openClose hopen, .inr (.inr (.inr ⟨file, ?_⟩))⟩
              exact hmoment ▸ Kernel.statRead_eq_none hdescriptor hstat
          | some stat =>
              obtain ⟨file', hfile', hsize, hwritten, hdirectory⟩ := Kernel.statRead_eq_some hstat
              rw [hdescriptor] at hfile'
              cases hfile'
              dsimp only
              split
              · next hisDirectory =>
                  refine ⟨hsound.openClose hopen, file, hfile, ?_⟩
                  rw [← hmoment, ← hdirectory, hisDirectory]
              · next hnotDirectory =>
                  have hfalse : (kernel.moment.files file).directory = false := by
                    rw [← hdirectory]
                    simpa using hnotDirectory
                  refine ⟨hsound.hold hfree hopen fun file' hfile' => ?_, rfl, file, hdescriptor, hsize, hwritten,
                    kernel.moment, List.mem_cons_self .., by rwa [hmoment], hfalse, by simp⟩
                  rw [hfile] at hfile'
                  cases hfile'
                  exact ⟨rfl, not_le.mp hshort, released.kernel.moment, List.mem_cons_self .., hfile, hmoment ▸ hfalse,
                    by rw [hmoment]⟩

theorem acquire_acquired (h : cache.Sound) (path : Bytes) (numbering : Numbering) :
    Acquired cache path numbering (cache.acquire path numbering) := by
  rw [acquire]
  cases hentry : cache.entries (fileSlot path) with
  | none => exact reopen_acquired h path numbering
  | some entry =>
      dsimp only
      split
      · next hpath =>
          obtain ⟨file, hdescriptor, -, -, moment, hmoment, hfile, hdirectory, hchecked⟩ := h.accounted.isOpen hentry
          cases hstat : cache.kernel.statRead entry.descriptor with
          | none => exact ⟨.refl h, .inr (.inr (.inr ⟨file, Kernel.statRead_eq_none hdescriptor hstat⟩))⟩
          | some stat =>
              obtain ⟨file', hfile', hsize, hwritten, -⟩ := Kernel.statRead_eq_some hstat
              rw [hdescriptor] at hfile'
              cases hfile'
              have hrenewed := h.renew { entry with size := stat.size, written := stat.written } hentry rfl
                fun _ hreached => hreached
              dsimp only
              split
              · next hrecent =>
                  exact ⟨hrenewed, hpath, file, hdescriptor, hsize, hwritten, moment, hmoment, hpath ▸ hfile, hdirectory,
                    by rwa [hchecked]⟩
              · exact .of_keeps hrenewed (reopen_acquired hrenewed.sound path numbering)
      · exact reopen_acquired h path numbering

/-- What the opening of a file leaves, and the descriptor that it hands out. -/
theorem openFile_keeps (h : cache.Sound) (path : Bytes) (numbering : Numbering) :
    Keeps cache (cache.openFile path numbering).2 ∧
    ∀ number, (cache.openFile path numbering).1 = .ok number →
      number ∈ (cache.openFile path numbering).2.kernel.owned ∧
        (cache.openFile path numbering).2.kernel.Recent path number := by
  have hacquired := acquire_acquired h path numbering
  rw [openFile]
  generalize cache.acquire path numbering = result at hacquired
  obtain ⟨stop | entry, after⟩ := result
  · exact ⟨hacquired.1, by simp⟩
  · obtain ⟨hkeeps, hcurrent⟩ := hacquired
    dsimp only
    cases hduplicate : after.kernel.duplicate entry.descriptor numbering with
    | none => exact ⟨hkeeps, by simp⟩
    | some duplicated =>
        obtain ⟨number, kernel⟩ := duplicated
        obtain ⟨hkeeps', hin, hsame⟩ := hkeeps.sound.duplicate hduplicate
        refine ⟨hkeeps.trans hkeeps', fun number' hnumber => ?_⟩
        cases hnumber
        obtain ⟨file, hfile, moment, hmoment, hrest⟩ := hcurrent.recent
        have hmoments : kernel.moments = after.kernel.moments := by
          rw [Kernel.moments, Kernel.moments, ← hkeeps'.moment, ← hkeeps'.past]
        refine ⟨hin, file, hsame.trans hfile, moment, hmoments ▸ hmoment, ?_⟩
        rw [show kernel.moment = after.kernel.moment from hkeeps'.moment]
        exact hrest

theorem clear_keeps (h : cache.Sound) : Keeps cache cache.clear := by
  rw [clear]
  exact DescriptorCache.Sound.releases h _

/-- Once the cache is cleared, nothing is open but what is owned. -/
theorem clear_descriptors (h : cache.Sound) (d : Nat) :
    cache.clear.kernel.descriptors d ≠ none ↔ d ∈ cache.clear.kernel.owned := by
  have hindices : ∀ index entry file, FileCacheEntry.Reached cache.kernel.moments index entry file → index ∈ List.range 128 := by
    intro index entry file hreached
    rw [hreached.1, List.mem_range]
    exact Nat.mod_lt _ (by simp)
  rw [clear]
  generalize List.range 128 = indices at hindices ⊢
  exact DescriptorCache.Sound.emptied h hindices d

/-! ## Runs -/

theorem step_sound (h : cache.Sound) (event : FileCacheEvent) : (cache.step event).Sound := by
  cases event with
  | change moment =>
      refine DescriptorCache.Sound.change h moment fun index entry file hreached => ?_
      obtain ⟨hindex, hlength, earlier, hearlier, hrest⟩ := hreached
      exact ⟨hindex, hlength, earlier, List.mem_cons_of_mem _ hearlier, hrest⟩
  | acquire path numbering =>
      have hacquired := acquire_acquired h path numbering
      rw [step]
      generalize cache.acquire path numbering = result at hacquired
      obtain ⟨_ | _, _⟩ := result
      · exact hacquired.1.sound
      · exact hacquired.1.sound
  | openFile path numbering => exact (openFile_keeps h path numbering).1.sound
  | close descriptor => exact (DescriptorCache.Sound.closeOwned h descriptor).1
  | clear =>
      rw [step]
      exact (clear_keeps h).sound

theorem run_sound (moment : Moment) (events : List FileCacheEvent) : (run moment events).Sound := by
  rw [run]
  have hstart : Sound { kernel := { moment } } := ⟨.start, rfl⟩
  generalize ({ kernel := { moment } } : FileCache) = cache at hstart
  induction events generalizing cache with
  | nil => exact hstart
  | cons event events ih => exact ih _ (step_sound hstart event)

/-- A descriptor that is owned is left as it is by everything but the closing of it by its owner. -/
theorem step_owned (h : cache.Sound) {event : FileCacheEvent} {d : Nat} (hd : d ∈ cache.kernel.owned)
    (hclose : ∀ descriptor, event = .close descriptor → descriptor ≠ d) :
    d ∈ (cache.step event).kernel.owned ∧ (cache.step event).kernel.descriptors d = cache.kernel.descriptors d := by
  cases event with
  | change moment => exact ⟨hd, rfl⟩
  | acquire path numbering =>
      have hacquired := acquire_acquired h path numbering
      rw [step]
      generalize cache.acquire path numbering = result at hacquired
      obtain ⟨_ | _, _⟩ := result
      · exact hacquired.1.owned d hd
      · exact hacquired.1.owned d hd
  | openFile path numbering => exact (openFile_keeps h path numbering).1.owned d hd
  | close descriptor => exact (DescriptorCache.Sound.closeOwned h descriptor).2 d hd fun heq => hclose descriptor rfl heq.symm
  | clear =>
      rw [step]
      exact (clear_keeps h).owned d hd

end FileCache

/-! ## Main results -/

/-- In every run, the descriptors that are open are those that are owned and those of the entries, one each; nothing is
closed that is not open, and the clearing of the cache leaves none open that is not owned. -/
theorem fileCache_descriptors (moment : Moment) (events : List FileCacheEvent) :
    let cache := FileCache.run moment events
    (∀ d, cache.kernel.descriptors d ≠ none ↔
      d ∈ cache.kernel.owned ∨ ∃ index entry, cache.entries index = some entry ∧ entry.descriptor = d) ∧
    (∀ i j entry other, cache.entries i = some entry → cache.entries j = some other → entry.descriptor = other.descriptor →
      i = j) ∧
    (∀ index entry, cache.entries index = some entry → entry.descriptor ∉ cache.kernel.owned) ∧
    cache.kernel.proper = true ∧
    ∀ d, cache.clear.kernel.descriptors d ≠ none ↔ d ∈ cache.clear.kernel.owned := by
  have h := FileCache.run_sound moment events
  exact ⟨h.accounted.opened_iff, h.accounted.apart, h.accounted.inside, h.proper, FileCache.clear_descriptors h⟩

/-- A descriptor that is handed out reaches a file that its path has led to within the last seconds, and goes on to reach
it, whatever becomes of the cache and of the path, until its owner closes it. -/
theorem openFileCache_stays {moment : Moment} {events later : List FileCacheEvent} {path : Bytes} {numbering : Numbering}
    {number : Nat} (hopen : ((FileCache.run moment events).openFile path numbering).1 = .ok number)
    (hlater : ∀ descriptor, .close descriptor ∈ later → descriptor ≠ number) :
    let opened := FileCache.run moment (events ++ [.openFile path numbering])
    opened.kernel.Recent path number ∧
      (later.foldl FileCache.step opened).kernel.descriptors number = opened.kernel.descriptors number := by
  intro opened
  have hstep : opened = ((FileCache.run moment events).openFile path numbering).2 := by
    simp only [opened, FileCache.run, List.foldl_append, List.foldl_cons, List.foldl_nil, FileCache.step]
  obtain ⟨hkeeps, hhanded⟩ := FileCache.openFile_keeps (FileCache.run_sound moment events) path numbering
  obtain ⟨howned, hrecent⟩ := hhanded number hopen
  rw [← hstep] at hkeeps howned hrecent
  refine ⟨hrecent, ?_⟩
  have hsound : opened.Sound := hkeeps.sound
  clear hstep hkeeps hrecent hhanded hopen
  generalize opened = cache at hsound howned
  induction later generalizing cache with
  | nil => rfl
  | cons event later ih =>
      have hevent : ∀ descriptor, event = .close descriptor → descriptor ≠ number := fun descriptor heq =>
        hlater descriptor (by simp [heq])
      obtain ⟨howned', hsame⟩ := FileCache.step_owned hsound howned hevent
      rw [List.foldl_cons, ih (fun descriptor hin => hlater descriptor (by simp [hin])) _ (FileCache.step_sound hsound event)
        howned', hsame]

/-- The path of an open file leads to another one, which is opened, and the cache is cleared. -/
theorem openFileCache_stays_replaced :
    let moment : Moment := { time := 0, paths := fun _ => some 0, files := fun _ => { contents := [], written := 0 } }
    let numbering := Numbering.among [3, 4, 5]
    let opened := FileCache.run moment ([] ++ [.openFile [97] numbering])
    opened.kernel.Recent [97] 4 ∧
      ([FileCacheEvent.change { moment with time := 9, paths := fun _ => some 1 }, .acquire [97] numbering, .close 5,
        .clear].foldl FileCache.step opened).kernel.descriptors 4 = opened.kernel.descriptors 4 :=
  openFileCache_stays (by rfl) (by simp)

end Viriatum
