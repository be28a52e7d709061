import Viriatum.Commons.Buffer
import Viriatum.Library.SlotCache

/-!
# Files and descriptors

The file system as it goes on from moment to moment, the descriptors that a process has open on it, and what the caches
of the process do with them.
-/

namespace Viriatum

open Function Http2Connection Library

/-- A file as the file system keeps it; the describing or the reading of it may fail. -/
structure StoredFile where
  contents : Bytes
  written : Int
  directory : Bool := false
  described : Bool := true
  readable : Bool := true

/-- The file system at a moment: the file that the opening of a path leads to, and the files. -/
structure Moment where
  time : Nat
  paths : Bytes → Option Nat
  files : Nat → StoredFile

/-- `(unsigned int) time(NULL)` -/
def Moment.now (moment : Moment) : UInt32 := UInt32.ofNat moment.time

structure FileStat where
  size : Nat
  written : Int
  directory : Bool
deriving DecidableEq, Repr

/-- How descriptors are given out: where there is one left, it is one that is not open. -/
structure Numbering where
  pick : (Nat → Option Nat) → Option Nat
  unused : ∀ descriptors number, pick descriptors = some number → descriptors number = none

theorem find?_unused (numbers : List Nat) (descriptors : Nat → Option Nat) (number : Nat)
    (h : numbers.find? (fun number => descriptors number = none) = some number) : descriptors number = none := by
  simpa using List.find?_some h

/-- The first of some numbers that is not open. -/
def Numbering.among (numbers : List Nat) : Numbering where
  pick descriptors := numbers.find? fun number => descriptors number = none
  unused := find?_unused numbers

/-- What the process sees: the moment, with those before it, the files that its descriptors reach, which of them belong
to none of the caches, and whether nothing was closed that was not open. -/
structure Kernel where
  moment : Moment
  past : List Moment := []
  descriptors : Nat → Option Nat := fun _ => none
  owned : List Nat := []
  proper : Bool := true

namespace Kernel

variable (kernel : Kernel)

def moments : List Moment := kernel.moment :: kernel.past

/-- The file system at the next moment. -/
def change (moment : Moment) : Kernel := { kernel with moment, past := kernel.moments }

/-- `open_read_file` -/
def openRead (path : Bytes) (numbering : Numbering) : Option (Nat × Kernel) := do
  let file ← kernel.moment.paths path
  let number ← numbering.pick kernel.descriptors
  return (number, { kernel with descriptors := update kernel.descriptors number (some file) })

/-- `STAT_READ` -/
def statRead (descriptor : Nat) : Option FileStat := do
  let file ← kernel.descriptors descriptor
  let stored := kernel.moment.files file
  if stored.described then some ⟨stored.contents.length, stored.written, stored.directory⟩ else none

/-- `READ_AT`, from the start of the file -/
def readAt (descriptor size : Nat) : Option Bytes := do
  let file ← kernel.descriptors descriptor
  let stored := kernel.moment.files file
  if stored.readable then some (stored.contents.take size) else none

/-- `CLOSE_READ` -/
def closeRead (descriptor : Nat) : Kernel :=
  { kernel with
    descriptors := update kernel.descriptors descriptor none
    proper := kernel.proper && (kernel.descriptors descriptor).isSome }

/-- `DUPLICATE`, for an owner outside of the caches -/
def duplicate (descriptor : Nat) (numbering : Numbering) : Option (Nat × Kernel) := do
  let file ← kernel.descriptors descriptor
  let number ← numbering.pick kernel.descriptors
  return (number, { kernel with
    descriptors := update kernel.descriptors number (some file)
    owned := number :: kernel.owned })

/-- A descriptor is opened for an owner outside of the caches. -/
def openOwned (file : Nat) (numbering : Numbering) : Kernel :=
  match numbering.pick kernel.descriptors with
  | none => kernel
  | some number =>
      { kernel with descriptors := update kernel.descriptors number (some file), owned := number :: kernel.owned }

/-- A descriptor is closed by the one who owns it. -/
def closeOwned (descriptor : Nat) : Kernel :=
  if descriptor ∈ kernel.owned then
    { kernel.closeRead descriptor with owned := kernel.owned.filter (· ≠ descriptor) }
  else kernel

/-! ## What the operations tell -/

variable {kernel} {path : Bytes} {numbering : Numbering}

theorem statRead_eq_some {descriptor : Nat} {stat : FileStat}
    (h : kernel.statRead descriptor = some stat) :
    ∃ file, kernel.descriptors descriptor = some file ∧ stat.size = (kernel.moment.files file).contents.length ∧
      stat.written = (kernel.moment.files file).written ∧ stat.directory = (kernel.moment.files file).directory := by
  simp only [Kernel.statRead, Option.bind_eq_bind, Option.bind_eq_some_iff] at h
  obtain ⟨file, hfile, hstat⟩ := h
  split at hstat
  · cases hstat
    exact ⟨file, hfile, rfl, rfl, rfl⟩
  · cases hstat

theorem statRead_eq_none {descriptor file : Nat} (hfile : kernel.descriptors descriptor = some file)
    (h : kernel.statRead descriptor = none) : (kernel.moment.files file).described = false := by
  simpa [Kernel.statRead, hfile] using h

theorem openRead_eq_none (h : kernel.openRead path numbering = none) :
    kernel.moment.paths path = none ∨ ∃ descriptors, numbering.pick descriptors = none := by
  cases hfile : kernel.moment.paths path with
  | none => exact .inl rfl
  | some file =>
      refine .inr ⟨kernel.descriptors, ?_⟩
      cases hnumber : numbering.pick kernel.descriptors with
      | none => rfl
      | some number => simp [Kernel.openRead, hfile, hnumber] at h

theorem openRead_eq_some {kernel' : Kernel} {descriptor : Nat}
    (h : kernel.openRead path numbering = some (descriptor, kernel')) :
    ∃ file, kernel.moment.paths path = some file ∧ kernel'.descriptors descriptor = some file ∧
      kernel'.moment = kernel.moment ∧ kernel'.past = kernel.past := by
  simp only [Kernel.openRead, Option.bind_eq_bind, Option.bind_eq_some_iff, Option.pure_def, Option.some.injEq,
    Prod.mk.injEq] at h
  obtain ⟨file, hfile, found, -, rfl, rfl⟩ := h
  exact ⟨file, hfile, update_self .., rfl, rfl⟩

end Kernel

/-! ## Caches of descriptors -/

/-- The entries of a cache, each of which holds a descriptor, before the kernel. -/
structure DescriptorCache (α : Type) where
  entries : SlotCache Nat α := fun _ => none
  kernel : Kernel

namespace DescriptorCache

variable {α : Type}

/-- An entry is emptied, and what it holds is closed. -/
def release (descriptor : α → Nat) (state : DescriptorCache α) (index : Nat) : DescriptorCache α :=
  match state.entries index with
  | none => state
  | some entry => { entries := update state.entries index none, kernel := state.kernel.closeRead (descriptor entry) }

/-- Every descriptor that is open is owned or held by an entry, which reaches through it what it is held for. -/
structure Sound (descriptor : α → Nat) (reached : List Moment → Nat → α → Nat → Prop) (state : DescriptorCache α) : Prop where
  accounted : Accounted descriptor (reached state.kernel.moments) state.entries state.kernel.descriptors state.kernel.owned
  proper : state.kernel.proper = true

/-- What is done at a moment keeps the cache sound and the descriptors that are owned as they are. -/
structure Keeps (descriptor : α → Nat) (reached : List Moment → Nat → α → Nat → Prop) (before after : DescriptorCache α) :
    Prop where
  sound : after.Sound descriptor reached
  moment : after.kernel.moment = before.kernel.moment
  past : after.kernel.past = before.kernel.past
  owned : ∀ d ∈ before.kernel.owned, d ∈ after.kernel.owned ∧ after.kernel.descriptors d = before.kernel.descriptors d

variable {descriptor : α → Nat} {reached : List Moment → Nat → α → Nat → Prop} {state before after last : DescriptorCache α}
  {index : Nat} {entry : α}

theorem Keeps.refl (h : state.Sound descriptor reached) : Keeps descriptor reached state state where
  sound := h
  moment := rfl
  past := rfl
  owned _ hd := ⟨hd, rfl⟩

theorem Keeps.trans (h : Keeps descriptor reached before after) (h' : Keeps descriptor reached after last) :
    Keeps descriptor reached before last where
  sound := h'.sound
  moment := h'.moment.trans h.moment
  past := h'.past.trans h.past
  owned d hd := by
    obtain ⟨hin, hsame⟩ := h.owned d hd
    obtain ⟨hin', hsame'⟩ := h'.owned d hin
    exact ⟨hin', hsame'.trans hsame⟩

/-- A descriptor that is owned is open. -/
theorem Sound.ownedOpen (h : state.Sound descriptor reached) {d : Nat} (hd : d ∈ state.kernel.owned) :
    state.kernel.descriptors d ≠ none := (h.accounted.opened_iff d).mpr (.inl hd)

theorem Sound.release (h : state.Sound descriptor reached) (index : Nat) :
    Keeps descriptor reached state (state.release descriptor index) ∧ (state.release descriptor index).entries index = none := by
  rw [DescriptorCache.release]
  cases hentry : state.entries index with
  | none => exact ⟨.refl h, hentry⟩
  | some entry =>
      obtain ⟨file, hfile, -⟩ := h.accounted.isOpen hentry
      refine ⟨⟨⟨h.accounted.release hentry, ?_⟩, rfl, rfl, fun d hd => ⟨hd, ?_⟩⟩, update_self ..⟩
      · simp [Kernel.closeRead, h.proper, hfile]
      · have hne : d ≠ descriptor entry := by
          rintro rfl
          exact h.accounted.inside index entry hentry hd
        exact update_of_ne hne ..

/-- What is opened is closed again. -/
theorem Sound.openClose (h : state.Sound descriptor reached) {numbering : Numbering} {path : Bytes} {number : Nat}
    {kernel : Kernel} (hopen : state.kernel.openRead path numbering = some (number, kernel)) :
    Keeps descriptor reached state { state with kernel := kernel.closeRead number } := by
  simp only [Kernel.openRead, Option.bind_eq_bind, Option.bind_eq_some_iff, Option.pure_def, Option.some.injEq,
    Prod.mk.injEq] at hopen
  obtain ⟨file, -, found, hnumber, rfl, rfl⟩ := hopen
  have hunused := numbering.unused _ _ hnumber
  have hback : update (update state.kernel.descriptors found (some file)) found none = state.kernel.descriptors := by
    rw [update_idem, ← hunused, update_eq_self]
  refine ⟨⟨?_, ?_⟩, rfl, rfl, fun d hd => ⟨hd, ?_⟩⟩
  · simpa [Kernel.closeRead, Kernel.moments, hback] using h.accounted
  · simp [Kernel.closeRead, h.proper]
  · rw [Kernel.closeRead, hback]

/-- What is opened is held by an entry that is free. -/
theorem Sound.hold (h : state.Sound descriptor reached) (hfree : state.entries index = none) {numbering : Numbering}
    {path : Bytes} {kernel : Kernel} (hopen : state.kernel.openRead path numbering = some (descriptor entry, kernel))
    (hreached : ∀ file, state.kernel.moment.paths path = some file → reached state.kernel.moments index entry file) :
    Keeps descriptor reached state { entries := update state.entries index (some entry), kernel } := by
  simp only [Kernel.openRead, Option.bind_eq_bind, Option.bind_eq_some_iff, Option.pure_def, Option.some.injEq,
    Prod.mk.injEq] at hopen
  obtain ⟨file, hfile, _, hnumber, rfl, rfl⟩ := hopen
  have hunused := numbering.unused _ _ hnumber
  refine ⟨⟨h.accounted.hold hfree hunused (hreached file hfile), h.proper⟩, rfl, rfl, fun d hd => ⟨hd, ?_⟩⟩
  have hne : d ≠ descriptor entry := by
    rintro rfl
    exact h.ownedOpen hd hunused
  exact update_of_ne hne ..

/-- An entry is replaced by one that holds the same. -/
theorem Sound.renew (h : state.Sound descriptor reached) (other : α) (hentry : state.entries index = some entry)
    (hsame : descriptor other = descriptor entry)
    (hreached : ∀ file, reached state.kernel.moments index entry file → reached state.kernel.moments index other file) :
    Keeps descriptor reached state { state with entries := update state.entries index (some other) } :=
  ⟨⟨h.accounted.renew hentry hsame hreached, h.proper⟩, rfl, rfl, fun _ hd => ⟨hd, rfl⟩⟩

/-- A descriptor is duplicated for an owner outside. -/
theorem Sound.duplicate (h : state.Sound descriptor reached) {numbering : Numbering} {d number : Nat} {kernel : Kernel}
    (hduplicate : state.kernel.duplicate d numbering = some (number, kernel)) :
    Keeps descriptor reached state { state with kernel } ∧ number ∈ kernel.owned ∧
      kernel.descriptors number = state.kernel.descriptors d := by
  simp only [Kernel.duplicate, Option.bind_eq_bind, Option.bind_eq_some_iff, Option.pure_def, Option.some.injEq,
    Prod.mk.injEq] at hduplicate
  obtain ⟨file, hfile, found, hnumber, rfl, rfl⟩ := hduplicate
  have hunused := numbering.unused _ _ hnumber
  refine ⟨⟨⟨h.accounted.own hunused file, h.proper⟩, rfl, rfl, fun e he => ⟨by simp [he], ?_⟩⟩, by simp, by simp [hfile]⟩
  have hne : e ≠ found := by
    rintro rfl
    exact h.ownedOpen he hunused
  exact update_of_ne hne ..

theorem Sound.openOwned (h : state.Sound descriptor reached) (file : Nat) (numbering : Numbering) :
    Keeps descriptor reached state { state with kernel := state.kernel.openOwned file numbering } := by
  rw [Kernel.openOwned]
  cases hnumber : numbering.pick state.kernel.descriptors with
  | none => exact .refl h
  | some number =>
      have hunused := numbering.unused _ _ hnumber
      refine ⟨⟨h.accounted.own hunused file, h.proper⟩, rfl, rfl, fun e he => ⟨by simp [he], ?_⟩⟩
      have hne : e ≠ number := by
        rintro rfl
        exact h.ownedOpen he hunused
      exact update_of_ne hne ..

/-- The moments go on. -/
theorem Sound.change (h : state.Sound descriptor reached) (moment : Moment)
    (hmono : ∀ index entry file, reached state.kernel.moments index entry file →
      reached (moment :: state.kernel.moments) index entry file) :
    Sound descriptor reached { state with kernel := state.kernel.change moment } := ⟨h.accounted.mono hmono, h.proper⟩

/-- A descriptor is closed by the one who owns it, and the others that are owned stay. -/
theorem Sound.closeOwned (h : state.Sound descriptor reached) (d : Nat) :
    Sound descriptor reached { state with kernel := state.kernel.closeOwned d } ∧
      ∀ e ∈ state.kernel.owned, e ≠ d →
        e ∈ (state.kernel.closeOwned d).owned ∧ (state.kernel.closeOwned d).descriptors e = state.kernel.descriptors e := by
  rw [Kernel.closeOwned]
  split
  · next hd =>
      obtain ⟨file, hfile⟩ := Option.ne_none_iff_exists'.mp (h.ownedOpen hd)
      refine ⟨⟨h.accounted.disown hd, ?_⟩, fun e he hne => ⟨by simp [he, hne], update_of_ne hne ..⟩⟩
      simp [Kernel.closeRead, h.proper, hfile]
  · exact ⟨h, fun e he _ => ⟨he, rfl⟩⟩

/-! ## Every entry is emptied -/

theorem release_entries (state : DescriptorCache α) (index i : Nat) :
    (state.release descriptor index).entries i = if i = index then none else state.entries i := by
  rw [release]
  cases hentry : state.entries index with
  | none =>
      dsimp only
      split
      · next hi => rw [hi, hentry]
      · rfl
  | some entry => simp [update_apply]

theorem releases_entries (state : DescriptorCache α) (indices : List Nat) (i : Nat) :
    (indices.foldl (release descriptor) state).entries i = if i ∈ indices then none else state.entries i := by
  induction indices generalizing state with
  | nil => simp
  | cons index indices ih =>
      rw [List.foldl_cons, ih, release_entries]
      by_cases hi : i = index <;> simp [hi]

theorem Sound.releases (h : state.Sound descriptor reached) (indices : List Nat) :
    Keeps descriptor reached state (indices.foldl (DescriptorCache.release descriptor) state) := by
  induction indices generalizing state with
  | nil => exact .refl h
  | cons index indices ih =>
      have hreleased := (h.release index).1
      exact hreleased.trans (ih hreleased.sound)

/-- Once all the entries are emptied, nothing is open but what is owned. -/
theorem Sound.emptied (h : state.Sound descriptor reached) {indices : List Nat}
    (hindices : ∀ index entry file, reached state.kernel.moments index entry file → index ∈ indices) (d : Nat) :
    (indices.foldl (DescriptorCache.release descriptor) state).kernel.descriptors d ≠ none ↔
      d ∈ (indices.foldl (DescriptorCache.release descriptor) state).kernel.owned := by
  have hkeeps := h.releases indices
  refine (hkeeps.sound.accounted.opened_iff d).trans ⟨?_, .inl⟩
  rintro (hd | ⟨index, entry, hentry, -⟩)
  · exact hd
  · obtain ⟨file, -, hreached⟩ := hkeeps.sound.accounted.isOpen hentry
    rw [Kernel.moments, hkeeps.moment, hkeeps.past] at hreached
    rw [releases_entries, if_pos (hindices index entry file hreached)] at hentry
    cases hentry

end DescriptorCache

end Viriatum
