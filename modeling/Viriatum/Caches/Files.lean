import Viriatum.Caches.Kernel
import Viriatum.Commons.HashMapRefinement

/-!
# The cache of the files

The files that are being served are held open, each in the entry that its path falls on, and are opened again through
their path where they have been held for a few seconds.
-/

namespace Viriatum

open Function Http2Connection Library Structures

/-- An entry that holds a file; what is told of the file is what it was when it was last described. -/
structure FileCacheEntry where
  path : Bytes
  descriptor : Nat
  size : Nat
  written : Int
  checked : UInt32
deriving DecidableEq, Repr

/-- A file is not handed out; a directory is told apart from the rest by `EISDIR`. -/
inductive FileCacheStop where
  | problem
  | directory
deriving DecidableEq, Repr

abbrev FileCache := DescriptorCache FileCacheEntry

/-- The entry that a path falls on. -/
def fileSlot (path : Bytes) : Nat := stringHash path % 128

namespace FileCache

variable (cache : FileCache)

def release (index : Nat) : FileCache := DescriptorCache.release FileCacheEntry.descriptor cache index

/-- The entry of a path is taken over by the file that the path leads to. -/
def reopen (path : Bytes) (numbering : Numbering) : Except FileCacheStop FileCacheEntry × FileCache :=
  let cache := cache.release (fileSlot path)
  if 1024 ≤ path.length then (.error .problem, cache)
  else
    match cache.kernel.openRead path numbering with
    | none => (.error .problem, cache)
    | some (descriptor, kernel) =>
        match kernel.statRead descriptor with
        | none => (.error .problem, { cache with kernel := kernel.closeRead descriptor })
        | some stat =>
            if stat.directory then (.error .directory, { cache with kernel := kernel.closeRead descriptor })
            else
              let entry : FileCacheEntry :=
                { path, descriptor, size := stat.size, written := stat.written, checked := kernel.moment.now }
              (.ok entry, { entries := update cache.entries (fileSlot path) (some entry), kernel })

/-- `acquire_file_cache` -/
def acquire (path : Bytes) (numbering : Numbering) : Except FileCacheStop FileCacheEntry × FileCache :=
  match cache.entries (fileSlot path) with
  | none => cache.reopen path numbering
  | some entry =>
      if entry.path = path then
        match cache.kernel.statRead entry.descriptor with
        | none => (.error .problem, cache)
        | some stat =>
            let entry := { entry with size := stat.size, written := stat.written }
            let cache : FileCache := { cache with entries := update cache.entries (fileSlot path) (some entry) }
            if cache.kernel.moment.now - entry.checked < 4 then (.ok entry, cache) else cache.reopen path numbering
      else cache.reopen path numbering

/-- `open_file_cache`: the one who asks owns what it is handed. -/
def openFile (path : Bytes) (numbering : Numbering) : Except FileCacheStop Nat × FileCache :=
  match cache.acquire path numbering with
  | (.error stop, cache) => (.error stop, cache)
  | (.ok entry, cache) =>
      match cache.kernel.duplicate entry.descriptor numbering with
      | none => (.error .problem, cache)
      | some (number, kernel) => (.ok number, { cache with kernel })

/-- `clear_file_cache` -/
def clear : FileCache := (List.range 128).foldl release cache

end FileCache

/-! ## What goes on -/

/-- The file system goes on, a file is asked for, or one who owns a descriptor closes it. -/
inductive FileCacheEvent where
  | change (moment : Moment)
  | acquire (path : Bytes) (numbering : Numbering)
  | openFile (path : Bytes) (numbering : Numbering)
  | close (descriptor : Nat)
  | clear

def FileCache.step (cache : FileCache) : FileCacheEvent → FileCache
  | .change moment => { cache with kernel := cache.kernel.change moment }
  | .acquire path numbering => (cache.acquire path numbering).2
  | .openFile path numbering => (cache.openFile path numbering).2
  | .close descriptor => { cache with kernel := cache.kernel.closeOwned descriptor }
  | .clear => cache.clear

/-- What a run leaves that starts with a cache in which every entry is empty. -/
def FileCache.run (moment : Moment) (events : List FileCacheEvent) : FileCache :=
  events.foldl FileCache.step { kernel := { moment } }

end Viriatum
