import Viriatum.Caches.Kernel
import Viriatum.Template.Handler

/-!
# The cache of the templates

Templates are held as the trees that they are built to, with pages that were rendered out of them before; a template is
built again where its file has changed, and where it has been held for a few seconds.
-/

namespace Viriatum

open Function Http2Connection Library Structures

/-- A page that has been rendered, with the key that it is held under. -/
structure TemplatePage where
  key : Bytes
  contents : Bytes
deriving DecidableEq, Repr

structure TemplateCacheEntry where
  path : Bytes
  descriptor : Nat
  size : Nat
  written : Int
  checked : UInt32
  root : Option TemplateNode
  pages : SlotCache Nat TemplatePage := fun _ => none

/-- A page is not rendered: the template is not loaded, or is not gone through. -/
inductive TemplateCacheStop where
  | problem
  | fault (stop : TemplateStop)
deriving DecidableEq, Repr

abbrev TemplateCache := DescriptorCache TemplateCacheEntry

/-- The entry that a path falls on. -/
def templateSlot (path : Bytes) : Nat := stringHash path % 32

/-- The page of an entry that a key falls on. -/
def pageSlot (key : Bytes) : Nat := stringHash key % 8

namespace TemplateCache

variable (cache : TemplateCache)

/-- `_empty_template_cache` -/
def release (index : Nat) : TemplateCache := DescriptorCache.release TemplateCacheEntry.descriptor cache index

/-- `_parse_template_cache` -/
def parse (kernel : Kernel) (descriptor size : Nat) : Except TemplateCacheStop (Option TemplateNode) :=
  match kernel.readAt descriptor size with
  | none => .error .problem
  | some contents =>
      if contents.length = size then
        match buildTemplate contents with
        | .error stop => .error (.fault stop)
        | .ok builder => .ok builder.root
      else .error .problem

/-- The entry of a path is taken over by the template that the path leads to. -/
def reopen (path : Bytes) (numbering : Numbering) : Except TemplateCacheStop TemplateCacheEntry × TemplateCache :=
  let cache := cache.release (templateSlot path)
  if 1024 ≤ path.length then (.error .problem, cache)
  else
    match cache.kernel.openRead path numbering with
    | none => (.error .problem, cache)
    | some (descriptor, kernel) =>
        match kernel.statRead descriptor with
        | none => (.error .problem, { cache with kernel := kernel.closeRead descriptor })
        | some stat =>
            match parse kernel descriptor stat.size with
            | .error stop => (.error stop, { cache with kernel := kernel.closeRead descriptor })
            | .ok root =>
                let entry : TemplateCacheEntry :=
                  { path, descriptor, size := stat.size, written := stat.written, checked := kernel.moment.now, root }
                (.ok entry, { entries := update cache.entries (templateSlot path) (some entry), kernel })

/-- `acquire_template_cache` -/
def acquire (path : Bytes) (numbering : Numbering) : Except TemplateCacheStop TemplateCacheEntry × TemplateCache :=
  match cache.entries (templateSlot path) with
  | none => cache.reopen path numbering
  | some entry =>
      if entry.path = path then
        match cache.kernel.statRead entry.descriptor with
        | none => (.error .problem, cache.release (templateSlot path))
        | some stat =>
            if stat.size = entry.size ∧ stat.written = entry.written ∧ cache.kernel.moment.now - entry.checked < 4 then
              (.ok entry, cache)
            else cache.reopen path numbering
      else cache.reopen path numbering

/-- The page that is rendered out of the tree of an entry. -/
def render (entry : TemplateCacheEntry) (names : List (Bytes × BencodingType)) : Except TemplateCacheStop Bytes :=
  match renderTemplate entry.root names with
  | .error stop => .error (.fault stop)
  | .ok contents => .ok contents

/-- `process_cache_template_handler` -/
def process (path : Bytes) (names : List (Bytes × BencodingType)) (numbering : Numbering) :
    Except TemplateCacheStop Bytes × TemplateCache :=
  match cache.acquire path numbering with
  | (.error stop, cache) => (.error stop, cache)
  | (.ok entry, cache) => (render entry names, cache)

/-- A page is rendered and held under its key. -/
def renderPage (path key : Bytes) (names : List (Bytes × BencodingType)) (entry : TemplateCacheEntry) :
    Except TemplateCacheStop Bytes × TemplateCache :=
  match render entry names with
  | .error stop => (.error stop, cache)
  | .ok contents =>
      let entry := { entry with pages := update entry.pages (pageSlot key) (some { key, contents }) }
      (.ok contents, { cache with entries := update cache.entries (templateSlot path) (some entry) })

/-- `process_page_template_handler` -/
def processPage (path key : Bytes) (names : List (Bytes × BencodingType)) (numbering : Numbering) :
    Except TemplateCacheStop Bytes × TemplateCache :=
  match cache.acquire path numbering with
  | (.error stop, cache) => (.error stop, cache)
  | (.ok entry, cache) =>
      match entry.pages (pageSlot key) with
      | none => renderPage cache path key names entry
      | some page => if page.key = key then (.ok page.contents, cache) else renderPage cache path key names entry

/-- `clear_template_cache` -/
def clear : TemplateCache := (List.range 32).foldl release cache

end TemplateCache

/-! ## The pages of errors -/

/-- The key of the page of an error, printed into a buffer. -/
def errorKey (code : Int) (message : Bytes) : Bytes := decimal code ++ 32 :: message

def errorNames (code : Int) (message : Bytes) : List (Bytes × BencodingType) :=
  [(bytes "error_code", .integer code), (bytes "error_message", .string message)]

/-- The page of an error of which nothing is told but its code and its message, as `write_http_error_a` has it. -/
def TemplateCache.errorPage (cache : TemplateCache) (path : Bytes) (code : Int) (message : Bytes) (numbering : Numbering) :
    Except TemplateCacheStop Bytes × TemplateCache :=
  if (errorKey code message).length < 1024 then
    cache.processPage path (errorKey code message) (errorNames code message) numbering
  else (.error (.fault .overflow), cache)

/-! ## What goes on -/

/-- The file system goes on, a page is asked for, or something else of the process opens or closes a file. -/
inductive TemplateCacheEvent where
  | change (moment : Moment)
  | process (path : Bytes) (names : List (Bytes × BencodingType)) (numbering : Numbering)
  | errorPage (path : Bytes) (code : Int) (message : Bytes) (numbering : Numbering)
  | openOther (file : Nat) (numbering : Numbering)
  | close (descriptor : Nat)
  | clear

def TemplateCache.step (cache : TemplateCache) : TemplateCacheEvent → TemplateCache
  | .change moment => { cache with kernel := cache.kernel.change moment }
  | .process path names numbering => (cache.process path names numbering).2
  | .errorPage path code message numbering => (cache.errorPage path code message numbering).2
  | .openOther file numbering => { cache with kernel := cache.kernel.openOwned file numbering }
  | .close descriptor => { cache with kernel := cache.kernel.closeOwned descriptor }
  | .clear => cache.clear

/-- What a run leaves that starts with a cache in which every entry is empty. -/
def TemplateCache.run (moment : Moment) (events : List TemplateCacheEvent) : TemplateCache :=
  events.foldl TemplateCache.step { kernel := { moment } }

end Viriatum
