import Viriatum.Commons.Percent

/-!
# The path of a file request

The callbacks of the handler of the files that make the path of a file out of the target of a request, and the run of
the callbacks that are issued for a request. Whoever issues them goes on whatever a callback gives back.
-/

namespace Viriatum

open Http2Connection

def maxUrlSize : Nat := 4096

def maxPathSize : Nat := 1024

structure FileLocation where
  basePath : Option CString
deriving DecidableEq

/-- What the paths of the files are made of: the path of the contents and the locations. -/
structure FileOptions where
  contentsPath : CString
  locations : List FileLocation

/-- The context that the handler of the files keeps for a request, as far as the path of the file goes. -/
structure FileContext where
  url : Buffer := Buffer.fresh maxUrlSize
  urlD : Buffer := Buffer.fresh maxUrlSize
  filePath : Buffer := Buffer.fresh maxPathSize
  filePathD : Buffer := Buffer.fresh maxPathSize
  basePath : Option CString := none

def traversalMessage : String := "Path traversal detected in URL"

namespace FileContext

/-- Prints a base path and the rest of a path into the path of the file and decodes it. -/
def setFilePath (base : CString) (string : Bytes) (context : FileContext) : Except Fault FileContext := do
  let filePath ← context.filePath.write (base.val ++ string ++ [0])
  let outcome ← decodePercent filePath (base.val.length + string.length) context.filePathD
  .ok { context with filePath, filePathD := outcome.buffer }

/-- Keeps a target as the url and makes the path of the file with it; only the url is checked. -/
def setTarget (base : CString) (data : Bytes) (context : FileContext) : Except Fault (FileContext × Option String) := do
  let url ← context.url.write (data ++ [0])
  let string ← url.readString
  let outcome ← decodePercent url data.length context.urlD
  let context ← { context with url, urlD := outcome.buffer }.setFilePath base string
  let safe ← isPathSafe context.urlD
  .ok (context, if safe then none else some traversalMessage)

def urlCallback (options : FileOptions) (data : Bytes) (context : FileContext) :
    Except Fault (FileContext × Option String) :=
  context.setTarget options.contentsPath (data.takeWhile (· ≠ 63))

def pathCallback (options : FileOptions) (data : Bytes) (context : FileContext) :
    Except Fault (FileContext × Option String) :=
  context.setTarget (context.basePath.getD options.contentsPath) data

/-- Makes the path of the file under the base path of a location, and checks all of it. -/
def locationCallback (options : FileOptions) (index offset : Nat) (context : FileContext) :
    Except Fault (FileContext × Option String) :=
  match options.locations[index]? with
  | none => .error .outOfBounds
  | some location =>
      let context := { context with basePath := location.basePath }
      match location.basePath with
      | none => .ok (context, none)
      | some base => do
          let partialUrl ← Buffer.readString (context.url.drop offset)
          let context ← context.setFilePath base partialUrl
          let safe ← isPathSafe context.filePathD
          .ok (context, if safe then none else some traversalMessage)

/-- The path that the message complete callback opens. -/
def messageCompleteCallback (context : FileContext) : Except Fault Bytes := context.filePathD.readString

end FileContext

inductive FileCallback where
  | url (data : Bytes)
  | path (data : Bytes)
  | location (index offset : Nat)
  | messageComplete
deriving DecidableEq, Repr

/-- What is seen of a request: the errors of its callbacks and the paths that are opened. -/
inductive FileEvent where
  | refused (message : String)
  | opened (path : Bytes)
deriving DecidableEq, Repr

namespace FileContext

/-- The error of a callback goes nowhere. -/
def ignoreError (result : Except Fault (FileContext × Option String)) :
    Except Fault (FileContext × List FileEvent) := do
  let (context, error) ← result
  .ok (context, error.toList.map .refused)

def step (options : FileOptions) (context : FileContext) : FileCallback → Except Fault (FileContext × List FileEvent)
  | .url data => ignoreError (context.urlCallback options data)
  | .path data => ignoreError (context.pathCallback options data)
  | .location index offset => ignoreError (context.locationCallback options index offset)
  | .messageComplete => do
      let path ← context.messageCompleteCallback
      .ok (context, [.opened path])

/-- The run of the callbacks of a request, from the context that it has been given. -/
def run (options : FileOptions) : List FileCallback → FileContext → Except Fault (FileContext × List FileEvent)
  | [], context => .ok (context, [])
  | call :: rest, context => do
      let (context, events) ← context.step options call
      let (context, more) ← context.run options rest
      .ok (context, events ++ more)

end FileContext

end Viriatum
