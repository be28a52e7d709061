import Viriatum.Commons.Integers
import Viriatum.Http.Writer
import Viriatum.Library.Effect
import Viriatum.Library.Slots

/-!
# Responses of Lua scripts

The handler that loads a script, calls its `run` function and gathers what it answers, as far as the stack of the Lua
state goes. The script decides what every call of it ends in; the buffer that the body is gathered in may keep values
on the stack.
-/

namespace Viriatum

open Http2Connection Library

/-- A value on the stack; a number has an integer and the text that Lua makes of it. -/
inductive LuaValue where
  | nil
  | number (integer : Int) (text : Bytes)
  | string (text : Bytes)
  | table
  | function
  | other
deriving DecidableEq, Repr

/-- What a value is pushed for. -/
inductive LuaPurpose where
  | loaded
  | run
  | application
  | environ
  | setting
  | metatable
  | message
  | status
  | headers
  | iterator
  | headerName
  | headerValue
  | converted
  | generator
  | piece
  | kept
  | body
deriving DecidableEq, Repr

/-- A Lua state, and whether its script is to be loaded again. -/
structure LuaState where
  stack : Slots LuaPurpose LuaValue := {}
  fileDirty : Bool := true
deriving DecidableEq, Repr

/-- A computation with a Lua state. It fails where the call does not return: an error outside of any protected call ends
the program, and a loop of the script may have no end. -/
abbrev LuaEffect (α : Type) := Effect Unit LuaState α

/-- What is assumed of Lua: the integer that it makes of a string, and how many values a buffer keeps on the stack after
the pieces that were added to it. -/
structure LuaLibrary where
  toInteger : Bytes → Int
  kept : List Bytes → Nat

/-- What a script does for a request: the values that its file returns, what its names are looked up to (none is an error),
what its `run` function returns, and what the calls for the fields and for the pieces of the body give, as far as they
are seen. -/
structure LuaScript where
  file : Option (List LuaValue)
  run : Option LuaValue
  application : Option LuaValue
  applicationRun : Option LuaValue
  response : Option (LuaValue × LuaValue × LuaValue)
  fields : List (Option (LuaValue × LuaValue))
  pieces : List (Option LuaValue)
deriving DecidableEq, Repr

/-- What the environment of a script is made of. -/
structure HandlerLuaContext where
  method : Bytes
  headers : List (Bytes × Bytes)
  prefixName : Bytes
  fileName : Bytes
  query : Bytes
  serverName : Bytes
  port : Bytes
  contentType : Bytes
  contentLength : Bytes
deriving DecidableEq, Repr

/-! ## The interface of Lua -/

def luaPush (purpose : LuaPurpose) (value : LuaValue) : LuaEffect Unit :=
  modify fun s => { s with stack := s.stack.push purpose value }

def luaPop (count : Nat) : LuaEffect Unit := modify fun s => { s with stack := s.stack.pop count }

def luaRemove (position : Nat) : LuaEffect Unit := modify fun s => { s with stack := s.stack.remove position }

/-- Reads and takes off what a call of Lua takes from the top. -/
def luaTake (count : Nat) (purpose : LuaPurpose) : LuaEffect Unit :=
  modify fun s => { s with stack := s.stack.take count purpose }

/-- Reads the value at a position that is counted from the top. -/
def luaRead (position : Nat) (purposes : List LuaPurpose) : LuaEffect LuaValue := do
  let s ← get
  set { s with stack := s.stack.read position purposes }
  return (s.stack.at? position).getD .nil

/-- Reads a string; a number is converted where it stands. -/
def luaToString (position : Nat) (purpose : LuaPurpose) : LuaEffect (Option Bytes) := do
  match ← luaRead position [purpose] with
  | .string text => return some text
  | .number _ text => do
      modify fun s => { s with stack := s.stack.replace position .converted (.string text) }
      return some text
  | _ => return none

/-- Sets a field of the table under the value at the top. -/
def luaSetField (table value : LuaPurpose) : LuaEffect Unit := do
  let _ ← luaRead 2 [table]
  luaTake 1 value

/-- What a name is looked up to, or an error that nothing catches. -/
def luaLookup (purpose : LuaPurpose) : Option LuaValue → LuaEffect Unit
  | some value => luaPush purpose value
  | none => throw ()

def LuaLibrary.integer (library : LuaLibrary) : LuaValue → Int
  | .number integer _ => integer
  | .string text => library.toInteger text
  | _ => 0

/-! ## The environment of a script -/

def uppercase (name : Bytes) : Bytes := name.map fun byte => if 97 ≤ byte ∧ byte ≤ 122 then byte - 32 else byte

/-- The fields of the environment that are strings. -/
def HandlerLuaContext.environ (context : HandlerLuaContext) : List (Bytes × Bytes) :=
  context.headers.map (fun header => (bytes "HTTP_" ++ uppercase header.1, header.2)) ++
    [(bytes "REQUEST_METHOD", context.method), (bytes "SCRIPT_NAME", context.prefixName),
      (bytes "PATH_INFO", context.fileName), (bytes "QUERY_STRING", context.query),
      (bytes "SERVER_NAME", context.serverName), (bytes "SERVER_PORT", context.port),
      (bytes "SERVER_PROTOCOL", bytes "HTTP/1.1")] ++
    (if context.contentType.length > 0 then [(bytes "CONTENT_TYPE", context.contentType)] else []) ++
    (if context.contentLength.length > 0 then [(bytes "CONTENT_LENGTH", context.contentLength)] else [])

def pushFields : List (Bytes × Bytes) → LuaEffect Unit
  | [] => pure ()
  | (_, value) :: fields => do
      luaPush .setting (.string value)
      luaSetField .environ .setting
      pushFields fields

def luaInputPush : LuaEffect Unit := do
  luaPush .setting .other
  luaPush .metatable .table
  luaSetField .setting .metatable

def startEnvironLua (context : HandlerLuaContext) : LuaEffect Unit := do
  luaPush .environ .table
  pushFields context.environ
  luaInputPush
  luaSetField .environ .setting
  luaPush .setting .table
  luaPush .setting .function
  luaSetField .setting .setting
  luaSetField .environ .setting

/-! ## The response -/

/-- What the handler ends in: an error that it raises, or the parts of a response. -/
inductive LuaOutcome where
  | failed (message : String)
  | sent (status : Int) (fields : List (Bytes × Bytes)) (body : Bytes)
deriving DecidableEq, Repr

/-- Loads the script again, if it is to be; the error that this may raise. -/
def loadFileLua (script : LuaScript) : LuaEffect (Option String) := do
  if (← get).fileDirty then do
    modify fun s => { s with fileDirty := false }
    match script.file with
    | none => do
        luaPush .message .other
        let _ ← luaRead 1 [.message]
        luaPop 1
        -- the state of Lua is made anew
        modify fun s => { stack := { slots := [], proper := s.stack.proper }, fileDirty := true }
        return some "Problem executing script file"
    | some values => do
        values.forM (luaPush .loaded)
        if (← luaRead 1 [.loaded]) = .table then luaTake 1 .loaded
        else do
          luaPop (if (← get).stack.depth > 0 then 1 else 0)
          luaPush .setting .nil
          luaTake 1 .setting
        return none
  else return none

/-- Pushes the `run` function of the script; whether there is one. -/
def findRunLua (script : LuaScript) : LuaEffect Bool := do
  luaLookup .run script.run
  if (← luaRead 1 [.run]) = .nil then do
    luaPop 1
    luaLookup .application script.application
    if (← luaRead 1 [.application]) ≠ .nil then do
      luaLookup .run script.applicationRun
      luaRemove 2
  return (← luaRead 1 [.run, .application]) = .function

/-- The loop over the fields of the response; a step to the next one reads the table and the last name. -/
def writeFieldsLua : List (Option (LuaValue × LuaValue)) → LuaEffect (List (Bytes × Bytes))
  | [] => throw ()
  | field :: fields => do
      let _ ← luaRead 3 [.headers]
      luaTake 1 .headerName
      match field with
      | none => return []
      | some (name, value) => do
          luaPush .headerName name
          luaPush .headerValue value
          let headerName ← luaToString 2 .headerName
          let headerValue ← luaToString 1 .headerValue
          luaPop 1
          let written ← writeFieldsLua fields
          match headerName, headerValue with
          | some headerName, some headerValue => return (headerName, headerValue) :: written
          | _, _ => return written

/-- The loop over the pieces of the body, which are added to a buffer. -/
def collectPiecesLua (library : LuaLibrary) : List (Option LuaValue) → List Bytes → LuaEffect (List Bytes)
  | pieces, added => do
      let iterator ← luaRead 1 [.iterator]
      luaPush .generator iterator
      match pieces with
      | [] => throw ()
      | none :: _ => do
          luaTake 1 .generator
          luaPush .message .other
          luaPop 1
          return added
      | some piece :: pieces => do
          luaTake 1 .generator
          luaPush .piece piece
          if (← luaRead 1 [.piece]) = .nil then do
            luaPop 1
            return added
          else do
            let bodyChunk ← luaToString 1 .piece
            match bodyChunk with
            | some (byte :: chunk) => do
                -- the buffer takes what it has kept off the top, and keeps other values there
                luaTake (library.kept added) .kept
                (List.replicate (library.kept (added ++ [byte :: chunk])) (LuaValue.string [])).forM (luaPush .kept)
                luaPop 1
                collectPiecesLua library pieces (added ++ [byte :: chunk])
            | _ => do
                luaPop 1
                collectPiecesLua library pieces added

/-- Gathers the body on the top of the stack, if there is a function to call for it; the size of it. -/
def collectBodyLua (library : LuaLibrary) (script : LuaScript) : LuaEffect Nat := do
  if (← luaRead 1 [.iterator]) = .function then do
    (List.replicate (library.kept []) (LuaValue.string [])).forM (luaPush .kept)
    let added ← collectPiecesLua library script.pieces []
    luaTake (library.kept added) .kept
    luaPush .body (.string added.flatten)
    return added.flatten.length
  else return 0

/-- Gathers the body and copies it, and takes what the `run` function has returned off the stack. -/
def takeBodyLua (library : LuaLibrary) (script : LuaScript) : LuaEffect Bytes := do
  let bodySize ← collectBodyLua library script
  let body ←
    if bodySize > 0 then do
      let body ← luaToString 1 .body
      luaPop 1
      pure (body.getD [])
    else pure []
  luaPop 3
  return body

/-- Gathers the response that the `run` function has returned. -/
def sendReplyLua (library : LuaLibrary) (script : LuaScript) : LuaEffect LuaOutcome := do
  let statusCode := Int.bmod (library.integer (← luaRead 3 [.status])) (2 ^ 32)
  let statusCode := if statusCode = 0 then 200 else statusCode
  let fields ←
    if (← luaRead 2 [.headers]) = .table then do
      luaPush .headerName .nil
      writeFieldsLua script.fields
    else pure []
  let body ← takeBodyLua library script
  return .sent statusCode fields body

/-- Answers a request with the script. -/
def sendResponseHandlerLua (library : LuaLibrary) (context : HandlerLuaContext) (script : LuaScript) :
    LuaEffect LuaOutcome := do
  match ← loadFileLua script with
  | some message => return .failed message
  | none => do
      if ← findRunLua script then do
        startEnvironLua context
        luaTake 1 .environ
        luaTake 1 .run
        match script.response with
        | none => do
            luaPush .message .other
            let _ ← luaRead 1 [.message]
            luaPop 1
            modify fun s => { s with fileDirty := true }
            return .failed "Problem calling the run function"
        | some (status, headers, iterator) => do
            luaPush .status status
            luaPush .headers headers
            luaPush .iterator iterator
            sendReplyLua library script
      else do
        luaPop 1
        modify fun s => { s with fileDirty := true }
        return .failed "No run function in script"

end Viriatum
