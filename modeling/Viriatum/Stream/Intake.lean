import Viriatum.Http.Lemmas.HpackFeed
import Viriatum.Stream.Lemmas.Served

/-!
# The intake of a message

What the fields of a header block make of the message of a stream, without the session around it: the message, the
length that it announces and the calls that reach its handler.
-/

namespace Viriatum

open Library

/-- What a block has made of a message. -/
structure Intake where
  block : Http2Block
  request : HttpRequest
  contentLength : Nat
  announced : Bool
  calls : List Callback
deriving DecidableEq

namespace Intake

open Http2Connection

/-- The calls that hand the pseudo headers of a message over. -/
def pseudoCalls (request : HttpRequest) : List Callback :=
  .url request.address request.path ::
    if cString request.authority ≠ [] then
      [.headerField request.address (bytes "Host"), .headerValue request.address (cString request.authority)]
    else []

/-- The pseudo headers are handed over once, and refused when one that is required is missing. -/
def pseudo (i : Intake) : Bool × Intake :=
  if i.block.flushed then (true, i)
  else
    let flushed := { i with block := { i.block with flushed := true } }
    if i.block.trailers then (true, flushed)
    else if i.block.pseudo &&& http2PseudoRequired ≠ http2PseudoRequired then (false, flushed)
    else (true, { flushed with calls := i.calls ++ pseudoCalls i.request })

def pseudoHeader (header : HpackHeader) (i : Intake) : Bool × Intake :=
  if i.block.regular then (false, i)
  else if i.block.trailers then (false, i)
  else
    let (pseudo, request, error) := gatherPseudo header i.block.pseudo i.request
    (error.isNone, { i with block := { i.block with pseudo }, request })

def contentLengthHeader (header : HpackHeader) (i : Intake) : Bool × Intake :=
  if header.name = bytes "content-length" then
    let (length, digits) := gatherLength 0 header.value
    if digits then (true, { i with contentLength := length, announced := true })
    else (false, { i with contentLength := length })
  else (true, i)

/-- Whether a regular field is one that a message may carry, its length apart. -/
def allowsHeader (header : HpackHeader) : Bool :=
  (header.name.any fun b => 0x41 ≤ b ∧ b ≤ 0x5a) = false ∧ verifyHeaderHttp2 header = true ∧
    ¬ (header.name = bytes "connection" ∨ header.name = bytes "keep-alive" ∨ header.name = bytes "upgrade" ∨
      header.name = bytes "transfer-encoding") ∧
    ¬ (header.name = bytes "te" ∧ header.value ≠ bytes "trailers")

def takeHeader (header : HpackHeader) (i : Intake) : Bool × Intake :=
  let i := { i with block := { i.block with regular := true } }
  if allowsHeader header = false then (false, i)
  else
    match contentLengthHeader header i with
    | (false, i) => (false, i)
    | (true, i) =>
        (true, { i with
          calls := i.calls ++ [.headerField i.request.address header.name, .headerValue i.request.address header.value] })

def regularHeader (header : HpackHeader) (i : Intake) : Bool × Intake :=
  if i.block.regular then i.takeHeader header
  else
    match i.pseudo with
    | (false, i) => (false, i)
    | (true, i) => i.takeHeader header

/-- What a field makes of the message, and whether it is accepted. -/
def header (header : HpackHeader) (i : Intake) : Bool × Intake :=
  if header.name.head? = some 0x3a then i.pseudoHeader header else i.regularHeader header

/-- What some fields make of the message, up to the first that is not accepted. -/
def headers : List HpackHeader → Intake → Bool × Intake
  | [], i => (true, i)
  | field :: fields, i =>
      match i.header field with
      | (false, i) => (false, i)
      | (true, i) => i.headers fields

/-- What a whole block makes of the message. -/
def finish (fields : List HpackHeader) (i : Intake) : Bool × Intake :=
  match i.headers fields with
  | (false, i) => (false, i)
  | (true, i) => i.pseudo

end Intake

/-- The intake of the message of a stream as a block of it begins. -/
def StreamCore.intake (core : StreamCore) : Intake where
  block := { trailers := core.headersComplete }
  request := core.request
  contentLength := core.contentLength
  announced := core.announced
  calls := if core.headersComplete then [] else [.messageBegin core.request.address]

/-- The calls at the end of a block of a stream. -/
def StreamCore.leaveCalls (core : StreamCore) : List Callback :=
  (if core.headersComplete then [] else [.headersComplete core.request.address]) ++
    if core.endStream then [.messageComplete core.request.address] else []

/-- The core of a stream once an intake is through. -/
def StreamCore.taking (core : StreamCore) (i : Intake) : StreamCore :=
  { core with request := i.request, contentLength := i.contentLength, announced := i.announced }

/-- The calls that concern a message, other than the setting and the unsetting of its handler, in the order they are
made in. -/
def callsOf (address : Nat) (history : List Event) : List Callback :=
  history.reverse.filterMap fun
    | .called (.set _) => none
    | .called (.unset _) => none
    | .called callback => if callback.address = some address then some callback else none
    | _ => none

end Viriatum
