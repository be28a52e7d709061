import Viriatum.Http.Parser
import Viriatum.Stream.Respond

/-!
# Header blocks

The handling of a header block: its fields are decoded one by one, populate the message of the stream and reach
its handler.
-/

namespace Viriatum

open Library Effect

def http2PseudoMethod : UInt8 := 0x01
def http2PseudoScheme : UInt8 := 0x02
def http2PseudoPath : UInt8 := 0x04
def http2PseudoAuthority : UInt8 := 0x08

/-- The pseudo headers that a request has to carry. -/
def http2PseudoRequired : UInt8 := http2PseudoMethod ||| http2PseudoScheme ||| http2PseudoPath

/-- What the decoding of a block has seen so far. -/
structure Http2Block where
  regular : Bool := false
  flushed : Bool := false
  pseudo : UInt8 := 0
  trailers : Bool
deriving DecidableEq, Repr

/-- The value of a method, zero for one that is not known. -/
def methodHttp2 (data : Bytes) : Nat :=
  match httpMethodStrings.findIdx? (· = data) with
  | some index => index + 1
  | none => 0

/-! ## Fields -/

/-- The bytes that a name never carries: the controls, the blank, the bytes that are not ASCII and the separators. -/
def refusedInName (b : UInt8) : Bool :=
  b ≤ 0x20 ∨ b ≥ 0x7f ∨ b ∈ bytes ":,;\\()<>@[]?=\x7b\x7d\"/"

/-- The bytes that a value never carries. -/
def refusedInValue (b : UInt8) : Bool := b ∈ bytes "\r\n" ∨ b = 0

def padding (b : UInt8) : Bool := b ∈ bytes " \t"

/-- Whether a field carries only the bytes it is allowed to, its value not being padded. -/
def verifyHeaderHttp2 (header : HpackHeader) : Bool :=
  header.name.all (!refusedInName ·) ∧ header.value.all (!refusedInValue ·) ∧
    (header.value.head?.all (!padding ·)) ∧ (header.value.getLast?.all (!padding ·))

/-- Gathers a pseudo header into the message: what has been seen and the message after it, with the error of one
that is refused. -/
def gatherPseudo (header : HpackHeader) (seen : UInt8) (request : HttpRequest) :
    UInt8 × HttpRequest × Option Http2Error :=
  if header.name = bytes ":method" then
    if seen &&& http2PseudoMethod ≠ 0 then (seen, request, some .protocolError)
    else
      let method := methodHttp2 header.value
      (seen ||| http2PseudoMethod, { request with method }, if method = 0 then some .protocolError else none)
  else if header.name = bytes ":scheme" then
    if seen &&& http2PseudoScheme ≠ 0 then (seen, request, some .protocolError)
    else if header.value = bytes "https" ∨ header.value = bytes "http" then
      (seen ||| http2PseudoScheme, { request with scheme := header.value }, none)
    else (seen ||| http2PseudoScheme, request, some .protocolError)
  else if header.name = bytes ":path" then
    if seen &&& http2PseudoPath ≠ 0 then (seen, request, some .protocolError)
    else if header.value = [] then (seen ||| http2PseudoPath, request, some .protocolError)
    else
      (seen ||| http2PseudoPath,
        { request with path := Http2Connection.appendPath request.path header.value }, none)
  else if header.name = bytes ":authority" then
    if seen &&& http2PseudoAuthority ≠ 0 then (seen, request, some .protocolError)
    else if header.value.length ≥ viriatumMaxPathSize then
      (seen ||| http2PseudoAuthority, request, some .protocolError)
    else (seen ||| http2PseudoAuthority, { request with authority := header.value }, none)
  else (seen, request, some .protocolError)

/-- Accumulates the digits of an announced length, in sixty four bits, up to the first byte that is not one. -/
def gatherLength : Nat → Bytes → Nat × Bool
  | length, [] => (length, true)
  | length, digit :: rest =>
      if digit < 0x30 ∨ digit > 0x39 then (length, false)
      else gatherLength ((length * 10 + (digit.toNat - 0x30)) % 2 ^ 64) rest

namespace Http2Connection

variable (service : Service) (slot : Nat)

/-- Hands the pseudo headers over to the handler, once. -/
def pseudoHttp2 : Effect Http2Error (Http2Connection × Http2Block) Unit := do
  let (s, block) ← get
  if block.flushed then pure ()
  else
    set (s, { block with flushed := true })
    if block.trailers then pure ()
    else
      refuseIf (block.pseudo &&& http2PseudoRequired ≠ http2PseudoRequired) .protocolError
      let request := (s.stream slot).request
      let s := s.call service (.url request.address request.path)
      let s :=
        if cString request.authority ≠ [] then
          (s.call service (.headerField request.address (bytes "Host"))).call service
            (.headerValue request.address (cString request.authority))
        else s
      set (s, { block with flushed := true })

/-- Gathers a pseudo header into the message of the stream. -/
def pseudoHeader (header : HpackHeader) : Effect Http2Error (Http2Connection × Http2Block) Unit := do
  let (s, block) ← get
  refuseIf (block.regular) .protocolError
  refuseIf (block.trailers) .protocolError
  let (pseudo, request, error) := gatherPseudo header block.pseudo (s.stream slot).request
  set (s.modifyStream slot fun stream => { stream with request }, { block with pseudo })
  match error with
  | some e => throw e
  | none => pure ()

/-- Takes the size that a message announces for its payload. -/
def contentLength (header : HpackHeader) : Effect Http2Error (Http2Connection × Http2Block) Unit := do
  if header.name = bytes "content-length" then
    let (s, block) ← get
    let (length, digits) := gatherLength 0 header.value
    set (s.modifyStream slot fun stream => { stream with contentLength := length }, block)
    refuseIf (digits = false) .protocolError
    modify fun (s, block) => (s.modifyStream slot fun stream => { stream with announced := true }, block)
  else pure ()

/-- Verifies a regular field and hands it to the handler. -/
def takeHeader (header : HpackHeader) : Effect Http2Error (Http2Connection × Http2Block) Unit := do
  modify fun (s, block) => (s, { block with regular := true })
  refuseIf (header.name.any fun b => 0x41 ≤ b ∧ b ≤ 0x5a) .protocolError
  refuseIf (verifyHeaderHttp2 header = false) .protocolError
  refuseIf (header.name = bytes "connection" ∨ header.name = bytes "keep-alive" ∨ header.name = bytes "upgrade" ∨
    header.name = bytes "transfer-encoding") .protocolError
  refuseIf (header.name = bytes "te" ∧ header.value ≠ bytes "trailers") .protocolError
  contentLength slot header
  modify fun (s, block) =>
    let address := (s.stream slot).request.address
    ((s.call service (.headerField address header.name)).call service (.headerValue address header.value), block)

/-- The first regular field ends the pseudo headers. -/
def regularHeader (header : HpackHeader) : Effect Http2Error (Http2Connection × Http2Block) Unit := do
  let (_, block) ← get
  (if block.regular then pure () else pseudoHttp2 service slot)
  takeHeader service slot header

/-- The callback of the decoding of a block. -/
def headerHttp2 (header : HpackHeader) : Effect Http2Error (Http2Connection × Http2Block) Unit :=
  if header.name.head? = some 0x3a then pseudoHeader slot header else regularHeader service slot header

/-! ## Blocks -/

/-- Decodes a block with the table of the connection. Whatever the error of the decoding, it is one of the
compression: the table is no longer in step with the one of the peer. -/
def decodeBlock {σ : Type} (callback : HpackHeader → Effect Http2Error (Http2Connection × σ) Unit) (data : Bytes)
    (block : σ) : Act σ := fun s =>
  match (decodeHpack callback (fun _ => Http2Error.compressionError) data).run (s.decoder, (s, block)) with
  | (.ok _, (decoder, (s, block))) => (.ok block, { s with decoder })
  | (.error _, (decoder, (s, _))) => (.error .compressionError, { s with decoder })

/-- Sets the base handler on a stream that none serves and makes the stream the current one. -/
def enter (s : Http2Connection) : Http2Connection :=
  (if (s.stream slot).handler = none then setHandler slot s else s).activate slot

/-- Ends the headers of a block: the section closes once, and a block that closes the stream is a complete message. -/
def leave (trailers : Bool) (s : Http2Connection) : Http2Connection :=
  let address := (s.stream slot).request.address
  let s :=
    if trailers then s
    else
      (s.modifyStream slot fun stream => { stream with headersComplete := true }).call service
        (.headersComplete address)
  let s := s.modifyStream slot fun stream => { stream with handler := s.handler }
  if (s.stream slot).endStream then s.call service (.messageComplete address) else s

/-- Handles the block assembled for the stream in a slot. -/
def blockHttp2 (data : Bytes) : Act Unit := do
  let s ← get
  let trailers := (s.stream slot).headersComplete
  let s := enter slot s
  set (if trailers then s else s.call service (.messageBegin (s.stream slot).request.address))
  let block ← decodeBlock (headerHttp2 service slot) data { trailers }
  let _ ← withLocal block (pseudoHttp2 service slot)
  modify (leave service slot trailers)

end Http2Connection

end Viriatum
