import Viriatum.Commons.Integers
import Viriatum.Http.Writer

/-!
# The parser of HTTP/1

A state machine over the bytes of the messages, which keeps its state from one read to the next. It handles one message for
each of its calls and tells what it finds through the callbacks of the handler, the texts as places in memory.
-/

namespace Viriatum

open Library

inductive HttpType where
  | request
  | response
deriving DecidableEq, Repr

structure HttpFlags where
  chunked : Bool := false
  keepAlive : Bool := false
  close : Bool := false
  trailing : Bool := false
  upgrade : Bool := false
  skipbody : Bool := false
deriving DecidableEq, Repr

inductive HttpParserState where
  | dead
  | startReqOrRes
  | resOrRespH
  | startRes
  | resH
  | resHt
  | resHtt
  | resHttp
  | resFirstHttpMajor
  | resHttpMajor
  | resFirstHttpMinor
  | resHttpMinor
  | resFirstStatusCode
  | resStatusCode
  | resStatus
  | resLineAlmostDone
  | startReq
  | reqMethod
  | reqSpacesBeforeUrl
  | reqSchema
  | reqSchemaSlash
  | reqSchemaSlashSlash
  | reqHost
  | reqPort
  | reqPath
  | reqQueryStringStart
  | reqQueryString
  | reqFragmentStart
  | reqFragment
  | reqHttpStart
  | reqHttpH
  | reqHttpHt
  | reqHttpHtt
  | reqHttpHttp
  | reqFirstHttpMajor
  | reqHttpMajor
  | reqFirstHttpMinor
  | reqHttpMinor
  | reqLineAlmostDone
  | headerFieldStart
  | headerField
  | headerValueStart
  | headerValue
  | headerValueLws
  | headerAlmostDone
  | chunkSizeStart
  | chunkSize
  | chunkParameters
  | chunkSizeAlmostDone
  | headersAlmostDone
  | chunkData
  | chunkDataAlmostDone
  | chunkDataDone
  | bodyIdentity
  | bodyIdentityEof
deriving DecidableEq, Repr

/-- The state of the field that is being read; `unset` is the value of a parser that has read none. -/
inductive HttpHeaderState where
  | unset
  | general
  | c
  | co
  | con
  | matchingConnection
  | matchingProxyConnection
  | matchingContentLength
  | matchingTransferEncoding
  | matchingUpgrade
  | connection
  | contentLength
  | transferEncoding
  | upgrade
  | matchingTransferEncodingChunked
  | matchingConnectionKeepAlive
  | matchingConnectionClose
  | transferEncodingChunked
  | connectionKeepAlive
  | connectionClose
deriving DecidableEq, Repr

/-- What the callbacks see of the message. -/
structure HttpMessage where
  httpMajor : Nat
  httpMinor : Nat
  method : Nat
  statusCode : Nat
  flags : HttpFlags
  contentLength : Nat
  trailers : Bool
deriving DecidableEq, Repr

inductive HttpCallback where
  | messageBegin
  | line
  | headersComplete
  | messageComplete
deriving DecidableEq, Repr

inductive HttpDataCallback where
  | url
  | headerField
  | headerValue
deriving DecidableEq, Repr

inductive HttpAssertion where
  | unknownHeaderState
  | shouldNotGetHere
  | readCount
  | chunked
  | unhandledState
deriving DecidableEq, Repr

/-- What a parser does: it calls back, with the address and the length of a text where there is one, and it may fail an
assertion, which ends a program that is built with them and nothing else. -/
inductive HttpEvent where
  | callback (callback : HttpCallback) (message : HttpMessage)
  | data (callback : HttpDataCallback) (address length : Nat) (message : HttpMessage)
  | body (address length : Nat)
  | failed (assertion : HttpAssertion)
deriving DecidableEq, Repr

inductive HeadersAnswer where
  | proceed
  | skipbody
  | fail
deriving DecidableEq, Repr

/-- What the handler answers once it is told that the headers are complete. -/
abbrev HttpSettings := List HttpEvent → HeadersAnswer

/-- A parser, with the events of it, the latest first. -/
structure HttpParser where
  type : HttpType
  flags : HttpFlags
  state : HttpParserState
  headerState : HttpHeaderState
  index : Nat
  readCount : Nat
  contentLength : Int
  httpMajor : Nat
  httpMinor : Nat
  statusCode : Nat
  method : Nat
  upgrade : Bool
  headerFieldMark : Option Nat
  headerValueMark : Option Nat
  urlMark : Option Nat
  savedContentLength : Nat
  parseCount : Nat := 0
  events : List HttpEvent := []
deriving DecidableEq, Repr

def createHttpParser (request : Bool) : HttpParser where
  type := if request then .request else .response
  flags := { keepAlive := true, close := true }
  state := if request then .startReq else .startRes
  headerState := .unset
  index := 0
  readCount := 0
  contentLength := -1
  httpMajor := 0
  httpMinor := 0
  statusCode := 0
  method := 0
  upgrade := false
  headerFieldMark := none
  headerValueMark := none
  urlMark := none
  savedContentLength := 0

/-! ## Characters -/

def lower (byte : UInt8) : UInt8 := byte ||| 32

def isAlpha (byte : UInt8) : Bool := 97 ≤ lower byte ∧ lower byte ≤ 122

def isUrlChar (byte : UInt8) : Bool := 33 ≤ byte ∧ byte ≠ 35 ∧ byte ≠ 63 ∧ byte ≠ 127

def isHostChar (byte : UInt8) : Bool := isAlpha byte ∨ isDigit byte ∨ byte = 46 ∨ byte = 45 ∨ byte = 95

/-- The character of a name in lower case, which is zero for what is none. -/
def token (byte : UInt8) : UInt8 :=
  if 65 ≤ byte ∧ byte ≤ 90 then byte + 32
  else if byte < 32 ∨ byte = 40 ∨ byte = 41 ∨ byte = 44 ∨ (58 ≤ byte ∧ byte ≤ 64) ∨ (91 ≤ byte ∧ byte ≤ 93) ∨
    byte = 123 ∨ 127 ≤ byte then 0
  else byte

/-- The digit of a size, out of a table that gives no values for the second half of the bytes. -/
def unhex (byte : UInt8) : Int :=
  if 48 ≤ byte ∧ byte ≤ 57 then byte.toNat - 48
  else if 65 ≤ byte ∧ byte ≤ 70 then byte.toNat - 55
  else if 97 ≤ byte ∧ byte ≤ 102 then byte.toNat - 87
  else if byte < 128 then -1
  else 0

/-- The methods known, in the order of their values. -/
def httpMethodStrings : List Bytes :=
  [ "DELETE", "GET", "HEAD", "POST", "PUT", "CONNECT", "OPTIONS", "TRACE", "COPY", "LOCK", "MKCOL", "MOVE",
    "PROPFIND", "PROPPATCH", "UNLOCK", "REPORT", "MKACTIVITY", "CHECKOUT", "MERGE", "M-SEARCH", "NOTIFY",
    "SUBSCRIBE", "UNSUBSCRIBE", "PATCH" ].map bytes

/-! ## Machine integers -/

/-- A value in a signed integer of 32 bits. -/
def toInt (value : Int) : Int := value.bmod (2 ^ 32)

/-- A value in an unsigned integer of 64 bits. -/
def toSize (value : Int) : Nat := (value % 2 ^ 64).toNat

/-- A digit more of a number. -/
def addDigit (radix contentLength digit : Int) : Int := toInt (toInt (contentLength * radix) + digit)

namespace HttpParser

/-! ## Callbacks -/

def httpShouldKeepAlive (p : HttpParser) : Bool :=
  if p.httpMajor > 0 ∧ p.httpMinor > 0 then !p.flags.close else p.flags.keepAlive

def updateRequest (p : HttpParser) : HttpMessage where
  httpMajor := p.httpMajor
  httpMinor := p.httpMinor
  method := p.method
  statusCode := p.statusCode
  flags := { p.flags with keepAlive := p.httpShouldKeepAlive }
  contentLength := p.savedContentLength
  trailers := p.flags.trailing

def event (event : HttpEvent) (p : HttpParser) : HttpParser := { p with events := event :: p.events }

def httpCallback (callback : HttpCallback) (p : HttpParser) : HttpParser := p.event (.callback callback p.updateRequest)

/-- The length of a text is the distance from its mark. -/
def dataEvent (callback : HttpDataCallback) (pointer mark : Nat) (p : HttpParser) : HttpParser :=
  p.event (.data callback mark (toSize (pointer - mark)) p.updateRequest)

def callbackUrl (pointer : Nat) (p : HttpParser) : HttpParser :=
  match p.urlMark with
  | none => p
  | some mark => { p.dataEvent .url pointer mark with urlMark := none }

def callbackHeaderField (pointer : Nat) (p : HttpParser) : HttpParser :=
  match p.headerFieldMark with
  | none => p
  | some mark => { p.dataEvent .headerField pointer mark with headerFieldMark := none }

def callbackHeaderValue (pointer : Nat) (p : HttpParser) : HttpParser :=
  match p.headerValueMark with
  | none => p
  | some mark => { p.dataEvent .headerValue pointer mark with headerValueMark := none }

def goto (state : HttpParserState) (p : HttpParser) : HttpParser := { p with state }

def gotoHeader (headerState : HttpHeaderState) (p : HttpParser) : HttpParser := { p with headerState }

/-- A condition that holds, or the event of its failing. -/
def assert (assertion : HttpAssertion) (condition : Bool) (p : HttpParser) : HttpParser :=
  if condition then p else p.event (.failed assertion)

def startState (p : HttpParser) : HttpParserState :=
  match p.type with
  | .request => .startReq
  | .response => .startRes

/-- The message is complete, and a new one may start. -/
def messageComplete (p : HttpParser) : HttpParser :=
  let p := p.httpCallback .messageComplete
  { p with state := p.startState, parseCount := p.parseCount + 1 }

/-- The first byte of a message. -/
def messageBegin (p : HttpParser) : HttpParser :=
  { p with flags := {}, contentLength := -1 }.httpCallback .messageBegin

end HttpParser

/-- What comes of a byte: the parser goes on behind it and behind a number of bytes more, refuses the data, returns to its
caller behind it or not, or has moved its pointer to where there is no data. -/
inductive HttpStep where
  | next (skip : Nat) (p : HttpParser)
  | refused (p : HttpParser)
  | returned (behind : Bool) (p : HttpParser)
  | strayed (p : HttpParser)
deriving DecidableEq, Repr

namespace HttpParser

def stay (p : HttpParser) : HttpStep := .next 0 p

def enter (state : HttpParserState) (p : HttpParser) : HttpStep := (p.goto state).stay

/-! ## The line of a response -/

def startRes (byte : UInt8) (p : HttpParser) : HttpStep :=
  let p := p.messageBegin
  if byte = 72 then p.enter .resH
  else if byte = 13 ∨ byte = 10 then p.stay
  else .refused p

def firstHttpMajor (next : HttpParserState) (byte : UInt8) (p : HttpParser) : HttpStep :=
  if byte < 49 ∨ 57 < byte then .refused p else { p with httpMajor := byte.toNat - 48 }.enter next

def httpMajorDigit (next : HttpParserState) (byte : UInt8) (p : HttpParser) : HttpStep :=
  if byte = 46 then p.enter next
  else if !isDigit byte then .refused p
  else
    let p := { p with httpMajor := p.httpMajor * 10 + (byte.toNat - 48) }
    if p.httpMajor > 999 then .refused p else p.stay

def firstHttpMinor (next : HttpParserState) (byte : UInt8) (p : HttpParser) : HttpStep :=
  if !isDigit byte then .refused p else { p with httpMinor := byte.toNat - 48 }.enter next

def httpMinorDigit (byte : UInt8) (p : HttpParser) : HttpStep :=
  if !isDigit byte then .refused p
  else
    let p := { p with httpMinor := p.httpMinor * 10 + (byte.toNat - 48) }
    if p.httpMinor > 999 then .refused p else p.stay

def resFirstStatusCode (byte : UInt8) (p : HttpParser) : HttpStep :=
  if !isDigit byte then if byte = 32 then p.stay else .refused p
  else { p with statusCode := byte.toNat - 48 }.enter .resStatusCode

/-- The end of a line, at a line feed. -/
def lineDone (p : HttpParser) : HttpStep := (p.httpCallback .line).enter .headerFieldStart

def resStatusCode (byte : UInt8) (p : HttpParser) : HttpStep :=
  if !isDigit byte then
    if byte = 32 then p.enter .resStatus
    else if byte = 13 then p.enter .resLineAlmostDone
    else if byte = 10 then p.lineDone
    else .refused p
  else
    let p := { p with statusCode := p.statusCode * 10 + (byte.toNat - 48) }
    if p.statusCode > 999 then .refused p else p.stay

def resStatus (byte : UInt8) (p : HttpParser) : HttpStep :=
  if byte = 13 then p.enter .resLineAlmostDone
  else if byte = 10 then p.lineDone
  else p.stay

/-! ## The line of a request -/

/-- The method that is tried for its first letter. -/
def firstMethod (byte : UInt8) : Option Nat :=
  if byte = 67 then some httpConnect
  else if byte = 68 then some 1
  else if byte = 71 then some 2
  else if byte = 72 then some httpHead
  else if byte = 76 then some 10
  else if byte = 77 then some 11
  else if byte = 78 then some 21
  else if byte = 79 then some 7
  else if byte = 80 then some 4
  else if byte = 82 then some 16
  else if byte = 83 then some 22
  else if byte = 84 then some 8
  else if byte = 85 then some 15
  else none

def startReqMethodAssign (byte : UInt8) (p : HttpParser) : HttpStep :=
  match firstMethod byte with
  | none => .refused { p with method := 0, index := 1 }
  | some method => { p with method, index := 1 }.enter .reqMethod

def startReq (byte : UInt8) (p : HttpParser) : HttpStep :=
  if byte = 13 ∨ byte = 10 then p.stay
  else
    let p := p.messageBegin
    if !isAlpha byte then .refused p else p.startReqMethodAssign byte

def startReqOrRes (byte : UInt8) (p : HttpParser) : HttpStep :=
  if byte = 13 ∨ byte = 10 then p.stay
  else
    let p := p.messageBegin
    if byte = 72 then p.enter .resOrRespH
    else { p with type := .request }.startReqMethodAssign byte

def resOrRespH (byte : UInt8) (p : HttpParser) : HttpStep :=
  if byte = 84 then { p with type := .response }.enter .resHt
  else if byte ≠ 69 then .refused p
  else { p with type := .request, method := httpHead, index := 2 }.enter .reqMethod

/-- The method that a byte turns the one that is being matched into. -/
def otherMethod (method index : Nat) (byte : UInt8) : Option Nat :=
  if method = httpConnect then
    if index = 1 ∧ byte = 72 then some 18
    else if index = 2 ∧ byte = 80 then some 9
    else none
  else if method = 11 then
    if index = 1 ∧ byte = 79 then some 12
    else if index = 1 ∧ byte = 69 then some 19
    else if index = 1 ∧ byte = 45 then some 20
    else if index = 2 ∧ byte = 65 then some 17
    else none
  else if index = 1 ∧ method = 4 then
    if byte = 82 then some 13
    else if byte = 85 then some 5
    else if byte = 65 then some 24
    else none
  else if index = 2 ∧ method = 15 ∧ byte = 83 then some 23
  else if index = 4 ∧ method = 13 ∧ byte = 80 then some 14
  else none

def reqMethod (byte : UInt8) (p : HttpParser) : HttpStep :=
  if byte = 0 then .refused p
  else
    let matcher := (httpMethodStrings.getD (p.method - 1) []).getD p.index 0
    if byte = 32 ∧ matcher = 0 then { p with index := p.index + 1 }.enter .reqSpacesBeforeUrl
    else if byte = matcher then { p with index := p.index + 1 }.stay
    else
      match otherMethod p.method p.index byte with
      | none => .refused p
      | some method => { p with method, index := p.index + 1 }.stay

def reqSpacesBeforeUrl (pointer : Nat) (byte : UInt8) (p : HttpParser) : HttpStep :=
  if byte = 32 then p.stay
  else if byte = 47 ∨ byte = 42 then { p with urlMark := some pointer }.enter .reqPath
  else if isAlpha byte ∨ (p.method = httpConnect ∧ isDigit byte) then
    { p with urlMark := some pointer }.enter (if p.method = httpConnect then .reqHost else .reqSchema)
  else .refused p

def reqSchema (byte : UInt8) (p : HttpParser) : HttpStep :=
  if isAlpha byte then p.stay
  else if byte = 58 then p.enter .reqSchemaSlash
  else .refused p

def reqHost (pointer : Nat) (byte : UInt8) (p : HttpParser) : HttpStep :=
  if isHostChar byte then p.stay
  else if byte = 58 then p.enter .reqPort
  else if byte = 47 then p.enter .reqPath
  else if byte = 32 then (p.callbackUrl pointer).enter .reqHttpStart
  else if byte = 63 then p.enter .reqQueryStringStart
  else .refused p

def reqPort (pointer : Nat) (byte : UInt8) (p : HttpParser) : HttpStep :=
  if isDigit byte then p.stay
  else if byte = 47 then p.enter .reqPath
  else if byte = 32 then (p.callbackUrl pointer).enter .reqHttpStart
  else if byte = 63 then p.enter .reqQueryStringStart
  else .refused p

/-- The end of a target, which is the end of the line in a request without a version; `other` is for the bytes that are
none of the ends. -/
def urlDone (pointer : Nat) (byte : UInt8) (other : HttpStep) (p : HttpParser) : HttpStep :=
  if byte = 32 then (p.callbackUrl pointer).enter .reqHttpStart
  else if byte = 13 then { p.callbackUrl pointer with httpMajor := 0, httpMinor := 9 }.enter .reqLineAlmostDone
  else if byte = 10 then { p.callbackUrl pointer with httpMajor := 0, httpMinor := 9 }.lineDone
  else other

def reqPath (pointer : Nat) (byte : UInt8) (p : HttpParser) : HttpStep :=
  if isUrlChar byte then p.stay
  else p.urlDone pointer byte
    (if byte = 63 then p.enter .reqQueryStringStart else if byte = 35 then p.enter .reqFragmentStart else .refused p)

def reqQueryStringStart (pointer : Nat) (byte : UInt8) (p : HttpParser) : HttpStep :=
  if isUrlChar byte then p.enter .reqQueryString
  else p.urlDone pointer byte
    (if byte = 63 then p.stay else if byte = 35 then p.enter .reqFragmentStart else .refused p)

def reqQueryString (pointer : Nat) (byte : UInt8) (p : HttpParser) : HttpStep :=
  if isUrlChar byte then p.stay
  else p.urlDone pointer byte
    (if byte = 63 then p.stay else if byte = 35 then p.enter .reqFragmentStart else .refused p)

def reqFragmentStart (pointer : Nat) (byte : UInt8) (p : HttpParser) : HttpStep :=
  if isUrlChar byte then p.enter .reqFragment
  else p.urlDone pointer byte
    (if byte = 63 then p.enter .reqFragment else if byte = 35 then p.stay else .refused p)

def reqFragment (pointer : Nat) (byte : UInt8) (p : HttpParser) : HttpStep :=
  if isUrlChar byte then p.stay
  else p.urlDone pointer byte (if byte = 63 ∨ byte = 35 then p.stay else .refused p)

def reqHttpStart (byte : UInt8) (p : HttpParser) : HttpStep :=
  if byte = 72 then p.enter .reqHttpH
  else if byte = 32 then p.stay
  else .refused p

def resHttpMinor (byte : UInt8) (p : HttpParser) : HttpStep :=
  if byte = 32 then p.enter .resFirstStatusCode else p.httpMinorDigit byte

def reqHttpMinor (byte : UInt8) (p : HttpParser) : HttpStep :=
  if byte = 13 then p.enter .reqLineAlmostDone
  else if byte = 10 then p.lineDone
  else p.httpMinorDigit byte

def reqLineAlmostDone (byte : UInt8) (p : HttpParser) : HttpStep := if byte ≠ 10 then .refused p else p.lineDone

/-! ## The end of the headers -/

/-- What follows the headers: another protocol, a new message or a body. -/
def bodyStart (p : HttpParser) : HttpStep :=
  if p.upgrade then .returned true (p.httpCallback .messageComplete)
  else if p.flags.skipbody then p.messageComplete.stay
  else if p.flags.chunked then p.enter .chunkSizeStart
  else if p.contentLength = 0 then p.messageComplete.stay
  else if p.contentLength > 0 then { p with savedContentLength := toSize p.contentLength }.enter .bodyIdentity
  else if p.type = .request ∨ p.httpShouldKeepAlive then p.messageComplete.stay
  else p.enter .bodyIdentityEof

def headersComplete (settings : HttpSettings) (p : HttpParser) : HttpStep :=
  let p := { p with
    readCount := 0
    upgrade := p.upgrade || p.flags.upgrade || p.method = httpConnect
    savedContentLength := if p.contentLength > 0 then toSize p.contentLength else 0 }.httpCallback .headersComplete
  match settings p.events with
  | .proceed => p.bodyStart
  | .skipbody => { p with flags := { p.flags with skipbody := true } }.bodyStart
  | .fail => .returned false p

def headersAlmostDone (settings : HttpSettings) (p : HttpParser) : HttpStep :=
  if p.flags.trailing then p.messageComplete.stay else p.headersComplete settings

/-! ## Headers -/

def headerFieldStart (settings : HttpSettings) (pointer : Nat) (byte : UInt8) (p : HttpParser) : HttpStep :=
  if byte = 13 then p.enter .headersAlmostDone
  else if byte = 10 then (p.goto .headersAlmostDone).headersAlmostDone settings
  else if token byte = 0 then .refused p
  else
    let headerState : HttpHeaderState :=
      if token byte = 99 then .c
      else if token byte = 112 then .matchingProxyConnection
      else if token byte = 116 then .matchingTransferEncoding
      else if token byte = 117 then .matchingUpgrade
      else .general
    { p with headerFieldMark := some pointer, index := 0, headerState }.enter .headerField

/-- A byte of a text that is being matched. -/
def matchText (text : Bytes) (found : HttpHeaderState) (byte : UInt8) (p : HttpParser) : HttpParser :=
  let p := { p with index := p.index + 1 }
  if p.index > text.length ∨ byte ≠ text.getD p.index 0 then p.gotoHeader .general
  else if p.index = text.length - 1 then p.gotoHeader found
  else p

/-- A byte of the name of a field. -/
def headerFieldToken (byte : UInt8) (p : HttpParser) : HttpParser :=
  match p.headerState with
  | .general => p
  | .c => { p with index := p.index + 1 }.gotoHeader (if token byte = 111 then .co else .general)
  | .co => { p with index := p.index + 1 }.gotoHeader (if token byte = 110 then .con else .general)
  | .con => { p with index := p.index + 1 }.gotoHeader
      (if token byte = 110 then .matchingConnection else if token byte = 116 then .matchingContentLength else .general)
  | .matchingConnection => p.matchText (bytes "connection") .connection (token byte)
  | .matchingProxyConnection => p.matchText (bytes "proxy-connection") .connection (token byte)
  | .matchingContentLength => p.matchText (bytes "content-length") .contentLength (token byte)
  | .matchingTransferEncoding => p.matchText (bytes "transfer-encoding") .transferEncoding (token byte)
  | .matchingUpgrade => p.matchText (bytes "upgrade") .upgrade (token byte)
  | .connection => if byte ≠ 32 then p.gotoHeader .general else p
  | .contentLength => if byte ≠ 32 then p.gotoHeader .general else p
  | .transferEncoding => if byte ≠ 32 then p.gotoHeader .general else p
  | .upgrade => if byte ≠ 32 then p.gotoHeader .general else p
  | _ => p.event (.failed .unknownHeaderState)

def headerField (pointer : Nat) (byte : UInt8) (p : HttpParser) : HttpStep :=
  if token byte ≠ 0 then (p.headerFieldToken byte).stay
  else if byte = 58 then (p.callbackHeaderField pointer).enter .headerValueStart
  else if byte = 13 then (p.goto .headerAlmostDone |>.callbackHeaderField pointer).stay
  else if byte = 10 then (p.callbackHeaderField pointer).enter .headerFieldStart
  else .refused p

/-- The first byte of the value of a field. -/
def headerValueFirst (byte : UInt8) (p : HttpParser) : HttpStep :=
  match p.headerState with
  | .upgrade => { p with flags := { p.flags with upgrade := true } }.gotoHeader .general |>.stay
  | .transferEncoding =>
      (p.gotoHeader (if lower byte = 99 then .matchingTransferEncodingChunked else .general)).stay
  | .contentLength => if !isDigit byte then .refused p else { p with contentLength := byte.toNat - 48 }.stay
  | .connection =>
      (p.gotoHeader
        (if lower byte = 107 then .matchingConnectionKeepAlive
        else if lower byte = 99 then .matchingConnectionClose
        else .general)).stay
  | _ => (p.gotoHeader .general).stay

def headerValueStart (pointer : Nat) (byte : UInt8) (p : HttpParser) : HttpStep :=
  if byte = 32 ∨ byte = 9 then p.stay
  else
    let p := { p with headerValueMark := some pointer, index := 0 }.goto .headerValue
    if byte = 13 then ((p.callbackHeaderValue pointer).gotoHeader .general).enter .headerAlmostDone
    else if byte = 10 then (p.callbackHeaderValue pointer).enter .headerFieldStart
    else p.headerValueFirst byte

/-- The end of a line of the headers, without a look at its byte. -/
def headerAlmostDone (p : HttpParser) : HttpStep :=
  let p := p.goto .headerValueLws
  match p.headerState with
  | .connectionKeepAlive => { p with flags := { p.flags with keepAlive := true } }.stay
  | .connectionClose => { p with flags := { p.flags with close := true } }.stay
  | .transferEncodingChunked => { p with flags := { p.flags with chunked := true } }.stay
  | _ => p.stay

/-- A byte of the value of a field behind the first one. -/
def headerValueToken (byte : UInt8) (p : HttpParser) : HttpStep :=
  match p.headerState with
  | .general => p.stay
  | .connection => (p.event (.failed .shouldNotGetHere)).stay
  | .transferEncoding => (p.event (.failed .shouldNotGetHere)).stay
  | .contentLength =>
      if byte = 32 then p.stay
      else if !isDigit byte then .refused p
      else { p with contentLength := addDigit 10 p.contentLength (byte.toNat - 48) }.stay
  | .matchingTransferEncodingChunked => (p.matchText (bytes "chunked") .transferEncodingChunked (lower byte)).stay
  | .matchingConnectionKeepAlive => (p.matchText (bytes "keep-alive") .connectionKeepAlive (lower byte)).stay
  | .matchingConnectionClose => (p.matchText (bytes "close") .connectionClose (lower byte)).stay
  | .transferEncodingChunked => (if byte ≠ 32 then p.gotoHeader .general else p).stay
  | .connectionKeepAlive => (if byte ≠ 32 then p.gotoHeader .general else p).stay
  | .connectionClose => (if byte ≠ 32 then p.gotoHeader .general else p).stay
  | _ => (p.gotoHeader .general).enter .headerValue

def headerValue (pointer : Nat) (byte : UInt8) (p : HttpParser) : HttpStep :=
  if byte = 13 then (p.callbackHeaderValue pointer).enter .headerAlmostDone
  else if byte = 10 then (p.callbackHeaderValue pointer).headerAlmostDone
  else p.headerValueToken byte

/-- A line that starts with a blank goes on with the value of the one before. -/
def headerValueLws (settings : HttpSettings) (pointer : Nat) (byte : UInt8) (p : HttpParser) : HttpStep :=
  if byte = 32 ∨ byte = 9 then p.enter .headerValueStart
  else (p.goto .headerFieldStart).headerFieldStart settings pointer byte

/-! ## Bodies -/

/-- The number of bytes that are given to the handler: as many as there are, or as are left of the body. -/
def toRead (available : Nat) (p : HttpParser) : Nat := toSize (min (available : Int) p.contentLength)

/-- Moves the pointer to the last of the bytes that have been given to the handler. -/
def moved (toRead available : Nat) (p : HttpParser) : HttpStep :=
  if toRead > available then .strayed p else .next (toRead - 1) p

def bodyIdentity (pointer available : Nat) (p : HttpParser) : HttpStep :=
  let toRead := p.toRead available
  if toRead > 0 then
    let p := { p.event (.body pointer toRead) with contentLength := toInt (p.contentLength - toRead) }
    (if p.contentLength = 0 then p.messageComplete else p).moved toRead available
  else p.stay

def bodyIdentityEof (pointer available : Nat) (p : HttpParser) : HttpStep :=
  (p.event (.body pointer available)).moved available available

def chunkSizeStart (byte : UInt8) (p : HttpParser) : HttpStep :=
  let p := (p.assert .readCount (p.readCount = 1)).assert .chunked p.flags.chunked
  if unhex byte = -1 then .refused p else { p with contentLength := unhex byte }.enter .chunkSize

def chunkSize (byte : UInt8) (p : HttpParser) : HttpStep :=
  let p := p.assert .chunked p.flags.chunked
  if byte = 13 then p.enter .chunkSizeAlmostDone
  else if unhex byte = -1 then if byte = 59 ∨ byte = 32 then p.enter .chunkParameters else .refused p
  else { p with contentLength := addDigit 16 p.contentLength (unhex byte) }.stay

def chunkParameters (byte : UInt8) (p : HttpParser) : HttpStep :=
  let p := p.assert .chunked p.flags.chunked
  if byte = 13 then p.enter .chunkSizeAlmostDone else p.stay

def chunkSizeAlmostDone (p : HttpParser) : HttpStep :=
  let p := { p.assert .chunked p.flags.chunked with readCount := 0 }
  if p.contentLength = 0 then
    ({ p with flags := { p.flags with trailing := true } }.httpCallback .line).enter .headerFieldStart
  else p.enter .chunkData

def chunkData (pointer available : Nat) (p : HttpParser) : HttpStep :=
  let p := p.assert .chunked p.flags.chunked
  let toRead := p.toRead available
  let contentLength := toInt (p.contentLength - toRead)
  let p := if toRead > 0 then p.event (.body pointer toRead) else p
  let p := if toRead = toSize p.contentLength then p.goto .chunkDataAlmostDone else p
  if toRead > 0 then { p with contentLength }.moved toRead available else { p with contentLength }.stay

def chunkDataAlmostDone (p : HttpParser) : HttpStep := (p.assert .chunked p.flags.chunked).enter .chunkDataDone

def chunkDataDone (p : HttpParser) : HttpStep := (p.assert .chunked p.flags.chunked).enter .chunkSizeStart

/-! ## Data -/

/-- Handles the byte at a pointer, behind which there are as many bytes as are `available` with it. -/
def processByte (settings : HttpSettings) (pointer available : Nat) (byte : UInt8) (p : HttpParser) : HttpStep :=
  match p.state with
  | .startReqOrRes => p.startReqOrRes byte
  | .resOrRespH => p.resOrRespH byte
  | .startRes => p.startRes byte
  | .resH => p.enter .resHt
  | .resHt => p.enter .resHtt
  | .resHtt => p.enter .resHttp
  | .resHttp => p.enter .resFirstHttpMajor
  | .resFirstHttpMajor => p.firstHttpMajor .resHttpMajor byte
  | .resHttpMajor => p.httpMajorDigit .resFirstHttpMinor byte
  | .resFirstHttpMinor => p.firstHttpMinor .resHttpMinor byte
  | .resHttpMinor => p.resHttpMinor byte
  | .resFirstStatusCode => p.resFirstStatusCode byte
  | .resStatusCode => p.resStatusCode byte
  | .resStatus => p.resStatus byte
  | .resLineAlmostDone => p.lineDone
  | .startReq => p.startReq byte
  | .reqMethod => p.reqMethod byte
  | .reqSpacesBeforeUrl => p.reqSpacesBeforeUrl pointer byte
  | .reqSchema => p.reqSchema byte
  | .reqSchemaSlash => p.enter .reqSchemaSlashSlash
  | .reqSchemaSlashSlash => p.enter .reqHost
  | .reqHost => p.reqHost pointer byte
  | .reqPort => p.reqPort pointer byte
  | .reqPath => p.reqPath pointer byte
  | .reqQueryStringStart => p.reqQueryStringStart pointer byte
  | .reqQueryString => p.reqQueryString pointer byte
  | .reqFragmentStart => p.reqFragmentStart pointer byte
  | .reqFragment => p.reqFragment pointer byte
  | .reqHttpStart => p.reqHttpStart byte
  | .reqHttpH => p.enter .reqHttpHt
  | .reqHttpHt => p.enter .reqHttpHtt
  | .reqHttpHtt => p.enter .reqHttpHttp
  | .reqHttpHttp => p.enter .reqFirstHttpMajor
  | .reqFirstHttpMajor => p.firstHttpMajor .reqHttpMajor byte
  | .reqHttpMajor => p.httpMajorDigit .reqFirstHttpMinor byte
  | .reqFirstHttpMinor => p.firstHttpMinor .reqHttpMinor byte
  | .reqHttpMinor => p.reqHttpMinor byte
  | .reqLineAlmostDone => p.reqLineAlmostDone byte
  | .headerFieldStart => p.headerFieldStart settings pointer byte
  | .headerField => p.headerField pointer byte
  | .headerValueStart => p.headerValueStart pointer byte
  | .headerValue => p.headerValue pointer byte
  | .headerAlmostDone => p.headerAlmostDone
  | .headerValueLws => p.headerValueLws settings pointer byte
  | .headersAlmostDone => p.headersAlmostDone settings
  | .bodyIdentity => p.bodyIdentity pointer available
  | .bodyIdentityEof => p.bodyIdentityEof pointer available
  | .chunkSizeStart => p.chunkSizeStart byte
  | .chunkSize => p.chunkSize byte
  | .chunkParameters => p.chunkParameters byte
  | .chunkSizeAlmostDone => p.chunkSizeAlmostDone
  | .chunkData => p.chunkData pointer available
  | .chunkDataAlmostDone => p.chunkDataAlmostDone
  | .chunkDataDone => p.chunkDataDone
  | .dead => .refused (p.event (.failed .unhandledState))

/-- A parser that leaves before the end of the data keeps what had been saved by the call before. -/
def leave (saved p : HttpParser) : HttpParser :=
  { p with
    state := saved.state
    headerState := saved.headerState
    index := saved.index
    readCount := saved.readCount
    headerFieldMark := saved.headerFieldMark
    headerValueMark := saved.headerValueMark
    urlMark := saved.urlMark }

/-- What a call gives: the number of bytes that have been processed, or an error. -/
inductive Processed where
  | processed (size : Nat) (p : HttpParser)
  | error (p : HttpParser)
  | strayed (p : HttpParser)
deriving DecidableEq, Repr

def Processed.parser : Processed → HttpParser
  | .processed _ p => p
  | .error p => p
  | .strayed p => p

/-- The data is over, or a message is. The state is saved; the index has a byte for it. -/
def finish (size : Nat) (p : HttpParser) : Processed :=
  let p := if p.state = .bodyIdentityEof then p.messageComplete else p
  .processed size { p with index := p.index % 256 }

/-- Handles the data from a position of it on, some of which are still to be skipped. -/
def processFrom (settings : HttpSettings) (saved : HttpParser) (data : Nat) :
    (position skip : Nat) → Bytes → HttpParser → Processed
  | position, _, [], p => p.finish position
  | position, skip + 1, _ :: rest, p => processFrom settings saved data (position + 1) skip rest p
  | position, 0, byte :: rest, p =>
      if p.parseCount > 0 then p.finish position
      else
        match p.processByte settings (data + position) (rest.length + 1) byte with
        | .next skip p => processFrom settings saved data (position + 1) skip rest p
        | .refused p => .error (leave saved p)
        | .returned behind p =>
            .processed (if behind then position + 1 else position)
              (if behind then leave saved p else { leave saved p with state := p.state })
        | .strayed p => .strayed p

/-- Handles the data of a read that is at an address. -/
def processData (settings : HttpSettings) (data : Nat) (bytes : Bytes) (p : HttpParser) : Processed :=
  if bytes = [] then
    match p.state with
    | .bodyIdentityEof => .processed 0 (p.httpCallback .messageComplete)
    | .dead => .processed 0 p
    | .startReqOrRes => .processed 0 p
    | .startRes => .processed 0 p
    | .startReq => .processed 0 p
    | _ => .processed 1 p
  else processFrom settings p data 0 0 bytes { p with parseCount := 0 }

/-- The parser of a connection is reset once it is at the start of a message. -/
def reset (p : HttpParser) : HttpParser :=
  if p.state = .startReq then { createHttpParser true with index := p.index, events := p.events } else p

/-- A connection hands data to its parser: what has arrived, or what a message has left of it. It is closed upon an
error. -/
def receive (settings : HttpSettings) (outcome : Processed) (read : Nat × Bytes) : Processed :=
  match outcome with
  | .processed _ p =>
      match p.processData settings read.1 read.2 with
      | .processed size p => .processed size p.reset
      | outcome => outcome
  | outcome => outcome

def receiveAll (settings : HttpSettings) (reads : List (Nat × Bytes)) : Processed :=
  reads.foldl (receive settings) (.processed 0 (createHttpParser true))

end HttpParser

end Viriatum
