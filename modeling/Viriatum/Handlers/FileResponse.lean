import Viriatum.Commons.Integers
import Viriatum.Http.Writer

/-!
# The response of the handler of the files

What the handler of the files answers a request with, out of what it finds at the path of the request and of the result
of the authentication: an error, a refusal, a redirection, a listing, a response that nothing has been modified, a part of
a file, or a file.
-/

namespace Viriatum

open Library Http2Connection

/-- A text that is written as the value of a field; it is kept in a buffer of the service or of the request. -/
structure FieldText where
  text : Bytes
  isText : IsText text
  fits : text.length < 1024

/-- The text of a page, which the template engine holds in memory. -/
structure Page where
  data : Bytes
  fits : data.length < 2 ^ 64

/-- What the responses of the handler take from the service. The template gives the page of an error, which is empty
where there is none. -/
structure FileService where
  description : Description
  useTemplate : Bool
  template : Nat → Bytes → Page
  mimeType : Bytes → Option FieldText

/-- A request as the callbacks have left it in the context, with the realm of its location. -/
structure FileRequest where
  method : Nat
  keepAlive : Bool
  url : FieldText
  filePathD : Bytes
  authBasic : Option FieldText
  etag : Option Bytes
  range : Option Bytes

/-- What the cache of the files knows of an open file: its size, and the checksum of the time of the last write. -/
structure FileEntry where
  size : Nat
  checksum : Nat
  fits : size < 2 ^ 63

inductive OpenError where
  | isDirectory
  | missing
  | other
deriving DecidableEq, Repr

/-- What is there at the path of a request when it is complete: the file, or the reason that it does not open for and
whether the path is described as a directory, the page of the listing, and the result of the authentication. -/
structure Sight where
  opened : Except OpenError FileEntry
  described : Bool
  listing : Page
  granted : Bool

def Sight.isDirectory (sight : Sight) : Bool :=
  match sight.opened with
  | .ok _ => false
  | .error .isDirectory => true
  | .error .missing => false
  | .error .other => sight.described

/-- The error of the opening, which one of a directory leaves behind. -/
def Sight.failed (sight : Sight) : Bool :=
  match sight.opened with
  | .ok _ => false
  | .error _ => !sight.isDirectory

def FileRequest.isRedirect (request : FileRequest) : Bool := request.url.text.getLast? ≠ some 47

/-! ## Ranges -/

structure RangeState where
  mark : Nat := 0
  initialByte : Int := -1
  finalByte : Int := -1
deriving DecidableEq, Repr

/-- The last byte of a file. -/
def lastByte (size : Nat) : Nat := (size + (2 ^ 64 - 1)) % 2 ^ 64

def rangeStep (range : Bytes) (size : Nat) (s : RangeState) (item : UInt8 × Nat) : RangeState :=
  let (byte, index) := item
  if byte = 61 then { s with mark := index + 1 }
  else if byte = 45 then
    { s with initialByte := if index = 0 then 0 else toLongLong (strtoull (range.drop s.mark)), mark := index + 1 }
  else if byte = 44 then
    if index = s.mark then { s with finalByte := toLongLong (lastByte size) }
    else { s with initialByte := toLongLong (strtoull (range.drop s.mark)) }
  else s

/-- The limits of a range, which are not held against the size of the file. -/
def getHttpRangeLimits (range : Bytes) (size : Nat) : Nat × Nat :=
  let s := range.zipIdx.foldl (rangeStep range size) {}
  let finalByte :=
    if s.finalByte = -1 then
      if range.length = s.mark then toLongLong (lastByte size) else toLongLong (strtoull (range.drop s.mark))
    else s.finalByte
  (s.initialByte.toNat, finalByte.toNat)

/-- The number of bytes from one position to another, which is included. -/
def spanSize (initialByte finalByte : Nat) : Nat := (finalByte + 1 + (2 ^ 64 - initialByte)) % 2 ^ 64

/-! ## Responses -/

inductive FilePayload where
  | none
  | text (data : Bytes)
  | span (initialByte finalByte : Nat)
deriving DecidableEq, Repr

/-- A response: its status, its fields in order, and what is sent behind the head. -/
structure FileResponse where
  statusCode : Nat
  statusMessage : Bytes
  fields : List (Bytes × Bytes)
  payload : FilePayload
deriving DecidableEq, Repr

def lengthField (size : Nat) : Bytes × Bytes := (bytes "Content-Length", numeral 10 size)

def cacheField : Bytes × Bytes := (bytes "Cache-Control", bytes "no-cache, must-revalidate")

def errorText (service : FileService) (errorCode : Nat) (errorMessage : Bytes) : Bytes :=
  numeral 10 errorCode ++ bytes " - " ++ errorMessage ++ bytes " - " ++ service.description.text

def authenticateField (realm : FieldText) : Bytes × Bytes :=
  (bytes "WWW-Authenticate", bytes "Basic realm=\"" ++ realm.text ++ bytes "\"")

/-- A response with an error. The text that a template falls back to goes without the realm. -/
def writeHttpErrorA (service : FileService) (errorCode : Nat) (errorMessage : Bytes) (realm : Option FieldText) :
    FileResponse :=
  let (page, realm) :=
    if service.useTemplate then
      let page := (service.template errorCode errorMessage).data
      if page = [] then (errorText service errorCode errorMessage, none) else (page, realm)
    else (errorText service errorCode errorMessage, realm)
  { statusCode := errorCode
    statusMessage := errorMessage
    fields := [lengthField page.length, cacheField] ++ (realm.map authenticateField).toList
    payload := .text page }

def notFoundResponse (service : FileService) : FileResponse := writeHttpErrorA service 404 (bytes "Not Found") none

def etagValue (checksum : Nat) : Bytes :=
  34 :: (List.range 8).map (fun place => digitOctet (checksum / 16 ^ (7 - place) % 16)) ++ [34]

def rangeValue (initialByte finalByte size : Nat) : Bytes :=
  bytes "bytes " ++ numeral 10 initialByte ++ bytes "-" ++ numeral 10 finalByte ++ bytes "/" ++ numeral 10 size

/-- The part of a path from its last dot on, or all of it. -/
def extensionPath (path : Bytes) : Bytes :=
  if 46 ∈ path then 46 :: (path.reverse.takeWhile (· ≠ 46)).reverse else path

def notModifiedResponse : FileResponse :=
  { statusCode := 304, statusMessage := bytes "Not Modified", fields := [lengthField 0, cacheField], payload := .none }

def rangeResponse (range : Bytes) (entry : FileEntry) : FileResponse :=
  let (initialByte, finalByte) := getHttpRangeLimits range entry.size
  { statusCode := 206
    statusMessage := bytes "Partial content"
    fields := [lengthField (spanSize initialByte finalByte), cacheField,
      (bytes "Content-Range", rangeValue initialByte finalByte entry.size)]
    payload := .span initialByte finalByte }

def fileResponse (service : FileService) (filePathD : Bytes) (entry : FileEntry) : FileResponse :=
  { statusCode := 200
    statusMessage := bytes "OK"
    fields := [lengthField entry.size, cacheField] ++
      ((service.mimeType (extensionPath filePathD)).map fun mimeType => (bytes "Content-Type", mimeType.text)).toList ++
      [(bytes "Accept-Ranges", bytes "bytes"), (bytes "ETag", etagValue entry.checksum)]
    payload := .span 0 (lastByte entry.size) }

def redirectResponse (url : Bytes) : FileResponse :=
  { statusCode := 307
    statusMessage := bytes "Temporary Redirect"
    fields := [(bytes "Content-Length", bytes "0"), (bytes "Location", url ++ [47])]
    payload := .none }

def listingResponse (listing : Bytes) : FileResponse :=
  { statusCode := 200
    statusMessage := bytes "OK"
    fields := [lengthField listing.length, cacheField]
    payload := .text listing }

/-- The response to a request that is complete. -/
def messageCompleteHandlerFile (service : FileService) (request : FileRequest) (sight : Sight) : FileResponse :=
  if sight.failed then notFoundResponse service
  else if !sight.granted then writeHttpErrorA service 401 (bytes "Unauthorized") request.authBasic
  else if sight.isDirectory && request.isRedirect then redirectResponse request.url.text
  else
    match sight.opened with
    | .error _ => listingResponse sight.listing.data
    | .ok entry =>
        if request.etag = some (etagValue entry.checksum) then notModifiedResponse
        else
          match request.range with
          | some range => rangeResponse range entry
          | none => fileResponse service request.filePathD entry

/-- The size of what is sent behind the head, as it is announced. -/
def FileResponse.size (response : FileResponse) : Nat :=
  match response.payload with
  | .none => 0
  | .text data => data.length
  | .span initialByte finalByte => spanSize initialByte finalByte

/-- The head of a response, in the buffer of the handler. -/
def headHandlerFile (service : FileService) (keepAlive : Bool) (response : FileResponse) : Bytes :=
  let buffer := writeStatusHttp service.description .http11 response.statusCode response.statusMessage keepAlive
  let buffer := response.fields.foldl (fun buffer (name, value) => writeFieldHttp httpSize buffer name value) buffer
  writeEndHttp httpSize buffer

end Viriatum
