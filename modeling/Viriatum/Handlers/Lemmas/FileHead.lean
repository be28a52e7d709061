import Viriatum.Handlers.FileResponse

/-!
# The heads of the handler of the files

The buffer has room for every head, and a client takes the size that is announced for the one of the body.
-/

namespace Viriatum

open Library Http2Connection

/-! ## Fields in the buffer -/

def fieldsSize (fields : List (Bytes × Bytes)) : Nat := (fields.map fun field => field.1.length + field.2.length + 4).sum

def fieldLines (fields : List (Bytes × Bytes)) : List Bytes := fields.map fun field => fieldLine field.1 field.2

theorem Carries.writeFields {size : Nat} {status : Bytes} {fields : List (Bytes × Bytes)} :
    ∀ {buffer : Bytes} {texts : List Bytes}, Carries buffer status texts →
      buffer.length + fieldsSize fields + 3 ≤ size →
      Carries (fields.foldl (fun buffer (name, value) => writeFieldHttp size buffer name value) buffer) status
          (texts ++ fieldLines fields) ∧
        (fields.foldl (fun buffer (name, value) => writeFieldHttp size buffer name value) buffer).length + 3 ≤ size := by
  induction fields with
  | nil =>
      intro buffer texts h hfits
      exact ⟨by simpa [fieldLines] using h, by simpa [fieldsSize] using hfits⟩
  | cons field fields ih =>
      intro buffer texts h hfits
      obtain ⟨name, value⟩ := field
      simp only [fieldsSize, List.map_cons, List.sum_cons] at hfits
      have hroom : buffer.length + (name.length + value.length + 5) ≤ size := by omega
      have hlength : (writeFieldHttp size buffer name value).length = buffer.length + (name.length + value.length + 4) := by
        rw [writeFieldHttp, if_neg (by omega), List.length_append, length_line, length_fieldLine]
      have hrest := ih (h.writeField hroom) (by rw [hlength, fieldsSize]; omega)
      simpa [fieldLines] using hrest

/-! ## Fields for a client -/

/-- A field that a client reads, and that tells nothing of the length. -/
structure Plain (field : Bytes × Bytes) : Prop where
  named : field.1 ≠ [] ∧ field.1.all isToken = true ∧ 58 ∉ field.1
  name : IsText field.1
  value : IsText field.2
  other : field.1.map lowerOctet ≠ contentLengthName ∧ field.1.map lowerOctet ≠ transferEncodingName

/-- A response that announces a size, with a head that the buffer has room for. -/
structure FileResponse.Sound (response : FileResponse) (size : Nat) : Prop where
  code : 200 ≤ response.statusCode ∧ response.statusCode < 600
  message : IsText response.statusMessage
  fields : ∃ others, response.fields = lengthField size :: others ∧ ∀ field ∈ others, Plain field
  fits : response.statusMessage.length + fieldsSize response.fields ≤ 2900

theorem mapM_plain {fields : List (Bytes × Bytes)} (h : ∀ field ∈ fields, Plain field) :
    ∃ read, (fieldLines fields).mapM readField = some read ∧ valuesOf contentLengthName read = [] ∧
      valuesOf transferEncodingName read = [] := by
  induction fields with
  | nil => exact ⟨[], rfl, rfl, rfl⟩
  | cons field fields ih =>
      obtain ⟨read, hread, hlength, hcoding⟩ := ih fun field' hmem => h field' (List.mem_cons_of_mem _ hmem)
      obtain ⟨hnamed, -, -, hother⟩ := h field List.mem_cons_self
      refine ⟨⟨field.1.map lowerOctet, trim (32 :: field.2)⟩ :: read, ?_, ?_, ?_⟩
      · have hline : readField (fieldLine field.1 field.2) = some ⟨field.1.map lowerOctet, trim (32 :: field.2)⟩ :=
          readField_fieldLine hnamed.1 hnamed.2.1 hnamed.2.2
        simp [fieldLines, hline] at hread ⊢
        simp [hread]
      · simpa [valuesOf, hother.1] using hlength
      · simpa [valuesOf, hother.2] using hcoding

section Head

variable (service : FileService) (keepAlive : Bool) {response : FileResponse} {size : Nat}

def fileLines (service : FileService) (keepAlive : Bool) (response : FileResponse) : List Bytes :=
  [connectionLine keepAlive, serverLine service.description] ++ fieldLines response.fields

theorem headHandlerFile_eq (h : response.Sound size) :
    headHandlerFile service keepAlive response =
      writtenHead (statusLine .http11 response.statusCode response.statusMessage)
        (fileLines service keepAlive response) := by
  have hcode : 100 ≤ response.statusCode ∧ response.statusCode < 1000 := by
    have := h.code
    omega
  have hstatus := length_writeStatusHttp service.description .http11 hcode.1 hcode.2 response.statusMessage keepAlive
  have hcarries := carries_writeStatusHttp service.description .http11 response.statusCode response.statusMessage keepAlive
  have hsize : httpSize = 4096 := rfl
  have hfits := h.fits
  have hroom : (writeStatusHttp service.description .http11 response.statusCode response.statusMessage keepAlive).length +
      fieldsSize response.fields + 3 ≤ httpSize := by omega
  obtain ⟨hall, hend⟩ := hcarries.writeFields hroom
  exact hall.writeEnd hend

theorem fileLines_isText (h : response.Sound size) :
    ∀ text ∈ fileLines service keepAlive response, IsText text ∧ text ≠ [] := by
  intro text hmem
  obtain ⟨others, hfields, hplain⟩ := h.fields
  rw [fileLines, hfields, List.mem_append] at hmem
  rcases hmem with hmem | hmem
  · simp only [List.mem_cons, List.not_mem_nil, or_false] at hmem
    rcases hmem with rfl | rfl
    · exact ⟨isText_connectionLine keepAlive, fieldLine_ne_nil _ _⟩
    · exact ⟨isText_serverLine service.description, fieldLine_ne_nil _ _⟩
  · simp only [fieldLines, List.map_cons, List.mem_cons, List.mem_map] at hmem
    rcases hmem with rfl | ⟨field, hfield, rfl⟩
    · have hname : IsText (bytes "Content-Length") := by decide
      exact ⟨isText_fieldLine hname (isText_numeral_ten size), fieldLine_ne_nil _ _⟩
    · have hfield' := hplain field hfield
      exact ⟨isText_fieldLine hfield'.name hfield'.value, fieldLine_ne_nil _ _⟩

/-- A client takes what is behind the head for the body exactly where it has the size that is announced, or is nothing
where there is to be no body. -/
theorem answers_file (h : response.Sound size) (method : Nat) (payload : Bytes) :
    Answers (bodiless method) (headHandlerFile service keepAlive response ++ payload) ↔
      if bodiless method response.statusCode then payload = [] else payload.length = size := by
  obtain ⟨others, hfields, hplain⟩ := h.fields
  obtain ⟨read, hread, hlength, hcoding⟩ := mapM_plain hplain
  obtain ⟨value, hvalue⟩ := readField_connection keepAlive
  obtain ⟨value', hvalue'⟩ := readField_server service.description
  have hcode : readStatus (statusLine .http11 response.statusCode response.statusMessage) = some response.statusCode :=
    readStatus_statusLine (by decide) (by have := h.code; omega) (by have := h.code; omega) _
  have hframing : framing (⟨bytes "connection", value⟩ :: ⟨bytes "server", value'⟩ ::
      ⟨contentLengthName, numeral 10 size⟩ :: read) = .length size := by
    have hnumeral : readNumeral 10 (numeral 10 size) = some size := readNumeral_numeral (by decide) (by decide) size
    have hcodings : valuesOf transferEncodingName (⟨bytes "connection", value⟩ :: ⟨bytes "server", value'⟩ ::
        ⟨contentLengthName, numeral 10 size⟩ :: read) = [] := by
      simpa [valuesOf, bytes, transferEncodingName, contentLengthName] using hcoding
    have hlengths : valuesOf contentLengthName (⟨bytes "connection", value⟩ :: ⟨bytes "server", value'⟩ ::
        ⟨contentLengthName, numeral 10 size⟩ :: read) = [numeral 10 size] := by
      simpa [valuesOf, bytes, contentLengthName] using hlength
    rw [framing, hcodings, hlengths]
    simp [hnumeral]
  have hlines : (fileLines service keepAlive response).mapM readField = some (⟨bytes "connection", value⟩ ::
      ⟨bytes "server", value'⟩ :: ⟨contentLengthName, numeral 10 size⟩ :: read) := by
    rw [fieldLines] at hread
    simp [fileLines, fieldLines, hfields, lengthField, hvalue, hvalue', readField_contentLength, hread]
  rw [headHandlerFile_eq service keepAlive h, answers_writtenHead (isText_statusLine _ _ h.message)
    (fileLines_isText service keepAlive h), hcode, hlines]
  have hfills : Fills payload (if bodiless method response.statusCode then .none else .length size) ↔
      if bodiless method response.statusCode then payload = [] else payload.length = size := by
    cases bodiless method response.statusCode with
    | true => exact fills_none
    | false => exact fills_length
  rw [← hfills, ← hframing]
  constructor
  · rintro ⟨code, fields, hcode', hfields', -, hfill⟩
    cases hcode'
    cases hfields'
    exact hfill
  · intro hfill
    exact ⟨_, _, rfl, rfl, h.code.1, hfill⟩

end Head

/-! ## Every response is sound -/

theorem length_numeral_lt {number places : Nat} (hplaces : 0 < places) (h : number < 10 ^ places) :
    (numeral 10 number).length ≤ places := by
  rw [numeral]
  by_cases hzero : number = 0
  · rw [if_pos hzero]
    exact hplaces
  · rw [if_neg hzero, List.length_map, List.length_reverse]
    exact (Nat.digits_length_le_iff (by decide) number).mpr h

theorem length_numeral_size {size : Nat} (h : size < 2 ^ 64) : (numeral 10 size).length ≤ 20 :=
  length_numeral_lt (by decide) (by omega)

theorem plain_cacheField : Plain cacheField := by
  refine ⟨?_, ?_, ?_, ?_⟩ <;> simp [cacheField, bytes, IsText, isToken, lowerOctet, contentLengthName, transferEncodingName]

theorem isText_quoted {text : Bytes} (h : IsText text) : IsText (bytes "Basic realm=\"" ++ text ++ bytes "\"") := by
  rw [isText_append, isText_append]
  exact ⟨⟨by decide, h⟩, by decide⟩

theorem plain_authenticateField (realm : FieldText) : Plain (authenticateField realm) := by
  refine ⟨?_, ?_, isText_quoted realm.isText, ?_⟩ <;>
    simp [authenticateField, bytes, IsText, isToken, lowerOctet, contentLengthName, transferEncodingName]

theorem isText_etagValue (checksum : Nat) : IsText (etagValue checksum) := by
  have hdigits : ∀ octet ∈ (List.range 8).map fun place => digitOctet (checksum / 16 ^ (7 - place) % 16), 48 ≤ octet := by
    intro octet hmem
    obtain ⟨place, -, rfl⟩ := List.mem_map.mp hmem
    exact digitOctet_range (Nat.mod_lt _ (by decide))
  rw [etagValue, List.cons_append, isText_cons, isText_append]
  refine ⟨by decide, ⟨fun hmem => ?_, fun hmem => ?_⟩, by decide⟩
  · exact absurd (hdigits 13 hmem) (by decide)
  · exact absurd (hdigits 10 hmem) (by decide)

theorem length_etagValue (checksum : Nat) : (etagValue checksum).length = 10 := by simp [etagValue]

theorem isText_rangeValue (initialByte finalByte size : Nat) : IsText (rangeValue initialByte finalByte size) := by
  simp only [rangeValue, isText_append]
  exact ⟨⟨⟨⟨⟨by decide, isText_numeral_ten _⟩, by decide⟩, isText_numeral_ten _⟩, by decide⟩, isText_numeral_ten _⟩

theorem toLongLong_lt {value : Nat} (h : value < 2 ^ 64) : toLongLong value < 2 ^ 63 := by
  rw [toLongLong]
  split <;> omega

theorem lastByte_lt (size : Nat) : lastByte size < 2 ^ 64 := Nat.mod_lt _ (by omega)

theorem rangeStep_lt {range : Bytes} {size : Nat} {s : RangeState} {item : UInt8 × Nat}
    (h : s.initialByte < 2 ^ 63 ∧ s.finalByte < 2 ^ 63) :
    (rangeStep range size s item).initialByte < 2 ^ 63 ∧ (rangeStep range size s item).finalByte < 2 ^ 63 := by
  have hnumber : toLongLong (strtoull (range.drop s.mark)) < 2 ^ 63 := toLongLong_lt (strtoull_lt _)
  have hlast : toLongLong (lastByte size) < 2 ^ 63 := toLongLong_lt (lastByte_lt size)
  obtain ⟨byte, index⟩ := item
  rw [rangeStep]
  split
  · exact h
  · split
    · refine ⟨?_, h.2⟩
      dsimp only
      split
      · omega
      · exact hnumber
    · split
      · split
        · refine ⟨h.1, ?_⟩
          dsimp only
          exact hlast
        · exact ⟨hnumber, h.2⟩
      · exact h

theorem rangeFold_lt {range : Bytes} {size : Nat} (items : List (UInt8 × Nat)) {s : RangeState}
    (h : s.initialByte < 2 ^ 63 ∧ s.finalByte < 2 ^ 63) :
    (items.foldl (rangeStep range size) s).initialByte < 2 ^ 63 ∧
      (items.foldl (rangeStep range size) s).finalByte < 2 ^ 63 := by
  induction items generalizing s with
  | nil => exact h
  | cons item items ih => exact ih (rangeStep_lt h)

/-- The limits of a range are numbers of the platform. -/
theorem getHttpRangeLimits_lt (range : Bytes) (size : Nat) :
    (getHttpRangeLimits range size).1 < 2 ^ 63 ∧ (getHttpRangeLimits range size).2 < 2 ^ 63 := by
  have hfresh : (-1 : Int) < 2 ^ 63 ∧ (-1 : Int) < 2 ^ 63 := ⟨by omega, by omega⟩
  have hfold : (range.zipIdx.foldl (rangeStep range size) {}).initialByte < 2 ^ 63 ∧
      (range.zipIdx.foldl (rangeStep range size) {}).finalByte < 2 ^ 63 := rangeFold_lt range.zipIdx hfresh
  obtain ⟨hinitial, hfinal⟩ := hfold
  have hnumber : ∀ mark, toLongLong (strtoull (range.drop mark)) < 2 ^ 63 := fun mark => toLongLong_lt (strtoull_lt _)
  have hlast : toLongLong (lastByte size) < 2 ^ 63 := toLongLong_lt (lastByte_lt size)
  rw [getHttpRangeLimits]
  refine ⟨by dsimp only; omega, ?_⟩
  dsimp only
  split
  · split
    · omega
    · have := hnumber (range.zipIdx.foldl (rangeStep range size) {}).mark
      omega
  · omega

theorem spanSize_lt (initialByte finalByte : Nat) : spanSize initialByte finalByte < 2 ^ 64 := Nat.mod_lt _ (by omega)

/-- A response is sound if its fields are plain ones behind the size, and bounded. -/
theorem sound_of_fields {response : FileResponse} {size : Nat} {others : List (Bytes × Bytes)}
    (hcode : 200 ≤ response.statusCode ∧ response.statusCode < 600) (hmessage : IsText response.statusMessage)
    (hshort : response.statusMessage.length < 64) (hfields : response.fields = lengthField size :: others)
    (hsize : size < 2 ^ 64) (hplain : ∀ field ∈ others, Plain field) (hothers : fieldsSize others ≤ 2700) :
    response.Sound size := by
  have hnumeral := length_numeral_size hsize
  have hname : (lengthField size).1.length = 14 ∧ (lengthField size).2 = numeral 10 size :=
    ⟨by simp [lengthField, bytes], rfl⟩
  refine ⟨hcode, hmessage, ⟨others, hfields, hplain⟩, ?_⟩
  rw [hfields]
  rw [fieldsSize] at hothers ⊢
  rw [List.map_cons, List.sum_cons, hname.1, hname.2]
  omega

theorem errorText_fits (service : FileService) {errorCode : Nat} (hcode : errorCode < 600) {errorMessage : Bytes}
    (hshort : errorMessage.length < 64) : (errorText service errorCode errorMessage).length < 2 ^ 64 := by
  have hnumeral : (numeral 10 errorCode).length ≤ 3 := length_numeral_lt (by decide) (by omega)
  have hdescription := service.description.fits
  simp [errorText, bytes]
  omega

theorem plain_realm (realm : Option FieldText) :
    (∀ field ∈ cacheField :: (realm.map authenticateField).toList, Plain field) ∧
      fieldsSize (cacheField :: (realm.map authenticateField).toList) ≤ 2700 := by
  cases realm with
  | none => exact ⟨by simp [plain_cacheField], by simp [fieldsSize, cacheField, bytes]⟩
  | some realm =>
      have hfits := realm.fits
      refine ⟨by simp [plain_cacheField, plain_authenticateField], ?_⟩
      simp [fieldsSize, cacheField, authenticateField, bytes]
      omega

theorem writeHttpErrorA_sound (service : FileService) {errorCode : Nat} (hcode : 200 ≤ errorCode ∧ errorCode < 600)
    {errorMessage : Bytes} (hmessage : IsText errorMessage) (hshort : errorMessage.length < 64)
    (realm : Option FieldText) :
    (writeHttpErrorA service errorCode errorMessage realm).Sound
      (writeHttpErrorA service errorCode errorMessage realm).size := by
  have htext := errorText_fits service hcode.2 hshort
  have hpage := (service.template errorCode errorMessage).fits
  rw [writeHttpErrorA]
  cases service.useTemplate with
  | false =>
      obtain ⟨hplain, hfits⟩ := plain_realm realm
      exact sound_of_fields hcode hmessage hshort rfl htext hplain hfits
  | true =>
      by_cases hnone : (service.template errorCode errorMessage).data = []
      · obtain ⟨hplain, hfits⟩ := plain_realm none
        simp only [hnone, if_true]
        exact sound_of_fields hcode hmessage hshort rfl htext hplain hfits
      · obtain ⟨hplain, hfits⟩ := plain_realm realm
        simp only [hnone, if_true, if_false]
        exact sound_of_fields hcode hmessage hshort rfl hpage hplain hfits

theorem plain_of_text {name value : Bytes} (hname : name ∈ [bytes "Content-Range", bytes "Content-Type",
    bytes "Accept-Ranges", bytes "ETag", bytes "Location"]) (hvalue : IsText value) : Plain (name, value) := by
  simp only [List.mem_cons, List.not_mem_nil, or_false] at hname
  rcases hname with rfl | rfl | rfl | rfl | rfl <;> refine ⟨?_, ?_, hvalue, ?_⟩ <;>
    simp [bytes, IsText, isToken, lowerOctet, contentLengthName, transferEncodingName]

def typeFields (mimeType : Option FieldText) : List (Bytes × Bytes) :=
  (mimeType.map fun mimeType => (bytes "Content-Type", mimeType.text)).toList

theorem plain_typeFields (mimeType : Option FieldText) :
    (∀ field ∈ typeFields mimeType, Plain field) ∧ fieldsSize (typeFields mimeType) ≤ 1100 := by
  cases mimeType with
  | none => exact ⟨by simp [typeFields], by simp [fieldsSize, typeFields]⟩
  | some mimeType =>
      have hfits := mimeType.fits
      have hplain : Plain (bytes "Content-Type", mimeType.text) := plain_of_text (by simp) mimeType.isText
      refine ⟨by simpa [typeFields] using hplain, ?_⟩
      simp [fieldsSize, typeFields, bytes]
      omega

theorem fileResponse_sound (service : FileService) (filePathD : Bytes) (entry : FileEntry) :
    (fileResponse service filePathD entry).Sound (fileResponse service filePathD entry).size := by
  have hfits := entry.fits
  have hsize : (fileResponse service filePathD entry).size = entry.size := by
    simp only [FileResponse.size, fileResponse, spanSize, lastByte]
    omega
  have hfields : (fileResponse service filePathD entry).fields = lengthField entry.size :: ([cacheField] ++
      (typeFields (service.mimeType (extensionPath filePathD)) ++
        [(bytes "Accept-Ranges", bytes "bytes"), (bytes "ETag", etagValue entry.checksum)])) := by
    simp [fileResponse, typeFields]
  have hetag : Plain (bytes "ETag", etagValue entry.checksum) := plain_of_text (by simp) (isText_etagValue entry.checksum)
  have hranges : Plain (bytes "Accept-Ranges", bytes "bytes") := plain_of_text (by simp) (by decide)
  have hlength := length_etagValue entry.checksum
  obtain ⟨hplain, htypes⟩ := plain_typeFields (service.mimeType (extensionPath filePathD))
  rw [hsize]
  refine sound_of_fields ⟨by simp [fileResponse], by simp [fileResponse]⟩ (by decide : IsText (bytes "OK"))
    (by simp [fileResponse, bytes]) hfields (by omega) ?_ ?_
  · intro field hmem
    simp only [List.mem_append, List.mem_cons, List.not_mem_nil, or_false] at hmem
    rcases hmem with rfl | hmem | rfl | rfl
    · exact plain_cacheField
    · exact hplain field hmem
    · exact hranges
    · exact hetag
  · have hconstant : cacheField.1.length + cacheField.2.length + (bytes "Accept-Ranges").length + (bytes "bytes").length +
        (bytes "ETag").length ≤ 100 := by simp [cacheField, bytes]
    rw [fieldsSize] at htypes ⊢
    simp only [List.map_append, List.sum_append, List.map_cons, List.map_nil, List.sum_cons, List.sum_nil, hlength]
    omega

theorem rangeResponse_sound (range : Bytes) (entry : FileEntry) :
    (rangeResponse range entry).Sound (rangeResponse range entry).size := by
  obtain ⟨hinitial, hfinal⟩ := getHttpRangeLimits_lt range entry.size
  have hentry := entry.fits
  rw [rangeResponse]
  generalize getHttpRangeLimits range entry.size = limits at hinitial hfinal ⊢
  obtain ⟨initialByte, finalByte⟩ := limits
  have hnumerals : (numeral 10 initialByte).length ≤ 20 ∧ (numeral 10 finalByte).length ≤ 20 ∧
      (numeral 10 entry.size).length ≤ 20 :=
    ⟨length_numeral_size (by omega), length_numeral_size (by omega), length_numeral_size (by omega)⟩
  refine sound_of_fields ⟨by simp, by simp⟩ (by decide : IsText (bytes "Partial content")) (by simp [bytes]) rfl
    (spanSize_lt _ _) ?_ ?_
  · intro field hmem
    simp only [List.mem_cons, List.not_mem_nil, or_false] at hmem
    rcases hmem with rfl | rfl
    · exact plain_cacheField
    · exact plain_of_text (by simp) (isText_rangeValue _ _ _)
  · simp [fieldsSize, cacheField, rangeValue, bytes]
    omega

theorem redirectResponse_sound (url : FieldText) :
    (redirectResponse url.text).Sound (redirectResponse url.text).size := by
  have hurl := url.fits
  have hlocation : IsText (url.text ++ [47]) := isText_append.mpr ⟨url.isText, by decide⟩
  have hfields : (redirectResponse url.text).fields =
      lengthField (redirectResponse url.text).size :: [(bytes "Location", url.text ++ [47])] := by
    simp [redirectResponse, lengthField, FileResponse.size, numeral, bytes]
  refine sound_of_fields ⟨by simp [redirectResponse], by simp [redirectResponse]⟩
    (by decide : IsText (bytes "Temporary Redirect")) (by simp [redirectResponse, bytes]) hfields
    (by simp [FileResponse.size, redirectResponse]) ?_ ?_
  · intro field hmem
    rw [List.mem_singleton] at hmem
    rw [hmem]
    exact plain_of_text (by simp) hlocation
  · simp [fieldsSize, bytes]
    omega

theorem listingResponse_sound (listing : Page) :
    (listingResponse listing.data).Sound (listingResponse listing.data).size := by
  refine sound_of_fields ⟨by simp [listingResponse], by simp [listingResponse]⟩ (by decide : IsText (bytes "OK"))
    (by simp [listingResponse, bytes]) rfl listing.fits ?_ ?_
  · simp [plain_cacheField]
  · simp [fieldsSize, cacheField, bytes]

theorem notModifiedResponse_sound : notModifiedResponse.Sound notModifiedResponse.size := by
  refine sound_of_fields ⟨by simp [notModifiedResponse], by simp [notModifiedResponse]⟩
    (by decide : IsText (bytes "Not Modified")) (by simp [notModifiedResponse, bytes]) rfl
    (by simp [FileResponse.size, notModifiedResponse]) ?_ ?_
  · simp [plain_cacheField]
  · simp [fieldsSize, cacheField, bytes]

/-- Every response of the handler announces the size of what is sent behind its head. -/
theorem messageComplete_sound (service : FileService) (request : FileRequest) (sight : Sight) :
    (messageCompleteHandlerFile service request sight).Sound
      (messageCompleteHandlerFile service request sight).size := by
  rw [messageCompleteHandlerFile]
  split
  · exact writeHttpErrorA_sound service (by decide) (by decide) (by simp [bytes]) none
  · split
    · exact writeHttpErrorA_sound service (by decide) (by decide) (by simp [bytes]) request.authBasic
    · split
      · exact redirectResponse_sound request.url
      · cases sight.opened with
        | error error => exact listingResponse_sound sight.listing
        | ok entry =>
            dsimp only
            split
            · exact notModifiedResponse_sound
            · cases request.range with
              | none => exact fileResponse_sound service request.filePathD entry
              | some range => exact rangeResponse_sound range entry

end Viriatum
