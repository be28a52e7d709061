import Mathlib.Data.List.Nodup
import Viriatum.Library.Octets
import Viriatum.Stream.Lemmas.Intake

/-!
# The fields that a request may carry

The fields of a block that the intake of a message accepts, and what it makes of them.
-/

namespace Viriatum

open Library

/-! ## Well formed fields -/

/-- The bytes of a token. -/
def tokenByte (b : UInt8) : Bool :=
  (0x30 ≤ b ∧ b ≤ 0x39) ∨ (0x41 ≤ b ∧ b ≤ 0x5a) ∨ (0x61 ≤ b ∧ b ≤ 0x7a) ∨ b ∈ bytes "!#$%&'*+-.^_`|~"

def upperByte (b : UInt8) : Bool := 0x41 ≤ b ∧ b ≤ 0x5a

/-- Some bytes that neither end a line nor a string. -/
def Clean (data : Bytes) : Prop := ∀ b ∈ data, b ≠ 0x0d ∧ b ≠ 0x0a ∧ b ≠ 0

instance (data : Bytes) : Decidable (Clean data) := inferInstanceAs (Decidable (∀ b ∈ data, _))

def pseudoNames : List Bytes := [":method", ":scheme", ":path", ":authority"].map bytes

/-- The pseudo headers that a request does not come without. -/
def requiredNames : List Bytes := [":method", ":scheme", ":path"].map bytes

def connectionNames : List Bytes := ["connection", "keep-alive", "upgrade", "transfer-encoding"].map bytes

namespace HpackHeader

/-- Whether a field is a pseudo header. -/
def pseudo (field : HpackHeader) : Bool := field.name.head? = some 0x3a

/-- A pseudo header of a request with a value that it may have. -/
def PseudoForm (field : HpackHeader) : Prop :=
  field.name ∈ pseudoNames ∧
    (field.name = bytes ":method" → field.value ∈ httpMethodStrings) ∧
    (field.name = bytes ":scheme" → field.value = bytes "http" ∨ field.value = bytes "https") ∧
    (field.name = bytes ":path" → field.value ≠ []) ∧
    (field.name = bytes ":authority" → field.value.length < viriatumMaxPathSize)

instance (field : HpackHeader) : Decidable field.PseudoForm := inferInstanceAs (Decidable (_ ∧ _))

/-- A regular field of a message. -/
def RegularForm (field : HpackHeader) : Prop :=
  (∀ b ∈ field.name, tokenByte b = true ∧ upperByte b = false) ∧ Clean field.value ∧
    (field.value.head?.all (!padding ·) = true ∧ field.value.getLast?.all (!padding ·) = true) ∧
    field.name ∉ connectionNames ∧
    (field.name = bytes "te" → field.value = bytes "trailers") ∧
    (field.name = bytes "content-length" → ∀ b ∈ field.value, 0x30 ≤ b ∧ b ≤ 0x39)

instance (field : HpackHeader) : Decidable field.RegularForm := inferInstanceAs (Decidable (_ ∧ _))

end HpackHeader

/-- The pseudo headers that some fields start with. -/
def pseudoFields (fields : List HpackHeader) : List HpackHeader := fields.takeWhile HpackHeader.pseudo

/-- The fields after the pseudo headers. -/
def regularFields (fields : List HpackHeader) : List HpackHeader := fields.dropWhile HpackHeader.pseudo

/-- The fields of the block of a request, in which some pseudo headers have come before. -/
structure AdmissibleAfter (names : List Bytes) (fields : List HpackHeader) : Prop where
  form : ∀ field ∈ pseudoFields fields, field.PseudoForm
  once : (names ++ (pseudoFields fields).map HpackHeader.name).Nodup
  required : ∀ name ∈ requiredNames, name ∈ names ++ (pseudoFields fields).map HpackHeader.name
  regular : ∀ field ∈ regularFields fields, field.RegularForm

/-- The fields of the block of a request. -/
abbrev Admissible (fields : List HpackHeader) : Prop := AdmissibleAfter [] fields

/-! ## Regular fields -/

/-- The bytes of a token are those that a name may have, and none of them ends a line or a string. -/
theorem token_bytes (n : Fin 256) : tokenByte (UInt8.ofNat n) = !refusedInName (UInt8.ofNat n) ∧
    (tokenByte (UInt8.ofNat n) = true → UInt8.ofNat n ≠ 0x0d ∧ UInt8.ofNat n ≠ 0x0a ∧ UInt8.ofNat n ≠ 0) := by
  revert n
  decide +kernel

theorem tokenByte_eq (b : UInt8) : tokenByte b = !refusedInName b := by
  revert b
  exact forall_byte fun n => (token_bytes n).1

theorem refusedInValue_eq (b : UInt8) : (!refusedInValue b) = true ↔ b ≠ 0x0d ∧ b ≠ 0x0a ∧ b ≠ 0 := by
  simp [refusedInValue, bytes, and_assoc]

theorem gatherLength_digits (length : Nat) (value : Bytes) :
    (gatherLength length value).2 = true ↔ ∀ b ∈ value, 0x30 ≤ b ∧ b ≤ 0x39 := by
  induction value generalizing length with
  | nil => simp [gatherLength]
  | cons digit rest ih =>
      unfold gatherLength
      by_cases hdigit : digit < 0x30 ∨ digit > 0x39
      · rw [if_pos hdigit]
        refine ⟨fun h => (by cases h), fun h => ?_⟩
        have hbounds := h digit List.mem_cons_self
        rcases hdigit with hlow | hhigh
        · exact absurd hbounds.1 (UInt8.not_le.mpr hlow)
        · exact absurd hbounds.2 (UInt8.not_le.mpr hhigh)
      · rw [if_neg hdigit, ih]
        have hbounds : 0x30 ≤ digit ∧ digit ≤ 0x39 :=
          ⟨UInt8.not_lt.mp fun h => hdigit (.inl h), UInt8.not_lt.mp fun h => hdigit (.inr h)⟩
        simp [hbounds]

theorem verifyHeaderHttp2_iff (field : HpackHeader) : verifyHeaderHttp2 field = true ↔
    (∀ b ∈ field.name, tokenByte b = true) ∧ Clean field.value ∧
      (field.value.head?.all (!padding ·) = true ∧ field.value.getLast?.all (!padding ·) = true) := by
  simp only [verifyHeaderHttp2, decide_eq_true_eq, List.all_eq_true, ← tokenByte_eq, refusedInValue_eq, Clean]

theorem allowsHeader_iff (field : HpackHeader) : Intake.allowsHeader field = true ↔
    (∀ b ∈ field.name, tokenByte b = true ∧ upperByte b = false) ∧ Clean field.value ∧
      (field.value.head?.all (!padding ·) = true ∧ field.value.getLast?.all (!padding ·) = true) ∧
      field.name ∉ connectionNames ∧ (field.name = bytes "te" → field.value = bytes "trailers") := by
  have hupper : (field.name.any fun b => 0x41 ≤ b ∧ b ≤ 0x5a) = false ↔ ∀ b ∈ field.name, upperByte b = false := by
    simp only [List.any_eq_false, upperByte, Bool.not_eq_true]
  have hconnection : (field.name = bytes "connection" ∨ field.name = bytes "keep-alive" ∨
      field.name = bytes "upgrade" ∨ field.name = bytes "transfer-encoding") ↔ field.name ∈ connectionNames := by
    simp [connectionNames]
  simp only [Intake.allowsHeader, decide_eq_true_eq, hupper, verifyHeaderHttp2_iff, hconnection]
  constructor
  · rintro ⟨hlower, ⟨htoken, hclean, hends⟩, hnot, hte⟩
    exact ⟨fun b hb => ⟨htoken b hb, hlower b hb⟩, hclean, hends, hnot, fun hname => by
      by_contra hvalue
      exact hte ⟨hname, hvalue⟩⟩
  · rintro ⟨hname, hclean, hends, hnot, hte⟩
    exact ⟨fun b hb => (hname b hb).2, ⟨fun b hb => (hname b hb).1, hclean, hends⟩, hnot, fun h => h.2 (hte h.1)⟩

/-- No regular field is a pseudo header. -/
theorem HpackHeader.RegularForm.not_pseudo {field : HpackHeader} (h : field.RegularForm) : field.pseudo = false := by
  cases hname : field.name with
  | nil => simp [HpackHeader.pseudo, hname]
  | cons b rest =>
      have htoken := (h.1 b (by rw [hname]; exact List.mem_cons_self)).1
      have hcolon : tokenByte 0x3a = false := by decide
      by_contra hpseudo
      simp only [HpackHeader.pseudo, hname, List.head?_cons, Option.some.injEq, decide_eq_false_iff_not, not_not] at hpseudo
      rw [hpseudo, hcolon] at htoken
      cases htoken

namespace Intake

variable {field : HpackHeader} {fields : List HpackHeader} {i : Intake}

/-- The calls that hand a regular field over. -/
def fieldCalls (address : Nat) (field : HpackHeader) : List Callback :=
  [.headerField address field.name, .headerValue address field.value]

/-- What a regular field that is accepted makes of the message. -/
def took (i : Intake) (field : HpackHeader) : Intake where
  block := { i.block with regular := true }
  request := i.request
  contentLength := if field.name = bytes "content-length" then (gatherLength 0 field.value).1 else i.contentLength
  announced := i.announced || field.name = bytes "content-length"
  calls := i.calls ++ fieldCalls i.request.address field

theorem takeHeader_of_form (h : field.RegularForm) : i.takeHeader field = (true, i.took field) := by
  obtain ⟨hname, hclean, hends, hconnection, hte, hlength⟩ := h
  have hallows : allowsHeader field = true := (allowsHeader_iff field).mpr ⟨hname, hclean, hends, hconnection, hte⟩
  unfold takeHeader
  rw [if_neg (by simp [hallows])]
  by_cases hcontent : field.name = bytes "content-length"
  · have hdigits : (gatherLength 0 field.value).2 = true := (gatherLength_digits 0 field.value).mpr (hlength hcontent)
    simp [contentLengthHeader, hcontent, hdigits, took, fieldCalls]
  · simp [contentLengthHeader, hcontent, took, fieldCalls]

theorem takeHeader_of_not_form (h : ¬ field.RegularForm) : (i.takeHeader field).1 = false ∧
    (i.takeHeader field).2.request = i.request ∧ (i.takeHeader field).2.calls = i.calls := by
  unfold takeHeader
  by_cases hallows : allowsHeader field = true
  · rw [if_neg (by simp [hallows])]
    obtain ⟨hname, hclean, hends, hconnection, hte⟩ := (allowsHeader_iff field).mp hallows
    by_cases hcontent : field.name = bytes "content-length"
    · have hdigits : (gatherLength 0 field.value).2 = false := by
        by_contra hdigits
        rw [Bool.not_eq_false, gatherLength_digits] at hdigits
        exact h ⟨hname, hclean, hends, hconnection, hte, fun _ => hdigits⟩
      simp [contentLengthHeader, hcontent, hdigits]
    · exact absurd ⟨hname, hclean, hends, hconnection, hte, fun heq => absurd heq hcontent⟩ h
  · rw [if_pos (by simpa using hallows)]
    exact ⟨rfl, rfl, rfl⟩

/-- A field that comes after a regular one. -/
theorem header_of_regular (hregular : i.block.regular = true) (h : field.RegularForm) :
    i.header field = (true, i.took field) := by
  have hpseudo : ¬ field.name.head? = some 0x3a := by simpa [HpackHeader.pseudo] using h.not_pseudo
  rw [header, if_neg hpseudo, regularHeader, if_pos hregular, takeHeader_of_form h]

theorem header_of_not_regular (hregular : i.block.regular = true) (h : ¬ field.RegularForm) :
    (i.header field).1 = false := by
  unfold header
  split
  · rw [pseudoHeader, if_pos hregular]
  · rw [regularHeader, if_pos hregular]
    exact (takeHeader_of_not_form h).1

theorem headers_cons {j : Intake} (h : i.header field = (true, j)) : i.headers (field :: fields) = j.headers fields := by
  rw [headers, h]

theorem finish_cons {j : Intake} (h : i.header field = (true, j)) : i.finish (field :: fields) = j.finish fields := by
  rw [finish, headers_cons h]
  rfl

theorem headers_cons_refused (h : (i.header field).1 = false) : i.headers (field :: fields) = i.header field := by
  rw [headers]
  generalize i.header field = result at h ⊢
  obtain ⟨accepted, j⟩ := result
  cases h
  rfl

/-- The fields after a regular one are accepted when all of them are regular ones. -/
theorem headers_of_regular (hregular : i.block.regular = true) (h : ∀ field ∈ fields, field.RegularForm) :
    i.headers fields = (true, fields.foldl took i) := by
  induction fields generalizing i with
  | nil => rfl
  | cons field fields ih =>
      rw [headers_cons (header_of_regular hregular (h field List.mem_cons_self))]
      exact ih rfl fun f hf => h f (List.mem_cons_of_mem _ hf)

theorem headers_of_not_regular (hregular : i.block.regular = true) (h : ¬ ∀ field ∈ fields, field.RegularForm) :
    (i.headers fields).1 = false := by
  induction fields generalizing i with
  | nil => simp at h
  | cons field fields ih =>
      by_cases hfield : field.RegularForm
      · rw [headers_cons (header_of_regular hregular hfield)]
        exact ih rfl fun hall => h (by simpa [hfield] using hall)
      · have hrefused := header_of_not_regular hregular hfield
        rw [headers_cons_refused hrefused]
        exact hrefused

end Intake

/-! ## Pseudo headers -/

/-- The bit that marks a pseudo header as seen. -/
def pseudoBit (name : Bytes) : UInt8 :=
  if name = bytes ":method" then http2PseudoMethod
  else if name = bytes ":scheme" then http2PseudoScheme
  else if name = bytes ":path" then http2PseudoPath
  else if name = bytes ":authority" then http2PseudoAuthority
  else 0

/-- The pseudo headers seen, marked. -/
def pseudoMask (names : List Bytes) : UInt8 := names.foldl (fun mask name => mask ||| pseudoBit name) 0

theorem pseudoMask_concat (names : List Bytes) (name : Bytes) :
    pseudoMask (names ++ [name]) = pseudoMask names ||| pseudoBit name := by
  simp [pseudoMask, List.foldl_append]

theorem pseudoBit_and {name other : Bytes} (h : name ∈ pseudoNames) (ho : other ∈ pseudoNames) :
    pseudoBit other &&& pseudoBit name ≠ 0 ↔ name = other := by
  have hall : ∀ n ∈ pseudoNames, ∀ o ∈ pseudoNames, pseudoBit o &&& pseudoBit n ≠ 0 ↔ n = o := by decide +kernel
  exact hall name h other ho

theorem or_and_ne_zero (a b c : UInt8) : (a ||| b) &&& c ≠ 0 ↔ a &&& c ≠ 0 ∨ b &&& c ≠ 0 := by
  have hdistrib : (a ||| b) &&& c = a &&& c ||| b &&& c := by
    rw [← UInt8.toBitVec_inj]
    ext i
    simp [Bool.and_or_distrib_right]
  rw [hdistrib, Ne, UInt8.or_eq_zero_iff]
  tauto

/-- A pseudo header is marked when it is one of the names seen. -/
theorem pseudoMask_and {names : List Bytes} {name : Bytes} (h : name ∈ pseudoNames) (hsub : ∀ n ∈ names, n ∈ pseudoNames) :
    pseudoMask names &&& pseudoBit name ≠ 0 ↔ name ∈ names := by
  induction names using List.reverseRecOn with
  | nil => simp [pseudoMask]
  | append_singleton names other ih =>
      rw [pseudoMask_concat, or_and_ne_zero, ih fun n hn => hsub n (List.mem_append_left _ hn),
        pseudoBit_and h (hsub other (by simp)), List.mem_append, List.mem_singleton]

theorem required_and (mask : UInt8) : mask &&& http2PseudoRequired = http2PseudoRequired ↔
    mask &&& pseudoBit (bytes ":method") ≠ 0 ∧ mask &&& pseudoBit (bytes ":scheme") ≠ 0 ∧
      mask &&& pseudoBit (bytes ":path") ≠ 0 := by
  revert mask
  exact forall_byte (by decide +kernel)

/-- Nothing that is required is missing when all of it is among the names seen. -/
theorem pseudoMask_required {names : List Bytes} (hsub : ∀ n ∈ names, n ∈ pseudoNames) :
    pseudoMask names &&& http2PseudoRequired = http2PseudoRequired ↔ ∀ name ∈ requiredNames, name ∈ names := by
  rw [required_and, pseudoMask_and (by decide) hsub, pseudoMask_and (by decide) hsub, pseudoMask_and (by decide) hsub]
  simp [requiredNames]

theorem methodHttp2_eq_zero (data : Bytes) : methodHttp2 data = 0 ↔ data ∉ httpMethodStrings := by
  unfold methodHttp2
  split
  case h_1 index hfind =>
    obtain ⟨hlt, hat, -⟩ := List.findIdx?_eq_some_iff_getElem.mp hfind
    have hmem : data ∈ httpMethodStrings := by
      rw [← of_decide_eq_true hat]
      exact List.getElem_mem hlt
    simp [hmem]
  case h_2 hfind =>
    rw [List.findIdx?_eq_none_iff] at hfind
    simp only [true_iff]
    intro hmem
    simpa using hfind data hmem

/-- The names of the pseudo headers are different ones. -/
theorem pseudoNames_ne : bytes ":method" ≠ bytes ":scheme" ∧ bytes ":method" ≠ bytes ":path" ∧
    bytes ":method" ≠ bytes ":authority" ∧ bytes ":scheme" ≠ bytes ":path" ∧ bytes ":scheme" ≠ bytes ":authority" ∧
    bytes ":path" ≠ bytes ":authority" := by
  decide

/-- A pseudo header is taken when it is well formed and has not been seen, and is marked then. -/
theorem gatherPseudo_accepts (field : HpackHeader) (seen : UInt8) (request : HttpRequest) :
    ((gatherPseudo field seen request).2.2 = none ↔ field.PseudoForm ∧ seen &&& pseudoBit field.name = 0) ∧
      ((gatherPseudo field seen request).2.2 = none →
        (gatherPseudo field seen request).1 = seen ||| pseudoBit field.name) := by
  obtain ⟨name, value⟩ := field
  obtain ⟨hms, hmp, hma, hsp, hsa, hpa⟩ := pseudoNames_ne
  unfold gatherPseudo HpackHeader.PseudoForm pseudoBit
  by_cases hmethod : name = bytes ":method"
  · subst hmethod
    have hzero := methodHttp2_eq_zero value
    by_cases hseen : seen &&& http2PseudoMethod ≠ 0
    · simp [hseen]
    · by_cases hknown : methodHttp2 value = 0
      · simp [hseen, hknown, hzero.mp hknown]
      · simp [not_not.mp hseen, hknown, not_not.mp (mt hzero.mpr hknown), hms, hmp, hma, pseudoNames]
  · by_cases hscheme : name = bytes ":scheme"
    · subst hscheme
      by_cases hseen : seen &&& http2PseudoScheme ≠ 0
      · simp [hseen, hms.symm]
      · by_cases hvalue : value = bytes "https" ∨ value = bytes "http"
        · simp [not_not.mp hseen, hvalue, hvalue.symm, hms.symm, hsp, hsa, pseudoNames]
        · have hnot : ¬ (value = bytes "http" ∨ value = bytes "https") := fun h => hvalue h.symm
          simp [not_not.mp hseen, hvalue, hnot, hms.symm, hsp, hsa]
    · by_cases hpath : name = bytes ":path"
      · subst hpath
        by_cases hseen : seen &&& http2PseudoPath ≠ 0
        · simp [hseen, hmp.symm, hsp.symm]
        · by_cases hvalue : value = []
          · simp [not_not.mp hseen, hvalue, hmp.symm, hsp.symm]
          · simp [not_not.mp hseen, hvalue, hmp.symm, hsp.symm, hpa, pseudoNames]
      · by_cases hauthority : name = bytes ":authority"
        · subst hauthority
          by_cases hseen : seen &&& http2PseudoAuthority ≠ 0
          · simp [hseen, hma.symm, hsa.symm, hpa.symm]
          · by_cases hvalue : value.length ≥ viriatumMaxPathSize
            · simp [not_not.mp hseen, hvalue, hma.symm, hsa.symm, hpa.symm]
            · simp [not_not.mp hseen, hvalue, hma.symm, hsa.symm, hpa.symm, pseudoNames, Nat.lt_of_not_le hvalue]
        · simp [hmethod, hscheme, hpath, hauthority, pseudoNames]

/-! ## Blocks of requests -/

section Admissible

variable {names : List Bytes} {field : HpackHeader} {fields : List HpackHeader}

theorem admissibleAfter_nil : AdmissibleAfter names [] ↔ names.Nodup ∧ ∀ name ∈ requiredNames, name ∈ names := by
  constructor
  · rintro ⟨-, honce, hrequired, -⟩
    simp only [pseudoFields, List.takeWhile_nil, List.map_nil, List.append_nil] at honce hrequired
    exact ⟨honce, hrequired⟩
  · rintro ⟨honce, hrequired⟩
    constructor
    case form => simp [pseudoFields]
    case once => simpa [pseudoFields] using honce
    case required => simpa [pseudoFields] using hrequired
    case regular => simp [regularFields]

theorem admissibleAfter_pseudo (h : field.pseudo = true) :
    AdmissibleAfter names (field :: fields) ↔ field.PseudoForm ∧ AdmissibleAfter (names ++ [field.name]) fields := by
  have hpseudo : pseudoFields (field :: fields) = field :: pseudoFields fields := List.takeWhile_cons_of_pos h
  have hregular : regularFields (field :: fields) = regularFields fields := List.dropWhile_cons_of_pos h
  constructor
  · rintro ⟨hform, honce, hrequired, hall⟩
    rw [hpseudo] at hform honce hrequired
    rw [hregular] at hall
    refine ⟨hform field List.mem_cons_self, fun f hf => hform f (List.mem_cons_of_mem _ hf), ?_, ?_, hall⟩
    · simpa using honce
    · simpa using hrequired
  · rintro ⟨hfirst, hform, honce, hrequired, hall⟩
    constructor
    case form =>
      rw [hpseudo]
      exact List.forall_mem_cons.mpr ⟨hfirst, hform⟩
    case once =>
      rw [hpseudo]
      simpa using honce
    case required =>
      rw [hpseudo]
      simpa using hrequired
    case regular =>
      rw [hregular]
      exact hall

theorem admissibleAfter_regular (h : field.pseudo = false) :
    AdmissibleAfter names (field :: fields) ↔
      AdmissibleAfter names [] ∧ field.RegularForm ∧ ∀ f ∈ fields, f.RegularForm := by
  have hpseudo : pseudoFields (field :: fields) = [] := List.takeWhile_cons_of_neg (by simp [h])
  have hregular : regularFields (field :: fields) = field :: fields := List.dropWhile_cons_of_neg (by simp [h])
  rw [admissibleAfter_nil]
  constructor
  · rintro ⟨-, honce, hrequired, hall⟩
    rw [hpseudo] at honce hrequired
    rw [hregular, List.forall_mem_cons] at hall
    simp only [List.map_nil, List.append_nil] at honce hrequired
    exact ⟨⟨honce, hrequired⟩, hall⟩
  · rintro ⟨⟨honce, hrequired⟩, hall⟩
    constructor
    case form => simp [hpseudo]
    case once => simpa [hpseudo] using honce
    case required => simpa [hpseudo] using hrequired
    case regular =>
      rw [hregular]
      exact List.forall_mem_cons.mpr hall

theorem AdmissibleAfter.nodup (h : AdmissibleAfter names fields) : names.Nodup := (List.nodup_append.mp h.once).1

end Admissible

namespace Intake

variable {names : List Bytes} {field : HpackHeader} {fields : List HpackHeader} {i : Intake}

/-- What a pseudo header that is accepted makes of the message. -/
def gathered (i : Intake) (field : HpackHeader) : Intake :=
  { i with
    block := { i.block with pseudo := (gatherPseudo field i.block.pseudo i.request).1 }
    request := (gatherPseudo field i.block.pseudo i.request).2.1 }

/-- The pseudo headers are handed over. -/
def handed (i : Intake) : Intake :=
  { i with block := { i.block with flushed := true }, calls := i.calls ++ pseudoCalls i.request }

/-- What the block of a request makes of the message when all of it is accepted. -/
def accepted (i : Intake) (fields : List HpackHeader) : Intake :=
  (regularFields fields).foldl took ((pseudoFields fields).foldl gathered i).handed

/-- An intake of the block of a request that has seen pseudo headers only. -/
structure Opening (names : List Bytes) (i : Intake) : Prop where
  regular : i.block.regular = false
  trailers : i.block.trailers = false
  flushed : i.block.flushed = false
  mask : i.block.pseudo = pseudoMask names
  names : ∀ name ∈ names, name ∈ pseudoNames

theorem Opening.header (h : Opening names i) (hpseudo : field.pseudo = true) :
    i.header field = ((gatherPseudo field i.block.pseudo i.request).2.2.isNone, i.gathered field) := by
  have hhead : field.name.head? = some 0x3a := by simpa [HpackHeader.pseudo] using hpseudo
  rw [Intake.header, if_pos hhead, pseudoHeader, if_neg (by simp [h.regular]), if_neg (by simp [h.trailers])]
  rfl

theorem Opening.accepts (h : Opening names i) :
    (gatherPseudo field i.block.pseudo i.request).2.2 = none ↔ field.PseudoForm ∧ field.name ∉ names := by
  rw [(gatherPseudo_accepts field i.block.pseudo i.request).1, h.mask]
  constructor
  · rintro ⟨hform, hseen⟩
    exact ⟨hform, fun hmem => (pseudoMask_and hform.1 h.names).mpr hmem hseen⟩
  · rintro ⟨hform, hnot⟩
    exact ⟨hform, not_not.mp fun hseen => hnot ((pseudoMask_and hform.1 h.names).mp hseen)⟩

theorem Opening.gathered (h : Opening names i) (haccepts : field.PseudoForm ∧ field.name ∉ names) :
    Opening (names ++ [field.name]) (i.gathered field) where
  regular := h.regular
  trailers := h.trailers
  flushed := h.flushed
  mask := by
    rw [pseudoMask_concat, ← h.mask]
    exact (gatherPseudo_accepts field i.block.pseudo i.request).2 (h.accepts.mpr haccepts)
  names := by
    intro name hmem
    rcases List.mem_append.mp hmem with hold | hnew
    · exact h.names name hold
    · rw [List.mem_singleton.mp hnew]
      exact haccepts.1.1

theorem Opening.pseudo (h : Opening names i) (hrequired : ∀ name ∈ requiredNames, name ∈ names) :
    i.pseudo = (true, i.handed) := by
  have hmask := (pseudoMask_required h.names).mpr hrequired
  rw [← h.mask] at hmask
  rw [Intake.pseudo, if_neg (by simp [h.flushed]), if_neg (by simp [h.trailers]), if_neg (by simp [hmask])]
  rfl

theorem Opening.pseudo_missing (h : Opening names i) (hmissing : ¬ ∀ name ∈ requiredNames, name ∈ names) :
    i.pseudo.1 = false := by
  have hmask := mt (pseudoMask_required h.names).mp hmissing
  rw [← h.mask] at hmask
  rw [Intake.pseudo, if_neg (by simp [h.flushed]), if_neg (by simp [h.trailers]), if_pos hmask]

theorem took_flushed (i : Intake) (fields : List HpackHeader) : (fields.foldl took i).block.flushed = i.block.flushed := by
  induction fields generalizing i with
  | nil => rfl
  | cons field fields ih => exact ih (i.took field)

/-- The end of a block whose pseudo headers have been handed over. -/
theorem pseudo_of_flushed (h : i.block.flushed = true) : i.pseudo = (true, i) := by
  rw [Intake.pseudo, if_pos h]

/-- A block that is admissible is accepted. -/
theorem Opening.finish (h : Opening names i) (hall : AdmissibleAfter names fields) :
    i.finish fields = (true, i.accepted fields) := by
  induction fields generalizing i names with
  | nil => exact h.pseudo (admissibleAfter_nil.mp hall).2
  | cons field fields ih =>
      cases hpseudo : field.pseudo with
      | true =>
          obtain ⟨hform, hrest⟩ := (admissibleAfter_pseudo hpseudo).mp hall
          have hnot : field.name ∉ names := fun hmem =>
            (List.nodup_append.mp hrest.nodup).2.2 field.name hmem field.name (by simp) rfl
          have hfirst : i.header field = (true, i.gathered field) := by
            rw [h.header hpseudo, h.accepts.mpr ⟨hform, hnot⟩]
            rfl
          rw [finish_cons hfirst, ih (h.gathered ⟨hform, hnot⟩) hrest, accepted, accepted, pseudoFields, pseudoFields,
            regularFields, regularFields, List.takeWhile_cons_of_pos hpseudo, List.dropWhile_cons_of_pos hpseudo,
            List.foldl_cons]
      | false =>
          obtain ⟨hempty, hform, hrest⟩ := (admissibleAfter_regular hpseudo).mp hall
          have hhead : ¬ field.name.head? = some 0x3a := by simpa [HpackHeader.pseudo] using hpseudo
          have hfirst : i.header field = (true, i.handed.took field) := by
            rw [Intake.header, if_neg hhead, regularHeader, if_neg (by simp [h.regular]),
              h.pseudo (admissibleAfter_nil.mp hempty).2]
            exact takeHeader_of_form hform
          have hheaders : (i.handed.took field).headers fields = (true, fields.foldl took (i.handed.took field)) :=
            headers_of_regular rfl hrest
          have hend : (fields.foldl took (i.handed.took field)).block.flushed = true := took_flushed _ fields
          rw [finish_cons hfirst, finish_of_headers (by rw [hheaders]), hheaders, pseudo_of_flushed hend, accepted,
            pseudoFields, regularFields, List.takeWhile_cons_of_neg (by simp [hpseudo]),
            List.dropWhile_cons_of_neg (by simp [hpseudo])]
          rfl

/-- A block that is not admissible is refused. -/
theorem Opening.finish_refused (h : Opening names i) (hnames : names.Nodup) (hnot : ¬ AdmissibleAfter names fields) :
    (i.finish fields).1 = false := by
  induction fields generalizing i names with
  | nil => exact h.pseudo_missing fun hrequired => hnot (admissibleAfter_nil.mpr ⟨hnames, hrequired⟩)
  | cons field fields ih =>
      cases hpseudo : field.pseudo with
      | true =>
          by_cases haccepts : field.PseudoForm ∧ field.name ∉ names
          · have hfirst : i.header field = (true, i.gathered field) := by
              rw [h.header hpseudo, h.accepts.mpr haccepts]
              rfl
            rw [finish_cons hfirst]
            apply ih (h.gathered haccepts)
            · rw [List.nodup_append_comm, List.singleton_append, List.nodup_cons]
              exact ⟨haccepts.2, hnames⟩
            · exact fun hrest => hnot ((admissibleAfter_pseudo hpseudo).mpr ⟨haccepts.1, hrest⟩)
          · have hfirst : (i.header field).1 = false := by
              rw [h.header hpseudo, Option.isNone_eq_false_iff, Option.isSome_iff_ne_none]
              exact mt h.accepts.mp haccepts
            apply finish_of_refused
            rw [headers_cons_refused hfirst]
            exact hfirst
      | false =>
          have hhead : ¬ field.name.head? = some 0x3a := by simpa [HpackHeader.pseudo] using hpseudo
          apply finish_of_refused
          by_cases hrequired : ∀ name ∈ requiredNames, name ∈ names
          · have hfirst : i.header field = i.handed.takeHeader field := by
              rw [Intake.header, if_neg hhead, regularHeader, if_neg (by simp [h.regular]), h.pseudo hrequired]
            by_cases hform : field.RegularForm
            · rw [takeHeader_of_form hform] at hfirst
              rw [headers_cons hfirst]
              apply headers_of_not_regular rfl
              exact fun hrest =>
                hnot ((admissibleAfter_regular hpseudo).mpr ⟨admissibleAfter_nil.mpr ⟨hnames, hrequired⟩, hform, hrest⟩)
            · have hrefused : (i.header field).1 = false := by
                rw [hfirst]
                exact (takeHeader_of_not_form hform).1
              rw [headers_cons_refused hrefused]
              exact hrefused
          · have hmissing := h.pseudo_missing hrequired
            have hrefused : (i.header field).1 = false := by
              rw [Intake.header, if_neg hhead, regularHeader, if_neg (by simp [h.regular])]
              generalize i.pseudo = result at hmissing ⊢
              obtain ⟨accepted, j⟩ := result
              cases hmissing
              rfl
            rw [headers_cons_refused hrefused]
            exact hrefused

end Intake

namespace Intake

variable {fields : List HpackHeader} {i : Intake}

theorem took_calls (i : Intake) (fields : List HpackHeader) :
    (fields.foldl took i).request = i.request ∧
      (fields.foldl took i).calls = i.calls ++ fields.flatMap (fieldCalls i.request.address) := by
  induction fields generalizing i with
  | nil => exact ⟨rfl, (List.append_nil _).symm⟩
  | cons field fields ih =>
      obtain ⟨hrequest, hcalls⟩ := ih (i.took field)
      refine ⟨hrequest, hcalls.trans ?_⟩
      rw [List.flatMap_cons, ← List.append_assoc]
      rfl

/-- A trailer section is accepted when all of its fields are regular ones. -/
theorem finish_of_trailers (h : i.block = { trailers := true }) (hfinish : (i.finish fields).1 = true) :
    (∀ field ∈ fields, field.RegularForm) ∧
      (i.finish fields).2.calls = i.calls ++ fields.flatMap (fieldCalls i.request.address) := by
  cases fields with
  | nil =>
      refine ⟨by simp, ?_⟩
      rw [Intake.finish, headers]
      simp [Intake.pseudo, h]
  | cons field fields =>
      have hheaders : (i.headers (field :: fields)).1 = true := by
        by_contra hrefused
        rw [finish_of_refused (by simpa using hrefused)] at hfinish
        cases hfinish
      by_cases hhead : field.name.head? = some 0x3a
      · have hrefused : (i.header field).1 = false := by
          rw [Intake.header, if_pos hhead, pseudoHeader, if_neg (by simp [h]), if_pos (by simp [h])]
        rw [headers_cons_refused hrefused, hrefused] at hheaders
        cases hheaders
      · have hfirst : i.header field = ({ i with block := { i.block with flushed := true } } : Intake).takeHeader field := by
          rw [Intake.header, if_neg hhead, regularHeader, if_neg (by simp [h])]
          simp [Intake.pseudo, h]
        by_cases hform : field.RegularForm
        · rw [takeHeader_of_form hform] at hfirst
          rw [headers_cons hfirst] at hheaders
          have hrest : ∀ f ∈ fields, f.RegularForm := by
            by_contra hnot
            rw [headers_of_not_regular rfl hnot] at hheaders
            cases hheaders
          have hall := headers_of_regular (i := ({ i with block := { i.block with flushed := true } } : Intake).took field)
            rfl hrest
          refine ⟨List.forall_mem_cons.mpr ⟨hform, hrest⟩, ?_⟩
          rw [finish_cons hfirst, finish_of_headers (by rw [hall]), hall, pseudo_of_flushed (took_flushed _ fields)]
          rw [(took_calls _ fields).2, List.flatMap_cons, ← List.append_assoc]
          rfl
        · rw [headers_cons_refused (by rw [hfirst]; exact (takeHeader_of_not_form hform).1), hfirst,
            (takeHeader_of_not_form hform).1] at hheaders
          cases hheaders

end Intake

/-! ## Calls -/

namespace Callback

/-- The calls that open a message. -/
def Opens : Callback → Prop
  | .messageBegin _ | .url _ _ | .headerField _ _ | .headerValue _ _ => True
  | _ => False

/-- The data of a call carries no byte that ends a line or a string. -/
def Clean : Callback → Prop
  | .url _ data | .headerField _ data | .headerValue _ data => Viriatum.Clean data
  | _ => True

end Callback

/-- The value of a pseudo header carries no byte that ends a line or a string. -/
def PseudosClean (fields : List HpackHeader) : Prop := ∀ field ∈ fields, field.pseudo = true → Clean field.value

namespace Intake

variable {field : HpackHeader} {fields : List HpackHeader} {i : Intake}

theorem clean_of_token {data : Bytes} (h : ∀ b ∈ data, tokenByte b = true) : Clean data := by
  have hbyte : ∀ b, tokenByte b = true → b ≠ 0x0d ∧ b ≠ 0x0a ∧ b ≠ 0 := forall_byte fun n => (token_bytes n).2
  exact fun b hb => hbyte b (h b hb)

theorem clean_append {data rest : Bytes} : Clean (data ++ rest) ↔ Clean data ∧ Clean rest :=
  List.forall_mem_append

theorem clean_cString {data : Bytes} (h : Clean data) : Clean (Http2Connection.cString data) := fun b hb =>
  h b ((List.takeWhile_sublist _).subset hb)

/-- The message has only been opened. -/
def OnlyOpens (i : Intake) : Prop := ∀ callback ∈ i.calls, callback.Opens

theorem OnlyOpens.pseudo (h : i.OnlyOpens) : i.pseudo.2.OnlyOpens := by
  unfold Intake.pseudo
  split
  · exact h
  · split
    · exact h
    · split
      · exact h
      · unfold OnlyOpens pseudoCalls
        rw [List.forall_mem_append]
        refine ⟨h, ?_⟩
        split <;> simp [Callback.Opens]

theorem OnlyOpens.takeHeader (h : i.OnlyOpens) (field : HpackHeader) : (i.takeHeader field).2.OnlyOpens := by
  by_cases hform : field.RegularForm
  · rw [takeHeader_of_form hform]
    unfold OnlyOpens took fieldCalls
    rw [List.forall_mem_append]
    exact ⟨h, by simp [Callback.Opens]⟩
  · unfold OnlyOpens
    rw [(takeHeader_of_not_form hform).2.2]
    exact h

theorem OnlyOpens.header (h : i.OnlyOpens) (field : HpackHeader) : (i.header field).2.OnlyOpens := by
  unfold Intake.header
  split
  · unfold Intake.pseudoHeader
    split
    · exact h
    · split
      · exact h
      · exact h
  · unfold Intake.regularHeader
    split
    · exact h.takeHeader field
    · have hpseudo := h.pseudo
      generalize i.pseudo = result at hpseudo ⊢
      obtain ⟨accepted, j⟩ := result
      cases accepted
      · exact hpseudo
      · exact hpseudo.takeHeader field

theorem OnlyOpens.headers (h : i.OnlyOpens) (fields : List HpackHeader) : (i.headers fields).2.OnlyOpens := by
  induction fields generalizing i with
  | nil => exact h
  | cons field fields ih =>
      have hfield := h.header field
      rw [Intake.headers]
      generalize i.header field = result at hfield ⊢
      obtain ⟨accepted, j⟩ := result
      cases accepted
      · exact hfield
      · exact ih hfield

theorem OnlyOpens.finish (h : i.OnlyOpens) (fields : List HpackHeader) : (i.finish fields).2.OnlyOpens := by
  have hheaders := h.headers fields
  unfold Intake.finish
  generalize i.headers fields = result at hheaders ⊢
  obtain ⟨accepted, j⟩ := result
  cases accepted with
  | false => exact hheaders
  | true => exact hheaders.pseudo

/-- An intake that carries only clean data. -/
structure Unsullied (i : Intake) : Prop where
  path : Clean i.request.path
  authority : Clean i.request.authority
  calls : ∀ callback ∈ i.calls, callback.Clean

theorem Unsullied.pseudo (h : Unsullied i) : Unsullied i.pseudo.2 := by
  have hhost : Clean (bytes "Host") := by simp [Clean, bytes]
  unfold Intake.pseudo
  split
  · exact h
  · split
    · exact ⟨h.path, h.authority, h.calls⟩
    · split
      · exact ⟨h.path, h.authority, h.calls⟩
      · refine ⟨h.path, h.authority, fun callback hmem => ?_⟩
        rcases List.mem_append.mp hmem with hold | hnew
        · exact h.calls callback hold
        · unfold pseudoCalls at hnew
          rcases List.mem_cons.mp hnew with rfl | hnew
          · exact h.path
          · split at hnew
            · simp only [List.mem_cons, List.not_mem_nil, or_false] at hnew
              rcases hnew with rfl | rfl
              · exact hhost
              · exact clean_cString h.authority
            · cases hnew

/-- The pseudo headers gathered are as clean as their values. -/
theorem gatherPseudo_clean (seen : UInt8) {request : HttpRequest} (hvalue : Clean field.value) (hpath : Clean request.path)
    (hauthority : Clean request.authority) :
    Clean (gatherPseudo field seen request).2.1.path ∧ Clean (gatherPseudo field seen request).2.1.authority := by
  have happend : Clean (Http2Connection.appendPath request.path field.value) :=
    clean_append.mpr ⟨hpath, fun b hb => hvalue b (List.mem_of_mem_take hb)⟩
  unfold gatherPseudo
  split
  · split <;> exact ⟨hpath, hauthority⟩
  · split
    · split
      · exact ⟨hpath, hauthority⟩
      · split <;> exact ⟨hpath, hauthority⟩
    · split
      · split
        · exact ⟨hpath, hauthority⟩
        · split
          · exact ⟨hpath, hauthority⟩
          · exact ⟨happend, hauthority⟩
      · split
        · split
          · exact ⟨hpath, hauthority⟩
          · split
            · exact ⟨hpath, hauthority⟩
            · exact ⟨hpath, hvalue⟩
        · exact ⟨hpath, hauthority⟩

theorem Unsullied.takeHeader (h : Unsullied i) (field : HpackHeader) : Unsullied (i.takeHeader field).2 := by
  by_cases hform : field.RegularForm
  · rw [takeHeader_of_form hform]
    refine ⟨h.path, h.authority, fun callback hmem => ?_⟩
    rcases List.mem_append.mp hmem with hold | hnew
    · exact h.calls callback hold
    · simp only [fieldCalls, List.mem_cons, List.not_mem_nil, or_false] at hnew
      rcases hnew with rfl | rfl
      · exact clean_of_token fun b hb => (hform.1 b hb).1
      · exact hform.2.1
  · obtain ⟨-, hrequest, hcalls⟩ := takeHeader_of_not_form (i := i) hform
    constructor
    case path => exact hrequest ▸ h.path
    case authority => exact hrequest ▸ h.authority
    case calls => exact hcalls ▸ h.calls

theorem Unsullied.header (h : Unsullied i) (hclean : field.pseudo = true → Clean field.value) :
    Unsullied (i.header field).2 := by
  unfold Intake.header
  split
  case isTrue hhead =>
    have hvalue := hclean (by simpa [HpackHeader.pseudo] using hhead)
    have hgathered := gatherPseudo_clean i.block.pseudo hvalue h.path h.authority
    unfold Intake.pseudoHeader
    split
    · exact h
    · split
      · exact h
      · exact ⟨hgathered.1, hgathered.2, h.calls⟩
  case isFalse =>
    unfold Intake.regularHeader
    split
    · exact h.takeHeader field
    · have hpseudo := h.pseudo
      generalize i.pseudo = result at hpseudo ⊢
      obtain ⟨accepted, j⟩ := result
      cases accepted
      · exact hpseudo
      · exact hpseudo.takeHeader field

theorem Unsullied.headers (h : Unsullied i) (hclean : PseudosClean fields) : Unsullied (i.headers fields).2 := by
  induction fields generalizing i with
  | nil => exact h
  | cons field fields ih =>
      have hfield := h.header (hclean field List.mem_cons_self)
      rw [Intake.headers]
      generalize i.header field = result at hfield ⊢
      obtain ⟨accepted, j⟩ := result
      cases accepted
      · exact hfield
      · exact ih hfield fun f hf => hclean f (List.mem_cons_of_mem _ hf)

theorem Unsullied.finish (h : Unsullied i) (hclean : PseudosClean fields) : Unsullied (i.finish fields).2 := by
  have hheaders := h.headers hclean
  unfold Intake.finish
  generalize i.headers fields = result at hheaders ⊢
  obtain ⟨accepted, j⟩ := result
  cases accepted
  · exact hheaders
  · exact hheaders.pseudo

end Intake

end Viriatum
