import Mathlib.Data.Option.Basic
import Viriatum.Http.Assertions

/-!
# Bodies in chunks

What a body in chunks says, read byte by byte: as many bytes as the digits of a size denote are a chunk. Over every partition of the bytes of a body into reads, the slices that the parser gives to the handler are the bytes of
the chunks, in order and complete, and the parser refuses what has no meaning.
-/

namespace Viriatum

open Library

def hexDigit (byte : UInt8) : Option Nat :=
  if 48 ≤ byte ∧ byte ≤ 57 then some (byte.toNat - 48)
  else if 65 ≤ byte ∧ byte ≤ 70 then some (byte.toNat - 55)
  else if 97 ≤ byte ∧ byte ≤ 102 then some (byte.toNat - 87)
  else none

/-- A place in a body: at the start of a size, within its digits, within what follows them on the line, at the end of the
line, within the bytes of a chunk, at and within the end of it, and behind the last one. -/
inductive ChunkPhase where
  | sizeStart
  | size (value : Nat)
  | parameters (value : Nat)
  | sizeDone (value : Nat)
  | data (left : Nat)
  | dataDone
  | dataEnd
  | trailer
deriving DecidableEq, Repr

namespace ChunkPhase

/-- The place that a byte leads to, unless it has no meaning. -/
def step (byte : UInt8) : ChunkPhase → Option ChunkPhase
  | sizeStart => (hexDigit byte).map size
  | size value =>
      if byte = 13 then some (sizeDone value)
      else if byte = 59 ∨ byte = 32 then some (parameters value)
      else (hexDigit byte).map fun digit => size (16 * value + digit)
  | parameters value => some (if byte = 13 then sizeDone value else parameters value)
  | sizeDone value => some (if value = 0 then trailer else data value)
  | data left => some (if left ≤ 1 then dataDone else data (left - 1))
  | dataDone => some dataEnd
  | dataEnd => some sizeStart
  | trailer => some trailer

def payload (byte : UInt8) : ChunkPhase → Bytes
  | data _ => [byte]
  | _ => []

/-- Reads bytes: the place that they lead to, and the bytes of the chunks among them. -/
def decode : ChunkPhase → Bytes → Option (ChunkPhase × Bytes)
  | phase, [] => some (phase, [])
  | phase, byte :: rest => do
      let next ← phase.step byte
      let result ← next.decode rest
      return (result.1, phase.payload byte ++ result.2)

/-- The length of a chunk, or what is left of it. -/
def length : ChunkPhase → Option Nat
  | size value => some value
  | parameters value => some value
  | sizeDone value => some value
  | data left => some left
  | _ => none

/-- Whether a digit may come. -/
def inSize : ChunkPhase → Bool
  | sizeStart => true
  | size _ => true
  | _ => false

/-- There is room for every size, and no byte is taken for a digit of it that is beyond the table of the digits. -/
def Fits : ChunkPhase → Bytes → Prop
  | _, [] => True
  | phase, byte :: rest => (phase.inSize = true → byte < 128) ∧ ∀ next, phase.step byte = some next →
      (∀ value, next.length = some value → value < 2 ^ 31) ∧ next.Fits rest

variable {phase : ChunkPhase} {byte : UInt8} {bytes rest taken : Bytes} {left : Nat}

@[simp] theorem decode_nil (phase : ChunkPhase) : phase.decode [] = some (phase, []) := by
  cases phase <;> rfl

theorem decode_cons (phase : ChunkPhase) (byte : UInt8) (rest : Bytes) :
    phase.decode (byte :: rest) =
      (phase.step byte).bind fun next => (next.decode rest).map fun result => (result.1, phase.payload byte ++ result.2) := by
  rw [decode]
  cases phase.step byte with
  | none => rfl
  | some next =>
      simp only [Option.bind_eq_bind, Option.bind_some]
      cases next.decode rest <;> rfl

theorem decode_trailer (bytes : Bytes) : trailer.decode bytes = some (trailer, []) := by
  induction bytes with
  | nil => rfl
  | cons byte bytes ih => simp [decode_cons, step, ih, payload]

/-- The place behind some of the bytes of a chunk. -/
def behind (left count : Nat) : ChunkPhase := if count = left then dataDone else data (left - count)

/-- Bytes of a chunk are given as they are. -/
theorem decode_data (hne : taken ≠ []) (hle : taken.length ≤ left) (rest : Bytes) :
    (data left).decode (taken ++ rest) =
      ((behind left taken.length).decode rest).map fun result => (result.1, taken ++ result.2) := by
  induction taken generalizing left with
  | nil => exact absurd rfl hne
  | cons byte taken ih =>
      rw [List.cons_append, decode_cons]
      simp only [List.length_cons] at hle
      simp only [step, Option.bind_some, payload]
      by_cases hlast : left ≤ 1
      · have hempty : taken = [] := List.eq_nil_of_length_eq_zero (by omega)
        have hone : 1 = left := by omega
        subst hempty
        simp [behind, hone]
      · cases taken with
        | nil =>
            have hmore : ¬1 = left := by omega
            simp [hlast, behind, hmore]
        | cons next taken =>
            rw [if_neg hlast, ih (by simp) (by simp at hle ⊢; omega)]
            have hbehind : behind (left - 1) (next :: taken).length = behind left (next :: taken).length.succ := by
              simp only [behind, List.length_cons] at hle ⊢
              split_ifs <;> first | rfl | omega | (congr 1; omega)
            rw [hbehind]
            cases (behind left (next :: taken).length.succ).decode rest <;> simp

theorem fits_append (h : phase.Fits (bytes ++ rest)) :
    phase.Fits bytes ∧ ∀ next chunks, phase.decode bytes = some (next, chunks) → next.Fits rest := by
  induction bytes generalizing phase with
  | nil =>
      refine ⟨by cases phase <;> trivial, fun next chunks hdecode => ?_⟩
      rw [decode_nil] at hdecode
      cases hdecode
      exact h
  | cons byte bytes ih =>
      rw [List.cons_append] at h
      obtain ⟨hbyte, hnext⟩ := h
      refine ⟨⟨hbyte, fun next hstep => ⟨(hnext next hstep).1, (ih (hnext next hstep).2).1⟩⟩, fun last chunks hdecode => ?_⟩
      rw [decode_cons] at hdecode
      obtain ⟨next, hstep, hmap⟩ := Option.bind_eq_some_iff.mp hdecode
      obtain ⟨result, hresult, heq⟩ := Option.map_eq_some_iff.mp hmap
      cases heq
      exact (ih (hnext next hstep).2).2 _ _ hresult

/-- What is read in two parts is what is read at once. -/
theorem decode_append (phase : ChunkPhase) (bytes rest : Bytes) :
    phase.decode (bytes ++ rest) = (phase.decode bytes).bind fun first =>
      (first.1.decode rest).map fun second => (second.1, first.2 ++ second.2) := by
  induction bytes generalizing phase with
  | nil =>
      rw [List.nil_append, decode_nil]
      cases hrest : phase.decode rest <;> simp [hrest]
  | cons byte bytes ih =>
      rw [List.cons_append, decode_cons, decode_cons]
      cases phase.step byte with
      | none => rfl
      | some next =>
          simp only [Option.bind_some, ih]
          cases next.decode bytes with
          | none => rfl
          | some result =>
              simp only [Option.bind_some, Option.map_some]
              cases result.1.decode rest <;> simp

end ChunkPhase

/-! ## The parser -/

/-- The bytes of a slice in a read that is at an address. -/
def sliceText (data : Nat) (read : Bytes) (slice : Nat × Nat) : Bytes := (read.drop (slice.1 - data)).take slice.2

namespace HttpParser

open ChunkPhase HttpParserState

variable {settings : HttpSettings} {p q saved : HttpParser} {byte : UInt8} {phase : ChunkPhase} {pointer available digit : Nat}

/-! ## Digits -/

theorem hexDigit_lt (h : hexDigit byte = some digit) : digit < 16 := by
  unfold hexDigit at h
  have hbounds : (57 : UInt8).toNat = 57 ∧ (70 : UInt8).toNat = 70 ∧ (102 : UInt8).toNat = 102 := ⟨rfl, rfl, rfl⟩
  split_ifs at h
  all_goals
    cases h
    simp only [UInt8.le_iff_toNat_le] at *
    omega

/-- The table gives the digits, for the first half of the bytes. -/
theorem unhex_eq (hbyte : byte < 128) : unhex byte = (hexDigit byte).elim (-1) fun digit => (digit : Int) := by
  have hbounds : (48 : UInt8).toNat = 48 ∧ (65 : UInt8).toNat = 65 ∧ (97 : UInt8).toNat = 97 := ⟨rfl, rfl, rfl⟩
  unfold unhex hexDigit
  by_cases hdigit : 48 ≤ byte ∧ byte ≤ 57
  · rw [if_pos hdigit, if_pos hdigit]
    simp only [UInt8.le_iff_toNat_le, Option.elim_some] at hdigit ⊢
    omega
  · rw [if_neg hdigit, if_neg hdigit]
    by_cases hupper : 65 ≤ byte ∧ byte ≤ 70
    · rw [if_pos hupper, if_pos hupper]
      simp only [UInt8.le_iff_toNat_le, Option.elim_some] at hupper ⊢
      omega
    · rw [if_neg hupper, if_neg hupper]
      by_cases hlower : 97 ≤ byte ∧ byte ≤ 102
      · rw [if_pos hlower, if_pos hlower]
        simp only [UInt8.le_iff_toNat_le, Option.elim_some] at hlower ⊢
        omega
      · rw [if_neg hlower, if_neg hlower, if_pos hbyte]
        rfl

theorem toInt_of_lt {value : Int} (hpos : 0 ≤ value) (hlt : value < 2 ^ 31) : toInt value = value := by
  rw [toInt, Int.bmod_eq_of_le] <;> omega

/-! ## Places -/

/-- The parser is at a place of a body. -/
def At : ChunkPhase → HttpParser → Prop
  | .sizeStart, p => p.state = .chunkSizeStart
  | .size value, p => p.state = .chunkSize ∧ p.contentLength = value ∧ value < 2 ^ 31
  | .parameters value, p => p.state = .chunkParameters ∧ p.contentLength = value ∧ value < 2 ^ 31
  | .sizeDone value, p => p.state = .chunkSizeAlmostDone ∧ p.contentLength = value ∧ value < 2 ^ 31
  | .data left, p => p.state = .chunkData ∧ p.contentLength = left ∧ 0 < left ∧ left < 2 ^ 31
  | .dataDone, p => p.state = .chunkDataAlmostDone
  | .dataEnd, p => p.state = .chunkDataDone
  | .trailer, p => p.flags.chunked = true ∧ p.flags.trailing = true ∧ p.state.isHeader = true ∨ 0 < p.parseCount

theorem At.length (h : At phase p) {value : Nat} (hvalue : phase.length = some value) : p.contentLength = value := by
  cases phase <;> cases hvalue <;> exact h.2.1

/-- What a byte does at a place where it is none of a chunk: the parser goes on where the byte leads to, or refuses it. -/
def Leads (p : HttpParser) (phase : ChunkPhase) (byte : UInt8) : HttpStep → Prop
  | .next skip q => skip = 0 ∧ q.bodies = p.bodies ∧ q.Sound ∧ q.parseCount = p.parseCount ∧
      ∃ next, phase.step byte = some next ∧ At next q
  | .refused q => q.bodies = p.bodies ∧ phase.step byte = none
  | _ => False

theorem leads_sizeStart (hp : p.Sound) (h : At .sizeStart p) (hbyte : byte < 128) :
    Leads p .sizeStart byte (p.processByte settings pointer available byte) := by
  have hstate : p.state = .chunkSizeStart := h
  have hgood : Good (p.event (.failed .readCount)) (p.processByte settings pointer available byte) :=
    chunkSizeStart_fails hp hstate
  have hstep : p.processByte settings pointer available byte = p.chunkSizeStart byte := by
    simp [processByte, hstate]
  rw [hstep, chunkSizeStart_eq hp hstate, unhex_eq hbyte] at hgood ⊢
  cases hdigit : hexDigit byte with
  | none => exact ⟨rfl, by simp [ChunkPhase.step, hdigit]⟩
  | some digit =>
      have hlt := hexDigit_lt hdigit
      have hne : ¬(digit : Int) = -1 := by omega
      rw [hdigit, Option.elim_some, if_neg hne] at hgood
      rw [Option.elim_some, if_neg hne]
      exact ⟨rfl, rfl, hgood.sound, rfl, .size digit, by simp [ChunkPhase.step, hdigit], rfl, rfl, by omega⟩

theorem leads_size {value : Nat} (hp : p.Sound) (h : At (.size value) p) (hbyte : byte < 128)
    (hfits : ∀ digit, hexDigit byte = some digit → 16 * value + digit < 2 ^ 31) :
    Leads p (.size value) byte (p.processByte settings pointer available byte) := by
  obtain ⟨hstate, hlength, hlt⟩ := h
  have hgood : Good p (p.processByte settings pointer available byte) := good_processByte hp (by simp [hstate])
  have hstep : p.processByte settings pointer available byte = p.chunkSize byte := by
    simp [processByte, hstate]
  rw [hstep, chunkSize, assert_chunked hp (by rw [hstate]; rfl), unhex_eq hbyte] at hgood ⊢
  by_cases hcr : byte = 13
  · rw [if_pos hcr] at hgood ⊢
    exact ⟨rfl, rfl, hgood.sound, rfl, .sizeDone value, by simp [ChunkPhase.step, hcr], rfl, hlength, hlt⟩
  · rw [if_neg hcr] at hgood ⊢
    cases hdigit : hexDigit byte with
    | none =>
        rw [hdigit] at hgood
        simp only [Option.elim_none, if_true] at hgood ⊢
        by_cases hends : byte = 59 ∨ byte = 32
        · rw [if_pos hends] at hgood ⊢
          exact ⟨rfl, rfl, hgood.sound, rfl, .parameters value, by simp [ChunkPhase.step, hcr, hends], rfl, hlength, hlt⟩
        · rw [if_neg hends]
          exact ⟨rfl, by simp [ChunkPhase.step, hcr, hends, hdigit]⟩
    | some digit =>
        have hroom := hfits digit hdigit
        have hne : ¬(digit : Int) = -1 := by omega
        have hends : ¬(byte = 59 ∨ byte = 32) := by
          rintro (rfl | rfl) <;> cases hdigit
        have hradix : toInt ((value : Int) * 16) = value * 16 := toInt_of_lt (by omega) (by omega)
        have hsum : toInt ((value : Int) * 16 + digit) = value * 16 + digit := toInt_of_lt (by omega) (by omega)
        rw [hdigit, Option.elim_some, if_neg hne] at hgood
        rw [Option.elim_some, if_neg hne]
        refine ⟨rfl, rfl, hgood.sound, rfl, .size (16 * value + digit), by simp [ChunkPhase.step, hcr, hends, hdigit],
          hstate, ?_, hroom⟩
        simp only [addDigit, hlength, hradix, hsum]
        omega

theorem leads_parameters {value : Nat} (hp : p.Sound) (h : At (.parameters value) p) :
    Leads p (.parameters value) byte (p.processByte settings pointer available byte) := by
  obtain ⟨hstate, hlength, hlt⟩ := h
  have hgood : Good p (p.processByte settings pointer available byte) := good_processByte hp (by simp [hstate])
  have hstep : p.processByte settings pointer available byte = p.chunkParameters byte := by
    simp [processByte, hstate]
  rw [hstep, chunkParameters, assert_chunked hp (by rw [hstate]; rfl)] at hgood ⊢
  split_ifs at hgood ⊢ with hcr
  · exact ⟨rfl, rfl, hgood.sound, rfl, .sizeDone value, by simp [ChunkPhase.step, hcr], rfl, hlength, hlt⟩
  · exact ⟨rfl, rfl, hgood.sound, rfl, .parameters value, by simp [ChunkPhase.step, hcr], hstate, hlength, hlt⟩

theorem leads_sizeDone {value : Nat} (hp : p.Sound) (h : At (.sizeDone value) p) :
    Leads p (.sizeDone value) byte (p.processByte settings pointer available byte) := by
  obtain ⟨hstate, hlength, hlt⟩ := h
  have hchunked := hp.chunked (by rw [hstate]; rfl)
  have hgood : Good p (p.processByte settings pointer available byte) := good_processByte hp (by simp [hstate])
  have hstep : p.processByte settings pointer available byte = p.chunkSizeAlmostDone := by
    simp [processByte, hstate]
  rw [hstep, chunkSizeAlmostDone, assert_chunked hp (by rw [hstate]; rfl)] at hgood ⊢
  dsimp only at hgood ⊢
  split_ifs at hgood ⊢ with hzero
  · have hvalue : value = 0 := by omega
    exact ⟨rfl, rfl, hgood.sound, rfl, .trailer, by simp [ChunkPhase.step, hvalue], .inl ⟨hchunked, rfl, rfl⟩⟩
  · have hvalue : value ≠ 0 := by omega
    exact ⟨rfl, rfl, hgood.sound, rfl, .data value, by simp [ChunkPhase.step, hvalue], rfl, hlength,
      Nat.pos_of_ne_zero hvalue, hlt⟩

theorem leads_dataDone (hp : p.Sound) (h : At .dataDone p) :
    Leads p .dataDone byte (p.processByte settings pointer available byte) := by
  have hstate : p.state = .chunkDataAlmostDone := h
  have hgood : Good p (p.processByte settings pointer available byte) := good_processByte hp (by simp [hstate])
  have hstep : p.processByte settings pointer available byte = p.chunkDataAlmostDone := by
    simp [processByte, hstate]
  rw [hstep, chunkDataAlmostDone, assert_chunked hp (by rw [hstate]; rfl)] at hgood ⊢
  exact ⟨rfl, rfl, hgood.sound, rfl, .dataEnd, rfl, rfl⟩

theorem leads_dataEnd (hp : p.Sound) (h : At .dataEnd p) :
    Leads p .dataEnd byte (p.processByte settings pointer available byte) := by
  have hstate : p.state = .chunkDataDone := h
  have hgood : Good p (p.processByte settings pointer available byte) := good_processByte hp (by simp [hstate])
  have hstep : p.processByte settings pointer available byte = p.chunkDataDone := by
    simp [processByte, hstate]
  rw [hstep, chunkDataDone, assert_chunked hp (by rw [hstate]; rfl)] at hgood ⊢
  exact ⟨rfl, rfl, hgood.sound, rfl, .sizeStart, rfl, rfl⟩

/-- What a byte does at a place where it is none of a chunk, as long as there is room for the size. -/
theorem leads_of_fits {rest : Bytes} (hp : p.Sound) (h : At phase p) (htrailer : phase ≠ .trailer)
    (hdata : ∀ left, phase ≠ .data left) (hfits : phase.Fits (byte :: rest)) :
    Leads p phase byte (p.processByte settings pointer available byte) := by
  cases phase with
  | sizeStart => exact leads_sizeStart hp h (hfits.1 rfl)
  | size value =>
      refine leads_size hp h (hfits.1 rfl) fun digit hdigit => ?_
      have hcr : byte ≠ 13 := by
        rintro rfl
        cases hdigit
      have hends : ¬(byte = 59 ∨ byte = 32) := by
        rintro (rfl | rfl) <;> cases hdigit
      exact (hfits.2 (.size (16 * value + digit)) (by simp [ChunkPhase.step, hcr, hends, hdigit])).1 _ rfl
  | parameters value => exact leads_parameters hp h
  | sizeDone value => exact leads_sizeDone hp h
  | data left => exact absurd rfl (hdata left)
  | dataDone => exact leads_dataDone hp h
  | dataEnd => exact leads_dataEnd hp h
  | trailer => exact absurd rfl htrailer

/-- The bytes of a chunk that there are, or that are left of it, are given to the handler and skipped. -/
theorem chunkData_eq (settings : HttpSettings) (pointer : Nat) (byte : UInt8) {left : Nat} (hp : p.Sound) (h : At (.data left) p) (havailable : 0 < available) :
    ∃ q, p.processByte settings pointer available byte = .next (min available left - 1) q ∧ q.Sound ∧
      q.bodies = (pointer, min available left) :: p.bodies ∧ q.parseCount = p.parseCount ∧
      At (behind left (min available left)) q := by
  obtain ⟨hstate, hlength, hpos, hlt⟩ := h
  have hgood : Good p (p.processByte settings pointer available byte) := good_processByte hp (by simp [hstate])
  have hstep : p.processByte settings pointer available byte = p.chunkData pointer available := by
    simp [processByte, hstate]
  have hread : p.toRead available = min available left := by
    rw [toRead, toSize, hlength]
    omega
  have hleft : toInt (p.contentLength - (min available left : Nat)) = (left - min available left : Nat) := by
    rw [hlength, toInt_of_lt] <;> omega
  have hwhole : toSize p.contentLength = left := by
    rw [toSize, hlength]
    omega
  have hsome : min available left > 0 := by omega
  have hinside : ¬min available left > available := by omega
  rw [hstep, chunkData, assert_chunked hp (by rw [hstate]; rfl)] at hgood ⊢
  simp only [hread, if_pos hsome, hleft, moved, if_neg hinside] at hgood ⊢
  refine ⟨_, rfl, hgood.sound, ?_⟩
  have hwhole' : toSize (p.event (.body pointer (min available left))).contentLength = left := hwhole
  rw [hwhole']
  by_cases hall : min available left = left
  · rw [if_pos hall, behind, if_pos hall]
    exact ⟨rfl, rfl, rfl⟩
  · rw [if_neg hall, behind, if_neg hall]
    exact ⟨rfl, rfl, hstate, rfl, by omega, by omega⟩

/-! ## Behind the last chunk -/

/-- A step that does not move the pointer out of the data. -/
def Stays : HttpStep → Prop
  | .strayed _ => False
  | _ => True

theorem stays_bodyStart (p : HttpParser) : Stays p.bodyStart := by
  unfold bodyStart
  split_ifs <;> trivial

theorem stays_headersAlmostDone (p : HttpParser) : Stays (p.headersAlmostDone settings) := by
  unfold headersAlmostDone headersComplete
  dsimp only
  split
  · trivial
  · split
    · exact stays_bodyStart _
    · exact stays_bodyStart _
    · trivial

theorem stays_headerFieldStart (p : HttpParser) : Stays (p.headerFieldStart settings pointer byte) := by
  unfold headerFieldStart
  split
  · trivial
  · split
    · exact stays_headersAlmostDone _
    · split <;> trivial

theorem stays_headerValueFirst (p : HttpParser) : Stays (p.headerValueFirst byte) := by
  unfold headerValueFirst
  split <;> first | trivial | (split <;> trivial)

theorem stays_headerAlmostDone (p : HttpParser) : Stays p.headerAlmostDone := by
  unfold headerAlmostDone
  dsimp only
  split <;> trivial

theorem stays_headerValueToken (p : HttpParser) : Stays (p.headerValueToken byte) := by
  unfold headerValueToken
  split <;> first | trivial | (split_ifs <;> trivial)

theorem stays_header (hheader : p.state.isHeader = true) : Stays (p.processByte settings pointer available byte) := by
  unfold processByte
  cases hstate : p.state with
  | headerFieldStart => exact stays_headerFieldStart p
  | headerField =>
      dsimp only [headerField]
      split_ifs <;> trivial
  | headerValueStart =>
      dsimp only [headerValueStart]
      split_ifs
      · trivial
      · trivial
      · trivial
      · exact stays_headerValueFirst _
  | headerValue =>
      dsimp only [headerValue]
      split_ifs
      · trivial
      · exact stays_headerAlmostDone _
      · exact stays_headerValueToken _
  | headerValueLws =>
      dsimp only [headerValueLws]
      split_ifs
      · trivial
      · exact stays_headerFieldStart _
  | headerAlmostDone => exact stays_headerAlmostDone p
  | headersAlmostDone => exact stays_headersAlmostDone p
  | _ => simp [hstate, isHeader] at hheader

theorem bodies_finish (p : HttpParser) (size : Nat) : (p.finish size).parser.bodies = p.bodies := by
  rw [finish]
  split <;> rfl

/-- The fields behind the last chunk give nothing to the handler. -/
theorem trailer_bodies (data : Nat) {bytes : Bytes} (position skip : Nat) (hp : p.Sound) (h : At .trailer p) :
    (processFrom settings saved data position skip bytes p).parser.bodies = p.bodies := by
  induction bytes generalizing position skip p with
  | nil =>
      rw [processFrom]
      exact bodies_finish p position
  | cons byte rest ih =>
      cases skip with
      | succ skip =>
          rw [processFrom]
          exact ih (position + 1) skip hp h
      | zero =>
          rw [processFrom]
          split
          · exact bodies_finish p position
          · next hcount =>
              rcases h with ⟨hchunked, htrailing, hheader⟩ | hdone
              · have hstart : p.state ≠ .chunkSizeStart := by
                  intro hstart
                  rw [hstart] at hheader
                  cases hheader
                have hgood : Good p (p.processByte settings (data + position) (rest.length + 1) byte) :=
                  good_processByte hp hstart
                have hstays : Stays (p.processByte settings (data + position) (rest.length + 1) byte) := stays_header hheader
                cases hstep : p.processByte settings (data + position) (rest.length + 1) byte with
                | next skip q =>
                    rw [hstep] at hgood
                    dsimp only
                    rw [ih (position + 1) skip hgood.sound ?_, hgood.bodies hheader]
                    rcases hgood.trailer hheader htrailing with ⟨hheader', htrailing'⟩ | hdone
                    · rcases hgood.trailed ⟨hchunked, .inr ⟨htrailing, hheader⟩⟩ with htrailed | hdone
                      · exact .inl ⟨htrailed.1, htrailing', hheader'⟩
                      · exact .inr hdone
                    · exact .inr hdone
                | refused q =>
                    rw [hstep] at hgood
                    exact hgood.2 hheader
                | returned behind q =>
                    rw [hstep] at hgood
                    exact absurd ⟨hchunked, .inr ⟨htrailing, hheader⟩⟩ hgood.2.1
                | strayed q =>
                    rw [hstep] at hstays
                    exact hstays.elim
              · exact absurd hdone hcount

/-! ## Reads -/

/-- What a parser does with bytes at the end of a read: the slices that it gives to the handler lie in the read and are the
bytes of the chunks; it refuses what has no meaning, and nothing else before the last chunk. -/
def Answers (data : Nat) (read : Bytes) (given : List (Nat × Nat)) (phase : ChunkPhase) (bytes : Bytes)
    (outcome : Processed) (goesOn : ChunkPhase → HttpParser → Prop) : Prop :=
  ∃ slices, outcome.parser.bodies = slices ++ given ∧
    (∀ slice ∈ slices, data ≤ slice.1 ∧ slice.1 + slice.2 ≤ data + read.length) ∧
    (phase.decode bytes = none → ∃ q, outcome = .error q) ∧
    ∀ next chunks, phase.decode bytes = some (next, chunks) → slices.reverse.flatMap (sliceText data read) = chunks ∧
      (next = .trailer ∨ ∃ q, outcome = .processed read.length q ∧
        (∀ value, next.length = some value → q.contentLength = value) ∧ goesOn next q)

theorem processFrom_skip (data : Nat) {bytes : Bytes} (position skip : Nat) (h : skip ≤ bytes.length) :
    processFrom settings saved data position skip bytes p =
      processFrom settings saved data (position + skip) 0 (bytes.drop skip) p := by
  induction skip generalizing bytes position with
  | zero => rfl
  | succ skip ih =>
      cases bytes with
      | nil => simp at h
      | cons byte bytes =>
          rw [processFrom, ih (position + 1) (by simpa using h), List.drop_succ_cons]
          congr 1
          omega

/-- The place that a parser is left at goes on to be one, once the state is saved. -/
theorem finish_at (hp : p.Sound) (h : At phase p) (hphase : phase ≠ .trailer) (size : Nat) :
    ∃ q, p.finish size = .processed size q ∧ q.Sound ∧ At phase q := by
  have hstate : p.state ≠ .bodyIdentityEof := by
    intro heof
    cases phase <;> simp [At, heof] at h
    exact hphase rfl
  refine ⟨{ p with index := p.index % 256 }, by rw [finish, if_neg hstate], ⟨hp.readCount, hp.chunked, hp.alive, hp.name, hp.value⟩, ?_⟩
  cases phase <;> exact h

/-- What is done with the bytes behind a byte is what is done with it and them. -/
theorem Answers.cons {data : Nat} {read rest : Bytes} {given : List (Nat × Nat)} {next : ChunkPhase} {outcome : Processed}
    {goesOn : ChunkPhase → HttpParser → Prop} (h : Answers data read given next rest outcome goesOn)
    (hstep : phase.step byte = some next) (hpayload : phase.payload byte = []) :
    Answers data read given phase (byte :: rest) outcome goesOn := by
  obtain ⟨slices, hbodies, hinside, hnone, hsome⟩ := h
  have hdecode : phase.decode (byte :: rest) = next.decode rest := by
    rw [decode_cons, hstep, Option.bind_some, hpayload]
    cases next.decode rest <;> rfl
  exact ⟨slices, hbodies, hinside, hdecode ▸ hnone, hdecode ▸ hsome⟩

/-- A slice is given before those that are given behind it. -/
theorem Answers.given {data left : Nat} {read before taken rest : Bytes} {given : List (Nat × Nat)} {outcome : Processed}
    {goesOn : ChunkPhase → HttpParser → Prop} (hread : read = before ++ (taken ++ rest)) (hne : taken ≠ [])
    (hle : taken.length ≤ left)
    (h : Answers data read ((data + before.length, taken.length) :: given) (behind left taken.length) rest outcome goesOn) :
    Answers data read given (.data left) (taken ++ rest) outcome goesOn := by
  obtain ⟨slices, hbodies, hinside, hnone, hsome⟩ := h
  have hslice : sliceText data read (data + before.length, taken.length) = taken := by
    simp [sliceText, hread]
  refine ⟨slices ++ [(data + before.length, taken.length)], by simp [hbodies], fun slice hin => ?_, fun hdecode => ?_,
    fun next chunks hdecode => ?_⟩
  · rcases List.mem_append.mp hin with hin | hin
    · exact hinside slice hin
    · rw [List.mem_singleton.mp hin, hread]
      simp only [List.length_append]
      omega
  · rw [decode_data hne hle, Option.map_eq_none_iff] at hdecode
    exact hnone hdecode
  · rw [decode_data hne hle] at hdecode
    obtain ⟨result, hresult, heq⟩ := Option.map_eq_some_iff.mp hdecode
    cases heq
    obtain ⟨hchunks, hgoes⟩ := hsome _ _ hresult
    refine ⟨?_, hgoes⟩
    rw [List.reverse_append, List.reverse_singleton, List.singleton_append, List.flatMap_cons, hslice, hchunks]

theorem answers_from (settings : HttpSettings) (saved : HttpParser) (data : Nat) {read before bytes : Bytes} (hread : read = before ++ bytes) (hp : p.Sound)
    (h : At phase p) (hcount : phase ≠ .trailer → p.parseCount = 0) (hfits : phase.Fits bytes) :
    Answers data read p.bodies phase bytes (processFrom settings saved data before.length 0 bytes p)
      (fun next q => q.Sound ∧ At next q) := by
  induction hlength : bytes.length using Nat.strong_induction_on generalizing p phase before bytes with
  | _ length ih =>
      by_cases htrailer : phase = .trailer
      · subst htrailer
        refine ⟨[], trailer_bodies data before.length 0 hp h, by simp, fun hnone => ?_, fun next chunks hdecode => ?_⟩
        · rw [decode_trailer] at hnone
          cases hnone
        · rw [decode_trailer] at hdecode
          cases hdecode
          exact ⟨rfl, .inl rfl⟩
      · cases bytes with
        | nil =>
            obtain ⟨q, hfinish, hsound, hat⟩ := finish_at hp h htrailer before.length
            rw [processFrom]
            refine ⟨[], bodies_finish p _, by simp, by simp, fun next chunks hdecode => ?_⟩
            rw [decode_nil] at hdecode
            cases hdecode
            refine ⟨rfl, .inr ⟨q, ?_, fun value hvalue => hat.length hvalue, hsound, hat⟩⟩
            rw [hfinish, hread, List.append_nil]
        | cons byte rest =>
            have hzero : ¬0 < p.parseCount := by
              rw [hcount htrailer]
              exact lt_irrefl 0
            rw [processFrom, if_neg hzero]
            by_cases hdata : ∃ left, phase = .data left
            · obtain ⟨left, rfl⟩ := hdata
              have hpos : 0 < left := h.2.2.1
              obtain ⟨q, hstep, hsound, hbodies, hcount', hat⟩ :=
                chunkData_eq settings (data + before.length) byte hp h (Nat.succ_pos rest.length)
              have hskip : min (rest.length + 1) left - 1 ≤ rest.length := by omega
              obtain ⟨taken, htaken⟩ : ∃ taken, taken = byte :: rest.take (min (rest.length + 1) left - 1) := ⟨_, rfl⟩
              have hlengthTaken : taken.length = min (rest.length + 1) left := by
                rw [htaken, List.length_cons, List.length_take]
                omega
              have hsplit : byte :: rest = taken ++ rest.drop (min (rest.length + 1) left - 1) := by
                rw [htaken, List.cons_append, List.take_append_drop]
              have hne : taken ≠ [] := by simp [htaken]
              have hle : taken.length ≤ left := by omega
              rw [hstep]
              dsimp only
              rw [processFrom_skip _ _ _ hskip]
              rw [hsplit] at hread hfits ⊢
              rw [← hlengthTaken] at hbodies hat
              have hfits' := (fits_append hfits).2 (behind left taken.length) taken (by
                simpa using decode_data hne hle [])
              have hshorter : (rest.drop (min (rest.length + 1) left - 1)).length < length := by
                rw [← hlength, List.length_drop, List.length_cons]
                omega
              have hread' : read = (before ++ taken) ++ rest.drop (min (rest.length + 1) left - 1) := by
                rw [hread, List.append_assoc]
              have hrest := ih _ hshorter hread' hsound hat (fun _ => hcount'.trans (hcount htrailer)) hfits' rfl
              have hposition : (before ++ taken).length = before.length + 1 + (min (rest.length + 1) left - 1) := by
                rw [List.length_append, hlengthTaken]
                omega
              rw [hbodies, hposition] at hrest
              exact hrest.given hread hne hle
            · have hother : ∀ left, phase ≠ .data left := fun left heq => hdata ⟨left, heq⟩
              have hleads : Leads p phase byte (p.processByte settings (data + before.length) (rest.length + 1) byte) :=
                leads_of_fits hp h htrailer hother hfits
              have hpayload : phase.payload byte = [] := by
                cases phase <;> first | rfl | exact absurd rfl (hother _)
              cases hstep : p.processByte settings (data + before.length) (rest.length + 1) byte with
              | next skip q =>
                  rw [hstep] at hleads
                  obtain ⟨rfl, hbodies, hsound, hcount', next, hnext, hat⟩ := hleads
                  have hshorter : rest.length < length := by simp [← hlength]
                  have hread' : read = (before ++ [byte]) ++ rest := by simp [hread]
                  have hrest := ih _ hshorter hread' hsound hat (fun _ => hcount'.trans (hcount htrailer))
                    (hfits.2 next hnext).2 rfl
                  rw [hbodies, List.length_append] at hrest
                  exact hrest.cons hnext hpayload
              | refused q =>
                  rw [hstep] at hleads
                  refine ⟨[], hleads.1, by simp, fun _ => ⟨_, rfl⟩, fun next chunks hdecode => ?_⟩
                  rw [decode_cons, hleads.2] at hdecode
                  cases hdecode
              | returned behind q =>
                  rw [hstep] at hleads
                  exact hleads.elim
              | strayed q =>
                  rw [hstep] at hleads
                  exact hleads.elim

/-- So it does with every read of a body, until the last chunk is read. -/
def Served (settings : HttpSettings) : List (Nat × Bytes) → ChunkPhase → HttpParser → Prop
  | [], _, _ => True
  | read :: reads, phase, p =>
      Answers read.1 read.2 p.bodies phase read.2 (receive settings (.processed 0 p) read) (Served settings reads)

theorem reset_of_at (h : At phase p) (hphase : phase ≠ .trailer) : p.reset = p := by
  have hstate : p.state ≠ .startReq := by
    intro hstart
    cases phase <;> simp [At, hstart] at h
    exact hphase rfl
  rw [reset, if_neg hstate]

theorem served_of_at {reads : List (Nat × Bytes)} (hreads : ∀ read ∈ reads, read.2 ≠ []) (hp : p.Sound) (h : At phase p)
    (hphase : phase ≠ .trailer) (hfits : phase.Fits (reads.flatMap Prod.snd)) : Served settings reads phase p := by
  induction reads generalizing p phase with
  | nil => trivial
  | cons read reads ih =>
      obtain ⟨hread, hrest⟩ := List.forall_mem_cons.mp hreads
      obtain ⟨hfits, hlater⟩ := fits_append hfits
      have hstart : ({ p with parseCount := 0 } : HttpParser).Sound := ⟨hp.readCount, hp.chunked, hp.alive, hp.name, hp.value⟩
      have hat : At phase { p with parseCount := 0 } := by
        cases phase <;> first | exact h | exact absurd rfl hphase
      obtain ⟨slices, hbodies, hinside, hnone, hsome⟩ := answers_from settings p read.1
        (show read.2 = [] ++ read.2 from rfl) hstart hat (fun _ => rfl) hfits
      simp only [List.length_nil] at hbodies hinside hnone hsome
      have hdata : p.processData settings read.1 read.2 =
          processFrom settings p read.1 0 0 read.2 { p with parseCount := 0 } := if_neg hread
      rw [← hdata] at hbodies hnone hsome
      refine ⟨slices, ?_, hinside, fun hdecode => ?_, fun next chunks hdecode => ?_⟩
      · rw [receive, ← show ({ p with parseCount := 0 } : HttpParser).bodies = p.bodies from rfl, ← hbodies]
        cases p.processData settings read.1 read.2 with
        | processed size q =>
            show q.reset.bodies = q.bodies
            rw [reset]
            split <;> rfl
        | error q => rfl
        | strayed q => rfl
      · obtain ⟨q, hq⟩ := hnone hdecode
        exact ⟨q, by simp only [receive, hq]⟩
      · obtain ⟨hchunks, hgoes⟩ := hsome next chunks hdecode
        refine ⟨hchunks, ?_⟩
        rcases hgoes with htrailer | ⟨q, hq, hvalue, hsound, hnext⟩
        · exact .inl htrailer
        · by_cases htrailer : next = .trailer
          · exact .inl htrailer
          · refine .inr ⟨q, by simp only [receive, hq, reset_of_at hnext htrailer], hvalue, ?_⟩
            exact ih hrest hsound hnext htrailer (hlater next chunks hdecode)

end HttpParser

end Viriatum
