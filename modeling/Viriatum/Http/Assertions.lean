import Viriatum.Http.Parser

/-!
# The assertions of the parser of HTTP/1

All but one of them hold in every run of a parser. The one about the count of the bytes that have been read fails for every
byte that the size of a chunk starts with, as nothing ever counts them.
-/

namespace Viriatum

namespace HttpParserState

/-- The states of the body of a message that is sent in chunks. -/
def isChunk : HttpParserState → Bool
  | .chunkSizeStart => true
  | .chunkSize => true
  | .chunkParameters => true
  | .chunkSizeAlmostDone => true
  | .chunkData => true
  | .chunkDataAlmostDone => true
  | .chunkDataDone => true
  | _ => false

/-- The states of the fields of a message, which come behind the last chunk as well. -/
def isHeader : HttpParserState → Bool
  | .headerFieldStart => true
  | .headerField => true
  | .headerValueStart => true
  | .headerValue => true
  | .headerValueLws => true
  | .headerAlmostDone => true
  | .headersAlmostDone => true
  | _ => false

/-- The states that no assertion is about. -/
def isPlain (state : HttpParserState) : Bool :=
  !state.isChunk && state != .dead && state != .headerField && state != .headerValue

end HttpParserState

/-- The states that the name of a field is read in. -/
def HttpHeaderState.isName : HttpHeaderState → Bool
  | .unset => false
  | .matchingTransferEncodingChunked => false
  | .matchingConnectionKeepAlive => false
  | .matchingConnectionClose => false
  | .transferEncodingChunked => false
  | .connectionKeepAlive => false
  | .connectionClose => false
  | _ => true

/-- The states that a value is read in behind its first byte. -/
def HttpHeaderState.isValue : HttpHeaderState → Bool
  | .connection => false
  | .transferEncoding => false
  | _ => true

namespace HttpParser

open HttpParserState Library

/-- The assertions that have failed, the latest first. -/
def failures (p : HttpParser) : List HttpAssertion :=
  p.events.filterMap fun event => match event with
    | .failed assertion => some assertion
    | _ => none

/-- The slices that have been given to the handler as its body, the latest first. -/
def bodies (p : HttpParser) : List (Nat × Nat) :=
  p.events.filterMap fun event => match event with
    | .body address length => some (address, length)
    | _ => none

/-- What the assertions are about, between two bytes. -/
structure Sound (p : HttpParser) : Prop where
  readCount : p.readCount = 0
  chunked : p.state.isChunk = true → p.flags.chunked = true
  alive : p.state ≠ .dead
  name : p.state = .headerField → p.headerState.isName = true
  value : p.state = .headerValue → p.headerState.isValue = true

/-- The parser is in the chunks of a message, or in the fields behind them. -/
def Trailed (p : HttpParser) : Prop :=
  p.flags.chunked = true ∧ (p.state.isChunk = true ∨ p.flags.trailing = true ∧ p.state.isHeader = true)

variable {settings : HttpSettings} {p q : HttpParser} {byte : UInt8} {pointer available : Nat} {state : HttpParserState}

/-! ## The first line of a message -/

/-- A step from a state of the first line to one that no assertion is about. -/
def OnLine (p : HttpParser) : HttpStep → Prop
  | .next _ q => q.state.isPlain = true ∧ q.readCount = p.readCount ∧ q.failures = p.failures
  | .refused q => q.failures = p.failures
  | .returned _ _ => False
  | .strayed _ => False

theorem OnLine.enter (hplain : state.isPlain = true) (hcount : q.readCount = p.readCount)
    (hsame : q.failures = p.failures) : OnLine p (q.enter state) := ⟨hplain, hcount, hsame⟩

theorem OnLine.stay (hplain : q.state.isPlain = true) (hcount : q.readCount = p.readCount)
    (hsame : q.failures = p.failures) : OnLine p q.stay := ⟨hplain, hcount, hsame⟩

theorem OnLine.refused (hsame : q.failures = p.failures) : OnLine p (.refused q) := hsame

theorem OnLine.lineDone (hcount : q.readCount = p.readCount) (hsame : q.failures = p.failures) :
    OnLine p q.lineDone := ⟨rfl, hcount, hsame⟩

theorem onLine_startReqMethodAssign (hcount : q.readCount = p.readCount) (hsame : q.failures = p.failures) :
    OnLine p (q.startReqMethodAssign byte) := by
  unfold startReqMethodAssign
  split
  · exact .refused hsame
  · exact .enter rfl hcount hsame

theorem onLine_startReq (hplain : p.state.isPlain = true) : OnLine p (p.startReq byte) := by
  unfold startReq
  dsimp only
  split_ifs
  · exact .stay hplain rfl rfl
  · exact .refused rfl
  · exact onLine_startReqMethodAssign rfl rfl

theorem onLine_startReqOrRes (hplain : p.state.isPlain = true) : OnLine p (p.startReqOrRes byte) := by
  unfold startReqOrRes
  dsimp only
  split_ifs
  · exact .stay hplain rfl rfl
  · exact .enter rfl rfl rfl
  · exact onLine_startReqMethodAssign rfl rfl

theorem onLine_resOrRespH : OnLine p (p.resOrRespH byte) := by
  unfold resOrRespH
  split_ifs
  · exact .enter rfl rfl rfl
  · exact .refused rfl
  · exact .enter rfl rfl rfl

theorem onLine_startRes (hplain : p.state.isPlain = true) : OnLine p (p.startRes byte) := by
  unfold startRes
  dsimp only
  split_ifs
  · exact .enter rfl rfl rfl
  · exact .stay hplain rfl rfl
  · exact .refused rfl

theorem onLine_firstHttpMajor (hstate : state.isPlain = true) : OnLine p (p.firstHttpMajor state byte) := by
  unfold firstHttpMajor
  split_ifs
  · exact .refused rfl
  · exact .enter hstate rfl rfl

theorem onLine_httpMajorDigit (hplain : p.state.isPlain = true) (hstate : state.isPlain = true) :
    OnLine p (p.httpMajorDigit state byte) := by
  unfold httpMajorDigit
  dsimp only
  split_ifs
  · exact .enter hstate rfl rfl
  · exact .refused rfl
  · exact .refused rfl
  · exact .stay hplain rfl rfl

theorem onLine_firstHttpMinor (hstate : state.isPlain = true) : OnLine p (p.firstHttpMinor state byte) := by
  unfold firstHttpMinor
  split_ifs
  · exact .refused rfl
  · exact .enter hstate rfl rfl

theorem onLine_httpMinorDigit (hplain : p.state.isPlain = true) : OnLine p (p.httpMinorDigit byte) := by
  unfold httpMinorDigit
  dsimp only
  split_ifs
  · exact .refused rfl
  · exact .refused rfl
  · exact .stay hplain rfl rfl

theorem onLine_resHttpMinor (hplain : p.state.isPlain = true) : OnLine p (p.resHttpMinor byte) := by
  unfold resHttpMinor
  split_ifs
  · exact .enter rfl rfl rfl
  · exact onLine_httpMinorDigit hplain

theorem onLine_resFirstStatusCode (hplain : p.state.isPlain = true) : OnLine p (p.resFirstStatusCode byte) := by
  unfold resFirstStatusCode
  split_ifs
  · exact .stay hplain rfl rfl
  · exact .refused rfl
  · exact .enter rfl rfl rfl

theorem onLine_resStatusCode (hplain : p.state.isPlain = true) : OnLine p (p.resStatusCode byte) := by
  unfold resStatusCode
  dsimp only
  split_ifs
  · exact .enter rfl rfl rfl
  · exact .enter rfl rfl rfl
  · exact .lineDone rfl rfl
  · exact .refused rfl
  · exact .refused rfl
  · exact .stay hplain rfl rfl

theorem onLine_resStatus (hplain : p.state.isPlain = true) : OnLine p (p.resStatus byte) := by
  unfold resStatus
  split_ifs
  · exact .enter rfl rfl rfl
  · exact .lineDone rfl rfl
  · exact .stay hplain rfl rfl

theorem onLine_reqMethod (hplain : p.state.isPlain = true) : OnLine p (p.reqMethod byte) := by
  unfold reqMethod
  dsimp only
  split_ifs
  · exact .refused rfl
  · exact .enter rfl rfl rfl
  · exact .stay hplain rfl rfl
  · split
    · exact .refused rfl
    · exact .stay hplain rfl rfl

/-- The callback with the target changes the events and its mark. -/
theorem callbackUrl_same (pointer : Nat) (p : HttpParser) :
    (p.callbackUrl pointer).readCount = p.readCount ∧ (p.callbackUrl pointer).failures = p.failures := by
  unfold callbackUrl
  split <;> exact ⟨rfl, rfl⟩

theorem onLine_url (hstate : state.isPlain = true) : OnLine p ((p.callbackUrl pointer).enter state) :=
  ⟨hstate, callbackUrl_same pointer p⟩

theorem onLine_urlDone {other : HttpStep} (hother : OnLine p other) : OnLine p (p.urlDone pointer byte other) := by
  unfold urlDone
  split_ifs
  · exact onLine_url rfl
  · exact ⟨rfl, callbackUrl_same pointer p⟩
  · exact ⟨rfl, callbackUrl_same pointer p⟩
  · exact hother

theorem onLine_reqSpacesBeforeUrl (hplain : p.state.isPlain = true) :
    OnLine p (p.reqSpacesBeforeUrl pointer byte) := by
  unfold reqSpacesBeforeUrl
  split_ifs
  · exact .stay hplain rfl rfl
  · exact .enter rfl rfl rfl
  · exact .enter rfl rfl rfl
  · exact .enter rfl rfl rfl
  · exact .refused rfl

theorem onLine_reqSchema (hplain : p.state.isPlain = true) : OnLine p (p.reqSchema byte) := by
  unfold reqSchema
  split_ifs
  · exact .stay hplain rfl rfl
  · exact .enter rfl rfl rfl
  · exact .refused rfl

theorem onLine_reqHost (hplain : p.state.isPlain = true) : OnLine p (p.reqHost pointer byte) := by
  unfold reqHost
  split_ifs
  · exact .stay hplain rfl rfl
  · exact .enter rfl rfl rfl
  · exact .enter rfl rfl rfl
  · exact onLine_url rfl
  · exact .enter rfl rfl rfl
  · exact .refused rfl

theorem onLine_reqPort (hplain : p.state.isPlain = true) : OnLine p (p.reqPort pointer byte) := by
  unfold reqPort
  split_ifs
  · exact .stay hplain rfl rfl
  · exact .enter rfl rfl rfl
  · exact onLine_url rfl
  · exact .enter rfl rfl rfl
  · exact .refused rfl

theorem onLine_reqPath (hplain : p.state.isPlain = true) : OnLine p (p.reqPath pointer byte) := by
  unfold reqPath
  split
  · exact .stay hplain rfl rfl
  · apply onLine_urlDone
    split_ifs
    · exact .enter rfl rfl rfl
    · exact .enter rfl rfl rfl
    · exact .refused rfl

theorem onLine_reqQueryStringStart (hplain : p.state.isPlain = true) :
    OnLine p (p.reqQueryStringStart pointer byte) := by
  unfold reqQueryStringStart
  split
  · exact .enter rfl rfl rfl
  · apply onLine_urlDone
    split_ifs
    · exact .stay hplain rfl rfl
    · exact .enter rfl rfl rfl
    · exact .refused rfl

theorem onLine_reqQueryString (hplain : p.state.isPlain = true) : OnLine p (p.reqQueryString pointer byte) := by
  unfold reqQueryString
  split
  · exact .stay hplain rfl rfl
  · apply onLine_urlDone
    split_ifs
    · exact .stay hplain rfl rfl
    · exact .enter rfl rfl rfl
    · exact .refused rfl

theorem onLine_reqFragmentStart (hplain : p.state.isPlain = true) : OnLine p (p.reqFragmentStart pointer byte) := by
  unfold reqFragmentStart
  split
  · exact .enter rfl rfl rfl
  · apply onLine_urlDone
    split_ifs
    · exact .enter rfl rfl rfl
    · exact .stay hplain rfl rfl
    · exact .refused rfl

theorem onLine_reqFragment (hplain : p.state.isPlain = true) : OnLine p (p.reqFragment pointer byte) := by
  unfold reqFragment
  split
  · exact .stay hplain rfl rfl
  · apply onLine_urlDone
    split_ifs
    · exact .stay hplain rfl rfl
    · exact .refused rfl

theorem onLine_reqHttpStart (hplain : p.state.isPlain = true) : OnLine p (p.reqHttpStart byte) := by
  unfold reqHttpStart
  split_ifs
  · exact .enter rfl rfl rfl
  · exact .stay hplain rfl rfl
  · exact .refused rfl

theorem onLine_reqHttpMinor (hplain : p.state.isPlain = true) : OnLine p (p.reqHttpMinor byte) := by
  unfold reqHttpMinor
  split_ifs
  · exact .enter rfl rfl rfl
  · exact .lineDone rfl rfl
  · exact onLine_httpMinorDigit hplain

theorem onLine_reqLineAlmostDone : OnLine p (p.reqLineAlmostDone byte) := by
  unfold reqLineAlmostDone
  split_ifs
  · exact .refused rfl
  · exact .lineDone rfl rfl

/-! ## The fields and the body -/

/-- What a byte that is not the first one of the size of a chunk does. The fields give no body, and those behind the last
chunk are followed by nothing else. -/
structure Meets (p q : HttpParser) : Prop where
  sound : q.Sound
  failures : q.failures = p.failures
  trailed : p.Trailed → q.Trailed ∨ 0 < q.parseCount
  bodies : p.state.isHeader = true → q.bodies = p.bodies
  trailer : p.state.isHeader = true → p.flags.trailing = true →
    q.state.isHeader = true ∧ q.flags.trailing = true ∨ 0 < q.parseCount

def Good (p : HttpParser) : HttpStep → Prop
  | .next _ q => Meets p q
  | .refused q => q.failures = p.failures ∧ (p.state.isHeader = true → q.bodies = p.bodies)
  | .returned behind q => q.failures = p.failures ∧ ¬ p.Trailed ∧ (behind = false → q.state.isPlain = true)
  | .strayed q => q.failures = p.failures

theorem Sound.of_plain (hcount : p.readCount = 0) (hplain : p.state.isPlain = true) : p.Sound where
  readCount := hcount
  chunked := by
    intro hchunk
    simp [isPlain, hchunk] at hplain
  alive := by
    intro hdead
    simp [hdead, isPlain, isChunk] at hplain
  name := by
    intro hfield
    simp [hfield, isPlain, isChunk] at hplain
  value := by
    intro hvalue
    simp [hvalue, isPlain, isChunk] at hplain

/-- No message in chunks is at its first line. -/
theorem OnLine.good {step : HttpStep} (h : OnLine p step) (hp : p.Sound) (hchunk : p.state.isChunk = false)
    (hheader : p.state.isHeader = false) : Good p step := by
  have hnot : ¬ p.Trailed := by
    intro htrailed
    cases htrailed.2 with
    | inl hin => simp [hchunk] at hin
    | inr hin => simp [hheader] at hin
  have hno : p.state.isHeader ≠ true := by simp [hheader]
  cases step with
  | next skip q =>
      exact ⟨.of_plain (h.2.1.trans hp.readCount) h.1, h.2.2, fun htrailed => absurd htrailed hnot,
        fun hin => absurd hin hno, fun hin => absurd hin hno⟩
  | refused q => exact ⟨h, fun hin => absurd hin hno⟩
  | returned behind q => exact h.elim
  | strayed q => exact h.elim

/-- What the fields of a message leave as it is. -/
structure Keeps (p q : HttpParser) : Prop where
  chunked : p.flags.chunked = true → q.flags.chunked = true
  trailing : p.flags.trailing = true → q.flags.trailing = true
  readCount : q.readCount = p.readCount
  failures : q.failures = p.failures
  bodies : q.bodies = p.bodies

theorem Keeps.refl (p : HttpParser) : Keeps p p := ⟨id, id, rfl, rfl, rfl⟩

theorem Keeps.meets (h : Keeps p q) (hp : p.Sound) (hheader : p.state.isHeader = true)
    (hstate : q.state.isHeader = true) (hname : q.state = .headerField → q.headerState.isName = true)
    (hvalue : q.state = .headerValue → q.headerState.isValue = true) : Meets p q := by
  have hnot : ∀ state : HttpParserState, state.isHeader = true → state.isChunk = false ∧ state ≠ .dead := by
    intro state hin
    cases state <;> simp [isHeader, isChunk] at hin ⊢
  refine ⟨⟨h.readCount.trans hp.readCount, ?_, (hnot _ hstate).2, hname, hvalue⟩, h.failures, ?_, fun _ => h.bodies,
    fun _ htrailing => .inl ⟨hstate, h.trailing htrailing⟩⟩
  · intro hchunk
    rw [(hnot _ hstate).1] at hchunk
    cases hchunk
  · intro htrailed
    cases htrailed.2 with
    | inl hchunk =>
        rw [(hnot _ hheader).1] at hchunk
        cases hchunk
    | inr hin => exact .inl ⟨h.chunked htrailed.1, .inr ⟨h.trailing hin.1, hstate⟩⟩

theorem meets_messageComplete (hcount : q.readCount = 0) (hsame : q.failures = p.failures)
    (hbodies : p.state.isHeader = true → q.bodies = p.bodies) : Meets p q.messageComplete := by
  refine ⟨.of_plain hcount ?_, hsame, fun _ => .inr (Nat.succ_pos _), hbodies, fun _ _ => .inr (Nat.succ_pos _)⟩
  show q.startState.isPlain = true
  rw [startState]
  split <;> rfl

theorem good_bodyStart (hnot : ¬ p.Trailed) (htrailing : p.flags.trailing ≠ true) (hcount : q.readCount = 0)
    (hsame : q.failures = p.failures) (hbodies : q.bodies = p.bodies) : Good p q.bodyStart := by
  have htrailed : ∀ {r : HttpParser}, p.Trailed → r.Trailed ∨ 0 < r.parseCount := fun h => absurd h hnot
  unfold bodyStart
  split_ifs with hupgrade hskip hchunked
  · exact ⟨hsame, hnot, nofun⟩
  · exact meets_messageComplete hcount hsame fun _ => hbodies
  · exact ⟨⟨hcount, fun _ => hchunked, nofun, nofun, nofun⟩, hsame, htrailed, fun _ => hbodies,
      fun _ h => absurd h htrailing⟩
  · exact meets_messageComplete hcount hsame fun _ => hbodies
  · exact ⟨.of_plain hcount rfl, hsame, htrailed, fun _ => hbodies, fun _ h => absurd h htrailing⟩
  · exact meets_messageComplete hcount hsame fun _ => hbodies
  · exact ⟨.of_plain hcount rfl, hsame, htrailed, fun _ => hbodies, fun _ h => absurd h htrailing⟩

theorem good_headersAlmostDone (hp : p.Sound) (hheader : p.state.isHeader = true) (h : Keeps p q)
    (hflags : q.flags = p.flags) (hstate : q.state.isPlain = true) : Good p (q.headersAlmostDone settings) := by
  have hcount : q.readCount = 0 := h.readCount.trans hp.readCount
  unfold headersAlmostDone
  split
  · exact meets_messageComplete hcount h.failures fun _ => h.bodies
  · next htrailing =>
      rw [hflags] at htrailing
      have hnot : ¬ p.Trailed := by
        intro htrailed
        cases htrailed.2 with
        | inl hchunk =>
            revert hheader hchunk
            cases p.state <;> simp [isHeader, isChunk]
        | inr hin => exact htrailing hin.1
      unfold headersComplete
      dsimp only
      split
      · exact good_bodyStart hnot htrailing rfl h.failures h.bodies
      · exact good_bodyStart hnot htrailing rfl h.failures h.bodies
      · exact ⟨h.failures, hnot, fun _ => hstate⟩

theorem good_headerFieldStart (hp : p.Sound) (hheader : p.state.isHeader = true) (h : Keeps p q)
    (hflags : q.flags = p.flags) : Good p (q.headerFieldStart settings pointer byte) := by
  unfold headerFieldStart
  dsimp only
  split_ifs
  case pos =>
    have hnext : Keeps p (q.goto .headersAlmostDone) := ⟨h.chunked, h.trailing, h.readCount, h.failures, h.bodies⟩
    exact hnext.meets hp hheader rfl nofun nofun
  case pos =>
    exact good_headersAlmostDone hp hheader ⟨h.chunked, h.trailing, h.readCount, h.failures, h.bodies⟩ hflags rfl
  case pos => exact ⟨h.failures, fun _ => h.bodies⟩
  all_goals
    refine Keeps.meets ⟨h.chunked, h.trailing, h.readCount, h.failures, h.bodies⟩ hp hheader rfl (fun _ => rfl) nofun

theorem callbackHeaderField_same (pointer : Nat) (p : HttpParser) : Keeps p (p.callbackHeaderField pointer) := by
  unfold callbackHeaderField
  split <;> exact ⟨id, id, rfl, rfl, rfl⟩

theorem callbackHeaderValue_same (pointer : Nat) (p : HttpParser) : Keeps p (p.callbackHeaderValue pointer) := by
  unfold callbackHeaderValue
  split <;> exact ⟨id, id, rfl, rfl, rfl⟩

/-- The text that is matched tells what is found, or nothing. -/
theorem matchText_same (text : Bytes) (found : HttpHeaderState) (byte : UInt8) (p : HttpParser) :
    Keeps p (p.matchText text found byte) ∧ (p.matchText text found byte).state = p.state ∧
      ((p.matchText text found byte).headerState = .general ∨ (p.matchText text found byte).headerState = found ∨
        (p.matchText text found byte).headerState = p.headerState) := by
  unfold matchText
  dsimp only
  split_ifs
  · exact ⟨⟨id, id, rfl, rfl, rfl⟩, rfl, .inl rfl⟩
  · exact ⟨⟨id, id, rfl, rfl, rfl⟩, rfl, .inr (.inl rfl)⟩
  · exact ⟨⟨id, id, rfl, rfl, rfl⟩, rfl, .inr (.inr rfl)⟩

theorem meets_matchText_name {text : Bytes} {found : HttpHeaderState} (hp : p.Sound) (hstate : p.state = .headerField)
    (hfound : found.isName = true) (byte : UInt8) : Meets p (p.matchText text found byte) := by
  obtain ⟨hkeeps, hsame, hheader⟩ := matchText_same text found byte p
  have hname := hp.name hstate
  refine hkeeps.meets hp (by rw [hstate]; rfl) (by rw [hsame, hstate]; rfl) (fun _ => ?_) (by simp [hsame, hstate])
  rcases hheader with hgeneral | hfound' | hkept
  · rw [hgeneral]; rfl
  · rw [hfound']; exact hfound
  · rw [hkept]; exact hname

theorem meets_gotoHeader_name {headerState : HttpHeaderState} (hp : p.Sound) (hstate : p.state = .headerField)
    (hname : headerState.isName = true) (index : Nat) :
    Meets p ({ p with index }.gotoHeader headerState) :=
  Keeps.meets ⟨id, id, rfl, rfl, rfl⟩ hp (by rw [hstate]; rfl) (by rw [gotoHeader, hstate]; rfl) (fun _ => hname)
    (by simp [gotoHeader, hstate])

theorem meets_headerFieldToken (hp : p.Sound) (hstate : p.state = .headerField) :
    Meets p (p.headerFieldToken byte) := by
  have hname := hp.name hstate
  have hkept : Meets p p := (Keeps.refl p).meets hp (by rw [hstate]; rfl) (by rw [hstate]; rfl) (fun _ => hname)
    (by simp [hstate])
  have hgeneral : Meets p (if byte ≠ 32 then p.gotoHeader .general else p) := by
    split
    · exact meets_gotoHeader_name hp hstate rfl p.index
    · exact hkept
  unfold headerFieldToken
  cases hheader : p.headerState with
  | unset => simp [hheader, HttpHeaderState.isName] at hname
  | general => exact hkept
  | c => exact meets_gotoHeader_name hp hstate (by split <;> rfl) _
  | co => exact meets_gotoHeader_name hp hstate (by split <;> rfl) _
  | con => exact meets_gotoHeader_name hp hstate (by split_ifs <;> rfl) _
  | matchingConnection => exact meets_matchText_name hp hstate rfl _
  | matchingProxyConnection => exact meets_matchText_name hp hstate rfl _
  | matchingContentLength => exact meets_matchText_name hp hstate rfl _
  | matchingTransferEncoding => exact meets_matchText_name hp hstate rfl _
  | matchingUpgrade => exact meets_matchText_name hp hstate rfl _
  | connection => exact hgeneral
  | contentLength => exact hgeneral
  | transferEncoding => exact hgeneral
  | upgrade => exact hgeneral
  | matchingTransferEncodingChunked => simp [hheader, HttpHeaderState.isName] at hname
  | matchingConnectionKeepAlive => simp [hheader, HttpHeaderState.isName] at hname
  | matchingConnectionClose => simp [hheader, HttpHeaderState.isName] at hname
  | transferEncodingChunked => simp [hheader, HttpHeaderState.isName] at hname
  | connectionKeepAlive => simp [hheader, HttpHeaderState.isName] at hname
  | connectionClose => simp [hheader, HttpHeaderState.isName] at hname

theorem good_headerField (hp : p.Sound) (hstate : p.state = .headerField) : Good p (p.headerField pointer byte) := by
  have hheader : p.state.isHeader = true := by rw [hstate]; rfl
  have hcallback := callbackHeaderField_same pointer p
  unfold headerField
  split_ifs
  · exact meets_headerFieldToken hp hstate
  · exact Keeps.meets ⟨hcallback.chunked, hcallback.trailing, hcallback.readCount, hcallback.failures, hcallback.bodies⟩ hp hheader rfl
      nofun nofun
  · have hlater := callbackHeaderField_same pointer (p.goto .headerAlmostDone)
    have hdone : ((p.goto .headerAlmostDone).callbackHeaderField pointer).state = .headerAlmostDone := by
      unfold callbackHeaderField
      split <;> rfl
    exact Keeps.meets ⟨hlater.chunked, hlater.trailing, hlater.readCount, hlater.failures, hlater.bodies⟩ hp hheader
      (by rw [hdone]; rfl) (by simp [hdone]) (by simp [hdone])
  · exact Keeps.meets ⟨hcallback.chunked, hcallback.trailing, hcallback.readCount, hcallback.failures, hcallback.bodies⟩ hp hheader rfl
      nofun nofun
  · exact ⟨rfl, fun _ => rfl⟩

/-- A step within a value. -/
theorem Keeps.value (h : Keeps p q) (hp : p.Sound) (hheader : p.state.isHeader = true)
    (hstate : q.state = .headerValue) (hvalue : q.headerState.isValue = true) : Meets p q :=
  h.meets hp hheader (by rw [hstate]; rfl) (by simp [hstate]) (fun _ => hvalue)

theorem good_headerValueFirst (hp : p.Sound) (hheader : p.state.isHeader = true) (h : Keeps p q)
    (hstate : q.state = .headerValue) : Good p (q.headerValueFirst byte) := by
  have hgoto : ∀ headerState : HttpHeaderState, headerState.isValue = true → Meets p (q.gotoHeader headerState) := by
    intro headerState hvalue
    exact Keeps.value ⟨h.chunked, h.trailing, h.readCount, h.failures, h.bodies⟩ hp hheader hstate hvalue
  unfold headerValueFirst
  split
  · exact Keeps.value ⟨h.chunked, h.trailing, h.readCount, h.failures, h.bodies⟩ hp hheader hstate rfl
  · exact hgoto _ (by split <;> rfl)
  · next hlength =>
      split
      · exact ⟨h.failures, fun _ => h.bodies⟩
      · exact Keeps.value ⟨h.chunked, h.trailing, h.readCount, h.failures, h.bodies⟩ hp hheader hstate
          (by show q.headerState.isValue = true; rw [hlength]; rfl)
  · exact hgoto _ (by split_ifs <;> rfl)
  · exact hgoto _ rfl

theorem good_headerValueStart (hp : p.Sound) (hstate : p.state = .headerValueStart) :
    Good p (p.headerValueStart pointer byte) := by
  have hheader : p.state.isHeader = true := by rw [hstate]; rfl
  have hmarked : Keeps p ({ p with headerValueMark := some pointer, index := 0 }.goto .headerValue) := ⟨id, id, rfl, rfl, rfl⟩
  have hcallback := callbackHeaderValue_same pointer
    ({ p with headerValueMark := some pointer, index := 0 }.goto .headerValue)
  unfold headerValueStart
  dsimp only
  split_ifs
  · exact (Keeps.refl p).meets hp hheader hheader (by simp [hstate]) (by simp [hstate])
  · exact Keeps.meets ⟨hcallback.chunked, hcallback.trailing, hcallback.readCount, hcallback.failures, hcallback.bodies⟩ hp hheader rfl
      nofun nofun
  · exact Keeps.meets ⟨hcallback.chunked, hcallback.trailing, hcallback.readCount, hcallback.failures, hcallback.bodies⟩ hp hheader rfl
      nofun nofun
  · exact good_headerValueFirst hp hheader hmarked rfl

theorem good_headerAlmostDone (hp : p.Sound) (hheader : p.state.isHeader = true) (h : Keeps p q) :
    Good p q.headerAlmostDone := by
  unfold headerAlmostDone
  dsimp only
  split
  · exact Keeps.meets ⟨h.chunked, h.trailing, h.readCount, h.failures, h.bodies⟩ hp hheader rfl nofun nofun
  · exact Keeps.meets ⟨h.chunked, h.trailing, h.readCount, h.failures, h.bodies⟩ hp hheader rfl nofun nofun
  · exact Keeps.meets ⟨fun _ => rfl, h.trailing, h.readCount, h.failures, h.bodies⟩ hp hheader rfl nofun nofun
  · exact Keeps.meets ⟨h.chunked, h.trailing, h.readCount, h.failures, h.bodies⟩ hp hheader rfl nofun nofun

theorem meets_matchText_value {text : Bytes} {found : HttpHeaderState} (hp : p.Sound) (hstate : p.state = .headerValue)
    (hfound : found.isValue = true) (byte : UInt8) : Meets p (p.matchText text found byte) := by
  obtain ⟨hkeeps, hsame, hheader⟩ := matchText_same text found byte p
  have hvalue := hp.value hstate
  apply hkeeps.value hp (by rw [hstate]; rfl) (hsame.trans hstate)
  rcases hheader with hgeneral | hfound' | hkept
  · rw [hgeneral]; rfl
  · rw [hfound']; exact hfound
  · rw [hkept]; exact hvalue

theorem good_headerValueToken (hp : p.Sound) (hstate : p.state = .headerValue) : Good p (p.headerValueToken byte) := by
  have hin : p.state.isHeader = true := by rw [hstate]; rfl
  have hvalue := hp.value hstate
  have hkept : Meets p p := (Keeps.refl p).value hp hin hstate hvalue
  have hgeneral : Meets p (p.gotoHeader .general) := Keeps.value ⟨id, id, rfl, rfl, rfl⟩ hp hin hstate rfl
  have hblank : Meets p (if byte ≠ 32 then p.gotoHeader .general else p) := by
    split
    · exact hgeneral
    · exact hkept
  unfold headerValueToken
  cases hheader : p.headerState with
  | general => exact hkept
  | connection => simp [hheader, HttpHeaderState.isValue] at hvalue
  | transferEncoding => simp [hheader, HttpHeaderState.isValue] at hvalue
  | contentLength =>
      dsimp only
      split_ifs
      · exact hkept
      · exact ⟨rfl, fun _ => rfl⟩
      · exact Keeps.value ⟨id, id, rfl, rfl, rfl⟩ hp hin hstate rfl
  | matchingTransferEncodingChunked => exact meets_matchText_value hp hstate rfl _
  | matchingConnectionKeepAlive => exact meets_matchText_value hp hstate rfl _
  | matchingConnectionClose => exact meets_matchText_value hp hstate rfl _
  | transferEncodingChunked => exact hblank
  | connectionKeepAlive => exact hblank
  | connectionClose => exact hblank
  | _ => exact Keeps.value ⟨id, id, rfl, rfl, rfl⟩ hp hin rfl rfl

theorem good_headerValue (hp : p.Sound) (hstate : p.state = .headerValue) : Good p (p.headerValue pointer byte) := by
  have hheader : p.state.isHeader = true := by rw [hstate]; rfl
  have hcallback := callbackHeaderValue_same pointer p
  unfold headerValue
  split_ifs
  · exact Keeps.meets ⟨hcallback.chunked, hcallback.trailing, hcallback.readCount, hcallback.failures, hcallback.bodies⟩ hp hheader rfl
      nofun nofun
  · exact good_headerAlmostDone hp hheader hcallback
  · exact good_headerValueToken hp hstate

theorem good_headerValueLws (hp : p.Sound) (hstate : p.state = .headerValueLws) :
    Good p (p.headerValueLws settings pointer byte) := by
  have hheader : p.state.isHeader = true := by rw [hstate]; rfl
  unfold headerValueLws
  split
  · exact Keeps.meets ⟨id, id, rfl, rfl, rfl⟩ hp hheader rfl nofun nofun
  · exact good_headerFieldStart hp hheader ⟨id, id, rfl, rfl, rfl⟩ rfl

/-! ## The bodies -/

/-- A step within the chunks, where the assertion about them holds. -/
theorem assert_chunked (hp : p.Sound) (hchunk : p.state.isChunk = true) : p.assert .chunked p.flags.chunked = p := by
  rw [assert, if_pos (hp.chunked hchunk)]

theorem isHeader_of_isChunk (hchunk : state.isChunk = true) : state.isHeader ≠ true := by
  cases state <;> simp [isChunk, isHeader] at hchunk ⊢

theorem meets_chunk (hp : p.Sound) (hchunk : p.state.isChunk = true) (hflags : q.flags = p.flags)
    (hcount : q.readCount = 0) (hstate : q.state.isChunk = true) (hsame : q.failures = p.failures) : Meets p q := by
  have hflag := hp.chunked hchunk
  have hname : q.state ≠ .dead ∧ q.state ≠ .headerField ∧ q.state ≠ .headerValue := by
    revert hstate
    cases q.state <;> simp [isChunk]
  have hno := isHeader_of_isChunk hchunk
  exact ⟨⟨hcount, fun _ => hflags ▸ hflag, hname.1, fun h => absurd h hname.2.1, fun h => absurd h hname.2.2⟩, hsame,
    fun htrailed => .inl ⟨hflags ▸ hflag, .inl hstate⟩, fun hin => absurd hin hno, fun hin => absurd hin hno⟩

theorem good_chunkSize (hp : p.Sound) (hstate : p.state = .chunkSize) : Good p (p.chunkSize byte) := by
  have hchunk : p.state.isChunk = true := by rw [hstate]; rfl
  unfold chunkSize
  rw [assert_chunked hp hchunk]
  dsimp only
  split_ifs
  · exact meets_chunk hp hchunk rfl hp.readCount rfl rfl
  · exact meets_chunk hp hchunk rfl hp.readCount rfl rfl
  · exact ⟨rfl, fun hin => absurd hin (isHeader_of_isChunk hchunk)⟩
  · exact meets_chunk hp hchunk rfl hp.readCount hchunk rfl

theorem good_chunkParameters (hp : p.Sound) (hstate : p.state = .chunkParameters) : Good p (p.chunkParameters byte) := by
  have hchunk : p.state.isChunk = true := by rw [hstate]; rfl
  unfold chunkParameters
  rw [assert_chunked hp hchunk]
  dsimp only
  split_ifs
  · exact meets_chunk hp hchunk rfl hp.readCount rfl rfl
  · exact meets_chunk hp hchunk rfl hp.readCount hchunk rfl

theorem good_chunkSizeAlmostDone (hp : p.Sound) (hstate : p.state = .chunkSizeAlmostDone) :
    Good p p.chunkSizeAlmostDone := by
  have hchunk : p.state.isChunk = true := by rw [hstate]; rfl
  unfold chunkSizeAlmostDone
  rw [assert_chunked hp hchunk]
  dsimp only
  split_ifs
  · exact ⟨⟨rfl, nofun, nofun, nofun, nofun⟩, rfl, fun _ => .inl ⟨hp.chunked hchunk, .inr ⟨rfl, rfl⟩⟩, fun _ => rfl,
      fun _ _ => .inl ⟨rfl, rfl⟩⟩
  · exact meets_chunk hp hchunk rfl rfl rfl rfl

theorem good_chunkData (hp : p.Sound) (hstate : p.state = .chunkData) : Good p (p.chunkData pointer available) := by
  have hchunk : p.state.isChunk = true := by rw [hstate]; rfl
  unfold chunkData
  rw [assert_chunked hp hchunk]
  dsimp only [moved]
  split_ifs
  all_goals first
    | rfl
    | exact meets_chunk hp hchunk rfl hp.readCount rfl rfl
    | exact meets_chunk hp hchunk rfl hp.readCount hchunk rfl

theorem good_bodyIdentity (hp : p.Sound) (hstate : p.state = .bodyIdentity) :
    Good p (p.bodyIdentity pointer available) := by
  have hnot : ¬ p.Trailed := by simp [Trailed, hstate, isChunk, isHeader]
  have hno : p.state.isHeader ≠ true := by simp [hstate, isHeader]
  unfold bodyIdentity
  dsimp only [moved]
  split_ifs
  · rfl
  · rfl
  · exact meets_messageComplete hp.readCount rfl fun hin => absurd hin hno
  · exact ⟨.of_plain hp.readCount (by show p.state.isPlain = true; rw [hstate]; rfl), rfl, fun h => absurd h hnot,
      fun hin => absurd hin hno, fun hin => absurd hin hno⟩
  · exact ⟨hp, rfl, fun h => absurd h hnot, fun hin => absurd hin hno, fun hin => absurd hin hno⟩

theorem good_bodyIdentityEof (hp : p.Sound) (hstate : p.state = .bodyIdentityEof) :
    Good p (p.bodyIdentityEof pointer available) := by
  have hnot : ¬ p.Trailed := by simp [Trailed, hstate, isChunk, isHeader]
  have hno : p.state.isHeader ≠ true := by simp [hstate, isHeader]
  unfold bodyIdentityEof
  dsimp only [moved]
  split
  · rfl
  · exact ⟨.of_plain hp.readCount (by show p.state.isPlain = true; rw [hstate]; rfl), rfl, fun h => absurd h hnot,
      fun hin => absurd hin hno, fun hin => absurd hin hno⟩

/-- A byte is handled without a failing assertion, unless the size of a chunk starts with it. -/
theorem good_processByte (hp : p.Sound) (hstart : p.state ≠ .chunkSizeStart) :
    Good p (p.processByte settings pointer available byte) := by
  have hline : ∀ {state : HttpParserState} {step : HttpStep}, p.state = state → state.isPlain = true →
      state.isChunk = false ∧ state.isHeader = false → (p.state.isPlain = true → OnLine p step) → Good p step := by
    intro state step hstate hplain hnot honline
    exact (honline (hstate ▸ hplain)).good hp (hstate ▸ hnot.1) (hstate ▸ hnot.2)
  unfold processByte
  cases hstate : p.state with
  | dead => exact absurd hstate hp.alive
  | headerFieldStart => exact good_headerFieldStart hp (by rw [hstate]; rfl) (Keeps.refl p) rfl
  | headerField => exact good_headerField hp hstate
  | headerValueStart => exact good_headerValueStart hp hstate
  | headerValue => exact good_headerValue hp hstate
  | headerAlmostDone => exact good_headerAlmostDone hp (by rw [hstate]; rfl) (Keeps.refl p)
  | headerValueLws => exact good_headerValueLws hp hstate
  | headersAlmostDone =>
      exact good_headersAlmostDone hp (by rw [hstate]; rfl) (Keeps.refl p) rfl (by rw [hstate]; rfl)
  | bodyIdentity => exact good_bodyIdentity hp hstate
  | bodyIdentityEof => exact good_bodyIdentityEof hp hstate
  | chunkSizeStart => exact absurd hstate hstart
  | chunkSize => exact good_chunkSize hp hstate
  | chunkParameters => exact good_chunkParameters hp hstate
  | chunkSizeAlmostDone => exact good_chunkSizeAlmostDone hp hstate
  | chunkData => exact good_chunkData hp hstate
  | chunkDataAlmostDone =>
      dsimp only
      rw [chunkDataAlmostDone, assert_chunked hp (by rw [hstate]; rfl)]
      exact meets_chunk hp (by rw [hstate]; rfl) rfl hp.readCount rfl rfl
  | chunkDataDone =>
      dsimp only
      rw [chunkDataDone, assert_chunked hp (by rw [hstate]; rfl)]
      exact meets_chunk hp (by rw [hstate]; rfl) rfl hp.readCount rfl rfl
  | startReqOrRes => exact hline hstate rfl ⟨rfl, rfl⟩ fun hplain => onLine_startReqOrRes hplain
  | resOrRespH => exact hline hstate rfl ⟨rfl, rfl⟩ fun _ => onLine_resOrRespH
  | startRes => exact hline hstate rfl ⟨rfl, rfl⟩ fun hplain => onLine_startRes hplain
  | resH => exact hline hstate rfl ⟨rfl, rfl⟩ fun _ => .enter rfl rfl rfl
  | resHt => exact hline hstate rfl ⟨rfl, rfl⟩ fun _ => .enter rfl rfl rfl
  | resHtt => exact hline hstate rfl ⟨rfl, rfl⟩ fun _ => .enter rfl rfl rfl
  | resHttp => exact hline hstate rfl ⟨rfl, rfl⟩ fun _ => .enter rfl rfl rfl
  | resFirstHttpMajor => exact hline hstate rfl ⟨rfl, rfl⟩ fun _ => onLine_firstHttpMajor rfl
  | resHttpMajor => exact hline hstate rfl ⟨rfl, rfl⟩ fun hplain => onLine_httpMajorDigit hplain rfl
  | resFirstHttpMinor => exact hline hstate rfl ⟨rfl, rfl⟩ fun _ => onLine_firstHttpMinor rfl
  | resHttpMinor => exact hline hstate rfl ⟨rfl, rfl⟩ fun hplain => onLine_resHttpMinor hplain
  | resFirstStatusCode => exact hline hstate rfl ⟨rfl, rfl⟩ fun hplain => onLine_resFirstStatusCode hplain
  | resStatusCode => exact hline hstate rfl ⟨rfl, rfl⟩ fun hplain => onLine_resStatusCode hplain
  | resStatus => exact hline hstate rfl ⟨rfl, rfl⟩ fun hplain => onLine_resStatus hplain
  | resLineAlmostDone => exact hline hstate rfl ⟨rfl, rfl⟩ fun _ => .lineDone rfl rfl
  | startReq => exact hline hstate rfl ⟨rfl, rfl⟩ fun hplain => onLine_startReq hplain
  | reqMethod => exact hline hstate rfl ⟨rfl, rfl⟩ fun hplain => onLine_reqMethod hplain
  | reqSpacesBeforeUrl => exact hline hstate rfl ⟨rfl, rfl⟩ fun hplain => onLine_reqSpacesBeforeUrl hplain
  | reqSchema => exact hline hstate rfl ⟨rfl, rfl⟩ fun hplain => onLine_reqSchema hplain
  | reqSchemaSlash => exact hline hstate rfl ⟨rfl, rfl⟩ fun _ => .enter rfl rfl rfl
  | reqSchemaSlashSlash => exact hline hstate rfl ⟨rfl, rfl⟩ fun _ => .enter rfl rfl rfl
  | reqHost => exact hline hstate rfl ⟨rfl, rfl⟩ fun hplain => onLine_reqHost hplain
  | reqPort => exact hline hstate rfl ⟨rfl, rfl⟩ fun hplain => onLine_reqPort hplain
  | reqPath => exact hline hstate rfl ⟨rfl, rfl⟩ fun hplain => onLine_reqPath hplain
  | reqQueryStringStart => exact hline hstate rfl ⟨rfl, rfl⟩ fun hplain => onLine_reqQueryStringStart hplain
  | reqQueryString => exact hline hstate rfl ⟨rfl, rfl⟩ fun hplain => onLine_reqQueryString hplain
  | reqFragmentStart => exact hline hstate rfl ⟨rfl, rfl⟩ fun hplain => onLine_reqFragmentStart hplain
  | reqFragment => exact hline hstate rfl ⟨rfl, rfl⟩ fun hplain => onLine_reqFragment hplain
  | reqHttpStart => exact hline hstate rfl ⟨rfl, rfl⟩ fun hplain => onLine_reqHttpStart hplain
  | reqHttpH => exact hline hstate rfl ⟨rfl, rfl⟩ fun _ => .enter rfl rfl rfl
  | reqHttpHt => exact hline hstate rfl ⟨rfl, rfl⟩ fun _ => .enter rfl rfl rfl
  | reqHttpHtt => exact hline hstate rfl ⟨rfl, rfl⟩ fun _ => .enter rfl rfl rfl
  | reqHttpHttp => exact hline hstate rfl ⟨rfl, rfl⟩ fun _ => .enter rfl rfl rfl
  | reqFirstHttpMajor => exact hline hstate rfl ⟨rfl, rfl⟩ fun _ => onLine_firstHttpMajor rfl
  | reqHttpMajor => exact hline hstate rfl ⟨rfl, rfl⟩ fun hplain => onLine_httpMajorDigit hplain rfl
  | reqFirstHttpMinor => exact hline hstate rfl ⟨rfl, rfl⟩ fun _ => onLine_firstHttpMinor rfl
  | reqHttpMinor => exact hline hstate rfl ⟨rfl, rfl⟩ fun hplain => onLine_reqHttpMinor hplain
  | reqLineAlmostDone => exact hline hstate rfl ⟨rfl, rfl⟩ fun _ => onLine_reqLineAlmostDone

/-- The first byte of the size of a chunk fails the assertion about the count of the bytes that have been read. -/
theorem chunkSizeStart_eq (hp : p.Sound) (hstart : p.state = .chunkSizeStart) :
    p.chunkSizeStart byte = if unhex byte = -1 then .refused (p.event (.failed .readCount))
      else { p.event (.failed .readCount) with contentLength := unhex byte }.enter .chunkSize := by
  have hflag := hp.chunked (by rw [hstart]; rfl)
  have hassert : (p.assert .readCount (p.readCount = 1)).assert .chunked p.flags.chunked = p.event (.failed .readCount) := by
    rw [assert, assert, if_pos hflag, if_neg (by simp [hp.readCount])]
  rw [chunkSizeStart, hassert]

theorem chunkSizeStart_fails (hp : p.Sound) (hstart : p.state = .chunkSizeStart) :
    Good (p.event (.failed .readCount)) (p.processByte settings pointer available byte) := by
  have hchunk : p.state.isChunk = true := by rw [hstart]; rfl
  have hsound : (p.event (.failed .readCount)).Sound := ⟨hp.readCount, hp.chunked, hp.alive, hp.name, hp.value⟩
  have hstep : p.processByte settings pointer available byte = p.chunkSizeStart byte := by simp [processByte, hstart]
  rw [hstep, chunkSizeStart_eq hp hstart]
  split
  · exact ⟨rfl, fun hin => absurd hin (isHeader_of_isChunk hchunk)⟩
  · exact meets_chunk hsound hchunk rfl hp.readCount rfl rfl

/-! ## Runs -/

/-- None of the data is the first byte of the size of a chunk. -/
def AvoidsFrom (settings : HttpSettings) (data : Nat) : (position skip : Nat) → Bytes → HttpParser → Prop
  | _, _, [], _ => True
  | position, skip + 1, _ :: rest, p => AvoidsFrom settings data (position + 1) skip rest p
  | position, 0, byte :: rest, p =>
      0 < p.parseCount ∨ p.state ≠ .chunkSizeStart ∧
        ∀ skip q, p.processByte settings (data + position) (rest.length + 1) byte = .next skip q →
          AvoidsFrom settings data (position + 1) skip rest q

/-- No byte that a connection hands to its parser is the first one of the size of a chunk. -/
def Avoids (settings : HttpSettings) : List (Nat × Bytes) → Processed → Prop
  | [], _ => True
  | read :: reads, outcome =>
      (∀ size p, outcome = .processed size p →
        read.2 = [] ∨ AvoidsFrom settings read.1 0 0 read.2 { p with parseCount := 0 }) ∧
      Avoids settings reads (receive settings outcome read)

/-- A call fails the one assertion a number of times, and leaves a parser that is sound where it goes on. -/
structure Fails (p : HttpParser) (avoided : Prop) (outcome : Processed) (count : Nat) : Prop where
  failures : outcome.parser.failures = List.replicate count .readCount ++ p.failures
  zero : count = 0 ↔ avoided
  sound : ∀ size q, outcome = .processed size q → q.Sound

theorem sound_finish (hp : p.Sound) (size : Nat) :
    (p.finish size).parser.failures = p.failures ∧ ∀ size' q, p.finish size = .processed size' q → q.Sound := by
  have hindex : ∀ r : HttpParser, r.Sound → ({ r with index := r.index % 256 } : HttpParser).Sound := fun r hr =>
    ⟨hr.readCount, hr.chunked, hr.alive, hr.name, hr.value⟩
  rw [finish]
  split
  · refine ⟨rfl, fun size' q heq => ?_⟩
    cases heq
    have hmeets : Meets p p.messageComplete := meets_messageComplete hp.readCount rfl fun _ => rfl
    exact hindex _ hmeets.sound
  · refine ⟨rfl, fun size' q heq => ?_⟩
    cases heq
    exact hindex _ hp

/-- What had been saved is sound again where the parser leaves. -/
theorem sound_leave {saved : HttpParser} (hsaved : saved.Sound) (hchunk : saved.state.isChunk = false) :
    (leave saved p).Sound where
  readCount := hsaved.readCount
  chunked := by
    intro hin
    rw [leave, hchunk] at hin
    cases hin
  alive := hsaved.alive
  name := hsaved.name
  value := hsaved.value

/-- A byte fails the one assertion where the size of a chunk starts with it, and does nothing worse. -/
theorem processByte_fails (settings : HttpSettings) (pointer available : Nat) (byte : UInt8) (hp : p.Sound) :
    ∃ base extra, Good base (p.processByte settings pointer available byte) ∧
    base.failures = List.replicate extra .readCount ++ p.failures ∧ (extra = 0 ↔ p.state ≠ .chunkSizeStart) ∧
      (p.Trailed → base.Trailed) ∧ (base.Trailed → p.Trailed) := by
  by_cases hstart : p.state = .chunkSizeStart
  · exact ⟨_, 1, chunkSizeStart_fails hp hstart, rfl, by simp [hstart], id, id⟩
  · exact ⟨p, 0, good_processByte hp hstart, rfl, by simp [hstart], id, id⟩

theorem processFrom_fails {saved : HttpParser} {data : Nat} (position skip : Nat) {bytes : Bytes} (hp : p.Sound)
    (hsaved : saved.Sound) (htrailed : saved.state.isChunk = true → p.parseCount = 0 → p.Trailed) :
    ∃ count, Fails p (AvoidsFrom settings data position skip bytes p)
      (processFrom settings saved data position skip bytes p) count := by
  induction bytes generalizing position skip p with
  | nil =>
      have hfinish := sound_finish hp position
      exact ⟨0, by simpa [processFrom] using hfinish.1, by simp [AvoidsFrom], by simpa [processFrom] using hfinish.2⟩
  | cons byte rest ih =>
      cases skip with
      | succ skip => exact ih (position + 1) skip hp htrailed
      | zero =>
          rw [processFrom, AvoidsFrom]
          by_cases hcount : p.parseCount > 0
          · rw [if_pos hcount]
            have hfinish := sound_finish hp position
            exact ⟨0, by simpa using hfinish.1, by simp [hcount], hfinish.2⟩
          · rw [if_neg hcount]
            have hzero : p.parseCount = 0 := Nat.eq_zero_of_not_pos hcount
            obtain ⟨base, extra, hgood, hbase, hextra, hto, hof⟩ :=
              processByte_fails settings (data + position) (rest.length + 1) byte hp
            cases hstep : p.processByte settings (data + position) (rest.length + 1) byte with
            | next skip q =>
                rw [hstep] at hgood
                have hnext : saved.state.isChunk = true → q.parseCount = 0 → q.Trailed := by
                  intro hchunk hnone
                  cases hgood.trailed (hto (htrailed hchunk hzero)) with
                  | inl hin => exact hin
                  | inr hdone => exact absurd hnone (Nat.pos_iff_ne_zero.mp hdone)
                obtain ⟨count, hfails⟩ := ih (position + 1) skip hgood.sound hnext
                refine ⟨count + extra, ?_, ?_, hfails.sound⟩
                · dsimp only
                  rw [hfails.failures, hgood.failures, hbase, ← List.append_assoc, List.replicate_append_replicate]
                · rw [Nat.add_eq_zero_iff, hextra, hfails.zero]
                  constructor
                  · intro h
                    refine .inr ⟨h.2, fun skip' q' heq => ?_⟩
                    cases heq
                    exact h.1
                  · intro h
                    have havoids := h.resolve_left hcount
                    exact ⟨havoids.2 skip q rfl, havoids.1⟩
            | refused q =>
                rw [hstep] at hgood
                refine ⟨extra, hgood.1.trans hbase, hextra.trans ?_, fun _ _ heq => by cases heq⟩
                simp [hcount]
            | returned behind q =>
                rw [hstep] at hgood
                have hchunk : saved.state.isChunk = false := by
                  cases hin : saved.state.isChunk with
                  | false => rfl
                  | true => exact absurd (hto (htrailed hin hzero)) hgood.2.1
                refine ⟨extra, ?_, ?_, ?_⟩
                · cases behind <;> exact hgood.1.trans hbase
                · rw [hextra]
                  simp [hcount]
                · intro size r heq
                  cases behind with
                  | true =>
                      cases heq
                      exact sound_leave hsaved hchunk
                  | false =>
                      cases heq
                      exact .of_plain hsaved.readCount (hgood.2.2 rfl)
            | strayed q =>
                rw [hstep] at hgood
                refine ⟨extra, hgood.trans hbase, hextra.trans ?_, fun _ _ heq => by cases heq⟩
                simp [hcount]

theorem processData_fails (settings : HttpSettings) (data : Nat) (bytes : Bytes) (hp : p.Sound) :
    ∃ count, Fails p (bytes = [] ∨ AvoidsFrom settings data 0 0 bytes { p with parseCount := 0 })
      (p.processData settings data bytes) count := by
  have hstart : ({ p with parseCount := 0 } : HttpParser).Sound := ⟨hp.readCount, hp.chunked, hp.alive, hp.name, hp.value⟩
  unfold processData
  split
  · next hempty =>
      refine ⟨0, ?_, by simp [hempty], ?_⟩
      · split <;> rfl
      · intro size q heq
        split at heq <;> cases heq
        · exact ⟨hp.readCount, hp.chunked, hp.alive, hp.name, hp.value⟩
        all_goals exact hp
  · next hdata =>
      obtain ⟨count, hfails⟩ := processFrom_fails 0 0 hstart hp fun hchunk _ => ⟨hp.chunked hchunk, .inl hchunk⟩
      exact ⟨count, hfails.failures, by rw [hfails.zero]; simp [hdata], hfails.sound⟩

theorem sound_reset (hp : p.Sound) : p.reset.Sound ∧ p.reset.failures = p.failures := by
  rw [reset]
  split
  · exact ⟨.of_plain rfl rfl, rfl⟩
  · exact ⟨hp, rfl⟩

/-- What the reads fail adds up. -/
theorem receiveAll_fails (settings : HttpSettings) (reads : List (Nat × Bytes)) {outcome : Processed}
    (h : ∀ size p, outcome = .processed size p → p.Sound) :
    ∃ count, (reads.foldl (receive settings) outcome).parser.failures =
        List.replicate count .readCount ++ outcome.parser.failures ∧
      (count = 0 ↔ Avoids settings reads outcome) := by
  induction reads generalizing outcome with
  | nil => exact ⟨0, rfl, by simp [Avoids]⟩
  | cons read reads ih =>
      rw [List.foldl_cons, Avoids]
      obtain ⟨extra, hfailures, hextra, hsound⟩ : ∃ extra, (receive settings outcome read).parser.failures =
          List.replicate extra .readCount ++ outcome.parser.failures ∧
          (extra = 0 ↔ ∀ size p, outcome = .processed size p →
            read.2 = [] ∨ AvoidsFrom settings read.1 0 0 read.2 { p with parseCount := 0 }) ∧
          ∀ size p, receive settings outcome read = .processed size p → p.Sound := by
        cases outcome with
        | error p => exact ⟨0, rfl, by simp, fun _ _ heq => by cases heq⟩
        | strayed p => exact ⟨0, rfl, by simp, fun _ _ heq => by cases heq⟩
        | processed size p =>
            obtain ⟨extra, hfails⟩ := processData_fails settings read.1 read.2 (h size p rfl)
            refine ⟨extra, ?_, ?_, ?_⟩
            · apply Eq.trans _ hfails.failures
              rw [receive]
              cases hdata : p.processData settings read.1 read.2 with
              | processed size' q => exact (sound_reset (hfails.sound size' q hdata)).2
              | error q => rfl
              | strayed q => rfl
            · rw [hfails.zero]
              exact ⟨fun h size' q heq => by cases heq; exact h, fun h => h size p rfl⟩
            · intro size' q heq
              simp only [receive] at heq
              cases hdata : p.processData settings read.1 read.2 with
              | processed size'' r =>
                  rw [hdata] at heq
                  cases heq
                  exact (sound_reset (hfails.sound _ r hdata)).1
              | error r =>
                  rw [hdata] at heq
                  cases heq
              | strayed r =>
                  rw [hdata] at heq
                  cases heq
      obtain ⟨count, hlater, hcount⟩ := ih hsound
      refine ⟨count + extra, ?_, ?_⟩
      · rw [hlater, hfailures, ← List.append_assoc, List.replicate_append_replicate]
      · rw [Nat.add_eq_zero_iff, hextra, hcount]
        exact and_comm

/-- In the runs that no size of a chunk starts in, and in no others, no assertion fails; and there is one that can. -/
theorem no_assertion_fails (settings : HttpSettings) (reads : List (Nat × Bytes)) :
    ((receiveAll settings reads).parser.failures = [] ↔
      Avoids settings reads (.processed 0 (createHttpParser true))) ∧
      ∀ assertion ∈ (receiveAll settings reads).parser.failures, assertion = .readCount := by
  have hstart : (createHttpParser true).Sound := .of_plain rfl rfl
  obtain ⟨count, hfailures, hcount⟩ := receiveAll_fails settings reads
    fun size p (heq : Processed.processed 0 (createHttpParser true) = .processed size p) => by cases heq; exact hstart
  have hnone : (Processed.processed 0 (createHttpParser true)).parser.failures = [] := rfl
  rw [hnone, List.append_nil] at hfailures
  rw [receiveAll, hfailures]
  refine ⟨?_, fun assertion hin => List.eq_of_mem_replicate hin⟩
  rw [List.replicate_eq_nil_iff, hcount]

/-- A body in chunks fails the assertion about the count with its first byte. -/
theorem not_no_assertion_fails : ¬ ∀ (settings : HttpSettings) (reads : List (Nat × Bytes)),
    (receiveAll settings reads).parser.failures = [] := by
  intro h
  have hfails := h (fun _ => .proceed) [(0, bytes "POST / HTTP/1.1\r\nTransfer-Encoding: chunked\r\n\r\n0")]
  revert hfails
  decide +kernel

end HttpParser

end Viriatum
