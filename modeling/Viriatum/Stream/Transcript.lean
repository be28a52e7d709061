import Viriatum.Stream.Acceptance
import Viriatum.Stream.Lemmas.Delivery
import Viriatum.Stream.Lemmas.Numbers

/-!
# The transcript of a message

What the peer has sent of a message and the session has accepted, with the calls that it is handed over by. In a
session that has met no error every message that has been begun has a transcript or has been promised.
-/

namespace Viriatum

open Library Http2Connection

/-- How a message has ended: with the frame of its headers, with a frame of payload or with a trailer section. -/
inductive Ending where
  | headers
  | data
  | trailers (fields : List HpackHeader)
deriving DecidableEq

structure Transcript where
  fields : List HpackHeader
  parts : List Bytes
  ending : Option Ending
deriving DecidableEq

/-- The intake of a message that has just been opened. -/
def Intake.fresh (address streamId : Nat) : Intake where
  block := { trailers := false }
  request := { address, streamId }
  contentLength := 0
  announced := false
  calls := [.messageBegin address]

/-- The calls that end a message. -/
def Ending.calls (address : Nat) : Option Ending → List Callback
  | none => []
  | some (.trailers fields) => fields.flatMap (Intake.fieldCalls address) ++ [.messageComplete address]
  | some _ => [.messageComplete address]

namespace Transcript

variable (address streamId : Nat)

/-- The intake of the headers. -/
def head (t : Transcript) : Intake := (Intake.fresh address streamId).accepted t.fields

def total (t : Transcript) : Nat := (t.parts.map List.length).sum

/-- The calls that hand the message over. -/
def calls (t : Transcript) : List Callback :=
  (t.head address streamId).calls ++ [.headersComplete address] ++ t.parts.map (.body address) ++
    Ending.calls address t.ending

/-- What the session makes sure of when a message ends. -/
def EndsWell (t : Transcript) : Prop :=
  match t.ending with
  | none => True
  | some .headers => t.parts = []
  | some .data => (t.head address streamId).announced = true → t.total = (t.head address streamId).contentLength
  | some (.trailers fields) => ∀ field ∈ fields, field.RegularForm

structure Sound (t : Transcript) : Prop where
  admissible : Admissible t.fields
  parts : ∀ part ∈ t.parts, part ≠ []
  ending : t.EndsWell address streamId

end Transcript

/-- The calls for a message are the ones of a transcript, or the ones of a promise. -/
def Heard (address : Nat) (calls : List Callback) : Prop :=
  calls = [] ∨ (∃ path, calls = promisedCalls address path) ∨
    ∃ (t : Transcript) (streamId : Nat), t.Sound address streamId ∧ calls = t.calls address streamId

/-- How a stream stands to the calls that have been made for its message; `waits` tells whether a block of it is being
assembled. -/
inductive Follows (waits : Prop) (core : StreamCore) (calls : List Callback) : Prop
  | awaiting (hwaits : waits) (hintake : core.intake = .fresh core.request.address core.request.streamId)
      (hreceived : core.received = 0) (hcalls : calls = []) : Follows waits core calls
  | promised (hwaits : ¬ waits) (hcomplete : core.headersComplete = true) (hend : core.endStream = true)
      (hcalls : ∃ path, calls = promisedCalls core.request.address path) : Follows waits core calls
  | receiving (t : Transcript) (streamId : Nat) (hsound : t.Sound core.request.address streamId) (hending : t.ending = none)
      (hcomplete : core.headersComplete = true) (hend : core.endStream = true ↔ waits)
      (hlength : core.contentLength = (t.head core.request.address streamId).contentLength)
      (hannounced : core.announced = (t.head core.request.address streamId).announced)
      (hreceived : core.received = t.total) (hcalls : calls = t.calls core.request.address streamId) :
      Follows waits core calls
  | ended (t : Transcript) (streamId : Nat) (hsound : t.Sound core.request.address streamId) (hending : t.ending ≠ none)
      (hwaits : ¬ waits) (hcomplete : core.headersComplete = true) (hend : core.endStream = true)
      (hcalls : calls = t.calls core.request.address streamId) : Follows waits core calls

namespace Follows

variable {waits waits' : Prop} {core core' : StreamCore} {calls : List Callback}

theorem heard (h : Follows waits core calls) : Heard core.request.address calls := by
  cases h with
  | awaiting _ _ _ hcalls => exact .inl hcalls
  | promised _ _ _ hcalls => exact .inr (.inl hcalls)
  | receiving t streamId hsound _ _ _ _ _ _ hcalls => exact .inr (.inr ⟨t, streamId, hsound, hcalls⟩)
  | ended t streamId hsound _ _ _ _ hcalls => exact .inr (.inr ⟨t, streamId, hsound, hcalls⟩)

theorem congr (h : Follows waits core calls) (hwaits : waits ↔ waits') : Follows waits' core calls := propext hwaits ▸ h

/-- A stream that the peer has not closed and that awaits no block is receiving. -/
theorem receiving_of_open (h : Follows waits core calls) (hwaits : ¬ waits) (hend : core.endStream = false) :
    ∃ (t : Transcript) (streamId : Nat), t.Sound core.request.address streamId ∧ t.ending = none ∧
      core.headersComplete = true ∧ core.contentLength = (t.head core.request.address streamId).contentLength ∧
      core.announced = (t.head core.request.address streamId).announced ∧ core.received = t.total ∧
      calls = t.calls core.request.address streamId := by
  cases h with
  | awaiting hw => exact absurd hw hwaits
  | promised _ _ hended => cases hend.symm.trans hended
  | receiving t streamId hsound hending hcomplete _ hlength hannounced hreceived hcalls =>
      exact ⟨t, streamId, hsound, hending, hcomplete, hlength, hannounced, hreceived, hcalls⟩
  | ended _ _ _ _ _ _ hended => cases hend.symm.trans hended

end Follows

namespace Http2Connection

/-- A block of the stream in a slot is being assembled. -/
def Assembles (s : Http2Connection) (slot : Nat) : Prop :=
  s.continuation ≠ 0 ∧ s.refused ≠ s.continuation ∧ (s.stream slot).streamId = s.continuation

/-- The calls made for the message of the stream in a slot. -/
abbrev callsAt (s : Http2Connection) (slot : Nat) : List Callback :=
  callsOf (s.stream slot).request.address s.history

/-- A session that has met no error. -/
structure Attends (s : Http2Connection) : Prop where
  follows : ∀ slot, slot < s.count → Follows (s.Assembles slot) (s.stream slot).core (s.callsAt slot)
  heard : ∀ address, Heard address (callsOf address s.history)
  fresh : ∀ address, s.nextAddress ≤ address → callsOf address s.history = []
  closed : ∀ slot, slot < s.count → (s.stream slot).endStream = true →
    (s.stream slot).state = .halfClosedRemote ∨ (s.stream slot).state = .reservedLocal
  even : ∀ slot, slot < s.count → (s.stream slot).streamId % 2 = 0 → (s.stream slot).endStream = true
  odd : s.continuation ≠ 0 → s.continuation % 2 = 1
  refused : s.continuation = 0 → s.refused = 0

/-- A session that an error has stopped: what has ended has been heard in full. -/
structure Broken (s : Http2Connection) : Prop where
  heard : ∀ address, Heard address (callsOf address s.history) ∨
    .messageComplete address ∉ callsOf address s.history
  fresh : ∀ address, s.nextAddress ≤ address → callsOf address s.history = []

end Http2Connection

end Viriatum
