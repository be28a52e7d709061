import Viriatum.Library.Traces

/-!
# The events of an application

The context of a request hands the events of its connection to the application of the asynchronous interface. A call to
receive gives a future back: an event that is queued resolves it at once, otherwise the context remembers it for the
next event that is pushed.
-/

namespace Viriatum

open Library

variable {ε : Type}

/-- A future of the loop. One that has been cancelled is done, and so is one that has a result. -/
inductive Future (ε : Type) where
  | pending
  | cancelled
  | resolved (result : ε)
deriving DecidableEq, Repr

namespace Future

def result : Future ε → Option ε
  | resolved result => some result
  | _ => none

def resolve (event : ε) : Future ε → Future ε
  | pending => resolved event
  | done => done

def cancel : Future ε → Future ε
  | pending => cancelled
  | done => done

@[simp] theorem result_pending : (pending : Future ε).result = none := rfl

@[simp] theorem result_cancelled : (cancelled : Future ε).result = none := rfl

@[simp] theorem result_resolved (event : ε) : (resolved event).result = some event := rfl

@[simp] theorem resolve_pending (event : ε) : (pending : Future ε).resolve event = resolved event := rfl

@[simp] theorem resolve_cancelled (event : ε) : (cancelled : Future ε).resolve event = cancelled := rfl

@[simp] theorem result_cancel (future : Future ε) : future.cancel.result = future.result := by
  cases future <;> rfl

end Future

/-- The part of the context of a request that hands the events over, with the futures of the calls to receive in the
order of the calls. -/
structure AsgiEvents (ε : Type) where
  futures : List (Future ε)
  events : List ε
  future : Option Nat
deriving DecidableEq, Repr

/-- What happens to the events of a request: one is pushed by the connection, the application calls receive, or a future
that a call gave back is cancelled. -/
inductive EventsInput (ε : Type) where
  | push (event : ε)
  | receive
  | cancel (future : Nat)
deriving DecidableEq, Repr

namespace AsgiEvents

def create : AsgiEvents ε := ⟨[], [], none⟩

def createFutureLoopPython (a : AsgiEvents ε) : AsgiEvents ε := { a with futures := a.futures ++ [.pending] }

/-- A future that is done is left as it is. -/
def resolveFutureLoopPython (future : Nat) (result : ε) (a : AsgiEvents ε) : AsgiEvents ε :=
  { a with futures := a.futures.modify future (·.resolve result) }

def pushEventHandlerAsgi (event : ε) (a : AsgiEvents ε) : AsgiEvents ε :=
  match a.future with
  | some future => { a.resolveFutureLoopPython future event with future := none }
  | none => { a with events := a.events ++ [event] }

/-- The future that the call gives back is the last one. -/
def receiveHandlerAsgi (a : AsgiEvents ε) : AsgiEvents ε :=
  let created := a.createFutureLoopPython
  match a.events with
  | event :: events => { created.resolveFutureLoopPython a.futures.length event with events }
  | [] => { created with future := some a.futures.length }

def cancelFuture (future : Nat) (a : AsgiEvents ε) : AsgiEvents ε :=
  { a with futures := a.futures.modify future (·.cancel) }

def step (a : AsgiEvents ε) : EventsInput ε → AsgiEvents ε
  | .push event => a.pushEventHandlerAsgi event
  | .receive => a.receiveHandlerAsgi
  | .cancel future => a.cancelFuture future

def run (inputs : List (EventsInput ε)) (a : AsgiEvents ε) : AsgiEvents ε := inputs.foldl step a

/-- The events that the calls to receive have resulted in, in the order of the calls. -/
def received (a : AsgiEvents ε) : List ε := a.futures.filterMap Future.result

end AsgiEvents

/-- The events pushed, in their order. -/
def EventsInput.pushed : List (EventsInput ε) → List ε :=
  List.filterMap fun
    | .push event => some event
    | _ => none

namespace AsgiEvents

variable {a : AsgiEvents ε} {past : List (EventsInput ε)}

@[simp] theorem received_cancelFuture (future : Nat) : (a.cancelFuture future).received = a.received := by
  have hmodify : ∀ (futures : List (Future ε)) future,
      (futures.modify future (·.cancel)).filterMap Future.result = futures.filterMap Future.result := by
    intro futures
    induction futures with
    | nil => simp
    | cons first futures ih =>
        intro future
        cases future with
        | zero => simp [List.filterMap_cons]
        | succ future => simp [List.filterMap_cons, ih]
  exact hmodify a.futures future

/-- The last of the futures is the last to be received. -/
theorem filterMap_resolve_last (futures : List (Future ε)) (last : Future ε) (event : ε) :
    ((futures ++ [last]).modify futures.length (·.resolve event)).filterMap Future.result =
      futures.filterMap Future.result ++ (last.resolve event).result.toList := by
  induction futures with
  | nil => cases last <;> simp [Future.resolve]
  | cons first futures ih => cases first <;> simpa [List.filterMap_cons] using ih

/-- A receive that finds an event queued results in it. -/
theorem received_receive_cons {event : ε} {events : List ε} (h : a.events = event :: events) :
    a.receiveHandlerAsgi.received = a.received ++ [event] ∧ a.receiveHandlerAsgi.events = events := by
  simp [receiveHandlerAsgi, h, received, createFutureLoopPython, resolveFutureLoopPython, filterMap_resolve_last]

theorem received_receive_nil (h : a.events = []) :
    a.receiveHandlerAsgi.received = a.received ∧ a.receiveHandlerAsgi.events = [] := by
  simp [receiveHandlerAsgi, h, received, createFutureLoopPython]

/-- What holds of the events whatever happens to them: the future that is remembered is the one of the last call, it has
no result and no event is queued behind it. -/
structure Waiting (a : AsgiEvents ε) (future : Nat) : Prop where
  unqueued : a.events = []
  last : a.futures.length = future + 1
  unresolved : ∀ waited, a.futures[future]? = some waited → waited.result = none

def Sound (a : AsgiEvents ε) : Prop := ∀ future, a.future = some future → a.Waiting future

/-- The events pushed are the ones that the calls to receive have resulted in, in the order of the calls, followed by the
ones that are queued; and calls to receive are all it takes for the latter to be received. -/
def Faithful (past : List (EventsInput ε)) (a : AsgiEvents ε) : Prop :=
  a.received ++ a.events = EventsInput.pushed past ∧
    ∀ calls ≥ a.events.length, (a.run (List.replicate calls .receive)).received = EventsInput.pushed past

/-- An event that is pushed finds the future that is remembered, if there is one, not cancelled. -/
def Attended (a : AsgiEvents ε) : EventsInput ε → Prop
  | .push _ => ∀ future, a.future = some future → a.futures[future]? ≠ some .cancelled
  | _ => True

theorem received_calls (calls : Nat) (h : a.events.length ≤ calls) :
    (a.run (List.replicate calls .receive)).received = a.received ++ a.events := by
  induction calls generalizing a with
  | zero =>
      have hnil : a.events = [] := List.length_eq_zero_iff.mp (Nat.le_zero.mp h)
      simp [run, hnil]
  | succ calls ih =>
      have hrun : a.run (List.replicate (calls + 1) .receive) = a.receiveHandlerAsgi.run (List.replicate calls .receive) :=
        rfl
      cases hevents : a.events with
      | nil =>
          obtain ⟨hreceived, hnil⟩ := received_receive_nil hevents
          rw [hrun, ih (by simp [hnil]), hreceived, hnil]
      | cons event events =>
          obtain ⟨hreceived, hrest⟩ := received_receive_cons hevents
          have hle : events.length ≤ calls := by simpa [hevents] using h
          rw [hrun, ih (by simpa [hrest] using hle), hreceived, hrest]
          simp

/-- The calls to receive that would follow add nothing to what the events received and queued tell. -/
theorem faithful_of_received (h : a.received ++ a.events = EventsInput.pushed past) : Faithful past a :=
  ⟨h, fun calls hcalls => (received_calls calls hcalls).trans h⟩

theorem push_unwaited (event : ε) (h : a.future = none) :
    (a.pushEventHandlerAsgi event).received = a.received ∧
      (a.pushEventHandlerAsgi event).events = a.events ++ [event] := by
  simp [pushEventHandlerAsgi, h, received]

/-- What an event does to the future that is remembered for it: one that is pending results in it, another one is left
as it is and the event is gone. -/
theorem push_waited (event : ε) {future : Nat} (h : a.future = some future) (hwaiting : a.Waiting future) :
    (a.pushEventHandlerAsgi event).events = [] ∧
      (a.futures[future]? ≠ some .cancelled ∧ (a.pushEventHandlerAsgi event).received = a.received ++ [event] ∨
        a.futures[future]? = some .cancelled ∧ (a.pushEventHandlerAsgi event).received = a.received) := by
  rcases List.eq_nil_or_concat a.futures with hnil | ⟨futures, last, hfutures⟩
  · have hlength := hwaiting.last
    simp [hnil] at hlength
  · have hlength : futures.length = future := by simpa [hfutures] using hwaiting.last
    have hlast : last.result = none := hwaiting.unresolved last (by simp [hfutures, ← hlength])
    subst hlength
    cases last with
    | pending =>
        simp [pushEventHandlerAsgi, h, received, resolveFutureLoopPython, hfutures, hwaiting.unqueued,
          filterMap_resolve_last]
    | cancelled =>
        simp [pushEventHandlerAsgi, h, received, resolveFutureLoopPython, hfutures, hwaiting.unqueued,
          filterMap_resolve_last]
    | resolved result => simp at hlast

theorem Waiting.cancelFuture {future : Nat} (h : a.Waiting future) (cancelled : Nat) :
    (a.cancelFuture cancelled).Waiting future := by
  constructor
  case unqueued => exact h.unqueued
  case last => simpa [AsgiEvents.cancelFuture] using h.last
  case unresolved =>
    intro waited hwaited
    cases hbefore : a.futures[future]? with
    | none => simp [AsgiEvents.cancelFuture, List.getElem?_modify, hbefore] at hwaited
    | some before =>
        have heq : (if cancelled = future then before.cancel else before) = waited := by
          simpa [AsgiEvents.cancelFuture, List.getElem?_modify, hbefore] using hwaited
        rw [← heq]
        split <;> simp [h.unresolved before hbefore]

theorem Sound.step (h : a.Sound) (input : EventsInput ε) : (a.step input).Sound := by
  cases input with
  | push event =>
      intro future hfuture
      cases hwaited : a.future <;> simp [AsgiEvents.step, pushEventHandlerAsgi, hwaited] at hfuture
  | receive =>
      intro future hfuture
      cases hevents : a.events with
      | nil =>
          have hfirst : future = a.futures.length := by
            simpa [AsgiEvents.step, receiveHandlerAsgi, hevents] using hfuture.symm
          subst hfirst
          constructor <;> simp [AsgiEvents.step, receiveHandlerAsgi, hevents, createFutureLoopPython]
      | cons event events =>
          simp only [AsgiEvents.step, receiveHandlerAsgi, hevents] at hfuture
          have hnil := (h future hfuture).unqueued
          simp [hnil] at hevents
  | cancel cancelled => exact fun future hfuture => (h future hfuture).cancelFuture cancelled

/-- What an input that is attended adds to the events received and queued is what it pushes. -/
theorem received_step (hsound : a.Sound) {input : EventsInput ε} (h : a.Attended input) :
    (a.step input).received ++ (a.step input).events = a.received ++ a.events ++ EventsInput.pushed [input] := by
  cases input with
  | push event =>
      cases hfuture : a.future with
      | none =>
          obtain ⟨hreceived, hevents⟩ := push_unwaited event hfuture
          simp [step, hreceived, hevents, EventsInput.pushed]
      | some future =>
          obtain ⟨hevents, ⟨-, hreceived⟩ | ⟨hcancelled, -⟩⟩ := push_waited event hfuture (hsound future hfuture)
          · simp [step, hreceived, hevents, (hsound future hfuture).unqueued, EventsInput.pushed]
          · exact absurd hcancelled (h future hfuture)
  | receive =>
      cases hevents : a.events with
      | nil =>
          obtain ⟨hreceived, hnil⟩ := received_receive_nil hevents
          simp [step, hreceived, hnil, EventsInput.pushed]
      | cons event events =>
          obtain ⟨hreceived, hrest⟩ := received_receive_cons hevents
          simp [step, hreceived, hrest, EventsInput.pushed]
  | cancel future =>
      have hevents : (a.cancelFuture future).events = a.events := rfl
      simp [step, hevents, EventsInput.pushed]

/-- An event that finds the future remembered for it cancelled is lost. -/
theorem attended_of_received (hsound : a.Sound) {input : EventsInput ε}
    (h : (a.step input).received ++ (a.step input).events = a.received ++ a.events ++ EventsInput.pushed [input]) :
    a.Attended input := by
  cases input with
  | push event =>
      intro future hfuture hcancelled
      obtain ⟨hevents, ⟨hpending, -⟩ | ⟨-, hreceived⟩⟩ := push_waited event hfuture (hsound future hfuture)
      · exact hpending hcancelled
      · simp [step, hreceived, hevents, (hsound future hfuture).unqueued, EventsInput.pushed] at h
  | _ => trivial

/-- In every run the events are delivered in order and once, to calls that have not been cancelled, exactly when none of
them finds the future that the context remembers cancelled. -/
theorem faithful_iff (inputs : List (EventsInput ε)) :
    (∀ earlier, earlier <+: inputs → Faithful earlier (create.run earlier)) ↔
      Throughout step Attended create inputs := by
  have hpushed : ∀ (past : List (EventsInput ε)) input,
      EventsInput.pushed (past ++ [input]) = EventsInput.pushed past ++ EventsInput.pushed [input] := by
    simp [EventsInput.pushed]
  apply always_iff_throughout (I := fun past a => a.Sound ∧ a.received ++ a.events = EventsInput.pushed past)
  · rintro past a input ⟨hsound, hreceived⟩ hattended
    refine ⟨hsound.step input, ?_⟩
    rw [received_step hsound hattended, hreceived, hpushed]
  · exact fun past a h => faithful_of_received h.2
  · rintro past a input ⟨hsound, hreceived⟩ ⟨hafter, -⟩
    apply attended_of_received hsound
    rw [hafter, hreceived, hpushed]
  · exact ⟨nofun, rfl⟩

/-- A call to receive that is cancelled before the event comes takes it away. -/
theorem not_faithful : ¬ ∀ inputs : List (EventsInput Nat), Faithful inputs (create.run inputs) := by
  intro h
  have hreceived := (h [.receive, .cancel 0, .push 7]).1
  revert hreceived
  decide

end AsgiEvents

end Viriatum
