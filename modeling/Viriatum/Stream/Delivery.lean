import Viriatum.Stream.Io

/-!
# What is written is delivered

The bytes that go out are those of the values in the order they are queued in, and the callback of a value is called once,
after its bytes have gone out and before those of the values after it.
-/

namespace Viriatum

/-! ## What a history tells -/

section

variable (history : List IoEvent)

/-- The values that have been queued, the first one first. -/
def queuedValues : List IoData :=
  history.reverse.filterMap fun event => match event with
    | .queued value => some value
    | _ => none

def sentBytes : Bytes :=
  history.reverse.flatMap fun event => match event with
    | .sent data => data
    | _ => []

def calledBack : List Nat :=
  history.reverse.filterMap fun event => match event with
    | .called callback => some callback
    | _ => none

/-- The bytes that have gone out are the first ones that were queued, and the callbacks that have been called are those
of the first values, all the bytes of which have gone out. -/
structure Delivered : Prop where
  sent : sentBytes history <+: (queuedValues history).flatMap IoData.data
  called : ∃ done pending, queuedValues history = done ++ pending ∧
    calledBack history = done.filterMap IoData.callback ∧ done.flatMap IoData.data <+: sentBytes history

/-- It has been so at every moment. -/
def AlwaysDelivered : Prop := ∀ earlier, earlier <:+ history → Delivered earlier

end

variable {history : List IoEvent} {value : IoData} {data : Bytes} {bytes : Nat}

@[simp] theorem queuedValues_queued (value : IoData) (history : List IoEvent) :
    queuedValues (.queued value :: history) = queuedValues history ++ [value] := by
  rw [queuedValues, List.reverse_cons, List.filterMap_append]
  rfl

@[simp] theorem queuedValues_sent (data : Bytes) (history : List IoEvent) :
    queuedValues (.sent data :: history) = queuedValues history := by
  rw [queuedValues, List.reverse_cons, List.filterMap_append]
  exact List.append_nil _

@[simp] theorem queuedValues_called (callback : Nat) (history : List IoEvent) :
    queuedValues (.called callback :: history) = queuedValues history := by
  rw [queuedValues, List.reverse_cons, List.filterMap_append]
  exact List.append_nil _

@[simp] theorem queuedValues_closed (history : List IoEvent) :
    queuedValues (.closed :: history) = queuedValues history := by
  rw [queuedValues, List.reverse_cons, List.filterMap_append]
  exact List.append_nil _

@[simp] theorem sentBytes_queued (value : IoData) (history : List IoEvent) :
    sentBytes (.queued value :: history) = sentBytes history := by
  rw [sentBytes, List.reverse_cons, List.flatMap_append]
  exact List.append_nil _

@[simp] theorem sentBytes_sent (data : Bytes) (history : List IoEvent) :
    sentBytes (.sent data :: history) = sentBytes history ++ data := by
  rw [sentBytes, List.reverse_cons, List.flatMap_append, List.flatMap_singleton]
  rfl

@[simp] theorem sentBytes_called (callback : Nat) (history : List IoEvent) :
    sentBytes (.called callback :: history) = sentBytes history := by
  rw [sentBytes, List.reverse_cons, List.flatMap_append]
  exact List.append_nil _

@[simp] theorem sentBytes_closed (history : List IoEvent) : sentBytes (.closed :: history) = sentBytes history := by
  rw [sentBytes, List.reverse_cons, List.flatMap_append]
  exact List.append_nil _

@[simp] theorem calledBack_queued (value : IoData) (history : List IoEvent) :
    calledBack (.queued value :: history) = calledBack history := by
  rw [calledBack, List.reverse_cons, List.filterMap_append]
  exact List.append_nil _

@[simp] theorem calledBack_sent (data : Bytes) (history : List IoEvent) :
    calledBack (.sent data :: history) = calledBack history := by
  rw [calledBack, List.reverse_cons, List.filterMap_append]
  exact List.append_nil _

@[simp] theorem calledBack_called (callback : Nat) (history : List IoEvent) :
    calledBack (.called callback :: history) = calledBack history ++ [callback] := by
  rw [calledBack, List.reverse_cons, List.filterMap_append]
  rfl

@[simp] theorem calledBack_closed (history : List IoEvent) : calledBack (.closed :: history) = calledBack history := by
  rw [calledBack, List.reverse_cons, List.filterMap_append]
  exact List.append_nil _

theorem AlwaysDelivered.now (h : AlwaysDelivered history) : Delivered history := h history (List.suffix_refl _)

theorem AlwaysDelivered.add {event : IoEvent} (h : AlwaysDelivered history) (hnow : Delivered (event :: history)) :
    AlwaysDelivered (event :: history) := by
  intro earlier hearlier
  cases List.suffix_cons_iff.mp hearlier with
  | inl heq => exact heq ▸ hnow
  | inr hbefore => exact h earlier hbefore

theorem Delivered.close (h : Delivered history) : Delivered (.closed :: history) where
  sent := by simpa using h.sent
  called := by simpa using h.called

/-! ## The queue while it is walked -/

/-- What is left of some values when a number of bytes of the first of them are gone. -/
def cutFirst (offset : Nat) : List IoData → List IoData
  | [] => []
  | value :: rest => { value with data := value.data.drop offset } :: rest

@[simp] theorem cutFirst_zero (values : List IoData) : cutFirst 0 values = values := by
  cases values <;> rfl

namespace IoConnection

/-- The values whose callbacks have been called, those that are pending, the first of which has been cut, and as many of
the bytes of the queue gone out as are still to be accounted for. -/
structure Walking (bytes : Nat) (done pending : List IoData) (offset : Nat) (c : IoConnection) : Prop where
  queued : queuedValues c.history = done ++ pending
  queue : c.writeQueue = cutFirst offset pending
  offset_le : ∀ value rest, pending = value :: rest → offset ≤ value.data.length
  bytes_le : offset + bytes ≤ (pending.flatMap IoData.data).length
  sent : sentBytes c.history = done.flatMap IoData.data ++ (pending.flatMap IoData.data).take (offset + bytes)
  called : calledBack c.history = done.filterMap IoData.callback

variable {c c' : IoConnection} {done pending : List IoData} {offset : Nat} {react : Reaction}

namespace Walking

theorem delivered (h : Walking bytes done pending offset c) : Delivered c.history where
  sent := by
    rw [h.sent, h.queued, List.flatMap_append]
    exact List.prefix_append_right_inj _ |>.mpr (List.take_prefix _ _)
  called := ⟨done, pending, h.queued, h.called, h.sent ▸ List.prefix_append _ _⟩

/-- A value that is queued is pending after the others. -/
theorem write {callback : Option Nat} (h : Walking bytes done pending offset c)
    (hwrite : c.writeConnection data callback = some c') :
    Walking bytes done (pending ++ [⟨data, callback⟩]) offset c' ∧ c'.writeQueue = c.writeQueue ++ [⟨data, callback⟩] ∧
      c'.history = .queued ⟨data, callback⟩ :: c.history ∧ c'.writeRegistered = true := by
  unfold writeConnection at hwrite
  split at hwrite
  · cases hwrite
  · cases hwrite
    have hzero : pending = [] → offset = 0 ∧ bytes = 0 := by
      intro hnil
      have hle := h.bytes_le
      rw [hnil, List.flatMap_nil, List.length_nil] at hle
      omega
    have hcut : cutFirst offset (pending ++ [⟨data, callback⟩]) = cutFirst offset pending ++ [⟨data, callback⟩] := by
      cases pending with
      | nil =>
          rw [(hzero rfl).1]
          rfl
      | cons value rest => rfl
    refine ⟨⟨?_, ?_, ?_, ?_, ?_, ?_⟩, rfl, rfl, rfl⟩
    · simp [record, h.queued]
    · rw [hcut, ← h.queue]
    · intro value rest heq
      cases hpending : pending with
      | nil =>
          rw [(hzero hpending).1]
          exact Nat.zero_le _
      | cons first others =>
          rw [hpending, List.cons_append] at heq
          cases heq
          exact h.offset_le _ _ hpending
    · rw [List.flatMap_append, List.length_append]
      exact Nat.le_trans h.bytes_le (Nat.le_add_right _ _)
    · rw [List.flatMap_append, List.take_append_of_le_length h.bytes_le, ← h.sent]
      simp [record]
    · simp [record, h.called]

end Walking

/-- The history has been a delivery all along, and unless the connection is closed the queue is walked and the
connection is registered for as long as there is something in the queue. -/
structure Sound (bytes : Nat) (c : IoConnection) : Prop where
  always : AlwaysDelivered c.history
  registered : c.closed = false → c.writeQueue ≠ [] → c.writeRegistered = true
  walking : c.closed = false → ∃ done pending offset, Walking bytes done pending offset c

namespace Sound

theorem act {action : IoAction} (h : Sound bytes c) (hact : c.act action = some c') :
    Sound bytes c' ∧ (c'.closed = false → ∃ more, c'.writeQueue = c.writeQueue ++ more) := by
  cases action with
  | write data callback =>
      have hopen : c.closed = false := by
        cases hclosed : c.closed with
        | false => rfl
        | true => simp [IoConnection.act, writeConnection, hclosed] at hact
      obtain ⟨done, pending, offset, hwalking⟩ := h.walking hopen
      obtain ⟨hwalking', hqueue, hhistory, hregistered⟩ := hwalking.write hact
      have hnow := hwalking'.delivered
      rw [hhistory] at hnow
      exact ⟨⟨hhistory ▸ h.always.add hnow, fun _ _ => hregistered, fun _ => ⟨done, _, offset, hwalking'⟩⟩,
        fun _ => ⟨_, hqueue⟩⟩
  | close =>
      simp only [IoConnection.act, closeConnection] at hact
      split at hact
      · cases hact
      · cases hact
        exact ⟨⟨h.always.add h.always.now.close, nofun, nofun⟩, nofun⟩

theorem perform {actions : List IoAction} (h : Sound bytes c) (hperform : c.perform actions = some c') :
    Sound bytes c' ∧ (c'.closed = false → ∃ more, c'.writeQueue = c.writeQueue ++ more) := by
  induction actions generalizing c with
  | nil =>
      cases hperform
      exact ⟨h, fun _ => ⟨[], (List.append_nil _).symm⟩⟩
  | cons action actions ih =>
      obtain ⟨t, hact, hrest⟩ := Option.bind_eq_some_iff.mp hperform
      obtain ⟨ht, hmore⟩ := h.act hact
      obtain ⟨h', hmore'⟩ := ih ht hrest
      refine ⟨h', fun hopen => ?_⟩
      obtain ⟨later, hlater⟩ := hmore' hopen
      have htopen : t.closed = false := by
        cases hclosed : t.closed with
        | false => rfl
        | true =>
            cases actions with
            | nil =>
                cases hrest
                rw [hclosed] at hopen
                cases hopen
            | cons next actions =>
                obtain ⟨u, hnext, -⟩ := Option.bind_eq_some_iff.mp hrest
                cases next <;> simp [IoConnection.act, writeConnection, closeConnection, hclosed] at hnext
      obtain ⟨more, hqueue⟩ := hmore htopen
      exact ⟨more ++ later, by rw [hlater, hqueue, List.append_assoc]⟩

end Sound

/-- The first value of the queue, when all its bytes have gone out, is done with. -/
theorem Walking.pop {rest : List IoData} (history : List IoEvent) (h : Walking bytes done pending offset c)
    (hqueue : c.writeQueue = value :: rest) (hle : value.data.length ≤ bytes)
    (hqueued : queuedValues history = queuedValues c.history) (hsent : sentBytes history = sentBytes c.history)
    (hcalled : calledBack history = calledBack c.history ++ value.callback.toList) :
    ∃ first, Walking (bytes - value.data.length) (done ++ [first]) rest 0 { c with writeQueue := rest, history } := by
  have hcut := h.queue
  rw [hqueue] at hcut
  cases hpending : pending with
  | nil =>
      rw [hpending] at hcut
      cases hcut
  | cons first others =>
      rw [hpending] at hcut
      cases hcut
      have hoffset := h.offset_le first rest hpending
      have hbytes := h.bytes_le
      have hlength : (first.data.drop offset).length = first.data.length - offset := List.length_drop
      have htotal : offset + bytes = first.data.length + (bytes - (first.data.drop offset).length) := by
        simp only at hle
        omega
      rw [hpending, List.flatMap_cons, List.length_append] at hbytes
      refine ⟨first, ?_, (cutFirst_zero rest).symm, fun _ _ _ => Nat.zero_le _, ?_, ?_, ?_⟩
      · rw [hqueued, h.queued, hpending, List.append_assoc]
        rfl
      · simp only at hle ⊢
        omega
      · have hsame := h.sent
        rw [hpending, List.flatMap_cons, htotal, List.take_length_add_append, ← List.append_assoc] at hsame
        rw [hsent, hsame, List.flatMap_append, Nat.zero_add]
        simp
      · rw [hcalled, h.called, List.filterMap_append]
        cases first with
        | mk data callback => cases callback <;> rfl

/-- The bytes of a part of the first value leave the rest of it in the queue. -/
theorem Walking.shrink {rest : List IoData} (h : Walking bytes done pending offset c)
    (hqueue : c.writeQueue = value :: rest) (hlt : bytes < value.data.length) :
    Walking 0 done pending (offset + bytes)
      { c with writeQueue := { value with data := value.data.drop bytes } :: rest } := by
  have hcut := h.queue
  rw [hqueue] at hcut
  cases hpending : pending with
  | nil =>
      rw [hpending] at hcut
      cases hcut
  | cons first others =>
      rw [hpending] at hcut
      cases hcut
      have hlength : (first.data.drop offset).length = first.data.length - offset := List.length_drop
      refine ⟨hpending ▸ h.queued, ?_, ?_, hpending ▸ h.bytes_le, hpending ▸ h.sent, h.called⟩
      · simp only [cutFirst, List.drop_drop]
      · intro value rest heq
        cases heq
        simp only at hlt
        omega

/-- The callback of a value that is done is called, and may do more with the connection. -/
theorem Sound.callback {rest : List IoData} (h : Sound bytes c) (hopen : c.closed = false)
    (hqueue : c.writeQueue = value :: rest) (hle : value.data.length ≤ bytes)
    (hcallback : callback react value { c with writeQueue := rest } = some c') :
    Sound (bytes - value.data.length) c' ∧ (c'.closed = false → ∃ more, c'.writeQueue = rest ++ more) := by
  obtain ⟨done, pending, offset, hwalking⟩ := h.walking hopen
  have hregistered : c.writeRegistered = true := h.registered hopen (by simp [hqueue])
  unfold IoConnection.callback at hcallback
  split at hcallback
  · next hnone =>
      cases hcallback
      obtain ⟨first, hpopped⟩ := hwalking.pop c.history hqueue hle rfl rfl (by rw [hnone]; simp)
      exact ⟨⟨h.always, fun _ _ => hregistered, fun _ => ⟨_, rest, 0, hpopped⟩⟩,
        fun _ => ⟨[], (List.append_nil rest).symm⟩⟩
  · next tag hsome =>
      obtain ⟨first, hpopped⟩ := hwalking.pop (.called tag :: c.history) hqueue hle (by simp) (by simp)
        (by rw [hsome]; simp)
      have hcalled : Sound (bytes - value.data.length) (({ c with writeQueue := rest } : IoConnection).record (.called tag)) :=
        ⟨h.always.add hpopped.delivered, fun _ _ => hregistered, fun _ => ⟨_, rest, 0, hpopped⟩⟩
      exact hcalled.perform hcallback

/-- The rounds come to an end with all the bytes accounted for. -/
theorem Sound.account {rounds : Nat} {error : WriteError} (h : Sound bytes c) (hopen : c.closed = false)
    (hrounds : bytes ≤ ((c.writeQueue.take rounds).flatMap IoData.data).length)
    (haccount : account react rounds bytes c = some (c', error)) :
    Sound 0 c' ∧ error ≠ .fatal ∧ (error = .none → c'.closed = false) := by
  induction rounds generalizing bytes c with
  | zero =>
      have hzero : bytes = 0 := by simpa using hrounds
      subst hzero
      cases haccount
      exact ⟨h, nofun, fun _ => hopen⟩
  | succ rounds ih =>
      rw [IoConnection.account] at haccount
      cases hqueue : c.writeQueue with
      | nil =>
          have hzero : bytes = 0 := by simpa [hqueue] using hrounds
          subst hzero
          simp only [hqueue] at haccount
          cases haccount
          exact ⟨h, nofun, fun _ => hopen⟩
      | cons value rest =>
          simp only [hqueue] at haccount
          split at haccount
          · next hlt =>
              cases haccount
              obtain ⟨done, pending, offset, hwalking⟩ := h.walking hopen
              exact ⟨⟨h.always, fun _ _ => h.registered hopen (by simp [hqueue]),
                fun _ => ⟨done, pending, _, hwalking.shrink hqueue hlt⟩⟩, nofun, nofun⟩
          · next hle =>
              obtain ⟨t, hcallback, hrest⟩ := Option.bind_eq_some_iff.mp haccount
              obtain ⟨ht, hmore⟩ := h.callback hopen hqueue (Nat.not_lt.mp hle) hcallback
              cases hclosed : t.closed with
              | true =>
                  simp only [hclosed, if_true] at hrest
                  cases hrest
                  have hnot : c'.closed ≠ false := by simp [hclosed]
                  exact ⟨⟨ht.always, fun hopen => absurd hopen hnot, fun hopen => absurd hopen hnot⟩, nofun, nofun⟩
              | false =>
                  simp only [hclosed, Bool.false_eq_true, if_false] at hrest
                  obtain ⟨more, hqueue'⟩ := hmore hclosed
                  split at hrest
                  · next hzero =>
                      cases hrest
                      rw [hzero] at ht
                      exact ⟨ht, nofun, fun _ => hclosed⟩
                  · apply ih ht hclosed _ hrest
                    rw [hqueue, List.take_succ_cons, List.flatMap_cons, List.length_append] at hrounds
                    rw [hqueue', List.take_append, List.flatMap_append, List.length_append]
                    omega

/-! ## The handler of the writes -/

/-- The values that are sent together are the first ones of the queue. -/
theorem gathered_eq (c : IoConnection) : c.gathered = c.writeQueue.take c.gathered.length := by
  unfold gathered
  split <;> simp

theorem flatMap_cutFirst (offset : Nat) (pending : List IoData) :
    (∀ value rest, pending = value :: rest → offset ≤ value.data.length) →
      (cutFirst offset pending).flatMap IoData.data = (pending.flatMap IoData.data).drop offset := by
  intro hoffset
  cases pending with
  | nil => simp [cutFirst]
  | cons value rest => simp [cutFirst, List.drop_append_of_le_length (hoffset value rest rfl)]

/-- The bytes of the queue are those that have not gone out. -/
theorem Walking.bytes_queue (h : Walking 0 done pending offset c) :
    sentBytes c.history ++ c.writeQueue.flatMap IoData.data = (queuedValues c.history).flatMap IoData.data := by
  rw [h.sent, h.queue, h.queued, flatMap_cutFirst _ _ h.offset_le, Nat.add_zero, List.append_assoc,
    List.take_append_drop, List.flatMap_append]

theorem Walking.callbacks_queue (h : Walking 0 done pending offset c) :
    calledBack c.history ++ c.writeQueue.filterMap IoData.callback =
      (queuedValues c.history).filterMap IoData.callback := by
  have hcut : (cutFirst offset pending).filterMap IoData.callback = pending.filterMap IoData.callback := by
    cases pending <;> rfl
  rw [h.called, h.queue, h.queued, hcut, List.filterMap_append]

/-- The bytes that a call takes are the next ones that were queued. -/
theorem Walking.record_sent (h : Walking 0 done pending offset c)
    (hdata : data <+: c.writeQueue.flatMap IoData.data) : Walking data.length done pending offset (c.record (.sent data)) where
  queued := by simp [record, h.queued]
  queue := h.queue
  offset_le := h.offset_le
  bytes_le := by
    have hle := hdata.length_le
    have hbytes := h.bytes_le
    rw [h.queue, flatMap_cutFirst _ _ h.offset_le, List.length_drop] at hle
    omega
  sent := by
    rw [h.queue, flatMap_cutFirst _ _ h.offset_le] at hdata
    have hsent := h.sent
    rw [Nat.add_zero] at hsent
    have htake := List.prefix_iff_eq_take.mp hdata
    rw [record, sentBytes_sent, hsent, List.append_assoc, List.take_add, ← htake]
  called := by simp [record, h.called]

theorem Sound.send {answer : SendAnswer} {error : WriteError} (h : Sound 0 c) (hopen : c.closed = false)
    (hsend : send react answer c = some (c', error)) :
    Sound 0 c' ∧ (error ≠ .again → c'.closed = false) := by
  cases answer with
  | wouldBlock =>
      cases hsend
      exact ⟨h, fun _ => hopen⟩
  | failed =>
      cases hsend
      exact ⟨h, fun _ => hopen⟩
  | sent bytes =>
      obtain ⟨done, pending, offset, hwalking⟩ := h.walking hopen
      have hgathered : (c.gathered.flatMap IoData.data).take bytes <+: c.writeQueue.flatMap IoData.data := by
        rw [gathered_eq]
        obtain ⟨rest, hrest⟩ := List.take_prefix c.gathered.length c.writeQueue
        apply (List.take_prefix _ _).trans
        exact ⟨rest.flatMap IoData.data, by rw [← List.flatMap_append, hrest]⟩
      have hsent := hwalking.record_sent hgathered
      have hnow : Sound _ (c.record (.sent ((c.gathered.flatMap IoData.data).take bytes))) :=
        ⟨h.always.add hsent.delivered, h.registered, fun _ => ⟨done, pending, offset, hsent⟩⟩
      have hrounds : ((c.gathered.flatMap IoData.data).take bytes).length ≤
          ((c.writeQueue.take c.gathered.length).flatMap IoData.data).length := by
        rw [← gathered_eq]
        exact List.length_take_le' _ _
      obtain ⟨h', hfatal, hnone⟩ := hnow.account hopen hrounds hsend
      refine ⟨h', fun hagain => ?_⟩
      cases error with
      | none => exact hnone rfl
      | fatal => exact absurd rfl hfatal
      | again => exact absurd rfl hagain

/-- The walk is about the queue and the history alone. -/
theorem Walking.congr (h : Walking bytes done pending offset c) (hqueue : c'.writeQueue = c.writeQueue)
    (hhistory : c'.history = c.history) : Walking bytes done pending offset c' where
  queued := hhistory ▸ h.queued
  queue := hqueue.trans h.queue
  offset_le := h.offset_le
  bytes_le := h.bytes_le
  sent := hhistory ▸ h.sent
  called := hhistory ▸ h.called

theorem Sound.conclude {error : WriteError} (h : Sound 0 c) (hnone : error = .none → c.writeQueue = [])
    (hconclude : c.conclude error = some c') : Sound 0 c' := by
  cases error with
  | none =>
      cases hconclude
      refine ⟨h.always, fun _ hqueue => absurd (hnone rfl) hqueue, fun hopen => ?_⟩
      obtain ⟨done, pending, offset, hwalking⟩ := h.walking hopen
      exact ⟨done, pending, offset, hwalking.congr rfl rfl⟩
  | fatal =>
      have hact : c.act .close = some c' := hconclude
      exact (h.act hact).1
  | again =>
      cases hconclude
      split
      · exact h
      · refine ⟨h.always, h.registered, fun hopen => ?_⟩
        obtain ⟨done, pending, offset, hwalking⟩ := h.walking hopen
        exact ⟨done, pending, offset, hwalking.congr rfl rfl⟩

theorem Sound.writeHandler {answers : List SendAnswer} (h : Sound 0 c) (hopen : c.closed = false)
    (hwrite : writeHandler react answers c = some c') : Sound 0 c' := by
  induction answers generalizing c with
  | nil =>
      rw [IoConnection.writeHandler] at hwrite
      split at hwrite
      · next hqueue => exact h.conclude (fun _ => hqueue) hwrite
      · cases hwrite
  | cons answer answers ih =>
      rw [IoConnection.writeHandler] at hwrite
      split at hwrite
      · next hqueue => exact h.conclude (fun _ => hqueue) hwrite
      · obtain ⟨⟨t, error⟩, hsend, hrest⟩ := Option.bind_eq_some_iff.mp hwrite
        obtain ⟨ht, hstill⟩ := h.send hopen hsend
        simp only at hrest
        split at hrest
        · next hnone => exact ih ht (hstill (by rw [hnone]; nofun)) hrest
        · next hnone => exact ht.conclude (fun h => absurd h hnone) hrest

theorem Sound.step {input : IoInput} (h : Sound 0 c) (hstep : step react c input = some c') : Sound 0 c' := by
  cases input with
  | act action => exact (h.act hstep).1
  | write answers =>
      cases hclosed : c.closed with
      | true => simp [IoConnection.step, hclosed] at hstep
      | false =>
          simp only [IoConnection.step, hclosed, Bool.false_eq_true, if_false] at hstep
          exact h.writeHandler hclosed hstep

theorem Sound.run {inputs : List IoInput} (h : Sound 0 c) (hrun : run react inputs c = some c') : Sound 0 c' := by
  induction inputs generalizing c with
  | nil =>
      cases hrun
      exact h
  | cons input inputs ih =>
      obtain ⟨t, hstep, hrest⟩ := Option.bind_eq_some_iff.mp hrun
      exact ih (h.step hstep) hrest

theorem sound_create (secure : Bool) : Sound 0 (create secure) where
  always := by
    intro earlier hearlier
    cases List.suffix_nil.mp hearlier
    exact ⟨List.prefix_refl _, [], [], rfl, rfl, List.prefix_refl _⟩
  registered := fun _ hqueue => absurd rfl hqueue
  walking := fun _ => ⟨[], [], 0, ⟨rfl, rfl, nofun, Nat.le_refl _, rfl, rfl⟩⟩

end IoConnection

end Viriatum
