import Viriatum.Stream.Schedule
import Viriatum.Stream.Resets

/-!
# Flow control

The windows of a session account for every increment that the peer grants and for every byte of payload that goes
out: none is lost or spent twice, whatever the settings of the peer do to the streams meanwhile.
-/

namespace Viriatum

open Library Effect

namespace Event

/-- The increment of the window of the connection that an event brings. -/
def widening : Event → Nat
  | .received frame => if frame.type = .windowUpdate ∧ frame.streamId = 0 then frame.increment else 0
  | _ => 0

/-- The payload that an event takes from the window of the connection. -/
def emission : Event → Nat
  | .wrote _ frame => if frame.type = .data then frame.length else 0
  | _ => 0

/-- The increment of the window of the stream of a message that an event brings. -/
def grant (address : Nat) : Event → Nat
  | .granted a increment => if a = address then increment else 0
  | _ => 0

/-- The payload that an event takes from the window of the stream of a message. -/
def emissionOn (address : Nat) : Event → Nat
  | .wrote owner frame => if frame.type = .data ∧ owner = some address then frame.length else 0
  | _ => 0

end Event

/-! ## Credit -/

/-- The initial window that the peer has announced last. -/
def announcedWindow : List Event → Nat
  | [] => http2DefaultWindowSize
  | .applied window :: _ => window
  | _ :: earlier => announcedWindow earlier

/-- The credit that the peer has granted the connection and that has not been spent. -/
def credit (history : List Event) : Int :=
  http2DefaultWindowSize + (history.map Event.widening).sum - (history.map Event.emission).sum

/-- The increments of the stream of a message that have not been spent. -/
def balance (address : Nat) (history : List Event) : Int :=
  (history.map (Event.grant address)).sum - ((history.map (Event.emissionOn address)).sum : Nat)

/-- The credit that the peer has granted the stream of a message and that has not been spent. -/
def streamCredit (address : Nat) (history : List Event) : Int := announcedWindow history + balance address history

/-- Whether an event stays within the credit that has been granted before it. -/
def Event.Covered (earlier : List Event) : Event → Prop
  | .wrote owner frame => frame.type = .data →
      (frame.length : Int) ≤ credit earlier ∧
        ∃ address, owner = some address ∧ (frame.length : Int) ≤ streamCredit address earlier
  | _ => True

/-- Every frame of payload stays within the credit that has been granted before it. -/
def Covered : List Event → Prop
  | [] => True
  | event :: earlier => event.Covered earlier ∧ Covered earlier

section Credit

variable {event : Event} {history : List Event} {address : Nat}

theorem credit_cons : credit (event :: history) = credit history + event.widening - event.emission := by
  simp only [credit, List.map_cons, List.sum_cons]
  omega

theorem balance_cons : balance address (event :: history) =
    balance address history + event.grant address - event.emissionOn address := by
  simp only [balance, List.map_cons, List.sum_cons]
  omega

attribute [local simp] Event.widening Event.emission Event.grant Event.emissionOn announcedWindow Event.Covered

/-- An event that neither grants nor spends anything. -/
structure Event.Plain (event : Event) : Prop where
  widening : event.widening = 0
  emission : event.emission = 0
  grant : ∀ address, event.grant address = 0
  emissionOn : ∀ address, event.emissionOn address = 0
  announced : ∀ history, announcedWindow (event :: history) = announcedWindow history
  covered : ∀ earlier, event.Covered earlier

theorem Event.plain_called {callback : Callback} : (Event.called callback).Plain := by
  constructor <;> simp [Event.widening, Event.emission, Event.grant, Event.emissionOn, announcedWindow, Event.Covered]

theorem Event.plain_opened {streamId : Nat} : (Event.opened address streamId).Plain := by
  constructor <;> simp [Event.widening, Event.emission, Event.grant, Event.emissionOn, announcedWindow, Event.Covered]

theorem Event.plain_promised {parentId streamId : Nat} {tree : List (Nat × Nat)} :
    (Event.promised parentId streamId tree).Plain := by
  constructor <;> simp [Event.widening, Event.emission, Event.grant, Event.emissionOn, announcedWindow, Event.Covered]

theorem Event.plain_closed : (Event.closed address).Plain := by
  constructor <;> simp [Event.widening, Event.emission, Event.grant, Event.emissionOn, announcedWindow, Event.Covered]

theorem Event.plain_wrote (owner : Option Nat) {frame : Http2Frame} (h : frame.type ≠ .data) :
    (Event.wrote owner frame).Plain := by
  constructor <;>
    simp [Event.widening, Event.emission, Event.grant, Event.emissionOn, announcedWindow, Event.Covered, h]

theorem Event.plain_received {frame : Http2Frame} (h : ¬ (frame.type = .windowUpdate ∧ frame.streamId = 0)) :
    (Event.received frame).Plain := by
  constructor <;>
    simp only [Event.widening, Event.emission, Event.grant, Event.emissionOn, announcedWindow, Event.Covered, if_neg h,
      implies_true]

theorem Event.Plain.credit (h : event.Plain) : credit (event :: history) = Viriatum.credit history := by
  rw [credit_cons, h.widening, h.emission]
  simp

theorem Event.Plain.balance (h : event.Plain) : balance address (event :: history) = Viriatum.balance address history := by
  rw [balance_cons, h.grant, h.emissionOn]
  simp

end Credit

/-! ## The invariant -/

namespace Outline

/-- The windows of an outline are the credits of its history. -/
structure Balanced (o : Outline) : Prop where
  connection : o.sendWindow = credit o.history
  initial : o.initialWindow = announcedWindow o.history
  streams : ∀ stream ∈ o.streams, stream.sendWindow = o.initialWindow + balance stream.address o.history
  bounds : 0 ≤ o.sendWindow ∧ o.sendWindow ≤ http2MaxWindowSize
  upper : ∀ stream ∈ o.streams, stream.sendWindow ≤ http2MaxWindowSize
  lower : ∀ stream ∈ o.streams, -(http2MaxWindowSize : Int) ≤ balance stream.address o.history
  largest : o.initialWindow ≤ http2MaxWindowSize
  nodup : (o.streams.map OutlineStream.address).Nodup
  fresh : ∀ stream ∈ o.streams, stream.address < o.nextAddress
  untouched : ∀ address, o.nextAddress ≤ address → balance address o.history = 0
  covered : Covered o.history

variable {o o' : Outline} {kind : MoveKind}

/-- The messages of the streams with their windows. -/
def windows (o : Outline) : List (Nat × Int) := o.streams.map fun stream => (stream.address, stream.sendWindow)

namespace Balanced

theorem record (h : Balanced o) {event : Event} (he : event.Plain) : Balanced (o.record event) where
  connection := h.connection.trans he.credit.symm
  initial := h.initial.trans (he.announced _).symm
  streams stream hmem := (h.streams stream hmem).trans (by rw [Outline.record, he.balance])
  bounds := h.bounds
  upper := h.upper
  lower stream hmem := by
    rw [Outline.record, he.balance]
    exact h.lower stream hmem
  largest := h.largest
  nodup := h.nodup
  fresh := h.fresh
  untouched address hle := by
    rw [Outline.record, he.balance]
    exact h.untouched address hle
  covered := ⟨he.covered _, h.covered⟩

/-- What is balanced stays so when streams leave and nothing of the windows changes. -/
theorem of_windows (h : Balanced o) (hwindows : o'.windows.Subperm o.windows) (hconnection : o'.sendWindow = o.sendWindow)
    (hinitial : o'.initialWindow = o.initialWindow) (hnext : o'.nextAddress = o.nextAddress)
    (hhistory : o'.history = o.history) : Balanced o' := by
  have hmem : ∀ stream ∈ o'.streams, ∃ stream' ∈ o.streams, stream'.address = stream.address ∧
      stream'.sendWindow = stream.sendWindow := by
    intro stream hmem
    have hin := hwindows.subset (List.mem_map_of_mem hmem)
    obtain ⟨stream', hmem', heq⟩ := List.mem_map.mp hin
    simp only [Prod.mk.injEq] at heq
    exact ⟨stream', hmem', heq⟩
  have haddresses : ∀ o : Outline, o.streams.map OutlineStream.address = o.windows.map Prod.fst := fun o => by
    simp [windows]
  refine ⟨?_, ?_, fun stream hin => ?_, ?_, fun stream hin => ?_, fun stream hin => ?_, ?_, ?_, fun stream hin => ?_, ?_, ?_⟩
  · rw [hconnection, hhistory]
    exact h.connection
  · rw [hinitial, hhistory]
    exact h.initial
  · obtain ⟨stream', hmem', haddress, hwindow⟩ := hmem stream hin
    rw [← haddress, ← hwindow, hinitial, hhistory]
    exact h.streams stream' hmem'
  · rw [hconnection]
    exact h.bounds
  · obtain ⟨stream', hmem', _, hwindow⟩ := hmem stream hin
    rw [← hwindow]
    exact h.upper stream' hmem'
  · obtain ⟨stream', hmem', haddress, _⟩ := hmem stream hin
    rw [← haddress, hhistory]
    exact h.lower stream' hmem'
  · rw [hinitial]
    exact h.largest
  · rw [haddresses]
    obtain ⟨middle, hperm, hsub⟩ := hwindows
    have hnodup := h.nodup
    rw [haddresses] at hnodup
    exact (hperm.map Prod.fst).nodup_iff.mp (hnodup.sublist (hsub.map Prod.fst))
  · obtain ⟨stream', hmem', haddress, _⟩ := hmem stream hin
    rw [← haddress, hnext]
    exact h.fresh stream' hmem'
  · rw [hnext, hhistory]
    exact h.untouched
  · rw [hhistory]
    exact h.covered

/-- Another stream of the table than the one at an index belongs to another message. -/
theorem address_ne (h : Balanced o) {i j : Nat} {stream other : OutlineStream} (hi : o.streams[i]? = some stream)
    (hj : o.streams[j]? = some other) (hne : j ≠ i) : other.address ≠ stream.address := by
  intro heq
  have haddress : ∀ {k : Nat} {st : OutlineStream}, o.streams[k]? = some st →
      (o.streams.map OutlineStream.address)[k]? = some st.address := by
    intro k st hk
    rw [List.getElem?_map, hk]
    rfl
  have hlt : j < (o.streams.map OutlineStream.address).length := by
    obtain ⟨hlt, _⟩ := List.getElem?_eq_some_iff.mp hj
    simpa using hlt
  refine hne ((List.getElem?_inj hlt h.nodup).mp ?_)
  rw [haddress hj, haddress hi, heq]

/-- The streams after the window of the one at an index has changed. -/
theorem mem_set {i : Nat} {stream changed other : OutlineStream} (hi : o.streams[i]? = some stream)
    (hmem : other ∈ o.streams.set i changed) :
    other = changed ∨ ∃ j, j ≠ i ∧ o.streams[j]? = some other := by
  obtain ⟨j, hj⟩ := List.mem_iff_getElem?.mp hmem
  by_cases hne : j = i
  · subst hne
    obtain ⟨hlt, _⟩ := List.getElem?_eq_some_iff.mp hi
    rw [List.getElem?_set_self hlt, Option.some.injEq] at hj
    exact Or.inl hj.symm
  · rw [List.getElem?_set_ne fun h => hne h.symm] at hj
    exact Or.inr ⟨j, hne, hj⟩

/-- Payload goes out on the stream at an index. -/
theorem emitted (h : Balanced o) {i : Nat} {stream : OutlineStream} {frame : Http2Frame}
    (hi : o.streams[i]? = some stream) (ht : frame.type = .data) (hs : (frame.length : Int) ≤ stream.sendWindow)
    (hc : (frame.length : Int) ≤ o.sendWindow) :
    Balanced ({ o with
      streams := o.streams.set i (shift (-frame.length) stream)
      sendWindow := o.sendWindow - frame.length }.record (.wrote (some stream.address) frame)) := by
  have hmem : stream ∈ o.streams := List.mem_of_getElem? hi
  have hstream := h.streams stream hmem
  have hupper := h.upper stream hmem
  have hlargest := h.largest
  have hself : balance stream.address (.wrote (some stream.address) frame :: o.history) =
      balance stream.address o.history - frame.length := by
    rw [balance_cons]
    simp [Event.grant, Event.emissionOn, ht]
  have hother : ∀ {address}, address ≠ stream.address →
      balance address (.wrote (some stream.address) frame :: o.history) = balance address o.history := by
    intro address hne
    have hne' : ¬ stream.address = address := fun heq => hne heq.symm
    rw [balance_cons]
    simp [Event.grant, Event.emissionOn, hne']
  refine ⟨?_, h.initial, fun other hin => ?_, ?_, fun other hin => ?_, fun other hin => ?_, h.largest, ?_,
    fun other hin => ?_, fun address hle => ?_, ?_⟩
  · simp only [Outline.record, credit_cons, Event.widening, Event.emission, ht, if_true, h.connection]
    omega
  · rcases mem_set hi hin with rfl | ⟨j, hne, hj⟩
    · simp only [Outline.record, shift, hself, hstream]
      omega
    · simp only [Outline.record, hother (h.address_ne hi hj hne)]
      exact h.streams other (List.mem_of_getElem? hj)
  · have hbounds := h.bounds
    simp only [Outline.record]
    omega
  · rcases mem_set hi hin with rfl | ⟨j, _, hj⟩
    · simp only [shift]
      omega
    · exact h.upper other (List.mem_of_getElem? hj)
  · rcases mem_set hi hin with rfl | ⟨j, hne, hj⟩
    · simp only [Outline.record, shift, hself]
      omega
    · simp only [Outline.record, hother (h.address_ne hi hj hne)]
      exact h.lower other (List.mem_of_getElem? hj)
  · simp only [Outline.record, map_set_same hi (rfl : (shift (-frame.length) stream).address = stream.address)]
    exact h.nodup
  · rcases mem_set hi hin with rfl | ⟨j, _, hj⟩
    · exact h.fresh stream hmem
    · exact h.fresh other (List.mem_of_getElem? hj)
  · have hfresh := h.fresh stream hmem
    have hle : o.nextAddress ≤ address := hle
    simp only [Outline.record, hother (by omega : address ≠ stream.address)]
    exact h.untouched address hle
  · refine ⟨fun _ => ⟨?_, stream.address, rfl, ?_⟩, h.covered⟩
    · rw [← h.connection]
      exact hc
    · rw [streamCredit, ← h.initial, ← hstream]
      exact hs

/-- The peer grants an increment to the stream at an index. -/
theorem granted (h : Balanced o) {i increment : Nat} {stream : OutlineStream} (hi : o.streams[i]? = some stream)
    (hmax : stream.sendWindow + increment ≤ http2MaxWindowSize) :
    Balanced ({ o with streams := o.streams.set i (shift increment stream) }.record
      (.granted stream.address increment)) := by
  have hmem : stream ∈ o.streams := List.mem_of_getElem? hi
  have hself : balance stream.address (.granted stream.address increment :: o.history) =
      balance stream.address o.history + increment := by
    rw [balance_cons]
    simp [Event.grant, Event.emissionOn]
  have hother : ∀ {address}, address ≠ stream.address →
      balance address (.granted stream.address increment :: o.history) = balance address o.history := by
    intro address hne
    have hne' : ¬ stream.address = address := fun heq => hne heq.symm
    rw [balance_cons]
    simp [Event.grant, Event.emissionOn, hne']
  refine ⟨?_, h.initial, fun other hin => ?_, h.bounds, fun other hin => ?_, fun other hin => ?_, h.largest, ?_,
    fun other hin => ?_, fun address hle => ?_, ⟨trivial, h.covered⟩⟩
  · simp only [Outline.record, credit_cons, Event.widening, Event.emission, h.connection]
    omega
  · rcases mem_set hi hin with rfl | ⟨j, hne, hj⟩
    · simp only [Outline.record, shift, hself, h.streams stream hmem]
      omega
    · simp only [Outline.record, hother (h.address_ne hi hj hne)]
      exact h.streams other (List.mem_of_getElem? hj)
  · rcases mem_set hi hin with rfl | ⟨j, _, hj⟩
    · exact hmax
    · exact h.upper other (List.mem_of_getElem? hj)
  · rcases mem_set hi hin with rfl | ⟨j, hne, hj⟩
    · have hlower := h.lower stream hmem
      simp only [Outline.record, shift, hself]
      omega
    · simp only [Outline.record, hother (h.address_ne hi hj hne)]
      exact h.lower other (List.mem_of_getElem? hj)
  · simp only [Outline.record, map_set_same hi (rfl : (shift increment stream).address = stream.address)]
    exact h.nodup
  · rcases mem_set hi hin with rfl | ⟨j, _, hj⟩
    · exact h.fresh stream hmem
    · exact h.fresh other (List.mem_of_getElem? hj)
  · have hfresh := h.fresh stream hmem
    have hle : o.nextAddress ≤ address := hle
    simp only [Outline.record, hother (by omega : address ≠ stream.address)]
    exact h.untouched address hle

/-- The peer announces another initial window. -/
theorem applied (h : Balanced o) {window : Nat} (hw : window ≤ http2MaxWindowSize)
    (hmax : 0 < (window : Int) - o.initialWindow →
      ∀ stream ∈ o.streams, stream.sendWindow + ((window : Int) - o.initialWindow) ≤ http2MaxWindowSize) :
    Balanced ({ o with
      streams := o.streams.map (shift ((window : Int) - o.initialWindow))
      initialWindow := window }.record (.applied window)) := by
  have hbalance : ∀ address, balance address (.applied window :: o.history) = balance address o.history := by
    intro address
    rw [balance_cons]
    simp [Event.grant, Event.emissionOn]
  have hmem : ∀ stream ∈ o.streams.map (shift ((window : Int) - o.initialWindow)), ∃ stream' ∈ o.streams,
      stream = shift ((window : Int) - o.initialWindow) stream' := by
    intro stream hin
    obtain ⟨stream', hmem', heq⟩ := List.mem_map.mp hin
    exact ⟨stream', hmem', heq.symm⟩
  refine ⟨?_, rfl, fun stream hin => ?_, h.bounds, fun stream hin => ?_, fun stream hin => ?_, hw, ?_,
    fun stream hin => ?_, fun address hle => ?_, ⟨trivial, h.covered⟩⟩
  · simp only [Outline.record, credit_cons, Event.widening, Event.emission, h.connection]
    omega
  · obtain ⟨stream', hmem', rfl⟩ := hmem stream hin
    have hstream := h.streams stream' hmem'
    simp only [Outline.record, shift, hbalance]
    omega
  · obtain ⟨stream', hmem', rfl⟩ := hmem stream hin
    have hupper := h.upper stream' hmem'
    have hgrown := fun hpos => hmax hpos stream' hmem'
    simp only [shift]
    omega
  · obtain ⟨stream', hmem', rfl⟩ := hmem stream hin
    simp only [Outline.record, shift, hbalance]
    exact h.lower stream' hmem'
  · simp only [Outline.record, List.map_map]
    exact h.nodup
  · obtain ⟨stream', hmem', rfl⟩ := hmem stream hin
    exact h.fresh stream' hmem'
  · simp only [Outline.record, hbalance]
    exact h.untouched address hle

/-- A stream enters the table with the initial window that the peer has announced. -/
theorem enrol (h : Balanced o) (streamId dependency : Nat) : Balanced (o.enrol streamId dependency) := by
  have hplain : ∀ address, balance address (.opened o.nextAddress streamId :: o.history) = balance address o.history :=
    fun address => Event.plain_opened.balance
  have hnew := h.untouched o.nextAddress le_rfl
  have hlargest := h.largest
  have hmem : ∀ stream ∈ (o.enrol streamId dependency).streams, stream ∈ o.streams ∨
      stream = { streamId, dependency, sendWindow := o.initialWindow, address := o.nextAddress } := by
    intro stream hin
    simpa [Outline.enrol] using hin
  refine ⟨?_, h.initial, fun stream hin => ?_, h.bounds, fun stream hin => ?_, fun stream hin => ?_, h.largest, ?_,
    fun stream hin => ?_, fun address hle => ?_, ⟨trivial, h.covered⟩⟩
  · exact h.connection.trans Event.plain_opened.credit.symm
  · simp only [Outline.enrol, hplain]
    cases hmem stream hin with
    | inl hold => exact h.streams stream hold
    | inr hin => simp [hin, hnew]
  · cases hmem stream hin with
    | inl hold => exact h.upper stream hold
    | inr hin =>
        have hwindow : (o.initialWindow : Int) ≤ http2MaxWindowSize := Int.ofNat_le.mpr hlargest
        rw [hin]
        exact hwindow
  · simp only [Outline.enrol, hplain]
    cases hmem stream hin with
    | inl hold => exact h.lower stream hold
    | inr hin =>
        rw [hin, hnew]
        omega
  · simp only [Outline.enrol, List.map_append, List.map_singleton]
    refine List.nodup_append.mpr ⟨h.nodup, List.nodup_singleton _, ?_⟩
    intro address hin other hother
    obtain ⟨stream, hstream, rfl⟩ := List.mem_map.mp hin
    have hfresh := h.fresh stream hstream
    rw [List.mem_singleton] at hother
    omega
  · cases hmem stream hin with
    | inl hold => exact Nat.lt_succ_of_lt (h.fresh stream hold)
    | inr hin =>
        rw [hin]
        exact Nat.lt_succ_self _
  · simp only [Outline.enrol, hplain]
    exact h.untouched address (Nat.le_of_succ_le hle)

/-- The peer grants the connection an increment. -/
theorem widened (h : Balanced o) {frame : Http2Frame} (hf : frame.type = .windowUpdate ∧ frame.streamId = 0)
    (hmax : o.sendWindow + frame.increment ≤ http2MaxWindowSize) :
    Balanced { o.record (.received frame) with sendWindow := o.sendWindow + frame.increment } := by
  have hbalance : ∀ address, balance address (.received frame :: o.history) = balance address o.history := by
    intro address
    rw [balance_cons]
    simp [Event.grant, Event.emissionOn]
  refine ⟨?_, h.initial, fun stream hin => ?_, ?_, h.upper, fun stream hin => ?_, h.largest, h.nodup, h.fresh,
    fun address hle => ?_, ⟨trivial, h.covered⟩⟩
  · simp only [Outline.record, credit_cons, Event.widening, Event.emission, if_pos hf, h.connection]
    omega
  · simp only [Outline.record, hbalance]
    exact h.streams stream hin
  · have hbounds := h.bounds
    dsimp only
    omega
  · simp only [Outline.record, hbalance]
    exact h.lower stream hin
  · simp only [Outline.record, hbalance]
    exact h.untouched address hle

end Balanced

theorem windows_of_reparent {i : Nat} {stream : OutlineStream} {streams : List OutlineStream}
    (hperm : streams.Perm ((o.streams.eraseIdx i).map (reparent stream))) :
    (streams.map fun st => (st.address, st.sendWindow)).Subperm o.windows := by
  have hmap := hperm.map fun st => (st.address, st.sendWindow)
  rw [map_reparent fun _ _ => rfl] at hmap
  exact ⟨_, hmap.symm, (List.eraseIdx_sublist _ _).map _⟩

/-- The kinds of the moves that keep the windows balanced on their own. -/
def steadyKinds : MoveKind → Prop
  | .received frame => ¬ (frame.type = .windowUpdate ∧ frame.streamId = 0)
  | .widened _ | .spoiled | .failed _ => False
  | _ => True

theorem Move.balanced (hm : Move kind o o') (hk : steadyKinds kind) (h : Balanced o) : Balanced o' := by
  cases hm with
  | received frame => exact h.record (Event.plain_received hk)
  | called | began => exact h.record Event.plain_called
  | wrote owner frame ht => exact h.record (Event.plain_wrote _ ht.1)
  | emitted i stream frame hi ht _ hs hc => exact h.emitted hi ht hs hc
  | opened streamId =>
      exact (h.enrol streamId 0).of_windows (List.Subperm.refl _) rfl rfl rfl rfl
  | promised i parent frame streamId hi ht =>
      have hpush : Balanced { o with pushStreamId := streamId } :=
        h.of_windows (List.Subperm.refl _) rfl rfl rfl rfl
      have hwrote := hpush.record (Event.plain_wrote (some parent.address) (by simp [ht.1] : frame.type ≠ .data))
      exact (hwrote.record Event.plain_promised).enrol streamId parent.streamId
  | skipped streamId => exact h.of_windows (List.Subperm.refl _) rfl rfl rfl rfl
  | prioritised i stream dependency exclusive =>
      refine h.of_windows ?_ rfl rfl rfl rfl
      have hwindows : (place o.streams i stream dependency exclusive).map (fun st => (st.address, st.sendWindow)) =
          o.windows := map_place (fun _ _ => rfl) _ _ _ _ _
      exact hwindows ▸ List.Subperm.refl _
  | closed i stream streams hi hperm =>
      have hclosed : Balanced { o with streams } := h.of_windows (windows_of_reparent hperm) rfl rfl rfl rfl
      exact hclosed.record Event.plain_closed
  | widened => cases hk
  | granted i stream increment hi _ hmax => exact h.granted hi hmax
  | applied window hw hmax => exact h.applied hw hmax
  | spoiled => cases hk
  | reset streamId code => exact h.record (Event.plain_wrote _ (by simp [encodeValueHttp2]))
  | away => exact h.of_windows (List.Subperm.refl _) rfl rfl rfl rfl
  | failed => cases hk

end Outline

/-! ## Steps -/

namespace Http2Connection

open Outline

variable {s : Http2Connection} {service : Service} {input : Input} {frame : Http2Frame}

theorem updateConnection_spec {increment : Nat} :
    wp (updateWindow 0 increment)
      (fun _ t => s.sendWindow + increment ≤ http2MaxWindowSize ∧ t = { s with sendWindow := s.sendWindow + increment })
      (fun _ _ => True) s := by
  unfold updateWindow
  simp only [wp_bind, wp_get, wp_ite, wp_throw, wp_set, if_true]
  split
  · trivial
  · split
    · trivial
    · exact ⟨by omega, by trivial⟩

/-- An update of the window of the connection that is no error widens it once and lets payload out. -/
theorem handleWidening_spec (hf : frame.type = .windowUpdate ∧ frame.streamId = 0) :
    wp (handleFrame service frame)
      (fun _ t => s.sendWindow + frame.increment ≤ http2MaxWindowSize ∧
        Does (fun kind => kind = .emitted) { s with sendWindow := s.sendWindow + frame.increment } t)
      (fun _ _ => True) s := by
  obtain ⟨ht, hid⟩ := hf
  have hdata : ¬ frame.type = .data := by simp [ht]
  have hupdate : wp (handleWindowUpdate frame)
      (fun _ t => s.sendWindow + frame.increment ≤ http2MaxWindowSize ∧
        Does (fun kind => kind = .emitted) { s with sendWindow := s.sendWindow + frame.increment } t)
      (fun _ _ => True) s := by
    unfold handleWindowUpdate
    simp only [hid, wp_tryCatch, wp_bind, wp_modify, wp_ite, wp_throw]
    refine updateConnection_spec.mono ?_ ?_
    · rintro _ _ ⟨hmax, rfl⟩
      exact ⟨hmax, schedule_does rfl⟩
    · intro e t _
      split
      case isTrue h => exact absurd rfl h.2
      case isFalse => trivial
  unfold handleFrame accountData dispatchFrame
  rw [if_neg hdata]
  simp only [wp_bind, wp_get, wp_refuseSome, wp_refuseIf, wp_pure, ht]
  split
  · trivial
  · split
    · trivial
    · split
      · trivial
      · exact hupdate

theorem receive_balanced (hf : frame.type = .windowUpdate ∧ frame.streamId = 0)
    (hsound : ∀ error, .failed error ∉ (receive service frame s).history) (h : s.outline.Balanced) :
    (receive service frame s).outline.Balanced := by
  have hspec : wp (handleFrame service frame) _ _ (s.record (.received frame)) := handleWidening_spec hf
  unfold wp at hspec
  unfold receive at hsound ⊢
  split at hspec
  case h_1 hrun =>
    rw [hrun]
    obtain ⟨hmax, hdoes⟩ := hspec
    refine Moves.keeps (fun kind o o' hk hm ho => hm.balanced ?_ ho) hdoes (h.widened hf hmax)
    rw [hk]
    trivial
  case h_2 error t hrun =>
    rw [hrun] at hsound
    exact absurd (failed_mem_fail error t) (hsound error)

theorem soundKinds_steady {promises : Prop} (hf : ∀ frame, input = .frame frame →
    ¬ (frame.type = .windowUpdate ∧ frame.streamId = 0)) {kind : MoveKind} (hk : soundKinds promises s input kind) :
    steadyKinds kind := by
  cases input with
  | frame frame =>
      cases hk with
      | inl hk =>
          rw [hk]
          exact hf frame rfl
      | inr hk =>
          cases kind with
          | received => cases hk
          | widened increment => exact hf frame rfl ⟨hk.1, hk.2.1⟩
          | spoiled => exact hk
          | failed => exact hk
          | _ => trivial
  | oversized => cases hk
  | written =>
      cases hk with
      | inl hk =>
          cases kind with
          | received => cases hk
          | widened | spoiled | failed => exact hk
          | _ => trivial
      | inr hk =>
          obtain ⟨streamId, rfl⟩ := hk
          trivial
  | work actions =>
      cases kind with
      | received => cases hk
      | widened | spoiled | failed => exact hk
      | _ => trivial

/-- A step that meets no error keeps the windows balanced. -/
theorem balanced_step (hsound : ∀ error, .failed error ∉ (step service input s).history) (h : s.outline.Balanced) :
    (step service input s).outline.Balanced := by
  by_cases hf : ∀ frame, input = .frame frame → ¬ (frame.type = .windowUpdate ∧ frame.streamId = 0)
  · exact Moves.keeps (fun kind o o' hk hm ho => hm.balanced (soundKinds_steady hf hk) ho) (step_sound hsound) h
  · obtain ⟨frame, hf⟩ := Classical.not_forall.mp hf
    obtain ⟨rfl, hwidening⟩ := Classical.not_imp.mp hf
    unfold step at hsound ⊢
    by_cases hclosed : s.connectionClosed = true
    · rw [if_pos hclosed]
      exact h
    · rw [if_neg hclosed] at hsound ⊢
      exact receive_balanced (not_not.mp hwidening) hsound h

/-! ## Runs -/

theorem balanced_create : create.outline.Balanced where
  connection := by decide
  initial := by decide
  streams := by decide
  bounds := by decide
  upper := by decide
  lower := by decide
  largest := by decide
  nodup := by decide
  fresh := by decide
  untouched := fun _ _ => rfl
  covered := trivial

theorem balanced_start : start.outline.Balanced :=
  balanced_create.record (Event.plain_wrote none (by decide))

theorem balanced_run {inputs : List (Service × Input)} (hsound : ∀ error, .failed error ∉ (run inputs s).history)
    (h : s.outline.Balanced) : (run inputs s).outline.Balanced := by
  induction inputs generalizing s with
  | nil => exact h
  | cons input inputs ih =>
      refine ih hsound (balanced_step (fun error hmem => hsound error ?_) h)
      exact (run_history inputs _).subset hmem

/-- In a run without an error the windows are what the peer has granted less what has been sent, they stay within the
bounds of the protocol, and no payload is sent without credit. -/
theorem windows_account {inputs : List (Service × Input)} (hsound : ∀ error, .failed error ∉ (run inputs start).history) :
    (run inputs start).sendWindow = credit (run inputs start).history ∧
    (∀ stream ∈ (run inputs start).streams, stream.sendWindow =
      (run inputs start).remote.initialWindowSize + balance stream.request.address (run inputs start).history) ∧
    (0 ≤ (run inputs start).sendWindow ∧ (run inputs start).sendWindow ≤ http2MaxWindowSize) ∧
    (∀ stream ∈ (run inputs start).streams,
      -(http2MaxWindowSize : Int) ≤ stream.sendWindow ∧ stream.sendWindow ≤ http2MaxWindowSize) ∧
    Covered (run inputs start).history := by
  have h := balanced_run hsound balanced_start
  have hmem : ∀ stream ∈ (run inputs start).streams, stream.outline ∈ (run inputs start).outline.streams :=
    fun stream hin => List.mem_map_of_mem hin
  refine ⟨h.connection, fun stream hin => h.streams _ (hmem stream hin), h.bounds, fun stream hin => ?_, h.covered⟩
  have hstream := h.streams _ (hmem stream hin)
  have hlower := h.lower _ (hmem stream hin)
  refine ⟨?_, h.upper _ (hmem stream hin)⟩
  have hwindow : stream.sendWindow = (run inputs start).outline.initialWindow +
      balance stream.request.address (run inputs start).history := hstream
  have hbalance : -(http2MaxWindowSize : Int) ≤ balance stream.request.address (run inputs start).history := hlower
  omega

/-- A run in which the window of a stream is taken below zero and widened again. -/
def windowRun : List (Service × Input) :=
  [pageRequest 1, (pageService, .frame (windowSettings 4)), pageRequest 3, (pageService, .frame (windowUpdate 3 5)),
    (pageService, .frame (windowUpdate 0 100))]

theorem windows_account_run : (run windowRun start).sendWindow = credit (run windowRun start).history := by
  have hsound : ∀ error, .failed error ∉ (run windowRun start).history := by
    have hevents : ((run windowRun start).history.all fun event =>
        match event with
        | .failed _ => false
        | _ => true) = true := by decide +kernel
    intro error hmem
    cases List.all_eq_true.mp hevents _ hmem
  exact (windows_account hsound).1

end Http2Connection

end Viriatum
