import Viriatum.Stream.Lemmas.Steps

/-!
# What the moves add to the history

A move of the outline adds events of its own kind, and only two kinds of moves bring a stream into the table.
-/

namespace Viriatum

namespace MoveKind

/-- The events that a move of a kind may add to the history of an outline. -/
def Adds (o : Outline) : MoveKind → Event → Prop
  | .received frame, event => event = .received frame
  | .called, event => ∃ callback, event = .called callback ∧ ∀ a, callback ≠ .messageBegin a
  | .began, event => ∃ address, event = .called (.messageBegin address)
  | .wrote, event => ∃ owner frame, event = .wrote owner frame ∧
      (frame.type ≠ .data ∧ frame.type ≠ .rstStream ∧ frame.type ≠ .goaway) ∧
      (frame.streamId = 0 ∨ frame.streamId ∈ o.ids)
  | .emitted, event => ∃ owner frame, event = .wrote owner frame ∧ frame.type = .data ∧ frame.streamId ∈ o.ids
  | .opened streamId, event => ∃ address, event = .opened address streamId
  | .promised, event => (∃ owner frame, event = .wrote owner frame ∧ frame.type = .pushPromise ∧ frame.streamId ∈ o.ids) ∨
      (∃ parentId streamId tree, event = .promised parentId streamId tree) ∨
      ∃ address, event = .opened address ((o.pushStreamId + 2) % 2 ^ 32)
  | .closed _, event => ∃ address, event = .closed address
  | .granted _ _, event => ∃ address increment, event = .granted address increment
  | .applied, event => ∃ window, event = .applied window
  | .spoiled, event => ∃ window, event = .applied window
  | .reset streamId, event => ∃ code, event = .wrote none (encodeValueHttp2 .rstStream streamId code)
  | .failed error, event => event = .failed error ∨ ∃ frame, event = .wrote none frame ∧ frame.type = .goaway
  | .skipped, _ => False
  | .prioritised, _ => False
  | .widened _, _ => False
  | .away, _ => False

/-- Whether a move of the kind brings a stream into the table. -/
def Enrols : MoveKind → Prop
  | .opened _ => True
  | .promised => True
  | _ => False

namespace Adds

attribute [local simp] Adds Enrols

variable {o : Outline} {kind : MoveKind}

/-- The moves that write a frame, each with what it writes. -/
theorem of_wrote {owner : Option Nat} {frame : Http2Frame} (h : kind.Adds o (.wrote owner frame)) :
    (kind = .wrote ∧ (frame.type ≠ .data ∧ frame.type ≠ .rstStream ∧ frame.type ≠ .goaway) ∧
      (frame.streamId = 0 ∨ frame.streamId ∈ o.ids)) ∨
    (kind = .emitted ∧ frame.type = .data ∧ frame.streamId ∈ o.ids) ∨
    (kind = .promised ∧ frame.type = .pushPromise ∧ frame.streamId ∈ o.ids) ∨
    (kind = .reset frame.streamId ∧ frame.type = .rstStream) ∨ ∃ error, kind = .failed error ∧ frame.type = .goaway := by
  cases kind <;> simp_all [Adds, encodeValueHttp2]
  grind

theorem of_received {frame : Http2Frame} (h : kind.Adds o (.received frame)) : kind = .received frame := by
  cases kind <;> simp_all [Adds]

theorem of_opened {address streamId : Nat} (h : kind.Adds o (.opened address streamId)) : kind.Enrols := by
  cases kind <;> simp_all [Adds, Enrols]

theorem of_began {address : Nat} (h : kind.Adds o (.called (.messageBegin address))) : kind = .began := by
  cases kind <;> simp_all [Adds]

end Adds

end MoveKind

namespace Outline

variable {o o' : Outline} {kind : MoveKind}

theorem mem_ids_of_getElem? {i : Nat} {stream : OutlineStream} (hi : o.streams[i]? = some stream) :
    stream.streamId ∈ o.ids :=
  List.mem_map_of_mem (List.mem_of_getElem? hi)

/-! ## What the tree leaves alone -/

section Places

variable {α : Type} {f : OutlineStream → α} (hf : ∀ stream dependency, f { stream with dependency } = f stream)
include hf

theorem map_modify (streams : List OutlineStream) (i dependency : Nat) :
    (streams.modify i fun stream => { stream with dependency }).map f = streams.map f := by
  apply List.ext_getElem?
  intro j
  simp only [List.getElem?_map, List.getElem?_modify]
  split
  · cases streams[j]? with
    | none => rfl
    | some stream => simp [hf]
  · cases streams[j]? <;> rfl

theorem map_depend (streams : List OutlineStream) (streamId dependency : Nat) :
    (depend streams streamId dependency).map f = streams.map f := by
  unfold depend
  split
  · rfl
  · exact map_modify hf _ _ _

theorem map_adopt (streams : List OutlineStream) (streamId dependency : Nat) :
    (adopt streams streamId dependency).map f = streams.map f := by
  simp only [adopt, List.map_map]
  apply List.map_congr_left
  intro stream _
  simp only [Function.comp]
  split
  · rfl
  · split
    · rfl
    · exact hf stream streamId

theorem map_place (streams : List OutlineStream) (i : Nat) (stream : OutlineStream) (dependency : Nat)
    (exclusive : Bool) : (place streams i stream dependency exclusive).map f = streams.map f := by
  have hdepend : (if descends streams streams.length dependency stream.streamId then
      depend streams dependency stream.dependency else streams).map f = streams.map f := by
    split
    · exact map_depend hf _ _ _
    · rfl
  unfold place
  dsimp only
  rw [map_modify hf]
  split
  · rw [map_adopt hf, hdepend]
  · exact hdepend

theorem map_reparent (closed : OutlineStream) (streams : List OutlineStream) :
    (streams.map (reparent closed)).map f = streams.map f := by
  rw [List.map_map]
  apply List.map_congr_left
  intro stream _
  simp only [Function.comp, reparent]
  split
  · exact hf stream closed.dependency
  · rfl

end Places

theorem ids_adopt (streams : List OutlineStream) (streamId dependency : Nat) :
    (adopt streams streamId dependency).map OutlineStream.streamId = streams.map OutlineStream.streamId :=
  map_adopt (fun _ _ => rfl) streams streamId dependency

theorem ids_place (streams : List OutlineStream) (i : Nat) (stream : OutlineStream) (dependency : Nat)
    (exclusive : Bool) :
    (place streams i stream dependency exclusive).map OutlineStream.streamId =
      streams.map OutlineStream.streamId :=
  map_place (fun _ _ => rfl) streams i stream dependency exclusive

/-! ## Events -/

theorem ids_of_places {streams : List OutlineStream}
    (h : streams.map OutlineStream.place = o.streams.map OutlineStream.place) :
    streams.map OutlineStream.streamId = o.ids := by
  have hids := congrArg (List.map Prod.fst) h
  rw [List.map_map, List.map_map] at hids
  exact hids

/-- A move adds events of its kind to the history. -/
theorem Move.adds (h : Move kind o o') :
    ∃ events, o'.history = events ++ o.history ∧ ∀ event ∈ events, kind.Adds o event := by
  cases h with
  | received frame => exact ⟨[_], rfl, by simp [MoveKind.Adds]⟩
  | called callback hc => exact ⟨[_], rfl, by simpa [MoveKind.Adds] using hc⟩
  | began address => exact ⟨[_], rfl, by simp [MoveKind.Adds]⟩
  | wrote owner frame ht hid => exact ⟨[_], rfl, by simpa [MoveKind.Adds] using ⟨ht, hid⟩⟩
  | emitted i stream frame hi ht hid =>
      exact ⟨[_], rfl, by simpa [MoveKind.Adds] using ⟨ht, hid ▸ mem_ids_of_getElem? hi⟩⟩
  | opened streamId => exact ⟨[_], rfl, by simp [MoveKind.Adds]⟩
  | promised i parent frame streamId hi ht hid =>
      have hmem := mem_ids_of_getElem? hi
      exact ⟨[_, _, _], rfl, by simpa [MoveKind.Adds, hid] using ⟨ht.1, ht.2 ▸ hmem⟩⟩
  | skipped => exact ⟨[], rfl, by simp⟩
  | prioritised => exact ⟨[], rfl, by simp⟩
  | closed => exact ⟨[_], rfl, by simp [MoveKind.Adds]⟩
  | widened => exact ⟨[], rfl, by simp⟩
  | granted => exact ⟨[_], rfl, by simp [MoveKind.Adds]⟩
  | applied => exact ⟨[_], rfl, by simp [MoveKind.Adds]⟩
  | spoiled => exact ⟨[_], rfl, by simp [MoveKind.Adds]⟩
  | reset streamId code => exact ⟨[_], rfl, by simp [MoveKind.Adds]⟩
  | away => exact ⟨[], rfl, by simp⟩
  | failed error =>
      unfold fail
      split
      · exact ⟨[_], rfl, by simp [MoveKind.Adds]⟩
      · exact ⟨[_, _], rfl, by simp [MoveKind.Adds, encodeGoawayHttp2]⟩

/-- No move forgets what has been done. -/
theorem Move.history (h : Move kind o o') : o.history <:+ o'.history := by
  obtain ⟨events, heq, -⟩ := h.adds
  exact heq ▸ List.suffix_append events o.history

theorem subset_of_ids (h : o'.ids = o.ids) : o'.ids ⊆ o.ids := h ▸ List.Subset.refl _

/-- A move of any other kind brings no stream into the table. -/
theorem Move.ids_subset (h : Move kind o o') (hk : ¬ kind.Enrols) : o'.ids ⊆ o.ids := by
  cases h with
  | received | called | began | wrote | skipped | widened | reset | away => exact List.Subset.refl _
  | opened => exact absurd trivial hk
  | promised => exact absurd trivial hk
  | emitted i stream frame hi => exact subset_of_ids (map_set_same hi rfl)
  | granted i stream increment hi => exact subset_of_ids (map_set_same hi rfl)
  | prioritised i stream dependency exclusive => exact subset_of_ids (ids_place _ _ _ _ _)
  | closed i stream streams hi hperm =>
      have hids := (hperm.map OutlineStream.streamId).subset
      rw [map_reparent fun _ _ => rfl] at hids
      exact List.Subset.trans hids (List.map_subset _ (List.eraseIdx_sublist _ _).subset)
  | applied window =>
      refine subset_of_ids ?_
      simp only [ids, record, List.map_map]
      rfl
  | spoiled window streams _ hplace => exact subset_of_ids (ids_of_places hplace)
  | failed error =>
      unfold fail
      split <;> exact List.Subset.refl _

/-- The identifier that a move brings into the table. -/
theorem Move.mem_ids (hm : Move kind o o') {streamId : Nat} (hmem : streamId ∈ o'.ids) :
    streamId ∈ o.ids ∨ kind = .opened streamId ∨ kind = .promised ∧ streamId = (o.pushStreamId + 2) % 2 ^ 32 := by
  by_cases hk : kind.Enrols
  · cases hm with
    | opened id =>
        simp only [enrol, ids, List.map_append, List.mem_append, List.map_singleton, List.mem_singleton] at hmem
        cases hmem with
        | inl hold => exact Or.inl hold
        | inr hnew => exact Or.inr (Or.inl (hnew ▸ rfl))
    | promised i parent frame id hi ht hid =>
        simp only [enrol, ids, List.map_append, List.mem_append, List.map_singleton, List.mem_singleton] at hmem
        cases hmem with
        | inl hold => exact Or.inl hold
        | inr hnew => exact Or.inr (Or.inr ⟨rfl, hnew.trans hid⟩)
    | _ => cases hk
  · exact Or.inl (hm.ids_subset hk hmem)

end Outline

namespace Http2Connection

variable {s : Http2Connection} {service : Service} {input : Input}

theorem step_history : s.history <:+ (step service input s).history :=
  Library.Moves.keeps (I := fun o => s.history <:+ o.history) (fun _ _ _ _ hm ho => ho.trans hm.history)
    (@step_does s service input) (List.suffix_refl _)

theorem run_history (inputs : List (Service × Input)) (s : Http2Connection) : s.history <:+ (run inputs s).history := by
  induction inputs generalizing s with
  | nil => exact List.suffix_refl _
  | cons input inputs ih => exact step_history.trans (ih (step input.1 input.2 s))

theorem findStream_eq_none {streamId : Nat} : s.findStream streamId = none ↔ streamId ∉ s.outline.ids := by
  unfold findStream
  rw [List.findIdx?_eq_none_iff]
  simp [Outline.ids, outline, Http2Stream.outline, eq_comm]

end Http2Connection

end Viriatum
