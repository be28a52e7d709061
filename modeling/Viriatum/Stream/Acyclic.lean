import Mathlib.Data.List.Perm.Basic
import Viriatum.Library.Forest
import Viriatum.Stream.Lemmas.Events

/-!
# The tree of the priorities

The streams of the table and their dependencies form a forest, which stays grounded as long as no promise is made on
a stream that hangs from the identifier being promised.
-/

namespace Viriatum

open Library Forest

namespace Outline

/-- The dependency of each stream of the table. -/
def forest (streams : List OutlineStream) : Forest Nat := fun streamId =>
  (streams.find? fun stream => stream.streamId = streamId).map OutlineStream.dependency

/-- The forest of a list of identifiers and their dependencies. -/
def forestOf (tree : List (Nat × Nat)) : Forest Nat := fun streamId =>
  (tree.find? fun node => node.1 = streamId).map Prod.snd

theorem forestOf_tree (o : Outline) : forestOf o.tree = forest o.streams := by
  funext streamId
  simp only [forestOf, tree, forest, List.find?_map, Option.map_map]
  rfl

/-! ## The forest of a list -/

section Forest

variable {streams streams' : List OutlineStream} {stream : OutlineStream} {a : Nat}

theorem forest_cons : forest (stream :: streams) a =
    if a = stream.streamId then some stream.dependency else forest streams a := by
  simp only [forest, List.find?_cons]
  by_cases h : a = stream.streamId
  · simp [h]
  · have h' : ¬ stream.streamId = a := fun h' => h h'.symm
    simp [h, h']

theorem forest_eq_none : forest streams a = none ↔ a ∉ streams.map OutlineStream.streamId := by
  simp only [forest, Option.map_eq_none_iff, List.find?_eq_none, List.mem_map, not_exists, not_and]
  simp

theorem forest_eq_some (hn : (streams.map OutlineStream.streamId).Nodup) {d : Nat} :
    forest streams a = some d ↔ ∃ stream ∈ streams, stream.streamId = a ∧ stream.dependency = d := by
  induction streams with
  | nil => simp [forest]
  | cons first rest ih =>
      obtain ⟨hfirst, hrest⟩ := List.nodup_cons.mp hn
      rw [forest_cons, List.exists_mem_cons_iff]
      split
      case isTrue h =>
        subst h
        rw [Option.some.injEq]
        refine ⟨fun h => Or.inl ⟨rfl, h⟩, ?_⟩
        rintro (⟨_, h⟩ | ⟨other, hmem, hid, _⟩)
        · exact h
        · exact absurd (hid ▸ List.mem_map_of_mem hmem) hfirst
      case isFalse h =>
        rw [ih hrest]
        refine ⟨Or.inr, ?_⟩
        rintro (⟨hid, _⟩ | h')
        · exact absurd hid.symm h
        · exact h'

theorem forest_perm (hn : (streams.map OutlineStream.streamId).Nodup) (h : streams.Perm streams') :
    forest streams = forest streams' := by
  have hn' : (streams'.map OutlineStream.streamId).Nodup := (h.map _).nodup_iff.mp hn
  funext a
  apply Option.ext
  intro d
  rw [forest_eq_some hn, forest_eq_some hn']
  simp only [h.mem_iff]

theorem forest_map (streams : List OutlineStream) (a : Nat) {g : OutlineStream → OutlineStream} {f : Nat → Nat → Nat}
    (hid : ∀ stream, (g stream).streamId = stream.streamId)
    (hdep : ∀ stream, (g stream).dependency = f stream.streamId stream.dependency) :
    forest (streams.map g) a = (forest streams a).map (f a) := by
  induction streams with
  | nil => rfl
  | cons first rest ih =>
      rw [List.map_cons, forest_cons, forest_cons, hid, hdep, ih]
      split
      case isTrue h => rw [h, Option.map_some]
      case isFalse => rfl

/-- A stream of a list, and the rest of it. -/
theorem perm_cons {i : Nat} (hi : streams[i]? = some stream) : streams.Perm (stream :: streams.eraseIdx i) := by
  obtain ⟨hlt, rfl⟩ := List.getElem?_eq_some_iff.mp hi
  exact (List.getElem_cons_eraseIdx_perm hlt).symm

theorem modify_perm {i : Nat} {g : OutlineStream → OutlineStream} (hi : streams[i]? = some stream) :
    (streams.modify i g).Perm (g stream :: streams.eraseIdx i) := by
  obtain ⟨hlt, hstream⟩ := List.getElem?_eq_some_iff.mp hi
  rw [List.modify_eq_set_getElem?, hi]
  exact List.set_perm_cons_eraseIdx hlt _

theorem forest_modify {i dependency : Nat} (hn : (streams.map OutlineStream.streamId).Nodup)
    (hi : streams[i]? = some stream) :
    forest (streams.modify i fun stream => { stream with dependency }) =
      hang (forest streams) stream.streamId dependency := by
  have hperm := perm_cons hi
  have hperm' := modify_perm (g := fun stream => { stream with dependency }) hi
  have hcons : ((stream :: streams.eraseIdx i).map OutlineStream.streamId).Nodup := (hperm.map _).nodup_iff.mp hn
  have hn' : ((streams.modify i fun stream => { stream with dependency }).map OutlineStream.streamId).Nodup :=
    (hperm'.map _).nodup_iff.mpr hcons
  rw [forest_perm hn' hperm', forest_perm hn hperm]
  funext a
  rw [forest_cons]
  by_cases h : a = stream.streamId
  · rw [if_pos h, h, hang_self]
  · rw [if_neg h, hang_of_ne h, forest_cons, if_neg h]

theorem forest_append (hn : a ∉ streams.map OutlineStream.streamId) (hid : stream.streamId = a) :
    forest (streams ++ [stream]) = hang (forest streams) a stream.dependency := by
  funext b
  simp only [forest, List.find?_append, List.find?_singleton, hid]
  by_cases h : b = a
  · subst h
    have hnone : streams.find? (fun stream => decide (stream.streamId = b)) = none := by
      have hforest := forest_eq_none.mpr hn
      simpa only [forest, Option.map_eq_none_iff] using hforest
    rw [hang_self, hnone]
    simp
  · have h' : ¬ a = b := fun h' => h h'.symm
    rw [hang_of_ne h]
    simp [h', forest]

/-! ## Priorities -/

theorem descends_eq_meets (hzero : forest streams 0 = none) {steps b : Nat} (hb : b ≠ 0) :
    descends streams steps a b = meets (forest streams) steps a b := by
  induction steps generalizing a with
  | zero => rfl
  | succ steps ih =>
      unfold descends meets
      by_cases ha : a = 0
      · subst ha
        rw [if_pos rfl, if_neg (fun h => hb h.symm), hzero]
      · rw [if_neg ha]
        simp only [forest]
        cases streams.find? fun stream => decide (stream.streamId = a) with
        | none => rfl
        | some stream => simp only [Option.map_some, ih]

theorem forest_depend (hn : (streams.map OutlineStream.streamId).Nodup) {streamId dependency d : Nat}
    (hd : forest streams streamId = some d) :
    forest (depend streams streamId dependency) = hang (forest streams) streamId dependency := by
  unfold depend
  split
  case h_1 hnone =>
    have hnot : streamId ∉ streams.map OutlineStream.streamId := by
      intro hmem
      obtain ⟨stream, hmem, hid⟩ := List.mem_map.mp hmem
      have := List.findIdx?_eq_none_iff.mp hnone stream hmem
      simp [hid] at this
    rw [forest_eq_none.mpr hnot] at hd
    cases hd
  case h_2 i hi =>
    obtain ⟨hlt, hid, _⟩ := List.findIdx?_eq_some_iff_getElem.mp hi
    have hid : (streams[i]).streamId = streamId := by simpa using hid
    rw [forest_modify hn (List.getElem?_eq_getElem hlt), hid]

theorem forest_adopt {streamId dependency : Nat} : forest (adopt streams streamId dependency) a =
    if a = streamId then forest streams a
    else if forest streams a = some dependency then some streamId else forest streams a := by
  have hmap := forest_map streams a (g := fun stream =>
    if stream.streamId = streamId then stream
    else if stream.dependency ≠ dependency then stream
    else { stream with dependency := streamId })
    (f := fun id d => if id = streamId then d else if d = dependency then streamId else d)
    (by
      intro stream
      split
      · rfl
      · split <;> rfl)
    (by
      intro stream
      by_cases h : stream.streamId = streamId
      · simp [h]
      · by_cases h' : stream.dependency = dependency
        · simp [h, h']
        · simp [h, h'])
  rw [adopt, hmap]
  cases forest streams a with
  | none => simp
  | some d =>
      by_cases h : a = streamId
      · simp [h]
      · by_cases h' : d = dependency
        · simp [h, h']
        · simp [h, h']

theorem forest_modify_of_ids {streams' : List OutlineStream} {i : Nat} (dependency : Nat)
    (hn : (streams.map OutlineStream.streamId).Nodup)
    (hids : streams'.map OutlineStream.streamId = streams.map OutlineStream.streamId) (hi : streams[i]? = some stream) :
    forest (streams'.modify i fun stream => { stream with dependency }) =
      hang (forest streams') stream.streamId dependency := by
  have hget := congrArg (fun ids => ids[i]?) hids
  simp only [List.getElem?_map, hi, Option.map_some] at hget
  obtain ⟨stream', hi', hid⟩ := Option.map_eq_some_iff.mp hget
  rw [← hid]
  exact forest_modify (hids ▸ hn) hi'

/-- A stream moved out of the way of the one being placed: it takes the dependency of that one when it hangs from
it, so that the place is free of the stream. -/
theorem grounded_moved (hn : (streams.map OutlineStream.streamId).Nodup) (hzero : forest streams 0 = none)
    (hg : (forest streams).Grounded) {i dependency : Nat} (hi : streams[i]? = some stream)
    (hne : dependency ≠ stream.streamId) :
    (forest (if descends streams streams.length dependency stream.streamId then
      depend streams dependency stream.dependency else streams)).Grounded ∧
    ¬ Above (forest (if descends streams streams.length dependency stream.streamId then
      depend streams dependency stream.dependency else streams)) dependency stream.streamId := by
  have hx : forest streams stream.streamId = some stream.dependency :=
    (forest_eq_some hn).mpr ⟨stream, List.mem_of_getElem? hi, rfl, rfl⟩
  have hx0 : stream.streamId ≠ 0 := by
    intro h
    rw [h, hzero] at hx
    cases hx
  have hdom : ∀ z, forest streams z ≠ none → z ∈ streams.map OutlineStream.streamId := by
    intro z hz
    by_contra hmem
    exact hz (forest_eq_none.mpr hmem)
  have hiff := hg.meets_iff (a := dependency) (b := stream.streamId) hdom (by simp [hx])
  rw [List.length_map, ← descends_eq_meets hzero hx0] at hiff
  by_cases hd : Above (forest streams) dependency stream.streamId
  · rw [if_pos (hiff.mpr hd)]
    obtain ⟨d, hdep, _⟩ := hd.of_ne hne
    rw [forest_depend hn hdep]
    refine ⟨hg.hang ?_, hg.not_above_hang hx hne hd⟩
    intro habove
    exact hg.not_above hx (habove.trans hd)
  · rw [if_neg fun h => hd (hiff.mp h)]
    exact ⟨hg, hd⟩

/-- Placing a stream under another one keeps the forest grounded. -/
theorem grounded_place (hn : (streams.map OutlineStream.streamId).Nodup) (hzero : forest streams 0 = none)
    (hg : (forest streams).Grounded) {i dependency : Nat} {exclusive : Bool} (hi : streams[i]? = some stream)
    (hne : dependency ≠ stream.streamId) : (forest (place streams i stream dependency exclusive)).Grounded := by
  obtain ⟨hmoved, hfree⟩ := grounded_moved hn hzero hg hi hne
  have hids : (if descends streams streams.length dependency stream.streamId then
      depend streams dependency stream.dependency else streams).map OutlineStream.streamId =
      streams.map OutlineStream.streamId := by
    split
    · exact map_depend (fun _ _ => rfl) _ _ _
    · rfl
  unfold place
  generalize (if descends streams streams.length dependency stream.streamId then
    depend streams dependency stream.dependency else streams) = moved at hmoved hfree hids
  cases exclusive with
  | false =>
      have hforest := forest_modify_of_ids dependency hn hids hi
      simp only [Bool.false_eq_true, if_false, hforest]
      exact hmoved.hang hfree
  | true =>
      have hforest := forest_modify_of_ids dependency hn
        ((ids_adopt moved stream.streamId dependency).trans hids) hi
      have hintrude : hang (forest (adopt moved stream.streamId dependency)) stream.streamId dependency =
          intrude (forest moved) stream.streamId dependency := by
        funext a
        by_cases ha : a = stream.streamId
        · rw [ha, hang_self, intrude, if_pos rfl]
        · rw [hang_of_ne ha, forest_adopt, intrude, if_neg ha, if_neg ha]
      simp only [if_true, hforest, hintrude]
      exact hmoved.intrude hfree

/-- Taking a stream out and hanging the ones below it from where it hung. -/
theorem forest_reparent (hn : (streams.map OutlineStream.streamId).Nodup) (hperm : streams.Perm (stream :: streams')) :
    forest (streams'.map (reparent stream)) = prune (forest streams) stream.streamId := by
  have hcons : ((stream :: streams').map OutlineStream.streamId).Nodup := (hperm.map _).nodup_iff.mp hn
  have hnone : forest streams' stream.streamId = none := forest_eq_none.mpr (List.nodup_cons.mp hcons).1
  funext a
  rw [forest_map _ _ (f := fun _ d => if d = stream.streamId then stream.dependency else d), prune, forest_perm hn hperm,
    forest_cons, forest_cons, if_pos rfl]
  · by_cases ha : a = stream.streamId
    · rw [if_pos ha, ha, hnone]
      rfl
    · rw [if_neg ha, if_neg ha]
      cases forest streams' a with
      | none => rfl
      | some d =>
          by_cases hd : d = stream.streamId
          · simp [hd]
          · simp [hd]
  · intro other
    unfold reparent
    split <;> rfl
  · intro other
    unfold reparent
    split <;> simp_all

end Forest

/-! ## The invariant -/

/-- The promises of a history are made on streams that do not hang from the identifiers promised, which are never
the one of the connection. -/
def SoundPromises (history : List Event) : Prop :=
  ∀ parentId streamId tree, Event.promised parentId streamId tree ∈ history →
    streamId ≠ 0 ∧ ¬ Above (forestOf tree) parentId streamId

/-- The identifiers of the streams are distinct and have been given out, and their forest is grounded. -/
structure Rooted (o : Outline) : Prop where
  nodup : o.ids.Nodup
  client : ∀ id ∈ o.ids, id % 2 = 1 → id ≤ o.lastStreamId
  server : ∀ id ∈ o.ids, id % 2 = 0 → 0 < id ∧ id ≤ o.pushStreamId
  even : o.pushStreamId % 2 = 0 ∧ o.pushStreamId < 2 ^ 32
  grounded : (forest o.streams).Grounded

theorem SoundPromises.of_suffix {history history' : List Event} (h : SoundPromises history')
    (hsuffix : history <:+ history') : SoundPromises history :=
  fun parentId streamId tree hmem => h parentId streamId tree (hsuffix.subset hmem)

namespace Rooted

variable {o o' : Outline} {kind : MoveKind}

theorem of_tree (h : Rooted o) (htree : o'.tree = o.tree) (hlast : o'.lastStreamId = o.lastStreamId)
    (hpush : o'.pushStreamId = o.pushStreamId) : Rooted o' := by
  have hids : o'.ids = o.ids := by
    have hfst : ∀ o : Outline, o.ids = o.tree.map Prod.fst := fun o => by
      simp [Outline.ids, tree, Function.comp_def]
    rw [hfst, hfst, htree]
  refine ⟨hids ▸ h.nodup, ?_, ?_, hpush ▸ h.even, ?_⟩
  · rw [hids, hlast]
    exact h.client
  · rw [hids, hpush]
    exact h.server
  · rw [← forestOf_tree, htree, forestOf_tree]
    exact h.grounded

theorem zero (h : Rooted o) : forest o.streams 0 = none := by
  apply forest_eq_none.mpr
  intro hmem
  have := (h.server 0 hmem rfl).1
  omega

/-- A stream that hangs from one that does not hang from it. -/
theorem enrol (h : Rooted o) {streamId dependency : Nat} (hnew : streamId ∉ o.ids)
    (hplace : ¬ Above (forest o.streams) dependency streamId) :
    (o.enrol streamId dependency).ids.Nodup ∧ (forest (o.enrol streamId dependency).streams).Grounded := by
  refine ⟨?_, ?_⟩
  · simp only [Outline.ids, Outline.enrol, List.map_append, List.map_cons, List.map_nil]
    rw [← List.concat_eq_append]
    exact h.nodup.concat hnew
  · simp only [Outline.enrol]
    rw [forest_append hnew rfl]
    exact h.grounded.hang hplace

theorem opened (h : Rooted o) {streamId : Nat} (hodd : streamId % 2 = 1) (hlast : o.lastStreamId < streamId) :
    Rooted { o.enrol streamId 0 with lastStreamId := streamId } := by
  have hnew : streamId ∉ o.ids := by
    intro hmem
    have := h.client streamId hmem hodd
    omega
  have hplace : ¬ Above (forest o.streams) 0 streamId := by
    intro habove
    have := habove.eq_of_none h.zero
    omega
  obtain ⟨hnodup, hgrounded⟩ := h.enrol hnew hplace
  refine ⟨hnodup, ?_, ?_, h.even, hgrounded⟩
  · intro id hid hid2
    simp only [Outline.ids, Outline.enrol, List.map_append, List.map_cons, List.map_nil, List.mem_append,
      List.mem_singleton] at hid
    cases hid with
    | inl hid =>
        have := h.client id hid hid2
        dsimp only
        omega
    | inr hid => exact hid.le
  · intro id hid hid2
    simp only [Outline.ids, Outline.enrol, List.map_append, List.map_cons, List.map_nil, List.mem_append,
      List.mem_singleton] at hid
    cases hid with
    | inl hid => exact h.server id hid hid2
    | inr hid => omega

theorem promised (h : Rooted o) {parentId streamId : Nat} (hid : streamId = (o.pushStreamId + 2) % 2 ^ 32)
    (hzero : streamId ≠ 0) (hplace : ¬ Above (forest o.streams) parentId streamId) (events : List Event) :
    Rooted (({ o with pushStreamId := streamId, history := events ++ o.history } : Outline).enrol streamId parentId) := by
  have heven := h.even
  -- The counter has not come back to zero, so that the identifier is one that no stream has had.
  have hnext : streamId = o.pushStreamId + 2 := by omega
  have hnew : streamId ∉ o.ids := by
    intro hmem
    have := (h.server streamId hmem (by omega)).2
    omega
  obtain ⟨hnodup, hgrounded⟩ := h.enrol hnew hplace
  refine ⟨hnodup, ?_, ?_, ?_, hgrounded⟩
  · intro id hmem hodd
    simp only [Outline.ids, Outline.enrol, List.map_append, List.map_cons, List.map_nil, List.mem_append,
      List.mem_singleton] at hmem
    cases hmem with
    | inl hmem => exact h.client id hmem hodd
    | inr hmem => omega
  · intro id hmem heven'
    simp only [Outline.ids, Outline.enrol, List.map_append, List.map_cons, List.map_nil, List.mem_append,
      List.mem_singleton] at hmem ⊢
    cases hmem with
    | inl hmem =>
        have := h.server id hmem heven'
        omega
    | inr hmem => omega
  · simp only [Outline.enrol]
    omega

theorem skipped (h : Rooted o) {streamId : Nat} (hid : streamId = (o.pushStreamId + 2) % 2 ^ 32)
    (hmax : http2MaxStreamId < streamId) : Rooted { o with pushStreamId := streamId } := by
  have heven := h.even
  refine ⟨h.nodup, h.client, ?_, ?_, h.grounded⟩
  · intro id hmem heven'
    have := h.server id hmem heven'
    dsimp only
    omega
  · dsimp only
    omega

theorem prioritised (h : Rooted o) {i dependency : Nat} {stream : OutlineStream} {exclusive : Bool}
    (hi : o.streams[i]? = some stream) (hne : dependency ≠ stream.streamId) :
    Rooted { o with streams := place o.streams i stream dependency exclusive } := by
  have hids : ({ o with streams := place o.streams i stream dependency exclusive } : Outline).ids = o.ids := ids_place _ _ _ _ _
  refine ⟨hids ▸ h.nodup, ?_, ?_, h.even, grounded_place h.nodup h.zero h.grounded hi hne⟩
  · rw [hids]
    exact h.client
  · rw [hids]
    exact h.server

theorem closed (h : Rooted o) {i : Nat} {stream : OutlineStream} {streams : List OutlineStream}
    (hi : o.streams[i]? = some stream) (hperm : streams.Perm ((o.streams.eraseIdx i).map (reparent stream))) :
    Rooted { o with streams } := by
  have hcons := perm_cons hi
  have hids : (streams.map OutlineStream.streamId).Perm ((o.streams.eraseIdx i).map OutlineStream.streamId) := by
    have hreparent : (OutlineStream.streamId ∘ reparent stream) = OutlineStream.streamId := by
      funext other
      simp only [Function.comp, reparent]
      split <;> rfl
    simpa only [List.map_map, hreparent] using hperm.map OutlineStream.streamId
  have hsub : ((o.streams.eraseIdx i).map OutlineStream.streamId).Sublist o.ids :=
    (List.eraseIdx_sublist _ _).map _
  have hnodup : (streams.map OutlineStream.streamId).Nodup := hids.nodup_iff.mpr (h.nodup.sublist hsub)
  have hmem : ∀ id ∈ streams.map OutlineStream.streamId, id ∈ o.ids :=
    fun id hid => hsub.subset (hids.subset hid)
  refine ⟨hnodup, fun id hid => h.client id (hmem id hid), fun id hid => h.server id (hmem id hid), h.even, ?_⟩
  rw [forest_perm hnodup hperm, forest_reparent h.nodup hcons]
  exact h.grounded.prune

theorem tree_of_places {streams streams' : List OutlineStream}
    (h : streams'.map OutlineStream.place = streams.map OutlineStream.place) :
    streams'.map (fun stream => (stream.streamId, stream.dependency)) =
      streams.map fun stream => (stream.streamId, stream.dependency) := by
  have hplace := congrArg (List.map fun place => (place.1, place.2.1)) h
  rw [List.map_map, List.map_map] at hplace
  exact hplace

/-- Every move keeps the forest grounded, unless it is a promise that is not sound. -/
theorem move (hm : Move kind o o') (hsound : SoundPromises o'.history) (h : Rooted o) : Rooted o' := by
  cases hm with
  | received | called | began | wrote | reset | away | widened => exact h.of_tree rfl rfl rfl
  | failed error =>
      unfold fail
      split <;> exact h.of_tree rfl rfl rfl
  | emitted i stream frame hi => exact h.of_tree (map_set_same hi rfl) rfl rfl
  | granted i stream increment hi => exact h.of_tree (map_set_same hi rfl) rfl rfl
  | applied window =>
      refine h.of_tree (tree_of_places ?_) rfl rfl
      simp only [record, List.map_map]
      rfl
  | spoiled window streams _ hplace => exact h.of_tree (tree_of_places hplace) rfl rfl
  | opened streamId hodd hlast => exact h.opened hodd hlast
  | promised i parent frame streamId hi ht hid =>
      obtain ⟨hzero, hplace⟩ := hsound parent.streamId streamId o.tree (by simp [Outline.enrol, record])
      rw [forestOf_tree] at hplace
      exact h.promised hid hzero hplace [_, _]
  | skipped streamId hid hmax => exact h.skipped hid hmax
  | prioritised i stream dependency exclusive hi hne => exact h.prioritised hi hne
  | closed i stream streams hi hperm => exact (h.closed hi hperm).of_tree rfl rfl rfl

end Rooted

end Outline

/-! ## Runs -/

namespace Http2Connection

open Outline

variable {s : Http2Connection} {inputs : List (Service × Input)}

/-- The dependency of each stream of the table. -/
def parent (s : Http2Connection) : Forest Nat := fun streamId =>
  (s.findStream streamId).map fun slot => (s.stream slot).priority.dependency

theorem parent_eq (s : Http2Connection) : s.parent = forest s.outline.streams := by
  funext streamId
  simp only [parent, forest, find?_outline, Option.map_map]
  rfl

/-- A stream waits for another one above it that holds payload back and a window that lets it through. -/
def Waits (s : Http2Connection) (slot other : Nat) : Prop :=
  (s.stream other).pending ≠ [] ∧ (s.stream other).sendWindow > 0 ∧
    Above s.parent (s.stream slot).priority.dependency (s.stream other).streamId

theorem rooted_start : Rooted start.outline where
  nodup := by decide
  client := by decide
  server := by decide
  even := by decide
  grounded := fun a => Acc.intro a fun b hb => by cases hb

theorem rooted_run (hsound : SoundPromises (run inputs start).history) : Rooted (run inputs start).outline := by
  have hkeeps := run_keeps (I := fun o => SoundPromises o.history → Rooted o) (s := start) ?_ inputs
    fun _ => rooted_start
  · exact hkeeps hsound
  · intro kind o o' hm ho hsound
    exact (ho (hsound.of_suffix hm.history)).move hm hsound

theorem waits_asymm (h : Rooted s.outline) {slot other : Nat} (hslot : slot < s.count) (hother : other < s.count)
    (hw : s.Waits slot other) : ¬ s.Waits other slot := by
  intro hw'
  have hparent : ∀ i, i < s.count → s.parent (s.stream i).streamId = some (s.stream i).priority.dependency := by
    intro i hi
    rw [parent_eq]
    exact (forest_eq_some h.nodup).mpr ⟨_, List.mem_of_getElem? (outline_stream hi), rfl, rfl⟩
  have hg : s.parent.Grounded := by
    rw [parent_eq]
    exact h.grounded
  exact hg.not_above (hparent slot hslot) (hw.2.2.trans (Above.step (hparent other hother) hw'.2.2))

/-- Whether the stream with an identifier holds payload back and a window that lets it through. -/
def ready (s : Http2Connection) (streamId : Nat) : Bool :=
  match s.findStream streamId with
  | none => false
  | some slot => (s.stream slot).pending ≠ [] ∧ (s.stream slot).sendWindow > 0

theorem parent_dom (s : Http2Connection) : ∀ streamId, s.parent streamId ≠ none → streamId ∈ s.outline.ids := by
  intro streamId h
  rw [parent_eq] at h
  by_contra hmem
  exact h (forest_eq_none.mpr hmem)

theorem blockedFrom_eq (hzero : s.parent 0 = none) {steps streamId : Nat} :
    s.blockedFrom steps streamId = meetsSome s.parent s.ready steps streamId := by
  induction steps generalizing streamId with
  | zero => rfl
  | succ steps ih =>
      unfold blockedFrom meetsSome
      by_cases h0 : streamId = 0
      · rw [if_pos h0, h0, hzero]
      · rw [if_neg h0]
        cases hfind : s.findStream streamId with
        | none => simp [parent, hfind]
        | some slot => simp [parent, ready, hfind, ih]

theorem findStream_streamId (h : s.outline.ids.Nodup) {slot : Nat} (hslot : slot < s.count) :
    s.findStream (s.stream slot).streamId = some slot := by
  cases hfind : s.findStream (s.stream slot).streamId with
  | none =>
      have hnone := List.findIdx?_eq_none_iff.mp hfind s.streams[slot] (List.getElem_mem hslot)
      simp [stream_of_lt hslot] at hnone
  | some other =>
      obtain ⟨hlt, hid⟩ := findStream_some hfind
      have hget : ∀ i (hi : i < s.count), s.outline.ids[i]? = some (s.stream i).streamId := by
        intro i hi
        rw [Outline.ids, List.getElem?_map, outline_stream hi]
        rfl
      have hsame := (hget other hlt).trans ((congrArg some hid).trans (hget slot hslot).symm)
      rw [(List.getElem?_inj (by rw [length_ids]; exact hlt) h).mp hsame]

/-- The bound of the walk never hides a stream that another one waits for. -/
theorem blocked_iff (h : Rooted s.outline) {slot : Nat} :
    s.blocked slot = true ↔ ∃ other, other < s.count ∧ s.Waits slot other := by
  have hzero : s.parent 0 = none := by
    rw [parent_eq]
    exact h.zero
  have hg : s.parent.Grounded := by
    rw [parent_eq]
    exact h.grounded
  have hmeets := hg.meetsSome_iff (P := s.ready) (a := (s.stream slot).priority.dependency) s.parent_dom
  rw [length_ids] at hmeets
  rw [blocked, blockedFrom_eq hzero, hmeets]
  constructor
  · rintro ⟨b, habove, _, hready⟩
    unfold ready at hready
    split at hready
    case h_1 => cases hready
    case h_2 other hfind =>
      obtain ⟨hlt, hid⟩ := findStream_some hfind
      have hready := of_decide_eq_true hready
      exact ⟨other, hlt, hready.1, hready.2, hid ▸ habove⟩
  · rintro ⟨other, hlt, hpending, hwindow, habove⟩
    have hfind := findStream_streamId h.nodup hlt
    refine ⟨_, habove, by simp [parent, hfind], ?_⟩
    simp only [ready, hfind]
    exact decide_eq_true ⟨hpending, hwindow⟩

theorem descends_iff (h : Rooted s.outline) {streamId slot : Nat} (hslot : slot < s.count) :
    s.descends s.count streamId (s.stream slot).streamId = true ↔ Above s.parent streamId (s.stream slot).streamId := by
  have hsome : forest s.outline.streams (s.stream slot).streamId ≠ none := by
    intro hnone
    exact forest_eq_none.mp hnone (mem_ids hslot)
  have hpos : (s.stream slot).streamId ≠ 0 := by
    intro hid
    exact hsome (hid ▸ h.zero)
  have hmeets := h.grounded.meets_iff (a := streamId) (parent_eq s ▸ s.parent_dom) hsome
  rw [length_ids] at hmeets
  rw [descends_outline, descends_eq_meets h.zero hpos, hmeets, parent_eq]

/-- A run whose promises are sound keeps the dependencies of the streams without a cycle: a walk up the tree ends
within as many steps as there are streams, so that the bounds of the walks hide nothing, and no two streams hold each
other back. -/
theorem dependencies_acyclic (hsound : SoundPromises (run inputs start).history) :
    (∀ streamId, ¬ Relation.TransGen (Up (run inputs start).parent) streamId streamId) ∧
    (∀ streamId, ∃ steps root, steps ≤ (run inputs start).count ∧
      ancestor (run inputs start).parent steps streamId = some root ∧ (run inputs start).parent root = none) ∧
    (∀ streamId slot, slot < (run inputs start).count →
      ((run inputs start).descends (run inputs start).count streamId ((run inputs start).stream slot).streamId = true ↔
        Above (run inputs start).parent streamId ((run inputs start).stream slot).streamId)) ∧
    (∀ slot, (run inputs start).blocked slot = true ↔
      ∃ other, other < (run inputs start).count ∧ (run inputs start).Waits slot other) ∧
    ∀ slot other, slot < (run inputs start).count → other < (run inputs start).count →
      (run inputs start).Waits slot other → ¬ (run inputs start).Waits other slot := by
  have hrooted := rooted_run hsound
  have hg : (run inputs start).parent.Grounded := by
    rw [parent_eq]
    exact hrooted.grounded
  refine ⟨fun _ => hg.not_cycle, fun streamId => ?_, fun _ _ => descends_iff hrooted, fun _ => blocked_iff hrooted,
    fun _ _ => waits_asymm hrooted⟩
  have hends := hg.ends (parent_dom _) streamId
  rw [length_ids] at hends
  exact hends

/-! ## Promises on a page -/

/-- A service that promises the style sheet of the first page that is asked for. -/
def stylingService : Service where
  description := bytes "viriatum"
  handle := fun _ callback =>
    match callback with
    | .url 1 _ => [.pushStream 1 (bytes "/style.css")]
    | _ => []

/-- A request of the root of the server, with the flags and what goes before the block. -/
def rootRequest (streamId : Nat) (flags : UInt8) (priority : Bytes) : Http2Frame where
  type := .headers
  flags := flags ||| http2FlagEndHeaders
  streamId
  payload := priority ++ [0x82, 0x86, 0x84]

/-- A page that asks to depend on the stream of its own style sheet, before the style sheet is promised. -/
def cyclicRun : List (Service × Input) :=
  [(stylingService, .frame (rootRequest 1 http2FlagPriority (encodeNumberHttp2 2 ++ [0])))]

/-- What is promised to a page, and what the page and its style sheet depend on where each is asked to be behind the
other. -/
theorem styled_told :
    ((run [(stylingService, .frame (rootRequest 1 http2FlagEndStream []))] start).history.all fun event =>
      match event with
      | .promised parentId streamId tree => parentId = 1 ∧ streamId = 2 ∧ tree = [(1, 0)]
      | _ => true) = true ∧
    (run cyclicRun start).parent 1 = some 2 ∧ (run cyclicRun start).parent 2 = some 1 := by
  decide +kernel

theorem dependencies_acyclic_styled :
    ¬ Relation.TransGen (Up (run [(stylingService, .frame (rootRequest 1 http2FlagEndStream []))] start).parent) 2 2 := by
  refine (dependencies_acyclic ?_).1 2
  intro parentId streamId tree hmem
  obtain ⟨rfl, rfl, rfl⟩ : parentId = 1 ∧ streamId = 2 ∧ tree = [(1, 0)] := by
    simpa using List.all_eq_true.mp styled_told.1 _ hmem
  refine ⟨by decide, fun habove => ?_⟩
  obtain ⟨root, hroot, habove⟩ := habove.of_ne (by decide)
  cases hroot
  have := habove.eq_of_none rfl
  omega

theorem dependencies_cycle : Relation.TransGen (Up (run cyclicRun start).parent) 1 1 :=
  Relation.TransGen.head (b := 2) styled_told.2.1 (Relation.TransGen.single styled_told.2.2)

end Http2Connection

end Viriatum
