import Mathlib.Data.List.Nodup
import Viriatum.Stream.Lemmas.Events

/-!
# The numbers of the streams

The messages of the streams of a table are different ones, and so are the identifiers that the peer has chosen.
-/

namespace Viriatum

namespace Outline

/-- The identifiers of the streams that the peer has asked for. -/
def asked (o : Outline) : List Nat := o.ids.filter fun streamId => streamId % 2 = 1

def addresses (o : Outline) : List Nat := o.streams.map OutlineStream.address

structure Numbered (o : Outline) : Prop where
  nodup : o.addresses.Nodup
  known : ∀ address ∈ o.addresses, address < o.nextAddress
  once : o.asked.Nodup
  last : ∀ streamId ∈ o.asked, streamId ≤ o.lastStreamId
  even : o.pushStreamId % 2 = 0
  opened : ∀ address streamId, .opened address streamId ∈ o.history →
    address < o.nextAddress ∧ (streamId % 2 = 1 → streamId ≤ o.lastStreamId) ∧
      ∀ stream ∈ o.streams, stream.address = address → stream.streamId = streamId

variable {o o' : Outline} {kind : MoveKind}

theorem subperm_map {α β : Type} {l l' : List α} (h : l.Subperm l') (f : α → β) : (l.map f).Subperm (l'.map f) := by
  obtain ⟨middle, hperm, hsub⟩ := h
  exact ⟨middle.map f, hperm.map f, hsub.map f⟩

theorem subperm_nodup {α : Type} {l l' : List α} (h : l.Subperm l') (hnodup : l'.Nodup) : l.Nodup := by
  obtain ⟨middle, hperm, hsub⟩ := h
  exact hperm.nodup_iff.mp (hnodup.sublist hsub)

/-- What is kept of a list without repetitions stands in one place of the list. -/
theorem filter_nodup_inj {α : Type} {p : α → Bool} {l : List α} {x : α} (h : (l.filter p).Nodup) (hp : p x = true)
    {i j : Nat} (hi : l[i]? = some x) (hj : l[j]? = some x) : i = j := by
  induction l generalizing i j with
  | nil => cases hi
  | cons y l ih =>
      have hrest : (l.filter p).Nodup := h.sublist ((List.sublist_cons_self y l).filter p)
      have hfirst : ∀ k : Nat, (y :: l)[0]? = some x → l[k]? = some x → False := by
        intro k hzero hk
        cases hzero
        rw [List.filter_cons_of_pos hp, List.nodup_cons] at h
        exact h.1 (List.mem_filter.mpr ⟨List.mem_of_getElem? hk, hp⟩)
      cases i with
      | zero =>
          cases j with
          | zero => rfl
          | succ j => exact (hfirst j hi hj).elim
      | succ i =>
          cases j with
          | zero => exact (hfirst i hj hi).elim
          | succ j => rw [ih hrest hi hj]

/-- What is numbered stays so when streams leave. -/
theorem Numbered.of_keys (h : o.Numbered) (hkeys : o'.keys.Subperm o.keys) (hlast : o'.lastStreamId = o.lastStreamId)
    (hpush : o'.pushStreamId % 2 = 0) (hnext : o'.nextAddress = o.nextAddress)
    (hhistory : ∃ events, o'.history = events ++ o.history ∧ ∀ event ∈ events, ∀ a id, event ≠ .opened a id) :
    o'.Numbered := by
  have haddresses : ∀ o : Outline, o.addresses = o.keys.map Prod.snd := fun o => by
    simp [addresses, keys, OutlineStream.key, Function.comp_def]
  have hids : ∀ o : Outline, o.ids = o.keys.map Prod.fst := fun o => by
    simp [ids, keys, OutlineStream.key, Function.comp_def]
  have hsub := subperm_map hkeys Prod.snd
  have hasked : o'.asked.Subperm o.asked := by
    unfold asked
    rw [hids o', hids o]
    exact (subperm_map hkeys Prod.fst).filter _
  rw [← haddresses, ← haddresses] at hsub
  constructor
  case nodup => exact subperm_nodup hsub h.nodup
  case known =>
    intro address hmem
    rw [hnext]
    exact h.known address (hsub.subset hmem)
  case once => exact subperm_nodup hasked h.once
  case last =>
    intro streamId hmem
    rw [hlast]
    exact h.last streamId (hasked.subset hmem)
  case even => exact hpush
  case opened =>
    intro address streamId hmem
    obtain ⟨events, heq, hevents⟩ := hhistory
    rw [heq, List.mem_append] at hmem
    rcases hmem with hnew | hold
    · exact absurd rfl (hevents _ hnew address streamId)
    · obtain ⟨hknown, hodd, hstreams⟩ := h.opened address streamId hold
      rw [hnext, hlast]
      refine ⟨hknown, hodd, fun stream hstream haddress => ?_⟩
      have hkey : stream.key ∈ o.keys := hkeys.subset (List.mem_map_of_mem hstream)
      obtain ⟨other, hother, hsame⟩ := List.mem_map.mp hkey
      simp only [OutlineStream.key, Prod.mk.injEq] at hsame
      rw [← hsame.1]
      exact hstreams other hother (hsame.2.trans haddress)

/-- A stream enters the table with an identifier that is an even one or a new one of the peer. -/
theorem Numbered.enrol (h : o.Numbered) {streamId dependency : Nat} (sendWindow : Int)
    (hstreams : o'.streams = o.streams ++ [⟨streamId, dependency, sendWindow, o.nextAddress⟩])
    (hnext : o'.nextAddress = o.nextAddress + 1) (hlast : o.lastStreamId ≤ o'.lastStreamId)
    (hnew : streamId % 2 = 1 → o.lastStreamId < streamId ∧ streamId ≤ o'.lastStreamId) (hpush : o'.pushStreamId % 2 = 0)
    (hhistory : ∃ events, o'.history = .opened o.nextAddress streamId :: events ++ o.history ∧
      ∀ event ∈ events, ∀ a id, event ≠ .opened a id) : o'.Numbered := by
  have haddresses : o'.addresses = o.addresses ++ [o.nextAddress] := by simp [addresses, hstreams]
  have hasked : ∀ id ∈ o'.asked, id ∈ o.asked ∨ id = streamId ∧ streamId % 2 = 1 := by
    intro id hmem
    simp only [asked, ids, hstreams, List.map_append, List.filter_append, List.mem_append] at hmem
    rcases hmem with hold | hnew
    · exact .inl hold
    · simp only [List.map_cons, List.map_nil, List.mem_filter, List.mem_singleton, decide_eq_true_eq] at hnew
      exact .inr ⟨hnew.1, hnew.1 ▸ hnew.2⟩
  constructor
  case nodup =>
    rw [haddresses, List.nodup_append_comm, List.singleton_append, List.nodup_cons]
    exact ⟨fun hmem => absurd (h.known _ hmem) (Nat.lt_irrefl _), h.nodup⟩
  case known =>
    intro address hmem
    rw [haddresses, List.mem_append, List.mem_singleton] at hmem
    rcases hmem with hold | rfl
    · have := h.known address hold
      omega
    · omega
  case once =>
    have hsplit : o'.asked = o.asked ++ [streamId].filter fun id => id % 2 = 1 := by
      simp [asked, ids, hstreams, List.filter_append]
    rw [hsplit]
    by_cases hodd : streamId % 2 = 1
    · have hone : [streamId].filter (fun id => id % 2 = 1) = [streamId] := by simp [hodd]
      rw [hone, List.nodup_append_comm, List.singleton_append, List.nodup_cons]
      refine ⟨fun hmem => ?_, h.once⟩
      have hle := h.last streamId hmem
      have hlt := (hnew hodd).1
      omega
    · have hnone : [streamId].filter (fun id => id % 2 = 1) = [] := by simp [hodd]
      rw [hnone, List.append_nil]
      exact h.once
  case last =>
    intro id hmem
    rcases hasked id hmem with hold | ⟨rfl, hodd⟩
    · exact Nat.le_trans (h.last id hold) hlast
    · exact (hnew hodd).2
  case even => exact hpush
  case opened =>
    intro address id hmem
    obtain ⟨events, heq, hevents⟩ := hhistory
    rw [heq, List.mem_append, List.mem_cons] at hmem
    rw [hstreams, hnext]
    rcases hmem with (hfirst | hevent) | hold
    · obtain ⟨rfl, rfl⟩ := Event.opened.inj hfirst
      refine ⟨Nat.lt_succ_self _, fun hodd => (hnew hodd).2, fun stream hstream haddress => ?_⟩
      rcases List.mem_append.mp hstream with hin | hin
      · have := h.known stream.address (List.mem_map_of_mem hin)
        omega
      · rw [List.mem_singleton.mp hin]
    · exact absurd rfl (hevents _ hevent address id)
    · obtain ⟨hknown, hodd, hall⟩ := h.opened address id hold
      refine ⟨by omega, fun hid => Nat.le_trans (hodd hid) hlast, fun stream hstream haddress => ?_⟩
      rcases List.mem_append.mp hstream with hin | hin
      · exact hall stream hin haddress
      · rw [List.mem_singleton.mp hin] at haddress
        simp only at haddress
        omega

/-- Every move keeps the numbers. -/
theorem Move.numbered (hm : Move kind o o') (h : o.Numbered) : o'.Numbered := by
  have hplain : o'.keys.Subperm o.keys → o'.lastStreamId = o.lastStreamId → o'.pushStreamId = o.pushStreamId →
      o'.nextAddress = o.nextAddress → ¬ kind.Enrols → o'.Numbered := by
    intro hkeys hlast hpush hnext hk
    obtain ⟨events, heq, hadds⟩ := hm.adds
    refine h.of_keys hkeys hlast (hpush ▸ h.even) hnext ⟨events, heq, fun event hmem a id hopened => ?_⟩
    exact hk (MoveKind.Adds.of_opened (hopened ▸ hadds event hmem))
  have hsame : o'.keys = o.keys → o'.keys.Subperm o.keys := fun heq => heq ▸ List.Subperm.refl _
  cases hm with
  | received | called | began | wrote | widened | reset | away =>
      exact hplain (List.Subperm.refl _) rfl rfl rfl fun hk => hk
  | emitted i stream frame hi => exact hplain (hsame (map_set_same hi rfl)) rfl rfl rfl fun hk => hk
  | granted i stream increment hi => exact hplain (hsame (map_set_same hi rfl)) rfl rfl rfl fun hk => hk
  | prioritised i stream dependency exclusive =>
      exact hplain (hsame (map_place (fun _ _ => rfl) _ _ _ _ _)) rfl rfl rfl fun hk => hk
  | applied window =>
      refine hplain (hsame ?_) rfl rfl rfl fun hk => hk
      simp only [keys, record, List.map_map]
      rfl
  | spoiled window streams _ hplace =>
      refine hplain (hsame ?_) rfl rfl rfl fun hk => hk
      have hkeys := congrArg (List.map fun place : Nat × Nat × Nat => (place.1, place.2.2)) hplace
      rw [List.map_map, List.map_map] at hkeys
      exact hkeys
  | closed i stream streams hi hperm =>
      refine hplain ⟨_, (hperm.map OutlineStream.key).symm, ?_⟩ rfl rfl rfl fun hk => hk
      rw [map_reparent fun _ _ => rfl]
      exact (List.eraseIdx_sublist _ _).map OutlineStream.key
  | skipped streamId hid =>
      have heven := h.even
      refine h.of_keys (List.Subperm.refl _) rfl ?_ rfl ⟨[], rfl, by simp⟩
      change streamId % 2 = 0
      omega
  | failed error =>
      unfold fail
      split
      · exact h.of_keys (List.Subperm.refl _) rfl h.even rfl ⟨[_], rfl, by simp⟩
      · exact h.of_keys (List.Subperm.refl _) rfl h.even rfl ⟨[_, _], rfl, by simp⟩
  | opened streamId hodd hlast =>
      exact h.enrol o.initialWindow rfl rfl (Nat.le_of_lt hlast) (fun _ => ⟨hlast, Nat.le_refl _⟩) h.even
        ⟨[], rfl, by simp⟩
  | promised i parent frame streamId hi ht hid =>
      have heven := h.even
      have hpush : streamId % 2 = 0 := by omega
      exact h.enrol o.initialWindow rfl rfl (Nat.le_refl _) (fun hodd => by omega) hpush
        ⟨[_, _], rfl, by simp⟩

/-- What the history tells of the streams. -/
structure Recorded (o : Outline) : Prop where
  functional : ∀ a id id', .opened a id ∈ o.history → .opened a id' ∈ o.history → id = id'
  unique : ∀ a a' id, id % 2 = 1 → .opened a id ∈ o.history → .opened a' id ∈ o.history → a = a'
  listed : ∀ stream ∈ o.streams, .opened stream.address stream.streamId ∈ o.history
  closed : ∀ a, .closed a ∈ o.history → a < o.nextAddress ∧ a ∉ o.addresses

/-- A move that neither enrols a stream nor closes one. -/
theorem Recorded.of_keys (h : o.Recorded) (hkeys : o'.keys = o.keys) (hnext : o'.nextAddress = o.nextAddress)
    (hhistory : ∃ events, o'.history = events ++ o.history ∧
      ∀ event ∈ events, (∀ a id, event ≠ .opened a id) ∧ ∀ a, event ≠ .closed a) : o'.Recorded := by
  obtain ⟨events, heq, hevents⟩ := hhistory
  have hopened : ∀ a id, .opened a id ∈ o'.history → .opened a id ∈ o.history := by
    intro a id hmem
    rw [heq, List.mem_append] at hmem
    exact hmem.resolve_left fun hnew => (hevents _ hnew).1 a id rfl
  have haddresses : o'.addresses = o.addresses := by
    have hmap := congrArg (List.map Prod.snd) hkeys
    simpa [addresses, keys, OutlineStream.key, Function.comp_def] using hmap
  constructor
  case functional => exact fun a id id' hm hm' => h.functional a id id' (hopened a id hm) (hopened a id' hm')
  case unique => exact fun a a' id hodd hm hm' => h.unique a a' id hodd (hopened a id hm) (hopened a' id hm')
  case listed =>
    intro stream hstream
    have hkey : stream.key ∈ o.keys := hkeys ▸ List.mem_map_of_mem hstream
    obtain ⟨other, hother, hsame⟩ := List.mem_map.mp hkey
    simp only [OutlineStream.key, Prod.mk.injEq] at hsame
    rw [heq, ← hsame.1, ← hsame.2]
    exact List.mem_append_right _ (h.listed other hother)
  case closed =>
    intro a hmem
    rw [heq, List.mem_append] at hmem
    rw [hnext, haddresses]
    exact h.closed a (hmem.resolve_left fun hnew => (hevents _ hnew).2 a rfl)

/-- A stream is enrolled with a message of its own. -/
theorem Recorded.enrol (h : o.Recorded) (hnumbered : o.Numbered) {streamId dependency : Nat} {sendWindow : Int}
    (hstreams : o'.streams = o.streams ++ [⟨streamId, dependency, sendWindow, o.nextAddress⟩])
    (hnext : o'.nextAddress = o.nextAddress + 1) (hnew : streamId % 2 = 1 → o.lastStreamId < streamId)
    (hhistory : ∃ events, o'.history = .opened o.nextAddress streamId :: events ++ o.history ∧
      ∀ event ∈ events, (∀ a id, event ≠ .opened a id) ∧ ∀ a, event ≠ .closed a) : o'.Recorded := by
  obtain ⟨events, heq, hevents⟩ := hhistory
  have hopened : ∀ a id, .opened a id ∈ o'.history → a = o.nextAddress ∧ id = streamId ∨ .opened a id ∈ o.history := by
    intro a id hmem
    rw [heq, List.mem_append, List.mem_cons] at hmem
    rcases hmem with (hfirst | hnew) | hold
    · exact .inl (by simpa using hfirst)
    · exact absurd rfl ((hevents _ hnew).1 a id)
    · exact .inr hold
  have haddresses : o'.addresses = o.addresses ++ [o.nextAddress] := by simp [addresses, hstreams]
  constructor
  case functional =>
    intro a id id' hm hm'
    rcases hopened a id hm with ⟨rfl, rfl⟩ | hold
    · rcases hopened _ id' hm' with ⟨-, rfl⟩ | hold'
      · rfl
      · exact absurd (hnumbered.opened _ _ hold').1 (Nat.lt_irrefl _)
    · rcases hopened a id' hm' with ⟨rfl, -⟩ | hold'
      · exact absurd (hnumbered.opened _ _ hold).1 (Nat.lt_irrefl _)
      · exact h.functional a id id' hold hold'
  case unique =>
    intro a a' id hodd hm hm'
    have hlast : ∀ b, .opened b id ∈ o.history → id ≤ o.lastStreamId := fun b hold => (hnumbered.opened b id hold).2.1 hodd
    rcases hopened a id hm with ⟨rfl, rfl⟩ | hold
    · rcases hopened a' id hm' with ⟨rfl, -⟩ | hold'
      · rfl
      · exact absurd (hlast a' hold') (Nat.not_le.mpr (hnew hodd))
    · rcases hopened a' id hm' with ⟨rfl, rfl⟩ | hold'
      · exact absurd (hlast a hold) (Nat.not_le.mpr (hnew hodd))
      · exact h.unique a a' id hodd hold hold'
  case listed =>
    intro stream hstream
    rw [hstreams, List.mem_append, List.mem_singleton] at hstream
    rw [heq]
    rcases hstream with hold | rfl
    · exact List.mem_append_right _ (h.listed stream hold)
    · exact List.mem_append_left _ List.mem_cons_self
  case closed =>
    intro a hmem
    rw [heq, List.mem_append, List.mem_cons] at hmem
    rw [hnext, haddresses]
    rcases hmem with (hfirst | hnew) | hold
    · cases hfirst
    · exact absurd rfl ((hevents _ hnew).2 a)
    · obtain ⟨hlt, habsent⟩ := h.closed a hold
      refine ⟨by omega, ?_⟩
      simp only [List.mem_append, List.mem_singleton, not_or]
      exact ⟨habsent, Nat.ne_of_lt hlt⟩

/-- A stream leaves the table with its message. -/
theorem Recorded.close (h : o.Recorded) (hnumbered : o.Numbered) {i : Nat} {stream : OutlineStream}
    (hi : o.streams[i]? = some stream) {streams : List OutlineStream}
    (hperm : streams.Perm ((o.streams.eraseIdx i).map (reparent stream))) :
    ({ o with streams }.record (.closed stream.address)).Recorded := by
  have hmem : stream ∈ o.streams := List.mem_of_getElem? hi
  have hlt : i < o.streams.length := (List.getElem?_eq_some_iff.mp hi).1
  have haddresses : streams.map OutlineStream.address ⊆ o.addresses.eraseIdx i := by
    have hmap := (hperm.map OutlineStream.address).subset
    rw [map_reparent fun _ _ => rfl, ← List.eraseIdx_map] at hmap
    exact hmap
  have hopened : ∀ a id, .opened a id ∈ .closed stream.address :: o.history → .opened a id ∈ o.history := fun a id hm =>
    (List.mem_cons.mp hm).resolve_left fun heq => by cases heq
  constructor
  case functional => exact fun a id id' hm hm' => h.functional a id id' (hopened a id hm) (hopened a id' hm')
  case unique => exact fun a a' id hodd hm hm' => h.unique a a' id hodd (hopened a id hm) (hopened a' id hm')
  case listed =>
    intro other hother
    obtain ⟨old, hold, rfl⟩ := List.mem_map.mp (hperm.subset hother)
    have hlisted := h.listed old ((List.eraseIdx_sublist _ _).subset hold)
    unfold reparent
    split <;> exact List.mem_cons_of_mem _ hlisted
  case closed =>
    intro a hclosed
    rcases List.mem_cons.mp hclosed with heq | hold
    · cases heq
      refine ⟨hnumbered.known _ (List.mem_map_of_mem hmem), fun hin => ?_⟩
      have hrest := haddresses hin
      have hnodup := hnumbered.nodup
      have hat : o.addresses[i]? = some stream.address := by
        rw [addresses, List.getElem?_map, hi]
        rfl
      rw [List.mem_eraseIdx_iff_getElem?] at hrest
      obtain ⟨j, hne, hj⟩ := hrest
      have hjlt : j < o.addresses.length := (List.getElem?_eq_some_iff.mp hj).1
      exact hne ((List.getElem?_inj hjlt hnodup).mp (hj.trans hat.symm))
    · obtain ⟨hbelow, habsent⟩ := h.closed a hold
      exact ⟨hbelow, fun hin => habsent ((List.eraseIdx_sublist _ _).subset (haddresses hin))⟩

/-- Every move keeps what the history tells. -/
theorem Move.recorded (hm : Move kind o o') (hnumbered : o.Numbered) (h : o.Recorded) : o'.Recorded := by
  have hplain : o'.keys = o.keys → o'.nextAddress = o.nextAddress → (∀ id, kind ≠ .closed id) → ¬ kind.Enrols → o'.Recorded := by
    intro hkeys hnext hclosed hk
    obtain ⟨events, heq, hadds⟩ := hm.adds
    refine h.of_keys hkeys hnext ⟨events, heq, fun event hmem => ⟨fun a id hopened => ?_, fun a hclosing => ?_⟩⟩
    · exact hk (MoveKind.Adds.of_opened (hopened ▸ hadds event hmem))
    · have hadd := hadds event hmem
      rw [hclosing] at hadd
      cases kind <;> simp_all [MoveKind.Adds]
  cases hm with
  | received | called | began | wrote | widened | reset | away | skipped =>
      exact hplain rfl rfl (by simp) fun hk => hk
  | emitted i stream frame hi => exact hplain (map_set_same hi rfl) rfl (by simp) fun hk => hk
  | granted i stream increment hi => exact hplain (map_set_same hi rfl) rfl (by simp) fun hk => hk
  | prioritised i stream dependency exclusive =>
      exact hplain (map_place (fun _ _ => rfl) _ _ _ _ _) rfl (by simp) fun hk => hk
  | applied window =>
      refine hplain ?_ rfl (by simp) fun hk => hk
      simp only [keys, record, List.map_map]
      rfl
  | spoiled window streams _ hplace =>
      refine hplain ?_ rfl (by simp) fun hk => hk
      have hkeys := congrArg (List.map fun place : Nat × Nat × Nat => (place.1, place.2.2)) hplace
      rw [List.map_map, List.map_map] at hkeys
      exact hkeys
  | closed i stream streams hi hperm => exact h.close hnumbered hi hperm
  | failed error =>
      refine hplain ?_ ?_ (by simp) fun hk => hk
      all_goals
        unfold fail
        split <;> rfl
  | opened streamId hodd hlast => exact h.enrol hnumbered rfl rfl (fun _ => hlast) ⟨[], rfl, by simp⟩
  | promised i parent frame streamId hi ht hid =>
      have heven := hnumbered.even
      exact h.enrol hnumbered rfl rfl (fun hodd => by omega) ⟨[_, _], rfl, by simp⟩

end Outline

namespace Http2Connection

theorem numbered_start : start.outline.Numbered where
  nodup := List.nodup_nil
  known := by simp [Outline.addresses, start, create, writeSettings, queueFrames, outline]
  once := List.nodup_nil
  last := by simp [Outline.asked, Outline.ids, start, create, writeSettings, queueFrames, outline]
  even := rfl
  opened := by
    intro address streamId hmem
    have hhistory : start.outline.history = [.wrote none (encodeSettingsHttp2 .create)] := rfl
    rw [hhistory, List.mem_singleton] at hmem
    cases hmem

/-- The streams of every run are numbered. -/
theorem numbered_run (inputs : List (Service × Input)) : (run inputs start).outline.Numbered :=
  run_keeps (fun _ _ _ hm h => hm.numbered h) inputs numbered_start

theorem recorded_start : start.outline.Recorded where
  functional := by
    intro a id id' hmem
    have hhistory : start.outline.history = [.wrote none (encodeSettingsHttp2 .create)] := rfl
    rw [hhistory, List.mem_singleton] at hmem
    cases hmem
  unique := by
    intro a a' id _ hmem
    have hhistory : start.outline.history = [.wrote none (encodeSettingsHttp2 .create)] := rfl
    rw [hhistory, List.mem_singleton] at hmem
    cases hmem
  listed := fun stream hstream => by cases hstream
  closed := by
    intro a hmem
    have hhistory : start.outline.history = [.wrote none (encodeSettingsHttp2 .create)] := rfl
    rw [hhistory, List.mem_singleton] at hmem
    cases hmem

/-- The history of every run tells of its streams. -/
theorem recorded_run (inputs : List (Service × Input)) : (run inputs start).outline.Recorded :=
  (run_keeps (I := fun o => o.Numbered ∧ o.Recorded) (fun _ _ _ hm h => ⟨hm.numbered h.1, hm.recorded h.1 h.2⟩) inputs
    ⟨numbered_start, recorded_start⟩).2

end Http2Connection

namespace Outline.Numbered

open Http2Connection

variable {s : Http2Connection} {i j : Nat}

theorem address_lt (h : s.outline.Numbered) (hi : i < s.count) :
    (s.stream i).request.address < s.nextAddress := by
  apply h.known
  have hmem := List.mem_of_getElem? (outline_stream hi)
  exact List.mem_map_of_mem hmem

theorem slot_of_address (h : s.outline.Numbered) (hi : i < s.count) (hj : j < s.count)
    (heq : (s.stream i).request.address = (s.stream j).request.address) : i = j := by
  have haddress : ∀ k, k < s.count → s.outline.addresses[k]? = some (s.stream k).request.address := by
    intro k hk
    rw [Outline.addresses, List.getElem?_map, outline_stream hk]
    rfl
  have hlt : i < s.outline.addresses.length := (List.getElem?_eq_some_iff.mp (haddress i hi)).1
  apply (List.getElem?_inj hlt h.nodup).mp
  rw [haddress i hi, haddress j hj, heq]

theorem slot_of_asked (h : s.outline.Numbered) (hi : i < s.count) (hj : j < s.count)
    (hodd : (s.stream i).streamId % 2 = 1) (heq : (s.stream i).streamId = (s.stream j).streamId) : i = j := by
  have hid : ∀ k, k < s.count → s.outline.ids[k]? = some (s.stream k).streamId := by
    intro k hk
    rw [Outline.ids, List.getElem?_map, outline_stream hk]
    rfl
  exact filter_nodup_inj h.once (by simpa using hodd) (hid i hi) (heq ▸ hid j hj)

end Outline.Numbered

end Viriatum
