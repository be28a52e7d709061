import Viriatum.Stream.Lemmas.Frames
import Viriatum.Stream.Lemmas.Intake

/-!
# What leaves the messages alone

The frames of the tree, of the windows and of the settings change nothing of what the messages are told by.
-/

namespace Viriatum

open Library Effect

/-- An event that is no call. -/
def Event.Silent : Event → Prop
  | .called _ => False
  | _ => True

namespace Http2Connection

variable {s s' s'' : Http2Connection} {slot : Nat}

/-- The sessions do not differ in what the messages are told by. -/
structure Alike (s s' : Http2Connection) : Prop where
  count : s'.count = s.count
  stream : ∀ slot, (s'.stream slot).core = (s.stream slot).core ∧ (s'.stream slot).state = (s.stream slot).state
  nextAddress : s'.nextAddress = s.nextAddress
  calls : ∀ a, callsOf a s'.history = callsOf a s.history
  continuation : s'.continuation = s.continuation
  refused : s'.refused = s.refused
  lastStreamId : s'.lastStreamId = s.lastStreamId

namespace Alike

@[refl] theorem refl (s : Http2Connection) : Alike s s :=
  ⟨rfl, fun _ => ⟨rfl, rfl⟩, rfl, fun _ => rfl, rfl, rfl, rfl⟩

theorem trans (h : Alike s s') (h' : Alike s' s'') : Alike s s'' where
  count := h'.count.trans h.count
  stream slot := ⟨(h'.stream slot).1.trans (h.stream slot).1, (h'.stream slot).2.trans (h.stream slot).2⟩
  nextAddress := h'.nextAddress.trans h.nextAddress
  calls a := (h'.calls a).trans (h.calls a)
  continuation := h'.continuation.trans h.continuation
  refused := h'.refused.trans h.refused
  lastStreamId := h'.lastStreamId.trans h.lastStreamId

/-- A change outside of the streams that calls no handler. -/
theorem of_streams (hstreams : s'.streams = s.streams) (hnext : s'.nextAddress = s.nextAddress)
    (hcontinuation : s'.continuation = s.continuation) (hrefused : s'.refused = s.refused)
    (hlast : s'.lastStreamId = s.lastStreamId)
    (hhistory : ∃ events, s'.history = events ++ s.history ∧ ∀ event ∈ events, event.Silent) : Alike s s' where
  count := by simp only [Http2Connection.count, hstreams]
  stream slot := by simp only [Http2Connection.stream, hstreams, and_self]
  nextAddress := hnext
  calls a := by
    obtain ⟨events, heq, hsilent⟩ := hhistory
    have hforeign : callsOf a events = [] := by
      apply callsOf_foreign
      intro event hmem
      have hs := hsilent event hmem
      cases event with
      | called callback => exact hs.elim
      | _ => trivial
    rw [heq, callsOf_append, hforeign, List.append_nil]
  continuation := hcontinuation
  refused := hrefused
  lastStreamId := hlast

theorem modify {f : Http2Stream → Http2Stream} (hcore : (f (s.stream slot)).core = (s.stream slot).core)
    (hstate : (f (s.stream slot)).state = (s.stream slot).state) : Alike s (s.modifyStream slot f) where
  count := count_modifyStream
  stream i := by
    by_cases hi : i < s.count
    · by_cases heq : i = slot
      · subst heq
        rw [stream_modifyStream hi]
        exact ⟨hcore, hstate⟩
      · simp [Http2Connection.stream, modifyStream, List.getD_eq_getElem?_getD, Ne.symm heq]
    · have hge : s.streams.length ≤ i := Nat.le_of_not_lt hi
      simp [Http2Connection.stream, modifyStream, List.getD_eq_getElem?_getD, hge]
  nextAddress := rfl
  calls _ := rfl
  continuation := rfl
  refused := rfl
  lastStreamId := rfl

theorem of_reprioritised (h : Reprioritised s s') : Alike s s' := by
  have hsame := h.same
  refine ⟨h.count, fun slot => ?_, ?_, fun a => ?_, ?_, ?_, ?_⟩
  · obtain ⟨priority, hp⟩ := h.stream slot
    rw [hp]
    exact ⟨rfl, rfl⟩
  all_goals rw [hsame]

end Alike

theorem queueFrames_alike (owner : Option Nat) (frames : List Http2Frame) (callback : Http2Callback) (s : Http2Connection) :
    Alike s (queueFrames owner frames callback s) := by
  refine .of_streams rfl rfl rfl rfl rfl ⟨(frames.map (Event.wrote owner)).reverse, rfl, fun event hmem => ?_⟩
  rw [List.mem_reverse, List.mem_map] at hmem
  obtain ⟨frame, -, rfl⟩ := hmem
  trivial

theorem record_alike {event : Event} (h : event.Silent) (s : Http2Connection) : Alike s (s.record event) :=
  .of_streams rfl rfl rfl rfl rfl ⟨[event], rfl, by simpa using h⟩

theorem prioritiseStream_alike {priority : Http2Priority} :
    wp (prioritiseStream slot priority) (fun _ s' => Alike s s') (fun _ s' => Alike s s') s :=
  prioritiseStream_reprioritised.mono (fun _ _ h => .of_reprioritised h) fun _ _ h => h ▸ .refl s

/-! ## Settings -/

theorem adjustStreams_alike (difference : Int) (streams : List Http2Stream) :
    (adjustStreams difference streams).2.map (fun stream => (stream.core, stream.state)) =
      streams.map fun stream => (stream.core, stream.state) := by
  induction streams with
  | nil => rfl
  | cons stream rest ih =>
      unfold adjustStreams
      split
      · rfl
      · simp only [List.map_cons]
        rw [ih]
        rfl

theorem alike_of_map {streams : List Http2Stream} (h : streams.map (fun stream => (stream.core, stream.state)) =
    s.streams.map fun stream => (stream.core, stream.state)) : Alike s { s with streams } := by
  have hlength : streams.length = s.streams.length := by simpa using congrArg List.length h
  refine ⟨hlength, fun slot => ?_, rfl, fun _ => rfl, rfl, rfl, rfl⟩
  have hslot := congrArg (fun l => l[slot]?) h
  simp only [List.getElem?_map] at hslot
  simp only [Http2Connection.stream, List.getD_eq_getElem?_getD]
  generalize streams[slot]? = found at hslot ⊢
  generalize s.streams[slot]? = found' at hslot ⊢
  cases found with
  | none =>
      cases found' with
      | none => exact ⟨rfl, rfl⟩
      | some stream => cases hslot
  | some stream =>
      cases found' with
      | none => cases hslot
      | some stream' =>
          simp only [Option.map_some, Option.some.injEq, Prod.mk.injEq] at hslot
          exact hslot

theorem adjustWindows_alike (difference : Int) :
    wp (adjustWindows difference) (fun _ s' => Alike s s') (fun _ s' => Alike s s') s := by
  have hadjusted : Alike s { s with streams :=
      (if difference ≠ 0 then adjustStreams difference s.streams else (none, s.streams)).2 } := by
    split
    · exact alike_of_map (adjustStreams_alike difference s.streams)
    · exact .refl s
  unfold adjustWindows
  simp only [wp_bind, wp_get]
  generalize (if difference ≠ 0 then adjustStreams difference s.streams else (none, s.streams)) = adjusted at hadjusted ⊢
  obtain ⟨error, streams⟩ := adjusted
  cases error with
  | none => exact hadjusted
  | some e => exact hadjusted

theorem applySettings_alike (data : Bytes) :
    wp (applySettings data) (fun _ s' => Alike s s') (fun _ s' => Alike s s') s := by
  unfold applySettings
  simp only [wp_bind, wp_get]
  rcases (decodeSettingsHttp2 data).run s.remote with ⟨result, remote⟩
  have happlied : Alike s { s with remote, history := .applied remote.initialWindowSize :: s.history } :=
    .of_streams rfl rfl rfl rfl rfl ⟨[_], rfl, by simp [Event.Silent]⟩
  cases result with
  | error e => exact happlied
  | ok u =>
      simp only [wp_bind]
      refine (adjustWindows_alike _).mono (fun _ t ht => ?_) fun _ t ht => happlied.trans ht
      have hbound : wp (boundEncoder remote.headerTableSize) (fun _ t' => Alike t t') (fun _ t' => Alike t t') t := by
        unfold boundEncoder
        simp only [wp_bind, wp_get, wp_ite, wp_pure]
        split
        · split
          · exact .refl t
          · exact .of_streams rfl rfl rfl rfl rfl ⟨[], rfl, by simp⟩
        · exact .refl t
      exact hbound.mono (fun _ _ h => (happlied.trans ht).trans h) fun _ _ h => (happlied.trans ht).trans h

theorem updateWindow_alike (streamId increment : Nat) :
    wp (updateWindow streamId increment) (fun _ s' => Alike s s') (fun _ s' => Alike s s') s := by
  unfold updateWindow
  simp only [wp_bind, wp_get, wp_ite, wp_throw, wp_set]
  split
  · exact .refl s
  · split
    · split
      · exact .refl s
      · exact .of_streams rfl rfl rfl rfl rfl ⟨[], rfl, by simp⟩
    · split
      · exact .refl s
      · split
        · exact .refl s
        · exact (Alike.modify rfl rfl).trans (record_alike (by trivial) _)

/-! ## Blocks of refused streams -/

theorem decodeBlock_discard (data : Bytes) :
    wp (decodeBlock discard data ()) (fun _ s' => Alike s s') (fun _ s' => Alike s s') s := by
  have hdecoder : ∀ decoder : HpackTable, Alike s { s with decoder } := fun _ =>
    .of_streams rfl rfl rfl rfl rfl ⟨[], rfl, by simp⟩
  have hfed : ∀ fields : List HpackHeader, (feed discard fields).run (s, ()) = (.ok (), (s, ())) := by
    intro fields
    induction fields with
    | nil => rfl
    | cons field fields ih =>
        rw [feed, run_bind]
        exact ih
  obtain ⟨result, table, fields, -, hfeeds⟩ := exists_feeds s.decoder data.length 0 false data
  have hread := hfeeds discard (fun _ => Http2Error.compressionError) (s, ())
  unfold wp at hread ⊢
  rw [hfed] at hread
  simp only at hread
  unfold decodeBlock
  have hrun : (decodeHpack discard (fun _ => Http2Error.compressionError) data).run (s.decoder, (s, ())) =
      (result.mapError fun _ => Http2Error.compressionError, (table, (s, ()))) := hread
  simp only [ExceptT.run] at hrun ⊢
  rw [hrun]
  cases result with
  | error e => exact hdecoder table
  | ok rest => exact hdecoder table

end Http2Connection

end Viriatum
