import Viriatum.Http.Lemmas.Hpack
import Viriatum.Stream.Lemmas.Calls

/-!
# Header blocks seen from the outline

The decoding of a block only calls handlers, whatever the fields of it and whether or not they are refused.
-/

namespace Viriatum

open Library Effect

/-- The kinds of the moves of a block, a message beginning by itself only where `begins` holds. -/
def blockKinds (promises begins : Prop) (kind : MoveKind) : Prop :=
  callKinds promises kind ∨ kind = .began ∧ begins

/-- A pseudo header does not change what tells the message from the others. -/
theorem gatherPseudo_address (header : HpackHeader) (seen : UInt8) (request : HttpRequest) :
    (gatherPseudo header seen request).2.1.address = request.address := by
  unfold gatherPseudo
  split
  · split <;> rfl
  · split
    · split
      · rfl
      · split <;> rfl
    · split
      · split
        · rfl
        · split <;> rfl
      · split
        · split
          · rfl
          · split <;> rfl
        · rfl

namespace Http2Connection

variable {promises begins : Prop} {s s₀ : Http2Connection} {slot : Nat} {service : Service} {g : Bool}

/-- The session has come from another one by the moves of a block, without starting to go away. -/
structure Blocks (promises begins : Prop) (g : Bool) (s₀ s : Http2Connection) : Prop where
  does : Does (blockKinds promises begins) s₀ s
  goaway : s.goaway = g

namespace Blocks

variable {block : Http2Block}

theorem edit (h : Blocks promises begins g s₀ s) (slot : Nat) (f : Http2Stream → Http2Stream)
    (hf : (f (s.stream slot)).outline = (s.stream slot).outline) :
    Blocks promises begins g s₀ (s.modifyStream slot f) :=
  ⟨h.does.trans (.of_eq (outline_modifyStream hf)), h.goaway⟩

theorem calls (h : Blocks promises begins g s₀ s) {s' : Http2Connection} (h' : Does (callKinds promises) s s') :
    Blocks promises begins g s₀ s' :=
  ⟨h.does.trans (h'.mono fun _ => Or.inl), h'.goaway.trans h.goaway⟩

variable (hpromises : ∀ s callback, s.goaway = g → service.Promises s callback → promises)

include hpromises

theorem call (h : Blocks promises begins g s₀ s) (callback : Callback) (hc : ∀ a, callback ≠ .messageBegin a) :
    Blocks promises begins g s₀ (s.call service callback) :=
  h.calls (call_does h.goaway hpromises hc)

theorem pseudoHttp2 (h : Blocks promises begins g s₀ s) :
    wp (pseudoHttp2 service slot) (fun _ p => Blocks promises begins g s₀ p.1)
      (fun _ p => Blocks promises begins g s₀ p.1) (s, block) := by
  unfold Http2Connection.pseudoHttp2
  simp only [wp_bind, wp_get, wp_ite, wp_set, wp_refuseIf, wp_pure]
  split
  · exact h
  · split
    · exact h
    · split
      · exact h
      · have hurl := h.call hpromises (.url (s.stream slot).request.address (s.stream slot).request.path)
          (by simp)
        split
        · exact (hurl.call hpromises _ (by simp)).call hpromises _ (by simp)
        · exact hurl

omit hpromises in
theorem pseudoHeader (h : Blocks promises begins g s₀ s) (header : HpackHeader) :
    wp (pseudoHeader slot header) (fun _ p => Blocks promises begins g s₀ p.1)
      (fun _ p => Blocks promises begins g s₀ p.1) (s, block) := by
  unfold Http2Connection.pseudoHeader
  simp only [wp_bind, wp_get, wp_set, wp_refuseIf]
  have hedit := h.edit slot (fun stream =>
    { stream with request := (gatherPseudo header block.pseudo (s.stream slot).request).2.1 })
    (by simp [Http2Stream.outline, gatherPseudo_address])
  split
  · exact h
  · split
    · exact h
    · split
      · exact hedit
      · exact hedit

omit hpromises in
theorem contentLength (h : Blocks promises begins g s₀ s) (header : HpackHeader) :
    wp (contentLength slot header) (fun _ p => Blocks promises begins g s₀ p.1)
      (fun _ p => Blocks promises begins g s₀ p.1) (s, block) := by
  unfold Http2Connection.contentLength
  simp only [wp_ite, wp_bind, wp_get, wp_set, wp_refuseIf, wp_modify, wp_pure]
  split
  · split
    · exact h.edit _ _ rfl
    · exact (h.edit _ _ rfl).edit _ _ rfl
  · exact h

theorem takeHeader (h : Blocks promises begins g s₀ s) (header : HpackHeader) :
    wp (takeHeader service slot header) (fun _ p => Blocks promises begins g s₀ p.1)
      (fun _ p => Blocks promises begins g s₀ p.1) (s, block) := by
  unfold Http2Connection.takeHeader
  simp only [wp_bind, wp_modify, wp_refuseIf]
  split
  · exact h
  · split
    · exact h
    · split
      · exact h
      · split
        · exact h
        · refine (h.contentLength header).mono (fun _ p hp => ?_) fun _ _ h => h
          exact (hp.call hpromises _ (by simp)).call hpromises _ (by simp)

theorem regularHeader (h : Blocks promises begins g s₀ s) (header : HpackHeader) :
    wp (regularHeader service slot header) (fun _ p => Blocks promises begins g s₀ p.1)
      (fun _ p => Blocks promises begins g s₀ p.1) (s, block) := by
  unfold Http2Connection.regularHeader
  simp only [wp_bind, wp_get, wp_ite, wp_pure]
  split
  · exact h.takeHeader hpromises header
  · exact (h.pseudoHttp2 hpromises).mono (fun _ p hp => hp.takeHeader hpromises header) fun _ _ h => h

theorem headerHttp2 (h : Blocks promises begins g s₀ s) (header : HpackHeader) :
    wp (headerHttp2 service slot header) (fun _ p => Blocks promises begins g s₀ p.1)
      (fun _ p => Blocks promises begins g s₀ p.1) (s, block) := by
  unfold Http2Connection.headerHttp2
  split
  · exact h.pseudoHeader header
  · exact h.regularHeader hpromises header

omit hpromises in
theorem decodeBlock {σ : Type} {callback : HpackHeader → Effect Http2Error (Http2Connection × σ) Unit}
    (hcallback : ∀ header (p : Http2Connection × σ), Blocks promises begins g s₀ p.1 →
      wp (callback header) (fun _ p => Blocks promises begins g s₀ p.1) (fun _ p => Blocks promises begins g s₀ p.1) p)
    (h : Blocks promises begins g s₀ s) {data : Bytes} {block : σ} :
    wp (decodeBlock callback data block) (fun _ => Blocks promises begins g s₀)
      (fun _ => Blocks promises begins g s₀) s := by
  have hwp : wp (decodeHpack callback (fun _ => Http2Error.compressionError) data) _ _ (s.decoder, (s, block)) :=
    decodeHpack_keeps hcallback h
  have hdecoder : ∀ {t : Http2Connection} {decoder : HpackTable}, Blocks promises begins g s₀ t →
      Blocks promises begins g s₀ { t with decoder } :=
    fun ht => ⟨ht.does.trans (.of_eq rfl), ht.goaway⟩
  unfold wp at hwp ⊢
  simp only [Http2Connection.decodeBlock, ExceptT.run] at hwp ⊢
  split at hwp
  case h_1 hrun =>
    rw [hrun]
    exact hdecoder hwp
  case h_2 hrun =>
    rw [hrun]
    exact hdecoder hwp

end Blocks

theorem enter_does : Does (callKinds promises) s (enter slot s) := by
  unfold enter
  refine Does.trans ?_ (.of_eq outline_activate)
  split
  · exact setHandler_does _ trivial
  · rfl

theorem Blocks.leave (h : Blocks promises begins g s₀ s)
    (hpromises : ∀ s callback, s.goaway = g → service.Promises s callback → promises) (trailers : Bool) :
    Blocks promises begins g s₀ (leave service slot trailers s) := by
  have hend : ∀ {t : Http2Connection} {address : Nat}, Blocks promises begins g s₀ t →
      Blocks promises begins g s₀
        (if (t.stream slot).endStream then t.call service (.messageComplete address) else t) := by
    intro t address ht
    split
    · exact ht.call hpromises _ (by simp)
    · exact ht
  unfold Http2Connection.leave
  dsimp only
  apply hend
  refine Blocks.edit ?_ _ _ rfl
  split
  · exact h
  · exact (h.edit _ _ rfl).call hpromises _ (by simp)

theorem blockHttp2_blocks (begins : Prop) {data : Bytes} (hg : s.goaway = g)
    (hpromises : ∀ s callback, s.goaway = g → service.Promises s callback → promises)
    (hbegins : (s.stream slot).headersComplete = false → begins) :
    wp (blockHttp2 service slot data) (fun _ => Blocks promises begins g s) (fun _ => Blocks promises begins g s) s := by
  have henter : Blocks promises begins g s (enter slot s) :=
    Blocks.calls ⟨.refl s, hg⟩ enter_does
  have hbegin : Blocks promises begins g s
      (if (s.stream slot).headersComplete then enter slot s
        else (enter slot s).call service (.messageBegin ((enter slot s).stream slot).request.address)) := by
    split
    · exact henter
    · rename_i hc
      have hbegan : Does (blockKinds promises begins) (enter slot s)
          ((enter slot s).record (.called (.messageBegin ((enter slot s).stream slot).request.address))) :=
        Does.single (.began _) (Or.inr ⟨rfl, hbegins (by simpa using hc)⟩)
      exact Blocks.calls ⟨henter.does.trans hbegan, henter.goaway⟩ (callWithin_does henter.goaway hpromises)
  unfold blockHttp2
  simp only [wp_bind, wp_get, wp_set, wp_modify]
  refine (Blocks.decodeBlock (fun header p hp => hp.headerHttp2 hpromises header) hbegin).mono ?_ fun _ _ h => h
  intro block t ht
  rw [wp_withLocal]
  exact (ht.pseudoHttp2 hpromises).mono (fun _ p hp => hp.leave hpromises _) fun _ _ h => h

end Http2Connection

end Viriatum
