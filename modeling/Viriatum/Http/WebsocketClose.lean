import Mathlib.Data.List.TakeWhile
import Viriatum.Library.Utf8
import Viriatum.Http.WebsocketFraming

/-!
# The frame of a close

The reason of a close is cut where a character ends, and not before it has to be.
-/

namespace Viriatum

open Library

variable {reason : Bytes}

/-! ## The cut -/

/-- The size falls back over the bytes of the character that it would cut. -/
theorem truncateReason_spec (reason : Bytes) (size : Nat) :
    truncateReason reason size ≤ size ∧
      (truncateReason reason size = 0 ∨ ¬ Continues (reason.getD (truncateReason reason size) 0)) ∧
      ∀ m, truncateReason reason size < m → m ≤ size → Continues (reason.getD m 0) := by
  induction size with
  | zero => exact ⟨Nat.le_refl 0, .inl rfl, fun m hlt hle => absurd hle (Nat.not_le.mpr hlt)⟩
  | succ size ih =>
      rw [truncateReason]
      cases Decidable.em (reason.getD (size + 1) 0 &&& 0xc0 = 0x80) with
      | inl hcontinues =>
          obtain ⟨hle, hstop, hpassed⟩ := ih
          rw [if_pos hcontinues]
          refine ⟨Nat.le_succ_of_le hle, hstop, fun m hlt hm => ?_⟩
          cases Nat.lt_or_eq_of_le hm with
          | inl hbelow => exact hpassed m hlt (Nat.le_of_lt_succ hbelow)
          | inr htop => exact htop ▸ hcontinues
      | inr hstop =>
          rw [if_neg hstop]
          exact ⟨Nat.le_refl _, .inr hstop, fun m hlt hm => absurd hm (Nat.not_le.mpr hlt)⟩

/-- The size that a text is cut at is the one of the longest of its texts that a control frame has room for. -/
theorem reasonSizeWebsocket_spec (hutf8 : Utf8 reason) :
    reasonSizeWebsocket reason ≤ reason.length ∧
      reasonSizeWebsocket reason ≤ viriatumWebsocketMaxControl - 2 ∧
      Utf8 (reason.take (reasonSizeWebsocket reason)) ∧
      ∀ size, size ≤ reason.length → size ≤ viriatumWebsocketMaxControl - 2 → Utf8 (reason.take size) →
        size ≤ reasonSizeWebsocket reason := by
  unfold reasonSizeWebsocket
  split
  · next hlong =>
      obtain ⟨hle, hstop, hpassed⟩ := truncateReason_spec reason (viriatumWebsocketMaxControl - 2)
      have hlt := Nat.lt_of_le_of_lt hle hlong
      refine ⟨Nat.le_of_lt hlt, hle, ?_, fun size _ hsize hcut => hutf8.le_of_continues hlong hpassed hsize hcut⟩
      cases hstop with
      | inl hzero =>
          rw [hzero]
          exact ⟨[], rfl⟩
      | inr hstop =>
          rw [List.getD_eq_getElem?_getD, List.getElem?_eq_getElem hlt, Option.getD_some] at hstop
          have hfirst := (hutf8.first_or_continues _ (List.getElem_mem hlt)).resolve_right hstop
          exact (hutf8.take_iff (Nat.le_of_lt hlt)).mpr (.inr ⟨hlt, hfirst⟩)
  · next hshort =>
      rw [List.take_length]
      exact ⟨Nat.le_refl _, Nat.le_of_not_lt hshort, hutf8, fun size hle _ _ => hle⟩

/-! ## The frame -/

/-- A short frame of the server as a client would send it. -/
def asClient (mask : Bytes) : Bytes → Bytes
  | first :: second :: payload => first :: (0x80 ||| second) :: (mask ++ unmask mask payload)
  | frame => frame

/-- The payload of the frame that closes with a code and a reason. -/
def closePayload (code : UInt16) (reason : Bytes) : Bytes :=
  [UInt8.ofNat (code.toNat >>> 8), UInt8.ofNat code.toNat] ++ reason

theorem closeCodeWebsocket_closePayload (code : UInt16) (reason : Bytes) :
    closeCodeWebsocket (closePayload code reason) = code := by
  have hcode := code.toNat_lt
  have hhigh : (UInt8.ofNat (code.toNat >>> 8)).toNat = code.toNat / 256 := by
    rw [UInt8.toNat_ofNat', Nat.shiftRight_eq_div_pow]
    omega
  have hlow : (UInt8.ofNat code.toNat).toNat = code.toNat % 256 := UInt8.toNat_ofNat'
  have hsum : code.toNat / 256 * 2 ^ 8 ||| code.toNat % 256 = code.toNat := by
    rw [Nat.mul_comm, ← Nat.two_pow_add_eq_or_of_lt (Nat.mod_lt _ (by decide))]
    omega
  simp only [closePayload, List.cons_append, closeCodeWebsocket, hhigh, hlow, Nat.shiftLeft_eq, hsum]
  exact UInt16.ofNat_toNat

/-- A frame that closes is what the server writes, and masked it is what a client sends. -/
theorem closeFrame_accepted {payload : Bytes} (hpayload : payload.length ≤ viriatumWebsocketMaxControl) (mask : Bytes)
    (hmask : mask.length = 4) (rest : Bytes) :
    buildFrameWebsocket .close true payload = .ok (0x88 :: UInt8.ofNat payload.length :: payload) ∧
      parseFrameWebsocket (asClient mask (0x88 :: UInt8.ofNat payload.length :: payload) ++ rest) =
        .ok (some ⟨true, .close, mask, payload, payload.length + 6⟩) := by
  have hshort : payload.length ≤ 125 := hpayload
  let frame : ClientFrame := {
    fin := true, opcode := .close, mask, payload
    mask_length := hmask
    payload_le := Nat.le_trans hpayload (by decide)
    control := fun _ => ⟨rfl, hpayload⟩ }
  have hencode : frame.encode = asClient mask (0x88 :: UInt8.ofNat payload.length :: payload) := by
    simp only [ClientFrame.encode, ClientFrame.header, maskedLength, frame, if_pos hshort, asClient]
    rfl
  constructor
  · have hlength : lengthWebsocket payload.length = [UInt8.ofNat payload.length] := by
      rw [lengthWebsocket, if_neg (by omega), if_neg (by omega)]
    rw [buildFrameWebsocket, if_neg (Nat.not_lt.mpr (Nat.le_trans hpayload (by decide))), hlength]
    rfl
  · have hparsed := parseFrameWebsocket_encode frame rest
    have hlength : frame.encode.length = payload.length + 6 := by
      simp [hencode, asClient, hmask]
      omega
    rw [hlength, hencode] at hparsed
    exact hparsed

/-- What a string in memory holds, which ends before its first zero byte. -/
def stringOf (data : Bytes) : Bytes := data.takeWhile (· ≠ 0)

/-- A zero byte is a character of its own, so what comes before it is a text. -/
theorem utf8_stringOf {data : Bytes} (h : Utf8 data) : Utf8 (stringOf data) := by
  have hprefix : stringOf data <+: data := List.takeWhile_prefix _
  have htake := List.prefix_iff_eq_take.mp hprefix
  rw [htake, h.take_iff hprefix.length_le]
  cases Nat.lt_or_eq_of_le hprefix.length_le with
  | inr heq => exact .inl heq
  | inl hlt =>
      refine .inr ⟨hlt, ?_⟩
      have hdrop : (data.dropWhile (· ≠ 0)).head? = some data[(stringOf data).length] := by
        have hparts : stringOf data ++ data.dropWhile (· ≠ 0) = data := List.takeWhile_append_dropWhile
        have hget : (stringOf data ++ data.dropWhile (· ≠ 0))[(stringOf data).length]? =
            some data[(stringOf data).length] := by
          rw [hparts, List.getElem?_eq_getElem hlt]
        rwa [List.getElem?_append_right (Nat.le_refl _), Nat.sub_self, ← List.head?_eq_getElem?] at hget
      have hstop := List.head?_dropWhile_not (· ≠ 0) data
      rw [hdrop] at hstop
      simp only [ne_eq, decide_not, Bool.not_eq_false', decide_eq_true_eq] at hstop
      rw [hstop]
      decide

/-- The frame carries the code and the longest text that the reason starts with and that fits; masked as the one of a
client it is accepted. -/
theorem close_reason (code : UInt16) (hutf8 : Utf8 reason) :
    ∃ cut frame, buildCloseWebsocket code (some reason) = .ok frame ∧
      frame = 0x88 :: UInt8.ofNat (closePayload code cut).length :: closePayload code cut ∧
      closeCodeWebsocket (closePayload code cut) = code ∧
      (cut <+: stringOf reason ∧ cut.length ≤ 123 ∧ Utf8 cut) ∧
      (∀ other, other <+: stringOf reason → other.length ≤ 123 → Utf8 other → other <+: cut) ∧
      ∀ mask : Bytes, mask.length = 4 → ∀ rest, parseFrameWebsocket (asClient mask frame ++ rest) =
        .ok (some ⟨true, .close, mask, closePayload code cut, frame.length + 4⟩) := by
  obtain ⟨hle, hfits, hcut, hlongest⟩ := reasonSizeWebsocket_spec (utf8_stringOf hutf8)
  have hlength : ((stringOf reason).take (reasonSizeWebsocket (stringOf reason))).length =
      reasonSizeWebsocket (stringOf reason) := by
    rw [List.length_take, Nat.min_eq_left hle]
  have hpayload : (closePayload code ((stringOf reason).take (reasonSizeWebsocket (stringOf reason)))).length ≤
      viriatumWebsocketMaxControl := by
    rw [closePayload, List.length_append, hlength]
    have : viriatumWebsocketMaxControl = 125 := rfl
    simp only [List.length_cons, List.length_nil]
    omega
  refine ⟨(stringOf reason).take (reasonSizeWebsocket (stringOf reason)), _, ?_, rfl,
    closeCodeWebsocket_closePayload code _, ⟨List.take_prefix _ _, Nat.le_trans (Nat.le_of_eq hlength) hfits, hcut⟩,
    ?_, ?_⟩
  · exact (closeFrame_accepted hpayload [0, 0, 0, 0] rfl []).1
  · intro other hprefix hother hotherUtf8
    have heq := List.prefix_iff_eq_take.mp hprefix
    have hsize := hlongest other.length hprefix.length_le hother (heq ▸ hotherUtf8)
    rw [heq]
    exact List.take_prefix_take_left hsize
  · intro mask hmask rest
    rw [(closeFrame_accepted hpayload mask hmask rest).2]
    simp

/-- A reason of more than a hundred and twenty three bytes, two for each of its characters. -/
def accentedReason : Bytes := (List.replicate 62 'é').flatMap String.utf8EncodeChar

theorem close_reason_accented :
    ∃ cut frame, buildCloseWebsocket 1000 (some accentedReason) = .ok frame ∧
      frame = 0x88 :: UInt8.ofNat (closePayload 1000 cut).length :: closePayload 1000 cut ∧
      closeCodeWebsocket (closePayload 1000 cut) = 1000 ∧
      (cut <+: stringOf accentedReason ∧ cut.length ≤ 123 ∧ Utf8 cut) ∧
      (∀ other, other <+: stringOf accentedReason → other.length ≤ 123 → Utf8 other → other <+: cut) ∧
      ∀ mask : Bytes, mask.length = 4 → ∀ rest, parseFrameWebsocket (asClient mask frame ++ rest) =
        .ok (some ⟨true, .close, mask, closePayload 1000 cut, frame.length + 4⟩) :=
  close_reason 1000 ⟨_, rfl⟩

/-- As the server writes it the frame is not masked, which the parser refuses. -/
theorem not_close_accepted : ¬ ∀ (code : UInt16) (reason : Bytes), Utf8 reason →
    ∃ frame parsed, buildCloseWebsocket code (some reason) = .ok frame ∧
      parseFrameWebsocket frame = .ok (some parsed) := by
  intro h
  obtain ⟨frame, parsed, hbuilt, hparsed⟩ := h 1000 [] ⟨[], rfl⟩
  have hframe : buildCloseWebsocket 1000 (some []) = .ok [0x88, 0x02, 0x03, 0xe8] := by decide
  rw [hframe] at hbuilt
  cases hbuilt
  have hrefused : parseFrameWebsocket [0x88, 0x02, 0x03, 0xe8] =
      .error "Received an unmasked frame from the client" := by decide
  rw [hrefused] at hparsed
  cases hparsed

end Viriatum
