import Viriatum.Library.Octets
import Viriatum.Http.Websocket

/-!
# Frames of a client

What a client sends is parsed back into its frames, whatever comes after them, and nothing of the buffer is unmasked before
a frame is complete. What is refused is what no frame of a client starts with.
-/

namespace Viriatum

open Library

/-! ## The parser works in place -/

/-- Unmasks bytes of a buffer where they stand, the first of them being at an offset. -/
def unmaskAt (mask : Bytes) (offset : Nat) : (count : Nat) → Bytes → Bytes
  | 0, buffer => buffer
  | count + 1, buffer =>
      (unmaskAt mask offset count buffer).modify (offset + count) (· ^^^ mask.getD (count % 4) 0)

/-- The parsing of a frame with the buffer that it leaves. -/
def parseInPlaceWebsocket (buffer : Bytes) : Except String (Option WebsocketFrame) × Bytes :=
  match parseHeaderWebsocket buffer with
  | .error message => (.error message, buffer)
  | .ok none => (.ok none, buffer)
  | .ok (some ⟨fin, opcode, payloadSize, offset⟩) =>
      if buffer.length < offset + 4 then (.ok none, buffer)
      else if buffer.length < offset + 4 + payloadSize then (.ok none, buffer)
      else
        let mask := (buffer.drop offset).take 4
        let buffer := unmaskAt mask (offset + 4) payloadSize buffer
        (.ok (some ⟨fin, opcode, mask, (buffer.drop (offset + 4)).take payloadSize, offset + 4 + payloadSize⟩), buffer)

@[simp] theorem length_unmask (mask payload : Bytes) : (unmask mask payload).length = payload.length := by
  simp [unmask]

theorem unmask_concat (mask payload : Bytes) (byte : UInt8) :
    unmask mask (payload ++ [byte]) = unmask mask payload ++ [byte ^^^ mask.getD (payload.length % 4) 0] := by
  simp [unmask, List.mapIdx_append]

theorem unmask_unmask (mask payload : Bytes) : unmask mask (unmask mask payload) = payload := by
  induction payload using List.reverseRecOn with
  | nil => rfl
  | append_singleton payload byte ih =>
      rw [unmask_concat, unmask_concat, ih, length_unmask, UInt8.xor_assoc, UInt8.xor_self, UInt8.xor_zero]

theorem modify_after (head tail : Bytes) (byte : UInt8) (f : UInt8 → UInt8) :
    (head ++ byte :: tail).modify head.length f = head ++ f byte :: tail := by
  induction head with
  | nil => rfl
  | cons first head ih => simp [ih]

theorem unmaskAt_eq (mask head payload tail : Bytes) :
    unmaskAt mask head.length payload.length (head ++ payload ++ tail) = head ++ unmask mask payload ++ tail := by
  induction payload using List.reverseRecOn generalizing tail with
  | nil => simp [unmaskAt, unmask]
  | append_singleton payload byte ih =>
      have hrest := ih (byte :: tail)
      have hmodify := modify_after (head ++ unmask mask payload) tail byte (· ^^^ mask.getD (payload.length % 4) 0)
      rw [List.length_append, length_unmask] at hmodify
      rw [List.length_append, List.length_singleton, unmaskAt, unmask_concat]
      simp only [List.append_assoc, List.singleton_append] at hrest hmodify ⊢
      rw [hrest, hmodify]

/-- The rest of a buffer is its next bytes and the ones after them. -/
theorem drop_parts (buffer : Bytes) (offset size : Nat) :
    (buffer.drop offset).take size ++ buffer.drop (offset + size) = buffer.drop offset := by
  rw [← List.drop_drop, List.take_append_drop]

/-- What the parser reports is what the frame is, and all that changes of the buffer is the payload of a complete frame. -/
theorem parseInPlaceWebsocket_eq (buffer : Bytes) :
    parseInPlaceWebsocket buffer = (parseFrameWebsocket buffer,
      match parseFrameWebsocket buffer with
      | .ok (some frame) =>
          buffer.take (frame.size - frame.payload.length) ++ frame.payload ++ buffer.drop frame.size
      | _ => buffer) := by
  unfold parseInPlaceWebsocket parseFrameWebsocket
  cases parseHeaderWebsocket buffer with
  | error message => rfl
  | ok header =>
      cases header with
      | none => rfl
      | some header =>
          obtain ⟨fin, opcode, payloadSize, offset⟩ := header
          simp only
          split
          · rfl
          · split
            · rfl
            · next hcomplete =>
                have hhead : (buffer.take (offset + 4)).length = offset + 4 := by
                  rw [List.length_take]
                  omega
                have hpayload : ((buffer.drop (offset + 4)).take payloadSize).length = payloadSize := by
                  rw [List.length_take, List.length_drop]
                  omega
                have hsplit : buffer.take (offset + 4) ++ (buffer.drop (offset + 4)).take payloadSize ++
                    buffer.drop (offset + 4 + payloadSize) = buffer := by
                  rw [List.append_assoc, drop_parts, List.take_append_drop]
                have hunmask := unmaskAt_eq ((buffer.drop offset).take 4) (buffer.take (offset + 4))
                  ((buffer.drop (offset + 4)).take payloadSize) (buffer.drop (offset + 4 + payloadSize))
                rw [hsplit, hhead, hpayload] at hunmask
                have hdrop : ∀ rest : Bytes, (buffer.take (offset + 4) ++ rest).drop (offset + 4) = rest :=
                  fun rest => List.drop_left' hhead
                simp only [hunmask, List.append_assoc, hdrop, length_unmask, hpayload, Nat.add_sub_cancel]
                rw [List.take_left' (by rw [length_unmask, hpayload])]

/-! ## What a client sends -/

/-- A frame that the protocol allows a client, of a size that is taken. -/
structure ClientFrame where
  fin : Bool
  opcode : WebsocketOpcode
  mask : Bytes
  payload : Bytes
  mask_length : mask.length = 4
  payload_le : payload.length ≤ viriatumWebsocketMaxPayload
  control : opcode.isControl = true → fin = true ∧ payload.length ≤ viriatumWebsocketMaxControl

/-- The first byte of a frame. -/
def frameStart (fin : Bool) (opcode : WebsocketOpcode) : UInt8 := (if fin then 0x80 else 0x00) ||| opcode.toByte

/-- The bytes after the first one that tell the length of a masked payload, in the shortest of the three forms. -/
def maskedLength (size : Nat) : Bytes :=
  if size ≤ 125 then [0x80 ||| UInt8.ofNat size]
  else if size ≤ 65535 then 0xfe :: octets 2 size
  else 0xff :: octets 8 size

namespace ClientFrame

def header (frame : ClientFrame) : Bytes := frameStart frame.fin frame.opcode :: maskedLength frame.payload.length

def encode (frame : ClientFrame) : Bytes := frame.header ++ frame.mask ++ unmask frame.mask frame.payload

end ClientFrame

theorem networkOrder_eq (data : Bytes) : networkOrder data = ofOctets data := rfl

theorem length_maskedLength_pos (size : Nat) : 0 < (maskedLength size).length := by
  unfold maskedLength
  split_ifs <;> simp

/-! ### The length is read back -/

/-- The bytes of the length that follow the second one. -/
def lengthBytes (second : UInt8) : Nat :=
  if (second &&& 0x7f).toNat = 126 then 2 else if (second &&& 0x7f).toNat = 127 then 8 else 0

/-- The bytes that a frame starts with, over all of their values. -/
theorem framing_bytes :
    (∀ size < 126, (0x80 ||| UInt8.ofNat size) &&& 0x80 ≠ 0 ∧
      ((0x80 ||| UInt8.ofNat size) &&& 0x7f).toNat = size) ∧
    (∀ n : Fin 256, UInt8.ofNat n &&& 0x80 ≠ 0 →
      UInt8.ofNat n = 0x80 ||| UInt8.ofNat (UInt8.ofNat n &&& 0x7f).toNat) ∧
    ∀ n : Fin 256, UInt8.ofNat n &&& 0x70 = 0 →
      ∀ opcode ∈ WebsocketOpcode.ofByte (UInt8.ofNat n &&& 0x0f),
        UInt8.ofNat n = frameStart (decide (UInt8.ofNat n &&& 0x80 ≠ 0)) opcode := by
  decide +kernel

theorem second_short (size : Nat) (hsize : size ≤ 125) :
    (0x80 ||| UInt8.ofNat size) &&& 0x80 ≠ 0 ∧ ((0x80 ||| UInt8.ofNat size) &&& 0x7f).toNat = size :=
  framing_bytes.1 size (Nat.lt_succ_of_le hsize)

theorem second_masked (second : UInt8) :
    second &&& 0x80 ≠ 0 → second = 0x80 ||| UInt8.ofNat (second &&& 0x7f).toNat := by
  revert second
  exact forall_byte framing_bytes.2.1

theorem second_value_lt (second : UInt8) : (second &&& 0x7f).toNat < 128 := by
  rw [UInt8.toNat_and]
  exact Nat.lt_succ_of_le Nat.and_le_right

theorem first_read (fin : Bool) (opcode : WebsocketOpcode) :
    frameStart fin opcode &&& 0x70 = 0 ∧ WebsocketOpcode.ofByte (frameStart fin opcode &&& 0x0f) = some opcode ∧
      decide (frameStart fin opcode &&& 0x80 ≠ 0) = fin := by
  cases fin <;> cases opcode <;> decide

theorem first_told (first : UInt8) : ∀ opcode, first &&& 0x70 = 0 →
    WebsocketOpcode.ofByte (first &&& 0x0f) = some opcode →
    first = frameStart (decide (first &&& 0x80 ≠ 0)) opcode := by
  revert first
  refine forall_byte fun n opcode hreserved hopcode => ?_
  exact framing_bytes.2.2 n hreserved opcode hopcode

theorem payloadSizeWebsocket_maskedLength {size : Nat} (hsize : size ≤ viriatumWebsocketMaxPayload) :
    ∃ second more, maskedLength size = second :: more ∧ second &&& 0x80 ≠ 0 ∧
      ∀ rest, payloadSizeWebsocket second (more ++ rest) = .ok (some (size, more.length)) := by
  have hread : ∀ width < 9, size < 256 ^ width → ofOctets (octets width size) = size := by
    intro width _ hlt
    rw [ofOctets_octets, Nat.mod_eq_of_lt hlt]
  have hmax : size < 256 ^ 8 := Nat.lt_of_le_of_lt hsize (by decide)
  unfold maskedLength
  split
  · next hshort =>
      obtain ⟨hmasked, hvalue⟩ := second_short size hshort
      refine ⟨_, [], rfl, hmasked, fun rest => ?_⟩
      rw [payloadSizeWebsocket, hvalue, if_neg (by omega), if_neg (by omega)]
      rfl
  · next hlong =>
      split
      · next hmiddle =>
          refine ⟨0xfe, octets 2 size, rfl, by decide, fun rest => ?_⟩
          have htake : (octets 2 size ++ rest).take 2 = octets 2 size := List.take_left' (length_octets 2 size)
          have hlength : ¬ (octets 2 size ++ rest).length < 2 := by
            rw [List.length_append, length_octets]
            omega
          rw [payloadSizeWebsocket, if_pos (by decide), if_neg hlength, htake, networkOrder_eq,
            hread 2 (by decide) (by omega)]
          simp only [length_octets]
          rw [if_neg (by omega)]
      · next hlarge =>
          refine ⟨0xff, octets 8 size, rfl, by decide, fun rest => ?_⟩
          have htake : (octets 8 size ++ rest).take 8 = octets 8 size := List.take_left' (length_octets 8 size)
          have hlength : ¬ (octets 8 size ++ rest).length < 8 := by
            rw [List.length_append, length_octets]
            omega
          rw [payloadSizeWebsocket, if_neg (by decide), if_pos (by decide), if_neg hlength, htake, networkOrder_eq,
            hread 8 (by decide) hmax]
          simp only [length_octets]
          rw [if_neg (by omega)]

/-- A length is read out of the bytes that the client writes for it. -/
theorem maskedLength_told {second : UInt8} {rest : Bytes} {size extended : Nat} (hmasked : second &&& 0x80 ≠ 0)
    (h : payloadSizeWebsocket second rest = .ok (some (size, extended))) :
    second :: rest.take extended = maskedLength size ∧ extended ≤ rest.length := by
  have hsecond := second_masked second hmasked
  have hback : ∀ width, width ≤ rest.length →
      octets width (networkOrder (rest.take width)) = rest.take width ∧
        networkOrder (rest.take width) < 256 ^ width := by
    intro width hle
    have hoctets := octets_ofOctets (rest.take width)
    have hlt := ofOctets_lt (rest.take width)
    rw [List.length_take, Nat.min_eq_left hle] at hoctets hlt
    exact ⟨hoctets, hlt⟩
  simp only [payloadSizeWebsocket] at h
  split at h
  · next hvalue =>
      split at h
      · cases h
      · next hlong =>
          split at h
          · cases h
          · next hminimal =>
              cases h
              obtain ⟨hoctets, hlt⟩ := hback 2 (by omega)
              rw [hvalue] at hsecond
              rw [maskedLength, if_neg (by omega), if_pos (by omega), hoctets, hsecond]
              exact ⟨rfl, by omega⟩
  · split at h
    · next hvalue =>
        split at h
        · cases h
        · next hlong =>
            split at h
            · cases h
            · next hminimal =>
                cases h
                obtain ⟨hoctets, -⟩ := hback 8 (by omega)
                rw [hvalue] at hsecond
                rw [maskedLength, if_neg (by omega), if_neg (by omega), hoctets, hsecond]
                exact ⟨rfl, by omega⟩
    · next h126 h127 =>
        cases h
        have hlt := second_value_lt second
        rw [maskedLength, if_pos (by omega), List.take_zero, ← hsecond]
        exact ⟨rfl, Nat.zero_le _⟩

/-! ### The header is read back -/

theorem checkFrameWebsocket_none {fin : Bool} {opcode : WebsocketOpcode} {size : Nat} :
    checkFrameWebsocket fin opcode size = none ↔ size ≤ viriatumWebsocketMaxPayload ∧
      (opcode.isControl = true → fin = true ∧ size ≤ viriatumWebsocketMaxControl) := by
  unfold checkFrameWebsocket
  split_ifs <;> simp_all

theorem parseHeaderWebsocket_header (frame : ClientFrame) (rest : Bytes) :
    parseHeaderWebsocket (frame.header ++ rest) =
      .ok (some ⟨frame.fin, frame.opcode, frame.payload.length, frame.header.length⟩) := by
  obtain ⟨hreserved, hopcode, hfin⟩ := first_read frame.fin frame.opcode
  obtain ⟨second, more, hlength, hmasked, hsize⟩ := payloadSizeWebsocket_maskedLength frame.payload_le
  have hcheck := checkFrameWebsocket_none.mpr ⟨frame.payload_le, frame.control⟩
  rw [ClientFrame.header, hlength]
  simp only [List.cons_append, parseHeaderWebsocket, hreserved, ne_eq, not_true_eq_false, if_false, hopcode, hmasked,
    hsize, List.length_cons]
  simp only [ne_eq] at hfin
  rw [hfin, hcheck]
  simp [Nat.add_comm 2]

/-- A header that is read is the one that the client writes. -/
theorem header_told {buffer : Bytes} {header : WebsocketHeader} (h : parseHeaderWebsocket buffer = .ok (some header)) :
    frameStart header.fin header.opcode :: maskedLength header.payloadSize = buffer.take header.offset ∧
      header.offset ≤ buffer.length ∧ header.payloadSize ≤ viriatumWebsocketMaxPayload ∧
      (header.opcode.isControl = true → header.fin = true ∧ header.payloadSize ≤ viriatumWebsocketMaxControl) := by
  match buffer, h with
  | [], h => cases h
  | [_], h => cases h
  | first :: second :: rest, h =>
      simp only [parseHeaderWebsocket] at h
      split at h
      · cases h
      · next hreserved =>
          rw [ne_eq, not_not] at hreserved
          cases hopcode : WebsocketOpcode.ofByte (first &&& 0x0f) with
          | none => simp [hopcode] at h
          | some opcode =>
              simp only [hopcode] at h
              split at h
              · cases h
              · next hmasked =>
                  cases hsize : payloadSizeWebsocket second rest with
                  | error message => simp [hsize] at h
                  | ok result =>
                      cases result with
                      | none => simp [hsize] at h
                      | some result =>
                          obtain ⟨payloadSize, extended⟩ := result
                          simp only [hsize] at h
                          cases hcheck : checkFrameWebsocket (decide (first &&& 0x80 ≠ 0)) opcode payloadSize with
                          | some message =>
                              rw [hcheck] at h
                              cases h
                          | none =>
                              simp only [hcheck, Except.ok.injEq, Option.some.injEq] at h
                              subst h
                              obtain ⟨hlength, hle⟩ := maskedLength_told hmasked hsize
                              have hfirst := first_told first opcode hreserved hopcode
                              refine ⟨?_, by simp; omega, checkFrameWebsocket_none.mp hcheck⟩
                              rw [← hfirst, ← hlength, Nat.add_comm 2]
                              rfl

/-! ## Frames are parsed back -/

theorem parseFrameWebsocket_encode (frame : ClientFrame) (rest : Bytes) :
    parseFrameWebsocket (frame.encode ++ rest) =
      .ok (some ⟨frame.fin, frame.opcode, frame.mask, frame.payload, frame.encode.length⟩) := by
  have hlength : frame.encode.length = frame.header.length + 4 + frame.payload.length := by
    rw [ClientFrame.encode, List.length_append, List.length_append, length_unmask, frame.mask_length]
  have hparts : frame.encode ++ rest =
      frame.header ++ (frame.mask ++ (unmask frame.mask frame.payload ++ rest)) := by
    simp only [ClientFrame.encode, List.append_assoc]
  have hmask : ((frame.encode ++ rest).drop frame.header.length).take 4 = frame.mask := by
    rw [hparts, List.drop_left, List.take_left' frame.mask_length]
  have hpayload : ((frame.encode ++ rest).drop (frame.header.length + 4)).take frame.payload.length =
      unmask frame.mask frame.payload := by
    rw [hparts, ← List.drop_drop, List.drop_left, List.drop_left' frame.mask_length,
      List.take_left' (length_unmask _ _)]
  have hheader := parseHeaderWebsocket_header frame (frame.mask ++ (unmask frame.mask frame.payload ++ rest))
  rw [← hparts] at hheader
  have hlong : frame.encode.length ≤ (frame.encode ++ rest).length := by
    rw [List.length_append]
    exact Nat.le_add_right _ _
  rw [parseFrameWebsocket, hheader]
  simp only
  rw [if_neg (by omega), if_neg (by omega), hmask, hpayload, unmask_unmask, hlength]

/-- A frame is not told before all of it is there. -/
theorem parseFrameWebsocket_prefix {frame : ClientFrame} {part more : Bytes} (h : part ++ more = frame.encode)
    (hmore : more ≠ []) : parseFrameWebsocket part = .ok none := by
  have hencode := parseFrameWebsocket_encode frame []
  rw [List.append_nil, ← h] at hencode
  cases hpart : parseFrameWebsocket part with
  | error message =>
      rw [parseFrameWebsocket_append more hpart (by simp)] at hencode
      cases hencode
  | ok result =>
      cases result with
      | none => rfl
      | some parsed =>
          rw [parseFrameWebsocket_append more hpart (by simp)] at hencode
          simp only [Except.ok.injEq, Option.some.injEq] at hencode
          have hsize := (size_parseFrameWebsocket hpart).2
          have hpos := List.length_pos_iff.mpr hmore
          simp only [hencode, List.length_append] at hsize
          omega

/-! ## What is refused -/

/-- The bytes that tell whether a frame is taken are there: the first two, and those of the length unless the first two
are already wrong. -/
def HeaderTold : Bytes → Prop
  | first :: second :: rest =>
      first &&& 0x70 ≠ 0 ∨ WebsocketOpcode.ofByte (first &&& 0x0f) = none ∨ second &&& 0x80 = 0 ∨
        lengthBytes second ≤ rest.length
  | _ => False

theorem payloadSizeWebsocket_told (second : UInt8) (rest : Bytes) :
    payloadSizeWebsocket second rest ≠ .ok none ↔ lengthBytes second ≤ rest.length := by
  unfold payloadSizeWebsocket lengthBytes
  simp only
  split_ifs <;> simp <;> omega

/-- A header is undecided only where its bytes are not all there. -/
theorem headerTold_iff (buffer : Bytes) : HeaderTold buffer ↔ parseHeaderWebsocket buffer ≠ .ok none := by
  match buffer with
  | [] => simp [HeaderTold, parseHeaderWebsocket]
  | [_] => simp [HeaderTold, parseHeaderWebsocket]
  | first :: second :: rest =>
      have hsize := payloadSizeWebsocket_told second rest
      simp only [HeaderTold, parseHeaderWebsocket]
      cases Decidable.em (first &&& 0x70 ≠ 0) with
      | inl hreserved => simp [hreserved]
      | inr hreserved =>
          rw [if_neg hreserved]
          cases hopcode : WebsocketOpcode.ofByte (first &&& 0x0f) with
          | none => simp
          | some opcode =>
              cases Decidable.em (second &&& 0x80 = 0) with
              | inl hmasked => simp [hmasked]
              | inr hmasked =>
                  simp only [hreserved, hmasked, if_false, false_or, reduceCtorEq]
                  rw [← hsize]
                  cases hread : payloadSizeWebsocket second rest with
                  | error message => simp
                  | ok result =>
                      cases result with
                      | none => simp
                      | some result =>
                          obtain ⟨payloadSize, extended⟩ := result
                          simp only
                          cases checkFrameWebsocket (decide (first &&& 0x80 ≠ 0)) opcode payloadSize with
                          | none => simp
                          | some message => simp

/-- A frame that a header which is read can be continued to. -/
theorem exists_continuation {buffer : Bytes} {header : WebsocketHeader}
    (h : parseHeaderWebsocket buffer = .ok (some header)) :
    ∃ (frame : ClientFrame) (more rest : Bytes), buffer ++ more = frame.encode ++ rest := by
  obtain ⟨hhead, hoffset, hfits, hcontrol⟩ := header_told h
  let size := header.offset + 4 + header.payloadSize
  let whole := buffer ++ List.replicate size 0
  have hlong : size ≤ whole.length := by simp [whole]
  have hmask : ((whole.drop header.offset).take 4).length = 4 := by
    rw [List.length_take, List.length_drop]
    omega
  have hpayload : ((whole.drop (header.offset + 4)).take header.payloadSize).length = header.payloadSize := by
    rw [List.length_take, List.length_drop]
    omega
  let frame : ClientFrame := {
    fin := header.fin
    opcode := header.opcode
    mask := (whole.drop header.offset).take 4
    payload := unmask ((whole.drop header.offset).take 4) ((whole.drop (header.offset + 4)).take header.payloadSize)
    mask_length := hmask
    payload_le := by rw [length_unmask, hpayload]; exact hfits
    control := by rw [length_unmask, hpayload]; exact hcontrol }
  refine ⟨frame, List.replicate size 0, whole.drop size, ?_⟩
  have hheader : frame.header = whole.take header.offset := by
    rw [ClientFrame.header, length_unmask, hpayload, hhead, List.take_append_of_le_length hoffset]
  rw [ClientFrame.encode, hheader, unmask_unmask]
  rw [List.append_assoc, List.append_assoc, drop_parts, drop_parts, List.take_append_drop]

theorem parseFrameWebsocket_error {buffer : Bytes} {message : String} :
    parseFrameWebsocket buffer = .error message ↔ parseHeaderWebsocket buffer = .error message := by
  unfold parseFrameWebsocket
  cases parseHeaderWebsocket buffer with
  | error message => simp
  | ok header =>
      cases header with
      | none => simp
      | some header =>
          simp only [reduceCtorEq, iff_false]
          split_ifs <;> simp

/-- What is refused is told by its header, and no frame that is allowed starts so. -/
theorem parseFrameWebsocket_refused (buffer : Bytes) :
    (∃ message, parseFrameWebsocket buffer = .error message) ↔
      HeaderTold buffer ∧ ∀ (frame : ClientFrame) (more rest : Bytes), buffer ++ more ≠ frame.encode ++ rest := by
  rw [headerTold_iff]
  constructor
  · intro h
    obtain ⟨message, hrefused⟩ := h
    refine ⟨?_, ?_⟩
    · rw [parseFrameWebsocket_error.mp hrefused]
      simp
    · intro frame more rest heq
      have hmore := parseFrameWebsocket_append more hrefused (by simp)
      rw [heq, parseFrameWebsocket_encode] at hmore
      cases hmore
  · intro h
    obtain ⟨htold, hnone⟩ := h
    cases hheader : parseHeaderWebsocket buffer with
    | error message => exact ⟨message, parseFrameWebsocket_error.mpr hheader⟩
    | ok header =>
        cases header with
        | none => exact absurd hheader htold
        | some header =>
            obtain ⟨frame, more, rest, heq⟩ := exists_continuation hheader
            exact absurd heq (hnone frame more rest)

/-- The frames of a client are parsed back whatever follows them, a part of one is left as it is, and what is refused are the
bytes whose header is told and that no allowed frame starts with. -/
theorem websocket_framing :
    (∀ (frame : ClientFrame) (rest : Bytes), parseInPlaceWebsocket (frame.encode ++ rest) =
      (.ok (some ⟨frame.fin, frame.opcode, frame.mask, frame.payload, frame.encode.length⟩),
        frame.header ++ frame.mask ++ frame.payload ++ rest)) ∧
    (∀ (frame : ClientFrame) (part more : Bytes), part ++ more = frame.encode → more ≠ [] →
      parseInPlaceWebsocket part = (.ok none, part)) ∧
    ∀ buffer : Bytes, (∃ message, parseInPlaceWebsocket buffer = (.error message, buffer)) ↔
      HeaderTold buffer ∧ ∀ (frame : ClientFrame) (more rest : Bytes), buffer ++ more ≠ frame.encode ++ rest := by
  refine ⟨?_, ?_, ?_⟩
  · intro frame rest
    have hlength : frame.encode.length = (frame.header ++ frame.mask).length + frame.payload.length := by
      rw [ClientFrame.encode, List.length_append, length_unmask]
    have hhead : (frame.encode ++ rest).take (frame.header ++ frame.mask).length = frame.header ++ frame.mask := by
      rw [ClientFrame.encode, List.append_assoc, List.take_left]
    rw [parseInPlaceWebsocket_eq, parseFrameWebsocket_encode]
    simp only
    rw [List.drop_left, hlength, Nat.add_sub_cancel, hhead]
  · intro frame part more h hmore
    rw [parseInPlaceWebsocket_eq, parseFrameWebsocket_prefix h hmore]
  · intro buffer
    rw [← parseFrameWebsocket_refused, parseInPlaceWebsocket_eq]
    constructor
    · intro h
      obtain ⟨message, hrefused⟩ := h
      exact ⟨message, congrArg Prod.fst hrefused⟩
    · intro h
      obtain ⟨message, hrefused⟩ := h
      exact ⟨message, by rw [hrefused]⟩

/-- A first byte with a reserved bit is not refused on its own. -/
theorem not_refused_early : ¬ ∀ buffer : Bytes, (∃ message, (parseInPlaceWebsocket buffer).1 = .error message) ↔
    ∀ (frame : ClientFrame) (more rest : Bytes), buffer ++ more ≠ frame.encode ++ rest := by
  intro h
  obtain ⟨message, hrefused⟩ := (h [0x70]).mpr (by
    intro frame more rest heq
    have hfirst : (0x70 : UInt8) = frameStart frame.fin frame.opcode := congrArg (List.headD · 0) heq
    have hreserved := (first_read frame.fin frame.opcode).1
    rw [← hfirst] at hreserved
    exact absurd hreserved (by decide))
  cases hrefused

end Viriatum
