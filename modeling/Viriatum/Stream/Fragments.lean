import Viriatum.Library.Octets
import Viriatum.Stream.Head
import Viriatum.Stream.Lemmas.Frames

/-!
# Blocks in fragments

A block that is larger than the frames of the peer travels in a sequence of them, which fills the buffer that is made for
it; a session that handles the sequence gathers the block again.
-/

namespace Viriatum

open Library Effect

namespace Http2Connection

/-! ## The sequence of frames -/

def blockFlags (last : Bool) : UInt8 := if last then http2FlagEndHeaders ||| http2FlagEndStream else http2FlagEndHeaders

/-- The frame of headers that carries the whole of a block. -/
def blockFrame (streamId : Nat) (last : Bool) (block : Bytes) : Http2Frame where
  type := .headers
  flags := blockFlags last
  streamId
  payload := block

/-- A frame of continuation within the size that is allowed. -/
structure Continuation (allowed streamId : Nat) (frame : Http2Frame) : Prop where
  type : frame.type = .continuation
  streamId : frame.streamId = streamId
  pos : 0 < frame.length
  length_le : frame.length ≤ allowed

variable {allowed streamId rounds : Nat} {data : Bytes}

/-- The frame tells the end of the block, the one of the stream as asked and nothing else. -/
theorem blockFlags_told (last : Bool) :
    (blockFlags last &&& http2FlagPadded != 0) = false ∧ (blockFlags last &&& http2FlagPriority != 0) = false ∧
      (blockFlags last &&& http2FlagEndHeaders != 0) = true ∧ (blockFlags last &&& http2FlagEndStream != 0) = last := by
  cases last <;> decide

/-- Without the end of the block it tells the rest. -/
theorem blockFlags_open (last : Bool) :
    (blockFlags last &&& ~~~http2FlagEndHeaders &&& http2FlagPadded != 0) = false ∧
      (blockFlags last &&& ~~~http2FlagEndHeaders &&& http2FlagPriority != 0) = false ∧
      (blockFlags last &&& ~~~http2FlagEndHeaders &&& http2FlagEndHeaders != 0) = false ∧
      (blockFlags last &&& ~~~http2FlagEndHeaders &&& http2FlagEndStream != 0) = last := by
  cases last <;> decide

/-- All the frames of the rest of a block but the last one are full and leave the block open. -/
theorem continuationFrames_shape (streamId : Nat) (hpos : 0 < allowed) (hrounds : data.length ≤ rounds) (hdata : data ≠ []) :
    ∃ init last, continuationFrames allowed streamId rounds data = init ++ [last] ∧
      (∀ f ∈ init, Continuation allowed streamId f ∧ f.flags = 0x00 ∧ f.length = allowed) ∧
      Continuation allowed streamId last ∧ last.flags = http2FlagEndHeaders := by
  induction rounds generalizing data with
  | zero => exact absurd (List.eq_nil_of_length_eq_zero (Nat.le_zero.mp hrounds)) hdata
  | succ rounds ih =>
      have hlength := List.length_pos_of_ne_nil hdata
      rw [continuationFrames, if_neg hdata]
      split
      · next hlast => exact ⟨[], _, rfl, by simp, ⟨rfl, rfl, hlength, hlast⟩, rfl⟩
      · next hlong =>
          have htake : (data.take allowed).length = allowed := by
            rw [List.length_take]
            omega
          have hdrop : (data.drop allowed).length ≤ rounds := by
            rw [List.length_drop]
            omega
          have hrest : data.drop allowed ≠ [] := by
            intro hnil
            have := congrArg List.length hnil
            rw [List.length_drop, List.length_nil] at this
            omega
          obtain ⟨init, last, heq, hinit, hlast⟩ := ih hdrop hrest
          refine ⟨{ type := .continuation, flags := 0x00, streamId, payload := data.take allowed } :: init, last,
            by rw [heq, List.cons_append], ?_, hlast⟩
          intro f hf
          cases List.mem_cons.mp hf with
          | inl hfirst =>
              subst hfirst
              exact ⟨⟨rfl, rfl, Nat.lt_of_lt_of_eq hpos htake.symm, Nat.le_of_eq htake⟩, rfl, htake⟩
          | inr hin => exact hinit f hin

/-! ## The bytes of the sequence -/

/-- What the frames take on the wire. -/
def wireBytes (frames : List Http2Frame) : Bytes := frames.flatMap Http2Frame.encode

/-- Copies bytes into a buffer at an offset, where they have to fit. -/
def placeAt (buffer : Bytes) (offset : Nat) (data : Bytes) : Option Bytes :=
  if offset + data.length ≤ buffer.length then
    some (buffer.take offset ++ data ++ buffer.drop (offset + data.length))
  else none

/-- Writes a frame into a buffer at an offset. The header is left out where it has no room or cannot tell the length. -/
def placeFrame (buffer : Bytes) (offset : Nat) (frame : Http2Frame) : Option Bytes := do
  let buffer ←
    if buffer.length - offset < http2HeaderSize ∨ frame.length > http2MaxFrameSize then some buffer
    else placeAt buffer offset (encodeFrameHttp2 frame.length frame.type frame.flags frame.streamId)
  placeAt buffer (offset + http2HeaderSize) frame.payload

/-- The frames of the rest of the data, from a position of it, written at an offset of the buffer. -/
def splitContinuation (allowed streamId : Nat) (data : Bytes) :
    (rounds : Nat) → (buffer : Bytes) → (offset position : Nat) → Option (Bytes × Nat)
  | 0, buffer, offset, _ => some (buffer, offset)
  | rounds + 1, buffer, offset, position =>
      if position < data.length then
        let fragment := if data.length - position < allowed then data.length - position else allowed
        let flags := if position + fragment = data.length then http2FlagEndHeaders else 0x00
        do
          let buffer ← placeFrame buffer offset
            { type := .continuation, flags, streamId, payload := (data.drop position).take fragment }
          splitContinuation allowed streamId data rounds buffer (offset + http2HeaderSize + fragment)
            (position + fragment)
      else some (buffer, offset)

/-- The buffer of a block as a sequence of frames, out of the one that carries it as a single frame, and the size used.
What the memory that is asked for holds is not known. -/
def splitHttp2Connection (malloc : (size : Nat) → Vector UInt8 size) (allowed : Nat) (data : Bytes) : Option (Bytes × Nat) :=
  let block := data.length - http2HeaderSize
  let flags := data.getD 4 0
  let streamId := decodeNumberHttp2 (data.drop 5) &&& http2MaxStreamId
  if block ≤ allowed then some (data, data.length)
  else
    let frames := (block + allowed - 1) / allowed
    do
      let buffer ← placeFrame (malloc (block + frames * http2HeaderSize)).toList 0
        { type := .ofByte (data.getD 3 0), flags := flags &&& ~~~http2FlagEndHeaders, streamId
          payload := (data.drop http2HeaderSize).take allowed }
      splitContinuation allowed streamId data block buffer (http2HeaderSize + allowed) (http2HeaderSize + allowed)

@[simp] theorem length_encodeFrameHttp2 (length : Nat) (type : Http2FrameType) (flags : UInt8) (streamId : Nat) :
    (encodeFrameHttp2 length type flags streamId).length = http2HeaderSize := rfl

theorem length_encode (frame : Http2Frame) : frame.encode.length = http2HeaderSize + frame.length := by
  rw [Http2Frame.encode, List.length_append, length_encodeFrameHttp2]

theorem placeAt_eq (head old new tail : Bytes) (h : old.length = new.length) :
    placeAt (head ++ old ++ tail) head.length new = some (head ++ new ++ tail) := by
  have hfits : head.length + new.length ≤ (head ++ old ++ tail).length := by
    rw [List.length_append, List.length_append, h]
    omega
  have hdrop : (head ++ old ++ tail).drop (head.length + new.length) = tail :=
    List.drop_left' (by rw [List.length_append, h])
  rw [placeAt, if_pos hfits, hdrop, List.append_assoc head old, List.take_left]

/-- A frame is written over as many bytes as it takes. -/
theorem placeFrame_eq (frame : Http2Frame) (head old tail : Bytes) (h : old.length = frame.encode.length)
    (hlength : frame.length ≤ http2MaxFrameSize) :
    placeFrame (head ++ old ++ tail) head.length frame = some (head ++ frame.encode ++ tail) := by
  rw [length_encode] at h
  have hroom : ¬ ((head ++ old ++ tail).length - head.length < http2HeaderSize ∨ frame.length > http2MaxFrameSize) := by
    rw [List.length_append, List.length_append]
    omega
  have hheader := placeAt_eq head (old.take http2HeaderSize)
    (encodeFrameHttp2 frame.length frame.type frame.flags frame.streamId) (old.drop http2HeaderSize ++ tail) (by
      rw [List.length_take, h, length_encodeFrameHttp2, Nat.min_eq_left (Nat.le_add_right _ _)])
  have hpayload := placeAt_eq (head ++ encodeFrameHttp2 frame.length frame.type frame.flags frame.streamId)
    (old.drop http2HeaderSize) frame.payload tail (by rw [List.length_drop, h, Nat.add_sub_cancel_left])
  rw [List.append_assoc, List.append_assoc head, ← List.append_assoc (old.take http2HeaderSize),
    List.take_append_drop, ← List.append_assoc head old] at hheader
  rw [List.length_append, length_encodeFrameHttp2] at hpayload
  rw [placeFrame, if_neg hroom, hheader]
  simp only [Option.bind_eq_bind, Option.bind_some, Http2Frame.encode, List.append_assoc] at hpayload ⊢
  exact hpayload

@[simp] theorem continuationFrames_nil (allowed streamId rounds : Nat) : continuationFrames allowed streamId rounds [] = [] := by
  cases rounds <;> rfl

/-- Each frame takes what is allowed of the bytes, the last one what there is. -/
theorem continuationFrames_cons (allowed streamId rounds : Nat) (hdata : data ≠ []) :
    continuationFrames allowed streamId (rounds + 1) data =
      { type := .continuation, flags := if data.length ≤ allowed then http2FlagEndHeaders else 0x00, streamId
        payload := data.take allowed } :: continuationFrames allowed streamId rounds (data.drop allowed) := by
  rw [continuationFrames, if_neg hdata]
  split
  · next hlast => rw [List.take_of_length_le hlast, List.drop_of_length_le hlast, continuationFrames_nil]
  · rfl

/-- The frame that takes what is allowed of the data from a position. -/
def continuationAt (allowed streamId : Nat) (data : Bytes) (position : Nat) : Http2Frame where
  type := .continuation
  flags := if (data.drop position).length ≤ allowed then http2FlagEndHeaders else 0x00
  streamId
  payload := (data.drop position).take allowed

/-- A round writes the next frame and goes on after it. -/
theorem splitContinuation_succ {buffer : Bytes} {offset position : Nat} (hposition : position < data.length) :
    splitContinuation allowed streamId data (rounds + 1) buffer offset position =
      (placeFrame buffer offset (continuationAt allowed streamId data position)).bind fun buffer =>
        splitContinuation allowed streamId data rounds buffer
          (offset + (continuationAt allowed streamId data position).encode.length)
          (position + (continuationAt allowed streamId data position).length) := by
  have hlength : (data.drop position).length = data.length - position := List.length_drop
  have hframe : (continuationAt allowed streamId data position).length = min allowed (data.length - position) := by
    rw [continuationAt, Http2Frame.length, List.length_take, hlength]
  rw [length_encode, hframe, splitContinuation, if_pos hposition, ← Nat.add_assoc]
  cases Nat.lt_or_ge (data.length - position) allowed with
  | inl hshort =>
      have htake : (data.drop position).take (data.length - position) = (data.drop position).take allowed := by
        rw [List.take_of_length_le (Nat.le_of_eq hlength), List.take_of_length_le (by omega)]
      have hend : position + (data.length - position) = data.length := by omega
      simp only [if_pos hshort, Nat.min_eq_right (Nat.le_of_lt hshort), if_pos hend, htake, continuationAt, hlength,
        if_pos (Nat.le_of_lt hshort)]
      rfl
  | inr hlong =>
      have hflags : (position + allowed = data.length) = (data.length - position ≤ allowed) := propext (by omega)
      simp only [if_neg (Nat.not_lt.mpr hlong), Nat.min_eq_left hlong, continuationAt, hlength, hflags]
      rfl

/-- The rounds fill the bytes that the frames take, and no others. -/
theorem splitContinuation_eq (head old : Bytes) (position : Nat) (hle : allowed ≤ http2MaxFrameSize)
    (hrounds : (data.drop position).length ≤ rounds) (hpos : 0 < allowed)
    (hold : old.length = (wireBytes (continuationFrames allowed streamId rounds (data.drop position))).length) :
    splitContinuation allowed streamId data rounds (head ++ old) head.length position =
      some (head ++ wireBytes (continuationFrames allowed streamId rounds (data.drop position)),
        (head ++ wireBytes (continuationFrames allowed streamId rounds (data.drop position))).length) := by
  induction rounds generalizing head old position with
  | zero =>
      have hnil := List.eq_nil_of_length_eq_zero (Nat.le_zero.mp hrounds)
      rw [hnil, continuationFrames_nil] at hold
      rw [hnil, continuationFrames_nil, List.eq_nil_of_length_eq_zero hold]
      simp [splitContinuation, wireBytes]
  | succ rounds ih =>
      cases Decidable.em (data.drop position = []) with
      | inl hnil =>
          have hdone : ¬ position < data.length := Nat.not_lt.mpr (List.drop_eq_nil_iff.mp hnil)
          rw [hnil, continuationFrames_nil] at hold
          rw [hnil, continuationFrames_nil, List.eq_nil_of_length_eq_zero hold, splitContinuation, if_neg hdone]
          simp [wireBytes]
      | inr hrest =>
          have hposition : position < data.length := Nat.lt_of_not_le fun hle => hrest (List.drop_of_length_le hle)
          have hdrop : data.drop (position + (continuationAt allowed streamId data position).length) =
              (data.drop position).drop allowed := by
            rw [← List.drop_drop, continuationAt, Http2Frame.length, List.length_take]
            cases Nat.le_total allowed (data.drop position).length with
            | inl hlong => rw [Nat.min_eq_left hlong]
            | inr hshort =>
                rw [Nat.min_eq_right hshort, List.drop_of_length_le (Nat.le_refl _), List.drop_of_length_le hshort]
          have hframes : continuationFrames allowed streamId (rounds + 1) (data.drop position) =
              continuationAt allowed streamId data position ::
                continuationFrames allowed streamId rounds ((data.drop position).drop allowed) :=
            continuationFrames_cons allowed streamId rounds hrest
          have hlength : (continuationAt allowed streamId data position).length ≤ http2MaxFrameSize :=
            Nat.le_trans (List.length_take_le _ _) hle
          rw [hframes, wireBytes, List.flatMap_cons, List.length_append] at hold
          have hplace := placeFrame_eq _ head (old.take (continuationAt allowed streamId data position).encode.length)
            (old.drop (continuationAt allowed streamId data position).encode.length) (by
              rw [List.length_take, hold, Nat.min_eq_left (Nat.le_add_right _ _)]) hlength
          rw [List.append_assoc head, List.take_append_drop] at hplace
          have hrec := ih (head ++ (continuationAt allowed streamId data position).encode)
            (old.drop (continuationAt allowed streamId data position).encode.length)
            (position + (continuationAt allowed streamId data position).length) (by
              rw [hdrop, List.length_drop]
              omega) (by rw [hdrop, List.length_drop, hold, Nat.add_sub_cancel_left, wireBytes])
          rw [splitContinuation_succ hposition, hplace, Option.bind_some, ← List.length_append, hrec, hdrop, hframes]
          simp [wireBytes]

/-! ### The size of the buffer -/

theorem length_continuationFrames (hpos : 0 < allowed) (hrounds : data.length ≤ rounds) :
    (continuationFrames allowed streamId rounds data).length = (data.length + allowed - 1) / allowed := by
  induction rounds generalizing data with
  | zero =>
      rw [List.eq_nil_of_length_eq_zero (Nat.le_zero.mp hrounds), continuationFrames_nil]
      simp [Nat.div_eq_of_lt, hpos]
  | succ rounds ih =>
      cases Decidable.em (data = []) with
      | inl hnil =>
          rw [hnil, continuationFrames_nil]
          simp [Nat.div_eq_of_lt, hpos]
      | inr hdata =>
          have hlength := List.length_pos_of_ne_nil hdata
          have hdrop : (data.drop allowed).length = data.length - allowed := List.length_drop
          rw [continuationFrames_cons allowed streamId rounds hdata, List.length_cons, ih (by omega), hdrop]
          cases Nat.le_total data.length allowed with
          | inl hshort =>
              have hone : data.length + allowed - 1 = (data.length - 1) + allowed := by omega
              rw [Nat.sub_eq_zero_of_le hshort, hone, Nat.add_div_right _ hpos, Nat.div_eq_of_lt (by omega),
                Nat.div_eq_of_lt (by omega)]
          | inr hlong =>
              have hmore : data.length + allowed - 1 = (data.length - allowed + allowed - 1) + allowed := by omega
              rw [hmore, Nat.add_div_right _ hpos]

theorem length_wireBytes (frames : List Http2Frame) :
    (wireBytes frames).length = (frames.flatMap Http2Frame.payload).length + frames.length * http2HeaderSize := by
  induction frames with
  | nil => rfl
  | cons frame frames ih =>
      rw [wireBytes, List.flatMap_cons, List.length_append, length_encode, ← wireBytes, ih, List.flatMap_cons,
        List.length_append, List.length_cons, Nat.succ_mul]
      simp only [Http2Frame.length]
      omega

/-- The sequence takes what its payloads take and a header for each of the frames that they come to. -/
theorem length_split {frame : Http2Frame} (hpos : 0 < allowed) (hlong : allowed < frame.length) :
    (split allowed frame).length = (frame.length + allowed - 1) / allowed := by
  have hdrop : (frame.payload.drop allowed).length = frame.length - allowed := List.length_drop
  have hmore : frame.length + allowed - 1 = (frame.length - allowed + allowed - 1) + allowed := by omega
  rw [split, if_neg (Nat.not_le.mpr hlong), List.length_cons, length_continuationFrames hpos (by omega), hdrop, hmore,
    Nat.add_div_right _ hpos]

theorem decodeNumberHttp2_encode {value : Nat} (hvalue : value < 2 ^ 32) (rest : Bytes) :
    decodeNumberHttp2 (encodeNumberHttp2 value ++ rest) = value := by
  have hor : ∀ a b k : Nat, b < 2 ^ k → a <<< k ||| b = a * 2 ^ k + b := by
    intro a b k hb
    rw [Nat.shiftLeft_eq, Nat.mul_comm, ← Nat.two_pow_add_eq_or_of_lt hb]
  simp only [encodeNumberHttp2, List.cons_append, decodeNumberHttp2, List.getD_cons_zero, List.getD_cons_succ,
    UInt8.toNat_ofNat', Nat.shiftRight_eq_div_pow]
  rw [Nat.or_assoc, Nat.or_assoc, hor _ _ 8 (by omega), hor _ _ 16 (by omega), hor _ _ 24 (by omega)]
  omega

/-- The bytes that are rebuilt are those of the sequence, and they fill the buffer whatever it held. -/
theorem splitHttp2Connection_eq (malloc : (size : Nat) → Vector UInt8 size) (remote : Http2Settings) {streamId : Nat} (hid : streamId ≤ http2MaxStreamId) (last : Bool) (block : Bytes) :
    splitHttp2Connection malloc remote.maxFrameSize (blockFrame streamId last block).encode =
      some (wireBytes (split remote.maxFrameSize (blockFrame streamId last block)),
        (wireBytes (split remote.maxFrameSize (blockFrame streamId last block))).length) := by
  have hpos : 0 < remote.maxFrameSize := Nat.lt_of_lt_of_le (by decide) remote.le_maxFrameSize
  have hlength := length_encode (blockFrame streamId last block)
  have hpayload : (blockFrame streamId last block).length = block.length := rfl
  have hsize : (blockFrame streamId last block).encode.length - http2HeaderSize = block.length := by
    rw [hlength, hpayload, Nat.add_sub_cancel_left]
  have hdrop : ∀ n, (blockFrame streamId last block).encode.drop (http2HeaderSize + n) = block.drop n := by
    intro n
    rw [← List.drop_drop, Http2Frame.encode, List.drop_left' (length_encodeFrameHttp2 _ _ _ _)]
    rfl
  have hmask : streamId &&& http2MaxStreamId = streamId := Nat.and_two_pow_sub_one_of_lt_two_pow (n := 31) (by
    have : http2MaxStreamId = 2 ^ 31 - 1 := rfl
    omega)
  have hstream : decodeNumberHttp2 ((blockFrame streamId last block).encode.drop 5) &&& http2MaxStreamId = streamId := by
    have hnumber : (blockFrame streamId last block).encode.drop 5 = encodeNumberHttp2 (streamId &&& http2MaxStreamId) ++ block := rfl
    rw [hnumber, decodeNumberHttp2_encode, hmask, hmask]
    rw [hmask]
    have : http2MaxStreamId < 2 ^ 32 := by decide
    omega
  rw [splitHttp2Connection, hsize, hstream]
  cases Nat.lt_or_ge remote.maxFrameSize block.length with
  | inr hshort =>
      rw [if_pos hshort, split, if_pos (hpayload ▸ hshort)]
      simp [wireBytes]
  | inl hlong =>
      let first : Http2Frame := {
        type := .headers
        flags := (blockFrame streamId last block).flags &&& ~~~http2FlagEndHeaders
        streamId
        payload := block.take remote.maxFrameSize }
      have hframes : split remote.maxFrameSize (blockFrame streamId last block) =
          first :: continuationFrames remote.maxFrameSize streamId block.length (block.drop remote.maxFrameSize) := by
        rw [split, if_neg (Nat.not_le.mpr (hpayload ▸ hlong))]
        rfl
      have hfirst : first.encode.length = http2HeaderSize + remote.maxFrameSize := by
        rw [length_encode]
        exact congrArg (http2HeaderSize + ·) (by rw [Http2Frame.length, List.length_take, Nat.min_eq_left (Nat.le_of_lt hlong)])
      have htotal : (wireBytes (split remote.maxFrameSize (blockFrame streamId last block))).length =
          block.length + (block.length + remote.maxFrameSize - 1) / remote.maxFrameSize * http2HeaderSize := by
        rw [length_wireBytes, split_payload _ hpos, length_split hpos (hpayload ▸ hlong)]
        rfl
      rw [hframes, wireBytes, List.flatMap_cons, List.length_append] at htotal
      have htype : Http2FrameType.ofByte ((blockFrame streamId last block).encode.getD 3 0) = .headers := rfl
      have hflags : (blockFrame streamId last block).encode.getD 4 0 = (blockFrame streamId last block).flags := rfl
      have hpart : ((blockFrame streamId last block).encode.drop http2HeaderSize).take remote.maxFrameSize =
          block.take remote.maxFrameSize := congrArg (List.take remote.maxFrameSize) (hdrop 0)
      have hbuffer : (malloc (block.length + (block.length + remote.maxFrameSize - 1) / remote.maxFrameSize *
          http2HeaderSize)).toList.length = _ := Vector.length_toList
      rw [if_neg (Nat.not_le.mpr hlong), htype, hflags, hpart]
      simp only
      generalize (malloc _).toList = buffer at hbuffer ⊢
      rw [← htotal] at hbuffer
      have hplace := placeFrame_eq first [] (buffer.take first.encode.length) (buffer.drop first.encode.length) (by
        rw [List.length_take, hbuffer, Nat.min_eq_left (Nat.le_add_right _ _)])
        (Nat.le_trans (List.length_take_le _ _) remote.maxFrameSize_le)
      rw [List.nil_append, List.take_append_drop, List.nil_append, List.length_nil] at hplace
      have hrest : splitContinuation remote.maxFrameSize streamId (blockFrame streamId last block).encode block.length
          (first.encode ++ buffer.drop first.encode.length) first.encode.length first.encode.length = _ :=
        splitContinuation_eq _ _ _ remote.maxFrameSize_le (by
          rw [hfirst, hdrop, List.length_drop]
          omega) hpos (by
          rw [hfirst, hdrop, ← hfirst, List.length_drop, hbuffer, Nat.add_sub_cancel_left, wireBytes])
      rw [hplace, hframes, wireBytes, List.flatMap_cons, Option.bind_eq_bind, Option.bind_some, ← hfirst, hrest, hfirst,
        hdrop, wireBytes]

/-! ## The session that gathers the sequence -/

variable {service : Service} {s t : Http2Connection} {frame : Http2Frame} {slot : Option Nat}
  {Q : Unit → Http2Connection → Prop} {E : Http2Error → Http2Connection → Prop}

def handleFrames (service : Service) : List Http2Frame → Act Unit
  | [] => pure ()
  | frame :: frames => do
      handleFrame service frame
      handleFrames service frames

/-- What a frame of headers does before its fragment is gathered. The slot that the block is for is given, or none where
the stream is refused. -/
def beginBlock (frame : Http2Frame) (slot : Option Nat) : Act (Option Nat) :=
  match slot with
  | none =>
      tryCatch
        (do
          let slot ← openStream frame.streamId
          modify fun s => if frame.has http2FlagEndStream then closeRemote slot s else s
          pure (some slot))
        fun e =>
          if e = .refusedStream then do
            modify fun s =>
              { writeValue .rstStream frame.streamId Http2Error.refusedStream.code s with refused := frame.streamId }
            pure none
          else throw e
  | some slot => do
      let s ← get
      if (s.stream slot).headersComplete then do
        refuseIf (frame.has http2FlagEndStream = false) .protocolError
        set (s.modifyStream slot fun stream => { stream with request := { stream.request with trailers := true } })
      else pure ()
      modify fun s => if frame.has http2FlagEndStream then closeRemote slot s else s
      pure (some slot)

/-- What is done with a block that is complete. -/
def endBlock (service : Service) (block : Bytes) : Option Nat → Act Unit
  | none => do
      let _ ← after (decodeBlock discard block ()) resetBlock
      pure ()
  | some slot => after (blockHttp2 service slot block) resetBlock

/-- A frame of headers without padding and priority begins its block, gathers the fragment and ends the block with it or
waits for more. -/
theorem wp_handleHeaders (hplain : headersFragment frame = .ok (none, frame.payload)) :
    wp (handleHeaders service frame slot) Q E s =
      wp (beginBlock frame slot) (fun target t => wp (gather frame.payload) (fun _ u =>
        if frame.has http2FlagEndHeaders then wp (endBlock service u.block target) Q E u
        else Q () (awaitContinuation frame u)) E t) E s := by
  cases slot with
  | none =>
      simp only [handleHeaders, wp_openHeaders, beginBlock, wp_tryCatch, wp_bind, wp_modify, wp_pure, wp_ite, wp_throw]
      congr 1
      · funext slot t
        simp only [takeHeaders, hplain, takeFragment, endBlock, wp_bind, wp_modify, wp_ite, wp_get, wp_after]
      · funext e t
        simp only [refuseHeaders, hplain, discardBlock, endBlock, wp_bind, wp_modify, wp_ite, wp_get, wp_after, wp_pure]
  | some slot =>
      simp only [handleHeaders, continueHeaders, beginBlock, wp_bind, wp_get, wp_ite, wp_refuseIf, wp_set, wp_modify,
        wp_pure]
      split
      · split
        · rfl
        · simp only [takeHeaders, hplain, takeFragment, endBlock, wp_bind, wp_modify, wp_ite, wp_get, wp_after]
      · simp only [takeHeaders, hplain, takeFragment, endBlock, wp_bind, wp_modify, wp_ite, wp_get, wp_after]

theorem wp_gather : wp (gather data) Q E s =
    if s.block.length + data.length > http2MaxBlock then E .enhanceYourCalm s
    else Q () { s with block := s.block ++ data } := by
  simp only [gather, wp_bind, wp_get, wp_refuseIf, wp_set]

theorem findStream_eq (s : Http2Connection) (streamId : Nat) :
    s.findStream streamId = s.outline.ids.findIdx? fun id => id = streamId := by
  simp only [findStream, outline, Outline.ids, List.findIdx?_map]
  rfl

/-- A session that has begun a block for a target, with what has been gathered of it. -/
structure Gathering (s : Http2Connection) (streamId : Nat) (target : Option Nat) (t : Http2Connection) : Prop where
  settings : t.settings = s.settings
  block : t.block = s.block
  continuation : t.continuation = s.continuation
  continuationFlags : t.continuationFlags = s.continuationFlags
  refused : t.refused = if target = none then streamId else s.refused
  found : ∀ slot, target = some slot → t.findStream streamId = some slot

theorem beginBlock_gathering (s : Http2Connection) (frame : Http2Frame) (hslot : s.findStream frame.streamId = slot) :
    wp (beginBlock frame slot) (Gathering s frame.streamId) (fun _ _ => True) s := by
  have hclose : ∀ (u : Http2Connection) (slot : Nat),
      (if frame.has http2FlagEndStream then closeRemote slot u else u).outline = u.outline := by
    intro u slot
    split
    · exact outline_modifyStream rfl
    · rfl
  have hkept : ∀ (u : Http2Connection) (slot : Nat), Gathering s frame.streamId (some slot) u →
      Gathering s frame.streamId (some slot) (if frame.has http2FlagEndStream then closeRemote slot u else u) := by
    intro u slot hu
    refine ⟨?_, ?_, ?_, ?_, ?_, ?_⟩
    · rw [← hu.settings]
      split <;> rfl
    · rw [← hu.block]
      split <;> rfl
    · rw [← hu.continuation]
      split <;> rfl
    · rw [← hu.continuationFlags]
      split <;> rfl
    · rw [← hu.refused]
      split <;> rfl
    · intro found hfound
      rw [findStream_eq, hclose, ← findStream_eq]
      exact hu.found found hfound
  cases slot with
  | none =>
      simp only [beginBlock, wp_tryCatch, wp_bind, wp_modify, wp_pure, wp_ite, wp_throw]
      simp only [openStream, wp_bind, wp_get, wp_ite, wp_throw, wp_set, wp_pure]
      split
      · simp
      · split
        · simp
        · split
          · simp only [if_true]
            exact ⟨rfl, rfl, rfl, rfl, rfl, nofun⟩
          · apply hkept
            refine ⟨rfl, rfl, rfl, rfl, rfl, ?_⟩
            intro found hfound
            cases hfound
            have hnone : s.streams.findIdx? (fun stream => stream.streamId = frame.streamId) = none := hslot
            rw [findStream, List.findIdx?_append, hnone]
            simp
  | some slot =>
      have hstart : Gathering s frame.streamId (some slot) s := by
        refine ⟨rfl, rfl, rfl, rfl, rfl, ?_⟩
        intro found hfound
        cases hfound
        exact hslot
      simp only [beginBlock, wp_bind, wp_get, wp_ite, wp_refuseIf, wp_set, wp_modify, wp_pure]
      split
      · split
        · trivial
        · apply hkept
          refine ⟨rfl, rfl, rfl, rfl, rfl, ?_⟩
          intro found hfound
          rw [findStream_eq, outline_modifyStream rfl, ← findStream_eq]
          exact hstart.found found hfound
      · exact hkept s slot hstart

/-! ### The frames of continuation -/

/-- A frame of continuation adds its fragment, and ends the block when it says so. -/
theorem wp_handleContinuation {target : Option Nat} (hframe : Continuation allowed streamId frame) (hid : streamId ≠ 0)
    (ht : Gathering s streamId target t) (hcontinuation : t.continuation = streamId) (hrefused : s.refused ≠ streamId)
    (hallowed : allowed ≤ s.settings.maxFrameSize) :
    wp (handleFrame service frame) Q E t =
      if t.block.length + frame.length > http2MaxBlock then E .enhanceYourCalm t
      else if frame.has http2FlagEndHeaders then
        wp (endBlock service (t.block ++ frame.payload) target) Q E { t with block := t.block ++ frame.payload }
      else Q () { t with block := t.block ++ frame.payload } := by
  have hverify : verifyFrameHttp2 frame t.settings = none := by
    rw [verifyFrameHttp2, ht.settings, if_neg (Nat.not_lt.mpr (Nat.le_trans hframe.length_le hallowed)), hframe.type]
    simp only
    rw [hframe.streamId, if_neg hid]
  have hstream : t.verifyStream frame (t.frameSlot frame) = none := by
    rw [verifyStream, hframe.type]
    simp only
    rw [hcontinuation, hframe.streamId, if_pos rfl]
  simp only [handleFrame, wp_bind, wp_get, wp_refuseSome, hverify, wp_refuseIf, hframe.type, hframe.streamId,
    hcontinuation, ne_eq, not_true_eq_false, or_self, and_false, if_false, accountData, reduceCtorEq, wp_pure,
    hstream, ite_self, dispatchFrame, handleContinuation, hid, wp_gather, wp_ite]
  split
  · rfl
  · split
    · rw [ht.refused]
      cases target with
      | none =>
          simp only [if_true, discardBlock, endBlock, wp_bind, wp_get, wp_after, wp_pure]
      | some slot =>
          have hfound : ∀ u : Http2Connection, u.streams = t.streams → u.findStream streamId = some slot := by
            intro u hu
            rw [findStream, hu]
            exact ht.found slot rfl
          simp only [reduceCtorEq, if_false, hrefused, endBlock]
          split
          · next hnone => cases hnone.symm.trans (hfound _ rfl)
          · next hsome =>
              cases hsome.symm.trans (hfound _ rfl)
              rfl
    · rfl

theorem Gathering.add {target : Option Nat} (ht : Gathering s streamId target t) (data : Bytes) :
    Gathering { s with block := s.block ++ data } streamId target { t with block := t.block ++ data } where
  settings := ht.settings
  block := congrArg (· ++ data) ht.block
  continuation := ht.continuation
  continuationFlags := ht.continuationFlags
  refused := ht.refused
  found := ht.found

theorem has_endHeaders {flags : UInt8} {type : Http2FrameType} {streamId : Nat} {payload : Bytes}
    (h : flags &&& http2FlagEndHeaders ≠ 0) : Http2Frame.has ⟨type, flags, streamId, payload⟩ http2FlagEndHeaders = true := by
  simpa [Http2Frame.has] using h

/-- The frames of the rest of a block add it to what has been gathered and end the block, unless it becomes too large. -/
theorem wp_handleFrames {target : Option Nat} (hid : streamId ≠ 0) (ht : Gathering s streamId target t)
    (hcontinuation : t.continuation = streamId) (hrefused : s.refused ≠ streamId)
    (hallowed : allowed ≤ s.settings.maxFrameSize) (hpos : 0 < allowed) (hrounds : data.length ≤ rounds) (hdata : data ≠ [])
    (hroom : t.block.length + data.length ≤ http2MaxBlock) :
    wp (handleFrames service (continuationFrames allowed streamId rounds data)) Q E t =
      wp (endBlock service (t.block ++ data) target) Q E { t with block := t.block ++ data } := by
  induction rounds generalizing data s t with
  | zero => exact absurd (List.eq_nil_of_length_eq_zero (Nat.le_zero.mp hrounds)) hdata
  | succ rounds ih =>
      have hlength := List.length_pos_of_ne_nil hdata
      have htake := List.length_take_le allowed data
      have hfits : ¬ t.block.length + (data.take allowed).length > http2MaxBlock := by
        rw [List.length_take]
        omega
      have hframe : ∀ flags, Continuation allowed streamId
          { type := .continuation, flags, streamId, payload := data.take allowed } := by
        intro flags
        refine ⟨rfl, rfl, ?_, htake⟩
        rw [Http2Frame.length, List.length_take]
        omega
      rw [continuationFrames_cons allowed streamId rounds hdata, handleFrames, wp_bind,
        wp_handleContinuation (hframe _) hid ht hcontinuation hrefused hallowed, if_neg hfits]
      cases Nat.lt_or_ge allowed data.length with
      | inl hlong =>
          have hdrop : (data.drop allowed).length = data.length - allowed := List.length_drop
          have hrest : data.drop allowed ≠ [] := fun hnil => by
            rw [hnil, List.length_nil] at hdrop
            omega
          have hnext : wp (handleFrames service (continuationFrames allowed streamId rounds (data.drop allowed))) Q E
              { t with block := t.block ++ data.take allowed } = _ :=
            ih (ht.add (data.take allowed)) hcontinuation hrefused hallowed (by omega) hrest (by
              rw [hdrop]
              simp only [List.length_append, List.length_take]
              omega)
          simp only [List.append_assoc, List.take_append_drop] at hnext
          simp only [if_neg (Nat.not_le.mpr hlong), Http2Frame.has, hnext]
          rfl
      | inr hshort =>
          simp only [if_pos hshort, has_endHeaders (show http2FlagEndHeaders &&& http2FlagEndHeaders ≠ 0 by decide),
            if_true, List.take_of_length_le hshort, List.drop_of_length_le hshort, continuationFrames_nil, handleFrames,
            wp_pure]

/-! ### The whole sequence -/

/-- A session in which no block is being gathered. -/
structure Ready (s : Http2Connection) : Prop where
  block : s.block = []
  continuation : s.continuation = 0
  refused : s.refused = 0

theorem ready_create : Ready .create := ⟨rfl, rfl, rfl⟩

/-- What a session does with a frame of headers whose block is there as a whole, with the marks that the frames it comes
in may have left of a continuation. -/
def takeBlock (service : Service) (frame : Http2Frame) (continuation : Nat) (continuationFlags : UInt8) : Act Unit := do
  let s ← get
  refuseSome (s.verifyStream frame (s.findStream frame.streamId))
  let target ← beginBlock frame (s.findStream frame.streamId)
  modify fun t => { t with block := frame.payload, continuation, continuationFlags }
  endBlock service frame.payload target

theorem wp_handleFrame_headers (htype : frame.type = .headers) (hid : frame.streamId ≠ 0)
    (hlength : frame.length ≤ s.settings.maxFrameSize) (hcontinuation : s.continuation = 0)
    (hplain : headersFragment frame = .ok (none, frame.payload)) :
    wp (handleFrame service frame) Q E s = wp (refuseSome (s.verifyStream frame (s.findStream frame.streamId))) (fun _ u =>
      wp (beginBlock frame (s.findStream frame.streamId)) (fun target t => wp (gather frame.payload) (fun _ u =>
        if frame.has http2FlagEndHeaders then wp (endBlock service u.block target) Q E u
        else Q () (awaitContinuation frame u)) E t) E u) E s := by
  have hverify : verifyFrameHttp2 frame s.settings = none := by
    rw [verifyFrameHttp2, if_neg (Nat.not_lt.mpr hlength), htype]
    simp only
    rw [if_neg hid]
  simp only [handleFrame, wp_bind, wp_get, wp_refuseSome, hverify, wp_refuseIf, hcontinuation, ne_eq, not_true_eq_false,
    false_and, if_false, accountData, htype, reduceCtorEq, wp_pure, frameSlot, hid, not_false_eq_true, if_true,
    dispatchFrame, wp_handleHeaders hplain]

/-- The first of the frames of a block begins it as the frame that carries the whole of it would. -/
theorem first_begins (first frame : Http2Frame) (hstream : first.streamId = frame.streamId)
    (hend : first.has http2FlagEndStream = frame.has http2FlagEndStream) (slot : Option Nat) :
    beginBlock first slot = beginBlock frame slot := by
  unfold beginBlock
  rw [hstream, hend]

/-- A frame of headers whose flags tell no more than the end of the stream and of the block carries just its block. -/
theorem headersFragment_plain (hpadded : frame.has http2FlagPadded = false)
    (hpriority : frame.has http2FlagPriority = false) : headersFragment frame = .ok (none, frame.payload) := by
  rw [headersFragment, stripPaddingHttp2, hpadded, hpriority]
  rfl

theorem Gathering.start {target : Option Nat} (hready : s.Ready) (ht : Gathering s streamId target t) :
    t.block = [] ∧ t.continuation = 0 := ⟨ht.block.trans hready.block, ht.continuation.trans hready.continuation⟩

/-- A block that a single frame carries is taken from it. -/
theorem wp_handleFrames_single (hready : s.Ready) (hid : streamId ≠ 0) (last : Bool) {block : Bytes}
    (hlength : block.length ≤ s.settings.maxFrameSize) (hblock : block.length ≤ http2MaxBlock) :
    wp (handleFrames service [blockFrame streamId last block]) Q E s =
      wp (takeBlock service (blockFrame streamId last block) 0 s.continuationFlags) Q E s := by
  obtain ⟨hpadded, hpriority, hend, -⟩ := blockFlags_told last
  have hplain : headersFragment (blockFrame streamId last block) = .ok (none, block) :=
    headersFragment_plain hpadded hpriority
  change (blockFrame streamId last block).has http2FlagEndHeaders = true at hend
  have hbegin := beginBlock_gathering s (blockFrame streamId last block) rfl
  simp only [handleFrames, wp_bind, wp_pure]
  rw [wp_handleFrame_headers rfl hid hlength hready.continuation hplain]
  simp only [takeBlock, wp_bind, wp_get, wp_refuseSome, wp_modify]
  split
  · rfl
  · apply wp_congr hbegin
    intro target t ht
    obtain ⟨hnil, hcontinuation⟩ := ht.start hready
    have hfits : ¬ t.block.length + (blockFrame streamId last block).payload.length > http2MaxBlock := by
      rw [hnil]
      simpa [blockFrame] using hblock
    have hsame : ({ t with block := t.block ++ (blockFrame streamId last block).payload } : Http2Connection) =
        { t with
          block := (blockFrame streamId last block).payload, continuation := 0
          continuationFlags := s.continuationFlags } := by
      rw [hnil, List.nil_append, ← hcontinuation, ← ht.continuationFlags]
    rw [wp_gather, if_neg hfits, hsame, hend]
    rfl

/-- A block that takes more than a frame is taken from the sequence of them. -/
theorem wp_handleFrames_sequence (hready : s.Ready) (hid : streamId ≠ 0) (last : Bool) {block : Bytes}
    (hallowed : allowed ≤ s.settings.maxFrameSize) (hpos : 0 < allowed) (hlong : allowed < block.length)
    (hblock : block.length ≤ http2MaxBlock) :
    wp (handleFrames service (split allowed (blockFrame streamId last block))) Q E s =
      wp (takeBlock service (blockFrame streamId last block) streamId
        ((blockFrame streamId last block).flags &&& ~~~http2FlagEndHeaders)) Q E s := by
  let first : Http2Frame := {
    type := .headers
    flags := (blockFrame streamId last block).flags &&& ~~~http2FlagEndHeaders
    streamId
    payload := block.take allowed }
  have hframes : split allowed (blockFrame streamId last block) =
      first :: continuationFrames allowed streamId block.length (block.drop allowed) :=
    if_neg (Nat.not_le.mpr hlong)
  obtain ⟨hpadded, hpriority, hopen, hend⟩ := blockFlags_open last
  have hplain : headersFragment first = .ok (none, block.take allowed) := headersFragment_plain hpadded hpriority
  change first.has http2FlagEndHeaders = false at hopen
  have hstreamEnd : first.has http2FlagEndStream = (blockFrame streamId last block).has http2FlagEndStream :=
    hend.trans (blockFlags_told last).2.2.2.symm
  have htake : (block.take allowed).length = allowed := List.length_take_of_le (Nat.le_of_lt hlong)
  have hdrop : (block.drop allowed).length = block.length - allowed := List.length_drop
  have hrest : block.drop allowed ≠ [] := fun hnil => by
    rw [hnil, List.length_nil] at hdrop
    omega
  have hbegin := beginBlock_gathering s (blockFrame streamId last block) rfl
  rw [hframes, handleFrames, wp_bind,
    wp_handleFrame_headers rfl hid (Nat.le_trans (Nat.le_of_eq htake) hallowed) hready.continuation hplain,
    first_begins first (blockFrame streamId last block) rfl hstreamEnd]
  have hverify : s.verifyStream first (s.findStream first.streamId) =
      s.verifyStream (blockFrame streamId last block) (s.findStream (blockFrame streamId last block).streamId) := rfl
  rw [hverify]
  simp only [takeBlock, wp_bind, wp_get, wp_refuseSome, wp_modify]
  split
  · rfl
  · apply wp_congr hbegin
    intro target t ht
    obtain ⟨hnil, -⟩ := ht.start hready
    have hfits : ¬ t.block.length + first.payload.length > http2MaxBlock := by
      rw [hnil, List.length_nil, htake]
      omega
    have hwaiting : Gathering
        { s with block := block.take allowed, continuation := streamId, continuationFlags := first.flags } streamId target
        (awaitContinuation first { t with block := t.block ++ first.payload }) :=
      ⟨ht.settings, by rw [hnil]; rfl, rfl, rfl, ht.refused, ht.found⟩
    have hgathered : (awaitContinuation first { t with block := t.block ++ first.payload }).block ++ block.drop allowed =
        block := by
      rw [awaitContinuation, hnil]
      exact List.take_append_drop allowed block
    have hrefused : s.refused ≠ streamId := by
      rw [hready.refused]
      exact fun h => hid h.symm
    rw [wp_gather, if_neg hfits, hopen]
    simp only [Bool.false_eq_true, if_false]
    rw [wp_handleFrames hid hwaiting rfl hrefused hallowed hpos (by omega) hrest (by
      rw [← List.length_append, hgathered]
      exact hblock), hgathered]
    rfl

/-- The frames that a block is split into are taken as the block is. -/
theorem handleFrames_split (service : Service) (hready : s.Ready) (hid : streamId ≠ 0) (last : Bool) {block : Bytes}
    (hallowed : allowed ≤ s.settings.maxFrameSize) (hpos : 0 < allowed) (hblock : block.length ≤ http2MaxBlock) :
    ∃ continuation flags, (handleFrames service (split allowed (blockFrame streamId last block))).run s =
      (takeBlock service (blockFrame streamId last block) continuation flags).run s := by
  cases Nat.lt_or_ge allowed block.length with
  | inl hlong => exact ⟨_, _, run_ext fun _ _ => wp_handleFrames_sequence hready hid last hallowed hpos hlong hblock⟩
  | inr hshort =>
      have hsingle : split allowed (blockFrame streamId last block) = [blockFrame streamId last block] := if_pos hshort
      rw [hsingle]
      exact ⟨_, _, run_ext fun _ _ => wp_handleFrames_single hready hid last (Nat.le_trans hshort hallowed) hblock⟩

/-! ## Blocks and their fragments -/

/-- The frames of a block: one of headers, which tells the end of the stream as asked, and the ones that continue it, the
last of all telling the end of the block. -/
structure Fragments (allowed streamId : Nat) (last : Bool) (block : Bytes) (frames : List Http2Frame) : Prop where
  first : ∃ first rest, frames = first :: rest ∧ first.type = .headers ∧ first.streamId = streamId ∧
    first.has http2FlagEndStream = last ∧
    ∀ f ∈ rest, f.type = .continuation ∧ f.streamId = streamId ∧ f.has http2FlagEndStream = false
  final : ∃ init final, frames = init ++ [final] ∧ (∀ f ∈ init, f.has http2FlagEndHeaders = false) ∧
    final.has http2FlagEndHeaders = true
  length_le : ∀ f ∈ frames, f.length ≤ allowed
  payload : frames.flatMap Http2Frame.payload = block

theorem split_fragments (hpos : 0 < allowed) (streamId : Nat) (last : Bool) (block : Bytes) :
    Fragments allowed streamId last block (split allowed (blockFrame streamId last block)) := by
  have hpayload : (split allowed (blockFrame streamId last block)).flatMap Http2Frame.payload = block :=
    split_payload _ hpos
  cases Nat.lt_or_ge allowed block.length with
  | inr hshort =>
      have hsingle : split allowed (blockFrame streamId last block) = [blockFrame streamId last block] := if_pos hshort
      obtain ⟨-, -, hend, hlast⟩ := blockFlags_told last
      rw [hsingle] at hpayload ⊢
      refine ⟨⟨_, [], rfl, rfl, rfl, hlast, nofun⟩, ⟨[], _, rfl, nofun, hend⟩, ?_, hpayload⟩
      intro f hf
      rw [List.mem_singleton.mp hf]
      exact hshort
  | inl hlong =>
      have hdrop : (block.drop allowed).length = block.length - allowed := List.length_drop
      have hrest : block.drop allowed ≠ [] := fun hnil => by
        rw [hnil, List.length_nil] at hdrop
        omega
      obtain ⟨init, final, heq, hinit, hfinal, hflags⟩ := continuationFrames_shape streamId hpos
        (show (block.drop allowed).length ≤ block.length by omega) hrest
      have hframes : split allowed (blockFrame streamId last block) =
          { blockFrame streamId last block with
            flags := blockFlags last &&& ~~~http2FlagEndHeaders, payload := block.take allowed } ::
            (init ++ [final]) := by
        rw [← heq]
        exact if_neg (Nat.not_le.mpr hlong)
      obtain ⟨-, -, hopen, hlast⟩ := blockFlags_open last
      have hflag : ∀ f ∈ init ++ [final], f.has http2FlagEndStream = false := by
        intro f hf
        cases List.mem_append.mp hf with
        | inl hin => simp [Http2Frame.has, (hinit f hin).2.1]
        | inr hin =>
            rw [List.mem_singleton.mp hin, Http2Frame.has, hflags]
            rfl
      have hcontinues : ∀ f ∈ init ++ [final], Continuation allowed streamId f := by
        intro f hf
        cases List.mem_append.mp hf with
        | inl hin => exact (hinit f hin).1
        | inr hin => exact List.mem_singleton.mp hin ▸ hfinal
      rw [hframes] at hpayload ⊢
      refine ⟨⟨_, _, rfl, rfl, rfl, hlast, fun f hf => ⟨(hcontinues f hf).type, (hcontinues f hf).streamId, hflag f hf⟩⟩,
        ⟨_ :: init, final, rfl, ?_, ?_⟩, ?_, hpayload⟩
      · intro f hf
        cases List.mem_cons.mp hf with
        | inl hfirst => exact hfirst ▸ hopen
        | inr hin => simp [Http2Frame.has, (hinit f hin).2.1]
      · rw [Http2Frame.has, hflags]
        rfl
      · intro f hf
        cases List.mem_cons.mp hf with
        | inl hfirst => exact hfirst ▸ List.length_take_le _ _
        | inr hin => exact (hcontinues f hin).length_le

theorem handleFrames_over {target : Option Nat} (hid : streamId ≠ 0) (ht : Gathering s streamId target t)
    (hcontinuation : t.continuation = streamId) (hrefused : s.refused ≠ streamId)
    (hallowed : allowed ≤ s.settings.maxFrameSize) (hpos : 0 < allowed) (hrounds : data.length ≤ rounds)
    (hblock : t.block ≠ []) (hroom : t.block.length ≤ http2MaxBlock) (hover : http2MaxBlock < t.block.length + data.length) :
    wp (handleFrames service (continuationFrames allowed streamId rounds data)) (fun _ _ => False)
      (fun _ u => u.block ≠ []) t := by
  induction rounds generalizing data s t with
  | zero => omega
  | succ rounds ih =>
      have hdata : data ≠ [] := fun hnil => by
        rw [hnil, List.length_nil] at hover
        omega
      have hlength := List.length_pos_of_ne_nil hdata
      have htake := List.length_take_le allowed data
      have hframe : ∀ flags, Continuation allowed streamId
          { type := .continuation, flags, streamId, payload := data.take allowed } := by
        intro flags
        refine ⟨rfl, rfl, ?_, htake⟩
        rw [Http2Frame.length, List.length_take]
        omega
      rw [continuationFrames_cons allowed streamId rounds hdata, handleFrames, wp_bind,
        wp_handleContinuation (hframe _) hid ht hcontinuation hrefused hallowed]
      cases Decidable.em (t.block.length + (data.take allowed).length > http2MaxBlock) with
      | inl hlarge =>
          rw [if_pos hlarge]
          exact hblock
      | inr hfits =>
          rw [if_neg hfits]
          simp only [List.length_take, Nat.not_lt] at hfits
          have hlong : ¬ data.length ≤ allowed := by omega
          have hdrop : (data.drop allowed).length = data.length - allowed := List.length_drop
          simp only [if_neg hlong, Http2Frame.has]
          apply ih (ht.add (data.take allowed)) hcontinuation hrefused hallowed
          · omega
          · simp [hblock]
          · simpa using hfits
          · simp only [List.length_append, List.length_take, hdrop]
            omega

/-- A byte more than what is gathered of a block is refused with what has been gathered. -/
theorem handleFrames_large (service : Service) {block : Bytes} (hlength : block.length = http2MaxBlock + 1) :
    wp (handleFrames service (split 16384 (blockFrame 1 true block))) (fun _ _ => False) (fun _ u => u.block ≠ [])
      .create := by
  have hmax : http2MaxBlock = 65536 := rfl
  have htake : (block.take 16384).length = 16384 := List.length_take_of_le (by omega)
  have hdrop : (block.drop 16384).length = http2MaxBlock + 1 - 16384 := by rw [List.length_drop, hlength]
  obtain ⟨hpadded, hpriority, hopen, -⟩ := blockFlags_open true
  let first : Http2Frame := {
    type := .headers
    flags := blockFlags true &&& ~~~http2FlagEndHeaders
    streamId := 1
    payload := block.take 16384 }
  have hframes : split 16384 (blockFrame 1 true block) =
      first :: continuationFrames 16384 1 block.length (block.drop 16384) :=
    if_neg (show ¬ block.length ≤ 16384 by omega)
  have hplain : headersFragment first = .ok (none, first.payload) := headersFragment_plain hpadded hpriority
  change first.has http2FlagEndHeaders = false at hopen
  have hverify : create.verifyStream first (create.findStream first.streamId) = none := rfl
  have hbegin := beginBlock_gathering .create first rfl
  have hrun : ∃ t, (beginBlock first (create.findStream first.streamId)).run .create = (.ok (some 0), t) := ⟨_, rfl⟩
  obtain ⟨t, hrun⟩ := hrun
  have ht : Gathering create 1 (some 0) t := wp_of_run hrun hbegin
  rw [hframes, handleFrames, wp_bind,
    wp_handleFrame_headers rfl Nat.one_ne_zero (Nat.le_of_eq htake) rfl hplain, hverify]
  simp only [wp_refuseSome]
  have hnil : t.block = [] := ht.block
  have hfits : ¬ t.block.length + first.payload.length > http2MaxBlock := by
    rw [hnil, List.length_nil, htake]
    omega
  have hwaiting : Gathering
      { create with block := block.take 16384, continuation := 1, continuationFlags := first.flags } 1 (some 0)
      (awaitContinuation first { t with block := t.block ++ first.payload }) :=
    ⟨ht.settings, by rw [hnil]; rfl, rfl, rfl, ht.refused, ht.found⟩
  have hblock : (awaitContinuation first { t with block := t.block ++ first.payload }).block = block.take 16384 := by
    rw [awaitContinuation, hnil]
    rfl
  rw [wp_of_run_ok hrun, wp_gather, if_neg hfits, hopen]
  simp only [Bool.false_eq_true, if_false]
  apply handleFrames_over Nat.one_ne_zero hwaiting rfl Nat.zero_ne_one (Nat.le_refl _) (show 0 < 16384 by decide) (by omega)
  · rw [hblock]
    exact List.ne_nil_of_length_pos (by omega)
  · rw [hblock]
    omega
  · rw [hblock]
    omega

theorem endBlock_resets (service : Service) (block : Bytes) (target : Option Nat) (t : Http2Connection) :
    wp (endBlock service block target) (fun _ u => u.block = []) (fun _ u => u.block = []) t := by
  have htrue : ∀ {α : Type} (m : Act α), wp m (fun _ _ => True) (fun _ _ => True) t := by
    intro α m
    unfold wp
    split <;> trivial
  cases target with
  | none =>
      simp only [endBlock, wp_bind, wp_after, wp_pure]
      exact (htrue _).mono (fun _ _ _ => rfl) (fun _ _ _ => rfl)
  | some slot =>
      simp only [endBlock, wp_after]
      exact (htrue _).mono (fun _ _ _ => rfl) (fun _ _ _ => rfl)

end Http2Connection

end Viriatum
