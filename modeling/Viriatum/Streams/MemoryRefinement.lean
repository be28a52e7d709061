import Viriatum.Streams.MemoryStream

/-!
# The memory stream as an array of bytes

Which calls on a memory stream are those on the array of bytes.
-/

namespace Viriatum

open Library

namespace ByteArrayStream

variable {a : ByteArrayStream} {data : List UInt8}

theorem length_write (hdata : data ≠ []) :
    (a.write data).contents.length = max a.contents.length (a.position + data.length) := by
  simp only [write, hdata, ↓reduceIte, List.length_append, List.length_take, List.length_replicate, List.length_map,
    List.length_drop]
  omega

theorem write_end (a : ByteArrayStream) (hdata : data ≠ []) (hend : a.position = a.contents.length) :
    a.write data = { contents := a.contents ++ data.map some, position := a.contents.length + data.length } := by
  simp [write, hdata, hend]

end ByteArrayStream

namespace MemoryStream

variable {s s' : MemoryStream} {a : ByteArrayStream} {data : List UInt8}

/-- The first cells of the buffer hold the array, and the counters its length and the position. -/
structure Represents (s : MemoryStream) (a : ByteArrayStream) : Prop where
  contents : s.buffer.take s.size = a.contents
  position : s.position = a.position
  size_le : s.size ≤ s.buffer.length
  buffer_lt : s.buffer.length < 2 ^ 64
  position_lt : s.position < 2 ^ 64

theorem Represents.size (h : s.Represents a) : s.size = a.contents.length := by
  rw [← h.contents, List.length_take, Nat.min_eq_left h.size_le]

/-- What a call has to meet for the stream to be the array: what is read does not start behind the end, and what is
written starts at the end and finds room in a buffer whose size fits into 64 bits. -/
def Takes (s : MemoryStream) : StreamCall → Prop
  | .read size => size = 0 ∨ s.position ≤ s.size
  | .write data => data = [] ∨ s.position = s.size ∧
      (data.length ≤ s.buffer.length - s.size ∨
        s.buffer.length + max (data.length - (s.buffer.length - s.size)) sizeMemoryStream < 2 ^ 64)
  | _ => True

/-! ## Reading -/

theorem remaining_eq {bound position : Nat} (hbound : bound < 2 ^ 64) (h : position ≤ bound) :
    (bound + 2 ^ 64 - position) % 2 ^ 64 = bound - position := by
  omega

theorem read_of_le (h : s.Represents a) (hle : s.position ≤ s.size) (size : Nat) :
    s.readMemoryStream size =
      some ({ s with position := s.position + (a.read size).length }, a.read size) := by
  have hsize_le := h.size_le
  have hbuffer := h.buffer_lt
  have hcount : (if size > s.size - s.position then s.size - s.position else size) = min size (s.size - s.position) := by
    split <;> omega
  have hread : (s.buffer.drop s.position).take (min size (s.size - s.position)) = a.read size := by
    rw [ByteArrayStream.read, ← h.contents, ← h.position, List.drop_take, List.take_take]
  have hlength : (a.read size).length = min size (s.size - s.position) := by
    rw [← hread, List.length_take, List.length_drop]
    omega
  have hcopy : copyFrom s.buffer s.position (min size (s.size - s.position)) = some (a.read size) := by
    rw [copyFrom]
    split
    · next hzero =>
      rw [hzero] at hlength
      rw [List.eq_nil_of_length_eq_zero hlength]
    · rw [if_pos (by omega), hread]
  rw [readMemoryStream, remaining_eq (Nat.lt_of_le_of_lt hsize_le hbuffer) hle, hcount, hcopy, hlength]
  simp only [Option.bind_eq_bind, Option.bind_some, Option.pure_def]
  rw [Nat.mod_eq_of_lt (by omega)]

/-- A read of at least a byte from behind the end hands out bytes, or goes out of the buffer. -/
theorem length_read_behind (h : s.Represents a) (hbehind : s.size < s.position) {size : Nat} (hsize : size ≠ 0)
    {cells : List (Option UInt8)} (hread : s.readMemoryStream size = some (s', cells)) : cells ≠ [] := by
  have hposition := h.position_lt
  have hremaining : (s.size + 2 ^ 64 - s.position) % 2 ^ 64 = s.size + 2 ^ 64 - s.position := by omega
  rw [readMemoryStream, hremaining] at hread
  obtain ⟨cells', hcopy, hcells⟩ := Option.bind_eq_some_iff.mp hread
  cases hcells
  have hcount : (if size > s.size + 2 ^ 64 - s.position then s.size + 2 ^ 64 - s.position else size) ≠ 0 := by
    split <;> omega
  generalize (if size > s.size + 2 ^ 64 - s.position then s.size + 2 ^ 64 - s.position else size) = count at *
  rw [copyFrom, if_neg hcount] at hcopy
  split at hcopy
  · next hfits =>
    cases hcopy
    intro hnil
    have hlength := congrArg List.length hnil
    rw [List.length_take, List.length_drop, List.length_nil] at hlength
    omega
  · cases hcopy

/-! ## Writing -/

theorem length_realloc (cells : List (Option UInt8)) (size : Nat) : (realloc cells size).length = size := by
  rw [realloc, List.length_append, List.length_take, List.length_replicate]
  omega

theorem realloc_take {cells : List (Option UInt8)} {n size : Nat} (hn : n ≤ cells.length) (hsize : cells.length ≤ size) :
    (realloc cells size).take n = cells.take n := by
  rw [realloc, List.take_of_length_le hsize, List.take_append_of_le_length hn]

theorem copyTo_eq {cells cells' data : List (Option UInt8)} {position : Nat} (hdata : data ≠ []) :
    copyTo cells position data = some cells' ↔ position + data.length ≤ cells.length ∧
      cells' = cells.take position ++ data ++ cells.drop (position + data.length) := by
  rw [copyTo, if_neg hdata]
  split
  · next hfits => simp [hfits, eq_comm]
  · next hfits => simp [hfits]

/-- The buffer that a write copies to. -/
def room (s : MemoryStream) (size : Nat) : List (Option UInt8) :=
  let remaining := (s.buffer.length + 2 ^ 64 - s.position) % 2 ^ 64
  if size > remaining then
    realloc s.buffer ((s.buffer.length + max (size - remaining) sizeMemoryStream) % 2 ^ 64)
  else s.buffer

theorem write_eq (hdata : data ≠ []) (n : Nat) : s.writeMemoryStream data = some (s', n) ↔
    s.position + data.length ≤ (s.room data.length).length ∧ n = data.length ∧
      s' = { buffer := (s.room data.length).take s.position ++ data.map some ++
              (s.room data.length).drop (s.position + data.length)
             size := (s.size + data.length) % 2 ^ 64
             position := (s.position + data.length) % 2 ^ 64 } := by
  have hmax : ∀ extra : Nat, (if extra > sizeMemoryStream then extra else sizeMemoryStream) =
      max extra sizeMemoryStream := by
    intro extra
    split <;> omega
  have hmap : data.map some ≠ [] := by simpa using hdata
  have hwrite : s.writeMemoryStream data = (copyTo (s.room data.length) s.position (data.map some)).bind fun buffer =>
      some ({ buffer, size := (s.size + data.length) % 2 ^ 64, position := (s.position + data.length) % 2 ^ 64 },
        data.length) := by
    simp only [writeMemoryStream, hmax]
    rfl
  rw [hwrite, Option.bind_eq_some_iff]
  simp only [copyTo_eq hmap, List.length_map]
  constructor
  · rintro ⟨buffer, ⟨hfits, rfl⟩, heq⟩
    cases heq
    exact ⟨hfits, rfl, rfl⟩
  · rintro ⟨hfits, rfl, rfl⟩
    exact ⟨_, ⟨hfits, rfl⟩, rfl⟩

/-- Where a write to the end finds room, the stream is the array with what is written. -/
theorem write_represents (h : s.Represents a) (hdata : data ≠ []) (hend : s.position = s.size)
    (hroom : data.length ≤ s.buffer.length - s.size ∨
      s.buffer.length + max (data.length - (s.buffer.length - s.size)) sizeMemoryStream < 2 ^ 64) :
    ∃ s', s.writeMemoryStream data = some (s', data.length) ∧ s'.Represents (a.write data) := by
  have hsize_le := h.size_le
  have hbuffer := h.buffer_lt
  have hsize := h.size
  have hremaining : (s.buffer.length + 2 ^ 64 - s.position) % 2 ^ 64 = s.buffer.length - s.size := by
    rw [hend, remaining_eq hbuffer hsize_le]
  have hlength : s.size + data.length ≤ (s.room data.length).length ∧ (s.room data.length).length < 2 ^ 64 := by
    rw [room, hremaining]
    split
    · rw [length_realloc]
      omega
    · omega
  have htake : (s.room data.length).take s.size = a.contents := by
    rw [← h.contents, room, hremaining]
    split
    · exact realloc_take hsize_le (by omega)
    · rfl
  have hmod : (s.size + data.length) % 2 ^ 64 = s.size + data.length := Nat.mod_eq_of_lt (by omega)
  refine ⟨_, (write_eq hdata _).mpr ⟨by omega, rfl, rfl⟩, ?_⟩
  rw [a.write_end hdata (by rw [← h.position, hend, hsize]), hend, htake, hmod, hsize]
  have hcells : (a.contents ++ data.map some).length = a.contents.length + data.length := by simp
  constructor
  · exact List.take_left' hcells
  · rfl
  · simp only [List.length_append, hcells]
    omega
  · simp only [List.length_append, hcells, List.length_drop]
    omega
  · simp only
    omega

/-- A write of at least a byte that does not meet the condition leaves another size than that of the array. -/
theorem takes_of_write (h : s.Represents a) (hdata : data ≠ []) {n : Nat}
    (hwrite : s.writeMemoryStream data = some (s', n)) (h' : s'.Represents (a.write data)) : s.Takes (.write data) := by
  have hsize_le := h.size_le
  have hbuffer := h.buffer_lt
  have hsize := h.size
  have hposition := h.position
  have hsize' := h'.size
  obtain ⟨hfits, _, rfl⟩ := (write_eq hdata n).mp hwrite
  rw [ByteArrayStream.length_write hdata, ← hsize, ← hposition] at hsize'
  have hpos : 0 < data.length := List.length_pos_iff.mpr hdata
  have hroom : (s.room data.length).length < 2 ^ 64 := by
    rw [room]
    split
    · rw [length_realloc]
      exact Nat.mod_lt _ (Nat.two_pow_pos 64)
    · exact hbuffer
  have hend : s.position = s.size := by
    simp only at hsize'
    omega
  refine .inr ⟨hend, ?_⟩
  have hremaining : (s.buffer.length + 2 ^ 64 - s.position) % 2 ^ 64 = s.buffer.length - s.size := by
    rw [hend, remaining_eq hbuffer hsize_le]
  rw [room, hremaining] at hfits
  split at hfits
  · rw [length_realloc] at hfits
    right
    rw [sizeMemoryStream] at hfits ⊢
    omega
  · left
    omega

/-! ## The calls -/

theorem write_nil (h : s.Represents a) : s.writeMemoryStream [] = some (s, 0) := by
  have hsize : s.size % 2 ^ 64 = s.size := Nat.mod_eq_of_lt (Nat.lt_of_le_of_lt h.size_le h.buffer_lt)
  have hposition : s.position % 2 ^ 64 = s.position := Nat.mod_eq_of_lt h.position_lt
  simp [writeMemoryStream, copyTo, hsize, hposition, -Nat.reducePow]

theorem read_zero (h : s.Represents a) : s.readMemoryStream 0 = some (s, []) := by
  have hposition : s.position % 2 ^ 64 = s.position := Nat.mod_eq_of_lt h.position_lt
  simp [readMemoryStream, copyFrom, hposition, -Nat.reducePow]

theorem open_represents : openMemoryStream.Represents .empty where
  contents := List.take_zero
  position := rfl
  size_le := Nat.zero_le _
  buffer_lt := by
    rw [openMemoryStream, List.length_replicate, sizeMemoryStream]
    omega
  position_lt := Nat.two_pow_pos 64

theorem write_iff (h : s.Represents a) (data : List UInt8) :
    (∃ s', s.writeMemoryStream data = some (s', data.length) ∧ s'.Represents (a.write data)) ↔
      s.Takes (.write data) := by
  by_cases hdata : data = []
  · subst hdata
    exact iff_of_true ⟨s, write_nil h, h⟩ (.inl rfl)
  · constructor
    · rintro ⟨s', hwrite, h'⟩
      exact takes_of_write h hdata hwrite h'
    · rintro (hnil | ⟨hend, hroom⟩)
      · exact absurd hnil hdata
      · exact write_represents h hdata hend hroom

theorem read_iff (h : s.Represents a) (size : UInt64) :
    (∃ s', s.readMemoryStream size.toNat = some (s', a.read size.toNat) ∧
      s'.Represents { a with position := a.position + (a.read size.toNat).length }) ↔ s.Takes (.read size) := by
  have hsize := h.size
  have hposition := h.position
  constructor
  · rintro ⟨s', hread, _⟩
    by_cases hzero : size = 0
    · exact .inl hzero
    · refine .inr (Nat.not_lt.mp fun hbehind => ?_)
      have hnat : size.toNat ≠ 0 := fun h0 => hzero (UInt64.toNat.inj h0)
      apply length_read_behind h hbehind hnat hread
      rw [ByteArrayStream.read, List.drop_eq_nil_of_le (by omega), List.take_nil]
  · rintro (rfl | hle)
    · refine ⟨s, read_zero h, ?_⟩
      exact h
    · refine ⟨_, read_of_le h hle size.toNat, ?_⟩
      have hlength : (a.read size.toNat).length ≤ a.contents.length - a.position := by
        rw [ByteArrayStream.read, List.length_take, List.length_drop]
        omega
      have hsize_le := h.size_le
      have hbuffer := h.buffer_lt
      refine { h with position := by simp only [hposition], position_lt := ?_ }
      simp only
      omega

/-- A call is the one on the array exactly when it meets the condition. -/
theorem call_iff (s : MemoryStream) (a : ByteArrayStream) (call : StreamCall) (h : s.Represents a) :
    (∃ s', s.call call = some (s', (a.call call).2) ∧ s'.Represents (a.call call).1) ↔ s.Takes call := by
  cases call with
  | «open» => exact iff_of_true ⟨_, rfl, open_represents⟩ trivial
  | write data =>
      rw [← write_iff h]
      simp [MemoryStream.call, ByteArrayStream.call]
  | seek target => exact iff_of_true ⟨_, rfl, { h with position := rfl, position_lt := target.toNat_lt }⟩ trivial
  | read size =>
      rw [← read_iff h]
      simp [MemoryStream.call, ByteArrayStream.call]
  | size => exact iff_of_true ⟨s, by rw [MemoryStream.call, h.size]; rfl, h⟩ trivial
  | tell => exact iff_of_true ⟨s, by rw [MemoryStream.call, h.position]; rfl, h⟩ trivial

end MemoryStream

theorem createMemoryStream_represents : createMemoryStream.Represents .empty where
  contents := rfl
  position := rfl
  size_le := Nat.le_refl 0
  buffer_lt := Nat.two_pow_pos 64
  position_lt := Nat.two_pow_pos 64

/-- From a new stream on, a run of calls is the one on the array exactly when no call reads from behind the end or
writes but at the end. -/
theorem memory_stream_refines (calls : List StreamCall) :
    Emulates MemoryStream.call ByteArrayStream.call MemoryStream.Represents createMemoryStream .empty calls ↔
      Guarded MemoryStream.call MemoryStream.Takes createMemoryStream calls :=
  emulates_iff_guarded MemoryStream.call_iff calls createMemoryStream_represents

/-- Going back to the start and writing there makes the stream larger. -/
theorem not_memory_stream_refines : ¬ ∀ calls,
    Emulates MemoryStream.call ByteArrayStream.call MemoryStream.Represents createMemoryStream .empty calls := by
  intro h
  obtain ⟨_, _, _, _, _, _, _, s, _, hs, s', hwrite, hs'⟩ := h [.open, .write [1, 2], .seek 0, .write [3]]
  cases (MemoryStream.call_iff s _ (.write [3]) hs).mp ⟨s', hwrite, hs'⟩ with
  | inl hnil => cases hnil
  | inr hend =>
      have hsize := hend.1
      rw [hs.position, hs.size] at hsize
      cases hsize

end Viriatum
