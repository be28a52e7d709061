import Mathlib.Data.List.TakeWhile
import Viriatum.Commons.Base64
import Viriatum.Stream.Respond

/-!
# Buffers and strings

A buffer of a fixed size, whose bytes are unset until they are written, and the strings that are kept in it up to a
zero byte.
-/

namespace Viriatum

open Http2Connection Library

/-- The bytes of a string that a zero byte follows. -/
abbrev CString := { data : Bytes // 0 ∉ data }

/-- A text ends before a byte is found in it, or goes on behind the first one. -/
theorem split_byte (byte : UInt8) (text : Bytes) :
    text.dropWhile (· ≠ byte) = [] ∧ text.takeWhile (· ≠ byte) = text ∨
      ∃ rest, text.dropWhile (· ≠ byte) = byte :: rest ∧ text = text.takeWhile (· ≠ byte) ++ byte :: rest := by
  have hsplit := List.takeWhile_append_dropWhile (p := (· ≠ byte)) (l := text)
  cases hrest : text.dropWhile (· ≠ byte) with
  | nil =>
      rw [hrest, List.append_nil] at hsplit
      exact Or.inl ⟨rfl, hsplit⟩
  | cons first rest =>
      have hfirst := List.head?_dropWhile_not (· ≠ byte) text
      rw [hrest] at hfirst hsplit
      obtain rfl : first = byte := by simpa using hfirst
      exact Or.inr ⟨rest, rfl, hsplit.symm⟩

theorem not_mem_takeWhile_byte (byte : UInt8) (text : Bytes) : byte ∉ text.takeWhile (· ≠ byte) := fun h => by
  have := List.all_eq_true.mp List.all_takeWhile _ h
  simp at this

theorem cString_ne_zero (data : Bytes) : 0 ∉ cString data := not_mem_takeWhile_byte 0 data

theorem cString_of_text {data : Bytes} (h : 0 ∉ data) : cString data = data :=
  List.takeWhile_eq_self_iff.mpr fun byte hmem => by
    have hne : byte ≠ 0 := fun hzero => h (hzero ▸ hmem)
    simpa using hne

theorem cString_split (data : Bytes) : cString data = data ∨ ∃ rest, data = cString data ++ 0 :: rest := by
  rcases split_byte 0 data with ⟨-, hall⟩ | ⟨rest, -, hsplit⟩
  · exact .inl hall
  · exact .inr ⟨rest, hsplit⟩

theorem cString_append {data rest : Bytes} (h : 0 ∉ data) : cString (data ++ rest) = data ++ cString rest := by
  have hdata : ∀ c ∈ data, decide (c ≠ 0) = true := fun c hc => by
    have hne : c ≠ 0 := fun hzero => h (hzero ▸ hc)
    simp [hne]
  rw [cString, List.takeWhile_append_of_pos hdata]
  rfl

abbrev Buffer := List (Option UInt8)

namespace Buffer

/-- The buffer as it is allocated. -/
def fresh (size : Nat) : Buffer := List.replicate size none

/-- Writes the bytes at the start of the buffer. -/
def write (buffer : Buffer) (data : Bytes) : Except Fault Buffer :=
  if data.length ≤ buffer.length then .ok (data.map some ++ buffer.drop data.length) else .error .outOfBounds

/-- The byte at a position. -/
def byteAt (buffer : Buffer) (position : Nat) : Except Fault UInt8 :=
  match buffer[position]? with
  | none => .error .outOfBounds
  | some none => .error .unset
  | some (some byte) => .ok byte

/-- The string at the start of the buffer. -/
def readString : Buffer → Except Fault Bytes
  | [] => .error .outOfBounds
  | none :: _ => .error .unset
  | some byte :: rest =>
      if byte = 0 then .ok []
      else do
        let string ← readString rest
        .ok (byte :: string)

/-- The buffer holds the string. -/
def Holds (buffer : Buffer) (string : Bytes) : Prop :=
  0 ∉ string ∧ ∃ rest, buffer = string.map some ++ some 0 :: rest

theorem write_eq {buffer : Buffer} {data : Bytes} (h : data.length ≤ buffer.length) :
    buffer.write data = .ok (data.map some ++ buffer.drop data.length) := if_pos h

theorem length_of_write {buffer written : Buffer} {data : Bytes} (h : buffer.write data = .ok written) :
    written.length = buffer.length := by
  rw [write] at h
  by_cases hfits : data.length ≤ buffer.length
  · rw [if_pos hfits, Except.ok.injEq] at h
    simp [← h, hfits]
  · rw [if_neg hfits] at h
    cases h

theorem holds_cString (data : Bytes) (rest : Buffer) :
    Holds ((data ++ [0]).map some ++ rest) (cString data) := by
  refine ⟨cString_ne_zero data, ?_⟩
  rcases cString_split data with hall | ⟨more, hsplit⟩
  · exact ⟨rest, by simp [hall]⟩
  · refine ⟨(more ++ [0]).map some ++ rest, ?_⟩
    conv_lhs => rw [hsplit]
    simp

theorem Holds.readString {buffer : Buffer} {string : Bytes} (h : buffer.Holds string) :
    buffer.readString = .ok string := by
  obtain ⟨hzero, rest, rfl⟩ := h
  induction string with
  | nil => simp [Buffer.readString]
  | cons c string ih =>
      simp only [List.mem_cons, not_or] at hzero
      have hc : c ≠ 0 := fun hc => hzero.1 hc.symm
      simp only [List.map_cons, List.cons_append, Buffer.readString, if_neg hc, ih hzero.2]
      rfl

theorem holds_of_readString {buffer : Buffer} {string : Bytes} (h : buffer.readString = .ok string) :
    buffer.Holds string := by
  induction buffer generalizing string with
  | nil => cases h
  | cons cell rest ih =>
      cases cell with
      | none => cases h
      | some byte =>
          rw [Buffer.readString] at h
          by_cases hbyte : byte = 0
          · rw [if_pos hbyte, Except.ok.injEq] at h
            exact ⟨by simp [← h], rest, by simp [← h, hbyte]⟩
          · rw [if_neg hbyte] at h
            obtain ⟨string', hrest, hend⟩ := Except.bind_ok h
            cases hend
            obtain ⟨hzero, tail, rfl⟩ := ih hrest
            exact ⟨by simp [hzero, Ne.symm hbyte], tail, rfl⟩

theorem Holds.unique {buffer : Buffer} {string string' : Bytes} (h : buffer.Holds string)
    (h' : buffer.Holds string') : string = string' := by
  have heq := h.readString.symm.trans h'.readString
  exact Except.ok.inj heq

theorem not_holds_fresh (size : Nat) (string : Bytes) : ¬ (fresh size).Holds string := by
  intro h
  obtain ⟨-, rest, hfresh⟩ := h
  have hmem : some (0 : UInt8) ∈ fresh size := by simp [hfresh]
  simp [fresh] at hmem

end Buffer

end Viriatum
