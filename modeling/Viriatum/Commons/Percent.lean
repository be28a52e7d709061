import Viriatum.Commons.Buffer

/-!
# Percent encoding and the check of a path

The decoder of percent encoded strings and the check that refuses a path with a segment of two dots.
-/

namespace Viriatum

open Http2Connection

/-! ## The code -/

/-- The value of a hexadecimal digit; any other byte is taken for a letter. -/
def fromHex (byte : UInt8) : UInt8 :=
  if 48 ≤ byte ∧ byte ≤ 57 then byte - 48
  else (if 65 ≤ byte ∧ byte ≤ 90 then byte + 32 else byte) - 97 + 10

def decodedByte (high low : UInt8) : UInt8 := fromHex high <<< 4 ||| fromHex low

/-- The loop of the decoder over a number of bytes of a buffer, and whether it comes to its end. The two bytes after a
percent sign are looked at one after the other, wherever they are. -/
def decodePercentLoop : Buffer → Nat → Except Fault (Bytes × Bool)
  | _, 0 => .ok ([], true)
  | [], _ + 1 => .error .outOfBounds
  | none :: _, _ + 1 => .error .unset
  | some byte :: rest, length + 1 =>
      if byte = 37 then
        match rest with
        | [] => .error .outOfBounds
        | none :: _ => .error .unset
        | some high :: rest =>
            if high = 0 then .ok ([], false)
            else
              match rest with
              | [] => .error .outOfBounds
              | none :: _ => .error .unset
              | some low :: rest =>
                  if low = 0 then .ok ([], false)
                  else do
                    let (decoded, whole) ← decodePercentLoop rest (length - 2)
                    .ok (decodedByte high low :: decoded, whole)
      else do
        let (decoded, whole) ← decodePercentLoop rest length
        .ok ((if byte = 43 then 32 else byte) :: decoded, whole)

/-- What the decoder leaves: the error it has raised, if any, and the buffer it has written to. -/
structure PercentOutcome where
  error : Option String
  buffer : Buffer
deriving DecidableEq, Repr

/-- Decodes a number of bytes of a buffer into another one, which is closed with a zero byte unless there is an
error. -/
def decodePercent (buffer : Buffer) (length : Nat) (target : Buffer) : Except Fault PercentOutcome := do
  let (decoded, whole) ← decodePercentLoop buffer length
  let written ← target.write (if whole then decoded ++ [0] else decoded)
  .ok { error := if whole then none else some "Problem decoding URL string", buffer := written }

def isSeparator (byte : UInt8) : Bool := byte = 47 ∨ byte = 92

/-- Whether a segment of two dots is at the current byte, the bytes being looked at one after the other. -/
def isTraversal (opens : Bool) (current : UInt8) (rest : Buffer) : Except Fault Bool :=
  if current ≠ 46 then .ok false
  else do
    let next ← rest.byteAt 0
    if next ≠ 46 ∨ opens = false then .ok false
    else do
      let last ← rest.byteAt 1
      .ok (last = 0 ∨ isSeparator last ∨ last = 63)

/-- The loop of the check; a segment opens at the start of the path and after a separator. -/
def isPathSafeFrom (opens : Bool) : Buffer → Except Fault Bool
  | [] => .error .outOfBounds
  | none :: _ => .error .unset
  | some current :: rest =>
      if current = 0 then .ok true
      else do
        let found ← isTraversal opens current rest
        if found then .ok false else isPathSafeFrom (isSeparator current) rest

def isPathSafe (path : Buffer) : Except Fault Bool := isPathSafeFrom true path

/-! ## Decoded strings -/

/-- The string that an encoded one stands for, when all of its percent sequences are whole. -/
def percentDecode : Bytes → Option Bytes
  | [] => some []
  | 37 :: high :: low :: rest =>
      if high = 0 ∨ low = 0 then none else (percentDecode rest).map (decodedByte high low :: ·)
  | [37] => none
  | [37, _] => none
  | byte :: rest => (percentDecode rest).map ((if byte = 43 then 32 else byte) :: ·)

attribute [local simp] percentDecode decodePercentLoop

/-- A byte that no sequence begins with. -/
theorem plain_of_cases {byte : UInt8} {more : Bytes}
    (hwhole : ∀ high low rest, byte = 37 → more = high :: low :: rest → False) (hend : byte = 37 → more = [] → False)
    (hcut : ∀ high, byte = 37 → more = [high] → False) : byte ≠ 37 := by
  intro hbyte
  cases more with
  | nil => exact hend hbyte rfl
  | cons high more =>
      cases more with
      | nil => exact hcut high hbyte rfl
      | cons low more => exact hwhole high low more hbyte rfl

theorem percentDecode_plain {byte : UInt8} (h : byte ≠ 37) (rest : Bytes) :
    percentDecode (byte :: rest) = (percentDecode rest).map ((if byte = 43 then 32 else byte) :: ·) := by
  rw [percentDecode]
  · simp_all
  · simp_all
  · simp_all

theorem decodePercentLoop_plain {byte : UInt8} (h : byte ≠ 37) (rest : Buffer) (length : Nat) {decoded : Bytes}
    {whole : Bool} (hrest : decodePercentLoop rest length = .ok (decoded, whole)) :
    decodePercentLoop (some byte :: rest) (length + 1) =
      .ok ((if byte = 43 then 32 else byte) :: decoded, whole) := by
  unfold decodePercentLoop
  simp only [if_neg h, hrest]
  rfl

/-- The loop decodes a string whose sequences are whole, whatever follows it. -/
theorem decodePercentLoop_of_decode {data decoded : Bytes} (h : percentDecode data = some decoded) (rest : Buffer) :
    decodePercentLoop (data.map some ++ rest) data.length = .ok (decoded, true) := by
  induction data using percentDecode.induct generalizing decoded with
  | case1 =>
      simp only [percentDecode, Option.some.injEq] at h
      subst h
      cases rest <;> rfl
  | case2 high low more hzero =>
      simp [percentDecode, hzero] at h
  | case3 high low more hzero ih =>
      simp only [percentDecode, if_neg hzero, Option.map_eq_some_iff] at h
      obtain ⟨decoded', hmore, rfl⟩ := h
      obtain ⟨hhigh, hlow⟩ := not_or.mp hzero
      simp only [List.map_cons, List.cons_append, List.length_cons, decodePercentLoop, if_true, if_neg hhigh,
        if_neg hlow, Nat.add_sub_cancel, ih hmore]
      rfl
  | case4 => simp [percentDecode] at h
  | case5 => simp [percentDecode] at h
  | case6 byte more h1 h2 h3 ih =>
      have hbyte := plain_of_cases h1 h2 h3
      rw [percentDecode_plain hbyte, Option.map_eq_some_iff] at h
      obtain ⟨decoded', hmore, rfl⟩ := h
      exact decodePercentLoop_plain hbyte _ _ (ih hmore)

/-- No more is decoded than there is. -/
theorem length_of_percentDecode {data decoded : Bytes} (h : percentDecode data = some decoded) :
    decoded.length ≤ data.length := by
  induction data using percentDecode.induct generalizing decoded with
  | case1 => simp_all [percentDecode]
  | case2 high low more hzero => simp [percentDecode, hzero] at h
  | case3 high low more hzero ih =>
      simp only [percentDecode, if_neg hzero, Option.map_eq_some_iff] at h
      obtain ⟨decoded', hmore, rfl⟩ := h
      have := ih hmore
      simp only [List.length_cons]
      omega
  | case4 => simp [percentDecode] at h
  | case5 => simp [percentDecode] at h
  | case6 byte more h1 h2 h3 ih =>
      rw [percentDecode_plain (plain_of_cases h1 h2 h3), Option.map_eq_some_iff] at h
      obtain ⟨decoded', hmore, rfl⟩ := h
      have := ih hmore
      simp only [List.length_cons]
      omega

/-- What is written without a percent or a plus sign stands for itself. -/
theorem percentDecode_append {base : Bytes} (hpercent : 37 ∉ base) (hplus : 43 ∉ base) (rest : Bytes) :
    percentDecode (base ++ rest) = (percentDecode rest).map (base ++ ·) := by
  induction base with
  | nil => simp
  | cons byte base ih =>
      simp only [List.mem_cons, not_or] at hpercent hplus
      rw [List.cons_append, percentDecode_plain (Ne.symm hpercent.1), ih hpercent.2 hplus.2,
        if_neg (Ne.symm hplus.1), Option.map_map]
      rfl

/-- What stands before a zero byte is decoded by itself. -/
theorem percentDecode_zero {front rest decoded : Bytes} (hzero : 0 ∉ front)
    (h : percentDecode (front ++ 0 :: rest) = some decoded) :
    ∃ decoded' more, percentDecode front = some decoded' ∧ decoded = decoded' ++ 0 :: more := by
  induction front using percentDecode.induct generalizing decoded with
  | case1 =>
      rw [List.nil_append, percentDecode_plain (by decide), Option.map_eq_some_iff] at h
      obtain ⟨more, -, rfl⟩ := h
      exact ⟨[], more, rfl, rfl⟩
  | case2 high low more hbytes =>
      simp [percentDecode, hbytes] at h
  | case3 high low more hbytes ih =>
      simp only [List.cons_append, percentDecode, if_neg hbytes, Option.map_eq_some_iff] at h
      obtain ⟨decoded', hmore, rfl⟩ := h
      obtain ⟨decoded'', rest', hdecoded, rfl⟩ := ih (fun hmem => hzero (by simp [hmem])) hmore
      exact ⟨decodedByte high low :: decoded'', rest', by simp [percentDecode, hbytes, hdecoded], rfl⟩
  | case4 =>
      cases rest with
      | nil => simp [percentDecode] at h
      | cons low rest => simp [percentDecode] at h
  | case5 high => simp [percentDecode] at h
  | case6 byte more h1 h2 h3 ih =>
      have hbyte := plain_of_cases h1 h2 h3
      rw [List.cons_append, percentDecode_plain hbyte, Option.map_eq_some_iff] at h
      obtain ⟨decoded', hmore, rfl⟩ := h
      obtain ⟨decoded'', rest', hdecoded, rfl⟩ := ih (fun hmem => hzero (by simp [hmem])) hmore
      exact ⟨_ :: decoded'', rest', by rw [percentDecode_plain hbyte, hdecoded]; rfl, rfl⟩

/-- The string of what is decoded comes from the string that is decoded. -/
theorem percentDecode_cString {data decoded : Bytes} (h : percentDecode data = some decoded) :
    ∃ decoded', percentDecode (cString data) = some decoded' ∧ cString decoded' = cString decoded := by
  rcases cString_split data with hall | ⟨rest, hsplit⟩
  · exact ⟨decoded, by rw [hall, h], rfl⟩
  · rw [hsplit] at h
    obtain ⟨decoded', more, hdecoded, rfl⟩ := percentDecode_zero (cString_ne_zero data) h
    refine ⟨decoded', hdecoded, ?_⟩
    rcases cString_split decoded' with hall' | ⟨rest', hsplit'⟩
    · have hzero : 0 ∉ decoded' := hall' ▸ cString_ne_zero decoded'
      rw [cString_append hzero, hall']
      simp [cString]
    · conv_rhs => rw [hsplit', List.append_assoc, cString_append (cString_ne_zero decoded')]
      simp [cString]

/-! ## Segments of two dots -/

def dot : UInt8 := 46

/-- The segment of the path that starts at the position is two dots. -/
def ParentAt (path : Bytes) (position : Nat) : Prop :=
  (position = 0 ∨ ∃ byte, path[position - 1]? = some byte ∧ isSeparator byte) ∧
    path[position]? = some dot ∧ path[position + 1]? = some dot ∧
      ∀ byte, path[position + 2]? = some byte → isSeparator byte

/-- The check of a string, from a place where a segment opens or not. -/
def pathSafeFrom (opens : Bool) : Bytes → Bool
  | [] => true
  | current :: rest =>
      if current = dot ∧ opens ∧ rest.head? = some dot ∧
          (rest[1]? = none ∨ ∃ last ∈ rest[1]?, isSeparator last ∨ last = 63) then false
      else pathSafeFrom (isSeparator current) rest

def pathSafe (path : Bytes) : Bool := pathSafeFrom true path

theorem byteAt_one {next : UInt8} (rest : Bytes) (tail : Buffer) :
    Buffer.byteAt ((next :: rest).map some ++ some 0 :: tail) 1 = .ok (rest.head?.getD 0) := by
  cases rest <;> rfl

theorem isTraversal_eq (opens : Bool) (current : UInt8) {rest : Bytes} (hzero : 0 ∉ rest) (tail : Buffer) :
    isTraversal opens current (rest.map some ++ some 0 :: tail) =
      .ok (current = dot ∧ opens ∧ rest.head? = some dot ∧
        (rest[1]? = none ∨ ∃ last ∈ rest[1]?, isSeparator last ∨ last = 63)) := by
  by_cases hcurrent : current = 46
  · rw [isTraversal, if_neg (fun h => h hcurrent)]
    cases rest with
    | nil =>
        have hnext : Buffer.byteAt (([] : Bytes).map some ++ some 0 :: tail) 0 = .ok 0 := rfl
        rw [hnext]
        simp [bind, Except.bind]
    | cons next rest =>
        have hbyte : Buffer.byteAt ((next :: rest).map some ++ some 0 :: tail) 0 = .ok next := rfl
        rw [hbyte]
        simp only [bind, Except.bind]
        by_cases hnext : next ≠ 46 ∨ opens = false
        · rw [if_pos hnext]
          rcases hnext with hnext | hopens
          · simp [dot, hnext]
          · simp [hopens]
        · rw [if_neg hnext, byteAt_one]
          simp only [not_or, not_not, Bool.not_eq_false] at hnext
          obtain ⟨rfl, rfl⟩ := hnext
          subst hcurrent
          cases rest with
          | nil => simp [dot]
          | cons last rest =>
              have hlast : last ≠ 0 := fun h => hzero (by simp [h])
              simp [dot, hlast]
  · rw [isTraversal, if_pos hcurrent]
    simp [dot, hcurrent]

theorem isPathSafeFrom_eq {path : Bytes} (hzero : 0 ∉ path) (opens : Bool) (tail : Buffer) :
    isPathSafeFrom opens (path.map some ++ some 0 :: tail) = .ok (pathSafeFrom opens path) := by
  induction path generalizing opens with
  | nil => simp [isPathSafeFrom, pathSafeFrom]
  | cons current rest ih =>
      simp only [List.mem_cons, not_or] at hzero
      rw [List.map_cons, List.cons_append, isPathSafeFrom, if_neg (Ne.symm hzero.1), isTraversal_eq _ _ hzero.2]
      simp only [bind, Except.bind, pathSafeFrom]
      by_cases hfound : current = dot ∧ opens ∧ rest.head? = some dot ∧
          (rest[1]? = none ∨ ∃ last ∈ rest[1]?, isSeparator last ∨ last = 63)
      · rw [if_pos hfound, if_pos (by simpa using hfound)]
      · rw [if_neg hfound, if_neg (by simpa using hfound), ih hzero.2]

/-- The check of a buffer is the check of the string that it holds. -/
theorem isPathSafe_of_holds {buffer : Buffer} {path : Bytes} (h : buffer.Holds path) :
    isPathSafe buffer = .ok (pathSafe path) := by
  obtain ⟨hzero, tail, rfl⟩ := h
  exact isPathSafeFrom_eq hzero true tail

theorem pathSafeFrom_spec {path : Bytes} {opens : Bool} (h : pathSafeFrom opens path = true) (position : Nat)
    (hopens : position = 0 ∧ opens = true ∨
      ∃ before byte, position = before + 1 ∧ path[before]? = some byte ∧ isSeparator byte)
    (hfirst : path[position]? = some dot) (hsecond : path[position + 1]? = some dot)
    (hend : ∀ byte, path[position + 2]? = some byte → isSeparator byte) : False := by
  induction path generalizing opens position with
  | nil => simp at hfirst
  | cons current rest ih =>
      rw [pathSafeFrom] at h
      by_cases hfound : current = dot ∧ opens ∧ rest.head? = some dot ∧
          (rest[1]? = none ∨ ∃ last ∈ rest[1]?, isSeparator last ∨ last = 63)
      · rw [if_pos hfound] at h
        cases h
      · rw [if_neg hfound] at h
        rcases hopens with ⟨rfl, rfl⟩ | ⟨before, byte, rfl, hbyte, hseparator⟩
        · refine hfound ⟨by simpa using hfirst, rfl, by simpa [List.head?_eq_getElem?] using hsecond, ?_⟩
          cases hlast : rest[1]? with
          | none => exact .inl rfl
          | some last => exact .inr ⟨last, rfl, .inl (hend last (by simpa using hlast))⟩
        · refine ih h before ?_ (by simpa using hfirst) (by simpa using hsecond) fun byte => by simpa using hend byte
          cases before with
          | zero =>
              have hcurrent : current = byte := by simpa using hbyte
              exact .inl ⟨rfl, hcurrent ▸ hseparator⟩
          | succ before => exact .inr ⟨before, byte, rfl, by simpa using hbyte, hseparator⟩

/-- A path that the check accepts has no segment of two dots. -/
theorem not_parentAt_of_pathSafe {path : Bytes} (h : pathSafe path = true) (position : Nat) :
    ¬ ParentAt path position := by
  intro ⟨hopens, hfirst, hsecond, hend⟩
  refine pathSafeFrom_spec h position ?_ hfirst hsecond hend
  cases position with
  | zero => exact .inl ⟨rfl, rfl⟩
  | succ before =>
      rcases hopens with hzero | ⟨byte, hbyte, hseparator⟩
      · cases hzero
      · exact .inr ⟨before, byte, rfl, by simpa using hbyte, hseparator⟩

/-! ## Confinement -/

/-- The path lies under a base directory that it does not leave through a segment of two dots: every such segment is
one of the base. -/
structure Confined (base path : Bytes) : Prop where
  under : base <+: path
  stays : ∀ position, ParentAt path position → position + 2 ≤ base.length

theorem Confined.of_pathSafe {base path : Bytes} (hunder : base <+: path) (h : pathSafe path = true) :
    Confined base path :=
  ⟨hunder, fun position hparent => absurd hparent (not_parentAt_of_pathSafe h position)⟩

/-- Joining the base with a target makes a segment of two dots out of a dot of each. -/
def JoinsParent (base target : Bytes) : Prop :=
  base ≠ [] ∧ ParentAt (base ++ target) (base.length - 1)

theorem not_joinsParent {base target : Bytes} (h : base.getLast? ≠ some dot) : ¬ JoinsParent base target := by
  rintro ⟨hne, -, hfirst, -⟩
  have hlength := List.length_pos_of_ne_nil hne
  rw [List.getElem?_append_left (by omega), ← List.getLast?_eq_getElem?] at hfirst
  exact h hfirst

/-- A target without segments of two dots stays under the base, unless the join makes one. -/
theorem Confined.of_target {base target : Bytes} (h : pathSafe target = true) (hjoin : ¬ JoinsParent base target) :
    Confined base (base ++ target) := by
  refine ⟨List.prefix_append base target, fun position hparent => ?_⟩
  by_contra hbeyond
  by_cases hlast : position + 1 = base.length
  · refine hjoin ⟨?_, ?_⟩
    · rintro rfl
      simp at hlast
    · rwa [← hlast, Nat.add_sub_cancel]
  · have hposition : base.length ≤ position := by omega
    obtain ⟨opened, hfirst, hsecond, hend⟩ := hparent
    rw [List.getElem?_append_right hposition] at hfirst
    rw [List.getElem?_append_right (by omega), Nat.sub_add_comm hposition] at hsecond
    refine pathSafeFrom_spec h (position - base.length) ?_ hfirst hsecond fun byte hbyte => hend byte ?_
    · by_cases hstart : position = base.length
      · exact .inl ⟨by omega, rfl⟩
      · rcases opened with hzero | ⟨byte, hbyte, hseparator⟩
        · omega
        · rw [List.getElem?_append_right (by omega)] at hbyte
          refine .inr ⟨position - 1 - base.length, byte, by omega, hbyte, hseparator⟩
    · rw [List.getElem?_append_right (by omega), Nat.sub_add_comm hposition]
      exact hbyte

end Viriatum
