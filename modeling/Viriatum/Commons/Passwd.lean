import Mathlib.Data.List.TakeWhile
import Viriatum.Commons.Buffer

/-!
# The files of users

The file of users and passwords is read byte by byte into a hash map, whose elements are told apart by the hashes of
their keys.
-/

namespace Viriatum

open Library Http2Connection

/-! ## The hash map -/

structure HashMapElement where
  key : UInt64
  keyString : Bytes
  value : Bytes
deriving DecidableEq, Repr

/-- The used elements of a hash map, of which there is one for each key. -/
abbrev HashMap := List HashMapElement

/-- The hash of a string. -/
def calculateString : Bytes → UInt64
  | [] => 0
  | first :: rest =>
      let key := rest.foldl (fun (key : UInt64) current => 1000003 * key ^^^ current.toUInt64) (first.toUInt64 <<< 7)
      let key := key ^^^ UInt64.ofNat (rest.length + 1)
      if key = -1 then -2 else key

namespace HashMap

/-- Sets the value of a string; the element with the hash of it is overwritten, whatever its string. -/
def setString (map : HashMap) (keyString value : Bytes) : HashMap :=
  let element := { key := calculateString keyString, keyString, value }
  if map.any fun e => e.key = element.key then map.map fun e => if e.key = element.key then element else e
  else map ++ [element]

def getString (map : HashMap) (keyString : Bytes) : Option Bytes :=
  (map.find? fun e => e.key = calculateString keyString ∧ e.keyString = keyString).map HashMapElement.value

end HashMap

/-! ## The reading of a file -/

inductive PasswdState where
  | user
  | password
  | comment
deriving DecidableEq, Repr

/-- What the reading keeps between two bytes: the bytes since the mark, the buffer of the user name and the map. -/
structure PasswdParser where
  state : PasswdState := .user
  mark : Bytes := []
  username : Bytes := []
  passwd : HashMap := []
deriving DecidableEq, Repr

def passwdUsernameSize : Nat := 128

def PasswdParser.step (p : PasswdParser) (current : UInt8) : Except Fault PasswdParser :=
  let skipped := { p with mark := p.mark ++ [current] }
  match p.state with
  | .user =>
      if current = 58 ∨ current = 10 then
        if p.mark.length ≥ passwdUsernameSize then .error .outOfBounds
        else .ok { p with username := p.mark, mark := [], state := if current = 58 then .password else .user }
      else .ok skipped
  | .password =>
      if current = 58 ∨ current = 10 then
        .ok { p with
          passwd := p.passwd.setString (cString p.username) (cString p.mark)
          mark := []
          state := if current = 58 then .comment else .user }
      else .ok skipped
  | .comment => if current = 10 then .ok { p with mark := [], state := .user } else .ok skipped

def PasswdParser.steps : PasswdParser → Bytes → Except Fault PasswdParser
  | p, [] => .ok p
  | p, current :: rest => do
      let p ← p.step current
      p.steps rest

/-- The map of the contents of a file. -/
def readPasswd (contents : Bytes) : Except Fault HashMap := do
  let p ← ({} : PasswdParser).steps contents
  .ok p.passwd

/-- Reads the file at a path; one that cannot be read is an error, which leaves the map unset. -/
def processPasswdFile (files : Bytes → Option Bytes) (path : Bytes) : Except Fault (Option HashMap) :=
  match files path with
  | none => .ok none
  | some contents => do
      let passwd ← readPasswd contents
      .ok (some passwd)

/-! ## What a file says -/

/-- The user and the password of a line: what stands before the first colon and what stands between it and the next
one or the end of the line. -/
def passwdEntry (line : Bytes) : Option (Bytes × Bytes) :=
  match line.dropWhile (· ≠ 58) with
  | [] => none
  | _ :: rest => some (line.takeWhile (· ≠ 58), rest.takeWhile (· ≠ 58))

/-- The entries of the lines of a file, in order. -/
def passwdEntries (contents : Bytes) : List (Bytes × Bytes) := (contents.splitOn 10).filterMap passwdEntry

/-- The file maps the user to the password: the last entry of the user is with the password. -/
def FileMaps (contents user password : Bytes) : Prop := (passwdEntries contents).reverse.lookup user = some password

instance (contents user password : Bytes) : Decidable (FileMaps contents user password) :=
  inferInstanceAs (Decidable (_ = _))

/-! ## The map holds what the file says -/

namespace HashMap

theorem getString_append (map map' : HashMap) (string : Bytes) :
    HashMap.getString (map ++ map') string = (map.getString string).or (HashMap.getString map' string) := by
  simp only [getString, List.find?_append]
  cases map.find? _ <;> rfl

theorem getString_singleton (keyString value string : Bytes) :
    getString [{ key := calculateString keyString, keyString, value }] string =
      if keyString = string then some value else none := by
  by_cases hstring : keyString = string
  · simp [getString, hstring]
  · simp [getString, hstring]

/-- No element with another hash is found. -/
theorem getString_eq_none {map : HashMap} {string : Bytes} (h : ∀ e ∈ map, e.key ≠ calculateString string) :
    map.getString string = none := by
  rw [getString, List.find?_eq_none.mpr (by
    intro e hmem
    simp [h e hmem])]
  rfl

/-- The elements once the one of a key is overwritten. -/
theorem getString_overwrite (map : HashMap) (element : HashMapElement) (string : Bytes) :
    HashMap.getString (map.map fun e => if e.key = element.key then element else e) string =
      if element.key = calculateString string then
        if element.keyString = string ∧ ∃ e ∈ map, e.key = element.key then some element.value else none
      else map.getString string := by
  induction map with
  | nil => simp [getString]
  | cons e map ih =>
      have hcons : ∀ (e : HashMapElement) (map : HashMap), HashMap.getString (e :: map) string =
          (HashMap.getString [e] string).or (map.getString string) := fun e map => getString_append [e] map string
      rw [List.map_cons, hcons, ih, hcons e map]
      by_cases hkey : element.key = calculateString string
      · rw [if_pos hkey, if_pos hkey]
        by_cases he : e.key = element.key
        · by_cases hstring : element.keyString = string
          · simp [getString, he, hkey, hstring]
          · simp [getString, he, hkey, hstring]
        · have hne : e.key ≠ calculateString string := hkey ▸ he
          simp [getString, he, hne]
      · rw [if_neg hkey, if_neg hkey]
        by_cases he : e.key = element.key
        · have hne : e.key ≠ calculateString string := he ▸ hkey
          simp [getString, he, hkey]
        · simp [he]

/-- A string is found in the element set last for its hash. -/
theorem getString_setString (map : HashMap) (keyString value string : Bytes) :
    (map.setString keyString value).getString string =
      if calculateString keyString = calculateString string then
        if keyString = string then some value else none
      else map.getString string := by
  rw [setString]
  dsimp only
  split
  case isTrue hany =>
    have hkey : ∃ e ∈ map, e.key = calculateString keyString := by simpa using hany
    have h := getString_overwrite map { key := calculateString keyString, keyString, value } string
    simpa [hkey] using h
  case isFalse hany =>
    have hnone : ∀ e ∈ map, e.key ≠ calculateString keyString := by simpa using hany
    rw [getString_append, getString_singleton]
    by_cases heq : calculateString keyString = calculateString string
    · rw [if_pos heq, getString_eq_none fun e hmem => heq ▸ hnone e hmem]
      simp
    · have hstring : keyString ≠ string := fun h => heq (congrArg calculateString h)
      simp [heq, hstring]

/-- The map of some entries: unless another string has the hash of it, a string has the value of its last entry. -/
theorem getString_entries {entries : List (Bytes × Bytes)} {string : Bytes}
    (h : ∀ entry ∈ entries, calculateString entry.1 = calculateString string → entry.1 = string) :
    HashMap.getString (entries.foldl (fun map entry => map.setString entry.1 entry.2) []) string =
      entries.reverse.lookup string := by
  induction entries using List.reverseRecOn with
  | nil => rfl
  | append_singleton entries entry ih =>
      obtain ⟨keyString, value⟩ := entry
      have hlast := h (keyString, value) (by simp)
      rw [List.foldl_append, List.foldl_cons, List.foldl_nil, getString_setString,
        ih fun entry hmem => h entry (by simp [hmem]), List.reverse_append, List.reverse_singleton, List.singleton_append,
        List.lookup_cons]
      by_cases heq : keyString = string
      · simp [heq]
      · have hne : calculateString keyString ≠ calculateString string := fun hhash => heq (hlast hhash)
        have hstring : (string == keyString) = false := by simpa using fun h : string = keyString => heq h.symm
        simp [hne, hstring]

end HashMap

namespace PasswdParser

theorem steps_append (p : PasswdParser) (xs ys : Bytes) :
    p.steps (xs ++ ys) = p.steps xs >>= fun p => p.steps ys := by
  induction xs generalizing p with
  | nil => rfl
  | cons x xs ih =>
      simp only [List.cons_append, steps]
      cases p.step x with
      | error e => rfl
      | ok p' => exact ih p'

/-- The bytes of a field are skipped up to its end. -/
theorem steps_field {p : PasswdParser} {field : Bytes} (hline : 10 ∉ field) (hfield : p.state ≠ .comment → 58 ∉ field) :
    p.steps field = .ok { p with mark := p.mark ++ field } := by
  induction field generalizing p with
  | nil => simp [steps]
  | cons x field ih =>
      have hx : x ≠ 10 := fun h => hline (by simp [h])
      have hstep : p.step x = .ok { p with mark := p.mark ++ [x] } := by
        cases hstate : p.state with
        | comment => simp [step, hstate, hx]
        | user | password =>
            have hcolon : x ≠ 58 := fun h => hfield (by simp [hstate]) (by simp [h])
            simp [step, hstate, hx, hcolon]
      have hrest := ih (fun h => hline (by simp [h])) (p := { p with mark := p.mark ++ [x] })
        fun hstate h => hfield hstate (by simp [h])
      rw [steps, hstep]
      simp only [bind, Except.bind, hrest]
      simp

theorem step_user {mark username : Bytes} {passwd : HashMap} {current : UInt8} (hcurrent : current = 58 ∨ current = 10)
    (hname : mark.length < passwdUsernameSize) :
    step { mark, username, passwd } current =
      .ok { state := if current = 58 then .password else .user, username := mark, passwd } := by
  simp only [step]
  rw [if_pos hcurrent, if_neg (by omega)]

theorem step_password {mark username : Bytes} {passwd : HashMap} {current : UInt8}
    (hcurrent : current = 58 ∨ current = 10) :
    step { state := .password, mark, username, passwd } current =
      .ok { state := if current = 58 then .comment else .user
            username
            passwd := passwd.setString (cString username) (cString mark) } := by
  simp only [step]
  rw [if_pos hcurrent]

theorem step_comment {mark username : Bytes} {passwd : HashMap} :
    step { state := .comment, mark, username, passwd } 10 = .ok { username, passwd } := rfl

end PasswdParser

namespace PasswdParser

/-- What follows a user name sets the password of it. -/
theorem steps_password {rest : Bytes} (username : Bytes) (passwd : HashMap) (hline : 10 ∉ rest) :
    steps { state := .password, username, passwd } (rest ++ [10]) = .ok
      { username, passwd := passwd.setString (cString username) (cString (rest.takeWhile (· ≠ 58))) } := by
  have hfield : steps { state := .password, username, passwd } (rest.takeWhile (· ≠ 58)) = _ :=
    steps_field (fun h => hline ((List.takeWhile_sublist _).subset h)) fun _ => not_mem_takeWhile_byte 58 rest
  rcases split_byte 58 rest with ⟨_, hall⟩ | ⟨comment, _, hcomment⟩
  · rw [hall] at hfield ⊢
    rw [steps_append, hfield]
    simp only [bind, Except.bind, steps, step_password (Or.inr rfl)]
    rfl
  · have hskip : steps
        { state := .comment, username
          passwd := passwd.setString (cString username) (cString (rest.takeWhile (· ≠ 58))) } comment = _ :=
      steps_field (fun h => hline (by rw [hcomment]; simp [h])) fun h => absurd rfl h
    have htext : rest ++ [10] = rest.takeWhile (· ≠ 58) ++ (58 :: (comment ++ [10])) := by
      conv_lhs => rw [hcomment]
      simp
    rw [htext, steps_append, hfield]
    simp only [bind, Except.bind, steps, step_password (Or.inl rfl), steps_append, if_true, List.nil_append, hskip,
      step_comment]

/-- A line whose user name fits sets the entry of the line, if it has one. -/
theorem steps_line {line username : Bytes} {passwd : HashMap} (hline : 10 ∉ line)
    (hname : (line.takeWhile (· ≠ 58)).length < passwdUsernameSize) :
    ∃ username', steps { username, passwd } (line ++ [10]) = .ok
      { username := username'
        passwd := match passwdEntry line with
          | none => passwd
          | some entry => passwd.setString (cString entry.1) (cString entry.2) } := by
  have hfield : steps { username, passwd } (line.takeWhile (· ≠ 58)) = _ :=
    steps_field (fun h => hline ((List.takeWhile_sublist _).subset h)) fun _ => not_mem_takeWhile_byte 58 line
  refine ⟨line.takeWhile (· ≠ 58), ?_⟩
  rcases split_byte 58 line with ⟨hnil, hall⟩ | ⟨rest, hdrop, hrest⟩
  · rw [passwdEntry, hnil]
    rw [hall] at hfield hname ⊢
    rw [steps_append, hfield]
    simp only [bind, Except.bind, steps, List.nil_append, step_user (Or.inr rfl) hname]
    rfl
  · have htext : line ++ [10] = line.takeWhile (· ≠ 58) ++ (58 :: (rest ++ [10])) := by
      conv_lhs => rw [hrest]
      simp
    have hrest_line : 10 ∉ rest := fun h => hline (by rw [hrest]; simp [h])
    have hpassword := steps_password (line.takeWhile (· ≠ 58)) passwd hrest_line
    rw [passwdEntry, hdrop, htext, steps_append, hfield]
    simp only [bind, Except.bind, steps, List.nil_append, step_user (Or.inl rfl) hname, if_true, hpassword]

end PasswdParser

/-- A line of text whose user name fits in the buffer of it. -/
structure PasswdLine (line : Bytes) : Prop where
  whole : 10 ∉ line
  text : 0 ∉ line
  name : (line.takeWhile (· ≠ 58)).length < passwdUsernameSize

/-- The fields of a line are text as the line is. -/
theorem PasswdLine.entry_text {line : Bytes} {entry : Bytes × Bytes} (h : PasswdLine line)
    (hentry : passwdEntry line = some entry) : 0 ∉ entry.1 ∧ 0 ∉ entry.2 := by
  rw [passwdEntry] at hentry
  cases hrest : line.dropWhile (· ≠ 58) with
  | nil =>
      rw [hrest] at hentry
      cases hentry
  | cons colon rest =>
      rw [hrest] at hentry
      cases hentry
      have hrest_text : 0 ∉ rest := fun hmem => h.text ((List.dropWhile_sublist _).subset (by rw [hrest]; simp [hmem]))
      exact ⟨fun hmem => h.text ((List.takeWhile_sublist _).subset hmem),
        fun hmem => hrest_text ((List.takeWhile_sublist _).subset hmem)⟩

theorem readPasswd_lines {lines : List Bytes} (h : ∀ line ∈ lines, PasswdLine line) :
    readPasswd (lines.flatMap (· ++ [10])) =
      .ok ((lines.filterMap passwdEntry).foldl (fun map entry => map.setString entry.1 entry.2) []) := by
  have hsteps : ∀ (lines : List Bytes) (username : Bytes) (passwd : HashMap), (∀ line ∈ lines, PasswdLine line) →
      ∃ username', PasswdParser.steps { username, passwd } (lines.flatMap (· ++ [10])) = .ok
        { username := username'
          passwd := (lines.filterMap passwdEntry).foldl (fun map entry => map.setString entry.1 entry.2) passwd } := by
    intro lines
    induction lines with
    | nil => exact fun username passwd _ => ⟨username, rfl⟩
    | cons line lines ih =>
        intro username passwd hlines
        have hline := hlines line (by simp)
        obtain ⟨username', hrun⟩ := PasswdParser.steps_line hline.whole hline.name
        rw [List.flatMap_cons, PasswdParser.steps_append, hrun]
        simp only [bind, Except.bind]
        cases hentry : passwdEntry line with
        | none =>
            rw [List.filterMap_cons_none hentry]
            exact ih username' passwd fun line hmem => hlines line (by simp [hmem])
        | some entry =>
            obtain ⟨huser, hpassword⟩ := hline.entry_text hentry
            dsimp only
            rw [List.filterMap_cons_some hentry, cString_of_text huser, cString_of_text hpassword]
            exact ih username' _ fun line hmem => hlines line (by simp [hmem])
  obtain ⟨username, hrun⟩ := hsteps lines [] [] h
  rw [readPasswd]
  simp only [bind, Except.bind]
  have hinitial : ({} : PasswdParser) = { username := [], passwd := [] } := rfl
  rw [hinitial, hrun]

theorem passwdEntries_lines {lines : List Bytes} (h : ∀ line ∈ lines, PasswdLine line) :
    passwdEntries (lines.flatMap (· ++ [10])) = lines.filterMap passwdEntry := by
  induction lines with
  | nil => rfl
  | cons line lines ih =>
      have hline := h line (by simp)
      have hrest := ih fun line hmem => h line (by simp [hmem])
      rw [passwdEntries] at hrest ⊢
      rw [List.flatMap_cons, List.append_assoc, List.singleton_append,
        List.splitOn_append_cons_self_of_not_mem hline.whole, List.filterMap_cons, List.filterMap_cons, hrest]

/-- Where the hash of a user is the one of no other user of a file of whole lines, the map read of the file has the
password that the file says. -/
theorem getString_readPasswd {lines : List Bytes} (h : ∀ line ∈ lines, PasswdLine line) :
    ∃ passwd, readPasswd (lines.flatMap (· ++ [10])) = .ok passwd ∧ ∀ user password,
      (∀ entry ∈ passwdEntries (lines.flatMap (· ++ [10])),
        calculateString entry.1 = calculateString user → entry.1 = user) →
      (passwd.getString user = some password ↔ FileMaps (lines.flatMap (· ++ [10])) user password) := by
  refine ⟨_, readPasswd_lines h, fun user password hhash => ?_⟩
  rw [passwdEntries_lines h] at hhash
  rw [HashMap.getString_entries hhash, FileMaps, passwdEntries_lines h]

end Viriatum
