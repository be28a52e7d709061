import Viriatum.Commons.Passwd

/-!
# The files of users that are read exactly

A file of entries, one on each line, is read as the map from each user to the last password of it, but for the entries
that the parser cannot keep.
-/

namespace Viriatum

open Library Http2Connection

/-- An entry of a file of users, which its line can be taken apart into again. -/
structure PasswdFileEntry where
  user : Bytes
  password : Bytes
  comment : Option Bytes
  user_plain : 58 ∉ user ∧ 10 ∉ user
  password_plain : 58 ∉ password ∧ 10 ∉ password
  comment_plain : ∀ text ∈ comment, 10 ∉ text

namespace PasswdFileEntry

def pair (e : PasswdFileEntry) : Bytes × Bytes := (e.user, e.password)

/-- What stands behind the user and the colon. -/
def tail (e : PasswdFileEntry) : Bytes :=
  match e.comment with
  | none => e.password
  | some text => e.password ++ 58 :: text

def line (e : PasswdFileEntry) : Bytes := e.user ++ 58 :: e.tail

end PasswdFileEntry

/-- The text of some entries, one on each line, the last of which is ended by a newline or not. -/
def renderPasswd (ended : Bool) : List PasswdFileEntry → Bytes
  | [] => []
  | [last] => last.line ++ if ended then [10] else []
  | entry :: rest => entry.line ++ 10 :: renderPasswd ended rest

/-- The last password of a user. -/
def lastPassword (entries : List PasswdFileEntry) (user : Bytes) : Option Bytes :=
  (entries.map PasswdFileEntry.pair).reverse.lookup user

/-- The contents are read as the map from each user to the last password of it. -/
def ReadsExactly (contents : Bytes) (entries : List PasswdFileEntry) : Prop :=
  ∃ passwd, readPasswd contents = .ok passwd ∧ ∀ user, passwd.getString user = lastPassword entries user

/-- The parser keeps the last entry: its line is ended, or the password of it is, or the map has that password for the
user already. -/
def LastKept (ended : Bool) (entries : List PasswdFileEntry) : Prop :=
  ∀ last ∈ entries.getLast?, ended ∨ last.comment.isSome ∨
    (lastPassword entries.dropLast last.user).map cString = some last.password

/-- The entries that the parser can keep apart and whole. -/
structure PasswdKept (ended : Bool) (entries : List PasswdFileEntry) : Prop where
  fits : ∀ e ∈ entries, e.user.length < passwdUsernameSize
  text : ∀ e ∈ entries, 0 ∉ e.user
  apart : ∀ e ∈ entries, ∀ e' ∈ entries, calculateString e.user = calculateString e'.user → e.user = e'.user
  password_text : ∀ user password, lastPassword entries user = some password → 0 ∉ password
  last : LastKept ended entries

/-! ## The lines -/

theorem takeWhile_field {field rest : Bytes} {byte : UInt8} (h : byte ∉ field) :
    (field ++ byte :: rest).takeWhile (· ≠ byte) = field := by
  rw [List.takeWhile_append_of_pos fun x hx => by
    have hne : x ≠ byte := fun heq => h (heq ▸ hx)
    simpa using hne]
  simp

theorem dropWhile_field {field rest : Bytes} {byte : UInt8} (h : byte ∉ field) :
    (field ++ byte :: rest).dropWhile (· ≠ byte) = byte :: rest := by
  rw [List.dropWhile_append_of_pos fun x hx => by
    have hne : x ≠ byte := fun heq => h (heq ▸ hx)
    simpa using hne]
  simp

namespace PasswdFileEntry

theorem takeWhile_line (e : PasswdFileEntry) : e.line.takeWhile (· ≠ 58) = e.user := takeWhile_field e.user_plain.1

theorem takeWhile_tail (e : PasswdFileEntry) : e.tail.takeWhile (· ≠ 58) = e.password := by
  rw [tail]
  split
  · exact List.takeWhile_eq_self_iff.mpr fun x hx => by
      have hne : x ≠ 58 := fun heq => e.password_plain.1 (heq ▸ hx)
      simpa using hne
  · exact takeWhile_field e.password_plain.1

theorem newline_not_mem_tail (e : PasswdFileEntry) : 10 ∉ e.tail := by
  rw [tail]
  split
  · exact e.password_plain.2
  · next text hcomment =>
    have htext := e.comment_plain text hcomment
    simp [e.password_plain.2, htext]

theorem newline_not_mem_line (e : PasswdFileEntry) : 10 ∉ e.line := by
  simp [line, e.user_plain.2, e.newline_not_mem_tail]

theorem passwdEntry_line (e : PasswdFileEntry) : passwdEntry e.line = some e.pair := by
  have hrest : e.line.dropWhile (· ≠ 58) = 58 :: e.tail := dropWhile_field e.user_plain.1
  rw [passwdEntry, hrest]
  simp only [takeWhile_line, takeWhile_tail, pair]

end PasswdFileEntry

/-- The map once an entry is set, the fields of which end at a zero byte. -/
def HashMap.setEntry (map : HashMap) (e : PasswdFileEntry) : HashMap :=
  map.setString (cString e.user) (cString e.password)

namespace PasswdParser

/-- A line whose user name fits sets its entry. -/
theorem steps_entry (e : PasswdFileEntry) (username : Bytes) (passwd : HashMap)
    (hname : e.user.length < passwdUsernameSize) :
    ∃ username', steps { username, passwd } (e.line ++ [10]) =
      .ok { username := username', passwd := passwd.setEntry e } := by
  have hline : ∃ username', steps { username, passwd } (e.line ++ [10]) = _ :=
    steps_line e.newline_not_mem_line (by rw [e.takeWhile_line]; exact hname)
  rw [e.passwdEntry_line] at hline
  exact hline

/-- A user name that does not fit is written out of the buffer of it. -/
theorem steps_long (e : PasswdFileEntry) (username : Bytes) (passwd : HashMap) (rest : Bytes)
    (hname : passwdUsernameSize ≤ e.user.length) :
    steps { username, passwd } (e.line ++ rest) = .error .outOfBounds := by
  have hfield : steps { username, passwd } e.user = _ := steps_field e.user_plain.2 fun _ => e.user_plain.1
  rw [PasswdFileEntry.line, List.append_assoc, steps_append, hfield]
  simp only [bind, Except.bind, List.cons_append, steps, step, true_or, ↓reduceIte, List.nil_append, ge_iff_le, hname]

/-- A line that the file ends in, with no newline, sets its entry only where it has a comment. -/
theorem steps_last (e : PasswdFileEntry) (username : Bytes) (passwd : HashMap)
    (hname : e.user.length < passwdUsernameSize) :
    ∃ p, steps { username, passwd } e.line = .ok p ∧
      p.passwd = if e.comment.isSome then passwd.setEntry e else passwd := by
  have huser : steps { username, passwd } e.user = _ := steps_field e.user_plain.2 fun _ => e.user_plain.1
  have hpassword : steps { state := .password, username := e.user, passwd } e.password = _ :=
    steps_field e.password_plain.2 fun _ => e.password_plain.1
  rw [PasswdFileEntry.line, steps_append, huser]
  simp only [bind, Except.bind, steps, List.nil_append, step_user (Or.inl rfl) hname, ↓reduceIte]
  cases hcomment : e.comment with
  | none =>
      rw [PasswdFileEntry.tail, hcomment, hpassword]
      exact ⟨_, rfl, rfl⟩
  | some text =>
      have hskip : steps { state := .comment, username := e.user, passwd := passwd.setEntry e } text = _ :=
        steps_field (e.comment_plain text hcomment) fun h => absurd rfl h
      rw [HashMap.setEntry] at hskip
      simp only [PasswdFileEntry.tail, hcomment, steps_append, hpassword, bind, Except.bind, steps, List.nil_append,
        step_password (Or.inl rfl), ↓reduceIte, hskip]
      exact ⟨_, rfl, rfl⟩

end PasswdParser

/-! ## The whole text -/

/-- The entries that are set: the last one is lost where its password is not ended. -/
def setEntries (ended : Bool) : List PasswdFileEntry → List PasswdFileEntry
  | [] => []
  | [last] => if ended ∨ last.comment.isSome then [last] else []
  | entry :: rest => entry :: setEntries ended rest

namespace PasswdParser

theorem steps_render (ended : Bool) (entries : List PasswdFileEntry) (username : Bytes) (passwd : HashMap)
    (h : ∀ e ∈ entries, e.user.length < passwdUsernameSize) :
    ∃ p, steps { username, passwd } (renderPasswd ended entries) = .ok p ∧
      p.passwd = (setEntries ended entries).foldl HashMap.setEntry passwd := by
  induction entries generalizing username passwd with
  | nil => exact ⟨_, rfl, rfl⟩
  | cons e rest ih =>
      have hname := h e (by simp)
      cases rest with
      | nil =>
          cases ended with
          | true =>
              obtain ⟨username', hrun⟩ := steps_entry e username passwd hname
              exact ⟨_, hrun, by simp [setEntries]⟩
          | false =>
              obtain ⟨p, hrun, hpasswd⟩ := steps_last e username passwd hname
              refine ⟨p, by simpa [renderPasswd] using hrun, hpasswd.trans ?_⟩
              cases he : e.comment.isSome <;> simp [setEntries, he]
      | cons e' rest =>
          obtain ⟨username', hrun⟩ := steps_entry e username passwd hname
          obtain ⟨p, hrest, hpasswd⟩ := ih username' (passwd.setEntry e) fun e hmem => h e (by simp [hmem])
          have htext : renderPasswd ended (e :: e' :: rest) = e.line ++ [10] ++ renderPasswd ended (e' :: rest) := by
            simp [renderPasswd]
          refine ⟨p, ?_, hpasswd⟩
          rw [htext, steps_append, hrun]
          exact hrest

theorem steps_render_long {ended : Bool} {entries : List PasswdFileEntry} {e : PasswdFileEntry} (hmem : e ∈ entries)
    (hname : passwdUsernameSize ≤ e.user.length) (username : Bytes) (passwd : HashMap) :
    steps { username, passwd } (renderPasswd ended entries) = .error .outOfBounds := by
  induction entries generalizing username passwd with
  | nil => cases hmem
  | cons first rest ih =>
      have htext : ∃ tail, renderPasswd ended (first :: rest) = first.line ++ tail ∧
          (rest ≠ [] → tail = 10 :: renderPasswd ended rest) := by
        cases rest with
        | nil => exact ⟨_, rfl, fun h => absurd rfl h⟩
        | cons _ _ => exact ⟨_, rfl, fun _ => rfl⟩
      obtain ⟨tail, htext, htail⟩ := htext
      rw [htext]
      cases Nat.lt_or_ge first.user.length passwdUsernameSize with
      | inr hlong => exact steps_long first username passwd tail hlong
      | inl hfits =>
          cases hmem with
          | head => exact absurd hname (Nat.not_le_of_lt hfits)
          | tail _ hmem =>
              obtain ⟨username', hrun⟩ := steps_entry first username passwd hfits
              rw [htail (List.ne_nil_of_mem hmem), ← List.singleton_append, ← List.append_assoc, steps_append, hrun]
              exact ih hmem username' _

end PasswdParser

/-- A text is read exactly where every user name fits, into the map of the entries that are set. -/
theorem readPasswd_render {ended : Bool} {entries : List PasswdFileEntry} {passwd : HashMap} :
    readPasswd (renderPasswd ended entries) = .ok passwd ↔
      (∀ e ∈ entries, e.user.length < passwdUsernameSize) ∧
        passwd = (setEntries ended entries).foldl HashMap.setEntry [] := by
  rw [readPasswd]
  by_cases hfits : ∀ e ∈ entries, e.user.length < passwdUsernameSize
  · obtain ⟨p, hrun, hpasswd⟩ := PasswdParser.steps_render ended entries [] [] hfits
    have hinitial : ({} : PasswdParser) = { username := [], passwd := [] } := rfl
    rw [hinitial, hrun, ← hpasswd]
    simp only [bind, Except.bind, Except.ok.injEq]
    exact ⟨fun h => ⟨hfits, h.symm⟩, fun h => h.2.symm⟩
  · obtain ⟨e, hmem, hlong⟩ : ∃ e ∈ entries, passwdUsernameSize ≤ e.user.length := by simpa using hfits
    have hinitial : ({} : PasswdParser) = { username := [], passwd := [] } := rfl
    rw [hinitial, PasswdParser.steps_render_long hmem hlong]
    constructor
    · intro h
      cases h
    · exact fun h => absurd h.1 hfits

/-! ## What the map holds -/

namespace HashMap

/-- The elements have C strings for keys, and one element for each hash. -/
structure Keyed (map : HashMap) : Prop where
  text : ∀ e ∈ map, 0 ∉ e.keyString
  single : ∀ e ∈ map, ∀ e' ∈ map, e.key = e'.key → e = e'

theorem keyed_nil : Keyed [] := ⟨fun _ hmem => absurd hmem List.not_mem_nil, fun _ hmem => absurd hmem List.not_mem_nil⟩

theorem mem_setString {map : HashMap} {keyString value : Bytes} {e : HashMapElement}
    (h : e ∈ map.setString keyString value) :
    e = { key := calculateString keyString, keyString, value } ∨ e ∈ map ∧ e.key ≠ calculateString keyString := by
  rw [setString] at h
  dsimp only at h
  split at h
  case isTrue hany =>
    obtain ⟨e', hmem, rfl⟩ := List.mem_map.mp h
    by_cases hkey : e'.key = calculateString keyString
    · simp [hkey]
    · simp [hkey, hmem]
  case isFalse hany =>
    have hnone : ∀ e ∈ map, e.key ≠ calculateString keyString := by simpa using hany
    cases List.mem_append.mp h with
    | inl hmem => exact Or.inr ⟨hmem, hnone e hmem⟩
    | inr hmem => exact Or.inl (by simpa using hmem)

theorem Keyed.setString {map : HashMap} (h : map.Keyed) {keyString : Bytes} (htext : 0 ∉ keyString) (value : Bytes) :
    (map.setString keyString value).Keyed := by
  constructor
  · intro e hmem
    cases mem_setString hmem with
    | inl heq => rw [heq]; exact htext
    | inr hold => exact h.text e hold.1
  · intro e hmem e' hmem' hkey
    cases mem_setString hmem with
    | inl heq =>
        cases mem_setString hmem' with
        | inl heq' => rw [heq, heq']
        | inr hold' => exact absurd (by rw [← hkey, heq]) hold'.2
    | inr hold =>
        cases mem_setString hmem' with
        | inl heq' => exact absurd (by rw [hkey, heq']) hold.2
        | inr hold' => exact h.single e hold.1 e' hold'.1 hkey

theorem Keyed.setEntries {map : HashMap} (h : map.Keyed) (entries : List PasswdFileEntry) :
    (entries.foldl setEntry map).Keyed := by
  induction entries generalizing map with
  | nil => exact h
  | cons e rest ih => exact ih (h.setString (cString_ne_zero e.user) (cString e.password))

theorem mem_of_getString {map : HashMap} {string value : Bytes} (h : map.getString string = some value) :
    ∃ e ∈ map, e.key = calculateString string ∧ e.keyString = string := by
  rw [getString, Option.map_eq_some_iff] at h
  obtain ⟨e, hfind, -⟩ := h
  have hmatch := List.find?_some hfind
  exact ⟨e, List.mem_of_find?_eq_some hfind, by simpa using hmatch⟩

/-- A string that the map has a value for is a C string. -/
theorem Keyed.text_of_getString {map : HashMap} (h : map.Keyed) {string value : Bytes}
    (hget : map.getString string = some value) : 0 ∉ string := by
  obtain ⟨e, hmem, -, hstring⟩ := mem_of_getString hget
  rw [← hstring]
  exact h.text e hmem

/-- Of two strings with one hash the map has a value for one. -/
theorem Keyed.eq_of_hash {map : HashMap} (h : map.Keyed) {string string' value value' : Bytes}
    (hget : map.getString string = some value) (hget' : map.getString string' = some value')
    (hhash : calculateString string = calculateString string') : string = string' := by
  obtain ⟨e, hmem, hkey, hstring⟩ := mem_of_getString hget
  obtain ⟨e', hmem', hkey', hstring'⟩ := mem_of_getString hget'
  have heq := h.single e hmem e' hmem' (by rw [hkey, hkey', hhash])
  rw [← hstring, ← hstring', heq]

end HashMap

theorem lastPassword_append (entries : List PasswdFileEntry) (e : PasswdFileEntry) (user : Bytes) :
    lastPassword (entries ++ [e]) user = if e.user = user then some e.password else lastPassword entries user := by
  rw [lastPassword, List.map_append, List.reverse_append, List.map_singleton, List.reverse_singleton,
    List.singleton_append, PasswdFileEntry.pair, List.lookup_cons]
  by_cases h : e.user = user
  · simp [h]
  · have hne : (user == e.user) = false := by simpa using fun heq : user = e.user => h heq.symm
    simp [h, hne, lastPassword]

theorem lastPassword_mem {entries : List PasswdFileEntry} {e : PasswdFileEntry} (h : e ∈ entries) :
    ∃ password, lastPassword entries e.user = some password := by
  induction entries using List.reverseRecOn with
  | nil => cases h
  | append_singleton entries last ih =>
      rw [lastPassword_append]
      by_cases heq : last.user = e.user
      · exact ⟨_, if_pos heq⟩
      · rw [if_neg heq]
        cases List.mem_append.mp h with
        | inl hmem => exact ih hmem
        | inr hmem => exact absurd (by rw [List.mem_singleton.mp hmem]) heq

/-- Where the users are C strings of different hashes, the map holds the last passwords up to their zero bytes. -/
theorem getString_setEntries {entries : List PasswdFileEntry} (htext : ∀ e ∈ entries, 0 ∉ e.user)
    (hapart : ∀ e ∈ entries, ∀ e' ∈ entries, calculateString e.user = calculateString e'.user → e.user = e'.user)
    (user : Bytes) :
    HashMap.getString (entries.foldl HashMap.setEntry []) user = (lastPassword entries user).map cString := by
  induction entries using List.reverseRecOn with
  | nil => rfl
  | append_singleton entries e ih =>
      have hrest := ih (fun e hmem => htext e (by simp [hmem]))
        fun e hmem e' hmem' => hapart e (by simp [hmem]) e' (by simp [hmem'])
      rw [List.foldl_append, List.foldl_cons, List.foldl_nil, HashMap.setEntry,
        cString_of_text (htext e (by simp)), HashMap.getString_setString, hrest, lastPassword_append]
      by_cases huser : e.user = user
      · simp [huser]
      · rw [if_neg huser, if_neg huser]
        by_cases hhash : calculateString e.user = calculateString user
        · -- Another user would have the hash of this one, so the string is no user.
          rw [if_pos hhash]
          cases hlast : lastPassword entries user with
          | none => rfl
          | some password =>
              obtain ⟨pair, hmem, hpair⟩ : ∃ pair ∈ entries.map PasswdFileEntry.pair, pair.1 = user := by
                have hsome : ((entries.map PasswdFileEntry.pair).reverse.lookup user).isSome := by
                  rw [← lastPassword, hlast]
                  rfl
                obtain ⟨pair, hmem, heq⟩ := List.lookup_isSome_iff.mp hsome
                exact ⟨pair, List.mem_reverse.mp hmem, (by simpa using heq : user = pair.1).symm⟩
              obtain ⟨e', hmem', rfl⟩ := List.mem_map.mp hmem
              have heq := hapart e (by simp) e' (by simp [hmem']) (hhash.trans (congrArg calculateString hpair.symm))
              exact absurd (heq.trans hpair) huser
        · rw [if_neg hhash]

/-! ## The texts that are read exactly -/

theorem map_cString_eq {password : Option Bytes} :
    password.map cString = password ↔ ∀ text, password = some text → 0 ∉ text := by
  cases password with
  | none => simp
  | some text =>
      constructor
      · intro h text' htext
        cases htext
        rw [← Option.some.inj h]
        exact cString_ne_zero text
      · intro h
        rw [Option.map_some, cString_of_text (h text rfl)]

theorem setEntries_append (ended : Bool) (entries : List PasswdFileEntry) (e : PasswdFileEntry) :
    setEntries ended (entries ++ [e]) = entries ++ if ended ∨ e.comment.isSome then [e] else [] := by
  induction entries with
  | nil => rfl
  | cons first rest ih =>
      have hcons : setEntries ended (first :: (rest ++ [e])) = first :: setEntries ended (rest ++ [e]) := by
        cases rest <;> rfl
      rw [List.cons_append, hcons, ih, List.cons_append]

theorem setEntries_subset {ended : Bool} {entries : List PasswdFileEntry} {e : PasswdFileEntry}
    (h : e ∈ setEntries ended entries) : e ∈ entries := by
  induction entries using List.reverseRecOn with
  | nil => exact h
  | append_singleton entries last ih =>
      rw [setEntries_append] at h
      split at h
      · exact h
      · simp only [List.append_nil] at h
        simp [h]

/-- Of the entries that are set, the last passwords are those of all the entries exactly where the last entry is
kept. -/
theorem lastPassword_setEntries {ended : Bool} {entries : List PasswdFileEntry} :
    (∀ user, (lastPassword (setEntries ended entries) user).map cString = lastPassword entries user) ↔
      (∀ user password, lastPassword entries user = some password → 0 ∉ password) ∧ LastKept ended entries := by
  induction entries using List.reverseRecOn with
  | nil => simp [setEntries, lastPassword, LastKept]
  | append_singleton entries e =>
      rw [setEntries_append, LastKept]
      simp only [List.getLast?_append, List.getLast?_singleton, Option.some_or, Option.mem_def, Option.some.injEq,
        forall_eq', List.dropLast_concat]
      by_cases hkept : ended ∨ e.comment.isSome
      · rw [if_pos hkept]
        simp only [map_cString_eq]
        exact ⟨fun h => ⟨h, by rw [← or_assoc]; exact Or.inl hkept⟩, fun h => h.1⟩
      · rw [if_neg hkept, List.append_nil]
        simp only [← or_assoc, hkept, false_or]
        constructor
        · intro h
          constructor
          · intro user password hpassword
            rw [← h] at hpassword
            obtain ⟨text, -, rfl⟩ := Option.map_eq_some_iff.mp hpassword
            exact cString_ne_zero text
          · rw [h, lastPassword_append, if_pos rfl]
        · rintro ⟨htext, hlast⟩ user
          have happend := lastPassword_append entries e user
          by_cases huser : e.user = user
          · rw [happend, if_pos huser, ← huser, hlast]
          · rw [if_neg huser] at happend
            rw [happend, map_cString_eq]
            intro password hpassword
            exact htext user password (happend.trans hpassword)

/-- A file is read as the map from each user to the last password of it exactly where the parser keeps the entries. -/
theorem readsExactly_iff_kept {ended : Bool} {entries : List PasswdFileEntry} :
    ReadsExactly (renderPasswd ended entries) entries ↔ PasswdKept ended entries := by
  constructor
  · rintro ⟨passwd, hread, hget⟩
    obtain ⟨hfits, rfl⟩ := readPasswd_render.mp hread
    have hkeyed : HashMap.Keyed ((setEntries ended entries).foldl HashMap.setEntry []) :=
      HashMap.keyed_nil.setEntries _
    have hfound : ∀ e ∈ entries, ∃ password, HashMap.getString _ e.user = some password := fun e hmem => by
      obtain ⟨password, hpassword⟩ := lastPassword_mem hmem
      exact ⟨password, (hget e.user).trans hpassword⟩
    have htext : ∀ e ∈ entries, 0 ∉ e.user := fun e hmem => by
      obtain ⟨_, hpassword⟩ := hfound e hmem
      exact hkeyed.text_of_getString hpassword
    have hapart : ∀ e ∈ entries, ∀ e' ∈ entries,
        calculateString e.user = calculateString e'.user → e.user = e'.user := fun e hmem e' hmem' hhash => by
      obtain ⟨_, hpassword⟩ := hfound e hmem
      obtain ⟨_, hpassword'⟩ := hfound e' hmem'
      exact hkeyed.eq_of_hash hpassword hpassword' hhash
    have hlast := lastPassword_setEntries.mp fun user => by
      rw [← hget, getString_setEntries (fun e hmem => htext e (setEntries_subset hmem))
        fun e hmem e' hmem' => hapart e (setEntries_subset hmem) e' (setEntries_subset hmem')]
    exact ⟨hfits, htext, hapart, hlast.1, hlast.2⟩
  · intro h
    refine ⟨_, readPasswd_render.mpr ⟨h.fits, rfl⟩, fun user => ?_⟩
    rw [getString_setEntries (fun e hmem => h.text e (setEntries_subset hmem))
      fun e hmem e' hmem' => h.apart e (setEntries_subset hmem) e' (setEntries_subset hmem')]
    exact lastPassword_setEntries.mpr ⟨h.password_text, h.last⟩ user

/-- Exactly which files are read as the map from each user to the last password of it. -/
theorem passwd_files_read (ended : Bool) (entries : List PasswdFileEntry) :
    ReadsExactly (renderPasswd ended entries) entries ↔ PasswdKept ended entries := readsExactly_iff_kept

/-- A user whose line ends with the file is not in the map. -/
theorem not_passwd_files_read :
    ¬ ∀ (ended : Bool) (entries : List PasswdFileEntry), ReadsExactly (renderPasswd ended entries) entries := by
  intro h
  have hkept := readsExactly_iff_kept.mp (h false
    [{ user := bytes "a", password := bytes "b", comment := none
       user_plain := by decide, password_plain := by decide, comment_plain := nofun }])
  cases hkept.last _ rfl with
  | inl hended => cases hended
  | inr hlast =>
      cases hlast with
      | inl hcomment => cases hcomment
      | inr hpassword => cases hpassword

end Viriatum
