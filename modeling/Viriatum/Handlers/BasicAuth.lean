import Viriatum.Handlers.Authorization

/-!
# Who is let through

The handler of the files lets a request through on the credentials of the file of users, where the verification comes
to its end. An error on the way to it leaves the request let through.
-/

namespace Viriatum

open Library Http2Connection

/-- The value is the scheme followed by a text of base 64 of a user and of the password that the file maps it to. -/
def Credentials (contents : Option Bytes) (value : Bytes) : Prop :=
  ∃ file token user password, contents = some file ∧ value = bytes "Basic " ++ token ∧ 58 ∉ user ∧
    Base64.decode token = some (user ++ 58 :: password) ∧ FileMaps file user password

/-- The handler comes to a decision, which is the one that the credentials call for. -/
def AccessAgrees (files : Bytes → Option Bytes) (authFile value : Bytes) : Prop :=
  ∃ granted, grantsAccess files authFile (some value) = .ok granted ∧
    (granted = true ↔ Credentials (files authFile) value)

/-- What follows the first space of a value. -/
def authToken (value : Bytes) : Bytes := ((cString value).dropWhile (· ≠ 32)).drop 1

def authUser (data : Bytes) : Bytes := data.takeWhile (· ≠ 58)

def authPassword (data : Bytes) : Bytes := (data.dropWhile (· ≠ 58)).drop 1

/-- The map read of the file has the password for the user, both of them cut at a zero byte. -/
def Matches (passwd : HashMap) (data : Bytes) : Prop :=
  passwd.getString (cString (authUser data)) = some (cString (authPassword data))

instance (passwd : HashMap) (data : Bytes) : Decidable (Matches passwd data) := inferInstanceAs (Decidable (_ = _))

/-- The value is the scheme followed by a text of base 64. -/
def Basic (value : Bytes) : Prop :=
  value = bytes "Basic " ++ authToken value ∧ (Base64.decode (authToken value)).isSome

instance (value : Bytes) : Decidable (Basic value) := inferInstanceAs (Decidable (_ ∧ _))

/-- A value whose verification comes to its end: it fits in the context, the text behind its space is decoded within
the buffers into a user and a password, and the file is read. What matches is in the form of the scheme, and the map
read of the file says of the user what the file does. -/
structure Verified (files : Bytes → Option Bytes) (authFile value data contents : Bytes) (passwd : HashMap) : Prop where
  fits : value.length < authBufferSize
  space : 32 ∈ cString value
  decoded : decodeBase64 (authToken value) = .ok data
  colon : 58 ∈ data
  file : files authFile = some contents
  read : readPasswd contents = .ok passwd
  basic : Matches passwd data → Basic value
  mapped : Basic value → (Matches passwd data ↔ FileMaps contents (authUser data) (authPassword data))

/-! ## Values in the form of the scheme -/

theorem cString_basic {token : Bytes} (h : 0 ∉ token) : cString (bytes "Basic " ++ token) = bytes "Basic " ++ token :=
  cString_of_text (by simp [bytes, h])

theorem authToken_basic {token : Bytes} (h : 0 ∉ token) : authToken (bytes "Basic " ++ token) = token := by
  rw [authToken, cString_basic h]
  simp [bytes]

theorem split_user (user password : Bytes) (h : 58 ∉ user) :
    authUser (user ++ 58 :: password) = user ∧ authPassword (user ++ 58 :: password) = password := by
  have hall : ∀ byte ∈ user, (decide (byte ≠ 58)) = true := fun byte hmem => by
    have hne : byte ≠ 58 := fun heq => h (heq ▸ hmem)
    simpa using hne
  rw [authUser, authPassword, List.takeWhile_append_of_pos hall, List.dropWhile_append_of_pos hall]
  simp

theorem join_user {data : Bytes} (h : 58 ∈ data) : authUser data ++ 58 :: authPassword data = data := by
  rcases split_byte 58 data with ⟨_, hall⟩ | ⟨rest, hdrop, hrest⟩
  · exact absurd (by rw [hall]; exact h) (not_mem_takeWhile_byte 58 data)
  · rw [authUser, authPassword, hdrop]
    exact hrest.symm

/-- Credentials are in the form of the scheme, and their text is decoded within the buffers. -/
theorem Credentials.basic {contents : Option Bytes} {value : Bytes} (h : Credentials contents value)
    (hfits : value.length < authBufferSize) :
    Basic value ∧ 32 ∈ cString value ∧ ∃ data, decodeBase64 (authToken value) = .ok data ∧ 58 ∈ data := by
  obtain ⟨file, token, user, password, _, rfl, _, hdecode, _⟩ := h
  have htext := Base64.not_mem_zero hdecode
  have hne : token ≠ [] := by
    rintro rfl
    simp [Base64.decode] at hdecode
  rw [Basic, authToken_basic htext, cString_basic htext, hdecode]
  have hshort : token.length ≤ 2 ^ 32 := by
    rw [List.length_append, authBufferSize] at hfits
    omega
  exact ⟨⟨rfl, rfl⟩, by simp [bytes], _, decodeBase64_of_decode hdecode hne hshort, by simp⟩

/-- A value in the form of the scheme is credentials where the file maps the user to the password. -/
theorem credentials_iff {file value data : Bytes} (hbasic : Basic value) (hdecode : decodeBase64 (authToken value) = .ok data)
    (hcolon : 58 ∈ data) (hfits : value.length < authBufferSize) : Credentials (some file) value ↔ FileMaps file (authUser data) (authPassword data) := by
  obtain ⟨hvalue, htext⟩ := hbasic
  obtain ⟨data', hdata⟩ := Option.isSome_iff_exists.mp htext
  have hne : authToken value ≠ [] := fun hnil => by
    rw [hnil] at hdecode
    cases hdecode
  have hshort : (authToken value).length ≤ 2 ^ 32 := by
    rw [hvalue, List.length_append, authBufferSize] at hfits
    omega
  have hsame := decodeBase64_of_decode hdata hne hshort
  rw [hdecode, Except.ok.injEq] at hsame
  subst hsame
  constructor
  · rintro ⟨file', token, user, password, hfile, hvalue', huser, hdecode', hmaps⟩
    cases hfile
    rw [hvalue', authToken_basic (Base64.not_mem_zero hdecode'), hdecode', Option.some.injEq] at hdata
    obtain ⟨hu, hp⟩ := split_user user password huser
    rw [← hdata, hu, hp]
    exact hmaps
  · intro hmaps
    exact ⟨file, authToken value, authUser data, authPassword data, rfl, hvalue, not_mem_takeWhile_byte 58 data,
      by rw [hdata, join_user hcolon], hmaps⟩

/-! ## The decision -/

section Decision

variable {files : Bytes → Option Bytes} {authFile value : Bytes}

/-- How the verification of a value ends, by the steps it gets past. -/
inductive AuthEnd (files : Bytes → Option Bytes) (authFile value : Bytes) : Except Fault Bool → Prop
  | noSpace (hspace : 32 ∉ cString value) : AuthEnd files authFile value (.ok true)
  | notDecoded {fault : Fault} (hdata : decodeBase64 (authToken value) = .error fault) :
      AuthEnd files authFile value (.error fault)
  | noColon {data : Bytes} (hspace : 32 ∈ cString value) (hdata : decodeBase64 (authToken value) = .ok data)
      (hcolon : 58 ∉ data) : AuthEnd files authFile value (.ok true)
  | notRead {fault : Fault}
      (hread : ∀ contents, files authFile = some contents → ∀ passwd, readPasswd contents ≠ .ok passwd) :
      AuthEnd files authFile value (.error fault)
  | read {data contents : Bytes} {passwd : HashMap} (hspace : 32 ∈ cString value)
      (hdata : decodeBase64 (authToken value) = .ok data) (hcolon : 58 ∈ data) (hfile : files authFile = some contents)
      (hread : readPasswd contents = .ok passwd) :
      AuthEnd files authFile value (.ok (decide (Matches passwd data)))

theorem length_cString_le (data : Bytes) : (cString data).length ≤ data.length :=
  (List.takeWhile_sublist _).length_le

theorem grantsAccess_end (hdefault : authFile ≠ bytes "$default") (hfits : value.length < authBufferSize) :
    AuthEnd files authFile value (grantsAccess files authFile (some value)) := by
  have hgrants : grantsAccess files authFile (some value) =
      authFileHttp files authFile (cString value) true >>= fun outcome => .ok outcome.result := by
    rw [grantsAccess, keepAuthorization, if_neg (by omega)]
    simp only [bind, Except.bind, authHttp, if_neg hdefault]
  have hcut := length_cString_le value
  rw [hgrants, authFileHttp]
  rcases split_byte 32 (cString value) with ⟨hdrop, hall⟩ | ⟨token, hdrop, hvalue⟩
  · rw [hdrop]
    exact .noSpace (hall ▸ not_mem_takeWhile_byte 32 (cString value))
  · have htoken : authToken value = token := by rw [authToken, hdrop]; rfl
    have hspace : 32 ∈ cString value := by rw [hvalue]; simp
    have hlength : token.length < value.length := by
      have := congrArg List.length hvalue
      rw [List.length_append, List.length_cons] at this
      omega
    rw [hdrop]
    simp only
    cases hdata : decodeBase64 token with
    | error fault => exact .notDecoded (htoken ▸ hdata)
    | ok data =>
        have hdata_length := decodeBase64_length hdata
        simp only [bind, Except.bind]
        rcases split_byte 58 data with ⟨hdrop', hall⟩ | ⟨password, hdrop', hjoin⟩
        · rw [hdrop']
          exact .noColon hspace (htoken ▸ hdata) (hall ▸ not_mem_takeWhile_byte 58 data)
        · have hpassword : authPassword data = password := by rw [authPassword, hdrop']; rfl
          have hsum := congrArg List.length hjoin
          rw [List.length_append, List.length_cons] at hsum
          rw [hdrop']
          simp only
          rw [if_neg (by omega)]
          have hcolon : 58 ∈ data := by rw [hjoin]; simp
          rw [processPasswdFile]
          cases hfile : files authFile with
          | none => exact .notRead fun contents h => by rw [hfile] at h; cases h
          | some contents =>
              cases hread : readPasswd contents with
              | error fault =>
                  simp only [bind, Except.bind, hread]
                  refine .notRead fun contents' h passwd hok => ?_
                  rw [hfile, Option.some.injEq] at h
                  rw [← h, hread] at hok
                  cases hok
              | ok passwd =>
                  simp only [bind, Except.bind, hread]
                  have hend := AuthEnd.read hspace (htoken ▸ hdata) hcolon hfile hread
                  simp only [Matches, authUser, hpassword] at hend
                  exact hend

end Decision

/-! ## Samples -/

def usersPath : Bytes := bytes "users"

/-- The file of a user. -/
def usersFile (path : Bytes) : Option Bytes := if path = usersPath then some (bytes "alice:secret\n") else none

end Viriatum
