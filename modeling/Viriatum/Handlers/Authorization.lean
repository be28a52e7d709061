import Viriatum.Commons.Passwd

/-!
# Basic authentication

The verification of the value of an authorization field against a file of users, and what the handler of the files
makes of it.
-/

namespace Viriatum

open Library Http2Connection

def defaultAuthHttp : Bytes := bytes "Basic cm9vdDpyb290"

/-- The size of the buffers of the user name and of the password, and of the one of the field. -/
def authBufferSize : Nat := 128

/-- What a verification leaves: the error it has raised, if any, and the flag of the result. -/
structure AuthOutcome where
  error : Option String
  result : Bool
deriving DecidableEq, Repr

def authDefaultHttp (authorization : Bytes) : AuthOutcome :=
  { error := none, result := authorization = defaultAuthHttp }

/-- Verifies the value of a field against a file; an error leaves the flag of the result as it was given. -/
def authFileHttp (files : Bytes → Option Bytes) (authFile authorization : Bytes) (result : Bool) :
    Except Fault AuthOutcome :=
  match authorization.dropWhile (· ≠ 32) with
  | [] => .ok { error := some "Authorization value not valid", result }
  | _ :: authorizationB64 => do
      let authorizationD ← decodeBase64 authorizationB64
      match authorizationD.dropWhile (· ≠ 58) with
      | [] => .ok { error := some "No password separator found in authorization", result }
      | _ :: password => do
          let username := authorizationD.takeWhile (· ≠ 58)
          if username.length ≥ authBufferSize ∨ password.length ≥ authBufferSize then .error .outOfBounds
          else
            match ← processPasswdFile files authFile with
            | none => .error .unset
            | some passwd =>
                .ok { error := none, result := passwd.getString (cString username) = some (cString password) }

def authHttp (files : Bytes → Option Bytes) (authFile authorization : Bytes) (result : Bool) :
    Except Fault AuthOutcome :=
  if authFile = bytes "$default" then .ok (authDefaultHttp authorization)
  else authFileHttp files authFile authorization result

/-- Keeps the value of the authorization field in the context of the handler. -/
def keepAuthorization (value : Bytes) : Except Fault Bytes :=
  if value.length ≥ authBufferSize then .error .outOfBounds else .ok value

/-- Whether the handler of the files lets a request to a location with a file of users through: the flag is set before
the verification, and the error of it is not looked at. -/
def grantsAccess (files : Bytes → Option Bytes) (authFile : Bytes) (authorization : Option Bytes) : Except Fault Bool :=
  match authorization with
  | none => .ok false
  | some value => do
      let authorization ← keepAuthorization value
      let outcome ← authHttp files authFile (cString authorization) true
      .ok outcome.result

end Viriatum
