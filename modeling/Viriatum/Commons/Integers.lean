import Viriatum.Commons.Buffer

/-!
# Numbers in strings

The functions of the standard library that read the number at the start of a string.
-/

namespace Viriatum

open Http2Connection

def isSpace (byte : UInt8) : Bool := byte = 32 ∨ (9 ≤ byte ∧ byte ≤ 13)

def isDigit (byte : UInt8) : Bool := 48 ≤ byte ∧ byte ≤ 57

/-- The sign and the digits at the start of a string. -/
def signedDigits (string : Bytes) : Bool × Bytes :=
  match string.dropWhile isSpace with
  | 45 :: rest => (true, rest.takeWhile isDigit)
  | 43 :: rest => (false, rest.takeWhile isDigit)
  | rest => (false, rest.takeWhile isDigit)

def digitsValue (digits : Bytes) : Nat := digits.foldl (fun value byte => value * 10 + (byte.toNat - 48)) 0

/-- The number at the start of a string, if there are digits. -/
def strtol (string : Bytes) : Option Int :=
  let (negative, digits) := signedDigits string
  if digits = [] then none
  else some (if negative then -(digitsValue digits : Int) else digitsValue digits)

/-- The unsigned number of 64 bits at the start of a string: the largest one where it has no room, and the complement of
one with a sign. -/
def strtoull (string : Bytes) : Nat :=
  let (negative, digits) := signedDigits string
  let value := digitsValue digits
  if value ≥ 2 ^ 64 then 2 ^ 64 - 1
  else if negative then (2 ^ 64 - value) % 2 ^ 64
  else value

/-- An unsigned number of 64 bits as a signed one. -/
def toLongLong (value : Nat) : Int := if value < 2 ^ 63 then value else (value : Int) - 2 ^ 64

theorem strtoull_lt (string : Bytes) : strtoull string < 2 ^ 64 := by
  rw [strtoull]
  dsimp only
  split
  · decide
  · split <;> omega

end Viriatum
