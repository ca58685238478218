/-!
# Unsigned numerals

A numeral is an optional plus sign and one or more digits of a radix, with any number of leading
zeros. `read` goes from left to right and stops at the first fault: a character that is no digit,
or a digit with which the value so far would reach the limit.
-/

namespace HeaderMiner.Numeral

/-- Why a text is no numeral below the limit. -/
inductive Error where
  | empty
  /-- A character is no digit, or nothing follows the sign. -/
  | invalidDigit
  | tooLarge
deriving DecidableEq, Repr

def Error.message : Error → String
  | .empty => "cannot parse integer from empty string"
  | .invalidDigit => "invalid digit found in string"
  | .tooLarge => "number too large to fit in target type"

/-- The value of an ASCII digit or letter below the radix. -/
def digitValue (radix : Nat) (c : Char) : Option Nat :=
  let v :=
    if '0' ≤ c ∧ c ≤ '9' then c.toNat - '0'.toNat
    else if 'a' ≤ c ∧ c ≤ 'z' then c.toNat - 'a'.toNat + 10
    else if 'A' ≤ c ∧ c ≤ 'Z' then c.toNat - 'A'.toNat + 10
    else radix
  if v < radix then some v else none

/-- Continues a numeral whose digits so far have the value `acc`. -/
def readDigits (radix limit acc : Nat) : List Char → Except Error Nat
  | [] => .ok acc
  | c :: cs =>
    match digitValue radix c with
    | none => .error .invalidDigit
    | some d =>
      if acc * radix + d < limit then readDigits radix limit (acc * radix + d) cs
      else .error .tooLarge

/-- The value of a numeral, which has to stay below `limit`. -/
def read (radix limit : Nat) : List Char → Except Error Nat
  | [] => .error .empty
  | ['+'] => .error .invalidDigit
  | '+' :: cs => readDigits radix limit 0 cs
  | cs => readDigits radix limit 0 cs

end HeaderMiner.Numeral
