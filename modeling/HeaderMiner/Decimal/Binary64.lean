/-!
# Double-precision numbers taken apart

`Binary64.ofFloat` decodes a float into an exact value: a sign and a natural number times a power of
two. `roundDiv` rounds a quotient to the nearest natural number, ties to even.
-/

namespace HeaderMiner.Decimal

inductive Binary64 where
  | nan
  | infinite (negative : Bool)
  /-- The number `mantissa · 2 ^ exponent`, with its sign. -/
  | finite (negative : Bool) (mantissa : Nat) (exponent : Int)
deriving DecidableEq, Repr

/-- The leading bit of a mantissa, 2⁵², which is not stored with normal numbers. -/
def implicitBit : Nat := 0x10000000000000

/-- Takes a float apart: one bit of sign, eleven of exponent and 52 of mantissa. -/
def Binary64.ofFloat (x : Float) : Binary64 :=
  let bits := x.toBits.toNat
  let upper := bits / implicitBit
  let negative := upper / 2048 == 1
  let biased := upper % 2048
  let fraction := bits % implicitBit
  if biased = 2047 then if fraction = 0 then .infinite negative else .nan
  else if biased = 0 then .finite negative fraction (-1074)
  else .finite negative (implicitBit + fraction) ((biased : Int) - 1075)

/-- The quotient rounded to the nearest natural number, to the even one of two equally near. -/
def roundDiv (num den : Nat) : Nat :=
  let q := num / den
  let r := num % den
  if 2 * r < den ∨ (2 * r = den ∧ q % 2 = 0) then q else q + 1

/-- Numerator and denominator of `m · 2 ^ e`. -/
def ratio (m : Nat) (e : Int) : Nat × Nat := (m * Nat.pow 2 e.toNat, Nat.pow 2 (-e).toNat)

end HeaderMiner.Decimal
