import HeaderMiner.Decimal.Binary64

/-!
# The fewest digits that read back

A positive float stands for all reals that round to it. `shortest` finds the decimal number with the
fewest digits among them, and of those the one nearest to the float: for one digit, two digits and so
on it tests the two neighbours of the float on that decimal grid, in exact arithmetic.
-/

namespace HeaderMiner.Decimal

/-- A decimal number `digits · 10 ^ exponent`. -/
structure Scientific where
  digits : Nat
  exponent : Int
deriving DecidableEq, Repr

/-- The reals that round to `m · 2 ^ e`, as multiples of `2 ^ (e - 2)`. -/
structure Interval where
  low : Nat
  middle : Nat
  high : Nat
  /-- The two ends round to the float as well. -/
  closed : Bool

/-- The neighbour below a power of two is only half as far away as the one above. -/
def Interval.ofFloat (m : Nat) (e : Int) : Interval where
  low := if m = implicitBit ∧ e ≠ -1074 then 4 * m - 1 else 4 * m - 2
  middle := 4 * m
  high := 4 * m + 2
  closed := m % 2 == 0

/-- The position of the leading decimal digit of a positive quotient: `10 ^ p ≤ num / den`, with `p` as
large as possible. -/
def leadingPower (num den : Nat) : Int :=
  let size (n : Nat) : Nat := (Nat.toDigits 10 n).length
  if den ≤ num then size (num / den) - 1
  else
    let j := size (den / num)
    if den ≤ num * Nat.pow 10 (j - 1) then 1 - j else -j

/-- The nearer of the neighbours of the interval's middle that are multiples of `10 ^ k` and lie in the
interval; of two equally near ones the even multiple. The interval's unit is `2 ^ e`. -/
def Interval.onGrid (i : Interval) (e k : Int) : Option Nat :=
  let (unit, fine) := ratio 1 e
  let (grid, scale) : Nat × Nat := (Nat.pow 10 k.toNat, Nat.pow 10 (-k).toNat)
  -- a multiple `q` of the grid is compared with `n` units as `q * step` with `n * size`
  let step := grid * fine
  let size := unit * scale
  let inside (q : Nat) : Bool :=
    if i.closed then i.low * size ≤ q * step && q * step ≤ i.high * size
    else i.low * size < q * step && q * step < i.high * size
  let q := i.middle * size / step
  let below := i.middle * size - q * step
  let above := (q + 1) * step - i.middle * size
  match inside q, inside (q + 1) with
  | true, true => some (if below < above ∨ (below = above ∧ q % 2 = 0) then q else q + 1)
  | true, false => some q
  | false, true => some (q + 1)
  | false, false => none

/-- The number without trailing zeros among its digits, of which there are at most `fuel`. -/
def Scientific.trim : (fuel : Nat) → Scientific → Scientific
  | 0, s => s
  | fuel + 1, s =>
    if s.digits % 10 = 0 ∧ s.digits ≠ 0 then trim fuel ⟨s.digits / 10, s.exponent + 1⟩ else s

/-- The shortest decimal number that reads back as `m · 2 ^ e`, for `m > 0`. Seventeen digits always
suffice. -/
def shortest (m : Nat) (e : Int) : Scientific :=
  let i := Interval.ofFloat m e
  let (num, den) := ratio m e
  let p := leadingPower num den
  let found := (List.range 17).findSome? fun (n : Nat) =>
    (i.onGrid (e - 2) (p - n)).map fun q => (⟨q, p - n⟩ : Scientific)
  (found.getD ⟨0, 0⟩).trim 20

end HeaderMiner.Decimal
