import HeaderMiner.Decimal.Binary64

/-!
# A fixed number of decimals

The exact value is rounded to two decimals, an exact half to the even digit. The sign stays, also on
a zero.
-/

namespace HeaderMiner.Decimal

/-- A count of hundredths with a point before its last two digits. -/
def hundredths (n : Nat) : String :=
  let cents := toString (n % 100)
  toString (n / 100) ++ "." ++ (if n % 100 < 10 then "0" ++ cents else cents)

def twoPlaces (x : Float) : String :=
  match Binary64.ofFloat x with
  | .nan => "NaN"
  | .infinite negative => if negative then "-inf" else "inf"
  | .finite negative m e =>
    let (num, den) := ratio m e
    (if negative then "-" else "") ++ hundredths (roundDiv (100 * num) den)

/-- A number with two decimals in the first unit that it reaches, of units in falling order. -/
def scaled (units : List (Float × String)) (plain : String) (x : Float) : String :=
  match units.find? (fun (size, _) => size <= x) with
  | some (size, suffix) => twoPlaces (x / size) ++ suffix
  | none => twoPlaces x ++ plain

end HeaderMiner.Decimal
