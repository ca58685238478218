import HeaderMiner.Target
import HeaderMiner.Decimal.Fixed

/-!
# Difficulty

The difficulty of a target is the easiest classical target divided by it, as a float for display.
-/

namespace HeaderMiner.Difficulty

/-- The compact form of the target with difficulty one. -/
def oneBits : UInt32 := 0x1d00ffff

/-- A float near the target: its eight leading nonzero bytes, scaled. -/
def approximate (t : Target) : Float :=
  match t.bytes.toList.findIdx? (· != 0) with
  | none => 0.0
  | some i =>
    let lead := (List.range 8).foldl
      (fun (v : UInt64) k => (v <<< 8) ||| (t.bytes[i + k]?.getD 0).toUInt64) 0
    lead.toFloat.scaleB (((31 - i) * 8 : Nat) - 56)

/-- The difficulty of a compact target, infinite for the target zero. -/
def ofBits (bits : UInt32) : Float :=
  let current := approximate (Target.ofBits bits)
  if current == 0.0 then 1.0 / 0.0 else approximate (Target.ofBits oneBits) / current

/-- The displayed difficulty, such as `1.23T`. -/
def display (x : Float) : String :=
  Decimal.scaled [(1e15, "P"), (1e12, "T"), (1e9, "G"), (1e6, "M"), (1e3, "K")] "" x

end HeaderMiner.Difficulty
