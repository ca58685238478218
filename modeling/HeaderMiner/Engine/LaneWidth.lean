/-!
# Lane widths

How many nonces one call of the engine hashes together.
-/

namespace HeaderMiner

inductive LaneWidth where
  | one | two | three | four
deriving DecidableEq, Repr

namespace LaneWidth

def count : LaneWidth → Nat
  | one => 1
  | two => 2
  | three => 3
  | four => 4

def ofCount? : Nat → Option LaneWidth
  | 1 => some one
  | 2 => some two
  | 3 => some three
  | 4 => some four
  | _ => none

def name : LaneWidth → String
  | one => "One"
  | two => "Two"
  | three => "Three"
  | four => "Four"

/-- The message for a count that is no lane width. -/
def outOfRange (count : Nat) : String :=
  "lane width must be between 1 and 4, got " ++ toString count

end LaneWidth

end HeaderMiner
