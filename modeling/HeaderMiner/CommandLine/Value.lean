import HeaderMiner.Engine.LaneWidth
import HeaderMiner.Text.Numeral

/-!
# Values on the command line

Compact targets are written in hexadecimal with any number of `0x` marks in front, lane widths in
decimal.
-/

namespace HeaderMiner.CommandLine

/-- Drops all `0x` marks in front. -/
def dropMarks : List Char → List Char
  | '0' :: 'x' :: text => dropMarks text
  | text => text

def readBits (text : String) : Except Numeral.Error UInt32 :=
  (Numeral.read 16 UInt32.size (dropMarks text.toList)).map (·.toUInt32)

def readCount (text : String) : Except Numeral.Error UInt64 :=
  (Numeral.read 10 UInt64.size text.toList).map (·.toUInt64)

inductive LanesError where
  | numeral (error : Numeral.Error)
  | outOfRange (count : Nat)
deriving DecidableEq, Repr

def LanesError.message : LanesError → String
  | .numeral error => error.message
  | .outOfRange count => LaneWidth.outOfRange count

def readLanes (text : String) : Except LanesError LaneWidth :=
  match Numeral.read 10 UInt64.size text.toList with
  | .error e => .error (.numeral e)
  | .ok n =>
    match LaneWidth.ofCount? n with
    | none => .error (.outOfRange n)
    | some width => .ok width

end HeaderMiner.CommandLine
