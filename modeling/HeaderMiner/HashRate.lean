import HeaderMiner.Decimal.Fixed

/-!
# Hash rates

Spans of time are counted in nanoseconds; a rate is a float for display.
-/

namespace HeaderMiner

def nanosPerSecond : Nat := 1000000000

def nanosPerMilli : Nat := 1000000

def secondsOf (nanos : Nat) : Float :=
  (nanos / nanosPerSecond).toUInt64.toFloat + (nanos % nanosPerSecond).toUInt64.toFloat / 1e9

/-- A span of time in whole milliseconds, modulo 2⁶⁴. -/
def wholeMillis (nanos : Nat) : Nat := nanos / nanosPerMilli % UInt64.size

structure HashRate where
  perSecond : Float

namespace HashRate

/-- The rate of some hashes over a span of time, zero over an empty one. -/
def ofHashes (hashes nanos : Nat) : HashRate :=
  let seconds := secondsOf nanos
  if seconds > 0.0 then ⟨hashes.toUInt64.toFloat / seconds⟩ else ⟨0.0⟩

/-- The displayed rate, such as `1.50 KH/s`. -/
def display (r : HashRate) : String :=
  Decimal.scaled [(1e9, " GH/s"), (1e6, " MH/s"), (1e3, " KH/s")] " H/s" r.perSecond

end HashRate

end HeaderMiner
