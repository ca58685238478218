/-!
# Byte strings of a fixed size

`Bytes n` is a string of exactly `n` bytes. Words are read from and written to it in either byte
order, and a string can be read as a number in base 256 from either end.
-/

namespace HeaderMiner

abbrev Bytes (n : Nat) := Vector UInt8 n

/-- The word with bytes `a b c d`, most significant first. -/
def wordOfBytes (a b c d : UInt8) : UInt32 :=
  (a.toUInt32 <<< 24) ||| (b.toUInt32 <<< 16) ||| (c.toUInt32 <<< 8) ||| d.toUInt32

/-- The word with its four bytes in reverse order. -/
def swapBytes (w : UInt32) : UInt32 :=
  wordOfBytes w.toUInt8 (w >>> 8).toUInt8 (w >>> 16).toUInt8 (w >>> 24).toUInt8

namespace Bytes

variable {n : Nat}

def zero (n : Nat) : Bytes n := Vector.replicate n 0

def ofWordLE (w : UInt32) : Bytes 4 :=
  #v[w.toUInt8, (w >>> 8).toUInt8, (w >>> 16).toUInt8, (w >>> 24).toUInt8]

def ofWordBE (w : UInt32) : Bytes 4 :=
  #v[(w >>> 24).toUInt8, (w >>> 16).toUInt8, (w >>> 8).toUInt8, w.toUInt8]

def toWordLE (b : Bytes 4) : UInt32 := wordOfBytes b[3] b[2] b[1] b[0]

def toWordBE (b : Bytes 4) : UInt32 := wordOfBytes b[0] b[1] b[2] b[3]

def ofDoubleWordLE (w : UInt64) : Bytes 8 :=
  Vector.ofFn fun i => (w >>> (8 * i.val).toUInt64).toUInt8

/-- The `k` bytes that start at offset `start`. -/
def slice (b : Bytes n) (start k : Nat) (h : start + k ≤ n := by decide) : Bytes k :=
  Vector.ofFn fun i => b[start + i.val]

/-- The string with the bytes from offset `start` on overwritten by `new`. -/
def splice {k : Nat} (b : Bytes n) (start : Nat) (new : Bytes k) : Bytes n :=
  Vector.ofFn fun i =>
    if h : start ≤ i.val ∧ i.val < start + k then new[i.val - start] else b.get i

/-- The number whose base-256 digits are the bytes, most significant first. -/
def toNatBE (b : Bytes n) : Nat := b.toList.foldl (fun v x => 256 * v + x.toNat) 0

/-- The number whose base-256 digits are the bytes, least significant first. -/
def toNatLE (b : Bytes n) : Nat := b.toList.foldr (fun x v => x.toNat + 256 * v) 0

end Bytes

end HeaderMiner
