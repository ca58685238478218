import HeaderMiner.BlockHash

/-!
# Targets

A target is a 256-bit threshold: a hash meets it when its number is not larger. Headers carry a target
in a compact form of 32 bits, an exponent byte `e` and a signed mantissa `m` of 24 bits that stand for
`m · 256 ^ (e - 3)`.
-/

namespace HeaderMiner

/-- A 256-bit threshold, most significant byte first. -/
structure Target where
  bytes : Bytes 32
deriving DecidableEq

/-- Compares byte strings from the left: the first difference decides, and equal strings count as in
order. -/
def leadingAtMost : List UInt8 → List UInt8 → Bool
  | a :: as, b :: bs => if a < b then true else if b < a then false else leadingAtMost as bs
  | _, _ => true

namespace Target

/-- The target that only the hash zero meets. -/
def zero : Target := ⟨Bytes.zero 32⟩

instance : Inhabited Target := ⟨zero⟩

def toNat (t : Target) : Nat := t.bytes.toNatBE

/-- The mantissa bytes of a compact target, most significant first. -/
def mantissaByte (mantissa : UInt32) (i : Nat) : UInt8 :=
  if i = 0 then (mantissa >>> 16).toUInt8 else if i = 1 then (mantissa >>> 8).toUInt8
  else mantissa.toUInt8

/-- The target of a compact encoding. Encodings that are negative, or that exceed 256 bits, give zero.
With an exponent above three, mantissa byte `i` has to land at offset `32 - exponent + i`; it is lost
when that lies before the string and it is zero. -/
def ofBits (bits : UInt32) : Target :=
  let exponent := (bits >>> 24).toNat
  let mantissa := bits &&& 0x007fffff
  if bits &&& 0x00800000 ≠ 0 ∨ exponent = 0 then zero
  else if exponent ≤ 3 then
    let value := mantissa >>> (8 * (3 - exponent)).toUInt32
    ⟨Vector.ofFn fun p => if 29 ≤ p.val then mantissaByte value (p.val - 29) else 0⟩
  else if (List.range 3).any fun i => 32 + i < exponent && mantissaByte mantissa i != 0 then zero
  else
    ⟨Vector.ofFn fun p =>
      if 32 ≤ p.val + exponent ∧ p.val + exponent < 35 then
        mantissaByte mantissa (p.val + exponent - 32)
      else 0⟩

def topWord (t : Target) : UInt32 := wordOfBytes t.bytes[0] t.bytes[1] t.bytes[2] t.bytes[3]

/-- A hash, given most significant byte first, is not larger than the target. -/
def admits (t : Target) (hash : Bytes 32) : Bool := leadingAtMost hash.toList t.bytes.toList

def isMetBy (t : Target) (h : BlockHash) : Bool := t.admits h.toBigEndian

/-- Targets are ordered by their bytes from the left. -/
instance : Ord Target where
  compare s t := compareOfLessAndEq s.bytes.toList t.bytes.toList

def display (t : Target) : String := Hex.encode t.bytes

instance : ToString Target := ⟨display⟩

end Target

end HeaderMiner
