import HeaderMiner.Bytes

/-!
# Hexadecimal text

`encode` writes two lower-case digits for each byte. `decode` reads a text of a known number of
bytes back, in either case of digit, and tells the first thing wrong with it: an odd length, then
any other wrong length, then the first byte that is no digit.
-/

namespace HeaderMiner.Hex

/-- Why a text is not the hexadecimal form of a byte string. -/
inductive Error where
  | oddLength
  | wrongLength
  /-- The byte at this index is no hexadecimal digit. -/
  | badDigit (byte : UInt8) (index : Nat)
deriving DecidableEq, Repr

/-- The digit of a value below sixteen. -/
def digit (v : Nat) : Char := Nat.digitChar v

/-- The value of a digit, `none` for any other byte. -/
def digitValue (b : UInt8) : Option UInt8 :=
  if 0x30 ≤ b ∧ b ≤ 0x39 then some (b - 0x30)
  else if 0x61 ≤ b ∧ b ≤ 0x66 then some (b - 0x61 + 10)
  else if 0x41 ≤ b ∧ b ≤ 0x46 then some (b - 0x41 + 10)
  else none

def utf8 (s : String) : List UInt8 := s.toUTF8.data.toList

/-- The digits of one byte, the high half first. -/
def pair (b : UInt8) : List Char := [digit (b.toNat / 16), digit (b.toNat % 16)]

def encodeList (bytes : List UInt8) : String := String.ofList (bytes.flatMap pair)

def encode {n : Nat} (bytes : Bytes n) : String := encodeList bytes.toList

/-- The first byte that is no digit, with its index. -/
def firstBadDigit (text : List UInt8) : Option (UInt8 × Nat) :=
  text.zipIdx.find? fun (b, _) => (digitValue b).isNone

/-- Reads the hexadecimal form of `n` bytes. -/
def decode (n : Nat) (s : String) : Except Error (Bytes n) :=
  let text := utf8 s
  let value (i : Nat) : UInt8 := (text[i]?.bind digitValue).getD 0
  if text.length % 2 = 1 then .error .oddLength
  else if text.length ≠ 2 * n then .error .wrongLength
  else match firstBadDigit text with
    | some (b, i) => .error (.badDigit b i)
    | none => .ok (Vector.ofFn fun i => 16 * value (2 * i) + value (2 * i + 1))

/-- The digits of a number in lower-case hexadecimal, with zeros in front up to `width` digits. -/
def ofNat (width n : Nat) : String :=
  let ds := Nat.toDigits 16 n
  String.ofList (List.replicate (width - ds.length) '0' ++ ds)

end HeaderMiner.Hex
