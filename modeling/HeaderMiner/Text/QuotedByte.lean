import HeaderMiner.Text.Hex

/-!
# A byte as a quoted character

A byte is shown in a message as the character with its number, between single quotes. Quote,
backslash and the common controls have a short escape; other characters that do not print are
written by number.
-/

namespace HeaderMiner.QuotedByte

/-- The characters up to `U+00FF` that print: neither controls, nor blanks other than the space, nor
the soft hyphen. -/
def isPrintable (b : UInt8) : Bool :=
  (0x20 ≤ b && b < 0x7f) || (0xa0 < b && b != 0xad)

def body (b : UInt8) : String :=
  if b = 0x00 then "\\0"
  else if b = 0x09 then "\\t"
  else if b = 0x0a then "\\n"
  else if b = 0x0d then "\\r"
  else if b = 0x27 then "\\'"
  else if b = 0x5c then "\\\\"
  else if isPrintable b then String.singleton (Char.ofNat b.toNat)
  else "\\u\x7b" ++ Hex.ofNat 0 b.toNat ++ "\x7d"

def render (b : UInt8) : String := "'" ++ body b ++ "'"

end HeaderMiner.QuotedByte

namespace HeaderMiner.Hex

def Error.message : Error → String
  | .oddLength => "Odd number of digits"
  | .wrongLength => "Invalid string length"
  | .badDigit b i => "Invalid character " ++ QuotedByte.render b ++ " at position " ++ toString i

end HeaderMiner.Hex
