import HeaderMiner.Decimal.Shortest
import HeaderMiner.Text.Hex

/-!
# JSON documents and their text

A document is written compactly or with one member a line. Numbers that are floats carry the fewest
digits that read back; one that is not finite is written as `null`.
-/

namespace HeaderMiner

/-- A document. Members stand in the order in which they are written. -/
inductive Json where
  | null
  | nat (n : Nat)
  | float (x : Float)
  | text (s : String)
  | list (items : List Json)
  | record (members : List (String × Json))

namespace Json

/-- A character of a string literal: quote, backslash and controls are escaped, all else stands for
itself. -/
def escape (c : Char) : List Char :=
  if c = '"' then ['\\', '"']
  else if c = '\\' then ['\\', '\\']
  else if c = '\n' then ['\\', 'n']
  else if c = '\r' then ['\\', 'r']
  else if c = '\t' then ['\\', 't']
  else if c = '\x08' then ['\\', 'b']
  else if c = '\x0c' then ['\\', 'f']
  else if c.toNat < 0x20 then
    ['\\', 'u', '0', '0', Hex.digit (c.toNat / 16), Hex.digit (c.toNat % 16)]
  else [c]

def quote (s : String) : String := String.ofList ('"' :: s.toList.flatMap escape ++ ['"'])

/-- Floats are written without an exponent from `10 ^ plainFrom` up to below `10 ^ plainBelow`. -/
structure FloatLayout where
  plainFrom : Int
  plainBelow : Int

/-- The range of floats written without an exponent in documents. -/
def floatLayout : FloatLayout := ⟨-5, 16⟩

/-- Lays out decimal digits: a plain number has at least one digit on each side of the point, and an
exponent always has its sign. -/
def FloatLayout.write (range : FloatLayout) (s : Decimal.Scientific) : String :=
  let ds := (toString s.digits).toList
  let point : Int := ds.length + s.exponent
  let zeros (n : Int) : List Char := List.replicate n.toNat '0'
  if range.plainFrom ≤ point - 1 ∧ point - 1 < range.plainBelow then
    String.ofList <|
      if point ≤ 0 then '0' :: '.' :: zeros (-point) ++ ds
      else if ds.length ≤ point then ds ++ zeros s.exponent ++ ['.', '0']
      else ds.take point.toNat ++ '.' :: ds.drop point.toNat
  else
    let mantissa := match ds with
      | d :: e :: rest => d :: '.' :: e :: rest
      | short => short
    String.ofList mantissa ++ (if point - 1 < 0 then "e-" else "e+") ++ toString (point - 1).natAbs

def floatText (x : Float) : String :=
  match Decimal.Binary64.ofFloat x with
  | .nan | .infinite _ => "null"
  | .finite negative m e =>
    (if negative then "-" else "") ++
      if m = 0 then "0.0" else floatLayout.write (Decimal.shortest m e)

mutual

/-- The text of a document without any blanks. -/
def compact : Json → String
  | .null => "null"
  | .nat n => toString n
  | .float x => floatText x
  | .text s => quote s
  | .list items => "[" ++ ",".intercalate (compactItems items) ++ "]"
  | .record members => "\x7b" ++ ",".intercalate (compactMembers members) ++ "\x7d"

def compactItems : List Json → List String
  | [] => []
  | j :: js => compact j :: compactItems js

def compactMembers : List (String × Json) → List String
  | [] => []
  | (name, j) :: rest => (quote name ++ ":" ++ compact j) :: compactMembers rest

end

/-- A new line indented by `depth` steps of two blanks. -/
def newline (depth : Nat) : String := "\n" ++ String.ofList (List.replicate (2 * depth) ' ')

/-- Lines of a list or record between its brackets; an empty one stays on one line. -/
def bracketed (opening closing : String) (depth : Nat) (parts : List String) : String :=
  if parts.isEmpty then opening ++ closing
  else
    opening ++ newline (depth + 1) ++ ("," ++ newline (depth + 1)).intercalate parts ++
      newline depth ++ closing

mutual

/-- The text of a document with one item or member a line, inside `depth` enclosing ones. -/
def pretty (depth : Nat) : Json → String
  | .null => "null"
  | .nat n => toString n
  | .float x => floatText x
  | .text s => quote s
  | .list items => bracketed "[" "]" depth (prettyItems (depth + 1) items)
  | .record members => bracketed "\x7b" "\x7d" depth (prettyMembers (depth + 1) members)

def prettyItems (depth : Nat) : List Json → List String
  | [] => []
  | j :: js => pretty depth j :: prettyItems depth js

def prettyMembers (depth : Nat) : List (String × Json) → List String
  | [] => []
  | (name, j) :: rest => (quote name ++ ": " ++ pretty depth j) :: prettyMembers depth rest

end

/-- The number, or `null` when there is none. -/
def ofNat? (n : Option Nat) : Json := n.elim .null .nat

end Json

end HeaderMiner
