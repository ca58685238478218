import HeaderMiner.Config.Field
import HeaderMiner.Text.Json.Scanner

/-!
# Reading configurations

A configuration is read from a document that is a record of some of the fields, or a list of values for
the leading fields; all others keep their defaults. A record may not have a field twice, nor one that is
not known. The text is read from front to back and its first fault is reported.
-/

namespace HeaderMiner.Config

/-- Why a text is no configuration. -/
inductive ReadError where
  | malformed
  | laneWidth (count : Nat)
deriving DecidableEq, Repr

/-- Reads a value off the front of a text. -/
abbrev Reader (α : Type) := List Char → Except ReadError (α × List Char)

namespace Reader

def ofScanner {α : Type} (scan? : List Char → Option (α × List Char)) : Reader α := fun text =>
  match scan? text with
  | none => .error .malformed
  | some result => .ok result

def map {α β : Type} (f : α → β) (read : Reader α) : Reader β := fun text =>
  match read text with
  | .error e => .error e
  | .ok (a, rest) => .ok (f a, rest)

def nat (limit : Nat) : Reader Nat :=
  ofScanner fun text =>
    (Json.scanNat? (Json.skipBlanks text)).filter fun (n, _) => n < limit

def word : Reader UInt32 := (nat UInt32.size).map (·.toUInt32)

def doubleWord : Reader UInt64 := (nat UInt64.size).map (·.toUInt64)

/-- A lane width. Other numbers of 64 bits are faults of their own. -/
def laneWidth : Reader LaneWidth := fun text =>
  match nat UInt64.size text with
  | .error e => .error e
  | .ok (n, rest) =>
    match LaneWidth.ofCount? n with
    | none => .error (.laneWidth n)
    | some width => .ok (width, rest)

def text : Reader String := ofScanner Json.scanText?

def optional {α : Type} (read : Reader α) : Reader (Option α) := fun text =>
  match Json.skipBlanks text with
  | 'n' :: 'u' :: 'l' :: 'l' :: rest => .ok (none, rest)
  | rest => read.map some rest

end Reader

/-- Reads the value of a field into a configuration. -/
def Field.reader (c : Config) : Field → Reader Config
  | .threads => (Reader.optional .doubleWord).map fun x => { c with threads := x }
  | .lanes => (Reader.optional .laneWidth).map fun x => { c with lanes := x }
  | .resyncBatches => Reader.word.map fun x => { c with resyncBatches := x }
  | .payout => Reader.text.map fun x => { c with payout := x }
  | .tipPollMs => Reader.doubleWord.map fun x => { c with tipPollMs := x }
  | .peerPollMs => Reader.doubleWord.map fun x => { c with peerPollMs := x }
  | .submitPeerPolls => Reader.word.map fun x => { c with submitPeerPolls := x }
  | .syncAfterOfflinePolls => Reader.doubleWord.map fun x => { c with syncAfterOfflinePolls := x }
  | .syncWindowPolls => Reader.word.map fun x => { c with syncWindowPolls := x }
  | .templateRetryMs => Reader.doubleWord.map fun x => { c with templateRetryMs := x }
  | .maxRounds => (Reader.optional .doubleWord).map fun x => { c with maxRounds := x }

/-- The name of a member and the colon after it. -/
def scanName? (text : List Char) : Option (String × List Char) :=
  match Json.scanText? text with
  | none => none
  | some (name, rest) => (Json.scanChar? ':' rest).map (name, ·)

theorem length_erase_of_find? {p : Field → Bool} {absent : List Field} {field : Field}
    (h : absent.find? p = some field) : (absent.erase field).length < absent.length := by
  have hmem := List.mem_of_find?_eq_some h
  have hpos := List.length_pos_of_mem hmem
  rw [List.length_erase_of_mem hmem]
  omega

/-- One member or more and the closing brace. Members are taken from the fields that are still
`absent`. -/
def readMembers (absent : List Field) (c : Config) (text : List Char) :
    Except ReadError (Config × List Char) :=
  match scanName? text with
  | none => .error .malformed
  | some (name, rest) =>
    match h : absent.find? (·.name = name) with
    | none => .error .malformed
    | some field =>
      match field.reader c rest with
      | .error e => .error e
      | .ok (c, rest) =>
        match Json.skipBlanks rest with
        | ',' :: rest =>
          have := length_erase_of_find? h
          readMembers (absent.erase field) c rest
        | '\x7d' :: rest => .ok (c, rest)
        | _ => .error .malformed
termination_by absent.length

/-- One value or more for the given fields in turn, and the closing bracket. -/
def readItems : List Field → Config → List Char → Except ReadError (Config × List Char)
  | [], _, _ => .error .malformed
  | field :: fields, c, text =>
    match field.reader c text with
    | .error e => .error e
    | .ok (c, rest) =>
      match Json.skipBlanks rest with
      | ',' :: rest => readItems fields c rest
      | ']' :: rest => .ok (c, rest)
      | _ => .error .malformed

/-- A record or a list of field values. -/
def readDocument (text : List Char) : Except ReadError (Config × List Char) :=
  match Json.skipBlanks text with
  | '\x7b' :: text =>
    match Json.scanChar? '\x7d' text with
    | some rest => .ok ({}, rest)
    | none => readMembers Field.all {} text
  | '[' :: text =>
    match Json.scanChar? ']' text with
    | some rest => .ok ({}, rest)
    | none => readItems Field.all {} text
  | _ => .error .malformed

/-- Reads a configuration; only blanks may follow the document. -/
def read (text : String) : Except ReadError Config :=
  match readDocument text.toList with
  | .error e => .error e
  | .ok (c, rest) => if (Json.skipBlanks rest).isEmpty then .ok c else .error .malformed

end HeaderMiner.Config
