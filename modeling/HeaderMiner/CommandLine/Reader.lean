import HeaderMiner.CommandLine.Arguments

/-!
# Reading a command line

Words are read from left to right. A value may be attached to its option (`-t4`, `-t=4`,
`--threads=4`) or be the next word. An attached value is set at once. A value in a word of its own is
kept and set only when another option is taken or the words end, so a word that is unknown is reported
before such a value is looked at.
-/

namespace HeaderMiner.CommandLine

inductive Word where
  /-- A name after two dashes, with the text behind an equals sign if there is one. -/
  | long (name : String) (value : Option String)
  /-- A letter after one dash, with what follows it. -/
  | short (letter : Char) (rest : List Char)
  | plain (text : String)
deriving DecidableEq

/-- Tells the form of a word by its first characters. -/
def Word.ofString (word : String) : Word :=
  match word.toList with
  | '-' :: '-' :: text =>
    let name := String.ofList (text.takeWhile (· ≠ '='))
    match text.dropWhile (· ≠ '=') with
    | [] => .long name none
    | _ :: value => .long name (some (String.ofList value))
  | '-' :: letter :: rest => .short letter rest
  | _ => .plain word

/-- The value attached to a letter, behind an equals sign or not. -/
def attached : List Char → Option String
  | [] => none
  | '=' :: value => some (String.ofList value)
  | value => some (String.ofList value)

/-- The option that was taken last, as long as it is not set. -/
inductive Pending where
  | nothing
  | awaiting (setting : Setting)
  | holding (setting : Setting) (value : String)
deriving DecidableEq

structure Reading where
  arguments : Arguments := {}
  given : List Setting := []
  pending : Pending := .nothing
deriving DecidableEq

namespace Reading

/-- Sets an option to a value; it must not have been set before. -/
def set (r : Reading) (setting : Setting) (value : String) : Except UsageError Reading :=
  if setting ∈ r.given then .error .repeated
  else
    (r.arguments.set setting value).map fun arguments =>
      { r with arguments, given := setting :: r.given }

def settle (r : Reading) : Except UsageError Reading :=
  match r.pending with
  | .nothing => .ok r
  | .awaiting _ => .error .missingValue
  | .holding setting value => { r with pending := .nothing }.set setting value

/-- Takes an option with the value attached to it, if there is one. -/
def take (r : Reading) (setting : Setting) (value : Option String) : Except UsageError Reading := do
  let r ← r.settle
  match value with
  | some value => r.set setting value
  | none => .ok { r with pending := .awaiting setting }

/-- Help ends the reading, after the pending option. -/
def help (r : Reading) : Except UsageError Reading := do
  let _ ← r.settle
  .error .helpRequested

def word (r : Reading) : Word → Except UsageError Reading
  | .long "help" none => r.help
  | .long "help" (some _) => .error .unexpectedValue
  | .long name value =>
    match Setting.ofLongName? name with
    | none => .error .unknownArgument
    | some setting => r.take setting value
  | .short 'h' _ => r.help
  | .short letter rest =>
    match Setting.ofShortName? letter with
    | none => .error .unknownArgument
    | some setting => r.take setting (attached rest)
  | .plain text =>
    match r.pending with
    | .awaiting setting => .ok { r with pending := .holding setting text }
    | .nothing | .holding .. => .error .unknownArgument

/-- Reads the remaining words. After two dashes alone no word is known. -/
def words (r : Reading) : List String → Except UsageError Arguments
  | [] | ["--"] => r.settle.map (·.arguments)
  | "--" :: _ => .error .unknownArgument
  | w :: rest =>
    match r.word (Word.ofString w) with
    | .error e => .error e
    | .ok r => r.words rest

end Reading

def Arguments.read (words : List String) : Except UsageError Arguments := Reading.words {} words

end HeaderMiner.CommandLine
