import HeaderMiner.CommandLine.Value
import HeaderMiner.Config.Reader

/-!
# Arguments

The options of the program and the values that they were given. Options that belong to the
configuration override what a configuration file says.
-/

namespace HeaderMiner.CommandLine

inductive Setting where
  | config | threads | lanes | payout | rounds | bits | tip | logLevel
deriving DecidableEq, Repr

namespace Setting

def all : List Setting := [config, threads, lanes, payout, rounds, bits, tip, logLevel]

def longName : Setting → String
  | config => "config"
  | threads => "threads"
  | lanes => "lanes"
  | payout => "payout"
  | rounds => "rounds"
  | bits => "bits"
  | tip => "tip"
  | logLevel => "log-level"

def shortName? : Setting → Option Char
  | config => some 'c'
  | threads => some 't'
  | payout => some 'p'
  | rounds => some 'r'
  | bits => some 'b'
  | logLevel => some 'l'
  | lanes | tip => none

def ofLongName? (name : String) : Option Setting := all.find? (·.longName = name)

def ofShortName? (letter : Char) : Option Setting := all.find? (·.shortName? = some letter)

end Setting

/-- Why a command line is not carried out. -/
inductive UsageError where
  /-- A word that is no option and waits for no value. -/
  | unknownArgument
  | repeated
  /-- An option that has no value, or an empty one where that cannot be. -/
  | missingValue
  | invalidValue
  /-- A value for an option that takes none. -/
  | unexpectedValue
  | helpRequested
deriving DecidableEq, Repr

structure Arguments where
  config : Option String := none
  threads : Option UInt64 := none
  lanes : Option LaneWidth := none
  payout : Option String := none
  rounds : Option UInt64 := none
  /-- The compact target of the chain. -/
  bits : UInt32 := 0x207fffff
  /-- The displayed hash of the tip to start from. -/
  tip : Option String := none
  logLevel : String := "info"
deriving DecidableEq

namespace Arguments

/-- The value, or a usage error in place of any other. -/
def valid {ε α : Type} : Except ε α → Except UsageError α
  | .ok a => .ok a
  | .error _ => .error .invalidValue

def set (a : Arguments) (setting : Setting) (value : String) : Except UsageError Arguments :=
  match setting with
  | .config => if value = "" then .error .missingValue else .ok { a with config := some value }
  | .threads => (valid (readCount value)).map fun x => { a with threads := some x }
  | .lanes => (valid (readLanes value)).map fun x => { a with lanes := some x }
  | .payout => .ok { a with payout := some value }
  | .rounds => (valid (readCount value)).map fun x => { a with rounds := some x }
  | .bits => (valid (readBits value)).map fun x => { a with bits := x }
  | .tip => .ok { a with tip := some value }
  | .logLevel => .ok { a with logLevel := value }

/-- The configuration with the options in place of its own choices. -/
def override (a : Arguments) (c : Config) : Config :=
  { c with
    threads := a.threads.or c.threads
    lanes := a.lanes.or c.lanes
    payout := a.payout.getD c.payout
    maxRounds := a.rounds.or c.maxRounds }

end Arguments

end HeaderMiner.CommandLine
