import HeaderMiner.CommandLine.Reader
import HeaderMiner.Node.Local
import HeaderMiner.Session.Basic
import HeaderMiner.Session.Summary
import HeaderMiner.Text.QuotedByte

/-!
# Launching a session

What the program does with its arguments up to the start of the session: it settles how much is logged,
then the configuration, then the tip to start from. The first of these that cannot be settled ends the
program.
-/

namespace HeaderMiner.CommandLine

inductive Verbosity where
  | off | error | warn | info | debug | trace
deriving DecidableEq, Repr

namespace Verbosity

def name : Verbosity → String
  | off => "off"
  | error => "error"
  | warn => "warn"
  | info => "info"
  | debug => "debug"
  | trace => "trace"

def all : List Verbosity := [off, error, warn, info, debug, trace]

/-- The verbosity of a name, in any case of its letters. -/
def ofName? (text : String) : Option Verbosity :=
  all.find? fun v => v.name.toList == text.toList.map Char.toLower

def shows : Verbosity → Level → Bool
  | off, _ | error, _ => false
  | warn, level => level == .warn
  | info, level => level != .debug
  | debug, _ | trace, _ => true

end Verbosity

/-- Why there is no configuration. -/
inductive ConfigFailure where
  | unreadableFile
  | text (error : Config.ReadError)
  | fault (fault : Config.Fault)
deriving DecidableEq

/-- The configuration that the arguments ask for. Options are put in place before the configuration is
looked at for faults. `file` is the text of the configuration file, `none` if it cannot be read; without
the option for it, it does not matter. -/
def Arguments.loadConfig (a : Arguments) (file : Option String) : Except ConfigFailure Config := do
  let base : Config ←
    match a.config, file with
    | none, _ => .ok {}
    | some _, none => .error .unreadableFile
    | some _, some text => (Config.read text).mapError .text
  let config := a.override base
  match config.fault? with
  | some fault => .error (.fault fault)
  | none => .ok config

inductive Refusal where
  | usage (error : UsageError)
  | verbosity
  | config (failure : ConfigFailure)
  | tip (error : Hex.Error)
deriving DecidableEq

namespace Refusal

/-- The exit code of the program; a wish for help is no failure. -/
def exitCode : Refusal → UInt32
  | usage .helpRequested => 0
  | usage _ => 2
  | verbosity | config _ | tip _ => 1

/-- What the program reports of the failure; nothing for a fault in the use of its options. -/
def text? : Refusal → Option String
  | usage _ => none
  | verbosity => "ParseLevelError(())"
  | config .unreadableFile => "Io"
  | config (.text _) => "Json"
  | config (.fault fault) => "Config(" ++ Json.quote fault.message ++ ")"
  | tip .oddLength => "OddLength"
  | tip .wrongLength => "InvalidStringLength"
  | tip (.badDigit byte index) =>
    s!"InvalidHexCharacter \x7b c: {QuotedByte.render byte}, index: {index} \x7d"

end Refusal

structure Launch where
  verbosity : Verbosity
  config : Config
  tip : BlockHash
  bits : UInt32

namespace Launch

def ofArguments (a : Arguments) (file : Option String) : Except Refusal Launch := do
  let verbosity ←
    match Verbosity.ofName? a.logLevel with
    | none => .error .verbosity
    | some v => .ok v
  let config ← (a.loadConfig file).mapError .config
  let tip ←
    match a.tip with
    | none => .ok BlockHash.zero
    | some text => (BlockHash.ofDisplay text).mapError .tip
  .ok { verbosity, config, tip, bits := a.bits }

def notice (l : Launch) (host : Host) : Notice :=
  .starting (l.config.threadCount host) (l.config.laneWidth host) l.config.payout

/-- The session at its start, on a local node with the given clock. -/
def execution (l : Launch) (clock : Nat → UInt32) :
    Execution LocalNode Session (Except Failure Stats) where
  progress := .running {}
  world := { node := { tip := l.tip, bits := l.bits, clock } }

def summary (l : Launch) (node : LocalNode) (stats : Stats) : Summary :=
  ⟨l.config, node.height, node.tip, stats⟩

end Launch

end HeaderMiner.CommandLine
