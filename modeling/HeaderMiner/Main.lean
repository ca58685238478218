import HeaderMiner.CommandLine.Launch
import Std.Time.DateTime.Timestamp

/-!
# The program

Reads the command line, runs one session against a local node and prints its summary. Everything that
is decided is decided elsewhere; this module looks at the machine, reads the clock and the configuration
file, steps the session, and writes the log.
-/

namespace HeaderMiner.CommandLine

def usage : String :=
  "Usage: bleminer [OPTIONS]\n\n" ++
  "  -c, --config <FILE>      JSON configuration file; options override its values\n" ++
  "  -t, --threads <N>        number of worker threads (default: all cores)\n" ++
  "      --lanes <N>          nonces per engine call, 1 to 4 (default: 4)\n" ++
  "  -p, --payout <TEXT>      payout destination of every template\n" ++
  "  -r, --rounds <N>         stop after this many rounds\n" ++
  "  -b, --bits <HEX>         compact target of the local chain (default: 207fffff)\n" ++
  "      --tip <HASH>         chain tip to start from\n" ++
  "  -l, --log-level <LEVEL>  off, error, warn, info, debug or trace (default: info)\n" ++
  "  -h, --help               print this help"

/-- Seconds since 1970, modulo 2³². -/
def wallClock : IO UInt32 := do
  let now ← Std.Time.Timestamp.now
  return now.toSecondsSinceUnixEpoch.val.toNat.toUInt32

/-- The text of the configuration file that the arguments name, if it can be read. -/
def configFile (a : Arguments) : IO (Option String) :=
  match a.config with
  | none => return none
  | some path => do
    try return some (← IO.FS.readFile path)
    catch _ => return none

/-- The machine that the program runs on, with as many cores as it lists. -/
def detectHost : IO Host := do
  let listing ← try IO.FS.readFile "/proc/cpuinfo" catch _ => pure ""
  let cores := (listing.splitOn "\n").countP fun line => line.startsWith "processor"
  return { cores := max 1 cores }

def writeNotice (verbosity : Verbosity) (n : Notice) : IO Unit := do
  if verbosity.shows n.level then IO.eprintln n.line

/-- Carries out the journal of a sweep: notices are written, and the longest pause is made. -/
def carryOut (verbosity : Verbosity) (journal : Array Entry) : IO Unit := do
  let mut pause : UInt64 := 0
  for entry in journal do
    match entry with
    | .called .. => pure ()
    | .logged n => writeNotice verbosity n
    | .slept _ ms => pause := max pause ms
  if pause > 0 then IO.sleep (min pause 0xffffffff).toUInt32

partial def runSession (l : Launch) (host : Host) (began : Nat)
    (e : Execution LocalNode Session (Except Failure Stats)) : IO UInt32 := do
  match e.progress with
  | .crashed => return 101
  | .returned (.error failure) =>
    IO.eprintln s!"Error: {failure.message}"
    return 1
  | .returned (.ok stats) =>
    IO.println (l.summary e.world.node stats).text
    return 0
  | .running _ =>
    let seconds ← wallClock
    let now ← IO.monoNanosNow
    let world := { e.world with
      node := { e.world.node with clock := fun _ => seconds }
      now := now - began
      journal := #[] }
    let e := { e with world }.sweep Session.threads (Session.move l.config host LocalNode.answer)
    carryOut l.verbosity e.world.journal
    runSession l host began e

def runProgram (words : List String) : IO UInt32 := do
  let refuse (r : Refusal) : IO UInt32 := do
    match r, r.text? with
    | .usage .helpRequested, _ => IO.println usage
    | .usage _, _ => IO.eprintln usage
    | _, text => IO.eprintln s!"Error: {text.getD default}"
    return r.exitCode
  match Arguments.read words with
  | .error e => refuse (.usage e)
  | .ok arguments =>
    match Launch.ofArguments arguments (← configFile arguments) with
    | .error r => refuse r
    | .ok l =>
      let host ← detectHost
      writeNotice l.verbosity (l.notice host)
      let began ← IO.monoNanosNow
      runSession l host began (l.execution fun _ => 0)

end HeaderMiner.CommandLine

def main (words : List String) : IO UInt32 := HeaderMiner.CommandLine.runProgram words
