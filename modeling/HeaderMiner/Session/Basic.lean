import HeaderMiner.Round.Basic
import HeaderMiner.Session.Stats
import HeaderMiner.Session.Template
import HeaderMiner.Session.Waiting

/-!
# Mining sessions

A session waits for the network, and then mines round after round, each on a fresh template, until it is
interrupted or has run its number of rounds. Without peers it waits again; when a template cannot be had
it pauses and tries anew.
-/

namespace HeaderMiner

inductive Session.Phase where
  | waiting (wait : PeerWait)
  | settling (wait : SyncWait)
  /-- Begin another round of the loop, or end: read the interrupt. -/
  | looping
  | askingPeers
  | fetching (fetch : TemplateFetch)
  | mining (round : Round)
deriving DecidableEq

structure Session where
  stats : Stats := {}
  phase : Session.Phase := .waiting (.asking 0)
deriving DecidableEq

namespace Session

variable {σ : Type}

/-- After waiting for peers, the chain has to settle if the wait was long. -/
def afterPeers (config : Config) (s : Session) (polls : Nat) : Session :=
  if config.syncAfterOfflinePolls.toNat < polls then { s with phase := .settling .starting }
  else { s with phase := .looping }

def isComplete (config : Config) (s : Session) : Bool :=
  config.maxRounds.any fun max => max.toNat ≤ s.stats.rounds

def conclude (s : Session) (world : World σ) :
    Progress Session (Except Failure Stats) × World σ :=
  (.returned (.ok s.stats),
    world.log (.sessionFinished s.stats.rounds s.stats.accepted s.stats.totalHashes s.stats.elapsedMs))

/-- Counts a failed template and pauses. -/
def retryLater (config : Config) (s : Session) (failure : NodeFailure) (world : World σ) :
    Session × World σ :=
  ({ s with
      stats := { s.stats with templateErrors := s.stats.templateErrors + 1 }
      phase := .looping },
    (world.log (.templateFailed failure config.templateRetryMs)).sleep .session config.templateRetryMs)

/-- Records a round. An interrupted one is the last. -/
def afterRound (s : Session) (report : RoundReport) (world : World σ) :
    Progress Session (Except Failure Stats) × World σ :=
  let s : Session := { s with stats := s.stats.record report, phase := .looping }
  if report.outcome = .interrupted then s.conclude world else (.running s, world)

/-- A step of a thread. The result is a failure only if a worker crashed or
could not be started. -/
def move (config : Config) (host : Host) (node : Node σ) : Move σ Session (Except Failure Stats) :=
  fun who s world =>
  match s.phase with
  | .waiting wait =>
    match wait.move config node who world with
    | (.running wait, world) => (.running { s with phase := .waiting wait }, world)
    | (.returned polls, world) => (.running (s.afterPeers config polls), world)
    | (.crashed, world) => (.crashed, world)
  | .settling wait =>
    match wait.move config node who world with
    | (.running wait, world) => (.running { s with phase := .settling wait }, world)
    | (.returned _, world) => (.running { s with phase := .looping }, world)
    | (.crashed, world) => (.crashed, world)
  | .looping =>
    match who with
    | .worker _ => (.running s, world)
    | .session =>
      if world.interrupted ∨ s.isComplete config then s.conclude world
      else (.running { s with phase := .askingPeers }, world)
  | .askingPeers =>
    match who with
    | .worker _ => (.running s, world)
    | .session =>
      match world.call node .session .peers with
      | (none, world) => (.crashed, world)
      | (some true, world) => (.running { s with phase := .fetching .askingReference }, world)
      | (some false, world) => (.running { s with phase := .waiting (.asking 0) }, world)
  | .fetching fetch =>
    match fetch.move config node who world with
    | (.running fetch, world) => (.running { s with phase := .fetching fetch }, world)
    | (.returned (.ok work), world) =>
      (.running { s with phase := .mining (.opening work .full) }, world)
    | (.returned (.error failure), world) =>
      let (s, world) := s.retryLater config failure world
      (.running s, world)
    | (.crashed, world) => (.crashed, world)
  | .mining round =>
    match round.move config host node who world with
    | (.running round, world) => (.running { s with phase := .mining round }, world)
    | (.returned (.ok report), world) => s.afterRound report world
    | (.returned (.error failure), world) => (.returned (.error failure), world)
    | (.crashed, world) => (.crashed, world)

def threads (s : Session) : List Thread :=
  match s.phase with
  | .mining round => round.threads
  | _ => [.session]

end Session

end HeaderMiner
