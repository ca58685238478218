import HeaderMiner.Engine.LaneWidth

/-!
# Configuration of a mining session
-/

namespace HeaderMiner

structure Config where
  /-- Workers of a round; one for each processor core when unset. -/
  threads : Option UInt64 := none
  /-- Lanes of an engine call; the widest that the host supports when unset. -/
  lanes : Option LaneWidth := none
  /-- Engine calls between two looks at the clock and at the round's state. -/
  resyncBatches : UInt32 := 262144
  /-- The destination that every template pays. -/
  payout : String := "local"
  /-- The pause while the node cannot tell its tip, in milliseconds. -/
  tipPollMs : UInt64 := 5
  /-- The pause between two looks for peers or at the chain height, in milliseconds. -/
  peerPollMs : UInt64 := 100
  /-- Looks for peers before a solved header is dropped. -/
  submitPeerPolls : UInt32 := 50
  /-- Looks for peers in vain after which the chain has to settle before mining. -/
  syncAfterOfflinePolls : UInt64 := 6000
  /-- Looks in a row at which the height has to be the same for the chain to count as settled. -/
  syncWindowPolls : UInt32 := 100
  /-- The pause after a template could not be had, in milliseconds. -/
  templateRetryMs : UInt64 := 1000
  /-- The number of rounds after which the session ends, if any. -/
  maxRounds : Option UInt64 := none
deriving DecidableEq

/-- What the machine offers to a session. -/
structure Host where
  cores : Nat := 1
  lanes : LaneWidth := .four
  /-- Whether a thread can be started for a worker of this number at this time. -/
  spawns : (now worker : Nat) → Bool := fun _ _ => true

/-- The most workers of a round. -/
def maxThreads : Nat := 1024

namespace Config

/-- A choice that no session can run with. -/
inductive Fault where
  | threadsOutOfRange (threads : UInt64)
  | zeroResyncBatches
  | emptyPayout
  | zeroMaxRounds
deriving DecidableEq

def Fault.message : Fault → String
  | .threadsOutOfRange n =>
    "threads must be between 1 and " ++ toString maxThreads ++ ", got " ++ toString n
  | .zeroResyncBatches => "resync_batches must be positive"
  | .emptyPayout => "payout must not be empty"
  | .zeroMaxRounds => "max_rounds must be positive when set"

def fault? (c : Config) : Option Fault :=
  match c.threads.filter fun n => n == 0 || n.toNat > maxThreads with
  | some n => some (.threadsOutOfRange n)
  | none =>
    if c.resyncBatches = 0 then some .zeroResyncBatches
    else if c.payout = "" then some .emptyPayout
    else if c.maxRounds = some 0 then some .zeroMaxRounds
    else none

def threadCount (c : Config) (host : Host) : Nat :=
  max 1 (min maxThreads ((c.threads.map (·.toNat)).getD host.cores))

def laneWidth (c : Config) (host : Host) : LaneWidth := c.lanes.getD host.lanes

end Config

end HeaderMiner
