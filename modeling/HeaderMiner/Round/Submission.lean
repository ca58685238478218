import HeaderMiner.Config.Basic
import HeaderMiner.World

/-!
# Handing in a solution

A solution goes to the node if there are peers to pass it on. Without any, the miner looks again a
number of times, with a pause after each look in vain, and once more at the end; then it drops the
solution.
-/

namespace HeaderMiner

inductive Submission where
  /-- Look for peers for the first time. -/
  | asking
  /-- Look for peers, `left` times at most. -/
  | retrying (left : Nat)
  /-- Look for peers for the last time. -/
  | confirming
  | delivering
deriving DecidableEq

namespace Submission

variable {σ : Type}

/-- A step of the session's thread. The result is a failure only if the node failed to take the
header. -/
def move (config : Config) (node : Node σ) (solution : Solution) :
    Move σ Submission (Except NodeFailure Delivery)
  | .session, asking, world =>
    match world.call node .session .peers with
    | (none, world) => (.crashed, world)
    | (some true, world) => (.running delivering, world)
    | (some false, world) =>
      let span := config.peerPollMs * config.submitPeerPolls.toUInt64
      (.running (retrying config.submitPeerPolls.toNat), world.log (.awaitingPeers span))
  | .session, retrying 0, world => (.running confirming, world)
  | .session, retrying (left + 1), world =>
    match world.call node .session .peers with
    | (none, world) => (.crashed, world)
    | (some true, world) => (.running confirming, world)
    | (some false, world) => (.running (retrying left), world.sleep .session config.peerPollMs)
  | .session, confirming, world =>
    match world.call node .session .peers with
    | (none, world) => (.crashed, world)
    | (some true, world) => (.running delivering, world)
    | (some false, world) => (.returned (.ok .noPeers), world.log (.blockDropped solution.hash))
  | .session, delivering, world =>
    match world.call node .session (.submit solution.header.toHeader) with
    | (none, world) => (.crashed, world)
    | (some (.ok true), world) =>
      (.returned (.ok .accepted), world.log (.blockAccepted solution.hash solution.time))
    | (some (.ok false), world) =>
      (.returned (.ok .rejected), world.log (.blockRejected solution.hash))
    | (some (.error failure), world) => (.returned (.error failure), world)
  | .worker _, s, world => (.running s, world)

end Submission

end HeaderMiner
