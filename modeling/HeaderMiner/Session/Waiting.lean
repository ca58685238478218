import HeaderMiner.Config.Basic
import HeaderMiner.World

/-!
# Waiting for the network

Before it mines, a session waits until the node has peers, and after a long time without any also until
the chain's height has held still for a while. An interrupt ends either wait.
-/

namespace HeaderMiner

/-- Waiting for peers; `polls` looks have been in vain so far. -/
inductive PeerWait where
  | asking (polls : Nat)
  /-- There were none: read the interrupt, then pause. -/
  | offline (polls : Nat)
deriving DecidableEq

namespace PeerWait

variable {σ : Type}

/-- Every tenth look in vain is logged. The result is the number of pauses. -/
def move (config : Config) (node : Node σ) : Move σ PeerWait Nat
  | .session, asking polls, world =>
    match world.call node .session .peers with
    | (none, world) => (.crashed, world)
    | (some true, world) => (.returned polls, world)
    | (some false, world) => (.running (offline polls), world)
  | .session, offline polls, world =>
    if world.interrupted then (.returned polls, world)
    else
      let world := if polls % 10 = 0 then world.log (.waitingForPeers polls) else world
      (.running (asking (polls + 1)), world.sleep .session config.peerPollMs)
  | .worker _, p, world => (.running p, world)

end PeerWait

inductive SyncWait where
  /-- Ask for the height that the chain starts from. -/
  | starting
  /-- The height was the same `stable` times in a row: read the interrupt, then pause. -/
  | counting (height : UInt64) (stable : Nat)
  | asking (height : UInt64) (stable : Nat)
deriving DecidableEq

namespace SyncWait

variable {σ : Type}

/-- The wait ends when the height was the same for the configured number of looks in a row. -/
def move (config : Config) (node : Node σ) : Move σ SyncWait Unit
  | .session, starting, world =>
    match world.call node .session .height with
    | (none, world) => (.crashed, world)
    | (some height, world) => (.running (counting height 0), world.log (.settling height))
  | .session, counting height stable, world =>
    if stable < config.syncWindowPolls.toNat ∧ ¬world.interrupted then
      (.running (asking height stable), world.sleep .session config.peerPollMs)
    else (.returned (), world)
  | .session, asking height stable, world =>
    match world.call node .session .height with
    | (none, world) => (.crashed, world)
    | (some current, world) =>
      if current = height then (.running (counting height (stable + 1)), world)
      else (.running (counting current 0), world.log (.chainMoved current))
  | .worker _, s, world => (.running s, world)

end SyncWait

end HeaderMiner
