import HeaderMiner.Config.Basic
import HeaderMiner.World

/-!
# Fetching a template

A template commits to the node's latest reference, so the miner first asks for that and then for a
header that commits to it.
-/

namespace HeaderMiner

inductive TemplateFetch where
  | askingReference
  | askingTemplate (reference : BlockHash)
deriving DecidableEq

namespace TemplateFetch

variable {σ : Type}

/-- The first failure of the node ends the fetch. -/
def move (config : Config) (node : Node σ) : Move σ TemplateFetch (Except NodeFailure Work)
  | .session, askingReference, world =>
    match world.call node .session .reference with
    | (none, world) => (.crashed, world)
    | (some (.ok reference), world) => (.running (askingTemplate reference), world)
    | (some (.error failure), world) => (.returned (.error failure), world)
  | .session, askingTemplate reference, world =>
    match world.call node .session (.template config.payout reference) with
    | (none, world) => (.crashed, world)
    | (some result, world) => (.returned result, world)
  | .worker _, t, world => (.running t, world)

end TemplateFetch

end HeaderMiner
