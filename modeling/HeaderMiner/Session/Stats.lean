import HeaderMiner.Round.Report

/-!
# Statistics of a session

Counts over all rounds of a session, kept up by `Stats.record`.
-/

namespace HeaderMiner

structure Stats where
  rounds : Nat := 0
  solved : Nat := 0
  accepted : Nat := 0
  rejected : Nat := 0
  /-- Solutions dropped because no peer was there to take them. -/
  dropped : Nat := 0
  /-- Solutions that the node failed to take. -/
  failed : Nat := 0
  exhausted : Nat := 0
  superseded : Nat := 0
  interrupted : Nat := 0
  templateErrors : Nat := 0
  totalHashes : Nat := 0
  elapsedMs : Nat := 0
  /-- The hashes of accepted blocks, oldest first. -/
  blocks : List BlockHash := []
deriving DecidableEq

namespace Stats

/-- Hashes over the time of all rounds, in whole milliseconds a round. -/
def hashRate (s : Stats) : HashRate :=
  HashRate.ofHashes s.totalHashes (s.elapsedMs * nanosPerMilli)

def countOutcome (s : Stats) : Outcome → Stats
  | .solved => { s with solved := s.solved + 1 }
  | .exhausted => { s with exhausted := s.exhausted + 1 }
  | .superseded => { s with superseded := s.superseded + 1 }
  | .interrupted => { s with interrupted := s.interrupted + 1 }

/-- Counts what became of a round's solution. -/
def countDelivery (s : Stats) (solution : Option Solution) : Option Delivery → Stats
  | some .accepted =>
    { s with accepted := s.accepted + 1, blocks := s.blocks ++ (solution.map (·.hash)).toList }
  | some .rejected => { s with rejected := s.rejected + 1 }
  | some .noPeers => { s with dropped := s.dropped + 1 }
  | some .failed => { s with failed := s.failed + 1 }
  | none => s

def record (s : Stats) (r : RoundReport) : Stats :=
  let s := { s with
    rounds := s.rounds + 1
    totalHashes := s.totalHashes + r.hashes
    elapsedMs := s.elapsedMs + r.elapsedMs }
  (s.countOutcome r.outcome).countDelivery r.solution r.delivery

def toJson (s : Stats) : Json :=
  .record [
    ("rounds", .nat s.rounds),
    ("solved", .nat s.solved),
    ("accepted", .nat s.accepted),
    ("rejected", .nat s.rejected),
    ("dropped", .nat s.dropped),
    ("failed", .nat s.failed),
    ("exhausted", .nat s.exhausted),
    ("superseded", .nat s.superseded),
    ("interrupted", .nat s.interrupted),
    ("template_errors", .nat s.templateErrors),
    ("total_hashes", .nat s.totalHashes),
    ("elapsed_ms", .nat s.elapsedMs),
    ("hash_rate", .float s.hashRate.perSecond),
    ("blocks", .list (s.blocks.map fun h => .text h.display))]

end Stats

end HeaderMiner
