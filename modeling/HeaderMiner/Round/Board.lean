import HeaderMiner.Round.Report

/-!
# The board of a round

The workers of a round see one board: a winner that can be set once, flags that are only ever raised,
and a counter of hashes for each worker. A claim consists of three separate writes, of which a worker
may be interrupted after each; `claim` makes all three.
-/

namespace HeaderMiner

structure Board where
  /-- The first solution that was claimed. -/
  winner : Option Solution := none
  found : Bool := false
  stop : Bool := false
  /-- The chain has moved past the header. -/
  superseded : Bool := false
  /-- The leading worker has run out of nonces. -/
  exhausted : Bool := false
  /-- The hashes that each worker has made known. -/
  progress : Array Nat
deriving DecidableEq

namespace Board

def ofWorkers (workers : Nat) : Board := { progress := Array.replicate workers 0 }

/-- Sets the winner unless there is one, and tells whether it did. -/
def offer (b : Board) (s : Solution) : Bool × Board :=
  match b.winner with
  | none => (true, { b with winner := some s })
  | some _ => (false, b)

def markFound (b : Board) : Board := { b with found := true }

def halt (b : Board) : Board := { b with stop := true }

def markSuperseded (b : Board) : Board := { b with superseded := true }

def markExhausted (b : Board) : Board := { b with exhausted := true }

/-- Claims the round for a solution and stops it; the first claim wins. -/
def claim (b : Board) (s : Solution) : Bool × Board :=
  let (won, b) := b.offer s
  (won, (if won then b.markFound else b).halt)

/-- The chain moved past the header, which stops the round. -/
def supersede (b : Board) : Board := b.markSuperseded.halt

/-- The leading worker ran out of nonces, which stops the round. -/
def exhaust (b : Board) : Board := b.markExhausted.halt

/-- Makes a worker's hashes known; a number that no worker has is ignored. -/
def publish (b : Board) (worker hashes : Nat) : Board :=
  { b with progress := b.progress.setIfInBounds worker hashes }

def hashesOf (b : Board) (worker : Nat) : Nat := b.progress[worker]?.getD 0

def workers (b : Board) : Nat := b.progress.size

def totalHashes (b : Board) : Nat := b.progress.toList.foldr (· + ·) 0

/-- Why the round ended, once all workers have: a solution counts most, then an interrupt of the
process, then a move of the chain. -/
def outcome (b : Board) (interrupted : Bool) : Outcome :=
  if b.found then .solved
  else if interrupted then .interrupted
  else if b.superseded then .superseded
  else .exhausted

end Board

end HeaderMiner
