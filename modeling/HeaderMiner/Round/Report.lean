import HeaderMiner.HashRate
import HeaderMiner.Header.Basic
import HeaderMiner.NonceRange
import HeaderMiner.Text.Json.Basic

/-!
# Reports of a round

What a round leaves behind: its outcome, a report from each worker, and the solution with what became
of it. Totals and rates are functions of these.
-/

namespace HeaderMiner

/-- A header that met its target, as it was hashed. -/
structure Solution where
  header : RawHeader
  nonce : UInt32
  time : UInt32
  hash : BlockHash
  worker : Nat
deriving DecidableEq

/-- The solution that a header is for itself. -/
def Solution.ofHeader (h : RawHeader) (worker : Nat) : Solution :=
  ⟨h, h.nonce, h.time, h.blockHash, worker⟩

inductive Outcome where
  | solved | exhausted | superseded | interrupted
deriving DecidableEq, Repr

def Outcome.name : Outcome → String
  | .solved => "solved"
  | .exhausted => "exhausted"
  | .superseded => "superseded"
  | .interrupted => "interrupted"

inductive Delivery where
  | accepted
  | rejected
  /-- No peer was there to take it, so it was dropped. -/
  | noPeers
  /-- The node failed while taking it. -/
  | failed
deriving DecidableEq, Repr

def Delivery.name : Delivery → String
  | .accepted => "accepted"
  | .rejected => "rejected"
  | .noPeers => "no_peers"
  | .failed => "failed"

inductive WorkerExit where
  | solved
  | exhausted
  | stopped
deriving DecidableEq, Repr

def WorkerExit.name : WorkerExit → String
  | .solved => "solved"
  | .exhausted => "exhausted"
  | .stopped => "stopped"

structure WorkerReport where
  id : Nat
  range : NonceRange
  hashes : Nat
  /-- Digests that passed the cheap test and failed the full one. -/
  falsePositives : Nat
  exit : WorkerExit
deriving DecidableEq

structure RoundReport where
  outcome : Outcome
  delivery : Option Delivery := none
  solution : Option Solution := none
  bits : UInt32
  /-- The round's duration in nanoseconds. -/
  elapsed : Nat
  workers : List WorkerReport
deriving DecidableEq

namespace RoundReport

def hashes (r : RoundReport) : Nat := (r.workers.map (·.hashes)).foldr (· + ·) 0

def falsePositives (r : RoundReport) : Nat :=
  (r.workers.map (·.falsePositives)).foldr (· + ·) 0

def elapsedMs (r : RoundReport) : Nat := wholeMillis r.elapsed

def hashRate (r : RoundReport) : HashRate := HashRate.ofHashes r.hashes r.elapsed

end RoundReport

def NonceRange.toJson (r : NonceRange) : Json := .record [("start", .nat r.start), ("end", .nat r.stop)]

def Solution.toJson (s : Solution) : Json :=
  .record [
    ("header", .text s.header.toHex),
    ("nonce", .nat s.nonce.toNat),
    ("time", .nat s.time.toNat),
    ("hash", .text s.hash.display),
    ("worker", .nat s.worker)]

def WorkerReport.toJson (r : WorkerReport) : Json :=
  .record [
    ("id", .nat r.id),
    ("range", r.range.toJson),
    ("hashes", .nat r.hashes),
    ("false_positives", .nat r.falsePositives),
    ("exit", .text r.exit.name)]

def RoundReport.toJson (r : RoundReport) : Json :=
  .record [
    ("outcome", .text r.outcome.name),
    ("submission", r.delivery.elim .null (.text ·.name)),
    ("solution", r.solution.elim .null Solution.toJson),
    ("bits", .nat r.bits.toNat),
    ("hashes", .nat r.hashes),
    ("false_positives", .nat r.falsePositives),
    ("elapsed_ms", .nat r.elapsedMs),
    ("hash_rate", .float r.hashRate.perSecond),
    ("workers", .list (r.workers.map WorkerReport.toJson))]

end HeaderMiner
