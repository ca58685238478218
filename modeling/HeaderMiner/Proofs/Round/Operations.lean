import HeaderMiner.Round.Worker
import Mathlib.Algebra.BigOperators.Fin
import Mathlib.Algebra.BigOperators.Group.Finset.Basic

/-!
# Histories of a round's board

All that is ever done to a board and to the interrupt beside it are six operations. What they leave
depends on their history alone: the first claim is the winner for good, the last number that a worker
published is its count, and flags are only raised, so that the outcome can only gain weight.
-/

namespace HeaderMiner

/-- What an outcome counts when several things have happened in a round. -/
def Outcome.weight : Outcome → Nat
  | .exhausted => 0
  | .superseded => 1
  | .interrupted => 2
  | .solved => 3

namespace Board

/-- The flags of a board on which no claim, move of the chain or end of the nonces is half done. -/
structure Consistent (b : Board) : Prop where
  found : b.found = b.winner.isSome
  halted : b.found = true ∨ b.superseded = true ∨ b.exhausted = true → b.stop = true

theorem publish_of_workers_le {b : Board} {worker : Nat} (h : b.workers ≤ worker) (hashes : Nat) :
    b.publish worker hashes = b := by
  have hnot : ¬ worker < b.progress.size := Nat.not_lt.2 h
  simp [publish, Array.setIfInBounds, hnot]

theorem hashesOf_publish {b : Board} {i : Nat} (hi : i < b.workers) (worker hashes : Nat) :
    (b.publish worker hashes).hashesOf i = if worker = i then hashes else b.hashesOf i := by
  simp only [hashesOf, publish, Array.getElem?_setIfInBounds]
  split_ifs <;> simp_all [workers]

theorem hashesOf_of_workers_le {b : Board} {i : Nat} (h : b.workers ≤ i) : b.hashesOf i = 0 := by
  rw [hashesOf, Array.getElem?_eq_none h, Option.getD_none]

theorem totalHashes_eq (b : Board) : b.totalHashes = ∑ i ∈ Finset.range b.workers, b.hashesOf i := by
  have hget (i : Fin b.progress.toList.length) : b.progress.toList[i] = b.hashesOf i := by
    simp [hashesOf]
  rw [Finset.sum_range, totalHashes, ← List.sum_eq_foldr, ← Fin.sum_univ_getElem]
  exact Finset.sum_congr rfl fun i _ => hget i

/-- An outcome that is read with more flags raised weighs no less. -/
theorem outcome_weight_mono {b b' : Board} {i i' : Bool} (hf : b.found = true → b'.found = true)
    (hs : b.superseded = true → b'.superseded = true) (hi : i = true → i' = true) :
    (b.outcome i).weight ≤ (b'.outcome i').weight := by
  unfold outcome
  split_ifs <;> simp_all [Outcome.weight]

end Board

namespace Shared

variable {σ : Type}

inductive Operation where
  | claim (solution : Solution)
  | stop
  | supersede
  | exhaust
  /-- Some handle of the process interrupt is triggered. -/
  | interrupt
  | publish (worker hashes : Nat)
deriving DecidableEq

namespace Operation

def claimed? : Operation → Option Solution
  | .claim solution => some solution
  | _ => none

def published? (worker : Nat) : Operation → Option Nat
  | .publish i hashes => if i = worker then some hashes else none
  | _ => none

/-- The operation stops the round. -/
def stops : Operation → Bool
  | .claim _ | .stop | .supersede | .exhaust => true
  | .interrupt | .publish _ _ => false

theorem stops_of_claimed? {op : Operation} (h : op.claimed?.isSome = true) : op.stops = true := by
  rcases op <;> first | rfl | cases h

end Operation

/-- The solutions that were claimed, oldest first. -/
def claims (ops : List Operation) : List Solution := ops.filterMap Operation.claimed?

/-- The last number that was published for a worker. -/
def lastPublished (ops : List Operation) (worker : Nat) : Nat :=
  (ops.filterMap (Operation.published? worker)).getLast?.getD 0

def fresh (workers : Nat) (world : World σ) : Shared σ := ⟨Board.ofWorkers workers, world⟩

def perform (s : Shared σ) : Operation → Shared σ
  | .claim solution => { s with board := (s.board.claim solution).2 }
  | .stop => { s with board := s.board.halt }
  | .supersede => { s with board := s.board.supersede }
  | .exhaust => { s with board := s.board.exhaust }
  | .interrupt => { s with world := s.world.interrupt }
  | .publish worker hashes => { s with board := s.board.publish worker hashes }

def run (s : Shared σ) (ops : List Operation) : Shared σ := ops.foldl perform s

def outcome (s : Shared σ) : Outcome := s.board.outcome s.world.interrupted

theorem run_append (s : Shared σ) (ops : List Operation) (op : Operation) :
    s.run (ops ++ [op]) = (s.run ops).perform op := by
  simp [run]

/-! ## One operation -/

/-- What an operation makes of a round. Only a claim sets the winner, and only where there is none. -/
structure Performs (op : Operation) (s s' : Shared σ) : Prop where
  winner : s'.board.winner = s.board.winner.or op.claimed?
  found : s'.board.found = (s.board.found || s.board.winner.isNone && op.claimed?.isSome)
  stop : s'.board.stop = (s.board.stop || op.stops)
  superseded : s'.board.superseded = (s.board.superseded || op = .supersede)
  exhausted : s'.board.exhausted = (s.board.exhausted || op = .exhaust)
  interrupted : s'.world.interrupted = (s.world.interrupted || op = .interrupt)
  workers : s'.board.workers = s.board.workers
  hashesOf : ∀ worker < s.board.workers,
    s'.board.hashesOf worker = (op.published? worker).getD (s.board.hashesOf worker)

theorem performs (s : Shared σ) (op : Operation) : Performs op s (s.perform op) := by
  rcases op with solution | _ | _ | _ | _ | ⟨worker, hashes⟩
  case claim =>
    rcases hw : s.board.winner with _ | first <;>
      constructor <;>
        simp [perform, Board.claim, Board.offer, Board.markFound, Board.halt, hw, Operation.claimed?,
          Operation.stops, Operation.published?, Board.workers, Board.hashesOf]
  case publish =>
    constructor
    case hashesOf =>
      intro i hi
      rw [perform, Board.hashesOf_publish hi, Operation.published?]
      split_ifs <;> rfl
    all_goals simp [perform, Board.publish, Operation.claimed?, Operation.stops, Board.workers]
  all_goals
    constructor <;>
      simp [perform, Operation.claimed?, Operation.published?, Operation.stops, Board.halt,
        Board.supersede, Board.markSuperseded, Board.exhaust, Board.markExhausted,
        World.interrupt, Board.workers, Board.hashesOf]

/-! ## Nothing is taken back -/

/-- What was true of a round stays true. -/
structure Keeps (s s' : Shared σ) : Prop where
  found : s.board.found = true → s'.board.found = true
  stop : s.board.stop = true → s'.board.stop = true
  superseded : s.board.superseded = true → s'.board.superseded = true
  exhausted : s.board.exhausted = true → s'.board.exhausted = true
  interrupted : s.world.interrupted = true → s'.world.interrupted = true
  winner : ∀ solution, s.board.winner = some solution → s'.board.winner = some solution
  workers : s'.board.workers = s.board.workers

theorem Keeps.refl (s : Shared σ) : Keeps s s := by
  constructor <;> simp

theorem Keeps.trans {s s' s'' : Shared σ} (h : Keeps s s') (h' : Keeps s' s'') : Keeps s s'' where
  found hs := h'.found (h.found hs)
  stop hs := h'.stop (h.stop hs)
  superseded hs := h'.superseded (h.superseded hs)
  exhausted hs := h'.exhausted (h.exhausted hs)
  interrupted hs := h'.interrupted (h.interrupted hs)
  winner solution hs := h'.winner solution (h.winner solution hs)
  workers := h'.workers.trans h.workers

theorem Keeps.outcome_weight_le {s s' : Shared σ} (h : Keeps s s') :
    s.outcome.weight ≤ s'.outcome.weight :=
  Board.outcome_weight_mono h.found h.superseded h.interrupted

theorem Performs.keeps {op : Operation} {s s' : Shared σ} (h : Performs op s s') : Keeps s s' where
  found hs := by simp [h.found, hs]
  stop hs := by simp [h.stop, hs]
  superseded hs := by simp [h.superseded, hs]
  exhausted hs := by simp [h.exhausted, hs]
  interrupted hs := by simp [h.interrupted, hs]
  winner solution hs := by simp [h.winner, hs]
  workers := h.workers

theorem keeps_run (s : Shared σ) (ops : List Operation) : Keeps s (s.run ops) := by
  induction ops using List.reverseRecOn with
  | nil => exact Keeps.refl s
  | append_singleton ops op ih =>
    rw [run_append]
    exact ih.trans (performs _ op).keeps

/-! ## The record of a history -/

/-- What a board records of the operations since the round was fresh. -/
structure Records (workers : Nat) (ops : List Operation) (s : Shared σ) : Prop where
  winner : s.board.winner = (claims ops).head?
  consistent : s.board.Consistent
  workers_eq : s.board.workers = workers
  hashesOf : ∀ worker < workers, s.board.hashesOf worker = lastPublished ops worker

theorem claims_append (ops : List Operation) (op : Operation) :
    claims (ops ++ [op]) = claims ops ++ op.claimed?.toList := by
  rcases h : op.claimed? <;> simp [claims, h]

theorem lastPublished_append (ops : List Operation) (op : Operation) (worker : Nat) :
    lastPublished (ops ++ [op]) worker = (op.published? worker).getD (lastPublished ops worker) := by
  rcases h : op.published? worker <;> simp [lastPublished, h]

theorem records_fresh (workers : Nat) (world : World σ) :
    Records workers [] (fresh workers world) where
  winner := rfl
  consistent := ⟨rfl, by simp [fresh, Board.ofWorkers]⟩
  workers_eq := by simp [fresh, Board.workers, Board.ofWorkers]
  hashesOf worker hworker := by simp [fresh, lastPublished, Board.hashesOf, Board.ofWorkers, hworker]

theorem Performs.consistent {op : Operation} {s s' : Shared σ} (h : Performs op s s')
    (hs : s.board.Consistent) : s'.board.Consistent where
  found := by
    rw [h.found, h.winner, hs.found]
    rcases s.board.winner with _ | first <;> simp
  halted := by
    have hhalted := hs.halted
    rw [h.found, h.superseded, h.exhausted, h.stop]
    intro hflag
    rcases hstop : op.stops with _ | _
    · -- without a stop no flag is new
      have hclaimed : op.claimed?.isSome = false := by
        rw [Bool.eq_false_iff]
        intro hclaimed
        rw [Operation.stops_of_claimed? hclaimed] at hstop
        cases hstop
      have hsupersede : op ≠ .supersede := by
        rintro rfl
        cases hstop
      have hexhaust : op ≠ .exhaust := by
        rintro rfl
        cases hstop
      simp only [hclaimed, hsupersede, hexhaust, Bool.and_false, Bool.or_false, decide_false] at hflag ⊢
      exact hhalted hflag
    · exact Bool.or_true _

theorem Records.step {workers : Nat} {ops : List Operation} {s s' : Shared σ} {op : Operation}
    (h : Records workers ops s) (hop : Performs op s s') : Records workers (ops ++ [op]) s' where
  winner := by
    rw [hop.winner, h.winner, claims_append, List.head?_append, Option.head?_toList]
  consistent := hop.consistent h.consistent
  workers_eq := hop.workers.trans h.workers_eq
  hashesOf worker hworker := by
    have hinside : worker < s.board.workers := hworker.trans_eq h.workers_eq.symm
    rw [hop.hashesOf worker hinside, lastPublished_append, h.hashesOf worker hworker]

theorem records_run (workers : Nat) (world : World σ) (ops : List Operation) :
    Records workers ops ((fresh workers world).run ops) := by
  induction ops using List.reverseRecOn with
  | nil => exact records_fresh workers world
  | append_singleton ops op ih =>
    rw [run_append]
    exact ih.step (performs _ op)

/-- After any history of a round, a solution was found just when there is a winner, which is the first
that was claimed, and a claim wins just when it is the first. A round that has found a solution, has
been superseded or is exhausted is stopped, and nothing that comes later lowers a flag, changes the
winner or gives the outcome less weight. The counters hold what the workers published last, and a
number that no worker has counts for nothing. -/
theorem board_of_history (workers : Nat) (world : World σ) (ops : List Operation) :
    let s := (fresh workers world).run ops
    (s.board.found = true ↔ s.board.winner.isSome = true) ∧
    s.board.winner = (claims ops).head? ∧
    (∀ solution, (s.board.claim solution).1 = true ↔ claims ops = []) ∧
    (s.board.found = true ∨ s.board.superseded = true ∨ s.board.exhausted = true →
      s.board.stop = true) ∧
    (∀ later, Keeps s (s.run later) ∧ s.outcome.weight ≤ (s.run later).outcome.weight) ∧
    (∀ worker, s.board.hashesOf worker = if worker < workers then lastPublished ops worker else 0) ∧
    s.board.totalHashes = ∑ worker ∈ Finset.range workers, lastPublished ops worker ∧
    ∀ worker hashes, workers ≤ worker → s.perform (.publish worker hashes) = s := by
  intro s
  have h : Records workers ops s := records_run workers world ops
  refine ⟨by rw [h.consistent.found], h.winner, fun solution => ?_, h.consistent.halted,
    fun later => ?_, fun worker => ?_, ?_, fun worker hashes hle => ?_⟩
  · have hwinner := h.winner
    rcases hc : claims ops with _ | ⟨first, rest⟩ <;>
      simp_all [Board.claim, Board.offer]
  · have hkeeps := keeps_run s later
    exact ⟨hkeeps, hkeeps.outcome_weight_le⟩
  · split_ifs with hworker
    · exact h.hashesOf worker hworker
    · exact Board.hashesOf_of_workers_le (h.workers_eq.trans_le (Nat.not_lt.1 hworker))
  · rw [Board.totalHashes_eq, h.workers_eq]
    exact Finset.sum_congr rfl fun worker hmem => h.hashesOf worker (Finset.mem_range.1 hmem)
  · have hsame : s.board.publish worker hashes = s.board :=
      Board.publish_of_workers_le (h.workers_eq.trans_le hle) hashes
    simp [perform, hsame]

end Shared

end HeaderMiner
