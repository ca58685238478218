import HeaderMiner.Proofs.Round.Action
import HeaderMiner.Round.Basic
import Mathlib

/-!
# The runs of a round

A run opens the round, starts its workers, lets them search in any order, and hands in the winner. `Search` are the
states of the search that runs can come to, with the workers that took the steps; they are reached by actions
of single workers (`Search.acts`) and by the session's thread starting one or failing to, so an invariant of the
search is an induction on it. Where a run has come to is a `Stage` (`stage_run`); once the search is over, `After`
keeps what it ended with.
-/

namespace HeaderMiner.Round

variable {σ : Type}

/-- A step of a thread while the round searches: a worker that was started takes its step; the session's thread starts
the next worker or fails to, and goes on once the workers that were started have all ended. -/
inductive Advances (node : Node σ) (work : Work) (started : Nat) (board : Board) (workers : Array Worker)
    (world : World σ) : Thread → Spawning → Progress Round (Except Failure RoundReport) × World σ → Prop
  | stepped {spawning : Spawning} {id : Nat} {w : Worker} (hid : id < spawning.count) (hw : workers[id]? = some w) :
      Advances node work started board workers world (.worker id) spawning
        (.running (.searching work started spawning (w.step node ⟨board, world⟩).2.board
          (workers.setIfInBounds id (w.step node ⟨board, world⟩).1)), (w.step node ⟨board, world⟩).2.world)
  | waits {who : Thread} {spawning : Spawning}
      (hidle : ∀ id, who = .worker id → (if id < spawning.count then workers[id]? else none) = none) :
      Advances node work started board workers world who spawning
        (.running (.searching work started spawning board workers), world)
  | spawned {next : Nat} (hnext : next < workers.size) :
      Advances node work started board workers world .session (.upTo next)
        (.running (.searching work started (.upTo (next + 1)) board workers), world)
  | refused {next : Nat} (hnext : next < workers.size) :
      Advances node work started board workers world .session (.upTo next)
        (.running (.searching work started (.failed next) board.halt workers), world)
  | crashed {next worker : Nat} (hnext : workers.size ≤ next) (hended : workers.all Worker.hasEnded)
      (hcrash : crashedWorker? workers = some worker) :
      Advances node work started board workers world .session (.upTo next)
        (.returned (.error (.workerCrashed worker)), world)
  | unsolved {next : Nat} {notice : Notice} (hnext : workers.size ≤ next) (hended : workers.all Worker.hasEnded)
      (hcrash : crashedWorker? workers = none) (hwinner : board.winner = none) :
      Advances node work started board workers world .session (.upTo next)
        (.returned (.ok (tally work (board.outcome world.interrupted) (world.now - started) workers)),
          world.log notice)
  | solved {next : Nat} {notice : Notice} {winner : Solution} (hnext : workers.size ≤ next)
      (hended : workers.all Worker.hasEnded) (hcrash : crashedWorker? workers = none)
      (hwinner : board.winner = some winner) :
      Advances node work started board workers world .session (.upTo next)
        (.running (.submitting (tally work (board.outcome world.interrupted) (world.now - started) workers) winner
          .asking), world.log notice)
  | unspawned {worker : Nat} (hended : (workers.take worker).all Worker.hasEnded)
      (hcrash : crashedWorker? (workers.take worker) = none) :
      Advances node work started board workers world .session (.failed worker)
        (.returned (.error (.spawn worker)), world)
  | collapsed {worker : Nat} (hended : (workers.take worker).all Worker.hasEnded)
      (hcrash : (crashedWorker? (workers.take worker)).isSome) :
      Advances node work started board workers world .session (.failed worker) (.crashed, world)

theorem move_advances (config : Config) (host : Host) (node : Node σ) (who : Thread) (work : Work) (started : Nat)
    (spawning : Spawning) (board : Board) (workers : Array Worker) (world : World σ) :
    Advances node work started board workers world who spawning
      (move config host node who (.searching work started spawning board workers) world) := by
  cases who with
  | worker id =>
    rw [move]
    split
    · rename_i hid
      unfold stepWorker
      cases hw : workers[id]? with
      | none => exact .waits (by rintro _ ⟨⟩; rw [if_pos hid, hw])
      | some w => exact .stepped hid hw
    · rename_i hid
      exact .waits (by rintro _ ⟨⟩; rw [if_neg hid])
  | session =>
    cases spawning with
    | upTo next =>
      rw [move]
      split
      · rename_i hnext
        cases hspawns : host.spawns world.now next with
        | true =>
          simp only [spawn, hspawns, if_true]
          exact .spawned hnext
        | false =>
          simp only [spawn, hspawns, Bool.false_eq_true, if_false]
          exact .refused hnext
      · rename_i hnext
        split
        · rename_i hended
          cases hcrash : crashedWorker? workers with
          | some worker => exact .crashed (not_lt.1 hnext) hended hcrash
          | none =>
            cases hwinner : board.winner with
            | none => exact .unsolved (not_lt.1 hnext) hended hcrash hwinner
            | some winner => exact .solved (not_lt.1 hnext) hended hcrash hwinner
        · exact .waits (by rintro _ ⟨⟩)
    | failed worker =>
      rw [move]
      split
      · rename_i hended
        cases hcrash : crashedWorker? (workers.take worker) with
        | some crashed => exact .collapsed hended (by rw [hcrash]; rfl)
        | none => exact .unspawned hended hcrash
      · exact .waits (by rintro _ ⟨⟩)

/-- What a round is run with, and the world it is opened in. -/
structure Setup (σ : Type) where
  config : Config
  host : Host
  node : Node σ
  work : Work
  range : NonceRange
  world : World σ

/-- The worker that an event moves, as it is before the event. -/
def actor (e : Execution σ Round (Except Failure RoundReport)) : Event → Option Worker
  | .step (.worker id) =>
    match e.progress with
    | .running (.searching _ _ spawning _ workers) => if id < spawning.count then workers[id]? else none
    | _ => none
  | _ => none

namespace Setup

variable (r : Setup σ)

def threads : Nat := r.config.threadCount r.host

/-- The nonces of each worker. -/
def slices : List NonceRange := r.range.split r.threads

def settings : WorkerSettings := r.config.workerSettings r.host

def move : Move σ Round (Except Failure RoundReport) := Round.move r.config r.host r.node

/-- The round after a sequence of events. -/
def run (events : List Event) : Execution σ Round (Except Failure RoundReport) :=
  Execution.run r.move ⟨.running (.opening r.work r.range), r.world⟩ events

/-- What the round has written to the journal. -/
def entries (world : World σ) : List Entry := world.since r.world.journal.size

/-- The board and the workers, while the round searches. -/
def searching? (events : List Event) : Option (Board × Array Worker) :=
  match (r.run events).progress with
  | .running (.searching _ _ _ board workers) => some (board, workers)
  | _ => none

/-- How far the workers were started, while the round searches. -/
def spawning? (events : List Event) : Option Spawning :=
  match (r.run events).progress with
  | .running (.searching _ _ spawning _ _) => some spawning
  | _ => none

theorem entries_of_journal {world : World σ} {new : List Entry}
    (h : world.journal.toList = r.world.journal.toList ++ new) : r.entries world = new := by
  rw [entries, World.since, h, ← Array.length_toList]
  exact List.drop_left

/-- The workers that a run moves from an execution on, each as it is before its step. -/
def actorsFrom (e : Execution σ Round (Except Failure RoundReport)) : List Event → List Worker
  | [] => []
  | event :: events => (actor e event).toList ++ actorsFrom (e.next r.move event) events

/-- The workers that a run moves, each as it is before its step. -/
def actors (events : List Event) : List Worker :=
  r.actorsFrom ⟨.running (.opening r.work r.range), r.world⟩ events

theorem run_append (xs ys : List Event) : r.run (xs ++ ys) = (r.run xs).run r.move ys :=
  Execution.run_append _ _ _ _

theorem run_concat (events : List Event) (event : Event) :
    r.run (events ++ [event]) = (r.run events).next r.move event :=
  Execution.run_concat _ _ _ _

theorem actorsFrom_append (e : Execution σ Round (Except Failure RoundReport)) (xs ys : List Event) :
    r.actorsFrom e (xs ++ ys) = r.actorsFrom e xs ++ r.actorsFrom (e.run r.move xs) ys := by
  induction xs generalizing e with
  | nil => rfl
  | cons x xs ih =>
    show (actor e x).toList ++ r.actorsFrom _ (xs ++ ys) = _
    rw [ih, ← List.append_assoc]
    rfl

theorem actors_concat (events : List Event) (event : Event) :
    r.actors (events ++ [event]) = r.actors events ++ (actor (r.run events) event).toList := by
  rw [actors, actorsFrom_append]
  show _ ++ ((actor _ event).toList ++ []) = _
  rw [List.append_nil]
  rfl

end Setup

/-- The searches that a run can come to, with the workers that were moved. -/
inductive Search (r : Setup σ) : List Worker → Spawning → Array Worker → Shared σ → Prop
  | opened {world : World σ} {n₁ n₂ : Notice}
      (hworld : world.journal.toList = r.world.journal.toList ++ [.logged n₁, .logged n₂]) :
      Search r [] (.upTo 0) (crew r.work r.range r.threads r.settings) ⟨Board.ofWorkers r.threads, world⟩
  | spawned {history : List Worker} {next : Nat} {workers : Array Worker} {s : Shared σ}
      (h : Search r history (.upTo next) workers s) (hnext : next < workers.size) :
      Search r history (.upTo (next + 1)) workers s
  | refused {history : List Worker} {next : Nat} {workers : Array Worker} {s : Shared σ}
      (h : Search r history (.upTo next) workers s) (hnext : next < workers.size) :
      Search r history (.failed next) workers { s with board := s.board.halt }
  | stepped {history : List Worker} {spawning : Spawning} {workers : Array Worker} {s : Shared σ} {i : Nat}
      {w : Worker} (h : Search r history spawning workers s) (hw : workers[i]? = some w) :
      Search r (history ++ [w]) spawning (workers.setIfInBounds i (w.step r.node s).1) (w.step r.node s).2
  | interrupted {history : List Worker} {spawning : Spawning} {workers : Array Worker} {s : Shared σ}
      (h : Search r history spawning workers s) :
      Search r history spawning workers { s with world := s.world.interrupt }
  | elapsed {history : List Worker} {spawning : Spawning} {workers : Array Worker} {s : Shared σ} (nanos : Nat)
      (h : Search r history spawning workers s) :
      Search r history spawning workers { s with world := s.world.elapse nanos }

namespace Search

variable {r : Setup σ} {history : List Worker} {spawning : Spawning} {workers : Array Worker} {s : Shared σ} {i : Nat}
  {w : Worker}

theorem getElem?_crew (work : Work) (range : NonceRange) (threads : Nat) (settings : WorkerSettings) (i : Nat) :
    (crew work range threads settings)[i]? =
      (range.split threads)[i]?.map fun slice => Worker.ofSlice i slice work settings := by
  rw [crew, List.getElem?_toArray, List.getElem?_mapIdx]

theorem task (h : Search r history spawning workers s) (hw : workers[i]? = some w) :
    ∃ slice, r.slices[i]? = some slice ∧ (Worker.ofSlice i slice r.work r.settings).SameTask w := by
  induction h generalizing i w with
  | opened =>
    rw [getElem?_crew] at hw
    obtain ⟨slice, hslice, rfl⟩ := Option.map_eq_some_iff.1 hw
    exact ⟨slice, hslice, .refl _⟩
  | @stepped _ _ _ s j v _ hv ih =>
    by_cases hij : j = i
    · subst hij
      obtain ⟨slice, hslice, htask⟩ := ih hv
      obtain ⟨_, _, _, hacts⟩ := v.step_isAction r.node s
      have hsome := Array.getElem?_eq_some_iff.1 hv
      rw [Array.getElem?_setIfInBounds_self_of_lt hsome.1] at hw
      cases hw
      exact ⟨slice, hslice, htask.trans hacts.sameTask⟩
    · rw [Array.getElem?_setIfInBounds_ne hij] at hw
      exact ih hw
  | spawned _ _ ih | refused _ _ ih | interrupted _ ih | elapsed _ _ ih => exact ih hw

theorem id_eq (h : Search r history spawning workers s) (hw : workers[i]? = some w) : w.id = i := by
  obtain ⟨_, _, htask⟩ := h.task hw
  exact htask.id

theorem size_workers (h : Search r history spawning workers s) : workers.size = r.threads := by
  induction h with
  | opened => simp [crew, NonceRange.split]
  | stepped _ _ ih => rw [Array.size_setIfInBounds, ih]
  | spawned _ _ ih | refused _ _ ih | interrupted _ ih | elapsed _ _ ih => exact ih

theorem count_le (h : Search r history spawning workers s) : spawning.count ≤ r.threads := by
  induction h with
  | opened => exact Nat.zero_le _
  | spawned h hnext _ =>
    rw [h.size_workers] at hnext
    exact hnext
  | refused _ _ ih | stepped _ _ ih | interrupted _ ih | elapsed _ _ ih => exact ih

theorem failed_lt {worker : Nat} (h : Search r history (.failed worker) workers s) : worker < r.threads := by
  generalize hspawning : Spawning.failed worker = spawning at h
  induction h with
  | opened | spawned => cases hspawning
  | refused h hnext _ =>
    cases hspawning
    rw [h.size_workers] at hnext
    exact hnext
  | stepped _ _ ih | interrupted _ ih | elapsed _ _ ih => exact ih hspawning

theorem size_progress (h : Search r history spawning workers s) : s.board.progress.size = r.threads := by
  induction h with
  | opened => exact Array.size_replicate
  | @stepped _ _ _ s _ v _ _ ih =>
    obtain ⟨_, _, _, hacts⟩ := v.step_isAction r.node s
    exact hacts.size_progress.trans ih
  | spawned _ _ ih | refused _ _ ih | interrupted _ ih | elapsed _ _ ih => exact ih

theorem size_journal (h : Search r history spawning workers s) : r.world.journal.size ≤ s.world.journal.size := by
  have hlen {world : World σ} {new : List Entry} {old : Array Entry}
      (hj : world.journal.toList = old.toList ++ new) : old.size ≤ world.journal.size := by
    rw [← Array.length_toList, ← Array.length_toList, hj, List.length_append]
    exact Nat.le_add_right _ _
  induction h with
  | opened hworld => exact hlen hworld
  | @stepped _ _ _ s _ v _ _ ih =>
    obtain ⟨_, hj, _, _⟩ := v.step_isAction r.node s
    exact ih.trans (hlen hj)
  | spawned _ _ ih | refused _ _ ih | interrupted _ ih | elapsed _ _ ih => exact ih

/-- A step of a worker is an action, and the new entries come after the others. -/
theorem acts (h : Search r history spawning workers s) (w : Worker) :
    ∃ new, r.entries (w.step r.node s).2.world = r.entries s.world ++ new ∧ SearchesFor w.thread new ∧
      w.Acts s.board (w.step r.node s).1 (w.step r.node s).2.board new := by
  obtain ⟨new, hj, hnew, hacts⟩ := w.step_isAction r.node s
  exact ⟨new, World.since_append h.size_journal hj, hnew, hacts⟩

/-- What holds of a worker after its own step, and is kept by the steps of the others, holds of all. -/
theorem forall_set {P P' : Nat → Worker → Prop} {j : Nat} {v v' : Worker}
    (hP : ∀ i w, workers[i]? = some w → P i w) (hv : workers[j]? = some v) (hself : P j v → P' j v')
    (hothers : ∀ i w, i ≠ j → workers[i]? = some w → P i w → P' i w) :
    ∀ i w, (workers.setIfInBounds j v')[i]? = some w → P' i w := by
  intro i w hw
  by_cases hij : j = i
  · subst hij
    rw [Array.getElem?_setIfInBounds_self_of_lt (Array.getElem?_eq_some_iff.1 hv).1] at hw
    cases hw
    exact hself (hP _ _ hv)
  · rw [Array.getElem?_setIfInBounds_ne hij] at hw
    exact hothers i w (Ne.symm hij) hw (hP i w hw)

end Search

end HeaderMiner.Round
