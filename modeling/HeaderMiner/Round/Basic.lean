import HeaderMiner.Round.Submission
import HeaderMiner.Round.Worker

/-!
# Rounds

A round searches a range of nonces for one header. The range is split among the workers, which the
session's thread starts one after another. They run side by side until all have ended; then the session's
thread reads the outcome from the board and hands in the winner, if there is one. If a worker crashed the
round fails, with the lowest such worker. If a worker cannot be started the round fails too, as soon as
those that were started have ended.
-/

namespace HeaderMiner

/-- How far the session's thread has come with starting the workers of a round. -/
inductive Round.Spawning where
  /-- It has started the workers before `next`. -/
  | upTo (next : Nat)
  /-- It could not start this worker, and does not try those after it. -/
  | failed (worker : Nat)
deriving DecidableEq

/-- The number of workers that were started. -/
def Round.Spawning.count : Spawning → Nat
  | upTo next => next
  | failed worker => worker

inductive Round where
  | opening (work : Work) (range : NonceRange)
  /-- The workers that were started search; the round started at `started`. -/
  | searching (work : Work) (started : Nat) (spawning : Round.Spawning) (board : Board) (workers : Array Worker)
  | submitting (report : RoundReport) (winner : Solution) (submission : Submission)
deriving DecidableEq

namespace Round

variable {σ : Type}

/-- The workers of a round before their first steps, one for each slice of the range. -/
def crew (work : Work) (range : NonceRange) (threads : Nat) (settings : WorkerSettings) :
    Array Worker :=
  ((range.split threads).mapIdx fun id slice => Worker.ofSlice id slice work settings).toArray

def stepWorker (node : Node σ) (id : Nat) (workers : Array Worker) (s : Shared σ) :
    Array Worker × Shared σ :=
  match workers[id]? with
  | none => (workers, s)
  | some worker =>
    let (worker, s) := worker.step node s
    (workers.setIfInBounds id worker, s)

/-- Starts a worker, or else stops the round. -/
def spawn (host : Host) (now worker : Nat) (board : Board) : Spawning × Board :=
  if host.spawns now worker then (.upTo (worker + 1), board) else (.failed worker, board.halt)

/-- The worker with the lowest number that crashed. -/
def crashedWorker? (workers : Array Worker) : Option Nat :=
  workers.findIdx? fun w => w.phase = .crashed

/-- The report of a round whose workers have all ended, without what becomes of its winner. -/
def tally (work : Work) (outcome : Outcome) (elapsed : Nat) (workers : Array Worker) : RoundReport where
  outcome := outcome
  bits := work.header.bits
  elapsed := elapsed
  workers := workers.toList.map Worker.report

/-- A step of a worker that was started, or of the session's thread, which waits while workers are running.
Where a worker could not be started, the others are left to end by themselves; one that crashed then
crashes the session's thread as well. -/
def move (config : Config) (host : Host) (node : Node σ) :
    Move σ Round (Except Failure RoundReport)
  | .session, opening work range, world =>
    let threads := config.threadCount host
    let settings := config.workerSettings host
    let world := (world.log
      (.roundStarted work.header.prevBlockHash threads settings.lanes work.header.bits)).log
      (.roundTarget work.target)
    (.running (searching work world.now (.upTo 0) (Board.ofWorkers threads)
      (crew work range threads settings)), world)
  | .worker id, searching work started spawning board workers, world =>
    if id < spawning.count then
      let (workers, s) := stepWorker node id workers { board, world }
      (.running (searching work started spawning s.board workers), s.world)
    else (.running (searching work started spawning board workers), world)
  | .session, searching work started (.upTo next) board workers, world =>
    if next < workers.size then
      let (spawning, board) := spawn host world.now next board
      (.running (searching work started spawning board workers), world)
    else if workers.all Worker.hasEnded then
      match crashedWorker? workers with
      | some worker => (.returned (.error (.workerCrashed worker)), world)
      | none =>
        let report := tally work (board.outcome world.interrupted) (world.now - started) workers
        let world := world.log (.roundEnded report.outcome report.hashes report.elapsed)
        match board.winner with
        | none => (.returned (.ok report), world)
        | some winner => (.running (submitting report winner .asking), world)
    else (.running (searching work started (.upTo next) board workers), world)
  | .session, searching work started (.failed worker) board workers, world =>
    let others := workers.take worker
    if others.all Worker.hasEnded then
      match crashedWorker? others with
      | some _ => (.crashed, world)
      | none => (.returned (.error (.spawn worker)), world)
    else (.running (searching work started (.failed worker) board workers), world)
  | .session, submitting report winner submission, world =>
    match submission.move config node winner .session world with
    | (.crashed, world) => (.crashed, world)
    | (.running submission, world) => (.running (submitting report winner submission), world)
    | (.returned (.ok delivery), world) =>
      (.returned (.ok { report with delivery := some delivery, solution := some winner }), world)
    | (.returned (.error failure), world) =>
      (.returned (.ok { report with delivery := some .failed, solution := some winner }),
        world.log (.submitFailed winner.hash failure))
  | .worker _, r, world => (.running r, world)

def threads : Round → List Thread
  | searching _ _ _ _ workers => .session :: (List.range workers.size).map .worker
  | _ => [.session]

end Round

end HeaderMiner
