import HeaderMiner.Config.Basic
import HeaderMiner.Round.Board
import HeaderMiner.Round.Filter

/-!
# Workers

A worker searches one slice of the nonces with an engine of its own. It hashes batch after batch; after
a window of `resyncBatches` batches it takes over the node's time, makes its progress known and looks
whether the round was stopped. Worker 0 leads: in each window it also turns an interrupt of the process
into a stop of the round, and asks for the chain's tip.

`Worker.step` is one atomic action: at most one read or write of the board or of the interrupt, or one
call of the node. `Worker.Phase` says what the next action is.
-/

namespace HeaderMiner

structure Shared (σ : Type) where
  board : Board
  world : World σ

structure WorkerSettings where
  lanes : LaneWidth
  resyncBatches : Nat
  tipPollMs : UInt64
deriving DecidableEq

def Config.workerSettings (c : Config) (host : Host) : WorkerSettings :=
  ⟨c.laneWidth host, c.resyncBatches.toNat, c.tipPollMs⟩

inductive Worker.Phase where
  | starting
  /-- Hash a batch, with `left` batches to go in this window. -/
  | hashing (left : Nat)
  /-- Test the digests of a batch that are still pending. -/
  | testing (left : Nat) (pending : List (UInt32 × Digest))
  | claiming (solution : Solution)
  /-- The claim won: raise the found flag. -/
  | announcing (solution : Solution)
  /-- Raise the stop flag after a claim. -/
  | closing (solution : Solution) (won : Bool)
  | refreshing
  | publishing
  /-- Lead: read the interrupt. -/
  | observing
  /-- Lead: the process is interrupted, raise the stop flag. -/
  | cancelling
  /-- Lead, before each look at the tip: read the stop flag. -/
  | watchingStop
  /-- Lead, before each look at the tip: read the interrupt. -/
  | watchingInterrupt
  | askingTip
  /-- Lead: the tip has moved, raise the superseded flag. -/
  | superseding
  /-- Lead: the tip has moved, raise the stop flag. -/
  | abandoning
  /-- Read the stop flag at the end of a window. -/
  | deciding
  /-- Make the final progress known. -/
  | finishing
  /-- Lead: out of nonces, raise the exhausted flag. -/
  | exhausting
  /-- Lead: out of nonces, raise the stop flag. -/
  | concluding
  | done
  /-- A call of the node crashed the worker's thread. -/
  | crashed
deriving DecidableEq

structure Worker where
  id : Nat
  slice : NonceRange
  work : Work
  settings : WorkerSettings
  /-- The header with the time that is being hashed. -/
  header : RawHeader
  engine : Engine
  cursor : Nat
  hashes : Nat
  falsePositives : Nat
  /-- The exit to report; meaningful once the worker is finishing. -/
  exit : WorkerExit
  phase : Worker.Phase
deriving DecidableEq

namespace Worker

def ofSlice (id : Nat) (slice : NonceRange) (work : Work) (settings : WorkerSettings) : Worker where
  id := id
  slice := slice
  work := work
  settings := settings
  header := work.header
  engine := Engine.ofHeader work.header
  cursor := slice.start
  hashes := 0
  falsePositives := 0
  exit := .stopped
  phase := .starting

def isLead (w : Worker) : Bool := w.id == 0

def thread (w : Worker) : Thread := .worker w.id

def hasEnded (w : Worker) : Bool := w.phase = .done ∨ w.phase = .crashed

def report (w : Worker) : WorkerReport := ⟨w.id, w.slice, w.hashes, w.falsePositives, w.exit⟩

def goto (w : Worker) (phase : Phase) : Worker := { w with phase }

/-- Ends with an exit, after the final progress is known. -/
def leave (w : Worker) (exit : WorkerExit) : Worker := { w with exit, phase := .finishing }

def openWindow (w : Worker) : Worker := w.goto (.hashing w.settings.resyncBatches)

def remaining (w : Worker) : Nat := w.slice.stop - w.cursor

/-- The width of the next batch, narrowed at the end of the slice. Sizes have 64 bits here, so the number of nonces that
remain is taken as it is. -/
def batchWidth (w : Worker) : LaneWidth :=
  (LaneWidth.ofCount? (min w.settings.lanes.count w.remaining)).getD .one

/-- The nonces of the next batch with their digests. -/
def batch (w : Worker) : List (UInt32 × Digest) := w.engine.hashBatch w.batchWidth w.cursor.toUInt32

/-- Hashes the next batch and leaves its digests to be tested. -/
def hashBatch (w : Worker) (left : Nat) : Worker :=
  { w with
    cursor := w.cursor + w.batch.length
    hashes := w.hashes + w.batch.length
    phase := .testing left w.batch }

/-- The solution that a nonce with a good hash is. -/
def solution (w : Worker) (nonce : UInt32) (hash : BlockHash) : Solution :=
  ⟨w.header.setNonce nonce, nonce, w.header.time, hash, w.id⟩

/-- Takes over the node's time, in the header and in the engine. -/
def setTime (w : Worker) (time : UInt32) : Worker :=
  if time = w.header.time then w
  else { w with header := w.header.setTime time, engine := w.engine.setTime time }

variable {σ : Type}

def step (node : Node σ) (w : Worker) (s : Shared σ) : Worker × Shared σ :=
  match w.phase with
  | .starting =>
    let s := { s with world := s.world.log (.scanning w.id w.slice) }
    (if w.slice.isEmpty then w.leave .exhausted else w.openWindow, s)
  | .hashing 0 => (w.goto .refreshing, s)
  | .hashing (left + 1) =>
    (if w.remaining = 0 then w.leave .exhausted else w.hashBatch left, s)
  | .testing left [] => (w.goto (.hashing left), s)
  | .testing left ((nonce, digest) :: pending) =>
    let filter := Filter.ofWork w.work
    if filter.precheck digest then
      let (result, world) := filter.check node w.thread digest s.world
      let s := { s with world }
      match result with
      | none => (w.goto .crashed, s)
      | some (some hash) => (w.goto (.claiming (w.solution nonce hash)), s)
      | some none =>
        ({ w with falsePositives := w.falsePositives + 1, phase := .testing left pending }, s)
    else (w.goto (.testing left pending), s)
  | .claiming solution =>
    let (won, board) := s.board.offer solution
    (w.goto (if won then .announcing solution else .closing solution false), { s with board })
  | .announcing solution =>
    (w.goto (.closing solution true), { s with board := s.board.markFound })
  | .closing solution won =>
    let s := { s with board := s.board.halt }
    if won then
      (w.leave .solved,
        { s with world := s.world.log (.blockFound w.id solution.hash solution.nonce) })
    else (w.leave .stopped, s)
  | .refreshing =>
    let (time, world) := s.world.call node w.thread .time
    match time with
    | none => (w.goto .crashed, { s with world })
    | some time => ((w.setTime time).goto .publishing, { s with world })
  | .publishing =>
    (w.goto (if w.isLead then .observing else .deciding),
      { s with board := s.board.publish w.id w.hashes })
  | .observing => (w.goto (if s.world.interrupted then .cancelling else .watchingStop), s)
  | .cancelling => (w.goto .deciding, { s with board := s.board.halt })
  | .watchingStop => (w.goto (if s.board.stop then .deciding else .watchingInterrupt), s)
  | .watchingInterrupt => (w.goto (if s.world.interrupted then .deciding else .askingTip), s)
  | .askingTip =>
    let (answer, world) := s.world.call node w.thread .tip
    match answer with
    | none => (w.goto .crashed, { s with world })
    | some none =>
      (w.goto .watchingStop, { s with world := world.sleep w.thread w.settings.tipPollMs })
    | some (some tip) =>
      if tip = w.work.header.prevBlockHash then (w.goto .deciding, { s with world })
      else (w.goto .superseding, { s with world := world.log (.tipMoved tip) })
  | .superseding => (w.goto .abandoning, { s with board := s.board.markSuperseded })
  | .abandoning => (w.goto .deciding, { s with board := s.board.halt })
  | .deciding => (if s.board.stop then w.leave .stopped else w.openWindow, s)
  | .finishing =>
    let s := { s with board := s.board.publish w.id w.hashes }
    if w.exit = .exhausted then
      (w.goto (if w.isLead then .exhausting else .done),
        { s with world := s.world.log (.rangeExhausted w.id w.hashes) })
    else (w.goto .done, s)
  | .exhausting => (w.goto .concluding, { s with board := s.board.markExhausted })
  | .concluding => (w.goto .done, { s with board := s.board.halt })
  | .done | .crashed => (w, s)

/-- A worker alone with its board, as an activity: it ends with the worker's report and the board. -/
def solo (node : Node σ) : Move σ (Worker × Board) (WorkerReport × Board)
  | .worker _, (w, board), world =>
    let (w, s) := w.step node { board, world }
    (match w.phase with
      | .done => .returned (w.report, s.board)
      | .crashed => .crashed
      | _ => .running (w, s.board), s.world)
  | .session, state, world => (.running state, world)

end Worker

end HeaderMiner
