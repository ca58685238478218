import HeaderMiner.Node.Basic

/-!
# The world of a session

All threads of a session act on one world: a node, the process interrupt, a clock and a journal of
what was asked, logged and waited for. An activity is moved one step at a time by one thread; an
execution is an activity in its world, and its runs are sequences of events: steps of threads in any
order, with interrupts and passing time in between.
-/

namespace HeaderMiner

/-- A thread of a session: the one that runs the session, or a worker of its current round. -/
inductive Thread where
  | session
  | worker (id : Nat)
deriving DecidableEq, Repr

inductive Entry where
  /-- A request that was answered. -/
  | called (who : Thread) (request : Request) (answer : request.Answer)
  | logged (notice : Notice)
  | slept (who : Thread) (ms : UInt64)

structure World (σ : Type) where
  node : σ
  /-- The process interrupt; once set it stays set. -/
  interrupted : Bool := false
  /-- Nanoseconds since the process began. -/
  now : Nat := 0
  /-- What happened, oldest first. -/
  journal : Array Entry := #[]

namespace World

variable {σ : Type}

def interrupt (w : World σ) : World σ := { w with interrupted := true }

def elapse (nanos : Nat) (w : World σ) : World σ := { w with now := w.now + nanos }

def log (notice : Notice) (w : World σ) : World σ :=
  { w with journal := w.journal.push (.logged notice) }

def sleep (who : Thread) (ms : UInt64) (w : World σ) : World σ :=
  { w with journal := w.journal.push (.slept who ms) }

/-- A thread calls the node. A call that crashes the thread still has its other effects. -/
def call (node : Node σ) (who : Thread) (r : Request) (w : World σ) : Option r.Answer × World σ :=
  let reply := node r w.node
  let w := { w with
    node := reply.state
    interrupted := w.interrupted || reply.interrupts
    journal := w.journal ++ (reply.notices.map Entry.logged).toArray }
  match reply.answer with
  | none => (none, w)
  | some a => (some a, { w with journal := w.journal.push (.called who r a) })

end World

inductive Progress (α β : Type) where
  | running (state : α)
  | returned (result : β)
  /-- The thread that runs the activity crashed, in a call of the node or because a thread that it started had. -/
  | crashed
deriving DecidableEq

/-- One step of an activity by a thread. A thread that has nothing to do leaves all as it is. -/
abbrev Move (σ α β : Type) := Thread → α → World σ → Progress α β × World σ

inductive Event where
  | step (who : Thread)
  | interrupt
  | elapse (nanos : Nat)
deriving DecidableEq, Repr

structure Execution (σ α β : Type) where
  progress : Progress α β
  world : World σ

namespace Execution

variable {σ α β : Type}

def next (move : Move σ α β) (e : Execution σ α β) : Event → Execution σ α β
  | .interrupt => { e with world := e.world.interrupt }
  | .elapse nanos => { e with world := e.world.elapse nanos }
  | .step who =>
    match e.progress with
    | .running a =>
      let (progress, world) := move who a e.world
      { progress, world }
    | .returned _ | .crashed => e

def run (move : Move σ α β) (e : Execution σ α β) (events : List Event) : Execution σ α β :=
  events.foldl (next move) e

/-- Lets every thread of an activity take one step, in turn. -/
def sweep (threads : α → List Thread) (move : Move σ α β) (e : Execution σ α β) : Execution σ α β :=
  match e.progress with
  | .running a => e.run move ((threads a).map .step)
  | .returned _ | .crashed => e

/-- Sweeps until the activity has ended, at most `fuel` times. -/
def finish (threads : α → List Thread) (move : Move σ α β) :
    (fuel : Nat) → Execution σ α β → Execution σ α β
  | 0, e => e
  | fuel + 1, e =>
    match e.progress with
    | .running _ => finish threads move fuel (e.sweep threads move)
    | .returned _ | .crashed => e

end Execution

end HeaderMiner
