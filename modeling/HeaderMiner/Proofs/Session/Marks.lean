import HeaderMiner.Proofs.Session.Requests
import Mathlib

/-!
# The marks of a session

What the session's thread does in a run, in its order: its turns to another round, its requests, the beginning and the
end of each search, and the reports that it records. The requests among the marks are those that the journal has of this
thread (`Setup.calls_marks`), and also the one that crashed it, if any.
-/

namespace HeaderMiner.Session

variable {σ : Type}

inductive Mark where
  /-- The thread turns to another round, and reads the interrupt. So many rounds are in the statistics. -/
  | turns (interrupted : Bool) (rounds : Nat)
  /-- The thread makes a request; without an answer, it has crashed. -/
  | asked (r : Request) (answer : Option r.Answer)
  /-- A search begins, with these workers to be started. -/
  | starts (work : Work) (workers : Array Worker)
  /-- The search is over, with this board and the workers that were started. -/
  | joins (board : Board) (workers : Array Worker)
  | records (report : RoundReport)

namespace Mark

def call? : Mark → Option Call
  | asked r (some answer) => some ⟨.session, r, answer⟩
  | _ => none

theorem eq_of_call? {mark : Mark} {call : Call} (h : mark.call? = some call) :
    mark = .asked call.request (some call.answer) := by
  unfold call? at h
  split at h
  · cases h
    rfl
  · cases h

def report? : Mark → Option RoundReport
  | records report => some report
  | _ => none

/-- The work that the thread was given. -/
def given? : Mark → Option Work
  | asked (.template _ _) (some (.ok work)) => some work
  | _ => none

/-- The request, with the answer that it will get in this world. -/
def ofRequest? (node : Node σ) (world : World σ) (request? : Option Request) : Option Mark :=
  request?.map fun r => .asked r (node r world.node).answer

end Mark

def asks? (config : Config) (s : Session) : Option Request :=
  match s.phase with
  | .mining (.submitting _ winner submission) => submission.request? winner
  | _ => s.request? config

/-- What the session's thread does next, between rounds or when it hands in a winner. -/
def act? (config : Config) (node : Node σ) (s : Session) (world : World σ) : Option Mark :=
  match s.phase with
  | .looping => some (.turns world.interrupted s.stats.rounds)
  | _ => Mark.ofRequest? node world (s.asks? config)

/-- The work, the board and the workers of a session that searches, and how many of them were started. -/
def searching? : Progress Session (Except Failure Stats) → Option (Work × Nat × Board × Array Worker)
  | .running ⟨_, .mining (.searching work _ spawning board workers)⟩ => some (work, spawning.count, board, workers)
  | _ => none

/-- The beginning or the end of a search. -/
def bounds (before after : Progress Session (Except Failure Stats)) : List Mark :=
  match searching? before, searching? after with
  | none, some (work, _, _, workers) => [.starts work workers]
  | some (_, count, board, workers), none => [.joins board (workers.take count)]
  | _, _ => []

namespace Setup

variable (c : Setup σ)

def actsAt (s : Session) (world : World σ) : Thread → List Mark
  | .session => (s.act? c.config c.node world).toList
  | .worker _ => []

/-- What an event has the session's thread do. -/
def marksAt (e : Execution σ Session (Except Failure Stats)) : Event → List Mark
  | .step who =>
    match e.progress with
    | .running s =>
      c.actsAt s e.world who ++
        (bounds e.progress (c.move who s e.world).1 ++ (c.report? e (.step who)).toList.map .records)
    | _ => []
  | _ => []

/-- What the session's thread does in a run, oldest first. -/
def marks (events : List Event) : List Mark := Execution.gather c.move c.marksAt ⟨.running {}, c.world⟩ events

theorem marks_concat (events : List Event) (event : Event) :
    c.marks (events ++ [event]) = c.marks events ++ c.marksAt (c.run events) event :=
  Execution.gather_concat _ _ _ _ _

/-- The calls of the session's thread. -/
def ownCalls (world : World σ) : List Call := (c.called world).filter (·.who = .session)

end Setup

/-! ### The calls among the marks -/

variable {c : Setup σ} {s : Session} {world : World σ} {node : Node σ} {request? : Option Request}

theorem bounds_self (progress : Progress Session (Except Failure Stats)) : bounds progress progress = [] := by
  unfold bounds
  rcases searching? progress <;> rfl

theorem calls_bounds (before after : Progress Session (Except Failure Stats)) :
    (bounds before after).filterMap Mark.call? = [] := by
  unfold bounds
  split <;> rfl

theorem reports_bounds (before after : Progress Session (Except Failure Stats)) :
    (bounds before after).filterMap Mark.report? = [] := by
  unfold bounds
  split <;> rfl

theorem calls_ofRequest? (node : Node σ) (world : World σ) (request? : Option Request) :
    (Mark.ofRequest? node world request?).toList.filterMap Mark.call? = world.answered node .session request? := by
  rcases request? with _ | r
  · rfl
  · rw [Mark.ofRequest?, World.answered]
    cases hanswer : (node r world.node).answer <;> simp [hanswer, Mark.call?]

theorem act?_of_ne (hs : s.phase ≠ .looping) (config : Config) (node : Node σ) (world : World σ) :
    s.act? config node world = Mark.ofRequest? node world (s.asks? config) := by
  obtain ⟨stats, phase⟩ := s
  cases phase with
  | looping => exact absurd rfl hs
  | _ => rfl

theorem calls_act? (config : Config) (node : Node σ) (s : Session) (world : World σ) :
    (s.act? config node world).toList.filterMap Mark.call? = world.answered node .session (s.asks? config) := by
  by_cases hs : s.phase = .looping
  · rw [act?, asks?, request?, hs]
    rfl
  · rw [act?_of_ne hs, calls_ofRequest?]

theorem reports_ofRequest? (node : Node σ) (world : World σ) (request? : Option Request) :
    (Mark.ofRequest? node world request?).toList.filterMap Mark.report? = [] := by
  cases request? <;> rfl

theorem reports_act? (config : Config) (node : Node σ) (s : Session) (world : World σ) :
    (s.act? config node world).toList.filterMap Mark.report? = [] := by
  by_cases hs : s.phase = .looping
  · rw [act?, hs]
    rfl
  · rw [act?_of_ne hs, reports_ofRequest?]

theorem asks?_eq (hs : s.mines = false) (config : Config) : s.asks? config = s.request? config := by
  obtain ⟨stats, phase⟩ := s
  cases phase with
  | mining => cases hs
  | _ => rfl

theorem searching?_eq_none (hs : s.mines = false) : searching? (.running s) = none := by
  obtain ⟨stats, phase⟩ := s
  cases phase with
  | mining => cases hs
  | _ => rfl

theorem exists_goto (hs : s.mines = true) : ∃ (s' : Session) (r : Round), s = s'.goto (.mining r) := by
  obtain ⟨stats, phase⟩ := s
  cases phase with
  | mining r => exact ⟨⟨stats, .looping⟩, r, rfl⟩
  | _ => cases hs

theorem Goes.bounds_eq {config : Config} {interrupted : Bool} {called : List Call}
    {progress : Progress Session (Except Failure Stats)} (h : s.Goes config interrupted called progress)
    (hs : s.mines = false) : bounds (.running s) progress = [] := by
  have hafter : searching? progress = none := by
    cases progress with
    | returned | crashed => rfl
    | running s' =>
      cases hs' : s'.mines with
      | false => exact searching?_eq_none hs'
      | true =>
        obtain ⟨_, _, -, -, rfl⟩ := h.of_mines hs'
        rfl
  rw [bounds, searching?_eq_none hs, hafter]

theorem marksAt_between (hs : s.mines = false) (world : World σ) :
    c.marksAt ⟨.running s, world⟩ (.step .session) = (s.act? c.config c.node world).toList := by
  have hreport : c.report? ⟨.running s, world⟩ (.step .session) = none := by
    obtain ⟨stats, phase⟩ := s
    cases phase with
    | mining => cases hs
    | _ => rfl
  have hgoes := s.move_goes c.config c.host c.node world hs
  simp only [Setup.marksAt, hreport, show bounds (.running s) (c.move .session s world).1 = [] from hgoes.bounds_eq hs]
  exact List.append_nil _

theorem marksAt_of_idle {id : Nat} (hs : s.mines = false) (world : World σ) :
    c.marksAt ⟨.running s, world⟩ (.step (.worker id)) = [] := by
  have hreport : c.report? ⟨.running s, world⟩ (.step (.worker id)) = none := by
    obtain ⟨stats, phase⟩ := s
    cases phase with
    | mining => cases hs
    | _ => rfl
  have hmove : c.move (.worker id) s world = _ := s.move_worker c.config c.host c.node world hs id
  simp only [Setup.marksAt, hreport, hmove, bounds_self]
  rfl

section Mining

variable {r : Round} {who : Thread} {world' : World σ} {result : Progress Round (Except Failure RoundReport)}

/-- What becomes of a session by a step of its round. -/
def afterStep (s : Session) : Progress Round (Except Failure RoundReport) → World σ →
    Progress Session (Except Failure Stats) × World σ
  | .running r, world => (.running (s.goto (.mining r)), world)
  | .returned (.ok report), world => s.afterRound report world
  | .returned (.error failure), world => (.returned (.error failure), world)
  | .crashed, world => (.crashed, world)

def returned? : Progress Round (Except Failure RoundReport) → Option RoundReport
  | .returned (.ok report) => some report
  | _ => none

theorem move_mining (s : Session) (hmove : r.move c.config c.host c.node who world = (result, world')) :
    c.move who (s.goto (.mining r)) world = s.afterStep result world' := by
  simp only [Setup.move, move, goto, hmove]
  rcases result with r' | ⟨failure | report⟩ | _ <;> rfl

theorem marksAt_mining (s : Session) (hmove : r.move c.config c.host c.node who world = (result, world')) :
    c.marksAt ⟨.running (s.goto (.mining r)), world⟩ (.step who) = c.actsAt (s.goto (.mining r)) world who ++
      (bounds (.running (s.goto (.mining r))) (s.afterStep result world').1 ++
        (returned? result).toList.map .records) := by
  have hreport : c.report? ⟨.running (s.goto (.mining r)), world⟩ (.step who) = returned? result := by
    simp only [Setup.report?, goto, hmove]
    rfl
  simp only [Setup.marksAt, move_mining s hmove, hreport]

/-- After a round that has returned, no search goes on. -/
theorem bounds_afterRound (before : Progress Session (Except Failure Stats)) (s : Session) (report : RoundReport)
    (world : World σ) : bounds before (s.afterRound report world).1 = bounds before .crashed := by
  have hafter : searching? (s.afterRound report world).1 = none := by
    unfold afterRound
    dsimp only
    split <;> rfl
  rw [bounds, hafter]
  rfl

end Mining

/-- The calls among the marks of a step are those that the session's thread makes in it. -/
theorem calls_marksAt (c : Setup σ) (s : Session) (world : World σ) (who : Thread) :
    (c.marksAt ⟨.running s, world⟩ (.step who)).filterMap Mark.call? =
      match who with
      | .session => world.answered c.node .session (s.asks? c.config)
      | .worker _ => [] := by
  have hrecords (reports : List RoundReport) : (reports.map Mark.records).filterMap Mark.call? = [] := by
    rw [List.filterMap_map]
    exact List.filterMap_eq_nil_iff.2 fun _ _ => rfl
  cases who <;> simp only [Setup.marksAt, Setup.actsAt, List.filterMap_append, calls_bounds, hrecords, calls_act?,
    List.append_nil, List.filterMap_nil]

theorem filter_answered_session (world : World σ) (node : Node σ) (request? : Option Request) :
    (world.answered node .session request?).filter (·.who = .session) = world.answered node .session request? := by
  refine List.filter_eq_self.2 fun call hcall => ?_
  rw [(world.mem_answered hcall).1]
  rfl

theorem filter_answered_worker (world : World σ) (node : Node σ) (id : Nat) (request? : Option Request) :
    (world.answered node (.worker id) request?).filter (·.who = .session) = [] := by
  refine List.filter_eq_nil_iff.2 fun call hcall => ?_
  simp [(world.mem_answered hcall).1]

theorem serves_mining (c : Setup σ) (s : Session) (r : Round) (world : World σ) (who : Thread) :
    world.Serves c.node (Round.asker ⟨.running r, world⟩ (.step who)) (Round.request? ⟨.running r, world⟩ (.step who))
      (c.move who (s.goto (.mining r)) world).2 := by
  -- a round that is under way goes on in the same way whatever work its setup has
  have hserves := (c.round ⟨⟨.replicate 112 0⟩, .zero⟩ world).serves_next ⟨.running r, world⟩ (.step who)
  rcases hmove : r.move c.config c.host c.node who world with ⟨result, world'⟩
  simp only [Execution.next, Round.Setup.move, Setup.round, hmove] at hserves
  rw [move_mining s hmove]
  rcases result with r' | ⟨failure | report⟩ | _
  · exact hserves
  · exact hserves
  · simp only [afterStep, afterRound]
    split
    · exact hserves.log _
    · exact hserves
  · exact hserves

/-- Of what a round asks, the session's thread asks what it takes to hand the winner in. -/
theorem filter_answered_mining (c : Setup σ) (s : Session) (r : Round) (world : World σ) (who : Thread) :
    (world.answered c.node (Round.asker ⟨.running r, world⟩ (.step who))
      (Round.request? ⟨.running r, world⟩ (.step who))).filter (·.who = .session) =
      (c.marksAt ⟨.running (s.goto (.mining r)), world⟩ (.step who)).filterMap Mark.call? := by
  rw [calls_marksAt]
  cases who with
  | session =>
    cases r with
    | opening | searching => rfl
    | submitting => exact filter_answered_session _ _ _
  | worker id =>
    cases r with
    | opening | submitting => rfl
    | searching work started spawning board workers =>
      simp only [Round.asker, Round.request?, Round.actor]
      cases (if id < spawning.count then workers[id]? else none) with
      | none => rfl
      | some w => exact filter_answered_worker _ _ _ _

theorem ownCalls_next (hsize : c.world.journal.size ≤ world.journal.size) (hs : s.mines = false) (event : Event) :
    c.ownCalls (Execution.next c.move ⟨.running s, world⟩ event).world =
      c.ownCalls world ++ (c.marksAt ⟨.running s, world⟩ event).filterMap Mark.call? := by
  cases event with
  | interrupt | elapse => exact (List.append_nil _).symm
  | step who =>
    cases who with
    | worker id =>
      have hmove : c.move (.worker id) s world = _ := s.move_worker c.config c.host c.node world hs id
      rw [marksAt_of_idle hs]
      simp only [Execution.next, hmove]
      exact (List.append_nil _).symm
    | session =>
      have hserves : world.Serves c.node .session (s.request? c.config) (c.move .session s world).2 :=
        s.move_serves c.config c.host c.node world hs
      rw [calls_marksAt, asks?_eq hs]
      show ((c.called (c.move .session s world).2).filter _) = _
      rw [Setup.called, Setup.entries, hserves.calls_since hsize, List.filter_append, filter_answered_session]
      rfl

/-- The calls of the session's thread are those among its marks. -/
theorem Setup.calls_marks (c : Setup σ) (events : List Event) :
    (c.marks events).filterMap Mark.call? = c.ownCalls (c.run events).world := by
  induction events using List.reverseRecOn with
  | nil => exact (congrArg (List.filter _) c.called_begin).symm
  | append_singleton events event ih =>
    rw [c.marks_concat, List.filterMap_append, ih, c.run_concat]
    have hstage := stage_run (c := c) events
    generalize c.run events = e at hstage
    generalize c.reports events = reports at hstage
    have hended {progress : Progress Session (Except Failure Stats)} {world : World σ}
        (hended : ∀ s, progress ≠ .running s) :
        c.ownCalls world ++ (c.marksAt ⟨progress, world⟩ event).filterMap Mark.call? =
          c.ownCalls (Execution.next c.move ⟨progress, world⟩ event).world := by
      obtain ⟨world', hnext, hrest⟩ : ∃ world', Execution.next c.move ⟨progress, world⟩ event = ⟨progress, world'⟩ ∧
          world.Rests world' := Execution.next_of_ended hended world event
      have hmarks : c.marksAt ⟨progress, world⟩ event = [] := by
        cases event with
        | interrupt | elapse => rfl
        | step who =>
          cases progress with
          | running s => exact absurd rfl (hended s)
          | returned | crashed => rfl
      rw [hnext, hmarks, Setup.ownCalls, Setup.ownCalls, c.called_of_rests hrest]
      exact List.append_nil _
    cases hstage with
    | between h => exact (ownCalls_next h.size_le h.mines_eq event).symm
    -- the calls of the workers are in the journal too, but `filter_answered_mining` leaves them out
    | @mining _ s _ world work _ r h hround =>
      cases event with
      | interrupt | elapse => exact List.append_nil _
      | step who =>
        have hserves := serves_mining c s r world who
        rw [← filter_answered_mining]
        show _ = (c.called (c.move who (s.goto (.mining r)) world).2).filter _
        rw [Setup.called, Setup.entries, hserves.calls_since (h.size_le_round hround), List.filter_append]
        rfl
    | concluded | cut | failed | crashed | lost => exact hended (by rintro s ⟨⟩)

/-! ### The reports among the marks -/

theorem reports_marksAt (c : Setup σ) (e : Execution σ Session (Except Failure Stats)) (event : Event) :
    (c.marksAt e event).filterMap Mark.report? = (c.report? e event).toList := by
  obtain ⟨progress, world⟩ := e
  cases event with
  | interrupt | elapse => rfl
  | step who =>
    cases progress with
    | returned | crashed => rfl
    | running s =>
      have hrecords (reports : List RoundReport) : (reports.map Mark.records).filterMap Mark.report? = reports := by
        rw [List.filterMap_map]
        exact List.filterMap_some
      cases who <;> simp only [Setup.marksAt, Setup.actsAt, List.filterMap_append, reports_bounds, hrecords,
        reports_act?, List.nil_append]

theorem Setup.reports_marks (c : Setup σ) (events : List Event) :
    (c.marks events).filterMap Mark.report? = c.reports events := by
  induction events using List.reverseRecOn with
  | nil => rfl
  | append_singleton events event ih =>
    rw [c.marks_concat, c.reports_concat, List.filterMap_append, ih, reports_marksAt]

end HeaderMiner.Session
