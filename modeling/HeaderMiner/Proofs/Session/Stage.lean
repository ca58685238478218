import HeaderMiner.Proofs.Round.Search
import HeaderMiner.Proofs.Session.Course
import Mathlib

/-!
# The stages of a session

A run of a session goes from round to round. `Walk` are the sessions between rounds that runs can come to, with the
reports of the rounds so far: they are reached by steps of the session's thread and by whole rounds, so an invariant of
the session is an induction on it. Where a run has come to is a `Stage` (`stage_run`): between rounds, in a round, or
at its end.
-/

namespace HeaderMiner.Session

variable {σ : Type}

/-- What a session is run with, and the world that it begins in. -/
structure Setup (σ : Type) where
  config : Config
  host : Host
  node : Node σ
  world : World σ

namespace Setup

variable (c : Setup σ)

def move : Move σ Session (Except Failure Stats) := Session.move c.config c.host c.node

/-- The session after a sequence of events. -/
def run (events : List Event) : Execution σ Session (Except Failure Stats) :=
  Execution.run c.move ⟨.running {}, c.world⟩ events

/-- The statistics, if the session has returned them. -/
def stats? (events : List Event) : Option Stats :=
  match (c.run events).progress with
  | .returned (.ok stats) => some stats
  | _ => none

theorem progress_of_stats? {events : List Event} {stats : Stats} (h : c.stats? events = some stats) :
    (c.run events).progress = .returned (.ok stats) := by
  unfold stats? at h
  split at h
  · cases h
    assumption
  · cases h

/-- What the session has written to the journal. -/
def entries (world : World σ) : List Entry := world.since c.world.journal.size

/-- A round of the session, by its work and the world that it is opened in. -/
def round (work : Work) (world : World σ) : Round.Setup σ := ⟨c.config, c.host, c.node, work, .full, world⟩

/-- The report of the round that an event ends. -/
def report? (e : Execution σ Session (Except Failure Stats)) : Event → Option RoundReport
  | .step who =>
    match e.progress with
    | .running ⟨_, .mining round⟩ =>
      match (round.move c.config c.host c.node who e.world).1 with
      | .returned (.ok report) => some report
      | _ => none
    | _ => none
  | _ => none

/-- The reports of the rounds that a run has gone through, oldest first. -/
def reports (events : List Event) : List RoundReport :=
  Execution.gather c.move (fun e event => (c.report? e event).toList) ⟨.running {}, c.world⟩ events

theorem run_concat (events : List Event) (event : Event) :
    c.run (events ++ [event]) = (c.run events).next c.move event :=
  Execution.run_concat _ _ _ _

theorem reports_concat (events : List Event) (event : Event) :
    c.reports (events ++ [event]) = c.reports events ++ (c.report? (c.run events) event).toList :=
  Execution.gather_concat _ _ _ _ _

end Setup

/-- The sessions between rounds that a run can come to, with the reports of its rounds. -/
inductive Walk (c : Setup σ) : List RoundReport → Session → World σ → Prop
  | begun : Walk c [] {} c.world
  | interrupted {reports : List RoundReport} {s : Session} {world : World σ} (h : Walk c reports s world) :
      Walk c reports s world.interrupt
  | elapsed {reports : List RoundReport} {s : Session} {world : World σ} (nanos : Nat) (h : Walk c reports s world) :
      Walk c reports s (world.elapse nanos)
  | walked {reports : List RoundReport} {s s' : Session} {world world' : World σ} (h : Walk c reports s world)
      (hstep : c.move .session s world = (.running s', world')) (hs' : s'.mines = false) : Walk c reports s' world'
  | mined {reports : List RoundReport} {s : Session} {world opening world' : World σ} {work : Work}
      {events : List Event} {report : RoundReport} (h : Walk c reports s world)
      (hstep : c.move .session s world = (.running (s.goto (.mining (.opening work .full))), opening))
      (hround : (c.round work opening).run events = ⟨.returned (.ok report), world'⟩)
      (hmore : report.outcome ≠ .interrupted) :
      Walk c (reports ++ [report]) ⟨s.stats.record report, .looping⟩ world'

/-- The session has opened a round for this work, in this world. -/
def Opens (c : Setup σ) (reports : List RoundReport) (s : Session) (work : Work) (opening : World σ) : Prop :=
  ∃ world, Walk c reports s world ∧
    c.move .session s world = (.running (s.goto (.mining (.opening work .full))), opening)

/-- Where a run has come to. -/
inductive Stage (c : Setup σ) : List RoundReport → Execution σ Session (Except Failure Stats) → Prop
  | between {reports : List RoundReport} {s : Session} {world : World σ} (h : Walk c reports s world) :
      Stage c reports ⟨.running s, world⟩
  | mining {reports : List RoundReport} {s : Session} {opening world : World σ} {work : Work} {events : List Event}
      {round : Round} (h : Opens c reports s work opening)
      (hround : (c.round work opening).run events = ⟨.running round, world⟩) :
      Stage c reports ⟨.running (s.goto (.mining round)), world⟩
  /-- The session has read that it is to end. -/
  | concluded {reports : List RoundReport} {s : Session} {world world' : World σ} {n : Notice}
      (h : Walk c reports s world) (hs : s.phase = .looping)
      (hend : world.interrupted = true ∨ s.isComplete c.config = true) (hrest : (world.log n).Rests world') :
      Stage c reports ⟨.returned (.ok s.stats), world'⟩
  /-- The last round was interrupted. -/
  | cut {reports : List RoundReport} {s : Session} {opening world world' : World σ} {work : Work}
      {events : List Event} {report : RoundReport} {n : Notice} (h : Opens c reports s work opening)
      (hround : (c.round work opening).run events = ⟨.returned (.ok report), world⟩)
      (hint : report.outcome = .interrupted) (hrest : (world.log n).Rests world') :
      Stage c (reports ++ [report]) ⟨.returned (.ok (s.stats.record report)), world'⟩
  | failed {reports : List RoundReport} {s : Session} {opening world world' : World σ} {work : Work}
      {events : List Event} {failure : Failure} (h : Opens c reports s work opening)
      (hround : (c.round work opening).run events = ⟨.returned (.error failure), world⟩) (hrest : world.Rests world') :
      Stage c reports ⟨.returned (.error failure), world'⟩
  /-- A call of the node between rounds has crashed the session's thread. -/
  | crashed {reports : List RoundReport} {s : Session} {world crash world' : World σ} (h : Walk c reports s world)
      (hstep : c.move .session s world = (.crashed, crash)) (hrest : crash.Rests world') :
      Stage c reports ⟨.crashed, world'⟩
  /-- A call of the node in a round has crashed the session's thread. -/
  | lost {reports : List RoundReport} {s : Session} {opening crash world' : World σ} {work : Work}
      {events : List Event} (h : Opens c reports s work opening)
      (hround : (c.round work opening).run events = ⟨.crashed, crash⟩) (hrest : crash.Rests world') :
      Stage c reports ⟨.crashed, world'⟩

variable {c : Setup σ} {reports : List RoundReport} {s : Session} {world world' : World σ}
  {progress : Progress Session (Except Failure Stats)}

theorem Walk.mines_eq (h : Walk c reports s world) : s.mines = false := by
  induction h with
  | begun | mined => rfl
  | interrupted _ ih | elapsed _ _ ih => exact ih
  | walked _ _ hs' => exact hs'

theorem Walk.serves (h : Walk c reports s world) (hstep : c.move .session s world = (progress, world')) :
    world.Serves c.node .session (s.request? c.config) world' := by
  have hserves := s.move_serves c.config c.host c.node world h.mines_eq
  rw [show s.move c.config c.host c.node .session world = _ from hstep] at hserves
  exact hserves

theorem Walk.goes (h : Walk c reports s world) (hstep : c.move .session s world = (progress, world')) :
    s.Goes c.config world.interrupted (world.answered c.node .session (s.request? c.config)) progress := by
  have hgoes := s.move_goes c.config c.host c.node world h.mines_eq
  rw [show s.move c.config c.host c.node .session world = _ from hstep] at hgoes
  exact hgoes

theorem stage_walk (h : Walk c reports s world) (event : Event) :
    Stage c reports (Execution.next c.move ⟨.running s, world⟩ event) := by
  cases event with
  | interrupt => exact .between h.interrupted
  | elapse nanos => exact .between (h.elapsed nanos)
  | step who =>
    cases who with
    | worker id =>
      have hmove : c.move (.worker id) s world = _ := s.move_worker c.config c.host c.node world h.mines_eq id
      simp only [Execution.next, hmove]
      exact .between h
    | session =>
      cases hmove : c.move .session s world with
      | mk progress world' =>
        have hgoes := h.goes hmove
        simp only [Execution.next, hmove]
        cases progress with
        | running s' =>
          cases hs' : s'.mines with
          | false => exact .between (h.walked hmove hs')
          | true =>
            obtain ⟨reference, work, -, -, rfl⟩ := hgoes.of_mines hs'
            have hround : (c.round work world').run [] = ⟨.running (.opening work .full), world'⟩ := rfl
            exact .mining ⟨world, h, hmove⟩ hround
        | returned result =>
          generalize world.answered c.node .session (s.request? c.config) = called at hgoes
          cases hgoes with
          | conclude hs hend =>
            have hconclude : c.move .session s world = s.conclude world := by
              simp only [Setup.move, move, hs]
              exact if_pos hend
            rw [hconclude] at hmove
            cases hmove
            exact .concluded h hs hend (.refl _)
        | crashed => exact .crashed h hmove (.refl _)

theorem stage_mining {opening : World σ} {work : Work} {events : List Event} {round : Round}
    (h : Opens c reports s work opening) (hround : (c.round work opening).run events = ⟨.running round, world⟩)
    (event : Event) :
    Stage c (reports ++ (c.report? ⟨.running (s.goto (.mining round)), world⟩ event).toList)
      (Execution.next c.move ⟨.running (s.goto (.mining round)), world⟩ event) := by
  have hnext := (c.round work opening).run_concat events event
  rw [hround] at hnext
  cases event with
  | interrupt | elapse =>
    rw [show c.report? _ _ = none from rfl, Option.toList_none, List.append_nil]
    exact .mining h hnext
  | step who =>
    cases hmove : round.move c.config c.host c.node who world with
    | mk progress world' =>
      simp only [Execution.next, Round.Setup.move, Setup.round, hmove] at hnext
      simp only [Execution.next, Setup.report?, Setup.move, move, goto, hmove]
      rcases progress with round' | ⟨failure | report⟩ | _
      · simp only [Option.toList_none, List.append_nil]
        exact .mining h hnext
      · simp only [Option.toList_none, List.append_nil]
        exact .failed h hnext (.refl _)
      · simp only [afterRound, Option.toList_some]
        obtain ⟨before, hwalk, hopen⟩ := h
        by_cases hint : report.outcome = .interrupted
        · rw [if_pos hint]
          exact .cut ⟨before, hwalk, hopen⟩ hnext hint (.refl _)
        · rw [if_neg hint]
          exact .between (hwalk.mined hopen hnext hint)
      · simp only [Option.toList_none, List.append_nil]
        exact .lost h hnext (.refl _)

theorem report?_of_ended (hended : ∀ a, progress ≠ .running a)
    (world : World σ) (event : Event) : c.report? ⟨progress, world⟩ event = none := by
  cases event with
  | interrupt | elapse => rfl
  | step who =>
    cases progress with
    | running a => exact absurd rfl (hended a)
    | returned | crashed => rfl

theorem report?_of_walk (h : Walk c reports s world) (event : Event) :
    c.report? ⟨.running s, world⟩ event = none := by
  have hs := h.mines_eq
  cases event with
  | interrupt | elapse => rfl
  | step who =>
    obtain ⟨stats, phase⟩ := s
    cases phase with
    | mining => cases hs
    | _ => rfl

theorem Stage.rests (h : Stage c reports ⟨progress, world⟩) (hended : ∀ a, progress ≠ .running a)
    (hmore : world.Rests world') : Stage c reports ⟨progress, world'⟩ := by
  cases h with
  | between | mining => exact absurd rfl (hended _)
  | concluded h hs hend hrest => exact .concluded h hs hend (hrest.trans hmore)
  | cut h hround hint hrest => exact .cut h hround hint (hrest.trans hmore)
  | failed h hround hrest => exact .failed h hround (hrest.trans hmore)
  | crashed h hstep hrest => exact .crashed h hstep (hrest.trans hmore)
  | lost h hround hrest => exact .lost h hround (hrest.trans hmore)

theorem Stage.ended (h : Stage c reports ⟨progress, world⟩) (hended : ∀ a, progress ≠ .running a) (event : Event) :
    Stage c (reports ++ (c.report? ⟨progress, world⟩ event).toList)
      (Execution.next c.move ⟨progress, world⟩ event) := by
  obtain ⟨world', hnext, hmore⟩ : ∃ world', Execution.next c.move ⟨progress, world⟩ event = ⟨progress, world'⟩ ∧
      world.Rests world' := Execution.next_of_ended hended world event
  rw [report?_of_ended hended, Option.toList_none, List.append_nil, hnext]
  exact h.rests hended hmore

theorem stage_next {e : Execution σ Session (Except Failure Stats)} (h : Stage c reports e) (event : Event) :
    Stage c (reports ++ (c.report? e event).toList) (e.next c.move event) := by
  obtain ⟨progress, world⟩ := e
  cases progress with
  | returned result => exact h.ended (fun _ => by rintro ⟨⟩) event
  | crashed => exact h.ended (fun _ => by rintro ⟨⟩) event
  | running s =>
    cases h with
    | between h =>
      rw [report?_of_walk h, Option.toList_none, List.append_nil]
      exact stage_walk h event
    | mining h hround => exact stage_mining h hround event

theorem stage_run (events : List Event) : Stage c (c.reports events) (c.run events) := by
  induction events using List.reverseRecOn with
  | nil => exact .between .begun
  | append_singleton events event ih =>
    rw [c.run_concat, c.reports_concat]
    exact stage_next ih event

/-- The report is what a round of the session has returned. -/
def Setup.Reports (c : Setup σ) (report : RoundReport) : Prop :=
  ∃ reports s work opening events world, Opens c reports s work opening ∧
    (c.round work opening).run events = ⟨.returned (.ok report), world⟩

theorem Walk.reports_of_mem (h : Walk c reports s world) : ∀ report ∈ reports, c.Reports report := by
  induction h with
  | begun =>
    intro report hreport
    cases hreport
  | interrupted _ ih | elapsed _ _ ih | walked _ _ _ ih => exact ih
  | @mined reports s before opening world' work events _ h hstep hround _ ih =>
    intro report hreport
    rcases List.mem_append.1 hreport with hreport | hreport
    · exact ih report hreport
    · rw [List.mem_singleton.1 hreport]
      exact ⟨reports, s, work, opening, events, world', ⟨before, h, hstep⟩, hround⟩

theorem Opens.reports_of_mem {opening : World σ} {work : Work} (h : Opens c reports s work opening) :
    ∀ report ∈ reports, c.Reports report := by
  obtain ⟨world, hwalk, -⟩ := h
  exact hwalk.reports_of_mem

theorem Setup.reports_of_mem {events : List Event} {report : RoundReport} (hreport : report ∈ c.reports events) :
    c.Reports report := by
  have hstage := stage_run (c := c) events
  generalize c.run events = e at hstage
  generalize c.reports events = reports at hstage hreport
  cases hstage with
  | between h | concluded h | crashed h => exact h.reports_of_mem report hreport
  | mining h | failed h | lost h => exact h.reports_of_mem report hreport
  | @cut _ _ _ _ _ _ _ last _ h hround =>
    rcases List.mem_append.1 hreport with hreport | hreport
    · exact h.reports_of_mem report hreport
    · rw [List.mem_singleton.1 hreport]
      exact ⟨_, _, _, _, _, _, h, hround⟩

end HeaderMiner.Session
