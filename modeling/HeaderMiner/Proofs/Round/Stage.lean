import HeaderMiner.Proofs.Round.Search
import Mathlib

/-!
# The stages of a round

A run is opening the round, searching, handing in the winner, or at its end. While it searches, its state is one
of `Search`. Once all workers that were started have ended, what they left on the board is not changed any more
(`After`): if they are all workers, the session's thread makes a report of it and hands in the winner that stands
there, and if one could not be started, the round fails with that. `stage_run` has the stage of every run, by
induction on the events with the last one split off.
-/

namespace HeaderMiner

variable {σ : Type}

/-- The calls are the session's, and the headers handed in are the winner's. -/
def HandsIn (winner : Option Solution) (entries : List Entry) : Prop :=
  ∀ who r a, .called who r a ∈ entries →
    who = .session ∧ ∀ header, r = .submit header → ∃ s, winner = some s ∧ header = s.header.toHeader

/-- The second world comes after the first one; in between the session hands in the winner at most. -/
def World.LeadsTo (winner : Option Solution) (w w' : World σ) : Prop :=
  ∃ new, w'.journal.toList = w.journal.toList ++ new ∧ HandsIn winner new

namespace World.LeadsTo

variable {winner : Option Solution} {w w' w'' : World σ}

theorem of_journal (h : w'.journal = w.journal) : w.LeadsTo winner w' := by
  refine ⟨[], by rw [h, List.append_nil], ?_⟩
  intro who r a ha
  cases ha

theorem trans (h : w.LeadsTo winner w') (h' : w'.LeadsTo winner w'') : w.LeadsTo winner w'' := by
  obtain ⟨xs, hxs, hx⟩ := h
  obtain ⟨ys, hys, hy⟩ := h'
  refine ⟨xs ++ ys, by rw [hys, hxs, List.append_assoc], ?_⟩
  intro who r a ha
  rcases List.mem_append.1 ha with ha | ha
  · exact hx _ _ _ ha
  · exact hy _ _ _ ha

theorem log (h : w.LeadsTo winner w') (n : Notice) : w.LeadsTo winner (w'.log n) := by
  refine h.trans ⟨_, journal_log _ _, ?_⟩
  intro who r a ha
  cases List.mem_singleton.1 ha

theorem sleep (h : w.LeadsTo winner w') (ms : UInt64) : w.LeadsTo winner (w'.sleep .session ms) := by
  refine h.trans ⟨_, journal_sleep _ _ _, ?_⟩
  intro who r a ha
  cases List.mem_singleton.1 ha

theorem of_call {node : Node σ} {request : Request} {answer : Option request.Answer}
    (hcall : w.call node .session request = (answer, w'))
    (hr : ∀ header, request = .submit header → ∃ s, winner = some s ∧ header = s.header.toHeader) :
    w.LeadsTo winner w' := by
  refine ⟨w.callEntries node .session request, ?_, ?_⟩
  · rw [← journal_call, hcall]
  · intro who r a ha
    obtain ⟨rfl, rfl⟩ := called_mem_callEntries w ha
    exact ⟨rfl, hr⟩

end World.LeadsTo

theorem Submission.leadsTo_move (config : Config) (node : Node σ) (s : Solution) (sub : Submission) (who : Thread)
    (world : World σ) : world.LeadsTo (some s) (sub.move config node s who world).2 := by
  have hpeers {answer : Option Bool} {w : World σ} (h : world.call node .session .peers = (answer, w)) :
      world.LeadsTo (some s) w := .of_call h (by rintro header ⟨⟩)
  have hsubmit {answer : Option (Except NodeFailure Bool)} {w : World σ}
      (h : world.call node .session (.submit s.header.toHeader) = (answer, w)) : world.LeadsTo (some s) w :=
    .of_call h (by rintro header ⟨⟩; exact ⟨s, rfl, rfl⟩)
  cases who with
  | worker id => cases sub <;> exact .of_journal rfl
  | session =>
    cases sub with
    | asking =>
      simp only [move]
      split
      · exact hpeers ‹_›
      · exact hpeers ‹_›
      · exact (hpeers ‹_›).log _
    | retrying left =>
      cases left with
      | zero => exact .of_journal rfl
      | succ left =>
        simp only [move]
        split
        · exact hpeers ‹_›
        · exact hpeers ‹_›
        · exact (hpeers ‹_›).sleep _
    | confirming =>
      simp only [move]
      split
      · exact hpeers ‹_›
      · exact hpeers ‹_›
      · exact (hpeers ‹_›).log _
    | delivering =>
      simp only [move]
      split
      · exact hsubmit ‹_›
      · exact (hsubmit ‹_›).log _
      · exact (hsubmit ‹_›).log _
      · exact hsubmit ‹_›

namespace Round

/-- The workers that a run started had all ended at this board and in this world, at some moment up to now; since
then the session's thread alone has acted. -/
structure After (r : Setup σ) (events : List Event) (world : World σ) (earlier : List Event) (started : Nat)
    (spawning : Spawning) (board : Board) (workers : Array Worker) (world₀ : World σ) : Prop where
  initial : earlier <+: events
  run_eq : r.run earlier = ⟨.running (.searching r.work started spawning board workers), world₀⟩
  ended : (workers.take spawning.count).all Worker.hasEnded
  search : Search r (r.actors events) spawning workers ⟨board, world₀⟩
  leadsTo : world₀.LeadsTo board.winner world

/-- Where a run has come to. -/
inductive Stage (r : Setup σ) (events : List Event) : Execution σ Round (Except Failure RoundReport) → Prop
  | opening {world : World σ} (hworld : world.journal = r.world.journal) (hactors : r.actors events = []) :
      Stage r events ⟨.running (.opening r.work r.range), world⟩
  | searching {started : Nat} {spawning : Spawning} {board : Board} {workers : Array Worker} {world : World σ}
      (h : Search r (r.actors events) spawning workers ⟨board, world⟩) :
      Stage r events ⟨.running (.searching r.work started spawning board workers), world⟩
  | submitting {world world₀ : World σ} {earlier : List Event} {started : Nat} {board : Board}
      {workers : Array Worker} {winner : Solution} {submission : Submission}
      (h : After r events world earlier started (.upTo r.threads) board workers world₀)
      (hcrash : crashedWorker? workers = none) (hwinner : board.winner = some winner) :
      Stage r events ⟨.running (.submitting (tally r.work (board.outcome world₀.interrupted)
        (world₀.now - started) workers) winner submission), world⟩
  | returned {world world₀ : World σ} {earlier : List Event} {started : Nat} {board : Board}
      {workers : Array Worker} {report : RoundReport}
      (h : After r events world earlier started (.upTo r.threads) board workers world₀)
      (hcrash : crashedWorker? workers = none)
      (hreport : report = { tally r.work (board.outcome world₀.interrupted) (world₀.now - started) workers with
        delivery := report.delivery, solution := board.winner })
      (hdelivery : report.delivery.isSome = board.winner.isSome) :
      Stage r events ⟨.returned (.ok report), world⟩
  | failed {world world₀ : World σ} {earlier : List Event} {started : Nat} {board : Board}
      {workers : Array Worker} {worker : Nat}
      (h : After r events world earlier started (.upTo r.threads) board workers world₀)
      (hcrash : crashedWorker? workers = some worker) :
      Stage r events ⟨.returned (.error (.workerCrashed worker)), world⟩
  | crashed {world world₀ : World σ} {earlier : List Event} {started : Nat} {board : Board}
      {workers : Array Worker} (h : After r events world earlier started (.upTo r.threads) board workers world₀)
      (hcrash : crashedWorker? workers = none) (hwinner : board.winner.isSome) : Stage r events ⟨.crashed, world⟩
  /-- A worker could not be started. -/
  | unspawned {world world₀ : World σ} {earlier : List Event} {started : Nat} {board : Board}
      {workers : Array Worker} {worker : Nat}
      (h : After r events world earlier started (.failed worker) board workers world₀)
      (hcrash : crashedWorker? (workers.take worker) = none) :
      Stage r events ⟨.returned (.error (.spawn worker)), world⟩
  /-- A worker could not be started, and one of the others crashed. -/
  | collapsed {world world₀ : World σ} {earlier : List Event} {started : Nat} {board : Board}
      {workers : Array Worker} {worker : Nat}
      (h : After r events world earlier started (.failed worker) board workers world₀)
      (hcrash : (crashedWorker? (workers.take worker)).isSome) : Stage r events ⟨.crashed, world⟩

section Next

variable {r : Setup σ} {history : List Worker} {s : Shared σ} {events : List Event}
  {e : Execution σ Round (Except Failure RoundReport)} {world world' world₀ : World σ} {earlier : List Event}
  {started : Nat} {spawning : Spawning} {board : Board} {workers : Array Worker}

theorem actors_idle {event : Event} (h : actor (r.run events) event = none) :
    r.actors (events ++ [event]) = r.actors events := by
  rw [r.actors_concat, h, Option.toList_none, List.append_nil]

theorem After.more {event : Event} (h : After r events world earlier started spawning board workers world₀)
    (hidle : actor (r.run events) event = none) (hworld : world.LeadsTo board.winner world') :
    After r (events ++ [event]) world' earlier started spawning board workers world₀ :=
  ⟨h.initial.trans (List.prefix_append _ _), h.run_eq, h.ended, (actors_idle hidle).symm ▸ h.search,
    h.leadsTo.trans hworld⟩

theorem After.searching (h : After r events world earlier started spawning board workers world₀) :
    r.searching? earlier = some (board, workers) := by
  rw [Setup.searching?, h.run_eq]

theorem After.spawning?_eq (h : After r events world earlier started spawning board workers world₀) :
    r.spawning? earlier = some spawning := by
  rw [Setup.spawning?, h.run_eq]

theorem take_eq_self (h : Search r history spawning workers s) : workers.take r.threads = workers := by
  rw [← h.size_workers]
  exact Array.extract_size

theorem After.all_ended (h : After r events world earlier started (.upTo r.threads) board workers world₀) :
    workers.all Worker.hasEnded := by
  have hended := h.ended
  rwa [Spawning.count, take_eq_self h.search] at hended

theorem after_ended {event : Event}
    (hrun : r.run events = ⟨.running (.searching r.work started spawning board workers), world⟩)
    (h : Search r (r.actors events) spawning workers ⟨board, world⟩)
    (hended : (workers.take spawning.count).all Worker.hasEnded)
    (hidle : actor (r.run events) event = none) (hworld : world.LeadsTo board.winner world') :
    After r (events ++ [event]) world' events started spawning board workers world :=
  ⟨List.prefix_append _ _, hrun, hended, (actors_idle hidle).symm ▸ h, hworld⟩

theorem stage_opening (hrun : r.run events = ⟨.running (.opening r.work r.range), world⟩)
    (hworld : world.journal = r.world.journal) (hactors : r.actors events = []) (event : Event) :
    Stage r (events ++ [event]) ((r.run events).next r.move event) := by
  have hidle : r.actors (events ++ [event]) = [] := by
    rw [actors_idle, hactors]
    rw [hrun]
    cases event with
    | step who => cases who <;> rfl
    | _ => rfl
  rw [hrun]
  cases event with
  | interrupt => exact .opening hworld hidle
  | elapse nanos => exact .opening hworld hidle
  | step who =>
    cases who with
    | worker id => exact .opening hworld hidle
    | session =>
      have hlogs (n₁ n₂ : Notice) : ((world.log n₁).log n₂).journal.toList =
          r.world.journal.toList ++ [.logged n₁, .logged n₂] := by
        rw [World.journal_log, World.journal_log, List.append_assoc, hworld]
        rfl
      refine .searching ?_
      rw [hidle]
      exact .opened (hlogs _ _)

theorem stage_step
    (hrun : r.run events = ⟨.running (.searching r.work started spawning board workers), world⟩)
    (h : Search r (r.actors events) spawning workers ⟨board, world⟩) (who : Thread) :
    Stage r (events ++ [.step who]) ((r.run events).next r.move (.step who)) := by
  have hadvances := move_advances r.config r.host r.node who r.work started spawning board workers world
  have hstep : (r.run events).next r.move (.step who) =
      ⟨(r.move who (.searching r.work started spawning board workers) world).1,
        (r.move who (.searching r.work started spawning board workers) world).2⟩ := by rw [hrun]; rfl
  have hactor : ∀ id, actor (r.run events) (.step (.worker id)) =
      if id < spawning.count then workers[id]? else none := fun id => by rw [hrun]; rfl
  have hall {next : Nat} (hle : workers.size ≤ next) (hspawning : spawning = .upTo next)
      (hended : workers.all Worker.hasEnded) : next = r.threads ∧ (workers.take r.threads).all Worker.hasEnded := by
    have hcount := h.count_le
    rw [hspawning] at hcount
    rw [h.size_workers] at hle
    exact ⟨le_antisymm hcount hle, (take_eq_self h).symm ▸ hended⟩
  rw [hstep, Setup.move]
  generalize Round.move r.config r.host r.node who (.searching r.work started spawning board workers) world = result
    at hadvances
  cases hadvances with
  | @stepped _ id w hid hw =>
    refine .searching ?_
    rw [r.actors_concat, hactor, if_pos hid, hw]
    exact h.stepped hw
  | waits hidle =>
    refine .searching ?_
    rw [actors_idle ?_]
    · exact h
    · cases who with
      | session => rfl
      | worker id => exact (hactor id).trans (hidle id rfl)
  | spawned hnext =>
    refine .searching ?_
    rw [actors_idle rfl]
    exact h.spawned hnext
  | refused hnext =>
    refine .searching ?_
    rw [actors_idle rfl]
    exact h.refused hnext
  | crashed hle hended hcrash =>
    obtain ⟨rfl, hended⟩ := hall hle rfl hended
    exact .failed (after_ended hrun h hended rfl (.of_journal rfl)) hcrash
  | unsolved hle hended hcrash hwinner =>
    obtain ⟨rfl, hended⟩ := hall hle rfl hended
    exact .returned (after_ended hrun h hended rfl (.log (.of_journal rfl) _)) hcrash (by rw [hwinner]; rfl)
      (by rw [hwinner]; rfl)
  | solved hle hended hcrash hwinner =>
    obtain ⟨rfl, hended⟩ := hall hle rfl hended
    exact .submitting (after_ended hrun h hended rfl (.log (.of_journal rfl) _)) hcrash hwinner
  | unspawned hended hcrash => exact .unspawned (after_ended hrun h hended rfl (.of_journal rfl)) hcrash
  | collapsed hended hcrash => exact .collapsed (after_ended hrun h hended rfl (.of_journal rfl)) hcrash

theorem stage_searching
    (hrun : r.run events = ⟨.running (.searching r.work started spawning board workers), world⟩)
    (h : Search r (r.actors events) spawning workers ⟨board, world⟩) (event : Event) :
    Stage r (events ++ [event]) ((r.run events).next r.move event) := by
  cases event with
  | step who => exact stage_step hrun h who
  | interrupt =>
    have hidle : actor (r.run events) .interrupt = none := rfl
    rw [hrun]
    refine .searching ?_
    rw [actors_idle hidle]
    exact h.interrupted
  | elapse nanos =>
    have hidle : actor (r.run events) (.elapse nanos) = none := rfl
    rw [hrun]
    refine .searching ?_
    rw [actors_idle hidle]
    exact h.elapsed nanos

theorem stage_submitting {report : RoundReport} {winner : Solution} {submission : Submission}
    (hrun : r.run events = ⟨.running (.submitting report winner submission), world⟩)
    (h : After r events world earlier started (.upTo r.threads) board workers world₀)
    (hcrash : crashedWorker? workers = none)
    (hreport : report = tally r.work (board.outcome world₀.interrupted) (world₀.now - started) workers)
    (hwinner : board.winner = some winner) (event : Event) :
    Stage r (events ++ [event]) ((r.run events).next r.move event) := by
  subst hreport
  have hidle : actor (r.run events) event = none := by
    rw [hrun]
    cases event with
    | step who => cases who <;> rfl
    | _ => rfl
  rw [hrun]
  cases event with
  | interrupt => exact .submitting (h.more hidle (.of_journal rfl)) hcrash hwinner
  | elapse nanos => exact .submitting (h.more hidle (.of_journal rfl)) hcrash hwinner
  | step who =>
    cases who with
    | worker id => exact .submitting (h.more hidle (.of_journal rfl)) hcrash hwinner
    | session =>
      have hmove := submission.leadsTo_move r.config r.node winner .session world
      rw [← hwinner] at hmove
      simp only [Execution.next, Setup.move, move]
      split
      · rename_i hstep
        rw [hstep] at hmove
        exact .crashed (h.more hidle hmove) hcrash (by rw [hwinner]; rfl)
      · rename_i hstep
        rw [hstep] at hmove
        exact .submitting (h.more hidle hmove) hcrash hwinner
      · rename_i hstep
        rw [hstep] at hmove
        exact .returned (h.more hidle hmove) hcrash (by rw [hwinner]) (by rw [hwinner]; rfl)
      · rename_i hstep
        rw [hstep] at hmove
        exact .returned (h.more hidle (hmove.log _)) hcrash (by rw [hwinner]) (by rw [hwinner]; rfl)

theorem next_of_not_running {progress : Progress Round (Except Failure RoundReport)}
    (hrun : r.run events = ⟨progress, world⟩) (hp : ∀ a, progress ≠ .running a) (event : Event) :
    ∃ world', Execution.next r.move ⟨progress, world⟩ event = ⟨progress, world'⟩ ∧
      world'.journal = world.journal ∧ actor (r.run events) event = none := by
  rw [hrun]
  cases progress with
  | running a => exact absurd rfl (hp a)
  | _ =>
    cases event with
    | step who => cases who <;> exact ⟨_, rfl, rfl, rfl⟩
    | _ => exact ⟨_, rfl, rfl, rfl⟩

theorem stage_next (h : Stage r events (r.run events)) (event : Event) :
    Stage r (events ++ [event]) ((r.run events).next r.move event) := by
  generalize hrun : r.run events = e at h
  cases h with
  | opening hworld hactors => exact hrun ▸ stage_opening hrun hworld hactors event
  | searching h => exact hrun ▸ stage_searching hrun h event
  | submitting h hcrash hwinner => exact hrun ▸ stage_submitting hrun h hcrash rfl hwinner event
  | returned h hcrash hreport hdelivery =>
    obtain ⟨world', hnext, hworld, hidle⟩ := next_of_not_running hrun (fun _ => by rintro ⟨⟩) event
    rw [hnext]
    exact .returned (h.more hidle (.of_journal hworld)) hcrash hreport hdelivery
  | failed h hcrash =>
    obtain ⟨world', hnext, hworld, hidle⟩ := next_of_not_running hrun (fun _ => by rintro ⟨⟩) event
    rw [hnext]
    exact .failed (h.more hidle (.of_journal hworld)) hcrash
  | crashed h hcrash hwinner =>
    obtain ⟨world', hnext, hworld, hidle⟩ := next_of_not_running hrun (fun _ => by rintro ⟨⟩) event
    rw [hnext]
    exact .crashed (h.more hidle (.of_journal hworld)) hcrash hwinner
  | unspawned h hcrash =>
    obtain ⟨world', hnext, hworld, hidle⟩ := next_of_not_running hrun (fun _ => by rintro ⟨⟩) event
    rw [hnext]
    exact .unspawned (h.more hidle (.of_journal hworld)) hcrash
  | collapsed h hcrash =>
    obtain ⟨world', hnext, hworld, hidle⟩ := next_of_not_running hrun (fun _ => by rintro ⟨⟩) event
    rw [hnext]
    exact .collapsed (h.more hidle (.of_journal hworld)) hcrash

theorem stage_run (events : List Event) : Stage r events (r.run events) := by
  induction events using List.reverseRecOn with
  | nil => exact .opening rfl rfl
  | append_singleton events event ih =>
    rw [r.run_concat]
    exact stage_next ih event

end Next

end Round

end HeaderMiner
