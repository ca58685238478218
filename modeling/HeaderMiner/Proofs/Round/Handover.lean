import HeaderMiner.Node.Scripted
import HeaderMiner.Proofs.Round.Outcome
import Mathlib

/-!
# The winner and the session's thread

When all workers have ended, the session's thread looks for a worker that crashed before it looks at the winner, and
when a worker could not be started it does not look at the winner at all. `Setup.handovers` are the winners that a run
hands to the submission: without a crash the one on the board, if there is one, and otherwise none
(`winner_handed_over`), so a crash of any worker loses a solution that another one has found
(`winner_lost_in_crash`), and so does a worker that cannot be started (`winner_lost_unspawned`).
-/

namespace HeaderMiner.Round

variable {σ : Type}

/-- The winner that a step hands to the submission. -/
def handover? (before after : Execution σ Round (Except Failure RoundReport)) : Option Solution :=
  match before.progress, after.progress with
  | .running (.searching _ _ _ _ _), .running (.submitting _ winner .asking) => some winner
  | _, _ => none

namespace Setup

variable (r : Setup σ)

/-- The winners that a run hands to the submission from an execution on. -/
def handoversFrom (e : Execution σ Round (Except Failure RoundReport)) : List Event → List Solution
  | [] => []
  | event :: events => (handover? e (e.next r.move event)).toList ++ handoversFrom (e.next r.move event) events

/-- The winners that a run hands to the submission. -/
def handovers (events : List Event) : List Solution :=
  r.handoversFrom ⟨.running (.opening r.work r.range), r.world⟩ events

theorem handoversFrom_concat (e : Execution σ Round (Except Failure RoundReport)) (events : List Event)
    (event : Event) : r.handoversFrom e (events ++ [event]) = r.handoversFrom e events ++
      (handover? (e.run r.move events) ((e.run r.move events).next r.move event)).toList := by
  induction events generalizing e with
  | nil => exact List.append_nil _
  | cons x xs ih =>
    show (handover? e _).toList ++ r.handoversFrom _ (xs ++ [event]) = _
    rw [ih, ← List.append_assoc]
    rfl

theorem handovers_concat (events : List Event) (event : Event) :
    r.handovers (events ++ [event]) =
      r.handovers events ++ (handover? (r.run events) ((r.run events).next r.move event)).toList :=
  r.handoversFrom_concat _ _ _

end Setup

/-- What was handed over, by where the round has come to. -/
def Handed (given : List Solution) : Progress Round (Except Failure RoundReport) → Prop
  | .running (.opening _ _) | .running (.searching _ _ _ _ _) | .returned (.error _) => given = []
  | .running (.submitting _ winner _) => given = [winner]
  | .returned (.ok report) => given = report.solution.toList
  | .crashed => given.length ≤ 1

variable {r : Setup σ}

theorem handed_next {e : Execution σ Round (Except Failure RoundReport)} {given : List Solution}
    (h : Handed given e.progress) (event : Event) :
    Handed (given ++ (handover? e (e.next r.move event)).toList) (e.next r.move event).progress := by
  obtain ⟨progress, world⟩ := e
  have hsame (h : Handed given progress) : Handed (given ++ []) progress := by
    rw [List.append_nil]
    exact h
  cases progress with
  | crashed | returned =>
    cases event with
    | interrupt | elapse => exact hsame h
    | step who => cases who <;> exact hsame h
  | running round =>
    cases round with
    | opening work range =>
      cases event with
      | interrupt | elapse => exact hsame h
      | step who => cases who <;> exact hsame h
    | searching work started spawning board workers =>
      obtain rfl : given = [] := h
      cases event with
      | interrupt | elapse => rfl
      | step who =>
        have hadvances := move_advances r.config r.host r.node who work started spawning board workers world
        simp only [Execution.next, Setup.move]
        generalize Round.move r.config r.host r.node who (.searching work started spawning board workers) world =
          result at hadvances
        cases hadvances with
        | collapsed => exact Nat.zero_le 1
        | stepped | waits | spawned | refused | crashed | unsolved | solved | unspawned => rfl
    | submitting report winner submission =>
      obtain rfl : given = [winner] := h
      cases event with
      | interrupt | elapse => rfl
      | step who =>
        cases who with
        | worker id => rfl
        | session =>
          simp only [Execution.next, Setup.move, move]
          split
          · exact Nat.le_refl 1
          all_goals rfl

theorem handed_run (r : Setup σ) (events : List Event) : Handed (r.handovers events) (r.run events).progress := by
  induction events using List.reverseRecOn with
  | nil => rfl
  | append_singleton events event ih =>
    rw [r.handovers_concat, r.run_concat]
    exact handed_next ih event

/-- What a round returns and hands over, by the board and the workers that it had when those that were started had
all ended. -/
inductive Concludes (r : Setup σ) (b : Board) (workers : Array Worker) :
    Spawning → List Solution → Except Failure RoundReport → Prop
  | reported {report : RoundReport} (hcrash : crashedWorker? workers = none)
      (hsolution : report.solution = b.winner) :
      Concludes r b workers (.upTo r.threads) b.winner.toList (.ok report)
  | crashed {worker : Nat} (hcrash : crashedWorker? workers = some worker) :
      Concludes r b workers (.upTo r.threads) [] (.error (.workerCrashed worker))
  | unspawned {worker : Nat} (hlt : worker < r.threads) (hcrash : crashedWorker? (workers.take worker) = none) :
      Concludes r b workers (.failed worker) [] (.error (.spawn worker))

/-- What was handed over is known wherever a run has come to, and it is never more than one winner. A run that returns
has gone through a search in which the workers that were started had all ended. If these are all workers and none has
crashed, it returns a report and has handed over the winner of the board, if there is one, and nothing else. If one
has crashed, or one could not be started, it returns that failure and has handed over nothing, whether there is a
winner or not. -/
theorem winner_handed_over (r : Setup σ) (events : List Event) :
    Handed (r.handovers events) (r.run events).progress ∧
    ∀ result, (r.run events).progress = .returned result →
      ∃ earlier b workers spawning, earlier <+: events ∧ r.searching? earlier = some (b, workers) ∧
        r.spawning? earlier = some spawning ∧ (workers.take spawning.count).all Worker.hasEnded ∧
        Concludes r b workers spawning (r.handovers events) result := by
  have hhanded := handed_run r events
  refine ⟨hhanded, fun result hreturned => ?_⟩
  have hstage := stage_run (r := r) events
  generalize r.run events = e at hreturned hstage hhanded
  cases hstage with
  | @returned _ _ earlier _ b workers report hafter hcrash hreport _ =>
    cases hreturned
    have hsolution : report.solution = b.winner := by rw [hreport]
    refine ⟨earlier, b, workers, _, hafter.initial, hafter.searching, hafter.spawning?_eq, hafter.ended, ?_⟩
    rw [show r.handovers events = b.winner.toList from hsolution ▸ hhanded]
    exact .reported hcrash hsolution
  | @failed _ _ earlier _ b workers worker hafter hcrash =>
    cases hreturned
    refine ⟨earlier, b, workers, _, hafter.initial, hafter.searching, hafter.spawning?_eq, hafter.ended, ?_⟩
    rw [show r.handovers events = [] from hhanded]
    exact .crashed hcrash
  | @unspawned _ _ earlier _ b workers worker hafter hcrash =>
    cases hreturned
    refine ⟨earlier, b, workers, _, hafter.initial, hafter.searching, hafter.spawning?_eq, hafter.ended, ?_⟩
    rw [show r.handovers events = [] from hhanded]
    exact .unspawned hafter.search.failed_lt hcrash
  | _ => cases hreturned

theorem lost_of_failure {events : List Event} {failure : Failure}
    (h : (r.run events).progress = .returned (.error failure)) : r.handovers events = [] := by
  have hhanded := handed_run r events
  rw [h] at hhanded
  exact hhanded

theorem winner_handed_over_contested : ∃ report winner earlier b workers,
    (contested.run (contestedStart ++ contestedRest)).progress = .returned (.ok report) ∧
    report.solution = some winner ∧ earlier <+: contestedStart ++ contestedRest ∧
    contested.searching? earlier = some (b, workers) ∧ b.winner = some winner ∧
    contested.handovers (contestedStart ++ contestedRest) = [winner] := by
  obtain ⟨report, winner, hreturned, -, hsolution, -⟩ := contested_returned
  obtain ⟨earlier, b, workers, spawning, hinitial, hsearching, -, -, hconcludes⟩ :=
    (winner_handed_over contested (contestedStart ++ contestedRest)).2 _ hreturned
  generalize contested.handovers (contestedStart ++ contestedRest) = given at hconcludes ⊢
  cases hconcludes with
  | reported _ hwinner =>
    rw [hsolution] at hwinner
    exact ⟨report, winner, earlier, b, workers, hreturned, hsolution, hinitial, hsearching, hwinner.symm,
      by rw [← hwinner]; rfl⟩

/-- Worker 0 solves the round with its one nonce, and worker 1 crashes as it asks for the time: the solution is
claimed, but never handed over. -/
theorem winner_lost_in_crash :
    let header : Header :=
      { version := 0, prevBlockHash := BlockHash.zero.bytes, merkleRoot := Bytes.zero 32,
        referenceHash := Bytes.zero 32, time := 0, bits := 0x207fffff, nonce := 0 }
    let node := (ScriptedNode.ofLocal { bits := header.bits, clock := fun _ => 1700000000 }).setScript .time
      { crashOn := [1] }
    let r : Setup ScriptedNode :=
      ⟨{ threads := some 2, lanes := some .one, resyncBatches := 1 }, {}, ScriptedNode.answer, Work.ofHeader header,
        ⟨3, 5, by decide, by decide⟩, { node }⟩
    let search : List Event :=
      List.replicate 3 (.step .session) ++ List.replicate 7 (.step (.worker 0)) ++
        List.replicate 6 (.step (.worker 1))
    ∃ b workers, r.searching? search = some (b, workers) ∧ workers.all Worker.hasEnded ∧
      b.winner.map (·.nonce) = some 3 ∧
      (r.run (search ++ [.step .session])).progress = .returned (.error (.workerCrashed 1)) ∧
      r.handovers (search ++ [.step .session]) = [] := by
  intro header node r search
  have hsearch : (r.searching? search).any (fun found => found.2.all Worker.hasEnded ∧
      found.1.winner.map (·.nonce) = some 3 ∧
      (r.run (search ++ [.step .session])).progress = .returned (.error (.workerCrashed 1))) = true := by
    decide +kernel
  obtain ⟨⟨b, workers⟩, hsearching, hends⟩ := (Option.any_eq_true _ _).1 hsearch
  obtain ⟨hended, hwinner, hreturned⟩ := of_decide_eq_true hends
  exact ⟨b, workers, hsearching, hended, hwinner, hreturned, lost_of_failure hreturned⟩

/-- Worker 0 solves the round with its one nonce before worker 1 is to be started, which fails: the solution is
claimed, but never handed over. -/
theorem winner_lost_unspawned :
    let header : Header :=
      { version := 0, prevBlockHash := BlockHash.zero.bytes, merkleRoot := Bytes.zero 32,
        referenceHash := Bytes.zero 32, time := 0, bits := 0x207fffff, nonce := 0 }
    let r : Setup LocalNode :=
      ⟨{ threads := some 2, lanes := some .one, resyncBatches := 1 }, { spawns := fun _ worker => worker == 0 },
        LocalNode.answer, Work.ofHeader header, ⟨3, 5, by decide, by decide⟩,
        { node := { bits := header.bits, clock := fun _ => 1700000000 } }⟩
    let search : List Event :=
      List.replicate 2 (.step .session) ++ List.replicate 7 (.step (.worker 0)) ++ [.step .session]
    ∃ b workers, r.searching? search = some (b, workers) ∧ r.spawning? search = some (.failed 1) ∧
      b.winner.map (·.nonce) = some 3 ∧
      (r.run (search ++ [.step .session])).progress = .returned (.error (.spawn 1)) ∧
      r.handovers (search ++ [.step .session]) = [] := by
  intro header r search
  have hsearch : (r.searching? search).any (fun found => r.spawning? search = some (.failed 1) ∧
      found.1.winner.map (·.nonce) = some 3 ∧
      (r.run (search ++ [.step .session])).progress = .returned (.error (.spawn 1))) = true := by
    decide +kernel
  obtain ⟨⟨b, workers⟩, hsearching, hends⟩ := (Option.any_eq_true _ _).1 hsearch
  obtain ⟨hspawning, hwinner, hreturned⟩ := of_decide_eq_true hends
  exact ⟨b, workers, hsearching, hspawning, hwinner, hreturned, lost_of_failure hreturned⟩

end HeaderMiner.Round
