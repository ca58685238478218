import HeaderMiner.Node.Local
import HeaderMiner.Proofs.Round.Contest
import HeaderMiner.Proofs.Round.Stage
import Mathlib

/-!
# The outcome of a round

When all workers have ended without a crash, the contest is `Decided`: the first claim has won, the found flag says
so, its worker alone has ended as the solver, and every counter stands at its worker's hashes. The report is
made of the board and the workers, so it `Agrees` with them. In the round `contested` two workers claim.
-/

namespace HeaderMiner

variable {σ : Type}

namespace Board

variable (b : Board) (interrupted : Bool)

theorem outcome_eq_solved : b.outcome interrupted = .solved ↔ b.found = true := by
  unfold outcome
  cases b.found <;> cases interrupted <;> cases b.superseded <;> simp

theorem outcome_eq_interrupted :
    b.outcome interrupted = .interrupted ↔ ¬ b.found = true ∧ interrupted = true := by
  unfold outcome
  cases b.found <;> cases interrupted <;> cases b.superseded <;> simp

theorem outcome_eq_superseded :
    b.outcome interrupted = .superseded ↔ ¬ b.found = true ∧ ¬ interrupted = true ∧ b.superseded = true := by
  unfold outcome
  cases b.found <;> cases interrupted <;> cases b.superseded <;> simp

theorem outcome_eq_exhausted :
    b.outcome interrupted = .exhausted ↔ ¬ b.found = true ∧ ¬ interrupted = true ∧ ¬ b.superseded = true := by
  unfold outcome
  cases b.found <;> cases interrupted <;> cases b.superseded <;> simp

end Board

namespace Round

variable {r : Setup σ} {history : List Worker} {spawning : Spawning} {workers : Array Worker} {s : Shared σ}
  {b : Board}

theorem phase_eq_done (hended : workers.all Worker.hasEnded) (hcrash : crashedWorker? workers = none) {i : Nat}
    {w : Worker} (hw : workers[i]? = some w) : w.phase = .done := by
  have hmem := Array.mem_of_getElem? hw
  have hend := Array.all_eq_true_iff_forall_mem.1 hended w hmem
  have hnot := Array.findIdx?_eq_none_iff.1 hcrash w hmem
  rw [Worker.hasEnded, decide_eq_true_iff] at hend
  rcases hend with hdone | hcrashed
  · exact hdone
  · rw [hcrashed] at hnot
    cases hnot

/-- The contest at its end. -/
structure Decided (history : List Worker) (workers : Array Worker) (b : Board) : Prop where
  /-- One claim returned true if any was made, the first one. -/
  wins_eq : wins history = (claims history).head?.toList
  winner_eq : b.winner = (claims history).head?
  found : b.found = true ↔ b.winner.isSome
  solver : ∀ (i : Nat) (w : Worker), workers[i]? = some w →
    (w.exit = .solved ↔ ∃ s, b.winner = some s ∧ s.worker = i)
  inside : ∀ s : Solution, b.winner = some s → s.worker < workers.size
  counter : ∀ (i : Nat) (w : Worker), workers[i]? = some w → b.progress[i]? = some w.hashes

theorem Search.decided (h : Search r history spawning workers s) (hended : workers.all Worker.hasEnded)
    (hcrash : crashedWorker? workers = none) : Decided history workers s.board := by
  have hc := h.contest
  have hsolver (i : Nat) (w : Worker) (hw : workers[i]? = some w) :
      w.exit = .solved ↔ ∃ s', s.board.winner = some s' ∧ s'.worker = i := by
    have hsettled : w.phase.settled := by rw [phase_eq_done hended hcrash hw]; rfl
    have hholds := (hc.each i w hw).holds
    rw [Worker.holdsWin_of_settled hsettled, h.id_eq hw] at hholds
    exact hholds
  refine ⟨?_, hc.first, ⟨hc.found, fun hsome => ?_⟩, hsolver, fun s' hs' => ?_, fun i w hw => ?_⟩
  · rw [hc.wins_eq, ← hc.first]
    cases hwon : s.board.winner with
    | none => rfl
    | some s' =>
      obtain ⟨w, hw, -⟩ := hc.announced s' hwon
      have hsolved : HasSolved workers s'.worker := by
        rw [HasSolved, hw, Option.map_some, (hsolver _ w hw).2 ⟨s', hwon, rfl⟩]
      rw [Option.filter_some, if_pos (by simpa using hsolved)]
  · obtain ⟨s', hs'⟩ := Option.isSome_iff_exists.1 hsome
    obtain ⟨w, hw, hfound | hphase⟩ := hc.announced s' hs'
    · exact hfound
    · rw [phase_eq_done hended hcrash hw] at hphase
      cases hphase
  · obtain ⟨w, hw, -⟩ := hc.announced s' hs'
    exact (Array.getElem?_eq_some_iff.1 hw).1
  · have hcounter := (hc.each i w hw).counter (by rw [phase_eq_done hended hcrash hw]; rfl)
    rw [h.id_eq hw] at hcounter
    exact hcounter

/-- What the report of a round says, measured by the board at its end. -/
structure Agrees (r : Setup σ) (b : Board) (report : RoundReport) : Prop where
  solution : report.solution = b.winner
  solved : report.outcome = .solved ↔ report.solution.isSome
  delivered : report.outcome = .solved ↔ report.delivery.isSome
  one_solver : report.outcome = .solved ↔ (report.workers.filter (·.exit = .solved)).length = 1
  /-- The solution's worker, and no other, has ended as the solver. -/
  solvers : (report.workers.filter (·.exit = .solved)).map (·.id) = (report.solution.map (·.worker)).toList
  workers : report.workers.map (fun w => (w.id, w.range)) = r.slices.mapIdx fun i slice => (i, slice)
  counters : ∀ w ∈ report.workers, b.hashesOf w.id = w.hashes
  total : b.totalHashes = report.hashes

section Report

variable {world₀ : World σ}

theorem map_id (h : Search r history spawning workers s) : workers.toList.map (·.id) = List.range workers.size := by
  refine List.ext_getElem (by simp) fun i hi _ => ?_
  rw [List.getElem_map, List.getElem_range, Array.getElem_toList]
  exact h.id_eq (Array.getElem?_eq_getElem (by simpa using hi))

theorem solvers_eq (h : Search r history spawning workers s) (hd : Decided history workers s.board) :
    ((workers.toList.map Worker.report).filter (·.exit = .solved)).map (·.id) =
      (s.board.winner.map (·.worker)).toList := by
  have hsolver {w : Worker} (hw : w ∈ workers.toList) :
      w.exit = .solved ↔ ∃ s', s.board.winner = some s' ∧ s'.worker = w.id := by
    obtain ⟨i, hi⟩ := List.getElem?_of_mem hw
    rw [Array.getElem?_toList] at hi
    rw [hd.solver i w hi, h.id_eq hi]
  have hids : ((workers.toList.map Worker.report).filter (·.exit = .solved)).map (·.id) =
      (List.range workers.size).filter fun i => ∃ s', s.board.winner = some s' ∧ s'.worker = i := by
    rw [← map_id h, List.filter_map, List.filter_map, List.map_map]
    refine congrArg (List.map _) (List.filter_congr fun w hw => ?_)
    exact decide_eq_decide.2 (hsolver hw)
  rw [hids]
  cases hwon : s.board.winner with
  | none => simp
  | some s' =>
    have hone : (List.range workers.size).filter (· = s'.worker) = [s'.worker] := by
      rw [List.filter_eq, List.count_range, if_pos (hd.inside s' hwon)]
      rfl
    simpa [eq_comm] using hone

theorem slices_eq (h : Search r history spawning workers s) :
    (workers.toList.map Worker.report).map (fun w => (w.id, w.range)) =
      r.slices.mapIdx fun i slice => (i, slice) := by
  have hlen : workers.size = r.slices.length := by
    rw [h.size_workers, Setup.slices, NonceRange.split, List.length_ofFn]
  refine List.ext_getElem (by simpa using hlen) fun i hi _ => ?_
  have hw : i < workers.size := by simpa using hi
  obtain ⟨slice, hslice, htask⟩ := h.task (Array.getElem?_eq_getElem hw)
  obtain ⟨_, rfl⟩ := List.getElem?_eq_some_iff.1 hslice
  simp only [List.getElem_map, Array.getElem_toList, List.getElem_mapIdx]
  exact congrArg₂ Prod.mk htask.id htask.slice

theorem progress_eq (h : Search r history spawning workers s) (hd : Decided history workers s.board) :
    s.board.progress.toList = workers.toList.map (·.hashes) := by
  refine List.ext_getElem (by simp [h.size_progress, h.size_workers]) fun i hi hi' => ?_
  have hw : i < workers.size := by simpa using hi'
  have hcounter := hd.counter i _ (Array.getElem?_eq_getElem hw)
  rw [Array.getElem?_eq_getElem (by simpa using hi), Option.some.injEq] at hcounter
  simpa using hcounter

theorem agrees_tally (h : Search r history spawning workers s) (hd : Decided history workers s.board)
    (interrupted : Bool) (elapsed : Nat) {delivery : Option Delivery}
    (hdelivery : delivery.isSome = s.board.winner.isSome) :
    Agrees r s.board { tally r.work (s.board.outcome interrupted) elapsed workers with
      delivery, solution := s.board.winner } := by
  have hprogress := progress_eq h hd
  have hsolved := (s.board.outcome_eq_solved interrupted).trans hd.found
  refine ⟨rfl, hsolved, ?_, hsolved.trans ?_, solvers_eq h hd, slices_eq h, fun w hw => ?_, ?_⟩
  · rw [hdelivery]
    exact hsolved
  · show _ ↔ ((workers.toList.map Worker.report).filter (·.exit = .solved)).length = 1
    rw [← List.length_map, solvers_eq h hd]
    cases s.board.winner <;> simp
  · obtain ⟨v, hv, rfl⟩ := List.mem_map.1 hw
    obtain ⟨i, hi⟩ := List.getElem?_of_mem hv
    rw [Array.getElem?_toList] at hi
    show (s.board.progress[v.id]?).getD 0 = v.hashes
    rw [h.id_eq hi, hd.counter i v hi, Option.getD_some]
  · show s.board.progress.toList.foldr (· + ·) 0 =
      ((workers.toList.map Worker.report).map (·.hashes)).foldr (· + ·) 0
    rw [hprogress, List.map_map]
    rfl

end Report

theorem head?_claims_append {s : Solution} (h : (claims history).head? = some s) (later : List Worker) :
    (claims (history ++ later)).head? = some s := by
  rw [claims, List.filterMap_append, List.head?_append]
  show ((claims history).head?.or _) = _
  rw [h]
  rfl

theorem search_of_searching? {events : List Event} (h : r.searching? events = some (b, workers)) :
    ∃ spawning, r.spawning? events = some spawning ∧
      Search r (r.actors events) spawning workers ⟨b, (r.run events).world⟩ := by
  have hstage := stage_run (r := r) events
  unfold Setup.searching? at h
  unfold Setup.spawning?
  generalize r.run events = e at h hstage ⊢
  cases hstage with
  | searching hsearch =>
    cases h
    exact ⟨_, rfl, hsearch⟩
  | _ => cases h

/-- In every run, whatever the node does and whichever order the workers run in, the winner is the solution of the
first claim and stays it, and no other claim returns true. A round that returns a report has gone through a search
whose contest was decided when its workers had ended, and its report agrees with it. -/
theorem one_claim_wins (r : Setup σ) (events : List Event) :
    (∀ b workers, r.searching? events = some (b, workers) →
      b.winner = (claims (r.actors events)).head? ∧
      (wins (r.actors events)).length ≤ 1 ∧ (∀ s ∈ wins (r.actors events), b.winner = some s) ∧
      (∀ later b' workers', r.searching? (events ++ later) = some (b', workers') →
        ∀ s, b.winner = some s → b'.winner = some s) ∧
      (workers.all Worker.hasEnded → crashedWorker? workers = none →
        Decided (r.actors events) workers b)) ∧
    ∀ report, (r.run events).progress = .returned (.ok report) →
      ∃ earlier b workers, earlier <+: events ∧ r.searching? earlier = some (b, workers) ∧
        workers.all Worker.hasEnded ∧ Decided (r.actors events) workers b ∧ Agrees r b report := by
  refine ⟨fun b workers hsearching => ?_, fun report hreturned => ?_⟩
  · obtain ⟨_, -, h⟩ := search_of_searching? hsearching
    have hc := h.contest
    refine ⟨hc.first, ?_, fun s hs => ?_, fun later b' workers' hlater s hs => ?_, h.decided⟩
    · rw [hc.wins_eq]
      exact Option.length_toList_le
    · rw [hc.wins_eq, Option.mem_toList, Option.filter_eq_some_iff] at hs
      exact hs.1
    · obtain ⟨_, -, h'⟩ := search_of_searching? hlater
      have hc' := h'.contest
      rw [hc'.first, Setup.actors, Setup.actorsFrom_append]
      exact head?_claims_append (hc.first.symm.trans hs) _
  · have hstage := stage_run (r := r) events
    generalize hrun : r.run events = e at hreturned hstage
    cases hstage with
    | @returned _ _ earlier _ b workers _ hafter hcrash hreport hdelivery =>
      cases hreturned
      have hd := hafter.search.decided hafter.all_ended hcrash
      refine ⟨earlier, b, workers, hafter.initial, ?_, hafter.all_ended, hd, ?_⟩
      · rw [Setup.searching?, hafter.run_eq]
      · rw [hreport]
        exact agrees_tally hafter.search hd _ _ hdelivery
    | _ => cases hreturned

/-! ### A contested round -/

/-- The report, if a run has returned one. -/
def Setup.report? (r : Setup σ) (events : List Event) : Option RoundReport :=
  match (r.run events).progress with
  | .returned (.ok report) => some report
  | _ => none

theorem progress_of_report? {events : List Event} {report : RoundReport} (h : r.report? events = some report) :
    (r.run events).progress = .returned (.ok report) := by
  unfold Setup.report? at h
  split at h
  · cases h
    assumption
  · cases h

/-- Two workers with one nonce each. Both nonces are good. -/
def contested : Setup LocalNode where
  config := { threads := some 2, lanes := some .one, resyncBatches := 1 }
  host := {}
  node := LocalNode.answer
  work := .ofHeader
    { version := 0, prevBlockHash := BlockHash.zero.bytes, merkleRoot := Bytes.zero 32, referenceHash := Bytes.zero 32,
      time := 0, bits := 0x207fffff, nonce := 0 }
  range := .clamp 2 4
  world := { node := { bits := 0x207fffff, clock := fun _ => 0 } }

/-- Worker 1 has begun when worker 0 has claimed its nonce and ended. -/
def contestedStart : List Event :=
  List.replicate 3 (.step .session) ++ .step (.worker 1) :: List.replicate 7 (.step (.worker 0))

/-- Then worker 1 claims its own nonce and ends, and the winner is handed in. -/
def contestedRest : List Event :=
  List.replicate 5 (.step (.worker 1)) ++ List.replicate 3 (.step .session)

theorem contested_run :
    (contested.searching? contestedStart).any (·.1.stop) ∧
    (claims (contested.actors (contestedStart ++ contestedRest))).map (·.nonce) = [2, 3] ∧
    (contested.report? (contestedStart ++ contestedRest)).any fun report =>
      report.outcome = .solved ∧ report.solution.map (·.nonce) = some 2 ∧ report.delivery = some .accepted := by
  decide +kernel

/-- The report of the contested round, of which the first claim is the solution. -/
theorem contested_returned : ∃ report winner,
    (contested.run (contestedStart ++ contestedRest)).progress = .returned (.ok report) ∧ report.outcome = .solved ∧
      report.solution = some winner ∧ winner.nonce = 2 ∧ report.delivery = some .accepted := by
  obtain ⟨report, hreport, hends⟩ := (Option.any_eq_true _ _).1 contested_run.2.2
  obtain ⟨houtcome, hnonce, hdelivery⟩ := of_decide_eq_true hends
  obtain ⟨winner, hwinner, hnonce⟩ := Option.map_eq_some_iff.1 hnonce
  exact ⟨report, winner, progress_of_report? hreport, houtcome, hwinner, hnonce, hdelivery⟩

theorem one_claim_wins_contested :
    (claims (contested.actors (contestedStart ++ contestedRest))).map (·.nonce) = [2, 3] ∧
    ∃ report, (contested.run (contestedStart ++ contestedRest)).progress = .returned (.ok report) ∧
      report.outcome = .solved ∧ ∃ earlier b workers, earlier <+: contestedStart ++ contestedRest ∧
        contested.searching? earlier = some (b, workers) ∧ workers.all Worker.hasEnded ∧
        Decided (contested.actors (contestedStart ++ contestedRest)) workers b ∧ Agrees contested b report := by
  obtain ⟨report, winner, hreturned, houtcome, -⟩ := contested_returned
  exact ⟨contested_run.2.1, report, hreturned, houtcome, (one_claim_wins _ _).2 report hreturned⟩

end Round

end HeaderMiner
