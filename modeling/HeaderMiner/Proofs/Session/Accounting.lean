import HeaderMiner.Node.Scripted
import HeaderMiner.Proofs.Round.Local
import HeaderMiner.Proofs.Session.Requests
import Mathlib

/-!
# The accounts of a session

The statistics of a session are kept up at two places, after each round and after a failed template. They are
`Balanced` against the reports of the rounds and the calls of the node, and each round and each failed template has
its attempt at a template (`Accounted`). Both are kept by a step between rounds (`Accounted.goes`) and by a round
(`Accounted.record`).
-/

namespace HeaderMiner

variable {σ : Type}

/-- The solution, if the node took it. -/
def RoundReport.accepted? (r : RoundReport) : Option Solution :=
  if r.delivery = some .accepted then r.solution else none

/-- A round counts once by its outcome, and once by what became of its solution. -/
theorem Stats.record_eq (s : Stats) (r : RoundReport) :
    s.record r = {
      rounds := s.rounds + 1
      solved := s.solved + if r.outcome = .solved then 1 else 0
      accepted := s.accepted + if r.delivery = some .accepted then 1 else 0
      rejected := s.rejected + if r.delivery = some .rejected then 1 else 0
      dropped := s.dropped + if r.delivery = some .noPeers then 1 else 0
      failed := s.failed + if r.delivery = some .failed then 1 else 0
      exhausted := s.exhausted + if r.outcome = .exhausted then 1 else 0
      superseded := s.superseded + if r.outcome = .superseded then 1 else 0
      interrupted := s.interrupted + if r.outcome = .interrupted then 1 else 0
      templateErrors := s.templateErrors
      totalHashes := s.totalHashes + r.hashes
      elapsedMs := s.elapsedMs + r.elapsedMs
      blocks := s.blocks ++ (r.accepted?.map (·.hash)).toList } := by
  obtain ⟨outcome, delivery, solution, bits, elapsed, workers⟩ := r
  unfold record RoundReport.accepted?
  cases outcome <;> rcases delivery with _ | _ | _ | _ | _ <;> simp [countOutcome, countDelivery]

/-- The statistics of these rounds. -/
def Stats.ofReports (reports : List RoundReport) (templateErrors : Nat) : Stats where
  rounds := reports.length
  solved := reports.countP (·.outcome = .solved)
  accepted := reports.countP (·.delivery = some .accepted)
  rejected := reports.countP (·.delivery = some .rejected)
  dropped := reports.countP (·.delivery = some .noPeers)
  failed := reports.countP (·.delivery = some .failed)
  exhausted := reports.countP (·.outcome = .exhausted)
  superseded := reports.countP (·.outcome = .superseded)
  interrupted := reports.countP (·.outcome = .interrupted)
  templateErrors
  totalHashes := ((reports.flatMap (·.workers)).map (·.hashes)).sum
  elapsedMs := (reports.map (·.elapsedMs)).sum
  blocks := (reports.filterMap RoundReport.accepted?).map (·.hash)

theorem Stats.record_ofReports (reports : List RoundReport) (templateErrors : Nat) (report : RoundReport) :
    (ofReports reports templateErrors).record report = ofReports (reports ++ [report]) templateErrors := by
  have haccepted : [report].filterMap RoundReport.accepted? = report.accepted?.toList := rfl
  have hhashes : (report.workers.map (·.hashes)).sum = report.hashes := rfl
  rw [record_eq]
  simp [ofReports, List.countP_singleton, Option.toList_map, haccepted, hhashes]

namespace Round

variable {called : List Call} {report : RoundReport}

theorem Reported.length_submissions {solution : Option Solution} {delivery : Option Delivery}
    (h : Reported called solution delivery) : (submissions called).length =
      (if delivery = some .accepted then 1 else 0) + (if delivery = some .rejected then 1 else 0) +
        if delivery = some .failed then 1 else 0 := by
  cases h with
  | unsolved h | dropped h | accepted h | rejected h | failed h =>
    rw [h]
    rfl

theorem Reported.taken_eq (h : Reported called report.solution report.delivery) :
    taken called = (report.accepted?.map (·.header.toHeader)).toList := by
  unfold RoundReport.accepted? taken
  generalize report.solution = solution at h
  generalize report.delivery = delivery at h
  cases h with
  | unsolved h | dropped h | accepted h | rejected h | failed h =>
    rw [h]
    rfl

theorem Reported.length_accepted (h : Reported called report.solution report.delivery) :
    report.accepted?.toList.length = if report.delivery = some .accepted then 1 else 0 := by
  unfold RoundReport.accepted?
  generalize report.solution = solution at h
  generalize report.delivery = delivery at h
  cases h <;> rfl

/-- The hash that a round has found for its solution is the header's. -/
theorem Returned.map_hash {r : Setup σ} {world : World σ} (h : Returned r world report) :
    report.accepted?.map (·.hash) = report.accepted?.map (·.header.toHeader.hash) := by
  refine Option.map_congr fun s hs => ?_
  unfold RoundReport.accepted? at hs
  split at hs
  · obtain ⟨slice, -, hsound⟩ := h.vouched s hs
    exact hsound.hash_toHeader.symm
  · cases hs

end Round

/-- What the statistics count, by the reports of the rounds and the calls of the node. -/
structure Balanced (reports : List RoundReport) (called : List Call) (stats : Stats) : Prop where
  counted : stats = .ofReports reports stats.templateErrors
  outcomes : stats.rounds = stats.solved + stats.exhausted + stats.superseded + stats.interrupted
  deliveries : stats.solved = stats.accepted + stats.rejected + stats.dropped + stats.failed
  submitted : (submissions called).length = stats.accepted + stats.rejected + stats.failed
  accepted : stats.blocks.length = stats.accepted
  /-- The headers that the node took are those of the accepted solutions, round after round. -/
  taken : taken called = (reports.filterMap RoundReport.accepted?).map (·.header.toHeader)
  blocks : stats.blocks = (HeaderMiner.taken called).map Header.hash

namespace Balanced

variable {reports : List RoundReport} {called new : List Call} {stats : Stats} {report : RoundReport}

theorem empty : Balanced [] [] {} := ⟨rfl, rfl, rfl, rfl, rfl, rfl, rfl⟩

/-- Calls that hand in no header change no count. -/
theorem asked (h : Balanced reports called stats) (hnew : submissions new = []) :
    Balanced reports (called ++ new) stats := by
  have htaken : HeaderMiner.taken (called ++ new) = HeaderMiner.taken called := by
    rw [taken_append, Round.taken_of_submissions hnew, List.append_nil]
  refine ⟨h.counted, h.outcomes, h.deliveries, ?_, h.accepted, ?_, ?_⟩
  · rw [submissions_append, hnew, List.append_nil]
    exact h.submitted
  · rw [htaken]
    exact h.taken
  · rw [htaken]
    exact h.blocks

theorem retry (h : Balanced reports called stats) :
    Balanced reports called { stats with templateErrors := stats.templateErrors + 1 } := by
  refine ⟨?_, h.outcomes, h.deliveries, h.submitted, h.accepted, h.taken, h.blocks⟩
  have hcounted := h.counted
  rw [hcounted]
  rfl

theorem record {r : Round.Setup σ} {world : World σ} (h : Balanced reports called stats)
    (hr : Round.Returned r world report) :
    Balanced (reports ++ [report]) (called ++ calls (r.entries world)) (stats.record report) := by
  have htaken := hr.reported.taken_eq
  have hcounted : stats.record report = .ofReports (reports ++ [report]) stats.templateErrors := by
    rw [← Stats.record_ofReports, ← h.counted]
  refine ⟨?_, ?_, ?_, ?_, ?_, ?_, ?_⟩
  · rw [hcounted]
    rfl
  · have houtcomes := h.outcomes
    rw [Stats.record_eq]
    cases report.outcome <;> simp <;> omega
  · have hdeliveries := h.deliveries
    rw [Stats.record_eq]
    dsimp only
    rw [if_congr hr.solved rfl rfl]
    rcases report.delivery with _ | _ | _ | _ | _ <;> simp <;> omega
  · have hsubmitted := h.submitted
    rw [Stats.record_eq, submissions_append, List.length_append, hr.reported.length_submissions]
    dsimp only
    omega
  · rw [Stats.record_eq, List.length_append, h.accepted, Option.toList_map, List.length_map,
      hr.reported.length_accepted]
  · rw [taken_append, h.taken, htaken, List.filterMap_append, List.map_append, Option.toList_map]
    rfl
  · rw [Stats.record_eq, taken_append, List.map_append, ← h.blocks, htaken, hr.map_hash, ← Option.toList_map,
      Option.map_map]
    rfl

end Balanced

namespace Session

/-- How often a template was tried to be had. Each try begins with the reference. -/
def attempts (called : List Call) : Nat := called.countP (·.request.query = .reference)

theorem attempts_append (xs ys : List Call) : attempts (xs ++ ys) = attempts xs + attempts ys := List.countP_append

/-- The tries of the phase of which it is not yet known what they lead to. -/
def Phase.pending : Phase → Nat
  | .fetching (.askingTemplate _) | .mining _ => 1
  | _ => 0

/-- The rounds that the phase may still add, before the number of rounds is looked at again. -/
def Phase.commits : Phase → Nat
  | .askingPeers | .fetching _ | .mining _ => 1
  | _ => 0

/-- The accounts of a session that has come to this state by these rounds and these calls. -/
structure Accounted (config : Config) (reports : List RoundReport) (called : List Call) (s : Session) : Prop where
  balanced : Balanced reports called s.stats
  attempts : attempts called = s.stats.rounds + s.stats.templateErrors + s.phase.pending
  within : ∀ max, config.maxRounds = some max → s.stats.rounds + s.phase.commits ≤ max.toNat

namespace Accounted

variable {config : Config} {reports : List RoundReport} {called new : List Call} {s s' : Session} {phase : Phase}

theorem empty (config : Config) : Accounted config [] [] {} :=
  ⟨.empty, rfl, fun _ _ => Nat.zero_le _⟩

theorem goto (h : Accounted config reports called s) (hnew : submissions new = [])
    (htries : Session.attempts new + s.phase.pending = phase.pending) (hcommits : phase.commits ≤ s.phase.commits) :
    Accounted config reports (called ++ new) (s.goto phase) := by
  refine ⟨h.balanced.asked hnew, ?_, fun max hmax => ?_⟩
  · have hattempts := h.attempts
    rw [attempts_append]
    show _ = s.stats.rounds + s.stats.templateErrors + phase.pending
    omega
  · exact (Nat.add_le_add_left hcommits _).trans (h.within max hmax)

theorem retry (h : Accounted config reports called s) (hnew : submissions new = [])
    (htries : Session.attempts new + s.phase.pending = 1) : Accounted config reports (called ++ new) s.retry := by
  refine ⟨(h.balanced.asked hnew).retry, ?_, fun max hmax => ?_⟩
  · have hattempts := h.attempts
    rw [attempts_append]
    show _ = s.stats.rounds + (s.stats.templateErrors + 1) + 0
    omega
  · exact (Nat.add_le_add_left (Nat.zero_le _) _).trans (h.within max hmax)

theorem afterPeers (h : Accounted config reports called s) (hnew : submissions new = [])
    (htries : Session.attempts new + s.phase.pending = 0) (polls : Nat) :
    Accounted config reports (called ++ new) (s.afterPeers config polls) := by
  unfold Session.afterPeers
  split
  · exact h.goto hnew htries (Nat.zero_le _)
  · exact h.goto hnew htries (Nat.zero_le _)

theorem loop (h : Accounted config reports called s) (hs : s.phase = .looping)
    (hmore : s.isComplete config = false) : Accounted config reports called (s.goto .askingPeers) := by
  refine ⟨h.balanced, ?_, fun max hmax => ?_⟩
  · rw [h.attempts, hs]
    rfl
  · have hrounds : ¬ max.toNat ≤ s.stats.rounds := by
      rw [isComplete, hmax] at hmore
      exact of_decide_eq_false hmore
    exact Nat.lt_of_not_le hrounds

theorem goes {interrupted : Bool} (h : Accounted config reports called s)
    (hgoes : s.Goes config interrupted new (.running s')) : Accounted config reports (called ++ new) s' := by
  cases hgoes with
  | meet hs | giveUp hs => exact h.afterPeers rfl (by rw [hs]; rfl) _
  | miss hs | pause hs | settle hs | look hs | settled hs | hold hs | shift hs | part hs =>
    exact h.goto rfl (by rw [hs]; rfl) (Nat.zero_le _)
  | loop hs _ hmore =>
    rw [List.append_nil]
    exact h.loop hs hmore
  | greet hs | refer hs | mine hs => exact h.goto rfl (by rw [hs]; rfl) (by rw [hs]; exact Nat.le_refl 1)
  | lack hs | fail hs => exact h.retry rfl (by rw [hs]; rfl)

theorem record {r : Round.Setup σ} {world : World σ} {report : RoundReport} {round : Round}
    (h : Accounted config reports called (s.goto (.mining round))) (hr : Round.Returned r world report) :
    Accounted config (reports ++ [report]) (called ++ calls (r.entries world)) ⟨s.stats.record report, .looping⟩ := by
  -- a round asks for no reference
  have hround : Session.attempts (calls (r.entries world)) = 0 := by
    refine List.countP_eq_zero.2 fun call hcall hquery => ?_
    have hofRound := hr.asked call hcall
    rw [of_decide_eq_true hquery] at hofRound
    cases hofRound
  refine ⟨h.balanced.record hr, ?_, fun max hmax => ?_⟩
  · rw [attempts_append, hround, h.attempts, Stats.record_eq]
    show s.stats.rounds + s.stats.templateErrors + 1 + 0 = s.stats.rounds + 1 + s.stats.templateErrors + 0
    omega
  · have hwithin := h.within max hmax
    rw [Stats.record_eq]
    exact hwithin

end Accounted

variable {c : Setup σ} {reports : List RoundReport} {s : Session} {world opening world' : World σ} {work : Work}
  {events : List Event}

theorem Walk.accounted_step {s' : Session} (h : Walk c reports s world)
    (haccounted : Accounted c.config reports (c.called world) s)
    (hstep : c.move .session s world = (.running s', world')) : Accounted c.config reports (c.called world') s' := by
  rw [h.called_step hstep]
  exact haccounted.goes (h.goes hstep)

theorem Walk.accounted (h : Walk c reports s world) : Accounted c.config reports (c.called world) s := by
  induction h with
  | begun =>
    rw [c.called_begin]
    exact .empty c.config
  | interrupted _ ih | elapsed _ _ ih => exact ih
  | walked h hstep _ ih => exact h.accounted_step ih hstep
  | @mined _ _ before _ _ _ _ _ h hstep hround _ ih =>
    have hopens : Opens c _ _ _ _ := ⟨before, h, hstep⟩
    rw [hopens.called_round hround]
    exact (h.accounted_step ih hstep).record (Round.Setup.returned_run _ hround)

theorem Opens.accounted {report : RoundReport} (h : Opens c reports s work opening)
    (hround : (c.round work opening).run events = ⟨.returned (.ok report), world'⟩) :
    Accounted c.config (reports ++ [report]) (c.called world') ⟨s.stats.record report, .looping⟩ := by
  rw [h.called_round hround]
  obtain ⟨world, hwalk, hstep⟩ := h
  exact (hwalk.accounted_step hwalk.accounted hstep).record (Round.Setup.returned_run _ hround)

/-- Between rounds no report is of an interrupted round: such a round is the last. -/
theorem Walk.not_interrupted (h : Walk c reports s world) : ∀ report ∈ reports, report.outcome ≠ .interrupted := by
  induction h with
  | begun =>
    intro report hreport
    cases hreport
  | interrupted _ ih | elapsed _ _ ih | walked _ _ _ ih => exact ih
  | mined _ _ _ hmore ih =>
    intro report hreport
    rcases List.mem_append.1 hreport with hreport | hreport
    · exact ih report hreport
    · rw [List.mem_singleton.1 hreport]
      exact hmore

theorem Walk.countP_interrupted (h : Walk c reports s world) : reports.countP (·.outcome = .interrupted) = 0 := by
  refine List.countP_eq_zero.2 fun report hreport houtcome => ?_
  exact h.not_interrupted report hreport (of_decide_eq_true houtcome)

/-- A session that has returned its statistics has kept its accounts, was interrupted in one round at most, and has
ended for a reason. -/
theorem accounted_of_returned {stats : Stats} (hreturned : (c.run events).progress = .returned (.ok stats)) :
    Accounted c.config (c.reports events) (c.called (c.run events).world) ⟨stats, .looping⟩ ∧
      (c.reports events).countP (·.outcome = .interrupted) ≤ 1 ∧
      ((c.run events).world.interrupted = true ∨ Session.isComplete c.config ⟨stats, .looping⟩ = true) := by
  have hstage := stage_run (c := c) events
  generalize c.run events = e at hreturned hstage
  generalize c.reports events = reports at hstage
  cases hstage with
  | concluded h hs hend hrest =>
    cases hreturned
    refine ⟨?_, h.countP_interrupted.trans_le (Nat.zero_le 1), hend.imp_left hrest.interrupted⟩
    rw [c.called_of_ended h.size_le hrest, ← hs]
    exact h.accounted
  | @cut reports s _ _ _ _ _ report _ h hround hint hrest =>
    cases hreturned
    have haccounted := h.accounted hround
    have hreturned := Round.Setup.returned_run _ hround
    refine ⟨?_, ?_, .inl (hrest.interrupted (hreturned.interrupted hint))⟩
    · rw [c.called_of_ended (h.size_le_round hround) hrest]
      exact haccounted
    · obtain ⟨_, hwalk, -⟩ := h
      rw [List.countP_append, hwalk.countP_interrupted, Nat.zero_add]
      exact List.countP_le_length
  | _ => cases hreturned

/-- The accounts of a session that has returned its statistics. -/
structure Conserved (c : Setup σ) (events : List Event) (stats : Stats) : Prop where
  rounds : stats.rounds = (c.reports events).length
  outcomes : stats.rounds = stats.solved + stats.exhausted + stats.superseded + stats.interrupted
  deliveries : stats.solved = stats.accepted + stats.rejected + stats.dropped + stats.failed
  submitted :
    (submissions (c.called (c.run events).world)).length = stats.accepted + stats.rejected + stats.failed
  accepted : stats.blocks.length = stats.accepted
  solutions : stats.blocks = ((c.reports events).filterMap RoundReport.accepted?).map (·.hash)
  /-- The blocks are in the order in which the node took their headers. -/
  taken : stats.blocks = (taken (c.called (c.run events).world)).map Header.hash
  totalHashes : stats.totalHashes = (((c.reports events).flatMap (·.workers)).map (·.hashes)).sum
  attempts : attempts (c.called (c.run events).world) = stats.rounds + stats.templateErrors
  interrupted : stats.interrupted ≤ 1
  within : ∀ max, c.config.maxRounds = some max → stats.rounds ≤ max.toNat
  ended : (c.run events).world.interrupted = true ∨
    ∃ max, c.config.maxRounds = some max ∧ stats.rounds = max.toNat

/-- Whatever the node does and whenever the session is interrupted, if it returns its statistics then every round counts
once by its outcome and every solution once by what became of it; the headers handed in, the blocks, the hashes and the
tries for a template are those of the rounds; and the session has ended because it was interrupted or has run all of its
rounds. -/
theorem accounts_conserved (c : Setup σ) (events : List Event) (stats : Stats)
    (hreturned : (c.run events).progress = .returned (.ok stats)) : Conserved c events stats := by
  obtain ⟨haccounted, hinterrupted, hend⟩ := accounted_of_returned hreturned
  have hbalanced : Balanced _ _ stats := haccounted.balanced
  have hcounted := hbalanced.counted
  refine ⟨?_, hbalanced.outcomes, hbalanced.deliveries, hbalanced.submitted, hbalanced.accepted, ?_,
    hbalanced.blocks, ?_, haccounted.attempts, ?_, haccounted.within, hend.imp_right fun hcomplete => ?_⟩
  · exact congrArg Stats.rounds hcounted
  · exact congrArg Stats.blocks hcounted
  · exact congrArg Stats.totalHashes hcounted
  · exact (congrArg Stats.interrupted hcounted).trans_le hinterrupted
  · obtain ⟨max, hmax, hrounds⟩ := (Option.any_eq_true _ _).1 hcomplete
    exact ⟨max, hmax, Nat.le_antisymm (haccounted.within max hmax) (of_decide_eq_true hrounds)⟩

/-- A session of one round: the first template fails, and the second one is solved by its first nonce. -/
theorem accounts_conserved_solved :
    let header : Header :=
      { version := 0, prevBlockHash := BlockHash.zero.bytes, merkleRoot := Bytes.zero 32,
        referenceHash := Bytes.zero 32, time := 3, bits := 0x207fffff, nonce := 0 }
    let node := (((ScriptedNode.ofLocal { bits := header.bits, clock := fun _ => header.time }).setScript .reference
      { answers := [some (.error .noReference), some (.ok .zero)] }).setScript .template
      { answers := [some (.ok (Work.ofHeader header))] }).setScript .submit { answers := [some (.ok true)] }
    let c : Setup ScriptedNode :=
      ⟨{ threads := some 1, lanes := some .one, resyncBatches := 1, maxRounds := some 1 }, {}, ScriptedNode.answer,
        { node }⟩
    let events : List Event :=
      List.replicate 10 (.step .session) ++ List.replicate 7 (.step (.worker 0)) ++ List.replicate 4 (.step .session)
    ∃ stats, (c.run events).progress = .returned (.ok stats) ∧ stats.accepted = 1 ∧ stats.templateErrors = 1 ∧
      Conserved c events stats := by
  intro header node c events
  have hends : (c.stats? events).any (fun stats => stats.accepted = 1 ∧ stats.templateErrors = 1) = true := by
    decide +kernel
  obtain ⟨stats, hstats, hcounts⟩ := (Option.any_eq_true _ _).1 hends
  obtain ⟨haccepted, herrors⟩ := of_decide_eq_true hcounts
  have hreturned := c.progress_of_stats? hstats
  exact ⟨stats, hreturned, haccepted, herrors, accounts_conserved c events stats hreturned⟩

end Session

end HeaderMiner
