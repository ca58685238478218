import HeaderMiner.Proofs.Round.Reasons
import Mathlib

/-!
# The requests of a round

Each event of a run has the node serve one request at most, the one that it makes (`Setup.serves_next`). So the calls
of a round are made of these requests alone (`Setup.calls_run`), and it is known wherever a run has come to what was
handed in to the node, and with which answer (`Submitted`).
-/

namespace HeaderMiner

variable {σ : Type}

namespace Worker

theorem query_of_request? {w : Worker} {request : Request} (hw : w.request? = some request) :
    request.query = .proofOfWork ∨ request.query = .time ∨ request.query = .tip := by
  unfold request? at hw
  split at hw
  · split at hw <;> cases hw
    exact .inl rfl
  · cases hw
    exact .inr (.inl rfl)
  · cases hw
    exact .inr (.inr rfl)
  · cases hw

theorem query_ne_submit {w : Worker} {request : Request} (hw : w.request? = some request) :
    request.query ≠ .submit := by
  rcases query_of_request? hw with hquery | hquery | hquery <;> rw [hquery] <;> rintro ⟨⟩

end Worker

/-- What a round asks a node. -/
def Query.ofRound : Query → Bool
  | .proofOfWork | .time | .tip | .peers | .submit => true
  | .reference | .template | .height => false

theorem Submission.move_serves (config : Config) (node : Node σ) (s : Solution) (sub : Submission) (world : World σ) :
    world.Serves node .session (sub.request? s) (sub.move config node s .session world).2 := by
  cases sub with
  | retrying left =>
    cases left with
    | zero => exact (World.Rests.refl world).serves node .session
    | succ left =>
      simp only [move]
      split
      · exact world.serves_call ‹_›
      · exact world.serves_call ‹_›
      · exact (world.serves_call ‹_›).sleep _ _
  | asking =>
    simp only [move]
    split
    · exact world.serves_call ‹_›
    · exact world.serves_call ‹_›
    · exact (world.serves_call ‹_›).log _
  | confirming =>
    simp only [move]
    split
    · exact world.serves_call ‹_›
    · exact world.serves_call ‹_›
    · exact (world.serves_call ‹_›).log _
  | delivering =>
    simp only [move]
    split
    · exact world.serves_call ‹_›
    · exact (world.serves_call ‹_›).log _
    · exact (world.serves_call ‹_›).log _
    · exact world.serves_call ‹_›

theorem Submission.goes_answered (config : Config) (node : Node σ) (s : Solution) (sub : Submission)
    (world : World σ) : sub.Goes config.submitPeerPolls.toNat s (world.answered node .session (sub.request? s))
      (sub.move config node s .session world).1 := by
  obtain ⟨new, hjournal, hgoes⟩ := sub.move_goes config node s world
  rw [(sub.move_serves config node s world).calls_eq hjournal] at hgoes
  exact hgoes

namespace Round

/-- The thread that makes the request of an event. -/
def asker (e : Execution σ Round (Except Failure RoundReport)) (event : Event) : Thread :=
  (actor e event).elim .session Worker.thread

/-- What was handed in by a round that reports this solution and what became of it. -/
inductive Reported (called : List Call) : Option Solution → Option Delivery → Prop
  | unsolved (h : submissions called = []) : Reported called none none
  | dropped {s : Solution} (h : submissions called = []) (hpoll : ⟨.session, .peers, false⟩ ∈ called) :
      Reported called (some s) (some .noPeers)
  | accepted {s : Solution} (h : submissions called = [(s.header.toHeader, .ok true)]) :
      Reported called (some s) (some .accepted)
  | rejected {s : Solution} (h : submissions called = [(s.header.toHeader, .ok false)]) :
      Reported called (some s) (some .rejected)
  | failed {s : Solution} {failure : NodeFailure} (h : submissions called = [(s.header.toHeader, .error failure)]) :
      Reported called (some s) (some .failed)

theorem Reported.submissions_eq_nil {called : List Call} {solution : Option Solution} {delivery : Option Delivery}
    (h : Reported called solution delivery) (hnone : delivery = none) : submissions called = [] := by
  cases h with
  | unsolved h => exact h
  | _ => cases hnone

/-- What was handed in, by where a round has come to. -/
def Submitted (called : List Call) : Progress Round (Except Failure RoundReport) → Prop
  | .running _ => submissions called = []
  | .returned (.ok report) => Reported called report.solution report.delivery
  | .returned (.error _) | .crashed => True

variable {r : Setup σ} {e : Execution σ Round (Except Failure RoundReport)} {event : Event}

/-- An event has the node serve the request that it makes. -/
theorem Setup.serves_next (r : Setup σ) (e : Execution σ Round (Except Failure RoundReport)) (event : Event) :
    e.world.Serves r.node (asker e event) (request? e event) (e.next r.move event).world := by
  obtain ⟨progress, world⟩ := e
  have hidle (who : Thread) : world.Serves r.node who none world := (World.Rests.refl world).serves r.node who
  cases event with
  | interrupt =>
    have hrest : world.Rests world.interrupt := ⟨rfl, rfl, fun _ => rfl⟩
    exact hrest.serves r.node .session
  | elapse nanos =>
    have hrest : world.Rests (world.elapse nanos) := ⟨rfl, rfl, id⟩
    exact hrest.serves r.node .session
  | step who =>
    cases progress with
    | returned | crashed => cases who <;> exact hidle _
    | running round =>
      cases round with
      | opening =>
        cases who with
        | worker id => exact hidle _
        | session => exact ((hidle _).log _).log _
      | searching work started spawning board workers =>
        have hadvances := move_advances r.config r.host r.node who work started spawning board workers world
        simp only [Execution.next, Setup.move]
        generalize Round.move r.config r.host r.node who (.searching work started spawning board workers) world =
          result at hadvances
        cases hadvances with
        | @stepped _ id w hid hw =>
          simp only [request?, asker, actor, if_pos hid, hw]
          exact w.step_serves r.node ⟨board, world⟩
        | waits hwaits =>
          cases who with
          | session => exact hidle _
          | worker id =>
            simp only [request?, asker, actor, hwaits id rfl]
            exact hidle _
        | unsolved | solved => exact (hidle _).log _
        | spawned | refused | crashed | unspawned | collapsed => exact hidle _
      | submitting report winner submission =>
        cases who with
        | worker id => exact hidle _
        | session =>
          have hserves := submission.move_serves r.config r.node winner world
          simp only [Execution.next, Setup.move, Round.move]
          split
          all_goals
            rename_i hmove
            rw [hmove] at hserves
          · exact hserves
          · exact hserves
          · exact hserves
          · exact hserves.log _

theorem ofRound_of_request? {request : Request} (h : request? e event = some request) :
    request.query.ofRound = true := by
  have hsubmission {winner : Solution} {submission : Submission}
      (hs : submission.request? winner = some request) : request.query.ofRound = true := by
    unfold Submission.request? at hs
    split at hs <;> cases hs <;> rfl
  unfold request? at h
  split at h
  · split at h
    · exact hsubmission h
    · cases h
  · obtain ⟨w, -, hw⟩ := Option.bind_eq_some_iff.1 h
    rcases Worker.query_of_request? hw with hquery | hquery | hquery
    all_goals
      rw [hquery]
      rfl

theorem Setup.size_journal_run (r : Setup σ) (events : List Event) :
    r.world.journal.size ≤ (r.run events).world.journal.size := by
  induction events using List.reverseRecOn with
  | nil => exact Nat.le_refl _
  | append_singleton events event ih =>
    rw [r.run_concat]
    exact ih.trans (r.serves_next _ event).size_le

theorem Setup.calls_concat (r : Setup σ) (events : List Event) (event : Event) :
    calls (r.entries (r.run (events ++ [event])).world) = calls (r.entries (r.run events).world) ++
      (r.run events).world.answered r.node (asker (r.run events) event) (request? (r.run events) event) := by
  rw [r.run_concat]
  exact (r.serves_next _ event).calls_since (r.size_journal_run events)

theorem Setup.calls_nil (r : Setup σ) : calls (r.entries (r.run []).world) = [] :=
  congrArg calls r.world.since_self

theorem Setup.served_run (r : Setup σ) (events : List Event) :
    Served r.node r.world.node (calls (r.entries (r.run events).world)) (r.run events).world.node := by
  induction events using List.reverseRecOn with
  | nil =>
    rw [r.calls_nil]
    exact .start
  | append_singleton events event ih =>
    rw [r.calls_concat, r.run_concat]
    exact ih.serves (r.serves_next _ event)

/-- A round asks only for what rounds ask. -/
theorem Setup.calls_run (r : Setup σ) (events : List Event) :
    ∀ call ∈ calls (r.entries (r.run events).world), call.request.query.ofRound = true := by
  induction events using List.reverseRecOn with
  | nil =>
    rw [r.calls_nil]
    rintro call ⟨⟩
  | append_singleton events event ih =>
    rw [r.calls_concat]
    intro call hcall
    rcases List.mem_append.1 hcall with hcall | hcall
    · exact ih call hcall
    · exact ofRound_of_request? (World.mem_answered _ hcall).2.1

theorem submitted_next {called : List Call} (h : Submitted called e.progress) :
    Submitted (called ++ e.world.answered r.node (asker e event) (request? e event))
      (e.next r.move event).progress := by
  obtain ⟨progress, world⟩ := e
  have hsame (h : Submitted called progress) : Submitted (called ++ []) progress := by
    rw [List.append_nil]
    exact h
  cases progress with
  | crashed | returned =>
    cases event with
    | interrupt | elapse => exact hsame h
    | step who => cases who <;> exact hsame h
  | running round =>
    cases round with
    | opening =>
      cases event with
      | interrupt | elapse => exact hsame h
      | step who => cases who <;> exact hsame h
    | searching work started spawning board workers =>
      cases event with
      | interrupt | elapse => exact hsame h
      | step who =>
        have hadvances := move_advances r.config r.host r.node who work started spawning board workers world
        have hnone : submissions (called ++ world.answered r.node (asker ⟨.running
            (.searching work started spawning board workers), world⟩ (.step who))
            (request? ⟨.running (.searching work started spawning board workers), world⟩ (.step who))) = [] := by
          rw [submissions_append, show submissions called = [] from h, List.nil_append]
          refine List.filterMap_eq_nil_iff.2 fun call hcall => ?_
          have hrequest := (World.mem_answered _ hcall).2.1
          cases who with
          | session => cases hrequest
          | worker id =>
            obtain ⟨w, -, hw⟩ := Option.bind_eq_some_iff.1 hrequest
            exact call.submission?_eq_none (Worker.query_ne_submit hw)
        simp only [Execution.next, Setup.move]
        generalize Round.move r.config r.host r.node who (.searching work started spawning board workers) world =
          result at hadvances
        cases hadvances with
        | unsolved => exact .unsolved hnone
        | crashed | unspawned | collapsed => trivial
        | stepped | waits | spawned | refused | solved => exact hnone
    | submitting report winner submission =>
      cases event with
      | interrupt | elapse => exact hsame h
      | step who =>
        cases who with
        | worker id => exact hsame h
        | session =>
          have hgoes := submission.goes_answered r.config r.node winner world
          simp only [Execution.next, Setup.move, move, asker, actor, request?, Option.elim_none]
          generalize submission.move r.config r.node winner .session world = next at hgoes
          obtain ⟨progress, world'⟩ := next
          have hnone : submissions called = [] := h
          generalize world.answered r.node .session (submission.request? winner) = new at hgoes
          cases hgoes with
          | crash => trivial
          | greet | await | expire | meet | pause | confirm =>
            show submissions (called ++ _) = []
            rw [submissions_append, hnone]
            rfl
          | drop =>
            refine .dropped ?_ ?_
            · rw [submissions_append, hnone]
              rfl
            · exact List.mem_append_right _ (List.mem_singleton_self _)
          | deliver answer =>
            have hsubmissions : submissions (called ++ [⟨.session, .submit winner.header.toHeader, answer⟩]) =
                [(winner.header.toHeader, answer)] := by
              rw [submissions_append, hnone]
              rfl
            rcases answer with failure | _ | _
            · exact .failed hsubmissions
            · exact .rejected hsubmissions
            · exact .accepted hsubmissions

theorem Setup.submitted_run (r : Setup σ) (events : List Event) :
    Submitted (calls (r.entries (r.run events).world)) (r.run events).progress := by
  induction events using List.reverseRecOn with
  | nil =>
    rw [r.calls_nil]
    rfl
  | append_singleton events event ih =>
    rw [r.calls_concat, r.run_concat]
    exact submitted_next ih

/-- The calls of a round come after those of anything before it. -/
theorem Setup.calls_since_run (r : Setup σ) {start : Nat} (hs : start ≤ r.world.journal.size) (events : List Event) :
    calls ((r.run events).world.since start) =
      calls (r.world.since start) ++ calls (r.entries (r.run events).world) := by
  induction events using List.reverseRecOn with
  | nil =>
    rw [r.calls_nil, List.append_nil]
    rfl
  | append_singleton events event ih =>
    rw [r.calls_concat, r.run_concat, ← List.append_assoc, ← ih]
    exact (r.serves_next _ event).calls_since (hs.trans (r.size_journal_run events))

/-- What is known of a round that has returned a report. -/
structure Returned (r : Setup σ) (world : World σ) (report : RoundReport) : Prop where
  reported : Reported (calls (r.entries world)) report.solution report.delivery
  solved : report.outcome = .solved ↔ report.delivery.isSome
  vouched : ∀ s, report.solution = some s → r.Vouches world s
  interrupted : report.outcome = .interrupted → world.interrupted = true
  superseded : report.outcome = .superseded → Moved r.work (r.entries world)
  asked : ∀ call ∈ calls (r.entries world), call.request.query.ofRound = true

theorem Setup.returned_run (r : Setup σ) {events : List Event} {report : RoundReport} {world : World σ}
    (hrun : r.run events = ⟨.returned (.ok report), world⟩) : Returned r world report := by
  have hsubmitted := r.submitted_run events
  have hasked := r.calls_run events
  have hstage := stage_run (r := r) events
  rw [hrun] at hsubmitted hasked hstage
  cases hstage with
  | @returned _ world₀ earlier _ b workers _ hafter hcrash hreport hdelivery =>
    have hd := hafter.search.decided hafter.all_ended hcrash
    refine ⟨hsubmitted, ?_, fun s hs => ?_, fun houtcome => ?_, fun houtcome => ?_, hasked⟩
    · rw [hdelivery, hreport]
      exact (b.outcome_eq_solved _).trans hd.found
    · rw [hreport] at hs
      exact hafter.vouches hs
    · rw [hreport] at houtcome
      have hint := ((b.outcome_eq_interrupted _).1 houtcome).2
      obtain ⟨more, rfl⟩ := hafter.initial
      have hearlier : (r.run earlier).world.interrupted = true := by
        rw [hafter.run_eq]
        exact hint
      have hlater := r.interrupted_append hearlier more
      rw [hrun] at hlater
      exact hlater
    · rw [hreport] at houtcome
      have hsuperseded := ((b.outcome_eq_superseded _).1 houtcome).2.2
      obtain ⟨new, hentries, -⟩ := hafter.entries
      rw [hentries, moved_append]
      exact .inl (hafter.search.reasons.superseded hsuperseded)

end Round

end HeaderMiner
