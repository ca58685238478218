import HeaderMiner.Node.Local
import HeaderMiner.Proofs.Round.Coverage
import HeaderMiner.Proofs.Round.Interrupt
import HeaderMiner.Proofs.Round.Solutions
import Mathlib

/-!
# Why a round ends

The outcome is read off flags of the board, and a round that has no flag but the stop flag counts as exhausted. That
this is right rests on how the stop flag is raised: `Worker.Warranted` says what the phase of a worker warrants, and
`Reasons` that a raised stop flag has a winner, an interrupt, a moved chain or an exhausted lead behind it, that the
chain is marked as moved only when the lead has read so, and that a candidate which passed is claimed. At the end of
a search this fixes the outcome by what the journal shows (`outcome_justified`).
-/

namespace HeaderMiner

variable {σ : Type}

/-- The node found a worker's candidate good. -/
def Passed (entries : List Entry) : Prop :=
  ∃ id hash bits, .called (.worker id) (.proofOfWork hash bits) true ∈ entries

/-- The leading worker was told a tip that the work does not build on. -/
def Moved (work : Work) (entries : List Entry) : Prop :=
  ∃ tip, .called (.worker 0) .tip (some tip) ∈ entries ∧ tip ≠ work.header.prevBlockHash

/-- The call finds a worker's candidate good. -/
def Call.passes : Call → Bool
  | ⟨.worker _, .proofOfWork _ _, good⟩ => good
  | _ => false

/-- The call tells the leading worker a tip that the work does not build on. -/
def Call.moves (work : Work) : Call → Bool
  | ⟨.worker 0, .tip, some tip⟩ => tip ≠ work.header.prevBlockHash
  | _ => false

theorem Call.moves_tip {work : Work} {who : Thread} {tip : BlockHash} :
    (Call.mk who .tip (some tip)).moves work = true ↔ who = .worker 0 ∧ tip ≠ work.header.prevBlockHash := by
  rcases who with _ | _ | id <;> simp [moves]

theorem passed_iff {entries : List Entry} : Passed entries ↔ ∃ c ∈ calls entries, c.passes = true := by
  constructor
  · rintro ⟨id, hash, bits, hmem⟩
    exact ⟨_, mem_calls.2 hmem, rfl⟩
  · rintro ⟨⟨who, request, answer⟩, hmem, hpasses⟩
    unfold Call.passes at hpasses
    split at hpasses
    · rename_i heq
      cases heq
      subst hpasses
      exact ⟨_, _, _, mem_calls.1 hmem⟩
    · cases hpasses

theorem moved_iff {work : Work} {entries : List Entry} :
    Moved work entries ↔ ∃ c ∈ calls entries, c.moves work = true := by
  constructor
  · rintro ⟨tip, hmem, htip⟩
    exact ⟨_, mem_calls.2 hmem, decide_eq_true htip⟩
  · rintro ⟨⟨who, request, answer⟩, hmem, hmoves⟩
    unfold Call.moves at hmoves
    split at hmoves
    · rename_i heq
      cases heq
      exact ⟨_, mem_calls.1 hmem, of_decide_eq_true hmoves⟩
    · cases hmoves

theorem passed_append {xs ys : List Entry} : Passed (xs ++ ys) ↔ Passed xs ∨ Passed ys := by
  simp only [Passed, List.mem_append, exists_or]

theorem moved_append {work : Work} {xs ys : List Entry} :
    Moved work (xs ++ ys) ↔ Moved work xs ∨ Moved work ys := by
  simp only [Moved, List.mem_append, or_and_right, exists_or]

theorem HandsIn.not_passed {winner : Option Solution} {entries : List Entry} (h : HandsIn winner entries) :
    ¬ Passed entries := by
  rintro ⟨id, hash, bits, hmem⟩
  cases (h _ _ _ hmem).1

theorem HandsIn.not_moved {winner : Option Solution} {entries : List Entry} (h : HandsIn winner entries)
    (work : Work) : ¬ Moved work entries := by
  rintro ⟨tip, hmem, -⟩
  cases (h _ _ _ hmem).1

namespace Worker

/-- The next action of a worker raises the stop flag. -/
def halts (w : Worker) : Bool :=
  match w.phase with
  | .closing _ _ | .cancelling | .abandoning | .concluding => true
  | _ => false

theorem stop_writes (w : Worker) (b : Board) : (w.writes b).stop = (b.stop || w.halts) := by
  unfold writes halts
  cases w.phase with
  | claiming s =>
    simp only [Board.offer, Bool.or_false]
    split <;> rfl
  | closing | cancelling | abandoning | concluding => exact (Bool.or_true _).symm
  | _ => exact (Bool.or_false _).symm

theorem superseded_writes (w : Worker) (b : Board) :
    (w.writes b).superseded = (b.superseded || decide (w.phase = .superseding)) := by
  unfold writes
  cases hw : w.phase with
  | claiming s =>
    simp only [Board.offer]
    split <;> simp
  | superseding => simp [Board.markSuperseded]
  | _ => simp [Board.markFound, Board.halt, Board.publish, Board.markExhausted]

theorem stop_stays {b : Board} (w : Worker) (hb : b.stop = true) : (w.writes b).stop = true := by
  rw [stop_writes, hb, Bool.true_or]

theorem superseded_stays {b : Board} (w : Worker) (hb : b.superseded = true) : (w.writes b).superseded = true := by
  rw [superseded_writes, hb, Bool.true_or]

/-- What the phase of a worker tells of the board, of the interrupt and of the tips that the lead was told. -/
def Warranted (b : Board) (interrupted : Bool) (moved : Prop) (w : Worker) : Prop :=
  match w.phase with
  | .announcing _ | .closing _ _ => b.winner.isSome
  | .observing | .watchingStop | .watchingInterrupt | .askingTip => w.id = 0
  | .cancelling => w.id = 0 ∧ interrupted = true
  | .superseding => w.id = 0 ∧ moved
  | .abandoning => w.id = 0 ∧ b.superseded = true
  | .exhausting | .concluding => w.id = 0 ∧ w.exit = .exhausted
  | .finishing | .done => w.exit ≠ .exhausted → b.stop = true
  | _ => True

variable {w w' : Worker} {b b' : Board} {interrupted interrupted' : Bool} {moved moved' : Prop} {new : List Entry}

theorem Warranted.mono (h : w.Warranted b interrupted moved) (hwinner : b.winner.isSome → b'.winner.isSome)
    (hint : interrupted = true → interrupted' = true) (hmoved : moved → moved')
    (hsuperseded : b.superseded = true → b'.superseded = true) (hstop : b.stop = true → b'.stop = true) :
    w.Warranted b' interrupted' moved' := by
  revert h
  unfold Warranted
  cases w.phase with
  | announcing | closing => exact hwinner
  | cancelling => exact And.imp_right hint
  | superseding => exact And.imp_right hmoved
  | abandoning => exact And.imp_right hsuperseded
  | finishing | done => exact fun h hexit => hstop (h hexit)
  | _ => exact fun h => h

/-- What a worker that is about to raise the stop flag has seen. -/
theorem Warranted.of_halts (h : w.Warranted b interrupted moved) (hhalts : w.halts = true) :
    b.winner.isSome ∨ interrupted = true ∨ b.superseded = true ∨
      w.id = 0 ∧ w.phase.settled = true ∧ w.exit = .exhausted := by
  revert h hhalts
  unfold Warranted halts
  cases w.phase with
  | closing => exact fun h _ => .inl h
  | cancelling => exact fun h _ => .inr (.inl h.2)
  | abandoning => exact fun h _ => .inr (.inr (.inl h.2))
  | concluding => exact fun h _ => .inr (.inr (.inr ⟨h.1, rfl, h.2⟩))
  | _ => rintro - ⟨⟩

theorem Goes.winner_stays (h : w.Goes b interrupted w' new) (hb : b.winner.isSome) :
    (w.writes b).winner.isSome := by
  rw [h.acts.winner_eq, Option.isSome_or, hb, Bool.true_or]

theorem Goes.warranted (h : w.Goes b interrupted w' new) (hw : w.Warranted b interrupted moved)
    (hmoved : Moved w.work new → moved) : w'.Warranted (w.writes b) interrupted moved := by
  cases h with
  | scanNothing | runOut => exact fun hexit => absurd rfl hexit
  | win hphase hb =>
    simp only [writes, hphase, Board.offer, hb]
    rfl
  | lose hphase hb =>
    simp only [writes, hphase, Board.offer, hb]
    exact Option.isSome_iff_exists.2 ⟨_, hb⟩
  | announce hphase =>
    simp only [Warranted, hphase] at hw
    simp only [writes, hphase]
    exact hw
  | close hphase =>
    simp only [writes, hphase]
    exact fun _ => rfl
  | lead hphase hlead => exact beq_iff_eq.1 hlead
  | notice hphase hint =>
    simp only [Warranted, hphase] at hw
    exact ⟨hw, hint⟩
  | watch hphase | wait hphase =>
    simp only [Warranted, hphase] at hw
    exact hw
  | watchStop hphase | watchInterrupt hphase =>
    simp only [Warranted, hphase] at hw
    split
    · trivial
    · exact hw
  | @newTip tip _ hphase hnew htip =>
    simp only [Warranted, hphase] at hw
    refine ⟨hw, hmoved ⟨tip, mem_calls.1 ?_, htip⟩⟩
    rw [hnew, thread, hw]
    exact List.mem_singleton_self _
  | supersede hphase =>
    simp only [Warranted, hphase] at hw
    simp only [writes, hphase]
    exact ⟨hw.1, rfl⟩
  | stop hphase hb =>
    simp only [writes, hphase]
    exact fun _ => hb
  | finish hphase =>
    simp only [Warranted, hphase] at hw
    simp only [writes, hphase]
    exact hw
  | finishLast hphase hexit hlead => exact ⟨beq_iff_eq.1 hlead, hexit⟩
  | exhaust hphase =>
    simp only [Warranted, hphase] at hw
    exact hw
  | conclude hphase =>
    simp only [writes, hphase]
    exact fun _ => rfl
  | rest hended =>
    rw [hasEnded, decide_eq_true_iff] at hended
    rcases hended with hphase | hphase <;> simp only [writes, hphase]
    · exact hw
    · exact hw
  | refresh | _ => trivial

theorem Goes.phase_of_passed (h : w.Goes b interrupted w' new) (hnew : Passed new) :
    ∃ s, w'.phase = .claiming s := by
  rw [passed_iff] at hnew
  cases h with
  | hit => exact ⟨_, rfl⟩
  | mislead _ hcalls | refresh _ hcalls | wait _ hcalls | sameTip _ hcalls | newTip _ hcalls
  | scanNothing _ _ hcalls | scan _ _ hcalls | crash _ hcalls | close _ hcalls | finish _ _ hcalls
  | finishLast _ _ _ hcalls => simp [hcalls, Call.passes, thread] at hnew
  | _ => simp at hnew

theorem Goes.phase_of_moved (h : w.Goes b interrupted w' new) (hnew : Moved w.work new) :
    w.id = 0 ∧ w'.phase = .superseding := by
  rw [moved_iff] at hnew
  cases h with
  | newTip _ hcalls =>
    have hwho : w.thread = .worker 0 := by
      simp only [hcalls, List.mem_singleton, exists_eq_left, Call.moves_tip] at hnew
      exact hnew.1
    exact ⟨Thread.worker.inj hwho, rfl⟩
  | sameTip _ hcalls => simp [hcalls, Call.moves_tip] at hnew
  | mislead _ hcalls | hit _ hcalls | refresh _ hcalls | wait _ hcalls | scanNothing _ _ hcalls | scan _ _ hcalls
  | crash _ hcalls | close _ hcalls | finish _ _ hcalls | finishLast _ _ _ hcalls =>
    simp [hcalls, Call.moves, thread] at hnew
  | _ => simp at hnew

theorem Goes.exit_of_settled (h : w.Goes b interrupted w' new) (hw : w.phase.settled) : w'.exit = w.exit := by
  cases h with
  | crash hreq =>
    have hs := searches_of_request? hreq
    rw [(Phase.undecided (.inl hs)).1] at hw
    cases hw
  | refresh hphase | scanNothing hphase | runOut hphase | close hphase | stop hphase =>
    rw [hphase] at hw
    cases hw
  | _ => rfl

end Worker

namespace Round

variable {r : Setup σ} {history : List Worker} {spawning : Spawning} {workers : Array Worker} {s : Shared σ}

/-- Every flag of the board has a reason, and what the node told the workers is on its way to the board. -/
structure Reasons (r : Setup σ) (spawning : Spawning) (workers : Array Worker) (s : Shared σ) : Prop where
  each : ∀ (i : Nat) (w : Worker), workers[i]? = some w →
    w.Warranted s.board s.world.interrupted (Moved r.work (r.entries s.world))
  stop : s.board.stop = true → (∃ worker, spawning = .failed worker) ∨ s.board.winner.isSome ∨
    s.world.interrupted = true ∨ s.board.superseded = true ∨
    ∃ lead : Worker, workers[0]? = some lead ∧ lead.exit = .exhausted
  superseded : s.board.superseded = true → Moved r.work (r.entries s.world)
  moved : Moved r.work (r.entries s.world) → s.board.superseded = true ∨
    ∃ lead : Worker, workers[0]? = some lead ∧ lead.phase = .superseding
  passed : Passed (r.entries s.world) → s.board.winner.isSome ∨
    ∃ (i : Nat) (w : Worker) (claimed : Solution), workers[i]? = some w ∧ w.phase = .claiming claimed

theorem reasons_opened (r : Setup σ) {world : World σ} {n₁ n₂ : Notice}
    (hworld : world.journal.toList = r.world.journal.toList ++ [.logged n₁, .logged n₂]) :
    Reasons r (.upTo 0) (crew r.work r.range r.threads r.settings) ⟨Board.ofWorkers r.threads, world⟩ := by
  have hcalls : calls (r.entries world) = [] := by
    rw [r.entries_of_journal hworld]
    rfl
  refine ⟨fun i w hw => ?_, by rintro ⟨⟩, by rintro ⟨⟩, ?_, ?_⟩
  · rw [Search.getElem?_crew] at hw
    obtain ⟨slice, -, rfl⟩ := Option.map_eq_some_iff.1 hw
    trivial
  · rintro ⟨tip, hmem, -⟩
    rw [← mem_calls, hcalls] at hmem
    cases hmem
  · rintro ⟨id, hash, bits, hmem⟩
    rw [← mem_calls, hcalls] at hmem
    cases hmem

section Step

variable {j : Nat} {v v' : Worker} {s' : Shared σ} {new : List Entry}

/-- The worker at a place after a step: the one that stepped, or the one that was there. -/
theorem getElem?_stepped (v' : Worker) (hv : workers[j]? = some v) {i : Nat} {w : Worker} (hw : workers[i]? = some w) :
    i = j ∧ w = v ∧ (workers.setIfInBounds j v')[i]? = some v' ∨
      i ≠ j ∧ (workers.setIfInBounds j v')[i]? = some w := by
  by_cases hij : i = j
  · subst hij
    refine .inl ⟨rfl, Option.some.inj (hw.symm.trans hv), ?_⟩
    exact Array.getElem?_setIfInBounds_self_of_lt (Array.getElem?_eq_some_iff.1 hv).1
  · refine .inr ⟨hij, ?_⟩
    rw [Array.getElem?_setIfInBounds_ne (Ne.symm hij)]
    exact hw

theorem Reasons.stop_step (h : Reasons r spawning workers s) (hc : v.Contends s.board) (hv : workers[j]? = some v)
    (hid : v.id = j) (hgoes : v.Goes s.board s.world.interrupted v' new)
    (hstop : (v.writes s.board).stop = true) :
    (∃ worker, spawning = .failed worker) ∨ (v.writes s.board).winner.isSome ∨ s.world.interrupted = true ∨
      (v.writes s.board).superseded = true ∨
        ∃ lead : Worker, (workers.setIfInBounds j v')[0]? = some lead ∧ lead.exit = .exhausted := by
  have hself := Array.getElem?_setIfInBounds_self_of_lt (a := v') (Array.getElem?_eq_some_iff.1 hv).1
  -- the flag was up before the step, or the step raises it with the warrant of the worker's phase
  rw [Worker.stop_writes, Bool.or_eq_true] at hstop
  rcases hstop with hstop | hhalts
  · rcases h.stop hstop with hfailed | hb | hint | hb | ⟨lead, hlead, hexit⟩
    · exact .inl hfailed
    · exact .inr (.inl (hgoes.winner_stays hb))
    · exact .inr (.inr (.inl hint))
    · exact .inr (.inr (.inr (.inl (v.superseded_stays hb))))
    · refine .inr (.inr (.inr (.inr ?_)))
      rcases getElem?_stepped v' hv hlead with ⟨rfl, rfl, hlead'⟩ | ⟨-, hlead'⟩
      · -- an exit is kept only once it is settled; until then a worker's exit is not `exhausted`
        have hsettled : lead.phase.settled = true := by
          by_contra hnot
          rw [hc.exit_eq (by simpa using hnot)] at hexit
          cases hexit
        exact ⟨v', hlead', (hgoes.exit_of_settled hsettled).trans hexit⟩
      · exact ⟨lead, hlead', hexit⟩
  · rcases (h.each j v hv).of_halts hhalts with hb | hint | hb | ⟨hzero, hsettled, hexit⟩
    · exact .inr (.inl (hgoes.winner_stays hb))
    · exact .inr (.inr (.inl hint))
    · exact .inr (.inr (.inr (.inl (v.superseded_stays hb))))
    · obtain rfl : j = 0 := hid.symm.trans hzero
      exact .inr (.inr (.inr (.inr ⟨v', hself, (hgoes.exit_of_settled hsettled).trans hexit⟩)))

theorem Reasons.moved_step (h : Reasons r spawning workers s) (hv : workers[j]? = some v) (hid : v.id = j)
    (hwork : v.work = r.work) (hgoes : v.Goes s.board s.world.interrupted v' new)
    (hmoved : Moved r.work (r.entries s.world ++ new)) :
    (v.writes s.board).superseded = true ∨
      ∃ lead : Worker, (workers.setIfInBounds j v')[0]? = some lead ∧ lead.phase = .superseding := by
  rcases moved_append.1 hmoved with hmoved | hmoved
  · rcases h.moved hmoved with hb | ⟨lead, hlead, hphase⟩
    · exact .inl (v.superseded_stays hb)
    · rcases getElem?_stepped v' hv hlead with ⟨-, rfl, -⟩ | ⟨-, hlead'⟩
      · exact .inl (by rw [Worker.superseded_writes, hphase, decide_eq_true rfl, Bool.or_true])
      · exact .inr ⟨lead, hlead', hphase⟩
  · rw [← hwork] at hmoved
    obtain ⟨hzero, hphase⟩ := hgoes.phase_of_moved hmoved
    obtain rfl : j = 0 := hid.symm.trans hzero
    exact .inr ⟨v', Array.getElem?_setIfInBounds_self_of_lt (Array.getElem?_eq_some_iff.1 hv).1, hphase⟩

theorem Reasons.passed_step (h : Reasons r spawning workers s) (hv : workers[j]? = some v)
    (hgoes : v.Goes s.board s.world.interrupted v' new) (hpassed : Passed (r.entries s.world ++ new)) :
    (v.writes s.board).winner.isSome ∨ ∃ (i : Nat) (w : Worker) (claimed : Solution),
      (workers.setIfInBounds j v')[i]? = some w ∧ w.phase = .claiming claimed := by
  rcases passed_append.1 hpassed with hpassed | hpassed
  · rcases h.passed hpassed with hb | ⟨i, w, claimed, hw, hphase⟩
    · exact .inl (hgoes.winner_stays hb)
    · rcases getElem?_stepped v' hv hw with ⟨-, rfl, -⟩ | ⟨-, hw'⟩
      · left
        rw [hgoes.acts.winner_eq]
        simp [Worker.claims?, hphase]
      · exact .inr ⟨i, w, claimed, hw', hphase⟩
  · obtain ⟨claimed, hphase⟩ := hgoes.phase_of_passed hpassed
    have hself := Array.getElem?_setIfInBounds_self_of_lt (a := v') (Array.getElem?_eq_some_iff.1 hv).1
    exact .inr ⟨j, v', claimed, hself, hphase⟩

end Step

theorem Search.reasons (h : Search r history spawning workers s) : Reasons r spawning workers s := by
  induction h with
  | opened hworld => exact reasons_opened r hworld
  | spawned _ _ ih =>
    refine ⟨ih.each, fun hstop => .inr ?_, ih.superseded, ih.moved, ih.passed⟩
    exact (ih.stop hstop).resolve_left (by rintro ⟨_, ⟨⟩⟩)
  | refused _ _ ih =>
    refine ⟨fun i w hw => ?_, fun _ => .inl ⟨_, rfl⟩, ih.superseded, ih.moved, ih.passed⟩
    exact (ih.each i w hw).mono id id id id fun _ => rfl
  | @stepped history _ workers s j v hsearch hv ih =>
    obtain ⟨new, hjournal, hgoes⟩ := v.step_takesBranch r.node s
    obtain ⟨slice, -, htask⟩ := hsearch.task hv
    have hid := hsearch.id_eq hv
    have hentries : r.entries (v.step r.node s).2.world = r.entries s.world ++ new :=
      World.since_append hsearch.size_journal hjournal
    have hint (hi : s.world.interrupted = true) : (v.step r.node s).2.world.interrupted = true :=
      (v.step_asks r.node s).interrupted hi
    have hboard := v.step_board r.node s
    generalize (v.step r.node s).1 = v' at hgoes
    generalize (v.step r.node s).2 = s' at hentries hint hboard
    have hmoved (hm : Moved r.work (r.entries s.world)) : Moved r.work (r.entries s'.world) := by
      rw [hentries]
      exact moved_append.2 (.inl hm)
    refine ⟨?_, ?_, ?_, ?_, ?_⟩
    · rw [hboard]
      refine Search.forall_set ih.each hv (fun hw => ?_) fun i w _ _ hw => ?_
      · refine (hgoes.warranted (hw.mono id id hmoved id id) fun hnew => ?_).mono id hint id id id
        rw [htask.work] at hnew
        rw [hentries]
        exact moved_append.2 (.inr hnew)
      · exact hw.mono (fun hb => hgoes.winner_stays hb) hint hmoved (fun hb => v.superseded_stays hb)
          fun hb => v.stop_stays hb
    · rw [hboard]
      intro hstop
      have hreason := ih.stop_step (hsearch.contest.each j v hv) hv hid hgoes hstop
      exact hreason.imp_right (Or.imp_right (Or.imp_left hint))
    · rw [hboard, Worker.superseded_writes, Bool.or_eq_true, decide_eq_true_iff]
      rintro (hb | hphase)
      · exact hmoved (ih.superseded hb)
      · have hwarranted := ih.each j v hv
        simp only [Worker.Warranted, hphase] at hwarranted
        exact hmoved hwarranted.2
    · rw [hboard, hentries]
      exact ih.moved_step hv hid htask.work hgoes
    · rw [hboard, hentries]
      exact ih.passed_step hv hgoes
  | interrupted _ ih =>
    refine ⟨fun i w hw => ?_, fun _ => .inr (.inr (.inl rfl)), ih.superseded, ih.moved, ih.passed⟩
    exact (ih.each i w hw).mono id (fun _ => rfl) id id id
  | elapsed _ _ ih => exact ⟨ih.each, ih.stop, ih.superseded, ih.moved, ih.passed⟩

/-- The outcome of a round, by what the node has told the workers and by whether the process was interrupted. -/
structure Justified (r : Setup σ) (history : List Worker) (entries : List Entry) (triggered : Prop)
    (report : RoundReport) : Prop where
  solved : report.outcome = .solved ↔ Passed entries
  interrupted : report.outcome = .interrupted ↔ ¬ Passed entries ∧ triggered
  superseded : report.outcome = .superseded ↔ ¬ Passed entries ∧ ¬ triggered ∧ Moved r.work entries
  exhausted : report.outcome = .exhausted ↔ ¬ Passed entries ∧ ¬ triggered ∧ ¬ Moved r.work entries
  /-- A round that counts as exhausted has a leading worker that hashed its whole slice. -/
  lead : report.outcome = .exhausted → ∃ slice falsePositives, r.slices[0]? = some slice ∧
    report.workers[0]? = some ⟨0, slice, slice.size, falsePositives, .exhausted⟩ ∧
    (hashed history 0).map (·.toNat) = List.range' slice.start slice.size

/-- An exhausted worker is reported with its slice, which it has hashed to the end. -/
theorem Search.report_exhausted (h : Search r history spawning workers s) {i : Nat} {w : Worker}
    (hw : workers[i]? = some w) (hexit : w.exit = .exhausted) : ∃ slice, r.slices[i]? = some slice ∧
      w.report = ⟨i, slice, slice.size, w.falsePositives, .exhausted⟩ ∧
      (hashed history i).map (·.toNat) = List.range' slice.start slice.size := by
  obtain ⟨slice, hslice, htask⟩ := h.task hw
  obtain ⟨hnonces, hcursor, -, hend⟩ := h.covers hw
  have hhashes : w.hashes = w.slice.size := by
    have hstop := hend hexit
    rw [NonceRange.size]
    omega
  obtain rfl : w.slice = slice := htask.slice
  refine ⟨w.slice, hslice, ?_, ?_⟩
  · rw [Worker.report, h.id_eq hw, hhashes, hexit]
  · rw [hnonces, hhashes]

section Ending

variable {next : Nat} (h : Search r history (.upTo next) workers s) (hended : workers.all Worker.hasEnded)
  (hcrash : crashedWorker? workers = none)

include h hended hcrash

theorem Search.found_iff : s.board.found = true ↔ Passed (r.entries s.world) := by
  rw [(h.decided hended hcrash).found]
  constructor
  · intro hwinner
    obtain ⟨won, hwon⟩ := Option.isSome_iff_exists.1 hwinner
    obtain ⟨slice, -, hsound⟩ := h.vouches hwon
    exact ⟨won.worker, won.hash, r.work.header.bits, hsound.checked⟩
  · intro hpassed
    rcases h.reasons.passed hpassed with hwinner | ⟨i, w, claimed, hw, hphase⟩
    · exact hwinner
    · rw [phase_eq_done hended hcrash hw] at hphase
      cases hphase

theorem Search.superseded_iff : s.board.superseded = true ↔ Moved r.work (r.entries s.world) := by
  constructor
  · exact h.reasons.superseded
  · intro hmoved
    rcases h.reasons.moved hmoved with hsuperseded | ⟨lead, hlead, hphase⟩
    · exact hsuperseded
    · rw [phase_eq_done hended hcrash hlead] at hphase
      cases hphase

theorem Search.lead_exhausted (hfound : s.board.found ≠ true) (hint : s.world.interrupted ≠ true)
    (hsuperseded : s.board.superseded ≠ true) :
    ∃ lead : Worker, workers[0]? = some lead ∧ lead.exit = .exhausted := by
  have hsize : 0 < workers.size := by
    rw [h.size_workers]
    exact Nat.le_max_left _ _
  have hlead := Array.getElem?_eq_getElem hsize
  by_cases hexit : workers[0].exit = .exhausted
  · exact ⟨_, hlead, hexit⟩
  · have hwarranted := h.reasons.each 0 _ hlead
    simp only [Worker.Warranted, phase_eq_done hended hcrash hlead] at hwarranted
    rcases h.reasons.stop (hwarranted hexit) with ⟨_, ⟨⟩⟩ | hb | hb | hb | hb
    · exact absurd ((h.decided hended hcrash).found.2 hb) hfound
    · exact absurd hb hint
    · exact absurd hb hsuperseded
    · exact hb

theorem Search.justified (elapsed : Nat) :
    Justified r history (r.entries s.world) (s.world.interrupted = true)
      (tally r.work (s.board.outcome s.world.interrupted) elapsed workers) := by
  have hfound := h.found_iff hended hcrash
  have hsuperseded := h.superseded_iff hended hcrash
  refine ⟨?_, ?_, ?_, ?_, fun hexhausted => ?_⟩
  · rw [← hfound]
    exact s.board.outcome_eq_solved _
  · rw [← hfound]
    exact s.board.outcome_eq_interrupted _
  · rw [← hfound, ← hsuperseded]
    exact s.board.outcome_eq_superseded _
  · rw [← hfound, ← hsuperseded]
    exact s.board.outcome_eq_exhausted _
  · obtain ⟨hnotFound, hint, hnotSuperseded⟩ := (s.board.outcome_eq_exhausted _).1 hexhausted
    obtain ⟨lead, hlead, hexit⟩ := h.lead_exhausted hended hcrash hnotFound hint hnotSuperseded
    obtain ⟨slice, hslice, hreport, hhashed⟩ := h.report_exhausted hlead hexit
    refine ⟨slice, lead.falsePositives, hslice, ?_, hhashed⟩
    show (workers.toList.map Worker.report)[0]? = _
    rw [List.getElem?_map, Array.getElem?_toList, hlead, Option.map_some, hreport]

end Ending

/-- A round that returns a report has gone through a search whose workers had all ended. Its outcome is `solved`
exactly if a candidate of some worker passed the node's check; otherwise `interrupted` exactly if the process interrupt
was triggered up to the end of the search; otherwise `superseded` exactly if the leading worker was told another tip;
and otherwise `exhausted`, the leading worker having hashed its whole slice. -/
theorem outcome_justified (r : Setup σ) (events : List Event) (report : RoundReport)
    (hreturned : (r.run events).progress = .returned (.ok report)) :
    ∃ earlier b workers, earlier <+: events ∧ r.searching? earlier = some (b, workers) ∧
      workers.all Worker.hasEnded ∧
      Justified r (r.actors events) (r.entries (r.run events).world) (r.Triggered earlier) report := by
  have hstage := stage_run (r := r) events
  generalize r.run events = e at hreturned hstage
  cases hstage with
  | @returned world world₀ earlier started b workers _ hafter hcrash hreport _ =>
    cases hreturned
    refine ⟨earlier, b, workers, hafter.initial, hafter.searching, hafter.all_ended, ?_⟩
    -- the session's thread checks no candidate and asks for no tip, so the journal of the search says it all
    obtain ⟨new, hentries, hnew⟩ := hafter.entries
    have hpassed : Passed (r.entries world) ↔ Passed (r.entries world₀) := by
      rw [hentries, passed_append]
      exact or_iff_left hnew.not_passed
    have hmoved : Moved r.work (r.entries world) ↔ Moved r.work (r.entries world₀) := by
      rw [hentries, moved_append]
      exact or_iff_left (hnew.not_moved r.work)
    have htriggered := r.interrupted_run earlier
    rw [hafter.run_eq] at htriggered
    obtain ⟨hsolved, hinterrupted, hsuperseded, hexhausted, hlead⟩ :=
      hafter.search.justified hafter.all_ended hcrash (world₀.now - started)
    rw [← htriggered, hreport]
    refine ⟨?_, ?_, ?_, ?_, hlead⟩
    · rw [hpassed]
      exact hsolved
    · rw [hpassed]
      exact hinterrupted
    · rw [hpassed, hmoved]
      exact hsuperseded
    · rw [hpassed, hmoved]
      exact hexhausted
  | _ => cases hreturned

/-- No nonce is good, and the lead is told no tip but the one that the header builds on. -/
theorem outcome_justified_exhausted :
    (vain.run vainSearch).progress = .returned (.ok vainReport) ∧
    ∃ earlier b workers, earlier <+: vainSearch ∧ vain.searching? earlier = some (b, workers) ∧
      workers.all Worker.hasEnded ∧
      Justified vain (vain.actors vainSearch) (vain.entries (vain.run vainSearch).world) (vain.Triggered earlier)
        vainReport :=
  ⟨vain_returned, outcome_justified vain vainSearch vainReport vain_returned⟩

end Round

end HeaderMiner
