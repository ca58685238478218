import HeaderMiner.Node.Local
import HeaderMiner.Proofs.Round.Batch
import HeaderMiner.Proofs.Round.Filter
import HeaderMiner.Round.Worker
import Mathlib

/-!
# A worker alone

With nobody beside it and a node that answers (`Calm`), a worker goes through the phases of its search in a fixed
order. `Worker.Leads` are its steps; there is one lemma for each stretch of them: testing a batch (`leads_testing`),
the end of a window (`leads_resync`), a claim (`ends_claiming`) and the end of the slice (`ends_exhausted`). Steps
that lead to the end are a run that returns (`Leads.run_solo`).
-/

namespace HeaderMiner

variable {σ : Type}

/-! ### Nodes that answer -/

/-- What a worker asks a node. -/
def Request.OfWorker (r : Request) : Prop := r.query = .proofOfWork ∨ r.query = .time ∨ r.query = .tip

/-- The states that a worker's calls can bring a node to. -/
inductive Asked (node : Node σ) (start : σ) : σ → Prop
  | start : Asked node start start
  | call {state : σ} {r : Request} (h : Asked node start state) (hr : r.OfWorker) :
      Asked node start (node r state).state

/-- The node tells this tip, after it could not tell any for finitely many times. -/
inductive TipSettles (node : Node σ) (tip : BlockHash) : σ → Prop
  | told {state : σ} (h : (node .tip state).answer = some (some tip)) : TipSettles node tip state
  | later {state : σ} (h : (node .tip state).answer = some none)
      (hnext : TipSettles node tip (node .tip state).state) : TipSettles node tip state

/-- From a state on, a node checks hashes by their compact target, answers for the time, tells the leading worker
that the chain has not moved, and does not interrupt. -/
structure Calm (node : Node σ) (work : Work) (id : Nat) (start : σ) : Prop where
  proofOfWork : ∀ state, Asked node start state → ∀ hash bits,
    (node (.proofOfWork hash bits) state).answer = some (meetsBits hash bits)
  time : ∀ state, Asked node start state → (node .time state).answer.isSome
  tip : id = 0 → ∀ state, Asked node start state → TipSettles node work.header.prevBlockHash state
  quiet : ∀ state, Asked node start state → ∀ r : Request, r.OfWorker → (node r state).interrupts = false

theorem Asked.trans {node : Node σ} {a b c : σ} (h : Asked node a b) (h' : Asked node b c) : Asked node a c := by
  induction h' with
  | start => exact h
  | call _ hr ih => exact ih.call hr

theorem Calm.later {node : Node σ} {work : Work} {id : Nat} {a b : σ} (h : Calm node work id a)
    (hab : Asked node a b) : Calm node work id b :=
  ⟨fun c hc => h.proofOfWork c (hab.trans hc), fun c hc => h.time c (hab.trans hc),
    fun hid c hc => h.tip hid c (hab.trans hc), fun c hc => h.quiet c (hab.trans hc)⟩

theorem LocalNode.tip_eq_of_asked {n state : LocalNode} (h : Asked LocalNode.answer n state) : state.tip = n.tip := by
  induction h with
  | start => rfl
  | @call state r _ hr ih =>
    rw [← ih]
    cases r with
    | template | submit => rcases hr with hr | hr | hr <;> cases hr
    | reference | proofOfWork | tip | height | peers | time => rfl

/-- A local node is calm for headers that build on its tip. -/
theorem LocalNode.calm {n : LocalNode} {work : Work} (htip : n.tip = work.header.prevBlockHash) (id : Nat) :
    Calm LocalNode.answer work id n where
  proofOfWork _ _ _ _ := rfl
  time _ _ := rfl
  tip _ state h := by
    refine .told ?_
    rw [← htip, ← tip_eq_of_asked h]
    rfl
  quiet state _ r _ := by cases r <;> rfl

/-- From one world to the other a worker made calls that did not interrupt, and was told these times. -/
structure World.Hears (node : Node σ) (who : Thread) (times : List UInt32) (w w' : World σ) : Prop where
  asked : Asked node w.node w'.node
  interrupted : w'.interrupted = w.interrupted
  journal : ∃ new, w'.journal.toList = w.journal.toList ++ new ∧ readings who new = times

namespace World.Hears

variable {node : Node σ} {who : Thread} {times times' : List UInt32} {w w' w'' : World σ}

theorem refl (node : Node σ) (who : Thread) (w : World σ) : w.Hears node who [] w :=
  ⟨.start, rfl, [], by simp, rfl⟩

theorem trans (h : w.Hears node who times w') (h' : w'.Hears node who times' w'') :
    w.Hears node who (times ++ times') w'' := by
  obtain ⟨xs, hxs, hx⟩ := h.journal
  obtain ⟨ys, hys, hy⟩ := h'.journal
  refine ⟨h.asked.trans h'.asked, h'.interrupted.trans h.interrupted, xs ++ ys, ?_, ?_⟩
  · rw [hys, hxs, List.append_assoc]
  · rw [readings_append, hx, hy]

theorem log (node : Node σ) (who : Thread) (w : World σ) (n : Notice) : w.Hears node who [] (w.log n) :=
  ⟨.start, rfl, _, journal_log _ _, rfl⟩

theorem sleep (node : Node σ) (who : Thread) (w : World σ) (ms : UInt64) :
    w.Hears node who [] (w.sleep who ms) :=
  ⟨.start, rfl, _, journal_sleep _ _ _, rfl⟩

theorem call {work : Work} {id : Nat} (hcalm : Calm node work id w.node) {r : Request} (hr : r.OfWorker)
    (htimes : readings who (w.callEntries node who r) = times) : w.Hears node who times (w.call node who r).2 := by
  refine ⟨?_, ?_, _, journal_call _ _ _ _, htimes⟩
  · rw [node_call]
    exact .call .start hr
  · rw [interrupted_call, hcalm.quiet _ .start r hr, Bool.or_false]

end World.Hears

namespace Worker

/-! ### Runs -/

/-- The steps that a worker takes alone. -/
def Leads (node : Node σ) (c c' : Worker × Shared σ) : Prop :=
  Relation.ReflTransGen (fun c c' => c' = c.1.step node c.2) c c'

section Run

variable {node : Node σ} {c c' c'' : Worker × Shared σ}

theorem Leads.refl (c : Worker × Shared σ) : Leads node c c := Relation.ReflTransGen.refl

theorem Leads.trans (h : Leads node c c') (h' : Leads node c' c'') : Leads node c c'' :=
  Relation.ReflTransGen.trans h h'

theorem Leads.head {w : Worker} {s : Shared σ} (hstep : w.step node s = c) (h : Leads node c c') :
    Leads node (w, s) c' :=
  Relation.ReflTransGen.head hstep.symm h

theorem leads_step {w : Worker} {s : Shared σ} (hstep : w.step node s = c) : Leads node (w, s) c :=
  Leads.head hstep (.refl c)

theorem Leads.eq_of_hasEnded (h : Leads node c c') (hc : c.1.hasEnded) : c' = c := by
  induction h with
  | refl => rfl
  | tail _ hstep ih =>
    subst ih
    rw [hstep]
    rw [hasEnded, decide_eq_true_iff] at hc
    rcases hc with hc | hc <;> simp only [step, hc]

theorem solo_step (id : Nat) {w : Worker} {s : Shared σ} (h : (w.step node s).1.hasEnded = false) :
    solo node (.worker id) (w, s.board) s.world =
      (.running ((w.step node s).1, (w.step node s).2.board), (w.step node s).2.world) := by
  rw [hasEnded, decide_eq_false_iff_not, not_or] at h
  unfold solo
  simp only
  split
  · exact absurd ‹_› h.1
  · exact absurd ‹_› h.2
  · rfl

theorem solo_done (id : Nat) {w : Worker} {s : Shared σ} (h : (w.step node s).1.phase = .done) :
    solo node (.worker id) (w, s.board) s.world =
      (.returned ((w.step node s).1.report, (w.step node s).2.board), (w.step node s).2.world) := by
  unfold solo
  simp only [h]

theorem Leads.run_solo (id : Nat) (h : Leads node c c') (hc : c.1.hasEnded = false) (hdone : c'.1.phase = .done) :
    ∃ n, Execution.run (solo node) ⟨.running (c.1, c.2.board), c.2.world⟩
      (List.replicate n (.step (.worker id))) = ⟨.returned (c'.1.report, c'.2.board), c'.2.world⟩ := by
  induction h using Relation.ReflTransGen.head_induction_on with
  | refl =>
    rw [hasEnded, hdone] at hc
    simp at hc
  | @head c d hstep hrest ih =>
    subst hstep
    cases hd : (c.1.step node c.2).1.hasEnded with
    | false =>
      obtain ⟨n, hn⟩ := ih hd
      refine ⟨n + 1, ?_⟩
      rw [← hn, List.replicate_succ]
      show Execution.run _ (Execution.next _ _ _) _ = _
      simp only [Execution.next, solo_step id hd]
    | true =>
      have hsame := Leads.eq_of_hasEnded hrest hd
      rw [hsame] at hdone ⊢
      refine ⟨1, ?_⟩
      rw [List.replicate_one, Execution.run, List.foldl_cons, List.foldl_nil]
      simp only [Execution.next, solo_done id hdone]

end Run

/-! ### Tests -/

section Testing

variable {node : Node σ} {w : Worker} {s : Shared σ} {left : Nat}

theorem precheck_ofWork (work : Work) (d : Digest) :
    (Filter.ofWork work).precheck d = decide (work.target.MayBeMetBy d.blockHash) :=
  Filter.precheck_ofTarget work.target work.header.bits d

theorem check_ofWork {work : Work} {id : Nat} {world : World σ} (hcalm : Calm node work id world.node)
    (hwork : work.target = Target.ofBits work.header.bits) (who : Thread) (d : Digest) :
    (Filter.ofWork work).check node who d world =
      (some (if work.target.isMetBy d.blockHash then some d.blockHash else none),
        (world.call node who (.proofOfWork d.blockHash work.header.bits)).2) := by
  have hanswer := hcalm.proofOfWork _ .start d.blockHash work.header.bits
  rw [meetsBits, ← hwork] at hanswer
  exact Filter.check_eq hanswer who

/-- The number of misleading hashes of a header with consecutive nonces. -/
def misleading (t : Target) (h : RawHeader) (first n : Nat) : Nat :=
  Nat.count (fun k => t.MisledBy (h.hashAt (first + k))) n

theorem count_congr {p q : Nat → Prop} [DecidablePred p] [DecidablePred q] {n : Nat}
    (h : ∀ k < n, (p k ↔ q k)) : Nat.count p n = Nat.count q n :=
  Nat.le_antisymm (Nat.count_mono_left fun k hk => (h k hk).1) (Nat.count_mono_left fun k hk => (h k hk).2)

theorem misleading_succ {t : Target} {h : RawHeader} {first : Nat} (hmiss : ¬ t.isMetBy (h.hashAt first)) (n : Nat) :
    misleading t h first (n + 1) =
      (if t.MayBeMetBy (h.hashAt first) then 1 else 0) + misleading t h (first + 1) n := by
  have hfirst : t.MisledBy (h.hashAt (first + 0)) ↔ t.MayBeMetBy (h.hashAt first) := by
    rw [Nat.add_zero, Target.MisledBy, and_iff_left hmiss]
  have hrest : Nat.count (fun k => t.MisledBy (h.hashAt (first + (k + 1)))) n =
      Nat.count (fun k => t.MisledBy (h.hashAt (first + 1 + k))) n :=
    count_congr fun k _ => by rw [Nat.add_right_comm, Nat.add_assoc]
  unfold misleading
  simp only [Nat.count_succ', hfirst, hrest]
  exact Nat.add_comm _ _

theorem step_testing {nonce : UInt32} {digest : Digest} {pending : List (UInt32 × Digest)}
    (hcalm : Calm node w.work w.id s.world.node) (hwork : w.work.target = Target.ofBits w.work.header.bits)
    (hw : w.phase = .testing left ((nonce, digest) :: pending)) :
    ∃ falsePositives world, s.world.Hears node w.thread [] world ∧
      falsePositives = w.falsePositives + (if w.work.target.MayBeMetBy digest.blockHash then 1 else 0) ∧
      w.step node s =
        (if w.work.target.isMetBy digest.blockHash then w.goto (.claiming (w.solution nonce digest.blockHash))
          else { w with falsePositives, phase := .testing left pending }, { s with world }) := by
  by_cases hmay : w.work.target.MayBeMetBy digest.blockHash
  · have hr : Request.proofOfWork digest.blockHash w.work.header.bits ≠ .time := by rintro ⟨⟩
    refine ⟨w.falsePositives + 1, _,
      .call hcalm (.inl rfl) (World.readings_callEntries _ node w.thread w.thread hr), by rw [if_pos hmay], ?_⟩
    simp only [step, hw, precheck_ofWork, hmay, decide_true, if_true, check_ofWork hcalm hwork]
    cases w.work.target.isMetBy digest.blockHash <;> rfl
  · have hmet : ¬ w.work.target.isMetBy digest.blockHash := fun h => hmay (Target.mayBeMetBy_of_isMetBy h)
    refine ⟨w.falsePositives, s.world, .refl _ _ _, by rw [if_neg hmay, Nat.add_zero], ?_⟩
    rw [if_neg hmet]
    simp only [step, hw, precheck_ofWork, hmay, decide_false, Bool.false_eq_true, if_false]
    rfl

/-- Testing goes through a batch up to the first good hash, if there is one. -/
theorem leads_testing (hcalm : Calm node w.work w.id s.world.node)
    (hwork : w.work.target = Target.ofBits w.work.header.bits) {first n : Nat}
    (hw : w.phase = .testing left (w.header.candidates first n)) :
    ∃ i falsePositives world, i ≤ n ∧ (∀ k < i, ¬ w.work.target.isMetBy (w.header.hashAt (first + k))) ∧
      falsePositives = w.falsePositives + misleading w.work.target w.header first i ∧
      s.world.Hears node w.thread [] world ∧
      (i = n ∧ Leads node (w, s) ({ w with falsePositives, phase := .hashing left }, { s with world }) ∨
        i < n ∧ w.work.target.isMetBy (w.header.hashAt (first + i)) ∧
          Leads node (w, s) ({ w with
            falsePositives
            phase := .claiming (w.solution (UInt32.ofNat (first + i)) (w.header.hashAt (first + i))) },
            { s with world })) := by
  induction n generalizing w s first with
  | zero =>
    refine ⟨0, w.falsePositives, s.world, Nat.le_refl 0, fun k hk => absurd hk (Nat.not_lt_zero k), ?_,
      .refl _ _ _, .inl ⟨rfl, leads_step ?_⟩⟩
    · rw [misleading, Nat.count_zero, Nat.add_zero]
    · simp only [step, hw, RawHeader.candidates, List.range'_zero, List.map_nil]
      rfl
  | succ n ih =>
    rw [RawHeader.candidates_succ] at hw
    obtain ⟨fp, world, hhears, hfp, hstep⟩ := step_testing hcalm hwork hw
    have hhash : (w.header.setNonce (UInt32.ofNat first)).digest.blockHash = w.header.hashAt first :=
      RawHeader.blockHash_digest _
    rw [hhash] at hstep hfp
    by_cases hmet : w.work.target.isMetBy (w.header.hashAt first)
    · rw [if_pos hmet] at hstep
      refine ⟨0, w.falsePositives, world, Nat.zero_le _, fun k hk => absurd hk (Nat.not_lt_zero k), ?_,
        hhears, .inr ⟨Nat.succ_pos n, hmet, leads_step hstep⟩⟩
      rw [misleading, Nat.count_zero, Nat.add_zero]
    · rw [if_neg hmet] at hstep
      obtain ⟨i, fp', world', hi, hmiss, hfp', hhears', hleads⟩ :=
        ih (w := { w with falsePositives := fp, phase := .testing left (w.header.candidates (first + 1) n) })
          (s := { s with world }) (hcalm.later hhears.asked) hwork rfl
      have hshift : first + 1 + i = first + (i + 1) := by omega
      rw [hshift] at hleads
      refine ⟨i + 1, fp', world', by omega, fun k hk => ?_, ?_, hhears.trans hhears', ?_⟩
      · cases k with
        | zero => exact hmet
        | succ k =>
          rw [show first + (k + 1) = first + 1 + k by omega]
          exact hmiss k (by omega)
      · rw [hfp', hfp, misleading_succ hmet, Nat.add_assoc]
      · rcases hleads with ⟨rfl, hleads⟩ | ⟨hlt, hgood, hleads⟩
        · exact .inl ⟨rfl, .head hstep hleads⟩
        · exact .inr ⟨by omega, hgood, .head hstep hleads⟩

end Testing

/-! ### Windows and ends -/

/-- A worker comes to its end, with this report and this winner, and is told these times until then. -/
def Ends (node : Node σ) (c : Worker × Shared σ) (times : List UInt32) (report : WorkerReport)
    (winner : Option Solution) : Prop :=
  ∃ c', Leads node c c' ∧ c'.1.phase = .done ∧ c'.1.report = report ∧ c'.2.board.winner = winner ∧
    c.2.world.Hears node c.1.thread times c'.2.world

section Ending

variable {node : Node σ} {w : Worker} {s : Shared σ}

theorem leads_asking (hstop : s.board.stop = false) (hint : s.world.interrupted = false)
    (hw : w.phase = .watchingStop) : Leads node (w, s) (w.goto .askingTip, s) := by
  have hfirst : w.step node s = (w.goto .watchingInterrupt, s) := by
    simp only [step, hw, hstop, Bool.false_eq_true, if_false]
  have hsecond : (w.goto .watchingInterrupt).step node s = (w.goto .askingTip, s) := by
    simp only [step, goto, hint, Bool.false_eq_true, if_false]
  exact .head hfirst (leads_step hsecond)

/-- The lead waits until it is told the tip, and finds it where it was. -/
theorem leads_watching (hcalm : Calm node w.work w.id s.world.node)
    (htip : TipSettles node w.work.header.prevBlockHash s.world.node) (hstop : s.board.stop = false)
    (hint : s.world.interrupted = false) (hw : w.phase = .watchingStop) :
    ∃ world, s.world.Hears node w.thread [] world ∧
      Leads node (w, s) (w.goto .deciding, { s with world }) := by
  have hr : Request.tip ≠ .time := by rintro ⟨⟩
  have hback : w.goto .watchingStop = w := by
    rw [← hw]
    rfl
  -- by induction on how often the node cannot tell the tip
  generalize hstate : s.world.node = state at htip
  induction htip generalizing s with
  | told h =>
    subst hstate
    refine ⟨_, .call hcalm (.inr (.inr rfl)) (World.readings_callEntries _ node w.thread w.thread hr),
      (leads_asking hstop hint hw).trans (leads_step ?_)⟩
    simp only [step, goto, World.call_fst, h, if_true]
    rfl
  | later h _ ih =>
    subst hstate
    let waited := (s.world.call node w.thread .tip).2.sleep w.thread w.settings.tipPollMs
    have hask : (w.goto .askingTip).step node s = (w, { s with world := waited }) := by
      rw [← hback]
      simp only [step, goto, thread, World.call_fst, h]
      rfl
    have hheard : s.world.Hears node w.thread [] waited :=
      .trans (.call hcalm (.inr (.inr rfl)) (World.readings_callEntries _ node w.thread w.thread hr))
        (.sleep node w.thread _ _)
    obtain ⟨world, hrest, hleads⟩ := ih (s := { s with world := waited }) (hcalm.later hheard.asked) hstop
      (hheard.interrupted.trans hint) (World.node_call _ _ _ _)
    exact ⟨world, hheard.trans hrest, (leads_asking hstop hint hw).trans (.head hask hleads)⟩


theorem Ends.of_leads {c d : Worker × Shared σ} {times times' : List UInt32} {report : WorkerReport}
    {winner : Option Solution} (hleads : Leads node c d)
    (hhears : c.2.world.Hears node c.1.thread times d.2.world) (hthread : d.1.thread = c.1.thread)
    (h : Ends node d times' report winner) : Ends node c (times ++ times') report winner := by
  obtain ⟨e, hde, hdone, hreport, hwinner, hrest⟩ := h
  rw [hthread] at hrest
  exact ⟨e, hleads.trans hde, hdone, hreport, hwinner, hhears.trans hrest⟩

/-- At the end of a window the progress is made known, and nothing stops a worker that is alone. -/
theorem leads_publishing (hcalm : Calm node w.work w.id s.world.node) (hstop : s.board.stop = false)
    (hint : s.world.interrupted = false) (hw : w.phase = .publishing) :
    ∃ world, s.world.Hears node w.thread [] world ∧
      Leads node (w, s) (w.openWindow, ⟨s.board.publish w.id w.hashes, world⟩) := by
  have hdecide (world : World σ) :
      (w.goto .deciding).step node ⟨s.board.publish w.id w.hashes, world⟩ =
        (w.openWindow, ⟨s.board.publish w.id w.hashes, world⟩) := by
    simp only [step, goto, Board.publish, hstop, Bool.false_eq_true, if_false]
    rfl
  have hpublish : w.step node s =
      (w.goto (if w.isLead then .observing else .deciding), { s with board := s.board.publish w.id w.hashes }) := by
    simp only [step, hw]
  cases hlead : w.isLead with
  | false =>
    rw [hlead, if_neg Bool.false_ne_true] at hpublish
    exact ⟨s.world, .refl node w.thread s.world, .head hpublish (leads_step (hdecide _))⟩
  | true =>
    rw [hlead, if_pos rfl] at hpublish
    have hobserve : (w.goto .observing).step node { s with board := s.board.publish w.id w.hashes } =
        (w.goto .watchingStop, { s with board := s.board.publish w.id w.hashes }) := by
      simp only [step, goto, hint, Bool.false_eq_true, if_false]
    have htip := hcalm.tip (beq_iff_eq.1 hlead) _ .start
    obtain ⟨world, hhears, hwatch⟩ := leads_watching (w := w.goto .watchingStop)
      (s := { s with board := s.board.publish w.id w.hashes }) hcalm htip hstop hint rfl
    exact ⟨world, hhears, .head hpublish (.head hobserve (hwatch.trans (leads_step (hdecide _))))⟩

/-- The next window has the time that the worker is told at the end of this one. -/
theorem leads_resync (hcalm : Calm node w.work w.id s.world.node) (hstop : s.board.stop = false)
    (hint : s.world.interrupted = false) (hengine : w.engine = Engine.ofHeader w.header)
    (hw : w.phase = .hashing 0) :
    ∃ t world, s.world.Hears node w.thread [t] world ∧
      Leads node (w, s) ({ w with
        header := w.header.setTime t
        engine := Engine.ofHeader (w.header.setTime t)
        phase := .hashing w.settings.resyncBatches }, ⟨s.board.publish w.id w.hashes, world⟩) := by
  obtain ⟨t, ht⟩ := Option.isSome_iff_exists.1 (hcalm.time _ .start)
  rw [← World.call_fst s.world node w.thread] at ht
  have hcall : s.world.Hears node w.thread [t] (s.world.call node w.thread .time).2 :=
    .call hcalm (.inr (.inl rfl)) (World.readings_callEntries_time _ ht)
  have hbegin : w.step node s = (w.goto .refreshing, s) := by
    simp only [step, hw]
  have hset : ((w.goto .refreshing).setTime t).goto .publishing =
      { w with
        header := w.header.setTime t
        engine := Engine.ofHeader (w.header.setTime t)
        phase := .publishing } := by
    rw [setTime_eq (w.goto .refreshing) hengine]
    simp only [goto]
  have hrefresh : (w.goto .refreshing).step node s =
      (((w.goto .refreshing).setTime t).goto .publishing,
        { s with world := (s.world.call node w.thread .time).2 }) := by
    simp only [step, goto]
    rw [show ({ w with phase := .refreshing } : Worker).thread = w.thread from rfl, ht]
  rw [hset] at hrefresh
  obtain ⟨world, hhears, hpublish⟩ := leads_publishing
    (w := { w with
      header := w.header.setTime t
      engine := Engine.ofHeader (w.header.setTime t)
      phase := .publishing })
    (s := { s with world := (s.world.call node w.thread .time).2 }) (hcalm.later hcall.asked) hstop
    (hcall.interrupted.trans hint) rfl
  simp only [thread] at hhears
  exact ⟨t, world, hcall.trans hhears, .head hbegin (.head hrefresh hpublish)⟩

theorem ends_claiming {solution : Solution} (hw : w.phase = .claiming solution) (hwinner : s.board.winner = none) :
    Ends node (w, s) [] ⟨w.id, w.slice, w.hashes, w.falsePositives, .solved⟩ (some solution) := by
  have hclaim : w.step node s =
      (w.goto (.announcing solution), { s with board := { s.board with winner := some solution } }) := by
    simp only [step, hw, Board.offer, hwinner]
    rfl
  refine ⟨_, .head hclaim <| .head rfl <| .head rfl <| leads_step rfl, rfl, rfl, rfl, ?_⟩
  exact .log node w.thread s.world _

theorem ends_exhausted (hw : w.phase = .finishing) (hexit : w.exit = .exhausted) :
    Ends node (w, s) [] w.report s.board.winner := by
  have hfinish : w.step node s =
      (w.goto (if w.isLead then .exhausting else .done),
        ⟨s.board.publish w.id w.hashes, s.world.log (.rangeExhausted w.id w.hashes)⟩) := by
    simp only [step, hw, hexit, if_true]
  cases hlead : w.isLead with
  | true =>
    rw [hlead, if_pos rfl] at hfinish
    refine ⟨_, .head hfinish <| .head rfl <| leads_step rfl, rfl, rfl, rfl, ?_⟩
    exact .log node w.thread s.world _
  | false =>
    rw [hlead, if_neg Bool.false_ne_true] at hfinish
    refine ⟨_, leads_step hfinish, rfl, rfl, rfl, ?_⟩
    exact .log node w.thread s.world _

end Ending

end Worker

end HeaderMiner
