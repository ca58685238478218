import HeaderMiner.Proofs.Session.Accounting
import Mathlib

/-!
# Sessions on a local node

When a local node is changed by nobody else, every template builds on its tip and has its target, and it stays so
through the round. So no round is superseded, every solution is taken, and the blocks of the session extend the chain
that the node began with.
-/

namespace HeaderMiner

theorem LocalNode.template_sameChain (n : LocalNode) (payout : String) (reference : BlockHash) :
    n.SameChain (n.template payout reference).2 := ⟨rfl, rfl, rfl, rfl, rfl⟩

theorem LocalNode.prevBlockHash_template (n : LocalNode) (payout : String) (reference : BlockHash) :
    (n.template payout reference).1.header.prevBlockHash = n.tip := by
  rw [template]
  exact Header.prevBlockHash_serialize _

theorem LocalNode.bits_template (n : LocalNode) (payout : String) (reference : BlockHash) :
    (n.template payout reference).1.header.bits = n.bits := by
  rw [template]
  exact Header.bits_serialize _

namespace Session

variable {c : Setup LocalNode} {reports : List RoundReport} {s : Session} {world opening world' : World LocalNode}
  {work : Work} {events : List Event} {report : RoundReport}

/-- The session is run on a new local node that has peers. -/
structure Setup.OnLocal (c : Setup LocalNode) : Prop where
  node : c.node = LocalNode.answer
  peers : c.world.node.peers = true
  accepted : c.world.node.accepted = []

theorem Setup.OnLocal.grown (hc : c.OnLocal) (hserved : Served c.node c.world.node (c.called world) world.node) :
    LocalNode.Grown c.world.node (taken (c.called world)) world.node := by
  rw [hc.node] at hserved
  exact LocalNode.grown_of_served hserved

/-- The step that opens a round has had the node build its template. -/
theorem Setup.OnLocal.template_eq (hc : c.OnLocal) (h : Walk c reports s world)
    (hstep : c.move .session s world = (.running (s.goto (.mining (.opening work .full))), opening)) :
    ∃ reference, world.node.template c.config.payout reference = (work, opening.node) := by
  obtain ⟨reference, work', hs, hcalled, hgoto⟩ := (h.goes hstep).of_mines rfl
  obtain rfl : work = work' := by
    cases hgoto
    rfl
  have hrequest : s.request? c.config = some (.template c.config.payout reference) := by
    rw [request?, hs]
    rfl
  have hstate := (h.serves hstep).state
  have hcall : (⟨.session, .template c.config.payout reference, .ok work⟩ : Call) ∈
      world.answered c.node .session (s.request? c.config) := by
    rw [hcalled]
    exact List.mem_singleton_self _
  obtain ⟨-, -, hanswer⟩ := World.mem_answered _ hcall
  rw [hrequest, hc.node] at hstate
  rw [hc.node] at hanswer
  refine ⟨reference, Prod.ext ?_ hstate.symm⟩
  injection hanswer with hanswer
  injection hanswer

theorem Opens.onLocal (h : Opens c reports s work opening) (hc : c.OnLocal) :
    (c.round work opening).OnLocal := by
  have hpeers := (hc.grown h.served).peers
  obtain ⟨world, hwalk, hstep⟩ := h
  obtain ⟨reference, htemplate⟩ := hc.template_eq hwalk hstep
  obtain ⟨rfl, hopening⟩ := Prod.ext_iff.1 htemplate
  have hsame := world.node.template_sameChain c.config.payout reference
  rw [hopening] at hsame
  refine ⟨hc.node, hpeers.trans hc.peers, ?_, ?_⟩
  · exact (world.node.prevBlockHash_template _ _).trans hsame.tip.symm
  · exact (world.node.bits_template _ _).trans hsame.bits.symm

/-- No round of a session on a local node is superseded, and its solution is taken if there is one. -/
theorem Setup.OnLocal.of_mem_reports (hc : c.OnLocal) (hreport : report ∈ c.reports events) :
    report.outcome ≠ .superseded ∧ (report.delivery = none ∨ report.delivery = some .accepted) := by
  obtain ⟨_, _, work, opening, earlier, world, hopens, hround⟩ := c.reports_of_mem hreport
  exact (hopens.onLocal hc).report hround

/-- What a session on a local node has made of the node's chain and of its statistics. -/
structure Extended (c : Setup LocalNode) (events : List Event) (stats : Stats) : Prop where
  delivered : ∀ report ∈ c.reports events, report.outcome = .solved → report.delivery = some .accepted
  refused : stats.rejected = 0 ∧ stats.dropped = 0 ∧ stats.failed = 0 ∧ stats.superseded = 0
  solved : stats.solved = stats.accepted
  blocks : stats.blocks = (c.run events).world.node.accepted
  height : (c.run events).world.node.height = c.world.node.height + UInt64.ofNat stats.accepted
  tip : (c.run events).world.node.tip = stats.blocks.getLast?.getD c.world.node.tip
  hashes : (taken (c.called (c.run events).world)).map Header.hash = stats.blocks
  /-- The first header that was taken builds on the tip at the start, and each other one on the one before. -/
  parents : (taken (c.called (c.run events).world)).map Header.parent = (c.world.node.tip :: stats.blocks).dropLast

/-- However the workers run and whenever the session is interrupted, if it returns its statistics then all that it
solved was taken, nothing was superseded, and its blocks are those that the chain of the node has grown by, each on the
one before. -/
theorem chain_extended (c : Setup LocalNode) (hc : c.OnLocal) (events : List Event) (stats : Stats)
    (hreturned : (c.run events).progress = .returned (.ok stats)) : Extended c events stats := by
  obtain ⟨haccounted, -, -⟩ := accounted_of_returned hreturned
  have hbalanced : Balanced _ _ stats := haccounted.balanced
  have hcounted := hbalanced.counted
  have hgrown := hc.grown (c.served_run events)
  have hundelivered {delivery : Delivery} (hdelivery : delivery ≠ .accepted) :
      (c.reports events).countP (·.delivery = some delivery) = 0 := by
    refine List.countP_eq_zero.2 fun report hreport hsome => ?_
    rcases (hc.of_mem_reports hreport).2 with hnone | haccepted
    · rw [hnone] at hsome
      cases hsome
    · rw [haccepted] at hsome
      exact hdelivery (Option.some.inj (of_decide_eq_true hsome)).symm
  have hrejected : stats.rejected = 0 := by
    rw [hcounted]
    exact hundelivered (by rintro ⟨⟩)
  have hdropped : stats.dropped = 0 := by
    rw [hcounted]
    exact hundelivered (by rintro ⟨⟩)
  have hfailed : stats.failed = 0 := by
    rw [hcounted]
    exact hundelivered (by rintro ⟨⟩)
  have hsuperseded : stats.superseded = 0 := by
    rw [hcounted]
    refine List.countP_eq_zero.2 fun report hreport houtcome => ?_
    exact (hc.of_mem_reports hreport).1 (of_decide_eq_true houtcome)
  refine ⟨fun report hreport hsolved => ?_, ⟨hrejected, hdropped, hfailed, hsuperseded⟩, ?_, ?_, ?_, ?_,
    hbalanced.blocks.symm, ?_⟩
  · obtain ⟨_, _, _, _, _, _, -, hround⟩ := c.reports_of_mem hreport
    have hsome := (Round.Setup.returned_run _ hround).solved.1 hsolved
    refine (hc.of_mem_reports hreport).2.resolve_left fun hnone => ?_
    rw [hnone] at hsome
    cases hsome
  · have hdeliveries := hbalanced.deliveries
    omega
  · rw [hgrown.accepted, hc.accepted, List.nil_append]
    exact hbalanced.blocks
  · rw [hgrown.height, ← hbalanced.accepted, hbalanced.blocks, List.length_map]
  · rw [hgrown.tip, hbalanced.blocks, List.getLast?_map]
  · rw [hgrown.parents, hbalanced.blocks]

/-- A session of one round on a node that has mined nothing yet: its first nonce is the block of height 1. -/
theorem chain_extended_solved :
    let c : Setup LocalNode :=
      ⟨{ threads := some 1, lanes := some .one, resyncBatches := 1, maxRounds := some 1 }, {}, LocalNode.answer,
        { node := { bits := 0x207fffff, clock := fun _ => 3 } }⟩
    let events : List Event :=
      List.replicate 7 (.step .session) ++ List.replicate 7 (.step (.worker 0)) ++ List.replicate 4 (.step .session)
    c.OnLocal ∧ ∃ stats, (c.run events).progress = .returned (.ok stats) ∧ stats.accepted = 1 ∧
      Extended c events stats := by
  intro c events
  have hc : c.OnLocal := ⟨rfl, rfl, rfl⟩
  have hends : (c.stats? events).any (fun stats => stats.accepted = 1) = true := by
    decide +kernel
  obtain ⟨stats, hstats, haccepted⟩ := (Option.any_eq_true _ _).1 hends
  have hreturned := c.progress_of_stats? hstats
  exact ⟨hc, stats, hreturned, of_decide_eq_true haccepted, chain_extended c hc events stats hreturned⟩

end Session

end HeaderMiner
