import HeaderMiner.Proofs.Header.Serialization
import HeaderMiner.Proofs.Node.Local
import HeaderMiner.Proofs.Round.Requests
import Mathlib

/-!
# Rounds on a local node

While a round on a local node searches, nothing changes the node's chain. So the lead is always told the tip that the
work builds on, and a solution that was found good is still good when it is handed in: such a round is never
superseded, and its solution is taken (`report_on_local`).
-/

namespace HeaderMiner

namespace Solution.Sound

variable {work : Work} {slice : NonceRange} {entries : List Entry} {s : Solution}

theorem prevBlockHash (h : s.Sound work slice entries) : s.header.prevBlockHash = work.header.prevBlockHash := by
  refine congrArg BlockHash.mk (Vector.ext fun i hi => ?_)
  rw [Bytes.getElem_slice, Bytes.getElem_slice]
  exact h.frame _ _ (by omega) (by omega)

theorem bits (h : s.Sound work slice entries) : s.header.bits = work.header.bits := by
  have hslice : s.header.bytes.slice 104 4 = work.header.bytes.slice 104 4 := by
    refine Vector.ext fun i hi => ?_
    rw [Bytes.getElem_slice, Bytes.getElem_slice]
    exact h.frame _ _ (by omega) (by omega)
  rw [RawHeader.bits, hslice, RawHeader.bits]

theorem hash_toHeader (h : s.Sound work slice entries) : s.header.toHeader.hash = s.hash := by
  rw [RawHeader.hash_toHeader]
  exact congrArg BlockHash.mk h.hash.symm

end Solution.Sound

namespace Round

/-- The round is opened on a local node that has peers, for work that builds on its tip and has its target. -/
structure Setup.OnLocal (r : Setup LocalNode) : Prop where
  node : r.node = LocalNode.answer
  peers : r.world.node.peers = true
  prevBlockHash : r.work.header.prevBlockHash = r.world.node.tip
  bits : r.work.header.bits = r.world.node.bits

variable {r : Setup LocalNode} {events : List Event}

/-- As long as the node has taken no header, its answers are those of its chain at the opening. -/
theorem Setup.OnLocal.answer_eq (h : r.OnLocal) {call : Call}
    (hcall : call ∈ calls (r.entries (r.run events).world))
    (htaken : taken (calls (r.entries (r.run events).world)) = []) :
    ∃ n, LocalNode.Grown r.world.node [] n ∧ (LocalNode.answer call.request n).answer = some call.answer := by
  have hserved := r.served_run events
  rw [h.node] at hserved
  obtain ⟨before, n, ⟨after, hbefore⟩, hearlier, hanswer⟩ := hserved.answer_eq hcall
  have hgrown := LocalNode.grown_of_served hearlier
  rw [← hbefore, taken_append, List.append_eq_nil_iff] at htaken
  rw [htaken.1] at hgrown
  exact ⟨n, hgrown, hanswer⟩

theorem taken_of_submissions {called : List Call} (h : submissions called = []) : taken called = [] := by
  rw [taken, h, List.filterMap_nil]

theorem Setup.OnLocal.not_moved (h : r.OnLocal) (htaken : taken (calls (r.entries (r.run events).world)) = []) :
    ¬ Moved r.work (r.entries (r.run events).world) := by
  rintro ⟨tip, hmem, htip⟩
  obtain ⟨n, hgrown, hanswer⟩ := h.answer_eq (mem_calls.2 hmem) htaken
  refine htip ?_
  obtain rfl : n.tip = tip := Option.some.inj (Option.some.inj hanswer)
  rw [hgrown.tip, h.prevBlockHash]
  rfl

/-- The node judges a sound solution good. -/
theorem Setup.OnLocal.judge_eq (h : r.OnLocal) {s : Solution} (hvouched : r.Vouches (r.run events).world s)
    (htaken : taken (calls (r.entries (r.run events).world)) = []) {n : LocalNode}
    (hn : LocalNode.Grown r.world.node [] n) : n.judge s.header.toHeader = .accepted := by
  obtain ⟨slice, -, hsound⟩ := hvouched
  obtain ⟨m, -, hchecked⟩ := h.answer_eq (mem_calls.2 hsound.checked) htaken
  have hmeets : meetsBits s.hash r.work.header.bits = true := Option.some.inj hchecked
  refine LocalNode.judge_eq_accepted.2 ⟨?_, ?_, ?_⟩
  · show s.header.prevBlockHash = n.tip
    rw [hsound.prevBlockHash, h.prevBlockHash, hn.tip]
    rfl
  · show s.header.bits = n.bits
    rw [hsound.bits, h.bits, hn.bits]
  · show meetsBits _ s.header.bits = true
    rw [hsound.hash_toHeader, hsound.bits]
    exact hmeets

theorem Setup.OnLocal.delivery_eq (h : r.OnLocal) {solution : Option Solution} {delivery : Option Delivery}
    (hreported : Reported (calls (r.entries (r.run events).world)) solution delivery)
    (hvouched : ∀ s, solution = some s → r.Vouches (r.run events).world s) :
    delivery = none ∨ delivery = some .accepted := by
  cases hreported with
  | unsolved => exact .inl rfl
  | accepted => exact .inr rfl
  | dropped hnone hpoll =>
    obtain ⟨n, hgrown, hanswer⟩ := h.answer_eq hpoll (taken_of_submissions hnone)
    have hpeers : n.peers = false := Option.some.inj hanswer
    rw [hgrown.peers, h.peers] at hpeers
    cases hpeers
  | @rejected s hsubmitted =>
    have htaken : taken (calls (r.entries (r.run events).world)) = [] := by
      rw [taken, hsubmitted]
      rfl
    obtain ⟨who, hcall⟩ := mem_submissions (hsubmitted ▸ List.mem_singleton_self _)
    obtain ⟨n, hgrown, hanswer⟩ := h.answer_eq hcall htaken
    have hjudge := h.judge_eq (hvouched s rfl) htaken hgrown
    have hrefused := (n.answer_submit s.header.toHeader).symm.trans hanswer
    rw [hjudge] at hrefused
    cases hrefused
  | @failed s failure hsubmitted =>
    have htaken : taken (calls (r.entries (r.run events).world)) = [] := by
      rw [taken, hsubmitted]
      rfl
    obtain ⟨who, hcall⟩ := mem_submissions (hsubmitted ▸ List.mem_singleton_self _)
    obtain ⟨n, -, hanswer⟩ := h.answer_eq hcall htaken
    cases (n.answer_submit s.header.toHeader).symm.trans hanswer

/-- On a local node a round is not superseded, and its solution is taken. -/
theorem Setup.OnLocal.report (h : r.OnLocal) {report : RoundReport} {world : World LocalNode}
    (hrun : r.run events = ⟨.returned (.ok report), world⟩) :
    report.outcome ≠ .superseded ∧ (report.delivery = none ∨ report.delivery = some .accepted) := by
  have hreturned := r.returned_run hrun
  obtain rfl : (r.run events).world = world := by rw [hrun]
  refine ⟨fun houtcome => ?_, h.delivery_eq hreturned.reported hreturned.vouched⟩
  have hunsolved : report.delivery = none := by
    rw [← Option.not_isSome_iff_eq_none, ← hreturned.solved, houtcome]
    rintro ⟨⟩
  have hnone := hreturned.reported.submissions_eq_nil hunsolved
  exact h.not_moved (taken_of_submissions hnone) (hreturned.superseded houtcome)

end Round

end HeaderMiner
