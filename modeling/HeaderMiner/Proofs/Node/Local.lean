import HeaderMiner.Node.Local
import HeaderMiner.Proofs.Journal
import Mathlib

/-!
# The chain of a local node

A local node changes its chain only when it takes a header. However it was asked, its chain has `Grown` by the headers
that it took: these build on each other, and their hashes are the new blocks (`grown_of_served`).
-/

namespace HeaderMiner

/-- The hash of the block that a header builds on. -/
def Header.parent (h : Header) : BlockHash := ⟨h.prevBlockHash⟩

namespace LocalNode

/-- The nodes have the same chain, ask for the same target and see the same peers. -/
structure SameChain (n n' : LocalNode) : Prop where
  tip : n'.tip = n.tip
  height : n'.height = n.height
  bits : n'.bits = n.bits
  accepted : n'.accepted = n.accepted
  peers : n'.peers = n.peers

theorem SameChain.refl (n : LocalNode) : n.SameChain n := ⟨rfl, rfl, rfl, rfl, rfl⟩

theorem judge_eq_accepted {n : LocalNode} {header : Header} : n.judge header = .accepted ↔
    header.parent = n.tip ∧ header.bits = n.bits ∧ meetsBits header.hash header.bits = true := by
  unfold judge
  split
  · rename_i hparent
    refine ⟨by rintro ⟨⟩, fun h => absurd ?_ hparent⟩
    rw [← h.1]
    rfl
  · rename_i hparent
    have htip : header.parent = n.tip := congrArg BlockHash.mk (not_not.1 hparent)
    split
    · rename_i hwork
      refine ⟨by rintro ⟨⟩, fun h => ?_⟩
      rcases hwork with hbits | hmeets
      · exact absurd h.2.1 hbits
      · exact absurd h.2.2 hmeets
    · rename_i hwork
      rw [not_or, not_not, not_not] at hwork
      exact ⟨fun _ => ⟨htip, hwork⟩, fun _ => rfl⟩

theorem submit_of_accepted {n : LocalNode} {header : Header} (h : n.judge header = .accepted) :
    n.submit header = (.accepted,
      { n with tip := header.hash, height := n.height + 1, accepted := n.accepted ++ [header.hash] }) := by
  simp only [submit, h]

theorem submit_of_refused {n : LocalNode} {header : Header} (h : n.judge header ≠ .accepted) :
    n.submit header = (n.judge header, n) := by
  unfold submit
  split
  · exact absurd ‹_› h
  · rfl

theorem answer_submit (n : LocalNode) (header : Header) :
    (answer (.submit header) n).answer = some (.ok (decide (n.judge header = .accepted))) := by
  by_cases hjudge : n.judge header = .accepted
  · simp only [answer, submit_of_accepted hjudge, hjudge]
  · simp only [answer, submit_of_refused hjudge]

/-- What the chain of a node has grown by since the start. -/
structure Grown (start : LocalNode) (headers : List Header) (n : LocalNode) : Prop where
  bits : n.bits = start.bits
  peers : n.peers = start.peers
  accepted : n.accepted = start.accepted ++ headers.map Header.hash
  height : n.height = start.height + UInt64.ofNat headers.length
  tip : n.tip = (headers.getLast?.map Header.hash).getD start.tip
  /-- The first header builds on the tip at the start, and each other one on the one before. -/
  parents : headers.map Header.parent = (start.tip :: headers.map Header.hash).dropLast

variable {start n n' : LocalNode} {headers : List Header}

theorem grown_nil (start : LocalNode) : Grown start [] start :=
  ⟨rfl, rfl, (List.append_nil _).symm, (UInt64.add_zero _).symm, rfl, rfl⟩

theorem Grown.same (h : Grown start headers n) (hsame : n.SameChain n') : Grown start headers n' :=
  ⟨hsame.bits.trans h.bits, hsame.peers.trans h.peers, hsame.accepted.trans h.accepted,
    hsame.height.trans h.height, hsame.tip.trans h.tip, h.parents⟩

theorem Grown.took {header : Header} (h : Grown start headers n) (hjudge : n.judge header = .accepted) :
    Grown start (headers ++ [header]) (n.submit header).2 := by
  rw [submit_of_accepted hjudge]
  obtain ⟨hparent, -, -⟩ := judge_eq_accepted.1 hjudge
  refine ⟨h.bits, h.peers, ?_, ?_, ?_, ?_⟩
  · show n.accepted ++ [header.hash] = _
    rw [h.accepted, List.map_append, List.append_assoc]
    rfl
  · show n.height + 1 = _
    rw [h.height, List.length_append, List.length_singleton, UInt64.ofNat_add, UInt64.add_assoc]
    rfl
  · rw [List.getLast?_concat]
    rfl
  · have hlast : (start.tip :: headers.map Header.hash).getLast? = some n.tip := by
      rw [List.getLast?_cons, List.getLast?_map, h.tip]
    rw [List.map_append, List.map_append, ← List.cons_append, List.map_singleton, List.map_singleton,
      List.dropLast_concat, hparent, h.parents]
    exact List.dropLast_append_getLast? _ hlast

/-- A node that is asked keeps its chain, or takes the header that is handed in. -/
theorem Grown.answered (h : Grown start headers n) (who : Thread) (r : Request) :
    Grown start (headers ++ taken ((answer r n).answer.map (Call.mk who r)).toList) (answer r n).state := by
  have hsame {n' : LocalNode} (hsame : n.SameChain n') : Grown start (headers ++ []) n' := by
    rw [List.append_nil]
    exact h.same hsame
  cases r with
  | submit header =>
    by_cases hjudge : n.judge header = .accepted
    · have htook := h.took hjudge
      simp only [answer, submit_of_accepted hjudge] at htook ⊢
      exact htook
    · simp only [answer, submit_of_refused hjudge, hjudge]
      exact hsame (.refl n)
  | template payout reference => exact hsame ⟨rfl, rfl, rfl, rfl, rfl⟩
  | reference | proofOfWork | tip | height | peers | time => exact hsame ⟨rfl, rfl, rfl, rfl, rfl⟩

/-- However a node was asked, its chain has grown by the headers that it took. -/
theorem grown_of_served {called : List Call} (h : Served answer start called n) : Grown start (taken called) n := by
  induction h with
  | start => exact grown_nil start
  | call _ who r ih =>
    rw [taken_append]
    exact ih.answered who r

end LocalNode

end HeaderMiner
