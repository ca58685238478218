import HeaderMiner.Node.Scripted
import HeaderMiner.Proofs.Round.Cancellation
import Mathlib

/-!
# The lead of a round

Only the lead turns an interrupt, a move of the chain or the end of its slice into a stop of the round. After it has
raised the flag it makes no call of the node any more (`Worker.Phase.quits`), so it cannot crash: a lead that is done
leaves the flag up, and one that crashed has not raised it. Then nothing stops the other workers but a claim or a
worker that cannot be started (`lead_ended`), and an interrupt is ignored (`lead_crashed_interrupted`).
-/

namespace HeaderMiner

variable {σ : Type}

namespace Worker

/-- With the stop flag up, a worker goes on from here to its end without a call of the node. -/
def Phase.quits : Phase → Bool
  | deciding | finishing | exhausting | concluding | done => true
  | _ => false

variable {w w' : Worker} {b : Board} {interrupted : Bool} {moved : Prop} {new : List Entry}

theorem Goes.quits (h : w.Goes b interrupted w' new) (hb : b.stop = true) (hw : w.phase.quits = true) :
    w'.phase.quits = true := by
  cases h with
  | resume _ hnot =>
    rw [hb] at hnot
    cases hnot
  | crash hrequest =>
    rcases phase_of_request? hrequest with ⟨left, pending, hphase⟩ | hphase | hphase
    all_goals
      rw [hphase] at hw
      cases hw
  | stop | finish | finishLast | exhaust | conclude => rfl
  | rest => exact hw
  | scanNothing hphase | scan hphase | endWindow hphase | runOut hphase | hash hphase | tested hphase | dismiss hphase
  | mislead hphase | hit hphase | win hphase | lose hphase | announce hphase | close hphase | refresh hphase
  | lead hphase | follow hphase | notice hphase | watch hphase | cancel hphase | watchStop hphase
  | watchInterrupt hphase | wait hphase | sameTip hphase | newTip hphase | supersede hphase | abandon hphase =>
    rw [hphase] at hw
    cases hw

/-- A worker that raises the stop flag has claimed, or it is the lead and quits. -/
theorem Goes.quits_of_halts (h : w.Goes b interrupted w' new) (hwarranted : w.Warranted b interrupted moved)
    (hhalts : w.halts = true) : b.winner.isSome ∨ w.id = 0 ∧ w'.phase.quits = true := by
  cases h with
  | close hphase =>
    simp only [Warranted, hphase] at hwarranted
    exact .inl hwarranted
  | cancel hphase | abandon hphase | conclude hphase =>
    simp only [Warranted, hphase] at hwarranted
    exact .inr ⟨hwarranted.1, rfl⟩
  | crash hrequest =>
    rcases phase_of_request? hrequest with ⟨left, pending, hphase⟩ | hphase | hphase
    all_goals
      rw [halts, hphase] at hhalts
      cases hhalts
  | rest hended =>
    rw [hasEnded, decide_eq_true_iff] at hended
    rcases hended with hphase | hphase
    all_goals
      rw [halts, hphase] at hhalts
      cases hhalts
  | scanNothing hphase | scan hphase | endWindow hphase | runOut hphase | hash hphase | tested hphase | dismiss hphase
  | mislead hphase | hit hphase | win hphase | lose hphase | announce hphase | refresh hphase
  | lead hphase | follow hphase | notice hphase | watch hphase | watchStop hphase
  | watchInterrupt hphase | wait hphase | sameTip hphase | newTip hphase | supersede hphase | stop hphase
  | resume hphase | finish hphase | finishLast hphase | exhaust hphase =>
    rw [halts, hphase] at hhalts
    cases hhalts

end Worker

namespace Round

variable {r : Setup σ} {history : List Worker} {spawning : Spawning} {workers : Array Worker} {s : Shared σ}

theorem Search.lead_quits (h : Search r history spawning workers s) (hstop : s.board.stop = true) :
    (∃ worker, spawning = .failed worker) ∨ s.board.winner.isSome ∨
      ∃ lead : Worker, workers[0]? = some lead ∧ lead.phase.quits = true := by
  induction h with
  | opened => cases hstop
  | spawned _ _ ih => exact .inr ((ih hstop).resolve_left (by rintro ⟨_, ⟨⟩⟩))
  | refused => exact .inl ⟨_, rfl⟩
  | @stepped history _ workers s j v hsearch hv ih =>
    obtain ⟨new, -, hgoes⟩ := v.step_takesBranch r.node s
    have hself := Array.getElem?_setIfInBounds_self_of_lt (a := (v.step r.node s).1) (Array.getElem?_eq_some_iff.1 hv).1
    rw [v.step_board r.node s] at hstop ⊢
    cases hb : s.board.stop with
    | true =>
      rcases ih hb with hfailed | hwinner | ⟨lead, hlead, hquits⟩
      · exact .inl hfailed
      · exact .inr (.inl (hgoes.winner_stays hwinner))
      · rcases getElem?_stepped (v.step r.node s).1 hv hlead with ⟨-, rfl, hlead'⟩ | ⟨-, hlead'⟩
        · exact .inr (.inr ⟨_, hlead', hgoes.quits hb hquits⟩)
        · exact .inr (.inr ⟨lead, hlead', hquits⟩)
    | false =>
      rw [Worker.stop_writes, hb, Bool.false_or] at hstop
      rcases hgoes.quits_of_halts (hsearch.reasons.each j v hv) hstop with hwinner | ⟨hzero, hquits⟩
      · exact .inr (.inl (hgoes.winner_stays hwinner))
      · obtain rfl : j = 0 := (hsearch.id_eq hv).symm.trans hzero
        exact .inr (.inr ⟨_, hself, hquits⟩)
  | interrupted _ ih | elapsed _ _ ih => exact ih hstop

theorem Search.reason_of_lead_crashed (h : Search r history spawning workers s) {lead : Worker}
    (hlead : workers[0]? = some lead) (hcrashed : lead.phase = .crashed) (hstop : s.board.stop = true) :
    s.board.winner.isSome ∨ ∃ worker, spawning = .failed worker := by
  rcases h.lead_quits hstop with hfailed | hwinner | ⟨lead', hlead', hquits⟩
  · exact .inr hfailed
  · exact .inl hwinner
  · obtain rfl : lead = lead' := Option.some.inj (hlead.symm.trans hlead')
    rw [hcrashed] at hquits
    cases hquits

/-- In every state of a search, the stop flag is up if the lead is done. If the lead crashed, the flag is up only if
some worker has claimed the round or one could not be started; without that the other workers end by a crash or,
interrupted or not, with their whole slices hashed. -/
theorem lead_ended (r : Setup σ) (events : List Event) :
    (∀ b workers lead, r.searching? events = some (b, workers) → workers[0]? = some lead → lead.phase = .done →
      b.stop = true) ∧
    ∀ b workers spawning lead, r.searching? events = some (b, workers) → r.spawning? events = some spawning →
      workers[0]? = some lead → lead.phase = .crashed →
      (b.stop = true → b.winner.isSome ∨ ∃ worker, spawning = .failed worker) ∧
      (b.winner = none → (∀ worker, spawning ≠ .failed worker) →
        ∀ (i : Nat) (w : Worker), workers[i]? = some w → w.phase = .done →
          w.exit = .exhausted ∧
          (hashed (r.actors events) i).map (·.toNat) = List.range' w.slice.start w.slice.size) := by
  refine ⟨fun b workers lead hsearching => ?_, fun b workers spawning lead hsearching hspawning hlead hcrashed => ?_⟩
  · obtain ⟨_, -, h⟩ := search_of_searching? hsearching
    exact h.stop_of_lead_done
  · obtain ⟨spawning', hspawning', h⟩ := search_of_searching? hsearching
    obtain rfl : spawning = spawning' := Option.some.inj (hspawning.symm.trans hspawning')
    have hreason := h.reason_of_lead_crashed hlead hcrashed
    refine ⟨hreason, fun hnone hstarted i w hw hdone => ?_⟩
    have hexit : w.exit = .exhausted := by
      by_contra hnot
      have hwarranted := h.reasons.each i w hw
      simp only [Worker.Warranted, hdone] at hwarranted
      rcases hreason (hwarranted hnot) with hwinner | ⟨worker, hfailed⟩
      · rw [hnone] at hwinner
        cases hwinner
      · exact hstarted worker hfailed
    obtain ⟨slice, hslice, hreport, hhashed⟩ := h.report_exhausted hw hexit
    obtain rfl : w.slice = slice := congrArg WorkerReport.range hreport
    exact ⟨hexit, hhashed⟩

/-- The process is interrupted, and the lead crashes as it checks the first nonce of its slice. The other worker goes
through a resync, sees no stop flag and begins another window, with 199 of its 200 nonces still to come. Only if it
goes on to the last of them is the node asked for the time 200 times, and then a block is mined elsewhere. -/
theorem lead_crashed_interrupted :
    let header : Header :=
      { version := 0, prevBlockHash := BlockHash.zero.bytes, merkleRoot := Bytes.zero 32,
        referenceHash := Bytes.zero 32, time := 1700000000, bits := 0x1f00ffff, nonce := 0 }
    let node := ((ScriptedNode.ofLocal { bits := header.bits, clock := fun _ => header.time }).setScript .proofOfWork
      { crashOn := [1] }).setScript .time { advanceOn := [200] }
    let r : Setup ScriptedNode :=
      ⟨{ threads := some 2, lanes := some .one, resyncBatches := 1 }, {}, ScriptedNode.answer, Work.ofHeader header,
        ⟨209042, 209442, by decide, by decide⟩, { node, interrupted := true }⟩
    let events : List Event :=
      List.replicate 3 (.step .session) ++ List.replicate 3 (.step (.worker 0)) ++
        List.replicate 8 (.step (.worker 1))
    ∃ b workers lead other, r.searching? events = some (b, workers) ∧ (r.run events).world.interrupted = true ∧
      workers[0]? = some lead ∧ lead.phase = .crashed ∧ b.stop = false ∧
      workers[1]? = some other ∧ other.phase = .hashing 1 ∧ other.hashes = 1 ∧ other.remaining = 199 := by
  intro header node r events
  have hsearch : (r.searching? events).any (fun found => found.1.stop = false ∧
      found.2[0]?.any (fun lead => lead.phase = .crashed) ∧
      found.2[1]?.any (fun other => other.phase = .hashing 1 ∧ other.hashes = 1 ∧ other.remaining = 199)) = true := by
    decide +kernel
  obtain ⟨⟨b, workers⟩, hsearching, hends⟩ := (Option.any_eq_true _ _).1 hsearch
  obtain ⟨hstop, hlead, hother⟩ := of_decide_eq_true hends
  obtain ⟨lead, hlead, hcrashed⟩ := (Option.any_eq_true _ _).1 hlead
  obtain ⟨other, hother, hphase⟩ := (Option.any_eq_true _ _).1 hother
  have hint : (r.run events).world.interrupted = true := (r.interrupted_run events).2 (.inl rfl)
  exact ⟨b, workers, lead, other, hsearching, hint, hlead, of_decide_eq_true hcrashed, hstop, hother,
    of_decide_eq_true hphase⟩

end Round

end HeaderMiner
