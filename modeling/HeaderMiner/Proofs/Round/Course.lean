import HeaderMiner.Proofs.Journal
import HeaderMiner.Round.Worker
import Mathlib

/-!
# The course of a worker

`Worker.Goes` lists the branches of a step: the phase in which each is taken, what it reads of the board and of the
interrupt, the worker that it leads to and the calls that the node answers. Every step takes one of them
(`step_takesBranch`). What a step writes on the board is fixed by the worker before it (`step_board`), and so is the
request that it makes, through which alone it changes the node and the interrupt (`step_asks`); the request and its
answer are what it adds to the calls in the journal (`step_serves`).
-/

namespace HeaderMiner.Worker

variable {σ : Type}

/-- What the next action of a worker makes of the board. -/
def writes (w : Worker) (b : Board) : Board :=
  match w.phase with
  | .claiming solution => (b.offer solution).2
  | .announcing _ => b.markFound
  | .closing _ _ | .cancelling | .abandoning | .concluding => b.halt
  | .publishing | .finishing => b.publish w.id w.hashes
  | .superseding => b.markSuperseded
  | .exhausting => b.markExhausted
  | _ => b

/-- The request that the next action of a worker makes. -/
def request? (w : Worker) : Option Request :=
  match w.phase with
  | .testing _ ((_, digest) :: _) =>
    if (Filter.ofWork w.work).precheck digest then
      some (.proofOfWork digest.blockHash w.work.header.bits)
    else none
  | .refreshing => some .time
  | .askingTip => some .tip
  | _ => none

/-- The branches of a step: from a worker that reads a board and the interrupt to the next worker, with the entries
that the step adds to the journal. -/
inductive Goes (w : Worker) (b : Board) (interrupted : Bool) : Worker → List Entry → Prop
  | scanNothing {new : List Entry} (hw : w.phase = .starting) (hempty : w.slice.isEmpty = true)
      (hnew : calls new = []) : Goes w b interrupted (w.leave .exhausted) new
  | scan {new : List Entry} (hw : w.phase = .starting) (hmore : w.slice.isEmpty = false)
      (hnew : calls new = []) : Goes w b interrupted w.openWindow new
  | endWindow (hw : w.phase = .hashing 0) : Goes w b interrupted (w.goto .refreshing) []
  | runOut {left : Nat} (hw : w.phase = .hashing (left + 1)) (hnone : w.remaining = 0) :
      Goes w b interrupted (w.leave .exhausted) []
  | hash {left : Nat} (hw : w.phase = .hashing (left + 1)) (hmore : w.remaining ≠ 0) :
      Goes w b interrupted (w.hashBatch left) []
  | tested {left : Nat} (hw : w.phase = .testing left []) : Goes w b interrupted (w.goto (.hashing left)) []
  | dismiss {left : Nat} {x : UInt32 × Digest} {pending : List (UInt32 × Digest)}
      (hw : w.phase = .testing left (x :: pending)) (hx : (Filter.ofWork w.work).precheck x.2 = false) :
      Goes w b interrupted (w.goto (.testing left pending)) []
  | mislead {left : Nat} {nonce : UInt32} {digest : Digest} {pending : List (UInt32 × Digest)}
      {new : List Entry} (hw : w.phase = .testing left ((nonce, digest) :: pending))
      (hnew : calls new = [⟨w.thread, .proofOfWork digest.blockHash w.work.header.bits, false⟩]) :
      Goes w b interrupted { w with falsePositives := w.falsePositives + 1, phase := .testing left pending } new
  | hit {left : Nat} {nonce : UInt32} {digest : Digest} {pending : List (UInt32 × Digest)}
      {new : List Entry} (hw : w.phase = .testing left ((nonce, digest) :: pending))
      (hnew : calls new = [⟨w.thread, .proofOfWork digest.blockHash w.work.header.bits, true⟩]) :
      Goes w b interrupted (w.goto (.claiming (w.solution nonce digest.blockHash))) new
  | crash {new : List Entry} (hw : w.request?.isSome) (hnew : calls new = []) :
      Goes w b interrupted (w.goto .crashed) new
  | win {s : Solution} (hw : w.phase = .claiming s) (hb : b.winner = none) :
      Goes w b interrupted (w.goto (.announcing s)) []
  | lose {s s' : Solution} (hw : w.phase = .claiming s) (hb : b.winner = some s') :
      Goes w b interrupted (w.goto (.closing s false)) []
  | announce {s : Solution} (hw : w.phase = .announcing s) : Goes w b interrupted (w.goto (.closing s true)) []
  | close {s : Solution} {won : Bool} {new : List Entry} (hw : w.phase = .closing s won)
      (hnew : calls new = []) : Goes w b interrupted (w.leave (if won then .solved else .stopped)) new
  | refresh {time : UInt32} {new : List Entry} (hw : w.phase = .refreshing)
      (hnew : calls new = [⟨w.thread, .time, time⟩]) :
      Goes w b interrupted ((w.setTime time).goto .publishing) new
  | lead (hw : w.phase = .publishing) (hlead : w.isLead = true) : Goes w b interrupted (w.goto .observing) []
  | follow (hw : w.phase = .publishing) (hlead : w.isLead = false) : Goes w b interrupted (w.goto .deciding) []
  | notice (hw : w.phase = .observing) (hint : interrupted = true) :
      Goes w b interrupted (w.goto .cancelling) []
  | watch (hw : w.phase = .observing) (hint : interrupted = false) :
      Goes w b interrupted (w.goto .watchingStop) []
  | cancel (hw : w.phase = .cancelling) : Goes w b interrupted (w.goto .deciding) []
  | watchStop (hw : w.phase = .watchingStop) :
      Goes w b interrupted (w.goto (if b.stop then .deciding else .watchingInterrupt)) []
  | watchInterrupt (hw : w.phase = .watchingInterrupt) :
      Goes w b interrupted (w.goto (if interrupted then .deciding else .askingTip)) []
  | wait {new : List Entry} (hw : w.phase = .askingTip) (hnew : calls new = [⟨w.thread, .tip, none⟩]) :
      Goes w b interrupted (w.goto .watchingStop) new
  | sameTip {new : List Entry} (hw : w.phase = .askingTip)
      (hnew : calls new = [⟨w.thread, .tip, some w.work.header.prevBlockHash⟩]) :
      Goes w b interrupted (w.goto .deciding) new
  | newTip {tip : BlockHash} {new : List Entry} (hw : w.phase = .askingTip)
      (hnew : calls new = [⟨w.thread, .tip, some tip⟩]) (htip : tip ≠ w.work.header.prevBlockHash) :
      Goes w b interrupted (w.goto .superseding) new
  | supersede (hw : w.phase = .superseding) : Goes w b interrupted (w.goto .abandoning) []
  | abandon (hw : w.phase = .abandoning) : Goes w b interrupted (w.goto .deciding) []
  | stop (hw : w.phase = .deciding) (hb : b.stop = true) : Goes w b interrupted (w.leave .stopped) []
  | resume (hw : w.phase = .deciding) (hb : b.stop = false) : Goes w b interrupted w.openWindow []
  | finish {new : List Entry} (hw : w.phase = .finishing) (hexit : w.exit = .exhausted → w.isLead = false)
      (hnew : calls new = []) : Goes w b interrupted (w.goto .done) new
  | finishLast {new : List Entry} (hw : w.phase = .finishing) (hexit : w.exit = .exhausted)
      (hlead : w.isLead = true) (hnew : calls new = []) : Goes w b interrupted (w.goto .exhausting) new
  | exhaust (hw : w.phase = .exhausting) : Goes w b interrupted (w.goto .concluding) []
  | conclude (hw : w.phase = .concluding) : Goes w b interrupted (w.goto .done) []
  | rest (hw : w.hasEnded = true) : Goes w b interrupted w []

section Step

variable (node : Node σ) (w : Worker) (s : Shared σ)

/-- The result of a step is that of a branch, with the entries that it adds to the journal. -/
def TakesBranch (r : Worker × Shared σ) : Prop :=
  ∃ new, r.2.world.journal.toList = s.world.journal.toList ++ new ∧
    w.Goes s.board s.world.interrupted r.1 new

variable {w s} {w' : Worker} {b : Board}

theorem takesBranch_silent (h : w.Goes s.board s.world.interrupted w' []) :
    w.TakesBranch s (w', { s with board := b }) :=
  ⟨[], by simp, h⟩

theorem takesBranch_log {n : Notice} (h : w.Goes s.board s.world.interrupted w' [.logged n]) :
    w.TakesBranch s (w', ⟨b, s.world.log n⟩) :=
  ⟨[.logged n], World.journal_log _ _, h⟩

theorem takesBranch_call {r : Request} {answer : Option r.Answer} {world : World σ}
    (hcall : s.world.call node w.thread r = (answer, world)) {after : List Entry} {s' : Shared σ}
    (hs' : s'.world.journal.toList = world.journal.toList ++ after) (hafter : calls after = [])
    (h : ∀ new, calls new = (answer.map (Call.mk w.thread r)).toList →
      w.Goes s.board s.world.interrupted w' new) : w.TakesBranch s (w', s') := by
  obtain ⟨new, hjournal, hnew⟩ := s.world.calls_of_call hcall hs' hafter
  exact ⟨new, hjournal, h new hnew⟩

theorem takesBranch_testing {left : Nat} {pending : List (UInt32 × Digest)}
    (hw : w.phase = .testing left pending) : w.TakesBranch s (w.step node s) := by
  cases pending with
  | nil =>
    simp only [step, hw]
    exact takesBranch_silent (.tested hw)
  | cons x pending =>
    obtain ⟨nonce, digest⟩ := x
    simp only [step, hw]
    split
    · rename_i hpre
      have hreq : w.request?.isSome := by simp [request?, hw, hpre]
      simp only [Filter.check, Filter.ofWork, Filter.ofTarget]
      cases hcall : s.world.call node w.thread (.proofOfWork digest.blockHash w.work.header.bits) with
      | mk answer world =>
        rcases answer with _ | _ | _
        · exact takesBranch_call node hcall (List.append_nil _).symm rfl fun _ => .crash hreq
        · exact takesBranch_call node hcall (List.append_nil _).symm rfl fun _ => .mislead hw
        · exact takesBranch_call node hcall (List.append_nil _).symm rfl fun _ => .hit hw
    · rename_i hpre
      exact takesBranch_silent (.dismiss hw (by simpa using hpre))

theorem takesBranch_refreshing (hw : w.phase = .refreshing) : w.TakesBranch s (w.step node s) := by
  simp only [step, hw]
  cases hcall : s.world.call node w.thread .time with
  | mk answer world =>
    cases answer with
    | none => exact takesBranch_call node hcall (List.append_nil _).symm rfl fun _ => .crash (by simp [request?, hw])
    | some time => exact takesBranch_call node hcall (List.append_nil _).symm rfl fun _ => .refresh hw

theorem takesBranch_askingTip (hw : w.phase = .askingTip) : w.TakesBranch s (w.step node s) := by
  simp only [step, hw]
  cases hcall : s.world.call node w.thread .tip with
  | mk answer world =>
    rcases answer with _ | _ | tip
    · exact takesBranch_call node hcall (List.append_nil _).symm rfl fun _ => .crash (by simp [request?, hw])
    · exact takesBranch_call node hcall (World.journal_sleep _ _ _) rfl fun _ => .wait hw
    · by_cases htip : tip = w.work.header.prevBlockHash
      · simp only [htip, if_true]
        subst htip
        exact takesBranch_call node hcall (List.append_nil _).symm rfl fun _ => .sameTip hw
      · simp only [htip, if_false]
        exact takesBranch_call node hcall (World.journal_log _ _) rfl fun _ hnew => .newTip hw hnew htip

variable (w s)

theorem step_takesBranch : w.TakesBranch s (w.step node s) := by
  cases hw : w.phase with
  | starting =>
    simp only [step, hw]
    split
    · rename_i hempty
      exact takesBranch_log (.scanNothing hw hempty rfl)
    · rename_i hmore
      exact takesBranch_log (.scan hw (by simpa using hmore) rfl)
  | hashing left =>
    cases left with
    | zero =>
      simp only [step, hw]
      exact takesBranch_silent (.endWindow hw)
    | succ left =>
      simp only [step, hw]
      split
      · exact takesBranch_silent (.runOut hw ‹_›)
      · exact takesBranch_silent (.hash hw ‹_›)
  | testing left pending => exact takesBranch_testing node hw
  | claiming solution =>
    simp only [step, hw]
    unfold Board.offer
    split
    · exact takesBranch_silent (.win hw ‹_›)
    · exact takesBranch_silent (.lose hw ‹_›)
  | announcing solution =>
    simp only [step, hw]
    exact takesBranch_silent (.announce hw)
  | closing solution won =>
    simp only [step, hw]
    cases won with
    | true => exact takesBranch_log (.close hw rfl)
    | false => exact takesBranch_silent (.close hw rfl)
  | refreshing => exact takesBranch_refreshing node hw
  | publishing =>
    simp only [step, hw]
    split
    · exact takesBranch_silent (.lead hw ‹_›)
    · rename_i hlead
      exact takesBranch_silent (.follow hw (by simpa using hlead))
  | observing =>
    simp only [step, hw]
    split
    · exact takesBranch_silent (.notice hw ‹_›)
    · rename_i hint
      exact takesBranch_silent (.watch hw (by simpa using hint))
  | cancelling =>
    simp only [step, hw]
    exact takesBranch_silent (.cancel hw)
  | watchingStop =>
    simp only [step, hw]
    exact takesBranch_silent (.watchStop hw)
  | watchingInterrupt =>
    simp only [step, hw]
    exact takesBranch_silent (.watchInterrupt hw)
  | askingTip => exact takesBranch_askingTip node hw
  | superseding =>
    simp only [step, hw]
    exact takesBranch_silent (.supersede hw)
  | abandoning =>
    simp only [step, hw]
    exact takesBranch_silent (.abandon hw)
  | deciding =>
    simp only [step, hw]
    split
    · exact takesBranch_silent (.stop hw ‹_›)
    · rename_i hstop
      exact takesBranch_silent (.resume hw (by simpa using hstop))
  | finishing =>
    simp only [step, hw]
    by_cases hexit : w.exit = .exhausted
    · simp only [hexit, if_true]
      split
      · exact takesBranch_log (.finishLast hw hexit ‹_› rfl)
      · rename_i hlead
        exact takesBranch_log (.finish hw (fun _ => by simpa using hlead) rfl)
    · simp only [hexit, if_false]
      exact takesBranch_silent (.finish hw (fun h => absurd h hexit) rfl)
  | exhausting =>
    simp only [step, hw]
    exact takesBranch_silent (.exhaust hw)
  | concluding =>
    simp only [step, hw]
    exact takesBranch_silent (.conclude hw)
  | done | crashed =>
    simp only [step, hw]
    exact takesBranch_silent (.rest (by simp [hasEnded, hw]))

theorem step_board : (w.step node s).2.board = w.writes s.board := by
  unfold step writes
  cases hw : w.phase with
  | hashing left => cases left <;> rfl
  | testing left pending =>
    cases pending with
    | nil => rfl
    | cons x pending =>
      simp only [Filter.check]
      split
      · split <;> rfl
      · rfl
  | closing s won => cases won <;> rfl
  | refreshing =>
    simp only
    split <;> rfl
  | askingTip =>
    simp only
    split
    · rfl
    · rfl
    · split <;> rfl
  | finishing =>
    simp only
    split <;> rfl
  | _ => rfl

theorem step_asks : s.world.Asks node w.request? (w.step node s).2.world := by
  unfold step request?
  cases hw : w.phase with
  | hashing left => cases left <;> exact s.world.asks_none node
  | testing left pending =>
    cases pending with
    | nil => exact s.world.asks_none node
    | cons x pending =>
      simp only [Filter.check]
      split
      · split <;> exact s.world.asks_call node _ _
      · exact s.world.asks_none node
  | closing s' won => cases won <;> exact s.world.asks_none node
  | refreshing =>
    simp only
    split <;> exact s.world.asks_call node _ _
  | askingTip =>
    simp only
    split
    · exact s.world.asks_call node _ _
    · exact s.world.asks_call node _ _
    · split <;> exact s.world.asks_call node _ _
  | finishing =>
    simp only
    split <;> exact s.world.asks_none node
  | _ => exact s.world.asks_none node

theorem step_serves : s.world.Serves node w.thread w.request? (w.step node s).2.world := by
  have hidle : s.world.Serves node w.thread none s.world := (World.Rests.refl s.world).serves node w.thread
  unfold step request?
  cases hw : w.phase with
  | starting => exact hidle.log _
  | hashing left => cases left <;> exact hidle
  | testing left pending =>
    cases pending with
    | nil => exact hidle
    | cons x pending =>
      simp only [Filter.check]
      split
      · split <;> exact s.world.serves_call rfl
      · exact hidle
  | closing s' won =>
    cases won with
    | true => exact hidle.log _
    | false => exact hidle
  | refreshing =>
    simp only
    split <;> exact s.world.serves_call rfl
  | askingTip =>
    simp only
    split
    · exact s.world.serves_call rfl
    · exact (s.world.serves_call rfl).sleep _ _
    · split
      · exact s.world.serves_call rfl
      · exact (s.world.serves_call rfl).log _
  | finishing =>
    simp only
    split
    · exact hidle.log _
    · exact hidle
  | _ => exact hidle

end Step

end HeaderMiner.Worker
