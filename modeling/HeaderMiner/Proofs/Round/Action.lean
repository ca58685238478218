import HeaderMiner.Proofs.Round.Course
import Mathlib

/-!
# The actions of a worker

`Worker.Acts` lists what one action can do to the worker and to the board, and what it adds to the
journal. A worker searches until it has a solution or gives up; a solution is claimed, announced and
closed, each with a write of its own; then the exit is settled and the counter is made known for the last
time. Every branch of a step is one of these actions (`Goes.acts`), so what all actions preserve holds along every
run.
-/

namespace HeaderMiner

variable {σ : Type}

/-- The thread made all calls among the entries, and none of them hands in a header. -/
def SearchesFor (who : Thread) (entries : List Entry) : Prop :=
  ∀ who' r a, .called who' r a ∈ entries → who' = who ∧ ∀ header, r ≠ .submit header

theorem searchesFor_of_calls_eq_nil {who : Thread} {entries : List Entry} (h : calls entries = []) :
    SearchesFor who entries := by
  intro who' r a ha
  rw [← mem_calls, h] at ha
  cases ha

theorem searchesFor_of_calls {who : Thread} {entries : List Entry} {request : Request} {answer : request.Answer}
    (h : calls entries = [⟨who, request, answer⟩]) (hr : ∀ header, request ≠ .submit header) :
    SearchesFor who entries := by
  intro who' r a ha
  rw [← mem_calls, h, List.mem_singleton] at ha
  cases ha
  exact ⟨rfl, hr⟩

theorem SearchesFor.readings_eq_nil {who other : Thread} {entries : List Entry} (h : SearchesFor who entries)
    (hne : other ≠ who) : readings other entries = [] :=
  HeaderMiner.readings_eq_nil fun _ ht => hne (h _ _ _ ht).1

namespace Worker

/-- The digests of a batch that are still to be tested. -/
def Phase.pending : Phase → List (UInt32 × Digest)
  | testing _ pending => pending
  | _ => []

/-- The worker has no solution and has not given up. -/
def Phase.searches : Phase → Bool
  | claiming _ | announcing _ | closing _ _ | finishing | exhausting | concluding | done | crashed => false
  | _ => true

/-- The exit is final. -/
def Phase.settled : Phase → Bool
  | finishing | exhausting | concluding | done => true
  | _ => false

/-- The final number of hashes is on the board. -/
def Phase.accounted : Phase → Bool
  | exhausting | concluding | done => true
  | _ => false

/-- The claim that the next action of the worker makes. -/
def claims? (w : Worker) : Option Solution :=
  match w.phase with
  | .claiming s => some s
  | _ => none

theorem phase_of_claims? {w : Worker} {s : Solution} (h : w.claims? = some s) : w.phase = .claiming s := by
  unfold claims? at h
  split at h
  · rename_i hw
    rw [hw, Option.some.inj h]
  · cases h

theorem claims?_of_searches {w : Worker} (h : w.phase.searches) : w.claims? = none := by
  unfold claims?
  split
  · rename_i hw
    rw [hw] at h
    cases h
  · rfl

/-- What a searching worker writes on the board: its counter, or a flag of no meaning for claims. -/
def Touches (w : Worker) (b b' : Board) : Prop :=
  b' = b ∨ b' = b.publish w.id w.hashes ∨ b' = b.halt ∨ b' = b.markSuperseded

/-- What one action can make of a worker `w` and a board `b`, with the entries it writes. -/
inductive Acts (w : Worker) (b : Board) : Worker → Board → List Entry → Prop
  /-- Go on searching, without a test of a digest or a new time. -/
  | wander {p : Phase} {b' : Board} {new : List Entry} (hw : w.phase.searches) (hp : p.searches)
      (hpending : p.pending = []) (hb : w.Touches b b') (hnew : readings w.thread new = []) :
      Acts w b (w.goto p) b' new
  | hash {left : Nat} (hw : w.phase = .hashing (left + 1)) (hmore : w.remaining ≠ 0) :
      Acts w b (w.hashBatch left) b []
  /-- A digest fails one of the tests. -/
  | pass {left falsePositives : Nat} {x : UInt32 × Digest} {pending : List (UInt32 × Digest)}
      {new : List Entry} (hw : w.phase = .testing left (x :: pending))
      (hnew : readings w.thread new = []) :
      Acts w b { w with falsePositives, phase := .testing left pending } b new
  /-- A digest passes both tests. -/
  | hit {left : Nat} {nonce : UInt32} {digest : Digest} {pending : List (UInt32 × Digest)}
      {new : List Entry} (hw : w.phase = .testing left ((nonce, digest) :: pending))
      (hnew : readings w.thread new = [])
      (hgood : .called w.thread (.proofOfWork digest.blockHash w.work.header.bits) true ∈ new) :
      Acts w b (w.goto (.claiming (w.solution nonce digest.blockHash))) b new
  | refresh {time : UInt32} {new : List Entry} (hw : w.phase = .refreshing)
      (hnew : readings w.thread new = [time]) :
      Acts w b ((w.setTime time).goto .publishing) b new
  | crash {new : List Entry} (hw : w.phase.searches) (hnew : readings w.thread new = []) :
      Acts w b (w.goto .crashed) b new
  | giveUp {exit : WorkerExit} {new : List Entry} (hw : w.phase.searches) (hexit : exit ≠ .solved)
      (hnew : readings w.thread new = []) :
      Acts w b (w.leave exit) b new
  | win {s : Solution} (hw : w.phase = .claiming s) (hb : b.winner = none) :
      Acts w b (w.goto (.announcing s)) { b with winner := some s } []
  | lose {s s' : Solution} (hw : w.phase = .claiming s) (hb : b.winner = some s') :
      Acts w b (w.goto (.closing s false)) b []
  | announce {s : Solution} (hw : w.phase = .announcing s) :
      Acts w b (w.goto (.closing s true)) b.markFound []
  | close {s : Solution} {won : Bool} {new : List Entry} (hw : w.phase = .closing s won)
      (hnew : readings w.thread new = []) :
      Acts w b (w.leave (if won then .solved else .stopped)) b.halt new
  | finish {p : Phase} {new : List Entry} (hw : w.phase = .finishing) (hp : p = .exhausting ∨ p = .done)
      (hnew : readings w.thread new = []) :
      Acts w b (w.goto p) (b.publish w.id w.hashes) new
  | exhaust (hw : w.phase = .exhausting) : Acts w b (w.goto .concluding) b.markExhausted []
  | conclude (hw : w.phase = .concluding) : Acts w b (w.goto .done) b.halt []
  | rest (hw : w.hasEnded) : Acts w b w b []

theorem searches_of_phase {w : Worker} {p : Phase} (hw : w.phase = p) (hp : p.searches) : w.phase.searches :=
  hw ▸ hp

/-- A worker calls the node to check a candidate, for the time or for the tip. -/
theorem phase_of_request? {w : Worker} (hw : w.request?.isSome) :
    (∃ left pending, w.phase = .testing left pending) ∨ w.phase = .refreshing ∨ w.phase = .askingTip := by
  unfold request? at hw
  split at hw
  · exact .inl ⟨_, _, ‹_›⟩
  · exact .inr (.inl ‹_›)
  · exact .inr (.inr ‹_›)
  · cases hw

theorem searches_of_request? {w : Worker} (hw : w.request?.isSome) : w.phase.searches := by
  rcases phase_of_request? hw with ⟨left, pending, hphase⟩ | hphase | hphase
  · exact searches_of_phase hphase rfl
  · exact searches_of_phase hphase rfl
  · exact searches_of_phase hphase rfl

section Branch

variable {w w' : Worker} {b : Board} {interrupted : Bool} {new : List Entry}

theorem Goes.searchesFor (h : w.Goes b interrupted w' new) : SearchesFor w.thread new := by
  cases h with
  | mislead _ hnew | hit _ hnew | refresh _ hnew | wait _ hnew | sameTip _ hnew | newTip _ hnew =>
    exact searchesFor_of_calls hnew fun _ => by rintro ⟨⟩
  | scanNothing _ _ hnew | scan _ _ hnew | crash _ hnew | close _ hnew | finish _ _ hnew
  | finishLast _ _ _ hnew => exact searchesFor_of_calls_eq_nil hnew
  | _ => exact searchesFor_of_calls_eq_nil rfl

/-- Every branch of a step is an action. -/
theorem Goes.acts (h : w.Goes b interrupted w' new) : w.Acts b w' (w.writes b) new := by
  have hreadings {c : Call} (hnew : calls new = [c]) : readings w.thread new = (c.reading w.thread).toList := by
    rw [readings_eq_calls, hnew]
    cases hc : c.reading w.thread <;> simp [hc]
  have hsilent (hnew : calls new = []) : readings w.thread new = [] := by
    rw [readings_eq_calls, hnew]
    rfl
  cases h with
  | scanNothing hw _ hnew =>
    simp only [writes, hw]
    exact .giveUp (searches_of_phase hw rfl) (by decide) (hsilent hnew)
  | scan hw _ hnew =>
    simp only [writes, hw]
    exact .wander (searches_of_phase hw rfl) rfl rfl (.inl rfl) (hsilent hnew)
  | runOut hw =>
    simp only [writes, hw]
    exact .giveUp (searches_of_phase hw rfl) (by decide) rfl
  | hash hw hmore =>
    simp only [writes, hw]
    exact .hash hw hmore
  | endWindow hw | tested hw | notice hw | watch hw | resume hw =>
    simp only [writes, hw]
    exact .wander (searches_of_phase hw rfl) rfl rfl (.inl rfl) rfl
  | dismiss hw =>
    simp only [writes, hw]
    exact .pass hw rfl
  | mislead hw hnew =>
    simp only [writes, hw]
    exact .pass hw (hreadings hnew)
  | hit hw hnew =>
    simp only [writes, hw]
    refine .hit hw (hreadings hnew) (mem_calls.1 ?_)
    rw [hnew]
    exact List.mem_singleton_self _
  | crash hw hnew =>
    have hwrites : w.writes b = b := by
      unfold request? at hw
      unfold writes
      split at hw <;> simp_all
    rw [hwrites]
    exact .crash (searches_of_request? hw) (hsilent hnew)
  | win hw hb =>
    simp only [writes, hw, Board.offer, hb]
    exact .win hw hb
  | lose hw hb =>
    simp only [writes, hw, Board.offer, hb]
    exact .lose hw hb
  | announce hw =>
    simp only [writes, hw]
    exact .announce hw
  | close hw hnew =>
    simp only [writes, hw]
    exact .close hw (hsilent hnew)
  | refresh hw hnew =>
    simp only [writes, hw]
    refine .refresh hw ?_
    rw [hreadings hnew, Call.reading, if_pos rfl]
    rfl
  | lead hw | follow hw =>
    simp only [writes, hw]
    exact .wander (searches_of_phase hw rfl) rfl rfl (.inr (.inl rfl)) rfl
  | cancel hw | abandon hw =>
    simp only [writes, hw]
    exact .wander (searches_of_phase hw rfl) rfl rfl (.inr (.inr (.inl rfl))) rfl
  | watchStop hw | watchInterrupt hw =>
    simp only [writes, hw]
    split <;> exact .wander (searches_of_phase hw rfl) rfl rfl (.inl rfl) rfl
  | wait hw hnew | sameTip hw hnew | newTip hw hnew =>
    simp only [writes, hw]
    exact .wander (searches_of_phase hw rfl) rfl rfl (.inl rfl) (hreadings hnew)
  | supersede hw =>
    simp only [writes, hw]
    exact .wander (searches_of_phase hw rfl) rfl rfl (.inr (.inr (.inr rfl))) rfl
  | stop hw =>
    simp only [writes, hw]
    exact .giveUp (searches_of_phase hw rfl) (by decide) rfl
  | finish hw _ hnew =>
    simp only [writes, hw]
    exact .finish hw (.inr rfl) (hsilent hnew)
  | finishLast hw _ _ hnew =>
    simp only [writes, hw]
    exact .finish hw (.inl rfl) (hsilent hnew)
  | exhaust hw =>
    simp only [writes, hw]
    exact .exhaust hw
  | conclude hw =>
    simp only [writes, hw]
    exact .conclude hw
  | rest hw =>
    have hwrites : w.writes b = b := by
      rw [hasEnded, decide_eq_true_iff] at hw
      rcases hw with hw | hw <;> simp only [writes, hw]
    rw [hwrites]
    exact .rest hw

end Branch

section Step

variable (node : Node σ) (w : Worker) (s : Shared σ)

/-- The result of a step is that of an action, with calls of the worker's own alone. -/
def IsAction (r : Worker × Shared σ) : Prop :=
  ∃ new, r.2.world.journal.toList = s.world.journal.toList ++ new ∧ SearchesFor w.thread new ∧
    w.Acts s.board r.1 r.2.board new

theorem step_isAction : w.IsAction s (w.step node s) := by
  obtain ⟨new, hjournal, hgoes⟩ := w.step_takesBranch node s
  refine ⟨new, hjournal, hgoes.searchesFor, ?_⟩
  rw [step_board]
  exact hgoes.acts

end Step

section Frame

variable {w w' : Worker} {b b' : Board} {new : List Entry}

/-- One worker at two moments. -/
structure SameTask (w w' : Worker) : Prop where
  id : w'.id = w.id
  slice : w'.slice = w.slice
  work : w'.work = w.work
  settings : w'.settings = w.settings

theorem SameTask.refl (w : Worker) : w.SameTask w := ⟨rfl, rfl, rfl, rfl⟩

theorem SameTask.trans {w₁ w₂ w₃ : Worker} (h : w₁.SameTask w₂) (h' : w₂.SameTask w₃) : w₁.SameTask w₃ :=
  ⟨h'.id.trans h.id, h'.slice.trans h.slice, h'.work.trans h.work, h'.settings.trans h.settings⟩

theorem sameTask_setTime (w : Worker) (t : UInt32) : w.SameTask (w.setTime t) := by
  unfold setTime
  split
  · exact .refl w
  · exact ⟨rfl, rfl, rfl, rfl⟩

theorem Acts.sameTask (h : w.Acts b w' b' new) : w.SameTask w' := by
  cases h with
  | refresh => exact (sameTask_setTime w _).trans ⟨rfl, rfl, rfl, rfl⟩
  | _ => exact ⟨rfl, rfl, rfl, rfl⟩

theorem Touches.winner (h : w.Touches b b') : b'.winner = b.winner := by
  rcases h with rfl | rfl | rfl | rfl <;> rfl

theorem Touches.found (h : w.Touches b b') : b'.found = b.found := by
  rcases h with rfl | rfl | rfl | rfl <;> rfl

/-- A claim sets the winner if there is none; nothing else writes it. -/
theorem Acts.winner_eq (h : w.Acts b w' b' new) : b'.winner = b.winner.or w.claims? := by
  cases h with
  | wander hw _ _ hb => rw [hb.winner, claims?_of_searches hw, Option.or_none]
  | crash hw | giveUp hw => rw [claims?_of_searches hw, Option.or_none]
  | win hw hb =>
    rw [claims?, hw, hb]
    rfl
  | lose hw hb =>
    rw [hb]
    rfl
  | hash hw | pass hw | hit hw | refresh hw | announce hw | close hw | finish hw | exhaust hw | conclude hw =>
    rw [claims?, hw]
    exact Option.or_none.symm
  | rest hw =>
    rw [hasEnded, decide_eq_true_iff] at hw
    rcases hw with hw | hw <;> rw [claims?, hw] <;> exact Option.or_none.symm

theorem Acts.winner (h : w.Acts b w' b' new) :
    b'.winner = b.winner ∨ ∃ s, w.phase = .claiming s ∧ b.winner = none ∧ b'.winner = some s := by
  have hw := h.winner_eq
  cases hb : b.winner with
  | some s =>
    rw [hb] at hw
    exact .inl hw
  | none =>
    rw [hb, Option.none_or] at hw
    cases hc : w.claims? with
    | none => exact .inl (hw.trans hc)
    | some s => exact .inr ⟨s, phase_of_claims? hc, rfl, hw.trans hc⟩

theorem Acts.winner_stays {s : Solution} (h : w.Acts b w' b' new) (hs : b.winner = some s) :
    b'.winner = some s := by
  rcases h.winner with hb | ⟨_, _, hnone, _⟩
  · rw [hb, hs]
  · rw [hnone] at hs
    cases hs

theorem Acts.progress_ne (h : w.Acts b w' b' new) {i : Nat} (hi : i ≠ w.id) :
    b'.progress[i]? = b.progress[i]? := by
  cases h with
  | wander _ _ _ hb =>
    rcases hb with rfl | rfl | rfl | rfl
    · rfl
    · exact Array.getElem?_setIfInBounds_ne hi.symm
    · rfl
    · rfl
  | finish => exact Array.getElem?_setIfInBounds_ne hi.symm
  | _ => rfl

theorem Acts.size_progress (h : w.Acts b w' b' new) : b'.progress.size = b.progress.size := by
  cases h with
  | wander _ _ _ hb =>
    rcases hb with rfl | rfl | rfl | rfl
    · rfl
    · exact Array.size_setIfInBounds
    · rfl
    · rfl
  | finish => exact Array.size_setIfInBounds
  | _ => rfl

end Frame

end Worker

end HeaderMiner
