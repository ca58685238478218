import HeaderMiner.Proofs.Round.Search
import Mathlib

/-!
# The contest for the winner

A claim is three writes with steps of other workers in between. `Worker.Contends` says where a worker stands in
the contest: it holds the win exactly if the winner on the board is its own. Its own actions keep this
(`Acts.contends`), and so do those of the others, since only the first claim writes a winner (`Contends.other`).
For all workers together, the winner is the first claim that was made, and a claim has returned true exactly if
the winner's worker has ended as the solver (`Search.contest`).
-/

namespace HeaderMiner

variable {σ : Type}

namespace Worker

/-- The solution that a worker is claiming. -/
def Phase.claim? : Phase → Option Solution
  | claiming s | announcing s | closing s _ => some s
  | _ => none

/-- The solution of a claim that has won and goes on. -/
def Phase.won? : Phase → Option Solution
  | announcing s | closing s true => some s
  | _ => none

/-- The claim that the next action of the worker returns from with the answer that it won. -/
def wins? (w : Worker) : Option Solution :=
  match w.phase with
  | .closing s true => some s
  | _ => none

theorem exit_setTime (w : Worker) (t : UInt32) : (w.setTime t).exit = w.exit := by
  unfold setTime
  split <;> rfl

theorem phase_of_wins? {w : Worker} {s : Solution} (h : w.wins? = some s) : w.phase = .closing s true := by
  unfold wins? at h
  split at h
  · rename_i hw
    rw [hw, Option.some.inj h]
  · cases h

/-- The worker's claim has won. -/
def HoldsWin (w : Worker) : Prop := w.phase.won?.isSome ∨ w.exit = .solved

theorem Phase.undecided {p : Phase} (hp : p.searches ∨ p = .crashed) :
    p.settled = false ∧ p.claim? = none ∧ p.won? = none ∧ p.accounted = false := by
  rcases hp with hp | rfl
  · cases p <;> first | exact ⟨rfl, rfl, rfl, rfl⟩ | cases hp
  · exact ⟨rfl, rfl, rfl, rfl⟩

theorem Phase.no_claim_of_settled {p : Phase} (hp : p.settled) : p.won? = none ∧ p.claim? = none := by
  cases p <;> first | exact ⟨rfl, rfl⟩ | cases hp

/-- Where a worker stands in the contest for the winner of a board. -/
structure Contends (b : Board) (w : Worker) : Prop where
  exit_eq : w.phase.settled = false → w.exit = .stopped
  claimed : ∀ s, w.phase.claim? = some s → s.worker = w.id
  won : ∀ s, w.phase.won? = some s → b.winner = some s
  holds : w.HoldsWin ↔ ∃ s, b.winner = some s ∧ s.worker = w.id
  /-- The last number of hashes is on the board. -/
  counter : w.phase.accounted → b.progress[w.id]? = some w.hashes
  inside : w.id < b.progress.size

section

variable {w w' v v' : Worker} {b b' : Board} {new : List Entry}

theorem Contends.not_holdsWin (h : w.Contends b) (hsettled : w.phase.settled = false)
    (hwon : w.phase.won? = none) : ¬ w.HoldsWin := by
  rintro (hw | hw)
  · rw [hwon] at hw
    cases hw
  · rw [h.exit_eq hsettled] at hw
    cases hw

theorem Contends.undecided (h : w.Contends b) (hw : w.phase.searches) (hid : w'.id = w.id)
    (hexit : w'.exit = w.exit) (hp : w'.phase.searches ∨ w'.phase = .crashed) (hb : b'.winner = b.winner)
    (hsize : b'.progress.size = b.progress.size) : w'.Contends b' := by
  obtain ⟨hsettled, hclaim, hwon, haccounted⟩ := Phase.undecided (.inl hw)
  obtain ⟨hsettled', hclaim', hwon', haccounted'⟩ := Phase.undecided hp
  have hnot := h.not_holdsWin hsettled hwon
  have hnot' : ¬ w'.HoldsWin := by
    rintro (hw | hw)
    · rw [hwon'] at hw
      cases hw
    · exact hnot (.inr (hexit.symm.trans hw))
  refine ⟨fun _ => hexit.trans (h.exit_eq hsettled), fun s hs => ?_, fun s hs => ?_, ?_, fun ha => ?_, ?_⟩
  · rw [hclaim'] at hs
    cases hs
  · rw [hwon'] at hs
    cases hs
  · rw [hb, hid, ← h.holds]
    exact iff_of_false hnot' hnot
  · rw [haccounted'] at ha
    cases ha
  · rw [hid, hsize]
    exact h.inside

/-- The other workers stand where they stood. -/
theorem Contends.other (h : w.Contends b) (hv : v.Contends b) (hacts : v.Acts b v' b' new)
    (hne : w.id ≠ v.id) : w.Contends b' := by
  refine ⟨h.exit_eq, h.claimed, fun s hs => hacts.winner_stays (h.won s hs), ?_, fun ha => ?_, ?_⟩
  · rcases hacts.winner with hb | ⟨s, hphase, hnone, hsome⟩
    · rw [hb]
      exact h.holds
    · have hs : s.worker = v.id := hv.claimed s (by rw [hphase]; rfl)
      rw [h.holds, hnone, hsome]
      constructor
      · rintro ⟨_, ⟨⟩, _⟩
      · rintro ⟨s', hs', hid⟩
        obtain rfl := Option.some.inj hs'
        exact absurd (hid.symm.trans hs) hne
  · rw [hacts.progress_ne hne]
    exact h.counter ha
  · rw [hacts.size_progress]
    exact h.inside

theorem holdsWin_of_settled (hw : w.phase.settled) : w.HoldsWin ↔ w.exit = .solved := by
  refine ⟨?_, .inr⟩
  rintro (hwon | hexit)
  · rw [(Phase.no_claim_of_settled hw).1] at hwon
    cases hwon
  · exact hexit

theorem Contends.leave (h : w.Contends b) {p : Phase} {exit : WorkerExit} (hp : p.settled)
    (hexit : exit = .solved ↔ w.HoldsWin) (hb : b'.winner = b.winner)
    (hsize : b'.progress.size = b.progress.size)
    (hcounter : p.accounted → b'.progress[w.id]? = some w.hashes) :
    { w with exit, phase := p }.Contends b' := by
  have hwon := Phase.no_claim_of_settled hp
  have hholds : ({ w with exit, phase := p } : Worker).HoldsWin ↔ w.HoldsWin := by
    rw [← hexit]
    constructor
    · exact (holdsWin_of_settled (w := { w with exit, phase := p }) hp).1
    · exact .inr
  refine ⟨fun hsettled => ?_, fun s hs => ?_, fun s hs => ?_, ?_, hcounter, ?_⟩
  · rw [show p.settled = false from hsettled] at hp
    cases hp
  · rw [show p.claim? = some s from hs] at hwon
    cases hwon.2
  · rw [show p.won? = some s from hs] at hwon
    cases hwon.1
  · rw [hb, hholds]
    exact h.holds
  · rw [hsize]
    exact h.inside

theorem Acts.contends (hacts : w.Acts b w' b' new) (h : w.Contends b) : w'.Contends b' := by
  have hid := hacts.sameTask.id
  have hsize := hacts.size_progress
  cases hacts with
  | wander hw hp _ hb => exact h.undecided hw rfl rfl (.inl hp) hb.winner hsize
  | hash hw => exact h.undecided (searches_of_phase hw rfl) rfl rfl (.inl rfl) rfl rfl
  | pass hw => exact h.undecided (searches_of_phase hw rfl) rfl rfl (.inl rfl) rfl rfl
  | refresh hw => exact h.undecided (searches_of_phase hw rfl) hid (exit_setTime w _) (.inl rfl) rfl rfl
  | crash hw => exact h.undecided hw rfl rfl (.inr rfl) rfl rfl
  | @hit left nonce digest pending _ hw =>
    obtain ⟨hsettled, -, hwon, -⟩ := Phase.undecided (.inl (searches_of_phase hw rfl))
    have hexit := h.exit_eq hsettled
    refine ⟨fun _ => hexit, fun s hs => ?_, by rintro s ⟨⟩, ?_, by rintro ⟨⟩, h.inside⟩
    · obtain rfl : w.solution nonce digest.blockHash = s := Option.some.inj hs
      rfl
    · refine Iff.trans (iff_of_false ?_ (h.not_holdsWin hsettled hwon)) h.holds
      rintro (⟨⟨⟩⟩ | hw)
      rw [show w.exit = .solved from hw] at hexit
      cases hexit
  | giveUp hw hexit =>
    obtain ⟨hsettled, -, hwon, -⟩ := Phase.undecided (.inl hw)
    exact h.leave rfl (iff_of_false hexit (h.not_holdsWin hsettled hwon)) rfl rfl (by rintro ⟨⟩)
  | @win s hw hb =>
    have hworker : s.worker = w.id := h.claimed s (by rw [hw]; rfl)
    refine ⟨fun _ => h.exit_eq (by rw [hw]; rfl), ?_, ?_, iff_of_true (.inl rfl) ⟨s, rfl, hworker⟩,
      by rintro ⟨⟩, h.inside⟩
    · rintro s' ⟨⟩
      exact hworker
    · rintro s' ⟨⟩
      rfl
  | @lose s s' hw hb =>
    have hexit := h.exit_eq (by rw [hw]; rfl)
    have hnot := h.not_holdsWin (by rw [hw]; rfl) (by rw [hw]; rfl)
    refine ⟨fun _ => hexit, ?_, by rintro s ⟨⟩, Iff.trans (iff_of_false ?_ hnot) h.holds, by rintro ⟨⟩,
      h.inside⟩
    · rintro s ⟨⟩
      exact h.claimed s (by rw [hw]; rfl)
    · rintro (⟨⟨⟩⟩ | hw)
      rw [show w.exit = .solved from hw] at hexit
      cases hexit
  | @announce s hw =>
    have hexit := h.exit_eq (by rw [hw]; rfl)
    have hholds : w.HoldsWin := .inl (by rw [hw]; rfl)
    refine ⟨fun _ => hexit, ?_, ?_, Iff.trans (iff_of_true (.inl rfl) hholds) h.holds, by rintro ⟨⟩, h.inside⟩
    · rintro s ⟨⟩
      exact h.claimed s (by rw [hw]; rfl)
    · rintro s ⟨⟩
      exact h.won s (by rw [hw]; rfl)
  | @close s won _ hw =>
    refine h.leave rfl ?_ rfl rfl (by rintro ⟨⟩)
    cases won with
    | true => exact iff_of_true rfl (.inl (by rw [hw]; rfl))
    | false => exact iff_of_false (by decide) (h.not_holdsWin (by rw [hw]; rfl) (by rw [hw]; rfl))
  | finish hw hp =>
    have hexit := (holdsWin_of_settled (by rw [hw]; rfl)).symm
    refine h.leave (by rcases hp with rfl | rfl <;> rfl) hexit rfl hsize fun _ => ?_
    exact Array.getElem?_setIfInBounds_self_of_lt h.inside
  | exhaust hw | conclude hw =>
    have hexit := (holdsWin_of_settled (by rw [hw]; rfl)).symm
    exact h.leave rfl hexit rfl rfl fun _ => h.counter (by rw [hw]; rfl)
  | rest => exact h

/-- Only the end of a claim that won makes a worker the solver. -/
theorem Acts.exit_eq_solved (hacts : w.Acts b w' b' new) (h : w.Contends b) (hwins : w.wins? = none) :
    w'.exit = .solved ↔ w.exit = .solved := by
  cases hacts with
  | refresh =>
    show (w.setTime _).exit = _ ↔ _
    rw [exit_setTime]
  | giveUp hw hexit =>
    refine iff_of_false hexit ?_
    rw [h.exit_eq (Phase.undecided (.inl hw)).1]
    decide
  | @close s won _ hw =>
    cases won with
    | true =>
      rw [wins?, hw] at hwins
      cases hwins
    | false =>
      refine iff_of_false (by rintro ⟨⟩) ?_
      rw [h.exit_eq (by rw [hw]; rfl)]
      decide
  | _ => exact .rfl

theorem Acts.found (hacts : w.Acts b w' b' new) :
    b'.found = b.found ∨ b'.found = true ∧ ∃ s, w.phase = .announcing s := by
  cases hacts with
  | wander _ _ _ hb => exact .inl hb.found
  | announce hw => exact .inr ⟨rfl, _, hw⟩
  | _ => exact .inl rfl

theorem Acts.found_stays (hacts : w.Acts b w' b' new) (hb : b.found = true) : b'.found = true := by
  rcases hacts.found with h | ⟨h, -⟩
  · rw [h, hb]
  · exact h

theorem Acts.claim_cases (hacts : w.Acts b w' b' new) {s : Solution} (hp : w.phase.claim? = some s) :
    w.phase = .claiming s ∧ (b.winner = none → w'.phase = .announcing s) ∨
    w.phase = .announcing s ∧ b'.found = true ∨
    ∃ won, w.phase = .closing s won ∧ (won = true → w'.exit = .solved) := by
  cases hacts with
  | win hw =>
    rw [hw] at hp ⊢
    obtain rfl := Option.some.inj hp
    exact .inl ⟨rfl, fun _ => rfl⟩
  | lose hw hb =>
    rw [hw] at hp ⊢
    obtain rfl := Option.some.inj hp
    exact .inl ⟨rfl, fun hnone => by rw [hb] at hnone; cases hnone⟩
  | announce hw =>
    rw [hw] at hp ⊢
    obtain rfl := Option.some.inj hp
    exact .inr (.inl ⟨rfl, rfl⟩)
  | @close _ won _ hw =>
    rw [hw] at hp ⊢
    obtain rfl := Option.some.inj hp
    exact .inr (.inr ⟨won, rfl, fun hwon => if_pos hwon⟩)
  | wander hw | crash hw | giveUp hw =>
    rw [(Phase.undecided (.inl hw)).2.1] at hp
    cases hp
  | hash hw | pass hw | hit hw | refresh hw | finish hw | exhaust hw | conclude hw =>
    rw [hw] at hp
    cases hp
  | rest hw =>
    rw [hasEnded, decide_eq_true_iff] at hw
    rcases hw with hw | hw <;> rw [hw] at hp <;> cases hp

theorem Acts.phase_of_claiming {s : Solution} (hacts : w.Acts b w' b' new) (hp : w.phase = .claiming s)
    (hb : b.winner = none) : w'.phase = .announcing s := by
  rcases hacts.claim_cases (by rw [hp]; rfl) with ⟨-, h⟩ | ⟨h, -⟩ | ⟨won, h, -⟩
  · exact h hb
  · cases hp.symm.trans h
  · cases hp.symm.trans h

theorem Acts.found_of_announcing {s : Solution} (hacts : w.Acts b w' b' new) (hp : w.phase = .announcing s) :
    b'.found = true := by
  rcases hacts.claim_cases (by rw [hp]; rfl) with ⟨h, -⟩ | ⟨-, h⟩ | ⟨won, h, -⟩
  · cases hp.symm.trans h
  · exact h
  · cases hp.symm.trans h

theorem Acts.exit_of_closing {s : Solution} (hacts : w.Acts b w' b' new) (hp : w.phase = .closing s true) :
    w'.exit = .solved := by
  rcases hacts.claim_cases (by rw [hp]; rfl) with ⟨h, -⟩ | ⟨h, -⟩ | ⟨won, h, hexit⟩
  · cases hp.symm.trans h
  · cases hp.symm.trans h
  · cases hp.symm.trans h
    exact hexit rfl

end

end Worker

namespace Round

/-- The claims that were made, oldest first. -/
def claims (history : List Worker) : List Solution := history.filterMap Worker.claims?

/-- The claims that returned true. -/
def wins (history : List Worker) : List Solution := history.filterMap Worker.wins?

/-- The worker with this number has ended as the solver. -/
def HasSolved (workers : Array Worker) (i : Nat) : Prop := workers[i]?.map (·.exit) = some .solved

instance (workers : Array Worker) (i : Nat) : Decidable (HasSolved workers i) :=
  inferInstanceAs (Decidable (_ = _))

/-- The state of the contest after a search. -/
structure Contest (history : List Worker) (workers : Array Worker) (b : Board) : Prop where
  each : ∀ (i : Nat) (w : Worker), workers[i]? = some w → w.Contends b
  first : b.winner = (claims history).head?
  wins_eq : wins history = (b.winner.filter fun s => HasSolved workers s.worker).toList
  found : b.found = true → b.winner.isSome
  announced : ∀ s : Solution, b.winner = some s →
    ∃ w : Worker, workers[s.worker]? = some w ∧ (b.found = true ∨ w.phase = .announcing s)

section

variable {r : Setup σ} {history : List Worker} {spawning : Spawning} {workers : Array Worker} {s : Shared σ}

theorem contest_opened (r : Setup σ) :
    Contest [] (crew r.work r.range r.threads r.settings) (Board.ofWorkers r.threads) := by
  refine ⟨fun i w hw => ?_, rfl, rfl, by rintro ⟨⟩, by rintro s ⟨⟩⟩
  rw [Search.getElem?_crew] at hw
  obtain ⟨slice, hslice, rfl⟩ := Option.map_eq_some_iff.1 hw
  refine ⟨fun _ => rfl, by rintro s ⟨⟩, by rintro s ⟨⟩, iff_of_false ?_ ?_, by rintro ⟨⟩, ?_⟩
  · rintro (⟨⟨⟩⟩ | ⟨⟨⟩⟩)
  · rintro ⟨s, ⟨⟩, _⟩
  · have hi := (List.getElem?_eq_some_iff.1 hslice).1
    rw [NonceRange.split, List.length_ofFn] at hi
    show i < (Array.replicate r.threads 0).size
    rw [Array.size_replicate]
    exact hi

theorem wins_concat (history : List Worker) (v : Worker) :
    wins (history ++ [v]) = wins history ++ v.wins?.toList := by
  rw [wins, List.filterMap_append, wins]
  cases h : v.wins? <;> simp [h]

theorem claims_concat (history : List Worker) (v : Worker) :
    claims (history ++ [v]) = claims history ++ v.claims?.toList := by
  rw [claims, List.filterMap_append, claims]
  cases h : v.claims? <;> simp [h]

section Step

variable {b b' : Board} {new : List Entry} {j : Nat} {v v' : Worker}

theorem hasSolved_set (hv : workers[j]? = some v) (hexit : v'.exit = .solved ↔ v.exit = .solved) (i : Nat) :
    HasSolved (workers.setIfInBounds j v') i ↔ HasSolved workers i := by
  by_cases hij : j = i
  · subst hij
    rw [HasSolved, HasSolved, hv, Array.getElem?_setIfInBounds_self_of_lt (Array.getElem?_eq_some_iff.1 hv).1]
    simpa using hexit
  · rw [HasSolved, HasSolved, Array.getElem?_setIfInBounds_ne hij]

/-- A claim returns true only to the worker that then ends as the solver. -/
theorem Contest.wins_step (h : Contest history workers b) (hv : workers[j]? = some v) (hid : v.id = j)
    (hacts : v.Acts b v' b' new) :
    wins (history ++ [v]) =
      (b'.winner.filter fun s => HasSolved (workers.setIfInBounds j v') s.worker).toList := by
  have hvc := h.each j v hv
  rw [wins_concat, h.wins_eq]
  cases hwins : v.wins? with
  | none =>
    simp only [hasSolved_set hv (hacts.exit_eq_solved hvc hwins), Option.toList_none, List.append_nil]
    rcases hacts.winner with hb | ⟨s, hphase, hnone, hsome⟩
    · rw [hb]
    · have hnot : ¬ HasSolved workers s.worker := by
        rw [hvc.claimed s (by rw [hphase]; rfl), hid, HasSolved, hv, Option.map_some,
          hvc.exit_eq (by rw [hphase]; rfl)]
        decide
      rw [hnone, hsome, Option.filter_some, if_neg (by simpa using hnot)]
      rfl
  | some s =>
    have hphase := Worker.phase_of_wins? hwins
    have hworker : s.worker = j := (hvc.claimed s (by rw [hphase]; rfl)).trans hid
    have hwon : b.winner = some s := hvc.won s (by rw [hphase]; rfl)
    have hbefore : ¬ HasSolved workers s.worker := by
      rw [hworker, HasSolved, hv, Option.map_some, hvc.exit_eq (by rw [hphase]; rfl)]
      decide
    have hafter : HasSolved (workers.setIfInBounds j v') s.worker := by
      rw [hworker, HasSolved, Array.getElem?_setIfInBounds_self_of_lt (Array.getElem?_eq_some_iff.1 hv).1,
        Option.map_some, hacts.exit_of_closing hphase]
    rw [hwon, hacts.winner_stays hwon, Option.filter_some, Option.filter_some,
      if_neg (by simpa using hbefore), if_pos (by simpa using hafter)]
    rfl

theorem Contest.announced_step (h : Contest history workers b) (hv : workers[j]? = some v) (hid : v.id = j)
    (hacts : v.Acts b v' b' new) {s : Solution} (hs : b'.winner = some s) :
    ∃ w : Worker, (workers.setIfInBounds j v')[s.worker]? = some w ∧
      (b'.found = true ∨ w.phase = .announcing s) := by
  have hself := Array.getElem?_setIfInBounds_self_of_lt (a := v') (Array.getElem?_eq_some_iff.1 hv).1
  rcases hacts.winner with hb | ⟨s', hphase, hnone, hsome⟩
  · obtain ⟨w, hw, hfound⟩ := h.announced s (hb.symm.trans hs)
    by_cases hj : j = s.worker
    · refine ⟨v', hj ▸ hself, .inl ?_⟩
      obtain rfl : v = w := Option.some.inj (by rw [← hv, hj, hw])
      rcases hfound with hfound | hphase
      · exact hacts.found_stays hfound
      · exact hacts.found_of_announcing hphase
    · rw [Array.getElem?_setIfInBounds_ne hj]
      exact ⟨w, hw, hfound.imp hacts.found_stays id⟩
  · obtain rfl : s' = s := Option.some.inj (hsome.symm.trans hs)
    have hworker : s'.worker = j := ((h.each j v hv).claimed s' (by rw [hphase]; rfl)).trans hid
    exact ⟨v', hworker ▸ hself, .inr (hacts.phase_of_claiming hphase hnone)⟩

end Step

/-- The stop flag has no part in the contest. -/
theorem Contest.halt {b : Board} (h : Contest history workers b) : Contest history workers b.halt :=
  ⟨fun i w hw => { h.each i w hw with }, h.first, h.wins_eq, h.found, h.announced⟩

theorem Search.contest (h : Search r history spawning workers s) : Contest history workers s.board := by
  induction h with
  | opened => exact contest_opened r
  | spawned _ _ ih => exact ih
  | refused _ _ ih => exact ih.halt
  | @stepped history _ workers s j v hsearch hv ih =>
    obtain ⟨new, -, -, hacts⟩ := hsearch.acts v
    have hvc := ih.each j v hv
    have hid := hsearch.id_eq hv
    refine ⟨?_, ?_, ih.wins_step hv hid hacts, ?_, ?_⟩
    · refine forall_set ih.each hv (fun h => hacts.contends h) fun i w hij hw h => h.other hvc hacts ?_
      rw [hsearch.id_eq hw, hid]
      exact hij
    · rw [claims_concat, List.head?_append, ← ih.first, hacts.winner_eq]
      cases v.claims? <;> rfl
    · intro hfound
      rcases hacts.found with hb | ⟨-, s', hphase⟩
      · obtain ⟨s', hs'⟩ := Option.isSome_iff_exists.1 (ih.found (hb.symm.trans hfound))
        rw [hacts.winner_stays hs']
        rfl
      · rw [hacts.winner_stays (hvc.won s' (by rw [hphase]; rfl))]
        rfl
    · exact fun s' hs' => ih.announced_step hv hid hacts hs'
  | interrupted _ ih | elapsed _ _ ih => exact ih

end

end Round

end HeaderMiner
