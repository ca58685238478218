import HeaderMiner.Proofs.Round.Outcome
import Mathlib

/-!
# How a search goes on

`Sequel` are the searches that a search goes on to, with the workers that were moved since. A run that has come to a
search goes on through its sequels until the search is over, and then moves no worker any more (`sequel_run`). What
steps, interrupts and passing time keep (`Lasting`) holds in all sequels; and if each step of a worker pays its cost
from a budget, the steps together cost no more than what the budget has become smaller by (`Sequel.spent`).
-/

namespace HeaderMiner.Round

variable {σ : Type}

/-- The searches that a search goes on to, with the workers that were moved since. -/
inductive Sequel (r : Setup σ) (spawning : Spawning) (workers : Array Worker) (s : Shared σ) :
    List Worker → Spawning → Array Worker → Shared σ → Prop
  | refl : Sequel r spawning workers s [] spawning workers s
  | spawned {later : List Worker} {next : Nat} {workers' : Array Worker} {s' : Shared σ}
      (h : Sequel r spawning workers s later (.upTo next) workers' s') (hnext : next < workers'.size) :
      Sequel r spawning workers s later (.upTo (next + 1)) workers' s'
  | refused {later : List Worker} {next : Nat} {workers' : Array Worker} {s' : Shared σ}
      (h : Sequel r spawning workers s later (.upTo next) workers' s') (hnext : next < workers'.size) :
      Sequel r spawning workers s later (.failed next) workers' { s' with board := s'.board.halt }
  | stepped {later : List Worker} {spawning' : Spawning} {workers' : Array Worker} {s' : Shared σ} {i : Nat}
      {w : Worker} (h : Sequel r spawning workers s later spawning' workers' s') (hw : workers'[i]? = some w) :
      Sequel r spawning workers s (later ++ [w]) spawning' (workers'.setIfInBounds i (w.step r.node s').1)
        (w.step r.node s').2
  | interrupted {later : List Worker} {spawning' : Spawning} {workers' : Array Worker} {s' : Shared σ}
      (h : Sequel r spawning workers s later spawning' workers' s') :
      Sequel r spawning workers s later spawning' workers' { s' with world := s'.world.interrupt }
  | elapsed {later : List Worker} {spawning' : Spawning} {workers' : Array Worker} {s' : Shared σ} (nanos : Nat)
      (h : Sequel r spawning workers s later spawning' workers' s') :
      Sequel r spawning workers s later spawning' workers' { s' with world := s'.world.elapse nanos }

/-- A condition that nothing which happens during a search takes back. -/
structure Lasting (node : Node σ) (P : Shared σ → Prop) : Prop where
  step : ∀ (w : Worker) (s : Shared σ), P s → P (w.step node s).2
  halt : ∀ s : Shared σ, P s → P { s with board := s.board.halt }
  interrupt : ∀ s : Shared σ, P s → P { s with world := s.world.interrupt }
  elapse : ∀ (nanos : Nat) (s : Shared σ), P s → P { s with world := s.world.elapse nanos }

theorem lasting_false (node : Node σ) : Lasting node fun _ => False :=
  ⟨fun _ _ h => h, fun _ h => h, fun _ h => h, fun _ _ h => h⟩

theorem lasting_interrupted (node : Node σ) : Lasting node fun s => s.world.interrupted = true :=
  ⟨fun w s h => (w.step_asks node s).interrupted h, fun _ h => h, fun _ _ => rfl, fun _ _ h => h⟩

variable {r : Setup σ} {history later : List Worker} {spawning spawning' : Spawning} {workers workers' : Array Worker}
  {s s' : Shared σ}

theorem Search.sequel (h : Search r history spawning workers s)
    (hsequel : Sequel r spawning workers s later spawning' workers' s') :
    Search r (history ++ later) spawning' workers' s' := by
  induction hsequel with
  | refl =>
    rw [List.append_nil]
    exact h
  | spawned _ hnext ih => exact ih.spawned hnext
  | refused _ hnext ih => exact ih.refused hnext
  | stepped _ hw ih =>
    rw [← List.append_assoc]
    exact ih.stepped hw
  | interrupted _ ih => exact ih.interrupted
  | elapsed nanos _ ih => exact ih.elapsed nanos

namespace Sequel

theorem lasts {P : Shared σ → Prop} (h : Sequel r spawning workers s later spawning' workers' s')
    (hP : Lasting r.node P) (hs : P s) : P s' := by
  induction h with
  | refl => exact hs
  | spawned _ _ ih => exact ih
  | refused _ _ ih => exact hP.halt _ ih
  | stepped _ _ ih => exact hP.step _ _ ih
  | interrupted _ ih => exact hP.interrupt _ ih
  | elapsed nanos _ ih => exact hP.elapse nanos _ ih

/-- While `P` holds, each step of the worker at `i` pays its cost from the budget, unless it brings about `Q`. -/
theorem spent {P Q : Shared σ → Prop} {cost budget : Worker → Nat} {i : Nat}
    (hsearch : Search r history spawning workers s) (h : Sequel r spawning workers s later spawning' workers' s')
    (hP : Lasting r.node P) (hQ : Lasting r.node Q)
    (hpay : ∀ (history : List Worker) (spawning : Spawning) (workers : Array Worker) (s : Shared σ) (v : Worker),
      Search r history spawning workers s → workers[i]? = some v → P s →
      Q (v.step r.node s).2 ∨ cost v + budget (v.step r.node s).1 ≤ budget v)
    (hs : P s) {w : Worker} (hw : workers[i]? = some w) :
    Q s' ∨ ∃ w', workers'[i]? = some w' ∧ ((later.filter (·.id = i)).map cost).sum + budget w' ≤ budget w := by
  induction h with
  | refl => exact .inr ⟨w, hw, by simp⟩
  | spawned _ _ ih => exact ih
  | refused _ _ ih => exact ih.imp (hQ.halt _) id
  | @stepped later _ workers' s' j v hsequel hv ih =>
    rcases ih with ih | ⟨w', hw', hle⟩
    · exact .inl (hQ.step v s' ih)
    · have hnow := hsearch.sequel hsequel
      have hid := hnow.id_eq hv
      rw [List.filter_append, List.map_append, List.sum_append]
      by_cases hj : j = i
      · subst hj
        obtain rfl : v = w' := Option.some.inj (hv.symm.trans hw')
        have hlt := (Array.getElem?_eq_some_iff.1 hv).1
        rcases hpay _ _ _ _ v hnow hv (hsequel.lasts hP hs) with hq | hstep
        · exact .inl hq
        · refine .inr ⟨_, Array.getElem?_setIfInBounds_self_of_lt hlt, ?_⟩
          simp only [List.filter_cons, hid, decide_true, if_true, List.filter_nil, List.map_cons, List.map_nil,
            List.sum_cons, List.sum_nil]
          omega
      · refine .inr ⟨w', ?_, ?_⟩
        · rw [Array.getElem?_setIfInBounds_ne hj]
          exact hw'
        · have hother : v.id ≠ i := by
            rw [hid]
            exact hj
          simp only [List.filter_cons, hother, decide_false, Bool.false_eq_true, if_false, List.filter_nil,
            List.map_nil, List.sum_nil]
          omega
  | interrupted _ ih => exact ih.imp (hQ.interrupt _) id
  | elapsed nanos _ ih => exact ih.imp (hQ.elapse nanos _) id

end Sequel

/-! ### Runs -/

/-- The search of a round is over. -/
def Over : Progress Round (Except Failure RoundReport) → Prop
  | .running (.opening _ _) | .running (.searching _ _ _ _ _) => False
  | _ => True

theorem over_next {e : Execution σ Round (Except Failure RoundReport)} (h : Over e.progress) (event : Event) :
    Over (e.next r.move event).progress ∧ actor e event = none := by
  obtain ⟨progress, world⟩ := e
  cases progress with
  | returned | crashed =>
    cases event with
    | interrupt | elapse => exact ⟨trivial, rfl⟩
    | step who => cases who <;> exact ⟨trivial, rfl⟩
  | running round =>
    cases round with
    | opening | searching => exact absurd h id
    | submitting report winner submission =>
      cases event with
      | interrupt | elapse => exact ⟨trivial, rfl⟩
      | step who =>
        cases who with
        | worker id => exact ⟨trivial, rfl⟩
        | session =>
          refine ⟨?_, rfl⟩
          simp only [Execution.next, Setup.move, move]
          split <;> trivial

/-- The round is in its search, with these workers. -/
def Searches (e : Execution σ Round (Except Failure RoundReport)) (spawning : Spawning) (workers : Array Worker)
    (s : Shared σ) : Prop :=
  ∃ work started, e = ⟨.running (.searching work started spawning s.board workers), s.world⟩

theorem searches_of_searching? {events : List Event} {b : Board} (h : r.searching? events = some (b, workers)) :
    ∃ spawning, r.spawning? events = some spawning ∧
      Searches (r.run events) spawning workers ⟨b, (r.run events).world⟩ := by
  unfold Setup.searching? at h
  unfold Setup.spawning?
  generalize r.run events = e at h ⊢
  obtain ⟨progress, world⟩ := e
  split at h
  · rename_i work started spawning board workers' hprogress
    cases h
    obtain rfl : progress = _ := hprogress
    exact ⟨spawning, rfl, work, started, rfl⟩
  · cases h

theorem Searches.searching? {events : List Event} (h : Searches (r.run events) spawning workers s) :
    r.searching? events = some (s.board, workers) := by
  obtain ⟨work, started, hrun⟩ := h
  rw [Setup.searching?, hrun]

theorem Searches.world_eq {e : Execution σ Round (Except Failure RoundReport)} (h : Searches e spawning workers s) :
    e.world = s.world := by
  obtain ⟨_, _, rfl⟩ := h
  rfl

theorem searching?_of_over {events : List Event} (h : Over (r.run events).progress) :
    r.searching? events = none := by
  unfold Setup.searching?
  split
  · rename_i hprogress
    rw [hprogress] at h
    exact absurd h id
  · rfl

/-- An event during a search moves a worker or starts one, ends the search, or changes the world alone. -/
theorem Searches.next {e : Execution σ Round (Except Failure RoundReport)} {spawning₀ : Spawning}
    {workers₀ : Array Worker} {s₀ : Shared σ} (h : Searches e spawning workers s)
    (hsequel : Sequel r spawning₀ workers₀ s₀ later spawning workers s) (event : Event) :
    ∃ spawning' workers' s', Sequel r spawning₀ workers₀ s₀ (later ++ (actor e event).toList) spawning' workers' s' ∧
      (Over (e.next r.move event).progress ∨ Searches (e.next r.move event) spawning' workers' s') := by
  obtain ⟨work, started, rfl⟩ := h
  have hsame : Sequel r spawning₀ workers₀ s₀ (later ++ []) spawning workers s := by
    rw [List.append_nil]
    exact hsequel
  cases event with
  | interrupt => exact ⟨_, _, _, hsame.interrupted, .inr ⟨work, started, rfl⟩⟩
  | elapse nanos => exact ⟨_, _, _, hsame.elapsed nanos, .inr ⟨work, started, rfl⟩⟩
  | step who =>
    have hadvances := move_advances r.config r.host r.node who work started spawning s.board workers s.world
    simp only [Execution.next, Setup.move]
    generalize Round.move r.config r.host r.node who (.searching work started spawning s.board workers) s.world =
      result at hadvances ⊢
    cases hadvances with
    | @stepped _ id w hid hw =>
      refine ⟨_, _, _, ?_, .inr ⟨work, started, rfl⟩⟩
      simp only [actor, if_pos hid, hw]
      exact hsequel.stepped hw
    | waits hidle =>
      refine ⟨_, _, _, ?_, .inr ⟨work, started, rfl⟩⟩
      cases who with
      | session => exact hsame
      | worker id =>
        simp only [actor, hidle id rfl]
        exact hsame
    | spawned hnext => exact ⟨_, _, _, hsame.spawned hnext, .inr ⟨work, started, rfl⟩⟩
    | refused hnext => exact ⟨_, _, _, hsame.refused hnext, .inr ⟨work, started, rfl⟩⟩
    | crashed | unsolved | solved | unspawned | collapsed => exact ⟨_, _, _, hsame, .inl trivial⟩

/-- A run that has come to a search goes on through its sequels, and moves no worker once the search is over. -/
theorem sequel_run {events : List Event} {b : Board} (h : r.searching? events = some (b, workers))
    (hspawning : r.spawning? events = some spawning) (more : List Event) :
    ∃ later spawning' workers' s',
      Sequel r spawning workers ⟨b, (r.run events).world⟩ later spawning' workers' s' ∧
      r.actors (events ++ more) = r.actors events ++ later ∧
      (Over (r.run (events ++ more)).progress ∨ Searches (r.run (events ++ more)) spawning' workers' s') := by
  induction more using List.reverseRecOn with
  | nil =>
    obtain ⟨spawning', hspawning', hsearches⟩ := searches_of_searching? h
    obtain rfl : spawning = spawning' := Option.some.inj (hspawning.symm.trans hspawning')
    rw [List.append_nil]
    exact ⟨[], spawning, workers, _, .refl, (List.append_nil _).symm, .inr hsearches⟩
  | append_singleton more event ih =>
    obtain ⟨later, spawning', workers', s', hsequel, hactors, hstands⟩ := ih
    rw [← List.append_assoc, r.actors_concat, r.run_concat, hactors, List.append_assoc]
    rcases hstands with hover | hsearches
    · obtain ⟨hnext, hidle⟩ := over_next hover event
      rw [hidle]
      exact ⟨_, spawning', workers', s', hsequel, congrArg _ (List.append_nil later), .inl hnext⟩
    · obtain ⟨spawning'', workers'', s'', hsequel', hnext⟩ := hsearches.next hsequel event
      exact ⟨_, spawning'', workers'', s'', hsequel', rfl, hnext⟩

end HeaderMiner.Round
