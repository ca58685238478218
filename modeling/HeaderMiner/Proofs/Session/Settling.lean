import HeaderMiner.Proofs.Session.Course
import Mathlib

/-!
# Waiting for the chain to settle

The wait for the height is compared with the sequence of heights that the node tells, if it is asked again and again.
The chain is still at an index if the height there is that of the whole window before it (`StillAt`), which is what the
wait's counter counts (`stillAt_iff`). Where a wait stands is known from the steps that it has taken (`Stage`), so the
wait reads on until the chain is still for the first time.
-/

namespace HeaderMiner.SyncWait

variable {σ : Type}

/-! ### Still heights -/

/-- The height at the index is the same as at each of the `window` indices before it. -/
def StillAt (window : Nat) (heights : Nat → UInt64) (k : Nat) : Prop :=
  window ≤ k ∧ ∀ j ≤ window, heights (k - j) = heights k

/-- For how many indices in a row the height has been the same as just before. -/
def stillness (heights : Nat → UInt64) : Nat → Nat
  | 0 => 0
  | k + 1 => if heights (k + 1) = heights k then stillness heights k + 1 else 0

section Still

variable {window : Nat} {heights : Nat → UInt64} {k : Nat}

theorem stillness_of_eq (h : heights (k + 1) = heights k) : stillness heights (k + 1) = stillness heights k + 1 :=
  if_pos h

theorem stillness_of_ne (h : heights (k + 1) ≠ heights k) : stillness heights (k + 1) = 0 := if_neg h

theorem stillAt_zero (heights : Nat → UInt64) (k : Nat) : StillAt 0 heights k := by
  refine ⟨Nat.zero_le k, fun j hj => ?_⟩
  rw [Nat.le_zero.1 hj]
  rfl

theorem stillAt_succ_zero (window : Nat) (heights : Nat → UInt64) : ¬ StillAt (window + 1) heights 0 :=
  fun h => Nat.not_succ_le_zero window h.1

theorem stillAt_succ_succ :
    StillAt (window + 1) heights (k + 1) ↔ heights (k + 1) = heights k ∧ StillAt window heights k := by
  constructor
  · rintro ⟨hle, hsame⟩
    have hlast : heights (k + 1) = heights k := (hsame 1 (by omega)).symm
    refine ⟨hlast, by omega, fun j hj => ?_⟩
    have hj' := hsame (j + 1) (by omega)
    rwa [Nat.add_sub_add_right, hlast] at hj'
  · rintro ⟨hlast, hle, hsame⟩
    refine ⟨by omega, fun j hj => ?_⟩
    rcases j with _ | j
    · rfl
    · rw [Nat.add_sub_add_right, hlast]
      exact hsame j (by omega)

theorem stillAt_iff (window : Nat) (heights : Nat → UInt64) (k : Nat) :
    StillAt window heights k ↔ window ≤ stillness heights k := by
  induction k generalizing window with
  | zero =>
    cases window with
    | zero => exact iff_of_true (stillAt_zero heights 0) (Nat.zero_le _)
    | succ window => exact iff_of_false (stillAt_succ_zero window heights) (Nat.not_succ_le_zero window)
  | succ k ih =>
    cases window with
    | zero => exact iff_of_true (stillAt_zero heights (k + 1)) (Nat.zero_le _)
    | succ window =>
      rw [stillAt_succ_succ, ih]
      by_cases h : heights (k + 1) = heights k
      · rw [stillness_of_eq h, Nat.add_le_add_iff_right]
        exact and_iff_right h
      · rw [stillness_of_ne h]
        exact iff_of_false (fun hand => h hand.1) (Nat.not_succ_le_zero window)

end Still

/-! ### The node and its heights -/

/-- What a node becomes by being asked for the height so many times. -/
def afterHeights (node : Node σ) (start : σ) : Nat → σ
  | 0 => start
  | n + 1 => (node .height (afterHeights node start n)).state

/-- Asked for the height again and again, the node answers with these. -/
def Tells (node : Node σ) (start : σ) (heights : Nat → UInt64) : Prop :=
  ∀ n, (node .height (afterHeights node start n)).answer = some (heights n)

/-- The first `n` answers, as the session's thread gets them. -/
def told (heights : Nat → UInt64) (n : Nat) : List Call :=
  (List.range n).map fun i => ⟨.session, .height, heights i⟩

theorem told_succ (heights : Nat → UInt64) (n : Nat) :
    told heights (n + 1) = told heights n ++ [⟨.session, .height, heights n⟩] := by
  rw [told, List.range_succ, List.map_append]
  rfl

/-- What a wait is run with, and the world that it begins in. -/
structure Setup (σ : Type) where
  config : Config
  node : Node σ
  world : World σ

namespace Setup

variable (c : Setup σ)

def move : Move σ SyncWait Unit := SyncWait.move c.config c.node

/-- The wait after a sequence of events. -/
def run (events : List Event) : Execution σ SyncWait Unit := Execution.run c.move ⟨.running .starting, c.world⟩ events

def window : Nat := c.config.syncWindowPolls.toNat

/-- The requests that the node has answered since the wait began. -/
def called (world : World σ) : List Call := calls (world.since c.world.journal.size)

end Setup

variable {c : Setup σ} {heights : Nat → UInt64} {n steps : Nat} {world world' : World σ}

/-- In this world the node has told the first `n` heights, and nothing else. -/
structure HasTold (c : Setup σ) (heights : Nat → UInt64) (n : Nat) (world : World σ) : Prop where
  state : world.node = afterHeights c.node c.world.node n
  called : c.called world = told heights n
  size : c.world.journal.size ≤ world.journal.size

namespace HasTold

theorem begun (c : Setup σ) (heights : Nat → UInt64) : HasTold c heights 0 c.world :=
  ⟨rfl, congrArg calls c.world.since_self, Nat.le_refl _⟩

theorem idle (h : HasTold c heights n world) (hserves : world.Serves c.node .session none world') :
    HasTold c heights n world' := by
  refine ⟨hserves.state.trans h.state, ?_, h.size.trans hserves.size_le⟩
  rw [Setup.called, hserves.calls_since h.size, World.answered_none, List.append_nil]
  exact h.called

theorem answer_eq (h : HasTold c heights n world) (hc : Tells c.node c.world.node heights) :
    (world.call c.node .session .height).1 = some (heights n) := by
  rw [World.call_fst, h.state]
  exact hc n

theorem next (h : HasTold c heights n world) (hc : Tells c.node c.world.node heights)
    (hserves : world.Serves c.node .session (some .height) world') : HasTold c heights (n + 1) world' := by
  refine ⟨?_, ?_, h.size.trans hserves.size_le⟩
  · rw [hserves.state, Option.elim_some, h.state]
    rfl
  · have hanswered : world.answered c.node .session (some .height) = [⟨.session, .height, heights n⟩] := by
      rw [World.answered, Option.bind_some, h.state, hc n]
      rfl
    rw [told_succ, ← h.called, ← hanswered]
    exact hserves.calls_since h.size

theorem rests (h : HasTold c heights n world) (hrest : world.Rests world') : HasTold c heights n world' := by
  refine ⟨hrest.node.trans h.state, ?_, by rw [hrest.journal]; exact h.size⟩
  rw [← h.called, Setup.called, World.since, hrest.journal]
  rfl

end HasTold

/-! ### The course of a wait -/

/-- Where a wait has come to by these many steps of its thread. -/
inductive Stage (c : Setup σ) (heights : Nat → UInt64) (steps : Nat) : Execution σ SyncWait Unit → Prop
  | starting {world : World σ} (h : HasTold c heights 0 world) (hsteps : steps = 0) :
      Stage c heights steps ⟨.running .starting, world⟩
  | counting {world : World σ} {n : Nat} (h : HasTold c heights (n + 1) world) (hsteps : steps = 2 * n + 1)
      (hbefore : ∀ k < n, ¬ StillAt c.window heights k) :
      Stage c heights steps ⟨.running (.counting (heights n) (stillness heights n)), world⟩
  | asking {world : World σ} {n : Nat} (h : HasTold c heights (n + 1) world) (hsteps : steps = 2 * n + 2)
      (hbefore : ∀ k < n + 1, ¬ StillAt c.window heights k) :
      Stage c heights steps ⟨.running (.asking (heights n) (stillness heights n)), world⟩
  | returned {world : World σ} {n : Nat} (h : HasTold c heights (n + 1) world) (hsteps : 2 * n + 2 ≤ steps)
      (hbefore : ∀ k < n, ¬ StillAt c.window heights k)
      (hend : StillAt c.window heights n ∨ world.interrupted = true) : Stage c heights steps ⟨.returned (), world⟩

theorem Stage.rests {progress : Progress SyncWait Unit} (h : Stage c heights steps ⟨progress, world⟩)
    (hrest : world.Rests world') : Stage c heights steps ⟨progress, world'⟩ := by
  cases h with
  | starting h hsteps => exact .starting (h.rests hrest) hsteps
  | counting h hsteps hbefore => exact .counting (h.rests hrest) hsteps hbefore
  | asking h hsteps hbefore => exact .asking (h.rests hrest) hsteps hbefore
  | returned h hsteps hbefore hend =>
    exact .returned (h.rests hrest) hsteps hbefore (hend.imp_right hrest.interrupted)

/-- One step of the wait's own thread. -/
theorem stage_step {wait : SyncWait} (hc : Tells c.node c.world.node heights)
    (h : Stage c heights steps ⟨.running wait, world⟩) :
    Stage c heights (steps + 1) ⟨(c.move .session wait world).1, (c.move .session wait world).2⟩ := by
  have hserves := wait.move_serves c.config c.node world
  simp only [Setup.move]
  cases h with
  | starting h hsteps =>
    have htold := h.next hc hserves
    have hanswer := h.answer_eq hc
    rcases hcall : world.call c.node .session .height with ⟨answer, world'⟩
    rw [hcall] at hanswer
    obtain rfl : answer = some (heights 0) := hanswer
    simp only [SyncWait.move, hcall] at htold ⊢
    exact .counting (n := 0) htold (by omega) (fun k hk => absurd hk (Nat.not_lt_zero k))
  | @counting _ n h hsteps hbefore =>
    have htold := h.idle hserves
    simp only [SyncWait.move] at htold ⊢
    by_cases hmore : stillness heights n < c.config.syncWindowPolls.toNat ∧ ¬ world.interrupted = true
    · rw [if_pos hmore] at htold ⊢
      refine .asking htold (by omega) fun k hk => ?_
      rcases Nat.lt_succ_iff_lt_or_eq.1 hk with hk | rfl
      · exact hbefore k hk
      · rw [stillAt_iff, Nat.not_le]
        exact hmore.1
    · rw [if_neg hmore] at htold ⊢
      refine .returned htold (by omega) hbefore ?_
      rw [not_and_or, not_not, Nat.not_lt] at hmore
      exact hmore.imp_left (stillAt_iff _ _ _).2
  | @asking _ n h hsteps hbefore =>
    have htold := h.next hc hserves
    have hanswer := h.answer_eq hc
    rcases hcall : world.call c.node .session .height with ⟨answer, world'⟩
    rw [hcall] at hanswer
    obtain rfl : answer = some (heights (n + 1)) := hanswer
    simp only [SyncWait.move, hcall] at htold ⊢
    by_cases hsame : heights (n + 1) = heights n
    · rw [if_pos hsame] at htold ⊢
      rw [← hsame, ← stillness_of_eq hsame]
      exact .counting htold (by omega) hbefore
    · rw [if_neg hsame] at htold ⊢
      rw [← stillness_of_ne hsame]
      exact .counting htold (by omega) hbefore

theorem stage_next (hc : Tells c.node c.world.node heights) {e : Execution σ SyncWait Unit}
    (h : Stage c heights steps e) (event : Event) :
    Stage c heights (steps + [event].count (.step .session)) (e.next c.move event) := by
  obtain ⟨progress, world⟩ := e
  rcases event with (_ | id) | _ | nanos
  · cases progress with
    | running wait => exact stage_step hc h
    | returned =>
      cases h with
      | returned h hsteps hbefore hend => exact .returned h (by omega) hbefore hend
    | crashed => cases h
  · cases progress with
    | running => exact h
    | returned => exact h
    | crashed => cases h
  · exact h.rests ⟨rfl, rfl, fun _ => rfl⟩
  · exact h.rests ⟨rfl, rfl, id⟩

theorem stage_run (hc : Tells c.node c.world.node heights) (events : List Event) :
    Stage c heights (events.count (.step .session)) (c.run events) := by
  induction events using List.reverseRecOn with
  | nil => exact .starting (.begun c heights) rfl
  | append_singleton events event ih =>
    rw [List.count_append, Setup.run, Execution.run_concat]
    exact stage_next hc ih event

/-- Let the node tell these heights, and let the wait have taken some number of steps, with anything else in between. It
has then read a prefix of them, which never goes beyond the first index at which the chain is still. If there was no
interrupt, then it has read on with every second step up to this index and has returned with the step after that; if
there is no such index, it has read on and is still waiting. -/
theorem reads_until_still (c : Setup σ) (heights : Nat → UInt64) (hc : Tells c.node c.world.node heights)
    (events : List Event) :
    (∃ n, c.called (c.run events).world = told heights n ∧ ∀ k, StillAt c.window heights k → n ≤ k + 1) ∧
    ((c.run events).world.interrupted = false →
      (∀ k, IsLeast {k | StillAt c.window heights k} k →
        c.called (c.run events).world = told heights (min ((events.count (.step .session) + 1) / 2) (k + 1)) ∧
        ((c.run events).progress = .returned () ↔ 2 * (k + 1) ≤ events.count (.step .session))) ∧
      ((∀ k, ¬ StillAt c.window heights k) →
        c.called (c.run events).world = told heights ((events.count (.step .session) + 1) / 2) ∧
        ∃ wait, (c.run events).progress = .running wait)) := by
  have hstage := stage_run hc events
  generalize c.run events = e at hstage
  generalize events.count (.step .session) = steps at hstage
  have hle {n k : Nat} (hbefore : ∀ k < n, ¬ StillAt c.window heights k) (hk : StillAt c.window heights k) : n ≤ k :=
    Nat.le_of_not_lt fun hlt => hbefore k hlt hk
  cases hstage with
  | starting h hsteps =>
    subst hsteps
    refine ⟨⟨0, h.called, fun k _ => Nat.zero_le _⟩, fun _ => ⟨fun k _ => ⟨h.called, ?_⟩, fun _ => ⟨h.called, _, rfl⟩⟩⟩
    exact iff_of_false (by rintro ⟨⟩) (by omega)
  | @counting _ n h hsteps hbefore =>
    have hread : (steps + 1) / 2 = n + 1 := by omega
    refine ⟨⟨n + 1, h.called, fun k hk => Nat.succ_le_succ (hle hbefore hk)⟩, fun _ => ⟨fun k hk => ?_, fun _ => ?_⟩⟩
    · have hnk := hle hbefore hk.1
      rw [hread, min_eq_left (Nat.succ_le_succ hnk)]
      exact ⟨h.called, iff_of_false (by rintro ⟨⟩) (by omega)⟩
    · rw [hread]
      exact ⟨h.called, _, rfl⟩
  | @asking _ n h hsteps hbefore =>
    have hread : (steps + 1) / 2 = n + 1 := by omega
    refine ⟨⟨n + 1, h.called, fun k hk => Nat.le_succ_of_le (hle hbefore hk)⟩, fun _ => ⟨fun k hk => ?_, fun _ => ?_⟩⟩
    · have hnk := hle hbefore hk.1
      rw [hread, min_eq_left (Nat.le_succ_of_le hnk)]
      exact ⟨h.called, iff_of_false (by rintro ⟨⟩) (by omega)⟩
    · rw [hread]
      exact ⟨h.called, _, rfl⟩
  | @returned _ n h hsteps hbefore hend =>
    refine ⟨⟨n + 1, h.called, fun k hk => Nat.succ_le_succ (hle hbefore hk)⟩, fun hint => ?_⟩
    have hstill : StillAt c.window heights n := hend.resolve_right (by rw [hint]; exact Bool.false_ne_true)
    refine ⟨fun k hk => ?_, fun hnever => absurd hstill (hnever n)⟩
    obtain rfl : n = k := Nat.le_antisymm (hle hbefore hk.1) (hk.2 hstill)
    rw [min_eq_right (by omega)]
    exact ⟨h.called, iff_of_true rfl (by omega)⟩

/-- A chain that moves to another height and back is read until its height was the same three times in a row. -/
theorem reads_until_still_back :
    let heights : Nat → UInt64 := fun n => if n = 2 then 6 else 5
    let node : Node Nat := fun
      | .height, n => { state := n + 1, answer := some (heights n) }
      | _, n => { state := n, answer := none }
    let c : Setup Nat := ⟨{ syncWindowPolls := 2 }, node, { node := 0 }⟩
    let events : List Event := List.replicate 12 (.step .session)
    Tells c.node c.world.node heights ∧ IsLeast {k | StillAt c.window heights k} 5 ∧
      (c.run events).world.interrupted = false ∧ c.called (c.run events).world = told heights 6 ∧
      (c.run events).progress = .returned () := by
  intro heights node c events
  have hstate (n : Nat) : afterHeights node 0 n = n := by
    induction n with
    | zero => rfl
    | succ n ih => exact congrArg (fun m => (node .height m).state) ih
  have hc : Tells c.node c.world.node heights := by
    intro n
    show (node .height (afterHeights node 0 n)).answer = _
    rw [hstate]
  have hleast : IsLeast {k | StillAt c.window heights k} 5 := by
    refine ⟨(stillAt_iff 2 heights 5).2 (by decide +kernel), fun k hk => ?_⟩
    have hstill : 2 ≤ stillness heights k := (stillAt_iff 2 heights k).1 hk
    by_contra hlt
    have hbefore : ∀ k < 5, ¬ 2 ≤ stillness heights k := by decide +kernel
    exact hbefore k (Nat.lt_of_not_le hlt) hstill
  have hint : (c.run events).world.interrupted = false := by decide +kernel
  have hsteps : events.count (.step .session) = 12 := by decide +kernel
  have hreads := ((reads_until_still c heights hc events).2 hint).1 5 hleast
  rw [hsteps] at hreads
  exact ⟨hc, hleast, hint, hreads.1, hreads.2.2 (Nat.le_refl _)⟩

end HeaderMiner.SyncWait
