import HeaderMiner.Proofs.Round.Requests
import HeaderMiner.Proofs.Session.Stage
import Mathlib

/-!
# The requests of a session

The calls of a session are those of its own thread between the rounds and those of its rounds, in their order. What
the node has become is what these calls have made of it (`Walk.served`, `Opens.served`).
-/

namespace HeaderMiner.Session

variable {σ : Type}

namespace Setup

variable (c : Setup σ)

/-- The requests that the node has answered in the session, oldest first. -/
def called (world : World σ) : List Call := calls (c.entries world)

@[simp] theorem called_begin : c.called c.world = [] := congrArg calls c.world.since_self

theorem called_of_rests {world world' : World σ} (h : world.Rests world') : c.called world' = c.called world := by
  rw [called, entries, World.since, h.journal]
  rfl

theorem called_log {world : World σ} (hsize : c.world.journal.size ≤ world.journal.size) (n : Notice) :
    c.called (world.log n) = c.called world := by
  rw [called, entries, World.since_append hsize (world.journal_log n), calls_append]
  exact List.append_nil _

theorem called_of_ended {world world' : World σ} (hsize : c.world.journal.size ≤ world.journal.size) {n : Notice}
    (hrest : (world.log n).Rests world') : c.called world' = c.called world := by
  rw [c.called_of_rests hrest, c.called_log hsize]

end Setup

variable {c : Setup σ} {reports : List RoundReport} {s : Session} {world opening world' : World σ} {work : Work}
  {events : List Event} {progress : Progress Session (Except Failure Stats)}
  {result : Progress Round (Except Failure RoundReport)}

theorem size_le_round (hround : (c.round work opening).run events = ⟨result, world⟩) :
    opening.journal.size ≤ world.journal.size := by
  have hsize := (c.round work opening).size_journal_run events
  rw [hround] at hsize
  exact hsize

theorem Walk.size_le (h : Walk c reports s world) : c.world.journal.size ≤ world.journal.size := by
  induction h with
  | begun => exact Nat.le_refl _
  | interrupted _ ih | elapsed _ _ ih => exact ih
  | walked h hstep _ ih => exact ih.trans (h.serves hstep).size_le
  | mined h hstep hround _ ih => exact (ih.trans (h.serves hstep).size_le).trans (size_le_round hround)

theorem Walk.called_step (h : Walk c reports s world) (hstep : c.move .session s world = (progress, world')) :
    c.called world' = c.called world ++ world.answered c.node .session (s.request? c.config) :=
  (h.serves hstep).calls_since h.size_le

theorem Opens.size_le (h : Opens c reports s work opening) : c.world.journal.size ≤ opening.journal.size := by
  obtain ⟨world, hwalk, hstep⟩ := h
  exact hwalk.size_le.trans (hwalk.serves hstep).size_le

/-- The calls of a round come after those before its opening. -/
theorem Opens.called_round (h : Opens c reports s work opening)
    (hround : (c.round work opening).run events = ⟨result, world⟩) :
    c.called world = c.called opening ++ calls ((c.round work opening).entries world) := by
  have hcalls := (c.round work opening).calls_since_run h.size_le events
  rw [hround] at hcalls
  exact hcalls

theorem served_round (hround : (c.round work opening).run events = ⟨result, world⟩) :
    Served c.node opening.node (calls ((c.round work opening).entries world)) world.node := by
  have hserved := (c.round work opening).served_run events
  rw [hround] at hserved
  exact hserved

theorem Walk.served_step (h : Walk c reports s world)
    (hserved : Served c.node c.world.node (c.called world) world.node)
    (hstep : c.move .session s world = (progress, world')) :
    Served c.node c.world.node (c.called world') world'.node := by
  rw [h.called_step hstep]
  exact hserved.serves (h.serves hstep)

/-- What a session has made of the node, it has made of it by its calls. -/
theorem Walk.served (h : Walk c reports s world) : Served c.node c.world.node (c.called world) world.node := by
  induction h with
  | begun =>
    rw [c.called_begin]
    exact .start
  | interrupted _ ih | elapsed _ _ ih => exact ih
  | walked h hstep _ ih => exact h.served_step ih hstep
  | @mined _ _ before _ _ _ _ _ h hstep hround _ ih =>
    have hopens : Opens c _ _ _ _ := ⟨before, h, hstep⟩
    rw [hopens.called_round hround]
    exact (h.served_step ih hstep).trans (served_round hround)

theorem Opens.served (h : Opens c reports s work opening) :
    Served c.node c.world.node (c.called opening) opening.node := by
  obtain ⟨world, hwalk, hstep⟩ := h
  exact hwalk.served_step hwalk.served hstep

theorem Opens.served_round (h : Opens c reports s work opening)
    (hround : (c.round work opening).run events = ⟨result, world⟩) :
    Served c.node c.world.node (c.called world) world.node := by
  rw [h.called_round hround]
  exact h.served.trans (Session.served_round hround)

theorem Opens.size_le_round (h : Opens c reports s work opening)
    (hround : (c.round work opening).run events = ⟨result, world⟩) :
    c.world.journal.size ≤ world.journal.size :=
  h.size_le.trans (Session.size_le_round hround)

/-- Whatever a run has made of the node, it has made of it by its calls. -/
theorem Setup.served_run (c : Setup σ) (events : List Event) :
    Served c.node c.world.node (c.called (c.run events).world) (c.run events).world.node := by
  have hrests {world world' : World σ} (h : Served c.node c.world.node (c.called world) world.node)
      (hrest : world.Rests world') : Served c.node c.world.node (c.called world') world'.node := by
    rw [c.called_of_rests hrest, hrest.node]
    exact h
  have hlog {world : World σ} {n : Notice} (hsize : c.world.journal.size ≤ world.journal.size)
      (h : Served c.node c.world.node (c.called world) world.node) :
      Served c.node c.world.node (c.called (world.log n)) (world.log n).node := by
    rw [c.called_log hsize]
    exact h
  have hstage := stage_run (c := c) events
  generalize c.run events = e at hstage
  generalize c.reports events = reports at hstage
  cases hstage with
  | between h => exact h.served
  | mining h hround => exact h.served_round hround
  | concluded h _ _ hrest => exact hrests (hlog h.size_le h.served) hrest
  | cut h hround _ hrest => exact hrests (hlog (h.size_le_round hround) (h.served_round hround)) hrest
  | failed h hround hrest => exact hrests (h.served_round hround) hrest
  | crashed h hstep hrest => exact hrests (h.served_step h.served hstep) hrest
  | lost h hround hrest => exact hrests (h.served_round hround) hrest

end HeaderMiner.Session
