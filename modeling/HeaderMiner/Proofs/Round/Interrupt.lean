import HeaderMiner.Proofs.Round.Course
import HeaderMiner.Proofs.Round.Search
import HeaderMiner.Proofs.Round.Submission
import Mathlib

/-!
# The process interrupt

A round is interrupted from outside, or by the node while it serves a call. An event of a run makes one request at
most (`request?`), so it is known of each event whether it triggers the interrupt (`triggers`), and the interrupt is
set exactly if it was from the beginning or some event has triggered it (`Setup.interrupted_run`).
-/

namespace HeaderMiner

variable {σ : Type}

namespace Round

/-- The request that an event has the node answer. -/
def request? (e : Execution σ Round (Except Failure RoundReport)) : Event → Option Request
  | .step .session =>
    match e.progress with
    | .running (.submitting _ winner submission) => submission.request? winner
    | _ => none
  | event => (actor e event).bind Worker.request?

/-- The event triggers the process interrupt: from outside, or through the node's answer to a call. -/
def triggers (node : Node σ) (e : Execution σ Round (Except Failure RoundReport)) : Event → Bool
  | .interrupt => true
  | event => (request? e event).any fun request => (node request e.world.node).interrupts

/-- The process interrupt was triggered before the run or by an event of it. -/
def Setup.Triggered (r : Setup σ) (events : List Event) : Prop :=
  r.world.interrupted = true ∨
    ∃ before event, before ++ [event] <+: events ∧ triggers r.node (r.run before) event = true

variable (r : Setup σ)

theorem Setup.interrupted_next (e : Execution σ Round (Except Failure RoundReport)) (event : Event) :
    (e.next r.move event).world.interrupted = (e.world.interrupted || triggers r.node e event) := by
  obtain ⟨progress, world⟩ := e
  have hidle : world.interrupted = (world.interrupted || false) := (Bool.or_false _).symm
  cases event with
  | interrupt => exact (Bool.or_true _).symm
  | elapse nanos => exact hidle
  | step who =>
    cases progress with
    | returned | crashed => cases who <;> exact hidle
    | running round =>
      cases round with
      | opening => cases who <;> exact hidle
      | searching work started spawning board workers =>
        have hadvances := move_advances r.config r.host r.node who work started spawning board workers world
        simp only [Execution.next, Setup.move]
        generalize Round.move r.config r.host r.node who (.searching work started spawning board workers) world =
          result at hadvances
        cases hadvances with
        | @stepped _ id w hid hw =>
          simp only [triggers, request?, actor, if_pos hid, hw]
          exact (w.step_asks r.node ⟨board, world⟩).interrupted_eq
        | waits hwaits =>
          cases who with
          | session => exact hidle
          | worker id =>
            simp only [triggers, request?, actor, hwaits id rfl]
            exact hidle
        | spawned | refused | crashed | unsolved | solved | unspawned | collapsed => exact hidle
      | submitting report winner submission =>
        cases who with
        | worker id => exact hidle
        | session =>
          have hasks := (submission.move_asks r.config r.node winner world).interrupted_eq
          simp only [Execution.next, Setup.move, Round.move]
          split
          all_goals
            rename_i hmove
            rw [hmove] at hasks
            exact hasks

/-- The interrupt is set exactly if it was triggered. -/
theorem Setup.interrupted_run (events : List Event) :
    (r.run events).world.interrupted = true ↔ r.Triggered events := by
  induction events using List.reverseRecOn with
  | nil => simp [Setup.Triggered, Setup.run, Execution.run]
  | append_singleton events event ih =>
    rw [r.run_concat, r.interrupted_next, Bool.or_eq_true, ih]
    constructor
    · rintro ((hworld | ⟨before, earlier, hinitial, htriggers⟩) | htriggers)
      · exact .inl hworld
      · exact .inr ⟨before, earlier, hinitial.trans (List.prefix_append _ _), htriggers⟩
      · exact .inr ⟨events, event, List.prefix_refl _, htriggers⟩
    · rintro (hworld | ⟨before, earlier, hinitial, htriggers⟩)
      · exact .inl (.inl hworld)
      · rcases List.prefix_concat_iff.1 hinitial with heq | hinitial
        · obtain ⟨rfl, ⟨⟩⟩ := List.append_inj' heq rfl
          exact .inr htriggers
        · exact .inl (.inr ⟨before, earlier, hinitial, htriggers⟩)

theorem Setup.interrupted_append {events : List Event} (h : (r.run events).world.interrupted = true)
    (more : List Event) : (r.run (events ++ more)).world.interrupted = true := by
  rw [r.interrupted_run] at h ⊢
  rcases h with hworld | ⟨before, event, hinitial, htriggers⟩
  · exact .inl hworld
  · exact .inr ⟨before, event, hinitial.trans (List.prefix_append _ _), htriggers⟩

end Round

end HeaderMiner
