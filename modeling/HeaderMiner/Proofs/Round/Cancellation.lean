import HeaderMiner.Proofs.Round.Reasons
import HeaderMiner.Proofs.Round.Sequel
import Mathlib

/-!
# Cancellation

A worker looks at the stop flag at the end of each window, and the lead at the interrupt as well. So what a worker can
still hash is bounded by what is left of its window (`inWindow`) once the stop flag is up; the lead may have passed its
look at the interrupt, and then has one whole window more (`beforeNotice`). Each step pays for what it hashes out of
these, and each step also brings the worker nearer to its end (`toEnd`), or the lead to raising the flag (`toStop`).
-/

namespace HeaderMiner

variable {σ : Type}

namespace Worker

/-- The nonces of a whole window. -/
def windowSize (w : Worker) : Nat := w.settings.resyncBatches * w.settings.lanes.count

/-- The most nonces that a worker hashes in the rest of its window. -/
def inWindow (w : Worker) : Nat :=
  match w.phase with
  | .starting => w.windowSize
  | .hashing left | .testing left _ => left * w.settings.lanes.count
  | _ => 0

/-- The most nonces that the lead hashes before it looks at the interrupt, or sees that it is to stop. -/
def beforeNotice (w : Worker) : Nat :=
  match w.phase with
  | .watchingStop | .watchingInterrupt | .askingTip | .deciding => w.windowSize
  | _ => w.inWindow

/-- The most steps of a batch. -/
def batchSteps (w : Worker) : Nat := w.settings.lanes.count + 2

/-- The most steps of a window of batches. -/
def windowSteps (w : Worker) : Nat := w.settings.resyncBatches * w.batchSteps

/-- The most steps that a worker takes once the stop flag is up. -/
def toEnd (w : Worker) : Nat :=
  match w.phase with
  | .starting => w.windowSteps + 13
  | .testing left pending => left * w.batchSteps + 13 + pending.length
  | .hashing left => left * w.batchSteps + 12
  | .refreshing => 11
  | .publishing => 10
  | .observing => 9
  | .watchingInterrupt => 8
  | .askingTip => 7
  | .superseding | .claiming _ => 6
  | .cancelling | .watchingStop | .abandoning | .announcing _ => 5
  | .deciding | .closing _ _ => 4
  | .finishing => 3
  | .exhausting => 2
  | .concluding => 1
  | .done | .crashed => 0

/-- The most steps that the lead takes once the process is interrupted, until it raises the stop flag. -/
def toStop (w : Worker) : Nat :=
  match w.phase with
  | .askingTip => w.windowSteps + 9
  | .watchingStop => w.windowSteps + 8
  | .watchingInterrupt => w.windowSteps + 7
  | .deciding | .starting => w.windowSteps + 6
  | .testing left pending => left * w.batchSteps + 6 + pending.length
  | .hashing left => left * w.batchSteps + 5
  | .refreshing => 4
  | .publishing | .claiming _ | .finishing => 3
  | .observing | .announcing _ | .superseding | .exhausting => 2
  | .cancelling | .abandoning | .closing _ _ | .concluding => 1
  | .done | .crashed => 0

/-- A worker is not past the batches of its window, and tests no more digests than a batch has. -/
def Paced (w : Worker) : Prop :=
  match w.phase with
  | .hashing left => left ≤ w.settings.resyncBatches
  | .testing left pending => left < w.settings.resyncBatches ∧ pending.length ≤ w.settings.lanes.count
  | _ => True

variable {w w' : Worker} {b : Board} {interrupted : Bool} {moved : Prop} {new : List Entry}

theorem length_batch_le (hmore : w.remaining ≠ 0) : w.batch.length ≤ w.settings.lanes.count := by
  rw [w.length_batch hmore]
  exact Nat.min_le_left _ _

theorem Goes.paced (h : w.Goes b interrupted w' new) (hw : w.Paced) : w'.Paced := by
  cases h with
  | scan | resume => exact Nat.le_refl _
  | hash hphase hmore =>
    simp only [Paced, hphase] at hw
    exact ⟨hw, length_batch_le hmore⟩
  | tested hphase =>
    simp only [Paced, hphase] at hw
    exact hw.1.le
  | dismiss hphase | mislead hphase =>
    simp only [Paced, hphase, List.length_cons] at hw
    exact ⟨hw.1, (Nat.le_succ _).trans hw.2⟩
  | watchStop => cases b.stop <;> trivial
  | watchInterrupt => cases interrupted <;> trivial
  | rest => exact hw
  | _ => trivial

/-! ### Bounds of a worker that keeps its pace -/

theorem Paced.inWindow_le (h : w.Paced) : w.inWindow ≤ w.windowSize := by
  revert h
  unfold Paced inWindow windowSize
  cases w.phase with
  | hashing left =>
    intro hleft
    exact Nat.mul_le_mul_right _ hleft
  | testing left pending =>
    rintro ⟨hleft, -⟩
    exact Nat.mul_le_mul_right _ hleft.le
  | starting => exact fun _ => Nat.le_refl _
  | _ => exact fun _ => Nat.zero_le _

theorem Paced.beforeNotice_le (h : w.Paced) : w.beforeNotice ≤ w.windowSize := by
  unfold beforeNotice
  split
  · exact Nat.le_refl _
  · exact Nat.le_refl _
  · exact Nat.le_refl _
  · exact Nat.le_refl _
  · exact h.inWindow_le

theorem Paced.toEnd_le (h : w.Paced) : w.toEnd ≤ w.windowSteps + 13 := by
  revert h
  unfold Paced toEnd windowSteps
  cases w.phase with
  | hashing left =>
    intro hleft
    have hsteps := Nat.mul_le_mul_right w.batchSteps hleft
    dsimp only
    omega
  | testing left pending =>
    rintro ⟨hleft, hpending⟩
    have hsteps := Nat.mul_le_mul_right w.batchSteps (Nat.succ_le_of_lt hleft)
    rw [Nat.succ_mul, batchSteps] at hsteps
    dsimp only [batchSteps] at hsteps ⊢
    omega
  | _ =>
    intro _
    dsimp only
    omega

theorem Paced.toStop_le (h : w.Paced) : w.toStop ≤ w.windowSteps + 9 := by
  revert h
  unfold Paced toStop windowSteps
  cases w.phase with
  | hashing left =>
    intro hleft
    have hsteps := Nat.mul_le_mul_right w.batchSteps hleft
    dsimp only
    omega
  | testing left pending =>
    rintro ⟨hleft, hpending⟩
    have hsteps := Nat.mul_le_mul_right w.batchSteps (Nat.succ_le_of_lt hleft)
    rw [Nat.succ_mul, batchSteps] at hsteps
    dsimp only [batchSteps] at hsteps ⊢
    omega
  | _ =>
    intro _
    dsimp only
    omega

/-! ### What a step pays -/

/-- Once the stop flag is up, a step pays for what it hashes from the rest of the window. -/
theorem Goes.pays_inWindow (h : w.Goes b interrupted w' new) (hb : b.stop = true) :
    w.nextNonces.length + w'.inWindow ≤ w.inWindow := by
  obtain ⟨-, hcount⟩ := h.counts
  have hidle (hhashes : w'.hashes = w.hashes) (hle : w'.inWindow ≤ w.inWindow) :
      w.nextNonces.length + w'.inWindow ≤ w.inWindow := by omega
  cases h with
  | @hash left hphase hmore =>
    have hbatch := length_batch_le hmore
    rw [nextNonces_of_hashing hphase hmore, List.length_map]
    simp only [inWindow, hphase, hashBatch, Nat.succ_mul]
    omega
  | scan hphase =>
    refine hidle rfl ?_
    simp only [inWindow, hphase]
    exact Nat.le_refl _
  | tested hphase | dismiss hphase | mislead hphase =>
    refine hidle rfl ?_
    simp only [inWindow, hphase]
    exact Nat.le_refl _
  | watchStop hphase =>
    refine hidle rfl ?_
    simp only [hb, if_true]
    exact Nat.zero_le _
  | watchInterrupt => cases interrupted <;> exact hidle rfl (Nat.zero_le _)
  | refresh =>
    obtain ⟨-, hhashes, -⟩ := counts_setTime w _
    exact hidle hhashes (Nat.zero_le _)
  | rest => exact hidle rfl (Nat.le_refl _)
  | resume _ hnot =>
    rw [hb] at hnot
    cases hnot
  | _ => exact hidle rfl (Nat.zero_le _)

/-- Once the process is interrupted, a step of the lead pays from what it hashes before it takes notice, unless it
raises the stop flag. -/
theorem Goes.pays_beforeNotice (h : w.Goes b true w' new) (hlead : w.isLead = true) :
    (w.writes b).stop = true ∨ w.nextNonces.length + w'.beforeNotice ≤ w.beforeNotice := by
  obtain ⟨-, hcount⟩ := h.counts
  have hidle (hhashes : w'.hashes = w.hashes) (hle : w'.beforeNotice ≤ w.beforeNotice) :
      w.nextNonces.length + w'.beforeNotice ≤ w.beforeNotice := by omega
  cases h with
  | @hash left hphase hmore =>
    right
    have hbatch := length_batch_le hmore
    rw [nextNonces_of_hashing hphase hmore, List.length_map]
    simp only [beforeNotice, inWindow, hphase, hashBatch, Nat.succ_mul]
    omega
  | scan hphase =>
    refine .inr (hidle rfl ?_)
    simp only [beforeNotice, inWindow, hphase]
    exact Nat.le_refl _
  | tested hphase | dismiss hphase | mislead hphase =>
    refine .inr (hidle rfl ?_)
    simp only [beforeNotice, inWindow, hphase]
    exact Nat.le_refl _
  | cancel hphase | abandon hphase =>
    left
    rw [stop_writes, halts, hphase]
    exact Bool.or_true _
  | watchStop hphase =>
    refine .inr (hidle rfl ?_)
    simp only [beforeNotice, hphase]
    cases b.stop <;> exact Nat.le_refl _
  | watchInterrupt hphase | wait hphase | sameTip hphase | resume hphase =>
    refine .inr (hidle rfl ?_)
    simp only [beforeNotice, hphase]
    exact Nat.le_refl _
  | follow _ hfollow =>
    rw [hlead] at hfollow
    cases hfollow
  | watch _ hint => cases hint
  | refresh =>
    obtain ⟨-, hhashes, -⟩ := counts_setTime w _
    exact .inr (hidle hhashes (Nat.zero_le _))
  | rest => exact .inr (hidle rfl (Nat.le_refl _))
  | _ => exact .inr (hidle rfl (Nat.zero_le _))

/-- The lead is done only once the stop flag is up. -/
theorem Goes.stop_of_done (h : w.Goes b interrupted w' new) (hlead : w.isLead = true)
    (hwarranted : w.Warranted b interrupted moved) (hdone : w'.phase = .done) :
    w.phase = .done ∨ (w.writes b).stop = true := by
  cases h with
  | finish hphase hexit =>
    -- a lead that ends without having run out of nonces has seen the flag
    right
    simp only [Warranted, hphase] at hwarranted
    refine w.stop_stays (hwarranted fun hexhausted => ?_)
    rw [hexit hexhausted] at hlead
    cases hlead
  | conclude hphase =>
    right
    rw [stop_writes, halts, hphase]
    exact Bool.or_true _
  | rest => exact .inl hdone
  | dismiss | mislead | hit | tested => cases hdone
  | watchStop => cases hb : b.stop <;> simp [goto, hb] at hdone
  | watchInterrupt => cases interrupted <;> cases hdone
  | _ => cases hdone

/-- Once the stop flag is up, a step brings a worker nearer to its end. -/
theorem Goes.toEnd_lt (h : w.Goes b interrupted w' new) (hb : b.stop = true) (hw : w.hasEnded = false) :
    w'.toEnd < w.toEnd := by
  cases h with
  | hash hphase hmore =>
    have hbatch := length_batch_le hmore
    simp only [toEnd, batchSteps, hphase, hashBatch, Nat.succ_mul]
    omega
  | crash hrequest =>
    show 0 < w.toEnd
    rcases phase_of_request? hrequest with ⟨left, pending, hphase⟩ | hphase | hphase
    all_goals
      simp only [toEnd, hphase]
      omega
  | dismiss hphase | mislead hphase =>
    simp only [toEnd, batchSteps, hphase, List.length_cons, goto]
    omega
  | tested hphase =>
    simp only [toEnd, batchSteps, hphase, goto]
    omega
  | scan hphase =>
    simp only [toEnd, windowSteps, batchSteps, hphase, openWindow, goto]
    omega
  | refresh hphase =>
    simp only [toEnd, hphase, goto]
    omega
  | watchStop hphase =>
    simp only [toEnd, hphase, goto, hb, if_true]
    omega
  | watchInterrupt hphase =>
    simp only [toEnd, hphase, goto]
    cases interrupted <;> simp
  | resume _ hnot =>
    rw [hb] at hnot
    cases hnot
  | rest hended =>
    rw [hw] at hended
    cases hended
  | scanNothing hphase | endWindow hphase | runOut hphase | hit hphase | win hphase | lose hphase | announce hphase
  | close hphase | lead hphase | follow hphase | notice hphase | watch hphase | cancel hphase | wait hphase
  | sameTip hphase | newTip hphase | supersede hphase | abandon hphase | stop hphase | finish hphase
  | finishLast hphase | exhaust hphase | conclude hphase =>
    simp only [toEnd, hphase, goto, leave]
    omega

/-- Once the process is interrupted, a step brings the lead nearer to raising the stop flag. -/
theorem Goes.toStop_lt (h : w.Goes b true w' new) (hlead : w.isLead = true) (hwarranted : w.Warranted b true moved)
    (hw : w.hasEnded = false) : (w.writes b).stop = true ∨ w'.toStop < w.toStop := by
  have hdone := h.stop_of_done hlead hwarranted
  cases h with
  | hash hphase hmore =>
    right
    have hbatch := length_batch_le hmore
    simp only [toStop, batchSteps, hphase, hashBatch, Nat.succ_mul]
    omega
  | crash hrequest =>
    right
    show 0 < w.toStop
    rcases phase_of_request? hrequest with ⟨left, pending, hphase⟩ | hphase | hphase
    all_goals
      simp only [toStop, hphase]
      omega
  | dismiss hphase | mislead hphase =>
    right
    simp only [toStop, batchSteps, hphase, List.length_cons, goto]
    omega
  | tested hphase =>
    right
    simp only [toStop, batchSteps, hphase, goto]
    omega
  | scan hphase | resume hphase =>
    right
    simp only [toStop, windowSteps, batchSteps, hphase, openWindow, goto]
    omega
  | refresh hphase =>
    right
    simp only [toStop, hphase, goto]
    omega
  | watchStop hphase =>
    right
    simp only [toStop, windowSteps, batchSteps, hphase, goto]
    cases b.stop <;> simp only [Bool.false_eq_true, if_false, if_true] <;> omega
  | watchInterrupt hphase =>
    right
    simp only [toStop, windowSteps, batchSteps, hphase, goto, if_true]
    omega
  | follow _ hfollow =>
    rw [hlead] at hfollow
    cases hfollow
  | watch _ hint => cases hint
  | close hphase | cancel hphase | abandon hphase =>
    left
    rw [stop_writes, halts, hphase]
    exact Bool.or_true _
  | stop _ hb => exact .inl (w.stop_stays hb)
  | finish hphase | conclude hphase =>
    refine .inl ((hdone rfl).resolve_left ?_)
    rw [hphase]
    rintro ⟨⟩
  | rest hended =>
    rw [hw] at hended
    cases hended
  | scanNothing hphase | endWindow hphase | runOut hphase | hit hphase | win hphase | lose hphase | announce hphase
  | lead hphase | notice hphase | wait hphase | sameTip hphase | newTip hphase | supersede hphase
  | finishLast hphase | exhaust hphase =>
    right
    simp only [toStop, windowSteps, batchSteps, hphase, goto, leave]
    omega

theorem step_of_hasEnded (node : Node σ) (w : Worker) (s : Shared σ) (hw : w.hasEnded = true) :
    w.step node s = (w, s) := by
  rw [hasEnded, decide_eq_true_iff] at hw
  rcases hw with hphase | hphase <;> simp only [step, hphase]

/-- A step that crashes the worker has made a request that the node did not answer. -/
theorem unanswered_of_crashed (node : Node σ) (w : Worker) (s : Shared σ)
    (hcrashed : (w.step node s).1.phase = .crashed) :
    w.phase = .crashed ∨ ∃ request, w.request? = some request ∧ (node request s.world.node).answer = none := by
  obtain ⟨new, hjournal, hgoes⟩ := w.step_takesBranch node s
  have hcalls := (w.step_serves node s).calls_eq hjournal
  generalize (w.step node s).1 = w' at hgoes hcrashed
  cases hgoes with
  | crash hrequest hnone =>
    right
    obtain ⟨request, hrequest⟩ := Option.isSome_iff_exists.1 hrequest
    rw [hnone, hrequest] at hcalls
    refine ⟨request, hrequest, ?_⟩
    cases hanswer : (node request s.world.node).answer with
    | none => rfl
    | some answer =>
      rw [World.answered, Option.bind_some, hanswer] at hcalls
      cases hcalls
  | rest => exact .inl hcrashed
  | hash | hit | mislead | dismiss | tested => cases hcrashed
  | watchStop => cases hb : s.board.stop <;> simp [goto, hb] at hcrashed
  | watchInterrupt => cases hi : s.world.interrupted <;> simp [goto, hi] at hcrashed
  | _ => cases hcrashed

end Worker

namespace Round

variable {r : Setup σ} {history later : List Worker} {spawning spawning' : Spawning} {workers workers' : Array Worker}
  {s s' : Shared σ} {i : Nat} {w : Worker}

/-- The most nonces that a worker of the round hashes in one window. -/
def Setup.window (r : Setup σ) : Nat := r.settings.resyncBatches * r.settings.lanes.count

/-- The most steps that a worker of the round takes in one window of batches. -/
def Setup.windowSteps (r : Setup σ) : Nat := r.settings.resyncBatches * (r.settings.lanes.count + 2)

/-- The steps that a worker took before it ended. -/
def activeSteps (history : List Worker) (i : Nat) : Nat :=
  ((history.filter (·.id = i)).filter (·.hasEnded = false)).length

theorem length_hashed_append (history later : List Worker) (i : Nat) :
    (hashed (history ++ later) i).length =
      (hashed history i).length + ((later.filter (·.id = i)).map fun w => w.nextNonces.length).sum := by
  rw [hashed, List.filter_append, List.flatMap_append, List.length_append, List.length_flatMap (l := later.filter _)]
  rfl

theorem activeSteps_append (history later : List Worker) (i : Nat) :
    activeSteps (history ++ later) i = activeSteps history i +
      ((later.filter (·.id = i)).map fun w => if w.hasEnded then 0 else 1).sum := by
  have hcount (xs : List Worker) :
      (xs.filter (·.hasEnded = false)).length = (xs.map fun w => if w.hasEnded then 0 else 1).sum := by
    induction xs with
    | nil => rfl
    | cons x xs ih =>
      rw [List.filter_cons, List.map_cons, List.sum_cons, ← ih]
      cases x.hasEnded <;> simp [Nat.add_comm]
  rw [activeSteps, List.filter_append, List.filter_append, List.length_append, hcount (later.filter _), activeSteps]

theorem Search.paced (h : Search r history spawning workers s) :
    ∀ (i : Nat) (w : Worker), workers[i]? = some w → w.Paced := by
  induction h with
  | opened =>
    intro i w hw
    rw [Search.getElem?_crew] at hw
    obtain ⟨slice, -, rfl⟩ := Option.map_eq_some_iff.1 hw
    trivial
  | @stepped _ _ _ s j v _ hv ih =>
    obtain ⟨_, -, hgoes⟩ := v.step_takesBranch r.node s
    exact Search.forall_set ih hv hgoes.paced fun _ _ _ _ => id
  | spawned _ _ ih | refused _ _ ih | interrupted _ ih | elapsed _ _ ih => exact ih

theorem Search.stop_of_lead_done (h : Search r history spawning workers s) {lead : Worker}
    (hlead : workers[0]? = some lead) (hdone : lead.phase = .done) : s.board.stop = true := by
  induction h generalizing lead with
  | opened =>
    rw [Search.getElem?_crew] at hlead
    obtain ⟨slice, -, rfl⟩ := Option.map_eq_some_iff.1 hlead
    cases hdone
  | @stepped _ _ _ s j v hsearch hv ih =>
    obtain ⟨_, -, hgoes⟩ := v.step_takesBranch r.node s
    rw [v.step_board r.node s]
    by_cases hj : j = 0
    · subst hj
      rw [Array.getElem?_setIfInBounds_self_of_lt (Array.getElem?_eq_some_iff.1 hv).1] at hlead
      cases hlead
      have hid : v.isLead = true := beq_iff_eq.2 (hsearch.id_eq hv)
      rcases hgoes.stop_of_done hid (hsearch.reasons.each 0 v hv) hdone with hended | hstop
      · exact v.stop_stays (ih hv hended)
      · exact hstop
    · rw [Array.getElem?_setIfInBounds_ne hj] at hlead
      exact v.stop_stays (ih hlead hdone)
  | refused => rfl
  | spawned _ _ ih | interrupted _ ih | elapsed _ _ ih => exact ih hlead hdone

theorem Search.phase_ne_crashed (h : Search r history spawning workers s)
    (hnode : ∀ (request : Request) (state : σ), (r.node request state).answer.isSome) :
    ∀ (i : Nat) (w : Worker), workers[i]? = some w → w.phase ≠ .crashed := by
  induction h with
  | opened =>
    intro i w hw
    rw [Search.getElem?_crew] at hw
    obtain ⟨slice, -, rfl⟩ := Option.map_eq_some_iff.1 hw
    rintro ⟨⟩
  | @stepped _ _ _ s j v _ hv ih =>
    refine Search.forall_set ih hv (fun hnot hcrashed => ?_) fun _ _ _ _ => id
    rcases v.unanswered_of_crashed r.node s hcrashed with hw | ⟨request, -, hnone⟩
    · exact hnot hw
    · have hsome := hnode request s.world.node
      rw [hnone] at hsome
      cases hsome
  | spawned _ _ ih | refused _ _ ih | interrupted _ ih | elapsed _ _ ih => exact ih

theorem lasting_stop (node : Node σ) : Lasting node fun s => s.board.stop = true := by
  refine ⟨fun w s h => ?_, fun _ _ => rfl, fun _ h => h, fun _ _ h => h⟩
  rw [w.step_board node s]
  exact w.stop_stays h

/-! ### Searches that go on -/

theorem Search.settings_eq (h : Search r history spawning workers s) (hw : workers[i]? = some w) :
    w.settings = r.settings := by
  obtain ⟨_, -, htask⟩ := h.task hw
  exact htask.settings

/-- What the steps of a worker cost is bounded by the budget that workers start with, unless they bring about `Q`. -/
theorem Search.spent_le {P Q : Shared σ → Prop} {cost : Worker → Nat} {bound : Nat}
    (h : Search r history spawning workers s) (budget : Worker → Nat)
    (hsequel : Sequel r spawning workers s later spawning' workers' s')
    (hP : Lasting r.node P) (hQ : Lasting r.node Q)
    (hpay : ∀ (history : List Worker) (spawning : Spawning) (workers : Array Worker) (s : Shared σ) (v : Worker),
      Search r history spawning workers s → workers[i]? = some v → P s →
      Q (v.step r.node s).2 ∨ cost v + budget (v.step r.node s).1 ≤ budget v)
    (hs : P s) (hbound : ∀ w, workers[i]? = some w → budget w ≤ bound) :
    Q s' ∨ ((later.filter (·.id = i)).map cost).sum ≤ bound := by
  cases hw : workers[i]? with
  | some w =>
    rcases hsequel.spent h hP hQ hpay hs hw with hq | ⟨w', -, hle⟩
    · exact .inl hq
    · have hstart := hbound w hw
      exact .inr (by omega)
  | none =>
    have hnone : later.filter (·.id = i) = [] := by
      refine List.filter_eq_nil_iff.2 fun v hv => ?_
      have hlt := (h.sequel hsequel).id_lt v (List.mem_append_right _ hv)
      rw [Array.getElem?_eq_none_iff, h.size_workers] at hw
      rw [decide_eq_true_iff]
      omega
    rw [hnone]
    exact .inr (Nat.zero_le _)

theorem Search.hashed_le_of_stop (h : Search r history spawning workers s) (hstop : s.board.stop = true)
    (hsequel : Sequel r spawning workers s later spawning' workers' s') (i : Nat) :
    (hashed (history ++ later) i).length ≤ (hashed history i).length + r.window := by
  rw [length_hashed_append]
  refine Nat.add_le_add_left ?_ _
  refine (h.spent_le Worker.inWindow hsequel (lasting_stop r.node) (lasting_false r.node) ?_ hstop
    fun w hw => ?_).resolve_left id
  · intro _ _ _ s v _ _ hs
    obtain ⟨_, -, hgoes⟩ := v.step_takesBranch r.node s
    exact .inr (hgoes.pays_inWindow hs)
  · have hle := (h.paced i w hw).inWindow_le
    rw [Worker.windowSize, h.settings_eq hw] at hle
    exact hle

theorem Search.activeSteps_le_of_stop (h : Search r history spawning workers s) (hstop : s.board.stop = true)
    (hsequel : Sequel r spawning workers s later spawning' workers' s') (i : Nat) :
    activeSteps (history ++ later) i ≤ activeSteps history i + (r.windowSteps + 13) := by
  rw [activeSteps_append]
  refine Nat.add_le_add_left ?_ _
  refine (h.spent_le Worker.toEnd hsequel (lasting_stop r.node) (lasting_false r.node) ?_ hstop
    fun w hw => ?_).resolve_left id
  · intro _ _ _ s v _ _ hs
    obtain ⟨_, -, hgoes⟩ := v.step_takesBranch r.node s
    right
    cases hended : v.hasEnded with
    | true =>
      rw [v.step_of_hasEnded r.node s hended]
      exact (Nat.zero_add _).le
    | false =>
      have hlt := hgoes.toEnd_lt hs hended
      simp only [Bool.false_eq_true, if_false]
      omega
  · have hle := (h.paced i w hw).toEnd_le
    rw [Worker.windowSteps, Worker.batchSteps, h.settings_eq hw] at hle
    exact hle

theorem Search.hashed_le_of_interrupted (h : Search r history spawning workers s) (hint : s.world.interrupted = true)
    (hsequel : Sequel r spawning workers s later spawning' workers' s') (hstop : s'.board.stop = false) :
    (hashed (history ++ later) 0).length ≤ (hashed history 0).length + r.window := by
  rw [length_hashed_append]
  refine Nat.add_le_add_left ?_ _
  refine (h.spent_le Worker.beforeNotice hsequel (lasting_interrupted r.node) (lasting_stop r.node) ?_ hint
    fun w hw => ?_).resolve_left ?_
  · intro _ _ _ s v hnow hv hs
    obtain ⟨_, -, hgoes⟩ := v.step_takesBranch r.node s
    rw [hs] at hgoes
    rw [v.step_board r.node s]
    exact hgoes.pays_beforeNotice (beq_iff_eq.2 (hnow.id_eq hv))
  · have hle := (h.paced 0 w hw).beforeNotice_le
    rw [Worker.windowSize, h.settings_eq hw] at hle
    exact hle
  · rw [hstop]
    rintro ⟨⟩

theorem Search.activeSteps_le_of_interrupted (h : Search r history spawning workers s)
    (hint : s.world.interrupted = true) (hsequel : Sequel r spawning workers s later spawning' workers' s')
    (hstop : s'.board.stop = false) :
    activeSteps (history ++ later) 0 ≤ activeSteps history 0 + (r.windowSteps + 9) := by
  rw [activeSteps_append]
  refine Nat.add_le_add_left ?_ _
  refine (h.spent_le Worker.toStop hsequel (lasting_interrupted r.node) (lasting_stop r.node) ?_ hint
    fun w hw => ?_).resolve_left ?_
  · intro _ _ _ s v hnow hv hs
    obtain ⟨_, -, hgoes⟩ := v.step_takesBranch r.node s
    have hwarranted := hnow.reasons.each 0 v hv
    rw [hs] at hgoes hwarranted
    rw [v.step_board r.node s]
    cases hended : v.hasEnded with
    | true =>
      right
      rw [v.step_of_hasEnded r.node s hended]
      exact (Nat.zero_add _).le
    | false =>
      refine (hgoes.toStop_lt (beq_iff_eq.2 (hnow.id_eq hv)) hwarranted hended).imp_right fun hlt => ?_
      simp only [Bool.false_eq_true, if_false]
      omega
  · have hle := (h.paced 0 w hw).toStop_le
    rw [Worker.windowSteps, Worker.batchSteps, h.settings_eq hw] at hle
    exact hle
  · rw [hstop]
    rintro ⟨⟩

/-! ### Runs that go on -/

theorem actor_of_not_searching {events : List Event} (h : r.searching? events = none) (event : Event) :
    actor (r.run events) event = none := by
  unfold actor
  split
  · split
    · rename_i hprogress
      rw [Setup.searching?, hprogress] at h
      cases h
    · rfl
  · rfl

/-- A run that searches has searched from some moment on, up to which it moved no worker. -/
theorem search_began {events more : List Event} {b' : Board}
    (h : r.searching? (events ++ more) = some (b', workers')) :
    ∃ between rest b workers, more = between ++ rest ∧ r.searching? (events ++ between) = some (b, workers) ∧
      r.actors (events ++ between) = r.actors events := by
  induction more generalizing events with
  | nil =>
    rw [List.append_nil] at h
    exact ⟨[], [], b', workers', rfl, by rw [List.append_nil, h], by rw [List.append_nil]⟩
  | cons event more ih =>
    cases hnow : r.searching? events with
    | some here =>
      obtain ⟨b, workers⟩ := here
      exact ⟨[], event :: more, b, workers, rfl, by rw [List.append_nil, hnow], by rw [List.append_nil]⟩
    | none =>
      rw [List.append_cons] at h
      obtain ⟨between, rest, b, workers, rfl, hsearching, hactors⟩ := ih h
      rw [← List.append_cons] at hsearching hactors
      refine ⟨event :: between, rest, b, workers, rfl, hsearching, ?_⟩
      rw [hactors, r.actors_concat, actor_of_not_searching hnow, Option.toList_none, List.append_nil]

/-- A search that goes on from another one is its sequel. -/
theorem sequel_of_searching? {events more : List Event} {b b' : Board}
    (h : r.searching? events = some (b, workers)) (hspawning : r.spawning? events = some spawning)
    (h' : r.searching? (events ++ more) = some (b', workers')) :
    ∃ later spawning', Sequel r spawning workers ⟨b, (r.run events).world⟩ later spawning' workers'
        ⟨b', (r.run (events ++ more)).world⟩ ∧
      r.actors (events ++ more) = r.actors events ++ later := by
  obtain ⟨later, spawning', workers'', s'', hsequel, hactors, hover | hsearches⟩ := sequel_run h hspawning more
  · rw [searching?_of_over hover] at h'
    cases h'
  · have heq := hsearches.searching?.symm.trans h'
    cases heq
    rw [hsearches.world_eq]
    exact ⟨later, spawning', hsequel, hactors⟩

/-- A worker counts the nonces that it has hashed. -/
theorem Search.hashes_eq (h : Search r history spawning workers s) (hw : workers[i]? = some w) :
    w.hashes = (hashed history i).length := by
  have hnonces := congrArg List.length (h.covers hw).nonces_eq
  rw [List.length_map, List.length_range'] at hnonces
  exact hnonces.symm

/-- From any state of a search with the stop flag up, whatever the node does and whichever order the workers run in,
each worker hashes at most a window of nonces more, has ended after a bounded number of its own steps, and the flag
stays up. From any state with the process interrupted, the lead hashes at most a window of nonces more, and takes a
bounded number of steps more, while the flag is not up. The bounds hold of the nonces that the workers have hashed and
of what they count. Whenever the lead is done, the flag is up; and no worker crashes if the node answers all its
calls. -/
theorem cancellation_bounded (r : Setup σ) (events : List Event) :
    (∀ b workers, r.searching? events = some (b, workers) → b.stop = true → ∀ more,
      (∀ i, (hashed (r.actors (events ++ more)) i).length ≤ (hashed (r.actors events) i).length + r.window ∧
        activeSteps (r.actors (events ++ more)) i ≤ activeSteps (r.actors events) i + (r.windowSteps + 13)) ∧
      ∀ b' workers', r.searching? (events ++ more) = some (b', workers') → b'.stop = true ∧
        ∀ (i : Nat) (w w' : Worker), workers[i]? = some w → workers'[i]? = some w' →
          w'.hashes ≤ w.hashes + r.window) ∧
    ((r.run events).world.interrupted = true → ∀ more b' workers',
      r.searching? (events ++ more) = some (b', workers') → b'.stop = false →
        (hashed (r.actors (events ++ more)) 0).length ≤ (hashed (r.actors events) 0).length + r.window ∧
        activeSteps (r.actors (events ++ more)) 0 ≤ activeSteps (r.actors events) 0 + (r.windowSteps + 9) ∧
        ∀ lead' : Worker, workers'[0]? = some lead' →
          lead'.hashes ≤ (hashed (r.actors events) 0).length + r.window ∧
          ∀ b workers lead, r.searching? events = some (b, workers) → workers[0]? = some lead →
            lead'.hashes ≤ lead.hashes + r.window) ∧
    (∀ b workers lead, r.searching? events = some (b, workers) → workers[0]? = some lead → lead.phase = .done →
      b.stop = true) ∧
    ((∀ (request : Request) (state : σ), (r.node request state).answer.isSome) →
      ∀ b workers, r.searching? events = some (b, workers) → ∀ (i : Nat) (w : Worker), workers[i]? = some w →
        w.phase ≠ .crashed) := by
  refine ⟨fun b workers h hstop more => ⟨fun i => ?_, fun b' workers' h' => ⟨?_, fun i w w' hw hw' => ?_⟩⟩,
    fun hint more b' workers' h' hstop => ?_, fun b workers lead h => ?_, fun hnode b workers h => ?_⟩
  · obtain ⟨spawning, hspawning, hsearch⟩ := search_of_searching? h
    obtain ⟨later, _, workers', s', hsequel, hactors, -⟩ := sequel_run h hspawning more
    rw [hactors]
    exact ⟨hsearch.hashed_le_of_stop hstop hsequel i, hsearch.activeSteps_le_of_stop hstop hsequel i⟩
  · obtain ⟨spawning, hspawning, -⟩ := search_of_searching? h
    obtain ⟨later, _, hsequel, -⟩ := sequel_of_searching? h hspawning h'
    exact hsequel.lasts (lasting_stop r.node) hstop
  · obtain ⟨spawning, hspawning, hsearch⟩ := search_of_searching? h
    obtain ⟨later, _, hsequel, hactors⟩ := sequel_of_searching? h hspawning h'
    rw [hsearch.hashes_eq hw, (hsearch.sequel hsequel).hashes_eq hw']
    exact hsearch.hashed_le_of_stop hstop hsequel i
  · have hbound : (hashed (r.actors (events ++ more)) 0).length ≤ (hashed (r.actors events) 0).length + r.window ∧
        activeSteps (r.actors (events ++ more)) 0 ≤ activeSteps (r.actors events) 0 + (r.windowSteps + 9) := by
      obtain ⟨between, rest, b, workers, rfl, h, hbegun⟩ := search_began h'
      rw [← List.append_assoc] at h' ⊢
      obtain ⟨spawning, hspawning, hsearch⟩ := search_of_searching? h
      obtain ⟨later, _, hsequel, hactors⟩ := sequel_of_searching? h hspawning h'
      have hint := r.interrupted_append hint between
      rw [hactors, ← hbegun]
      exact ⟨hsearch.hashed_le_of_interrupted hint hsequel hstop,
        hsearch.activeSteps_le_of_interrupted hint hsequel hstop⟩
    obtain ⟨_, -, hsearch'⟩ := search_of_searching? h'
    refine ⟨hbound.1, hbound.2, fun lead' hlead' => ?_⟩
    rw [hsearch'.hashes_eq hlead']
    refine ⟨hbound.1, fun b workers lead h hlead => ?_⟩
    obtain ⟨_, -, hsearch⟩ := search_of_searching? h
    rw [hsearch.hashes_eq hlead]
    exact hbound.1
  · obtain ⟨_, -, hsearch⟩ := search_of_searching? h
    exact hsearch.stop_of_lead_done
  · obtain ⟨_, -, hsearch⟩ := search_of_searching? h
    exact hsearch.phase_ne_crashed hnode

/-- When the first worker of the contested round has raised the stop flag, the second one hashes one window of nonces
more. The lead does so after an interrupt. -/
theorem cancellation_bounded_contested :
    (∃ b workers, contested.searching? contestedStart = some (b, workers) ∧ b.stop = true ∧
      hashed (contested.actors contestedStart) 1 = [] ∧
      hashed (contested.actors (contestedStart ++ [.step (.worker 1)])) 1 = [3] ∧
      ∀ more, (hashed (contested.actors (contestedStart ++ more)) 1).length ≤ 1) ∧
    let more : List Event := List.replicate 3 (.step .session) ++ List.replicate 2 (.step (.worker 0))
    ∃ b workers, contested.searching? (.interrupt :: more) = some (b, workers) ∧ b.stop = false ∧
      hashed (contested.actors [.interrupt]) 0 = [] ∧ hashed (contested.actors (.interrupt :: more)) 0 = [2] ∧
      (hashed (contested.actors (.interrupt :: more)) 0).length ≤ 1 := by
  constructor
  · obtain ⟨⟨b, workers⟩, hsearching, hstop⟩ := (Option.any_eq_true _ _).1 contested_run.1
    obtain ⟨hnone, hone⟩ : hashed (contested.actors contestedStart) 1 = [] ∧
        hashed (contested.actors (contestedStart ++ [.step (.worker 1)])) 1 = [3] := by
      decide +kernel
    refine ⟨b, workers, hsearching, hstop, hnone, hone, fun more => ?_⟩
    have hbound := (((cancellation_bounded contested contestedStart).1 b workers hsearching hstop more).1 1).1
    rwa [hnone] at hbound
  · intro more
    have hsearch : (contested.searching? (.interrupt :: more)).any (·.1.stop = false) := by
      decide +kernel
    obtain ⟨⟨b, workers⟩, hsearching, hstop⟩ := (Option.any_eq_true _ _).1 hsearch
    have hint : (contested.run [.interrupt]).world.interrupted = true := rfl
    have hone : hashed (contested.actors (.interrupt :: more)) 0 = [2] := by decide +kernel
    have hbound := (cancellation_bounded contested [.interrupt]).2.1 hint more b workers hsearching
      (of_decide_eq_true hstop)
    exact ⟨b, workers, hsearching, of_decide_eq_true hstop, rfl, hone, hbound.1⟩

end Round

end HeaderMiner
