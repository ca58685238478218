import HeaderMiner.Node.Local
import HeaderMiner.Proofs.Round.Coverage
import Mathlib

/-!
# Why a worker returns

A worker without a solution is exhausted or stopped. It looks at the stop flag only at the end of a window, and there
before it looks whether nonces are left. So a stop that it notices with the last window (`0 ∈ stopsSeen steps`) makes it
report that it was stopped although it has tried them all; this takes a slice whose batches fill whole windows, and is
the only case in which the exit does not tell whether nonces were left (`exit_of_trail`).

A `Trail` is what one worker does among others that are left open; the workers of a round have trails
(`Search.hasTrail`). `Worker.Stands` is the invariant along a trail: how the batches fill windows, and what the worker
has seen of the stop flag.
-/

namespace HeaderMiner.Worker

variable {σ : Type}

/-- The steps that a worker takes, each with the board and the world that it finds. In between, anything may happen to
these two. -/
inductive Trail (node : Node σ) (first : Worker) : List (Worker × Shared σ) → Worker → Prop
  | start : Trail node first [] first
  | step {steps : List (Worker × Shared σ)} {w : Worker} (h : Trail node first steps w) (s : Shared σ) :
      Trail node first (steps ++ [(w, s)]) (w.step node s).1

/-- The steps of a worker that finds these boards and worlds one after the other. -/
def along (node : Node σ) (first : Worker) (shared : List (Shared σ)) : List (Worker × Shared σ) × Worker :=
  shared.foldl (fun (steps, w) s => (steps ++ [(w, s)], (w.step node s).1)) ([], first)

/-- The next action has a candidate checked, and the node finds it good. -/
def hits (node : Node σ) (w : Worker) (s : Shared σ) : Bool :=
  match w.request? with
  | some (.proofOfWork hash bits) => (node (.proofOfWork hash bits) s.world.node).answer = some true
  | _ => false

/-- The nonces that were hashed in these steps. -/
def tried (steps : List (Worker × Shared σ)) : List UInt32 := steps.flatMap (·.1.nextNonces)

/-- The nonces that are left, if the next action finds the stop flag up at the end of a window. -/
def stopSeen (w : Worker) (b : Board) : List Nat :=
  if w.phase = .deciding ∧ b.stop = true then [w.remaining] else []

/-- The nonces that were left at each look that found the stop flag up. -/
def stopsSeen (steps : List (Worker × Shared σ)) : List Nat :=
  steps.flatMap fun p => p.1.stopSeen p.2.board

/-- The worker has hashed batches, none of them empty, and with `left` more they are whole windows. -/
def Batched (w : Worker) (left : Nat) : Prop :=
  ∃ batches, w.hashes = min (batches * w.settings.lanes.count) w.slice.size ∧
    (batches - 1) * w.settings.lanes.count < w.slice.size ∧ w.settings.resyncBatches ∣ batches + left

/-- Where a worker that has found nothing stands, with what it has seen of the stop flag. -/
def Stands (w : Worker) (seen : List Nat) : Prop :=
  match w.phase with
  | .starting => w.hashes = 0 ∧ seen = []
  | .hashing left | .testing left _ => w.Batched left ∧ seen = []
  | .claiming _ | .announcing _ | .closing _ _ => False
  | .finishing | .exhausting | .concluding | .done =>
    (w.exit = .exhausted ∧ seen = []) ∨ (w.exit = .stopped ∧ seen = [w.remaining] ∧ w.Batched 0)
  | .crashed => True
  | _ => w.Batched 0 ∧ seen = []

variable {w w' : Worker} {b : Board} {interrupted : Bool} {new : List Entry} {left : Nat} {seen : List Nat}
  {nonces : List UInt32} {node : Node σ} {steps : List (Worker × Shared σ)} {first : Worker}

/-! ### Batches -/

theorem Covers.remaining_eq (h : w.Covers nonces) : w.remaining = w.slice.size - w.hashes := by
  rw [remaining, h.cursor_eq, NonceRange.size, Nat.sub_add_eq]

theorem Covers.hashes_le (h : w.Covers nonces) : w.hashes ≤ w.slice.size := by
  have hcursor := h.cursor_eq
  have hle := h.cursor_le
  rw [NonceRange.size]
  omega

theorem batched_of_hashes_eq_zero (hhashes : w.hashes = 0) (hmore : w.slice.isEmpty = false) :
    w.Batched w.settings.resyncBatches := by
  have hsize : 0 < w.slice.size := by
    have hle := w.slice.start_le_stop
    rw [NonceRange.isEmpty, beq_eq_false_iff_ne] at hmore
    rw [NonceRange.size]
    omega
  exact ⟨0, by simp [hhashes], by simpa using hsize, by simp⟩

theorem Batched.of_eq (h : w.Batched left) (hslice : w'.slice = w.slice) (hsettings : w'.settings = w.settings)
    (hhashes : w'.hashes = w.hashes) : w'.Batched left := by
  obtain ⟨batches, hbatches⟩ := h
  refine ⟨batches, ?_⟩
  rw [hslice, hsettings, hhashes]
  exact hbatches

/-- A look at the stop flag that finds it down opens another window. -/
theorem Batched.reopen (h : w.Batched 0) : w.Batched w.settings.resyncBatches := by
  obtain ⟨batches, hhashes, hfilled, hdvd⟩ := h
  exact ⟨batches, hhashes, hfilled, Nat.dvd_add hdvd (Nat.dvd_refl _)⟩

/-- As long as nonces remain, all batches so far were full. -/
theorem Batched.hashBatch (h : w.Batched (left + 1)) (hc : w.Covers nonces) (hmore : w.remaining ≠ 0) :
    (w.hashBatch left).Batched left := by
  obtain ⟨batches, hhashes, -, hdvd⟩ := h
  have hrem := hc.remaining_eq
  have hbatch : w.batch.length = min w.settings.lanes.count w.remaining := w.length_batch hmore
  have hfull : w.hashes = batches * w.settings.lanes.count := by omega
  refine ⟨batches + 1, ?_, ?_, ?_⟩
  · show w.hashes + w.batch.length = min ((batches + 1) * w.settings.lanes.count) w.slice.size
    rw [hbatch, Nat.succ_mul]
    omega
  · show batches * w.settings.lanes.count < w.slice.size
    omega
  · show w.settings.resyncBatches ∣ batches + 1 + left
    rwa [Nat.add_right_comm, Nat.add_assoc]

/-- Whole windows that make up a slice have as many batches as the slice takes. -/
theorem Batched.dvd_ceilDiv (h : w.Batched 0) (hall : w.hashes = w.slice.size) :
    w.settings.resyncBatches ∣ w.slice.size ⌈/⌉ w.settings.lanes.count := by
  obtain ⟨batches, hhashes, hfilled, hdvd⟩ := h
  have hlanes := LaneWidth.count_pos w.settings.lanes
  have hceil : w.slice.size ⌈/⌉ w.settings.lanes.count = batches := by
    refine le_antisymm ((ceilDiv_le_iff_le_mul hlanes).2 ?_) ?_
    · rw [Nat.mul_comm]
      omega
    · refine Nat.le_of_pred_lt (lt_of_not_ge fun hle => ?_)
      have hle := (ceilDiv_le_iff_le_mul hlanes).1 hle
      rw [Nat.mul_comm] at hle
      exact absurd hfilled (Nat.not_lt.2 hle)
  rw [hceil]
  exact hdvd

/-! ### Steps -/

/-- In a step that does not have a good candidate, the worker gets on with its windows, or leaves. -/
theorem Goes.stands (hgoes : w.Goes b interrupted w' new)
    (hmiss : ∀ hash bits, ⟨w.thread, .proofOfWork hash bits, true⟩ ∉ calls new) (hc : w.Covers nonces)
    (h : w.Stands seen) : w'.Stands (seen ++ w.stopSeen b) := by
  have htask := hgoes.acts.sameTask
  have hseen (hphase : w.phase ≠ .deciding) : seen ++ w.stopSeen b = seen := by
    rw [stopSeen, if_neg fun hdeciding => hphase hdeciding.1, List.append_nil]
  cases hgoes with
  | hit hphase hnew => exact absurd (by rw [hnew]; exact List.mem_singleton_self _) (hmiss _ _)
  | win hphase | lose hphase | announce hphase | close hphase =>
    rw [Stands, hphase] at h
    exact h.elim
  | crash => trivial
  | stop hphase hb =>
    rw [Stands, hphase] at h
    obtain ⟨hbatched, rfl⟩ := h
    have hremaining : [] ++ w.stopSeen b = [w.remaining] := by simp [stopSeen, hphase, hb]
    exact .inr ⟨rfl, hremaining, hbatched⟩
  | resume hphase hb =>
    rw [Stands, hphase] at h
    obtain ⟨hbatched, rfl⟩ := h
    exact ⟨hbatched.reopen, by simp [stopSeen, hb]⟩
  | rest hended =>
    rw [hseen fun hphase => by simp [hasEnded, hphase] at hended]
    exact h
  | scanNothing hphase =>
    rw [Stands, hphase] at h
    rw [hseen (by simp [hphase])]
    exact .inl ⟨rfl, h.2⟩
  | scan hphase hmore =>
    rw [Stands, hphase] at h
    rw [hseen (by simp [hphase])]
    exact ⟨batched_of_hashes_eq_zero h.1 hmore, h.2⟩
  | runOut hphase =>
    rw [Stands, hphase] at h
    rw [hseen (by simp [hphase])]
    exact .inl ⟨rfl, h.2⟩
  | hash hphase hmore =>
    rw [Stands, hphase] at h
    rw [hseen (by simp [hphase])]
    exact ⟨h.1.hashBatch hc hmore, h.2⟩
  | @refresh time _ hphase =>
    rw [Stands, hphase] at h
    rw [hseen (by simp [hphase])]
    obtain ⟨-, hhashes, -⟩ := counts_setTime w time
    exact ⟨h.1.of_eq htask.slice htask.settings hhashes, h.2⟩
  | watchStop hphase =>
    rw [Stands, hphase] at h
    rw [hseen (by simp [hphase])]
    cases b.stop <;> exact h
  | watchInterrupt hphase =>
    rw [Stands, hphase] at h
    rw [hseen (by simp [hphase])]
    cases interrupted <;> exact h
  | _ hphase =>
    rw [Stands, hphase] at h
    rw [hseen (by simp [hphase])]
    exact h

/-! ### Trails -/

namespace Trail

theorem along (node : Node σ) (first : Worker) (shared : List (Shared σ)) :
    Trail node first (along node first shared).1 (along node first shared).2 := by
  induction shared using List.reverseRecOn with
  | nil => exact .start
  | append_singleton shared s ih =>
    simp only [Worker.along, List.foldl_append, List.foldl_cons, List.foldl_nil]
    exact ih.step s

theorem sameTask (h : Trail node first steps w) : first.SameTask w := by
  induction h with
  | start => exact .refl _
  | step h s ih =>
    obtain ⟨_, _, hgoes⟩ := step_takesBranch node _ s
    exact ih.trans hgoes.acts.sameTask

variable {id : Nat} {slice : NonceRange} {work : Work} {settings : WorkerSettings}

theorem covers (h : Trail node (ofSlice id slice work settings) steps w) : w.Covers (tried steps) := by
  induction h with
  | start => exact covers_ofSlice id slice work settings
  | @step steps w h s ih =>
    obtain ⟨_, _, hgoes⟩ := w.step_takesBranch node s
    have hcovers := hgoes.covers ih
    simpa [tried] using hcovers

/-- A worker without a good candidate has seen the stop flag up at most once, and then it left. -/
theorem stands (h : Trail node (ofSlice id slice work settings) steps w)
    (hmiss : ∀ p ∈ steps, p.1.hits node p.2 = false) : w.Stands (stopsSeen steps) := by
  induction h with
  | start => exact ⟨rfl, rfl⟩
  | @step steps w h s ih =>
    obtain ⟨new, hjournal, hgoes⟩ := w.step_takesBranch node s
    have hcalls := (w.step_serves node s).calls_eq hjournal
    have hstands := ih fun p hp => hmiss p (List.mem_append_left _ hp)
    have hnone (hash : BlockHash) (bits : UInt32) :
        ⟨w.thread, .proofOfWork hash bits, true⟩ ∉ calls new := by
      intro hcall
      rw [hcalls] at hcall
      obtain ⟨-, hrequest, hanswer⟩ := s.world.mem_answered hcall
      have hhits := hmiss (w, s) (by simp)
      simp [hits, hrequest, hanswer] at hhits
    simpa [stopsSeen] using hgoes.stands hnone h.covers hstands

/-- Every nonce was hashed just when as many were hashed as there are. -/
theorem hashes_eq_size_iff (h : Trail node (ofSlice id slice work settings) steps w) :
    w.hashes = slice.size ↔ ∀ nonce ∈ slice, nonce ∈ tried steps := by
  have hcovers := h.covers
  have hslice : w.slice = slice := h.sameTask.slice
  have hnonces := hcovers.nonces_eq
  have hle := hcovers.hashes_le
  rw [hslice] at hnonces hle
  rw [NonceRange.size] at hle ⊢
  have htried (nonce : UInt32) : nonce ∈ tried steps ↔
      slice.start ≤ nonce.toNat ∧ nonce.toNat < slice.start + w.hashes := by
    rw [← List.mem_range'_1, ← hnonces]
    refine ⟨List.mem_map_of_mem, fun hmem => ?_⟩
    obtain ⟨nonce', hnonce', heq⟩ := List.mem_map.1 hmem
    rwa [← UInt32.toNat_inj.1 heq]
  constructor
  · intro hall nonce hnonce
    rw [NonceRange.mem_def] at hnonce
    rw [htried]
    omega
  · intro hall
    by_contra hne
    -- otherwise the next nonce was not tried
    have hnext := slice.toNat_of_mem (n := slice.start + w.hashes) (by omega)
    have hlast := hall (UInt32.ofNat (slice.start + w.hashes)) (by rw [NonceRange.mem_def, hnext]; omega)
    rw [htried, hnext] at hlast
    omega

end Trail

/-- A worker that is done without a good candidate, whatever the node answered and whenever the round was stopped, is
exhausted just when it has tried every nonce of its slice and did not see the stop flag up with the last of them; it is
stopped just when it has nonces left, or saw the flag up with the last of them. The latter needs a slice whose batches
make up whole windows. -/
theorem exit_of_trail {id : Nat} {slice : NonceRange} {work : Work} {settings : WorkerSettings}
    (h : Trail node (ofSlice id slice work settings) steps w) (hmiss : ∀ p ∈ steps, p.1.hits node p.2 = false)
    (hdone : w.phase = .done) :
    w.hashes ≤ slice.size ∧
    (w.hashes = slice.size ↔ ∀ nonce ∈ slice, nonce ∈ tried steps) ∧
    (w.exit = .exhausted ↔ w.hashes = slice.size ∧ 0 ∉ stopsSeen steps) ∧
    (w.exit = .stopped ↔ w.hashes < slice.size ∨ 0 ∈ stopsSeen steps) ∧
    (w.exit = .stopped ↔ stopsSeen steps ≠ []) ∧
    (0 ∈ stopsSeen steps → settings.resyncBatches ∣ slice.size ⌈/⌉ settings.lanes.count) := by
  have hcovers := h.covers
  have hstands := h.stands hmiss
  have hslice : w.slice = slice := h.sameTask.slice
  have hsettings : w.settings = settings := h.sameTask.settings
  have hremaining := hcovers.remaining_eq
  have hle := hcovers.hashes_le
  rw [hslice] at hremaining hle
  refine ⟨hle, h.hashes_eq_size_iff, ?_⟩
  rw [Stands, hdone] at hstands
  rcases hstands with ⟨hexit, hseen⟩ | ⟨hexit, hseen, hbatched⟩
  · have hall : w.hashes = slice.size := by
      have hstop := hcovers.exhausted hexit
      rw [remaining, hslice] at hremaining
      rw [hslice] at hstop
      omega
    simp [hexit, hseen, hall]
  · have hlast : 0 ∈ stopsSeen steps ↔ w.hashes = slice.size := by
      rw [hseen, List.mem_singleton]
      omega
    refine ⟨?_, ?_, ?_, fun hzero => ?_⟩
    · simp [hexit, hlast]
    · simp only [hexit, hlast, true_iff]
      exact hle.lt_or_eq
    · simp [hexit, hseen]
    · rw [← hslice, ← hsettings]
      exact hbatched.dvd_ceilDiv (by rw [hslice]; exact hlast.1 hzero)

/-- Worker 1 with one nonce, which misses, in a round that is stopped from the beginning or not at all. -/
def oneNonce (stop : Bool) : List (Worker × Shared LocalNode) × Worker :=
  let header : Header :=
    { version := 0, prevBlockHash := Bytes.zero 32, merkleRoot := Bytes.zero 32,
      referenceHash := Bytes.zero 32, time := 1700000000, bits := 0x1d00ffff, nonce := 0 }
  let node : LocalNode := { bits := header.bits, clock := fun _ => header.time }
  along LocalNode.answer (ofSlice 1 ⟨0, 1, by decide, by decide⟩ (Work.ofHeader header) ⟨.one, 1, 100⟩)
    (List.replicate 10 ⟨{ Board.ofWorkers 2 with stop }, { node }⟩)

/-- In a round that is not stopped the worker is exhausted. -/
theorem exit_of_oneNonce : (oneNonce false).2.phase = .done ∧
    (∀ p ∈ (oneNonce false).1, p.1.hits LocalNode.answer p.2 = false) ∧ (oneNonce false).2.exit = .exhausted := by
  have hrun : (oneNonce false).2.phase = .done ∧
      (∀ p ∈ (oneNonce false).1, p.1.hits LocalNode.answer p.2 = false) ∧
      (oneNonce false).2.hashes = 1 ∧ stopsSeen (oneNonce false).1 = [] := by
    decide +kernel
  obtain ⟨hdone, hmiss, hall, hseen⟩ := hrun
  have htrail : Trail LocalNode.answer _ (oneNonce false).1 (oneNonce false).2 := .along _ _ _
  obtain ⟨-, -, hexhausted, -⟩ := exit_of_trail htrail hmiss hdone
  exact ⟨hdone, hmiss, hexhausted.2 ⟨hall, by simp [hseen]⟩⟩

/-- In a round that is stopped the worker reports that it was stopped, and has tried every nonce all the same. -/
theorem stopped_without_remainder : (oneNonce true).2.phase = .done ∧
    (∀ p ∈ (oneNonce true).1, p.1.hits LocalNode.answer p.2 = false) ∧
    (oneNonce true).2.exit = .stopped ∧ (oneNonce true).2.hashes = (oneNonce true).2.slice.size := by
  decide +kernel

end HeaderMiner.Worker

namespace HeaderMiner.Round

variable {σ : Type} {r : Setup σ} {history : List Worker} {spawning : Spawning} {workers : Array Worker}
  {s : Shared σ}

/-- The steps that a round's worker has taken are its trail. -/
def HasTrail (r : Setup σ) (history : List Worker) (i : Nat) (w : Worker) : Prop :=
  ∃ slice steps, r.slices[i]? = some slice ∧
    Worker.Trail r.node (Worker.ofSlice i slice r.work r.settings) steps w ∧
    steps.map (·.1) = history.filter (·.id = i)

theorem Search.hasTrail (h : Search r history spawning workers s) :
    ∀ i w, workers[i]? = some w → HasTrail r history i w := by
  induction h with
  | opened =>
    intro i w hw
    rw [getElem?_crew] at hw
    obtain ⟨slice, hslice, rfl⟩ := Option.map_eq_some_iff.1 hw
    exact ⟨slice, [], hslice, .start, rfl⟩
  | @stepped history _ workers s j v hsearch hv ih =>
    refine forall_set ih hv ?_ ?_
    · rintro ⟨slice, steps, hslice, htrail, hsteps⟩
      refine ⟨slice, _, hslice, htrail.step s, ?_⟩
      simp [hsteps, hsearch.id_eq hv]
    · rintro i w hij hw ⟨slice, steps, hslice, htrail, hsteps⟩
      refine ⟨slice, steps, hslice, htrail, ?_⟩
      simp [hsteps, hsearch.id_eq hv, Ne.symm hij]
  | spawned _ _ ih | refused _ _ ih | interrupted _ ih | elapsed _ _ ih => exact ih

end HeaderMiner.Round
