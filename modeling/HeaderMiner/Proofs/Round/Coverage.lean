import HeaderMiner.Proofs.NonceRange
import HeaderMiner.Proofs.Round.Batch
import HeaderMiner.Proofs.Round.Outcome
import Mathlib

/-!
# The nonces of a round

`hashed` are the nonces that a worker has given to its engine, read off the steps that it took: those of the batches
that the steps left to be tested (`Worker.step_hashes`). They are the first nonces of its slice, as many as it counts
(`Worker.Covers`): a batch starts at the cursor, ends inside the slice and moves the cursor past itself, and nothing
else moves it. The slices have no nonce in common, so the workers of a round never hash one twice
(`nonces_hashed_once`). What a worker has made known (`published`) is the largest of its counts so far. In the round
`vain` the whole range is hashed.
-/

namespace HeaderMiner

variable {σ : Type}

namespace Worker

/-- The nonces that the next action of a worker gives to its engine. -/
def nextNonces (w : Worker) : List UInt32 :=
  match w.phase with
  | .hashing (_ + 1) => if w.remaining = 0 then [] else w.batch.map (·.1)
  | _ => []

/-- The count that the next action of a worker makes known. -/
def published? (w : Worker) : Option Nat :=
  match w.phase with
  | .publishing | .finishing => some w.hashes
  | _ => none

/-- What a worker has hashed is the part of its slice before the cursor. -/
structure Covers (nonces : List UInt32) (w : Worker) : Prop where
  nonces_eq : nonces.map (·.toNat) = List.range' w.slice.start w.hashes
  cursor_eq : w.cursor = w.slice.start + w.hashes
  cursor_le : w.cursor ≤ w.slice.stop
  exhausted : w.exit = .exhausted → w.cursor = w.slice.stop

variable {w w' : Worker} {b b' : Board} {interrupted : Bool} {new : List Entry} {nonces : List UInt32}

/-! ### Batches -/

theorem toNat_laneNonce (lane : Nat) (h : w.cursor + lane < w.slice.stop) :
    (Engine.laneNonce w.cursor.toUInt32 lane).toNat = w.cursor + lane := by
  have hnonce : Engine.laneNonce w.cursor.toUInt32 lane = UInt32.ofNat (w.cursor + lane) :=
    (UInt32.ofNat_add _ _).symm
  rw [hnonce, w.slice.toNat_of_mem h]

theorem map_toNat_batch (hmore : w.remaining ≠ 0) :
    (w.batch.map (·.1)).map (·.toNat) = List.range' w.cursor w.batchSize := by
  refine List.ext_getElem (by simp [w.length_batch hmore]) fun lane hl hr => ?_
  have hlane : lane < w.batchSize := by simpa using hr
  have hsize := w.batchSize_le
  have hlt : w.cursor + lane < w.slice.stop := by
    rw [remaining] at hsize
    omega
  simp only [List.getElem_map, List.getElem_range', batch, Engine.hashBatch, List.getElem_mapIdx]
  rw [toNat_laneNonce lane hlt]
  omega

theorem nextNonces_of_phase {p : Phase} (hw : w.phase = p) (hp : ∀ left, p ≠ .hashing (left + 1)) :
    w.nextNonces = [] := by
  unfold nextNonces
  split
  · rename_i left hphase
    exact absurd (hw.symm.trans hphase) (hp left)
  · rfl

theorem nextNonces_of_hashing {left : Nat} (hw : w.phase = .hashing (left + 1)) (hmore : w.remaining ≠ 0) :
    w.nextNonces = w.batch.map (·.1) := by
  simp only [nextNonces, hw, hmore, if_false]

theorem length_nextNonces_le : w.nextNonces.length ≤ w.remaining := by
  unfold nextNonces
  split
  · split
    · simp
    · rename_i hmore
      rw [List.length_map, w.length_batch hmore]
      exact w.batchSize_le
  · simp

/-- A step hashes the nonces from the cursor on. -/
theorem map_toNat_nextNonces : w.nextNonces.map (·.toNat) = List.range' w.cursor w.nextNonces.length := by
  unfold nextNonces
  split
  · split
    · rfl
    · rename_i hmore
      rw [map_toNat_batch hmore, List.length_map, w.length_batch hmore]
  · rfl

/-! ### What a step counts -/

theorem counts_setTime (w : Worker) (t : UInt32) :
    (w.setTime t).cursor = w.cursor ∧ (w.setTime t).hashes = w.hashes ∧ (w.setTime t).exit = w.exit := by
  unfold setTime
  split <;> exact ⟨rfl, rfl, rfl⟩

theorem nextNonces_of_request? (hw : w.request?.isSome) : w.nextNonces = [] := by
  unfold request? at hw
  split at hw
  · exact nextNonces_of_phase ‹_› (by rintro _ ⟨⟩)
  · exact nextNonces_of_phase ‹_› (by rintro _ ⟨⟩)
  · exact nextNonces_of_phase ‹_› (by rintro _ ⟨⟩)
  · cases hw

/-- A step moves the cursor past the nonces that it hashes, and counts them. -/
theorem Goes.counts (h : w.Goes b interrupted w' new) :
    w'.cursor = w.cursor + w.nextNonces.length ∧ w'.hashes = w.hashes + w.nextNonces.length := by
  have hstill (hcursor : w'.cursor = w.cursor) (hhashes : w'.hashes = w.hashes) (hnone : w.nextNonces = []) :
      w'.cursor = w.cursor + w.nextNonces.length ∧ w'.hashes = w.hashes + w.nextNonces.length := by
    rw [hnone]
    exact ⟨hcursor, hhashes⟩
  cases h with
  | hash hw hmore =>
    rw [nextNonces_of_hashing hw hmore, List.length_map]
    exact ⟨rfl, rfl⟩
  | runOut hw hnone => exact hstill rfl rfl (by simp only [nextNonces, hw, hnone, if_true])
  | crash hw => exact hstill rfl rfl (nextNonces_of_request? hw)
  | @refresh time _ hw =>
    obtain ⟨hcursor, hhashes, -⟩ := counts_setTime w time
    exact hstill hcursor hhashes (nextNonces_of_phase hw (by rintro _ ⟨⟩))
  | rest hw =>
    rw [hasEnded, decide_eq_true_iff] at hw
    rcases hw with hw | hw <;> exact hstill rfl rfl (nextNonces_of_phase hw (by rintro _ ⟨⟩))
  | scanNothing hw | scan hw | endWindow hw | tested hw | dismiss hw | mislead hw | hit hw | win hw | lose hw
  | announce hw | close hw | lead hw | follow hw | notice hw | watch hw | cancel hw | watchStop hw
  | watchInterrupt hw | wait hw | sameTip hw | newTip hw | supersede hw | abandon hw | stop hw | resume hw
  | finish hw | finishLast hw | exhaust hw | conclude hw =>
    exact hstill rfl rfl (nextNonces_of_phase hw (by rintro _ ⟨⟩))

/-- What a step of a worker hashes is the batch that it leaves to be tested, or nothing. -/
def Hashes (w w' : Worker) : Prop :=
  (w.nextNonces = [] ∧ w'.hashes = w.hashes) ∨
    ∃ left, w' = w.hashBatch left ∧ w'.phase = .testing left w.batch ∧ w.nextNonces = w.batch.map (·.1)

theorem step_hashes (w : Worker) (node : Node σ) (s : Shared σ) : w.Hashes (w.step node s).1 := by
  obtain ⟨_, -, hgoes⟩ := w.step_takesBranch node s
  obtain ⟨-, hcount⟩ := hgoes.counts
  by_cases hnone : w.nextNonces = []
  · rw [hnone] at hcount
    exact .inl ⟨hnone, hcount⟩
  · right
    unfold nextNonces at hnone
    split at hnone
    · rename_i left hphase
      have hmore : w.remaining ≠ 0 := fun hzero => hnone (if_pos hzero)
      have hstep : (w.step node s).1 = w.hashBatch left := by simp only [step, hphase, hmore, if_false]
      refine ⟨left, hstep, ?_, nextNonces_of_hashing hphase hmore⟩
      rw [hstep]
      rfl
    · exact absurd rfl hnone

/-- A worker gives up as exhausted only at the end of its slice. -/
theorem Goes.exhausted (h : w.Goes b interrupted w' new) (hexit : w'.exit = .exhausted) :
    w.exit = .exhausted ∨ w.remaining = 0 ∨ w.slice.isEmpty = true := by
  cases h with
  | scanNothing _ hempty => exact .inr (.inr hempty)
  | runOut _ hnone => exact .inr (.inl hnone)
  | @close _ won => cases won <;> cases hexit
  | stop => cases hexit
  | @refresh time =>
    obtain ⟨-, -, hsame⟩ := counts_setTime w time
    exact .inl (hsame.symm.trans hexit)
  | _ => exact .inl hexit

theorem covers_ofSlice (id : Nat) (slice : NonceRange) (work : Work) (settings : WorkerSettings) :
    (ofSlice id slice work settings).Covers [] :=
  ⟨rfl, rfl, slice.start_le_stop, by rintro ⟨⟩⟩

theorem Goes.covers (h : w.Goes b interrupted w' new) (hc : w.Covers nonces) :
    w'.Covers (nonces ++ w.nextNonces) := by
  obtain ⟨hcursor, hhashes⟩ := h.counts
  have hslice := h.acts.sameTask.slice
  have hle := length_nextNonces_le (w := w)
  have hstart := hc.cursor_eq
  have hstop := hc.cursor_le
  rw [remaining] at hle
  refine ⟨?_, by rw [hslice]; omega, by rw [hslice]; omega, fun hexit => ?_⟩
  · rw [List.map_append, hc.nonces_eq, map_toNat_nextNonces, hslice, hhashes, hstart, ← List.range'_append_1]
  · have hend : w.cursor = w.slice.stop := by
      rcases h.exhausted hexit with hexit | hnone | hempty
      · exact hc.exhausted hexit
      · rw [remaining] at hnone
        omega
      · rw [NonceRange.isEmpty, beq_iff_eq] at hempty
        omega
    rw [hslice]
    omega

/-! ### What a step makes known -/

theorem progress_writes (w : Worker) (b : Board) : (w.writes b).progress =
    match w.published? with
    | some hashes => b.progress.setIfInBounds w.id hashes
    | none => b.progress := by
  unfold writes published?
  cases w.phase with
  | claiming s =>
    simp only [Board.offer]
    split <;> rfl
  | _ => rfl

theorem published?_eq {n : Nat} (h : w.published? = some n) : n = w.hashes := by
  unfold published? at h
  split at h <;> first | exact (Option.some.inj h).symm | cases h

end Worker

namespace Round

/-- The nonces that a worker has hashed, oldest first. -/
def hashed (history : List Worker) (i : Nat) : List UInt32 :=
  (history.filter (·.id = i)).flatMap Worker.nextNonces

/-- The largest count that a worker has made known. -/
def published (history : List Worker) (i : Nat) : Nat :=
  ((history.filter (·.id = i)).filterMap Worker.published?).foldl max 0

variable {r : Setup σ} {history : List Worker} {spawning : Spawning} {workers : Array Worker} {s : Shared σ}

theorem hashed_concat (history : List Worker) (v : Worker) (i : Nat) :
    hashed (history ++ [v]) i = hashed history i ++ if v.id = i then v.nextNonces else [] := by
  rw [hashed, List.filter_append, List.flatMap_append, hashed]
  by_cases hv : v.id = i <;> simp [hv]

theorem published_concat (history : List Worker) (v : Worker) (i : Nat) :
    published (history ++ [v]) i =
      if v.id = i then max (published history i) (v.published?.getD 0) else published history i := by
  rw [published, List.filter_append, List.filterMap_append, List.foldl_append, published]
  by_cases hv : v.id = i
  · cases hp : v.published? <;> simp [hv, hp]
  · simp [hv]

theorem published_le_append (history later : List Worker) (i : Nat) :
    published history i ≤ published (history ++ later) i := by
  induction later using List.reverseRecOn with
  | nil => rw [List.append_nil]
  | append_singleton later v ih =>
    rw [← List.append_assoc, published_concat]
    split
    · exact ih.trans (Nat.le_max_left _ _)
    · exact ih

/-- What a worker has hashed and made known, after these steps. -/
structure Accounts (history : List Worker) (b : Board) (w : Worker) : Prop where
  covers : w.Covers (hashed history w.id)
  progress : b.progress[w.id]? = some (published history w.id)
  published_le : published history w.id ≤ w.hashes

theorem accounts_opened (r : Setup σ) {i : Nat} {w : Worker}
    (hw : (crew r.work r.range r.threads r.settings)[i]? = some w) :
    Accounts [] (Board.ofWorkers r.threads) w := by
  rw [Search.getElem?_crew] at hw
  obtain ⟨slice, hslice, rfl⟩ := Option.map_eq_some_iff.1 hw
  obtain ⟨hi, -⟩ := NonceRange.part_of_split hslice
  refine ⟨Worker.covers_ofSlice i slice r.work r.settings, ?_, Nat.zero_le _⟩
  show (Array.replicate r.threads 0)[i]? = some 0
  rw [Array.getElem?_replicate, if_pos hi]

theorem Accounts.step {b : Board} {interrupted : Bool} {v v' : Worker} {new : List Entry}
    (h : Accounts history b v) (hgoes : v.Goes b interrupted v' new) :
    Accounts (history ++ [v]) (v.writes b) v' := by
  obtain ⟨-, hhashes⟩ := hgoes.counts
  have hid := hgoes.acts.sameTask.id
  have hle := h.published_le
  refine ⟨?_, ?_, ?_⟩
  · rw [hid, hashed_concat, if_pos rfl]
    exact hgoes.covers h.covers
  · rw [hid, published_concat, if_pos rfl, Worker.progress_writes]
    cases hp : v.published? with
    | none => simpa using h.progress
    | some hashes =>
      have hinside := (Array.getElem?_eq_some_iff.1 h.progress).1
      obtain rfl := Worker.published?_eq hp
      rw [Option.getD_some, Nat.max_eq_right hle]
      exact Array.getElem?_setIfInBounds_self_of_lt hinside
  · rw [hid, published_concat, if_pos rfl]
    cases hp : v.published? with
    | none =>
      rw [Option.getD_none, Nat.max_eq_left (Nat.zero_le _)]
      omega
    | some hashes =>
      obtain rfl := Worker.published?_eq hp
      rw [Option.getD_some, Nat.max_eq_right hle]
      omega

theorem Accounts.other {b b' : Board} {v v' w : Worker} {new : List Entry} (h : Accounts history b w)
    (hacts : v.Acts b v' b' new) (hne : w.id ≠ v.id) : Accounts (history ++ [v]) b' w := by
  refine ⟨?_, ?_, ?_⟩
  · rw [hashed_concat, if_neg (Ne.symm hne), List.append_nil]
    exact h.covers
  · rw [published_concat, if_neg (Ne.symm hne), hacts.progress_ne hne]
    exact h.progress
  · rw [published_concat, if_neg (Ne.symm hne)]
    exact h.published_le

theorem Search.accounts (h : Search r history spawning workers s) :
    ∀ (i : Nat) (w : Worker), workers[i]? = some w → Accounts history s.board w := by
  induction h with
  | opened => exact fun i w hw => accounts_opened r hw
  | @stepped history _ workers s j v hsearch hv ih =>
    obtain ⟨new, -, hgoes⟩ := v.step_takesBranch r.node s
    have hacts := hgoes.acts
    rw [v.step_board r.node s]
    refine forall_set ih hv (fun h => h.step hgoes) fun i w hij hw h => h.other hacts ?_
    rw [hsearch.id_eq hw, hsearch.id_eq hv]
    exact hij
  | spawned _ _ ih | interrupted _ ih | elapsed _ _ ih => exact ih
  | refused _ _ ih => exact fun i w hw => { ih i w hw with }

theorem Search.id_lt (h : Search r history spawning workers s) : ∀ v ∈ history, v.id < r.threads := by
  induction h with
  | opened => simp
  | @stepped history _ workers s j v hsearch hv ih =>
    intro w hw
    rcases List.mem_append.1 hw with hw | hw
    · exact ih w hw
    · rw [List.mem_singleton.1 hw, hsearch.id_eq hv, ← hsearch.size_workers]
      exact (Array.getElem?_eq_some_iff.1 hv).1
  | spawned _ _ ih | refused _ _ ih | interrupted _ ih | elapsed _ _ ih => exact ih

/-- The steps of a run are those of a search, if there are any. -/
theorem search_of_actors (r : Setup σ) (events : List Event) :
    r.actors events = [] ∨ ∃ spawning workers s, Search r (r.actors events) spawning workers s := by
  have hstage := stage_run (r := r) events
  generalize r.run events = e at hstage
  cases hstage with
  | opening _ hactors => exact .inl hactors
  | searching h => exact .inr ⟨_, _, _, h⟩
  | submitting h | returned h | failed h | crashed h | unspawned h | collapsed h =>
    exact .inr ⟨_, _, _, h.search⟩

theorem Search.hashed_eq (h : Search r history spawning workers s) {i : Nat} {slice : NonceRange}
    (hslice : r.slices[i]? = some slice) :
    ∃ n ≤ slice.size, (hashed history i).map (·.toNat) = List.range' slice.start n := by
  have hi : i < workers.size := by
    obtain ⟨hi, -⟩ := NonceRange.part_of_split hslice
    rw [h.size_workers]
    exact hi
  have hw := Array.getElem?_eq_getElem hi
  obtain ⟨slice', hslice', htask⟩ := h.task hw
  obtain rfl : slice' = slice := Option.some.inj (hslice'.symm.trans hslice)
  have hc := (h.accounts i _ hw).covers
  rw [h.id_eq hw] at hc
  obtain ⟨hnonces, hcursor, hstop, -⟩ := hc
  have hslice : workers[i].slice = slice' := htask.slice
  rw [hslice] at hnonces hcursor hstop
  refine ⟨workers[i].hashes, ?_, hnonces⟩
  rw [NonceRange.size]
  omega

/-- A worker without a slice hashes nothing. -/
theorem Search.hashed_eq_nil (h : Search r history spawning workers s) {i : Nat} (hi : r.slices[i]? = none) :
    hashed history i = [] := by
  have hnone : history.filter (·.id = i) = [] := by
    refine List.filter_eq_nil_iff.2 fun v hv => ?_
    have hlt := h.id_lt v hv
    rw [List.getElem?_eq_none_iff, Setup.slices, NonceRange.split, List.length_ofFn] at hi
    rw [decide_eq_true_iff]
    omega
  rw [hashed, hnone, List.flatMap_nil]

theorem Search.mem_slice (h : Search r history spawning workers s) {i : Nat} {nonce : UInt32}
    (hn : nonce ∈ hashed history i) : ∃ slice, r.slices[i]? = some slice ∧ nonce ∈ slice := by
  cases hslice : r.slices[i]? with
  | none =>
    rw [h.hashed_eq_nil hslice] at hn
    cases hn
  | some slice =>
    obtain ⟨n, hle, hnonces⟩ := h.hashed_eq hslice
    have hmem : nonce.toNat ∈ List.range' slice.start n := by
      rw [← hnonces]
      exact List.mem_map_of_mem hn
    rw [List.mem_range'_1] at hmem
    have hlt := slice.start_le_stop
    rw [NonceRange.size] at hle
    exact ⟨slice, rfl, by rw [NonceRange.mem_def]; omega⟩

theorem Search.nodup_hashed (h : Search r history spawning workers s) (i : Nat) : (hashed history i).Nodup := by
  cases hslice : r.slices[i]? with
  | none =>
    rw [h.hashed_eq_nil hslice]
    exact List.nodup_nil
  | some slice =>
    obtain ⟨n, -, hnonces⟩ := h.hashed_eq hslice
    refine List.Nodup.of_map (·.toNat) ?_
    rw [hnonces]
    exact List.nodup_range'

/-- As long as nonces remain, neither the cursor nor a lane of the next batch is cut off by the width of a nonce. -/
theorem toNat_lanes (w : Worker) (hmore : w.remaining ≠ 0) : w.cursor.toUInt32.toNat = w.cursor ∧
    ∀ lane < w.batchWidth.count, (Engine.laneNonce w.cursor.toUInt32 lane).toNat = w.cursor + lane := by
  have hsize := w.batchSize_le
  rw [Worker.remaining] at hmore hsize
  refine ⟨w.slice.toNat_of_mem (n := w.cursor) (by omega), fun lane hlane => ?_⟩
  rw [w.count_batchWidth hmore] at hlane
  exact Worker.toNat_laneNonce lane (by omega)

theorem Search.hashesOf_eq (h : Search r history spawning workers s) {i : Nat} {w : Worker}
    (hw : workers[i]? = some w) : s.board.hashesOf i = published history i := by
  have hprogress := (h.accounts i w hw).progress
  rw [h.id_eq hw] at hprogress
  rw [Board.hashesOf, hprogress, Option.getD_some]

theorem Search.covers (h : Search r history spawning workers s) {i : Nat} {w : Worker} (hw : workers[i]? = some w) :
    w.Covers (hashed history i) := by
  have hcovers := (h.accounts i w hw).covers
  rw [h.id_eq hw] at hcovers
  exact hcovers

/-- In every run, whatever the node does and whichever order the workers run in, a worker hashes the nonces of its
slice one after the other, from the first one on; no other worker hashes one of them, and none lies outside the range.
While the round searches, what the worker hashes next is just the batch that its step leaves to be tested, it counts
what it has hashed, its cursor and its lanes are no larger than a nonce may be, and the count on the board follows its
own and never falls. A worker that is reported as exhausted has hashed its whole slice. -/
theorem nonces_hashed_once (r : Setup σ) (events : List Event) :
    (∀ (i : Nat) (slice : NonceRange), r.slices[i]? = some slice →
      ∃ n ≤ slice.size, (hashed (r.actors events) i).map (·.toNat) = List.range' slice.start n) ∧
    (∀ i, (hashed (r.actors events) i).Nodup ∧ ∀ nonce ∈ hashed (r.actors events) i,
      nonce ∈ r.range ∧ ∀ j, j ≠ i → nonce ∉ hashed (r.actors events) j) ∧
    (∀ b workers, r.searching? events = some (b, workers) → ∀ (i : Nat) (w : Worker), workers[i]? = some w →
      r.slices[i]? = some w.slice ∧ w.Covers (hashed (r.actors events) i) ∧
      (∀ s, w.Hashes (w.step r.node s).1) ∧
      (w.remaining ≠ 0 → w.cursor.toUInt32.toNat = w.cursor ∧
        ∀ lane < w.batchWidth.count, (Engine.laneNonce w.cursor.toUInt32 lane).toNat = w.cursor + lane) ∧
      b.hashesOf i ≤ w.hashes ∧
      ∀ later b' workers', r.searching? (events ++ later) = some (b', workers') →
        b.hashesOf i ≤ b'.hashesOf i) ∧
    ∀ report, (r.run events).progress = .returned (.ok report) → ∀ v ∈ report.workers,
      (hashed (r.actors events) v.id).map (·.toNat) = List.range' v.range.start v.hashes ∧
      v.hashes ≤ v.range.size ∧ (v.exit = .exhausted → v.hashes = v.range.size) := by
  refine ⟨fun i slice hslice => ?_, fun i => ?_, fun b workers hsearching i w hw => ?_, fun report hreturned => ?_⟩
  · rcases search_of_actors r events with hnone | ⟨_, workers, s, h⟩
    · rw [hnone]
      exact ⟨0, Nat.zero_le _, rfl⟩
    · exact h.hashed_eq hslice
  · rcases search_of_actors r events with hnone | ⟨_, workers, s, h⟩
    · rw [hnone]
      exact ⟨List.nodup_nil, by rintro nonce ⟨⟩⟩
    · refine ⟨h.nodup_hashed i, fun nonce hn => ?_⟩
      obtain ⟨slice, hslice, hmem⟩ := h.mem_slice hn
      refine ⟨NonceRange.mem_of_mem_split hslice hmem, fun j hij hn' => ?_⟩
      obtain ⟨slice', hslice', hmem'⟩ := h.mem_slice hn'
      exact hij (NonceRange.eq_of_mem_split hslice' hslice hmem' hmem)
  · obtain ⟨_, -, h⟩ := search_of_searching? hsearching
    obtain ⟨slice, hslice, htask⟩ := h.task hw
    have hle := (h.accounts i w hw).published_le
    rw [h.id_eq hw, ← h.hashesOf_eq hw] at hle
    refine ⟨?_, h.covers hw, w.step_hashes r.node, toNat_lanes w, hle, fun later b' workers' hlater => ?_⟩
    · rw [htask.slice]
      exact hslice
    · obtain ⟨_, -, h'⟩ := search_of_searching? hlater
      have hi : i < workers'.size := by
        rw [h'.size_workers, ← h.size_workers]
        exact (Array.getElem?_eq_some_iff.1 hw).1
      have hmono := published_le_append (r.actors events) (r.actorsFrom (r.run events) later) i
      rw [← h.hashesOf_eq hw, Setup.actors, Setup.run, ← Setup.actorsFrom_append] at hmono
      exact hmono.trans (h'.hashesOf_eq (Array.getElem?_eq_getElem hi)).ge
  · have hstage := stage_run (r := r) events
    generalize r.run events = e at hreturned hstage
    cases hstage with
    | @returned _ _ _ _ _ workers _ hafter _ hreport _ =>
      cases hreturned
      intro v hv
      rw [hreport] at hv
      obtain ⟨w, hw, rfl⟩ := List.mem_map.1 hv
      obtain ⟨i, hi⟩ := List.getElem?_of_mem hw
      rw [Array.getElem?_toList] at hi
      obtain ⟨hnonces, hcursor, hstop, hend⟩ := (hafter.search.accounts i w hi).covers
      refine ⟨hnonces, ?_, fun hexit => ?_⟩
      · show w.hashes ≤ w.slice.stop - w.slice.start
        omega
      · have hstop := hend hexit
        show w.hashes = w.slice.stop - w.slice.start
        omega
    | _ => cases hreturned

/-! ### A round in vain -/

/-- Two workers with three nonces, none of which is good. -/
def vain : Setup LocalNode where
  config := { threads := some 2, lanes := some .one, resyncBatches := 1 }
  host := {}
  node := LocalNode.answer
  work := .ofHeader
    { version := 1, prevBlockHash := BlockHash.zero.bytes, merkleRoot := Bytes.zero 32, referenceHash := Bytes.zero 32,
      time := 1700000000, bits := 0x1d00ffff, nonce := 0 }
  range := .clamp 7 10
  world := { node := { bits := 0x1d00ffff, clock := fun _ => 1700000000 } }

/-- Worker 1 is done with its two nonces before worker 0 begins. Worker 0 hashes its own, is told the tip that the
header builds on, and ends the round. -/
def vainSearch : List Event :=
  List.replicate 3 (.step .session) ++ List.replicate 17 (.step (.worker 1)) ++ List.replicate 16 (.step (.worker 0)) ++
    [.elapse 5000000, .step .session]

def vainReport : RoundReport where
  outcome := .exhausted
  bits := 0x1d00ffff
  elapsed := 5000000
  workers := [⟨0, .clamp 7 8, 1, 0, .exhausted⟩, ⟨1, .clamp 8 10, 2, 0, .exhausted⟩]

theorem vain_returned : (vain.run vainSearch).progress = .returned (.ok vainReport) := by
  decide +kernel

theorem nonces_hashed_once_vain :
    (vain.run vainSearch).progress = .returned (.ok vainReport) ∧
    (hashed (vain.actors vainSearch) 0).map (·.toNat) = [7] ∧
    (hashed (vain.actors vainSearch) 1).map (·.toNat) = [8, 9] := by
  obtain ⟨-, -, -, hreported⟩ := nonces_hashed_once vain vainSearch
  have hworkers := hreported _ vain_returned
  obtain ⟨hfirst, -⟩ := hworkers _ List.mem_cons_self
  obtain ⟨hsecond, -⟩ := hworkers _ (List.mem_cons_of_mem _ List.mem_cons_self)
  exact ⟨vain_returned, hfirst, hsecond⟩

end Round

end HeaderMiner
