import HeaderMiner.Proofs.Round.Solo
import Mathlib

/-!
# Workers and plain searches

A `Scan` is the task of a worker without its machinery: it hashes one header after the other, and stops at the
first good one. A worker that is alone reports what the scan finds, with the times that the worker was told
(`solo_refines_scan`). The induction is on the batches: `Worker.Between` says where a worker stands between two of
them, and `Scan.Passes` what the scan has come past until then.
-/

namespace HeaderMiner

variable {σ : Type}

/-! ### Scans -/

/-- A worker's task, with the time of each window. -/
structure Scan where
  id : Nat
  slice : NonceRange
  work : Work
  settings : WorkerSettings
  time : Nat → UInt32

namespace Scan

variable (c : Scan)

/-- The number of hashes in a window. -/
def window : Nat := c.settings.lanes.count * c.settings.resyncBatches

def header (j : Nat) : RawHeader :=
  (c.work.header.setTime (c.time (j / c.window))).setNonce (UInt32.ofNat (c.slice.start + j))

def hash (j : Nat) : BlockHash := (c.header j).blockHash

/-- The first header with a good hash. -/
def first? : Option Nat := (List.range c.slice.size).find? fun j => c.work.target.isMetBy (c.hash j)

/-- The number of misleading hashes among the first ones. -/
def misleading (n : Nat) : Nat := Nat.count (fun j => c.work.target.MisledBy (c.hash j)) n

/-- The number of hashes up to the end of a batch. -/
def hashesThrough (j : Nat) : Nat :=
  min ((j / c.settings.lanes.count + 1) * c.settings.lanes.count) c.slice.size

def solution (j : Nat) : Solution :=
  ⟨c.header j, UInt32.ofNat (c.slice.start + j), c.time (j / c.window), c.hash j, c.id⟩

def winner? : Option Solution := c.first?.map c.solution

def report : WorkerReport :=
  match c.first? with
  | some j => ⟨c.id, c.slice, c.hashesThrough j, c.misleading j, .solved⟩
  | none => ⟨c.id, c.slice, c.slice.size, c.misleading c.slice.size, .exhausted⟩

/-- None of the first hashes is good, and so many mislead. -/
structure Passes (n falsePositives : Nat) : Prop where
  miss : ∀ j < n, ¬ c.work.target.isMetBy (c.hash j)
  falsePositives : falsePositives = c.misleading n

variable {c} {n falsePositives : Nat}

theorem Passes.first?_eq_some (h : c.Passes n falsePositives) (hn : n < c.slice.size)
    (hgood : c.work.target.isMetBy (c.hash n)) : c.first? = some n := by
  refine List.find?_range_eq_some.2 ⟨hgood, List.mem_range.2 hn, fun j hj => ?_⟩
  rw [Bool.not_eq_true', ← Bool.not_eq_true]
  exact h.miss j hj

theorem Passes.first?_eq_none (h : c.Passes c.slice.size falsePositives) : c.first? = none := by
  refine List.find?_range_eq_none.2 fun j hj => ?_
  rw [Bool.not_eq_true', ← Bool.not_eq_true]
  exact h.miss j hj

/-- Passing more hashes, all with one header. -/
theorem Passes.add (h : c.Passes n falsePositives) {header : RawHeader} {first i : Nat}
    (hhash : ∀ k < i, c.hash (n + k) = header.hashAt (first + k))
    (hmiss : ∀ k < i, ¬ c.work.target.isMetBy (header.hashAt (first + k))) :
    c.Passes (n + i) (falsePositives + Worker.misleading c.work.target header first i) := by
  constructor
  · intro j hj
    rcases Nat.lt_or_ge j n with hjn | hjn
    · exact h.miss j hjn
    · obtain ⟨k, rfl⟩ := Nat.exists_eq_add_of_le hjn
      have hk : k < i := by omega
      rw [hhash k hk]
      exact hmiss k hk
  · have hrest : Worker.misleading c.work.target header first i =
        Nat.count (fun k => c.work.target.MisledBy (c.hash (n + k))) i :=
      Worker.count_congr fun k hk => by rw [hhash k hk]
    rw [h.falsePositives, hrest, misleading, misleading, Nat.count_add]

end Scan

/-! ### Workers between batches -/

namespace Worker

def scan (w : Worker) (time : Nat → UInt32) : Scan := ⟨w.id, w.slice, w.work, w.settings, time⟩

/-- The worker after a batch without a good hash. -/
def afterBatch (w : Worker) (falsePositives left : Nat) : Worker :=
  { w with
    cursor := w.cursor + w.batchSize
    hashes := w.hashes + w.batchSize
    falsePositives
    phase := .hashing left }

/-- A worker between two batches of window `k`, with the time `t` and `left` batches to go. -/
structure Between (w : Worker) (t : UInt32) (k left : Nat) : Prop where
  phase : w.phase = .hashing left
  header : w.header = w.work.header.setTime t
  engine : w.engine = Engine.ofHeader w.header
  cursor : w.cursor = w.slice.start + w.hashes
  hashes_le : w.hashes ≤ w.slice.size
  left_le : left ≤ w.settings.resyncBatches
  place : w.hashes = w.slice.size ∨
    w.hashes = w.settings.lanes.count * (w.settings.resyncBatches * k + (w.settings.resyncBatches - left))

section Place

variable {w : Worker} {t : UInt32} {k left : Nat}

theorem Between.remaining (h : w.Between t k left) : w.remaining = w.slice.size - w.hashes := by
  rw [Worker.remaining, h.cursor, NonceRange.size, Nat.sub_add_eq]

theorem Between.hashes_of_remaining (h : w.Between t k (left + 1)) (hmore : w.remaining ≠ 0) :
    w.hashes = w.settings.lanes.count * (w.settings.resyncBatches * k + (w.settings.resyncBatches - (left + 1))) := by
  have hrem := h.remaining
  exact h.place.resolve_left (by omega)

/-- The hashes of the next batch belong to the window. -/
theorem Between.div_window (h : w.Between t k (left + 1)) (hmore : w.remaining ≠ 0) {i : Nat}
    (hi : i < w.settings.lanes.count) :
    (w.hashes + i) / (w.settings.lanes.count * w.settings.resyncBatches) = k := by
  obtain ⟨d, hd⟩ := Nat.exists_eq_add_of_le h.left_le
  have hsub : w.settings.resyncBatches - (left + 1) = d := by omega
  have hlt : w.settings.lanes.count * d + i < w.settings.lanes.count * w.settings.resyncBatches :=
    calc w.settings.lanes.count * d + i
      _ < w.settings.lanes.count * (d + 1) := by rw [Nat.mul_succ]; exact Nat.add_lt_add_left hi _
      _ ≤ w.settings.lanes.count * w.settings.resyncBatches := Nat.mul_le_mul_left _ (by omega)
  rw [h.hashes_of_remaining hmore, hsub, Nat.mul_add, ← Nat.mul_assoc, Nat.add_assoc,
    Nat.mul_add_div (Nat.zero_lt_of_lt hlt), Nat.div_eq_of_lt hlt, Nat.add_zero]

theorem Between.hashesThrough (h : w.Between t k (left + 1)) (hmore : w.remaining ≠ 0) {i : Nat}
    (hi : i < w.settings.lanes.count) (time : Nat → UInt32) :
    (w.scan time).hashesThrough (w.hashes + i) = w.hashes + w.batchSize := by
  have hdiv : (w.hashes + i) / w.settings.lanes.count * w.settings.lanes.count = w.hashes := by
    rw [h.hashes_of_remaining hmore, Nat.mul_add_div (LaneWidth.count_pos _), Nat.div_eq_of_lt hi, Nat.add_zero,
      Nat.mul_comm]
  have hle := h.hashes_le
  show min (((w.hashes + i) / w.settings.lanes.count + 1) * w.settings.lanes.count) w.slice.size = _
  rw [Nat.succ_mul, hdiv, batchSize, h.remaining]
  omega

theorem Between.header_scan (h : w.Between t k (left + 1)) (hmore : w.remaining ≠ 0) {time : Nat → UInt32}
    (htime : time k = t) {i : Nat} (hi : i < w.batchSize) :
    (w.scan time).header (w.hashes + i) = w.header.setNonce (UInt32.ofNat (w.cursor + i)) := by
  have hwindow : (w.hashes + i) / (w.scan time).window = k :=
    h.div_window hmore (hi.trans_le (Nat.min_le_left _ _))
  rw [Scan.header, hwindow]
  show (w.work.header.setTime (time k)).setNonce (UInt32.ofNat (w.slice.start + (w.hashes + i))) = _
  rw [htime, h.header, h.cursor, Nat.add_assoc]

theorem Between.hash_scan (h : w.Between t k (left + 1)) (hmore : w.remaining ≠ 0) {time : Nat → UInt32}
    (htime : time k = t) {i : Nat} (hi : i < w.batchSize) :
    (w.scan time).hash (w.hashes + i) = w.header.hashAt (w.cursor + i) := by
  rw [Scan.hash, h.header_scan hmore htime hi, RawHeader.hashAt]

theorem Between.solution_scan (h : w.Between t k (left + 1)) (hmore : w.remaining ≠ 0) {time : Nat → UInt32}
    (htime : time k = t) {i : Nat} (hi : i < w.batchSize) :
    w.solution (UInt32.ofNat (w.cursor + i)) (w.header.hashAt (w.cursor + i)) =
      (w.scan time).solution (w.hashes + i) := by
  have hwindow : (w.hashes + i) / (w.scan time).window = k :=
    h.div_window hmore (hi.trans_le (Nat.min_le_left _ _))
  have hnow : w.header.time = t := by rw [h.header, RawHeader.time_setTime]
  rw [Scan.solution, h.header_scan hmore htime hi, h.hash_scan hmore htime hi, hwindow, solution, hnow]
  show _ = (⟨_, UInt32.ofNat (w.slice.start + (w.hashes + i)), time k, _, w.id⟩ : Solution)
  rw [htime, ← Nat.add_assoc, ← h.cursor]

theorem Between.next (h : w.Between t k (left + 1)) (hmore : w.remaining ≠ 0) (falsePositives : Nat) :
    (w.afterBatch falsePositives left).Between t k left where
  phase := rfl
  header := h.header
  engine := h.engine
  cursor := by
    show w.cursor + w.batchSize = w.slice.start + (w.hashes + w.batchSize)
    rw [h.cursor, Nat.add_assoc]
  hashes_le := by
    have hle := w.batchSize_le
    have hrem := h.remaining
    show w.hashes + w.batchSize ≤ w.slice.size
    omega
  left_le := Nat.le_of_succ_le h.left_le
  place := by
    have hrem := h.remaining
    have hleft := h.left_le
    show w.hashes + w.batchSize = w.slice.size ∨ w.hashes + w.batchSize =
      w.settings.lanes.count * (w.settings.resyncBatches * k + (w.settings.resyncBatches - left))
    rcases Nat.le_total w.settings.lanes.count w.remaining with hle | hle
    · right
      have hback : w.settings.resyncBatches - left = w.settings.resyncBatches - (left + 1) + 1 := by omega
      rw [batchSize, Nat.min_eq_left hle, h.hashes_of_remaining hmore, hback, ← Nat.add_assoc, Nat.mul_succ]
    · left
      rw [batchSize, Nat.min_eq_right hle]
      omega

theorem Between.resync (h : w.Between t k 0) (t' : UInt32) :
    { w with
      header := w.header.setTime t'
      engine := Engine.ofHeader (w.header.setTime t')
      phase := .hashing w.settings.resyncBatches }.Between t' (k + 1) w.settings.resyncBatches where
  phase := rfl
  header := by rw [h.header, RawHeader.setTime_setTime]
  engine := rfl
  cursor := h.cursor
  hashes_le := h.hashes_le
  left_le := Nat.le_refl _
  place := by
    refine h.place.imp_right fun hplace => ?_
    rw [Nat.sub_self, Nat.add_zero, Nat.mul_succ]
    exact hplace

theorem between_ofSlice (id : Nat) (slice : NonceRange) (work : Work) (settings : WorkerSettings) :
    (ofSlice id slice work settings).openWindow.Between work.header.time 0 settings.resyncBatches where
  phase := rfl
  header := (RawHeader.setTime_time _).symm
  engine := rfl
  cursor := rfl
  hashes_le := Nat.zero_le _
  left_le := Nat.le_refl _
  place := by
    right
    show 0 = settings.lanes.count * (settings.resyncBatches * 0 + (settings.resyncBatches - settings.resyncBatches))
    rw [Nat.sub_self, Nat.mul_zero, Nat.mul_zero]

end Place

/-! ### From a batch to the end -/

/-- A worker that ends with what a scan finds, if the scan has come past what the worker has hashed. -/
def Completes (node : Node σ) (w : Worker) (s : Shared σ) (t : UInt32) (k : Nat) : Prop :=
  ∃ times report winner, Ends node (w, s) times report winner ∧
    ∀ time : Nat → UInt32, time k = t → (∀ i t', times[i]? = some t' → time (k + 1 + i) = t') →
      (w.scan time).Passes w.hashes w.falsePositives →
      report = (w.scan time).report ∧ winner = (w.scan time).winner?

section Completion

variable {node : Node σ} {w : Worker} {s : Shared σ} {t : UInt32} {k left : Nat}

theorem completes_exhausted (h : w.Between t k (left + 1)) (hnone : w.remaining = 0)
    (hwinner : s.board.winner = none) : Completes node w s t k := by
  have hleave : w.step node s = (w.leave .exhausted, s) := by
    simp only [step, h.phase, hnone, if_true]
  have hends : Ends node (w.leave .exhausted, s) [] (w.leave .exhausted).report s.board.winner :=
    ends_exhausted rfl rfl
  refine ⟨[], _, _, .of_leads (leads_step hleave) (.refl node _ s.world) rfl hends, fun time _ _ hpasses => ?_⟩
  have hall : w.hashes = (w.scan time).slice.size := by
    have hrem := h.remaining
    have hle := h.hashes_le
    show w.hashes = w.slice.size
    omega
  have hcount := hpasses.falsePositives
  rw [hall] at hpasses hcount
  rw [Scan.report, Scan.winner?, hpasses.first?_eq_none, hwinner]
  refine ⟨?_, rfl⟩
  show (⟨w.id, w.slice, w.hashes, w.falsePositives, .exhausted⟩ : WorkerReport) = _
  rw [hall, hcount]
  rfl

theorem completes_resync (hcalm : Calm node w.work w.id s.world.node) (hstop : s.board.stop = false)
    (hint : s.world.interrupted = false) (h : w.Between t k 0)
    (hnext : ∀ t' world, Calm node w.work w.id world.node → world.interrupted = false →
      Completes node { w with
        header := w.header.setTime t'
        engine := Engine.ofHeader (w.header.setTime t')
        phase := .hashing w.settings.resyncBatches } ⟨s.board.publish w.id w.hashes, world⟩ t' (k + 1)) :
    Completes node w s t k := by
  obtain ⟨t', world, hhears, hleads⟩ := leads_resync hcalm hstop hint h.engine h.phase
  obtain ⟨times, report, winner, hends, hscan⟩ :=
    hnext t' world (hcalm.later hhears.asked) (hhears.interrupted.trans hint)
  refine ⟨t' :: times, report, winner, .of_leads hleads hhears (by simp only [thread]) hends,
    fun time _ htimes hpasses => ?_⟩
  simp only [scan] at hscan hpasses ⊢
  refine hscan time (htimes 0 t' rfl) (fun i t'' hi => ?_) hpasses
  rw [← htimes (i + 1) t'' hi, Nat.add_assoc (k + 1), Nat.add_comm 1]

theorem completes_batch (hcalm : Calm node w.work w.id s.world.node)
    (hwork : w.work.target = Target.ofBits w.work.header.bits) (hwinner : s.board.winner = none)
    (h : w.Between t k (left + 1)) (hmore : w.remaining ≠ 0)
    (hnext : ∀ falsePositives world, Calm node w.work w.id world.node → world.interrupted = s.world.interrupted →
      Completes node (w.afterBatch falsePositives left) { s with world } t k) :
    Completes node w s t k := by
  have hhash : w.step node s = (w.hashBatch left, s) := by
    simp only [step, h.phase, hmore, if_false]
  rw [w.hashBatch_eq h.engine hmore] at hhash
  obtain ⟨i, falsePositives, world, hi, hmiss, hcount, hhears, htests⟩ :=
    leads_testing (w := { w with
      cursor := w.cursor + w.batchSize
      hashes := w.hashes + w.batchSize
      phase := .testing left (w.header.candidates w.cursor w.batchSize) }) hcalm hwork rfl
  have hpass (time : Nat → UInt32) (htime : time k = t) (hpasses : (w.scan time).Passes w.hashes w.falsePositives) :
      (w.scan time).Passes (w.hashes + i) falsePositives := by
    rw [hcount]
    exact hpasses.add (fun j hj => h.hash_scan hmore htime (hj.trans_le hi)) hmiss
  rcases htests with ⟨rfl, hleads⟩ | ⟨hlt, hgood, hleads⟩
  · obtain ⟨times, report, winner, hends, hscan⟩ :=
      hnext falsePositives world (hcalm.later hhears.asked) hhears.interrupted
    refine ⟨times, report, winner, .of_leads (.head hhash hleads) hhears rfl hends,
      fun time htime htimes hpasses => ?_⟩
    exact hscan time htime htimes (hpass time htime hpasses)
  · have hends : Ends node ({ w with
        cursor := w.cursor + w.batchSize
        hashes := w.hashes + w.batchSize
        falsePositives
        phase := .claiming (w.solution (UInt32.ofNat (w.cursor + i)) (w.header.hashAt (w.cursor + i))) },
        { s with world }) [] ⟨w.id, w.slice, w.hashes + w.batchSize, falsePositives, .solved⟩
        (some (w.solution (UInt32.ofNat (w.cursor + i)) (w.header.hashAt (w.cursor + i)))) :=
      ends_claiming rfl hwinner
    refine ⟨_, _, _, .of_leads (.head hhash hleads) hhears rfl hends, fun time htime _ hpasses => ?_⟩
    have hpasses := hpass time htime hpasses
    have hsize : w.hashes + i < (w.scan time).slice.size := by
      have hle := w.batchSize_le
      have hrem := h.remaining
      show w.hashes + i < w.slice.size
      omega
    have hfirst := hpasses.first?_eq_some hsize (by rw [h.hash_scan hmore htime hlt]; exact hgood)
    have hthrough := h.hashesThrough hmore (hlt.trans_le (Nat.min_le_left _ _)) time
    rw [Scan.report, Scan.winner?, hfirst, Option.map_some, ← h.solution_scan hmore htime hlt]
    refine ⟨?_, rfl⟩
    show _ = (⟨w.id, w.slice, _, _, .solved⟩ : WorkerReport)
    rw [hthrough, ← hpasses.falsePositives]

theorem Between.completes (hcalm : Calm node w.work w.id s.world.node)
    (hwork : w.work.target = Target.ofBits w.work.header.bits) (hresync : 1 ≤ w.settings.resyncBatches)
    (hstop : s.board.stop = false) (hwinner : s.board.winner = none) (hint : s.world.interrupted = false)
    (h : w.Between t k left) : Completes node w s t k := by
  -- by induction on the nonces that remain, which the end of a window leaves as they are
  induction hm : 2 * w.remaining + (if left = 0 then 1 else 0) using Nat.strong_induction_on
    generalizing w s t k left with
  | _ m ih =>
    subst hm
    cases left with
    | zero =>
      refine completes_resync hcalm hstop hint h fun t' world hcalm' hint' => ?_
      have hmeasure : 2 * w.remaining + (if w.settings.resyncBatches = 0 then 1 else 0) <
          2 * w.remaining + (if 0 = 0 then 1 else 0) := by
        rw [if_neg (by omega), if_pos rfl]
        omega
      exact ih _ hmeasure hcalm' hwork hresync hstop hwinner hint' (h.resync t')
        (by simp only [Worker.remaining])
    | succ left =>
      by_cases hmore : w.remaining = 0
      · exact completes_exhausted h hmore hwinner
      · refine completes_batch hcalm hwork hwinner h hmore fun falsePositives world hcalm' hint' => ?_
        have hpos := w.batchSize_pos hmore
        have hmeasure : 2 * (w.slice.stop - (w.cursor + w.batchSize)) + (if left = 0 then 1 else 0) <
            2 * w.remaining + (if left + 1 = 0 then 1 else 0) := by
          rw [if_neg (Nat.succ_ne_zero left)]
          rw [Worker.remaining] at hmore ⊢
          split <;> omega
        exact ih _ hmeasure hcalm' hwork hresync hstop hwinner (hint'.trans hint) (h.next hmore falsePositives) rfl

theorem completes_ofSlice {id : Nat} {slice : NonceRange} {work : Work} {settings : WorkerSettings} {board : Board}
    {world : World σ} (hcalm : Calm node work id world.node) (hwork : work.target = Target.ofBits work.header.bits)
    (hresync : 1 ≤ settings.resyncBatches) (hstop : board.stop = false) (hwinner : board.winner = none)
    (hint : world.interrupted = false) :
    Completes node (ofSlice id slice work settings) ⟨board, world⟩ work.header.time 0 := by
  have hstart : (ofSlice id slice work settings).step node ⟨board, world⟩ =
      (if slice.isEmpty then (ofSlice id slice work settings).leave .exhausted
        else (ofSlice id slice work settings).openWindow, ⟨board, world.log (.scanning id slice)⟩) := rfl
  have hhears := World.Hears.log node (.worker id) world (.scanning id slice)
  cases hempty : slice.isEmpty with
  | true =>
    rw [hempty, if_pos rfl] at hstart
    have hsize : slice.size = 0 := by
      rw [NonceRange.size, beq_iff_eq.1 hempty, Nat.sub_self]
    have hends : Ends node ((ofSlice id slice work settings).leave .exhausted,
        ⟨board, world.log (.scanning id slice)⟩) [] ⟨id, slice, 0, 0, .exhausted⟩ board.winner :=
      ends_exhausted rfl rfl
    refine ⟨[], _, _, .of_leads (leads_step hstart) hhears rfl hends, fun time _ _ hpasses => ?_⟩
    have hall : (ofSlice id slice work settings).hashes = ((ofSlice id slice work settings).scan time).slice.size :=
      hsize.symm
    have hcount := hpasses.falsePositives
    rw [hall] at hpasses hcount
    rw [Scan.report, Scan.winner?, hpasses.first?_eq_none, hwinner]
    refine ⟨?_, rfl⟩
    show _ = (⟨id, slice, _, _, .exhausted⟩ : WorkerReport)
    rw [← hcount, ← hall]
    rfl
  | false =>
    rw [hempty, if_neg Bool.false_ne_true] at hstart
    obtain ⟨times, report, winner, hends, hscan⟩ :=
      (between_ofSlice id slice work settings).completes (s := ⟨board, world.log (.scanning id slice)⟩)
        (hcalm.later hhears.asked) hwork hresync hstop hwinner hint
    exact ⟨times, report, winner, .of_leads (leads_step hstart) hhears rfl hends, hscan⟩

end Completion

/-- Whatever its lanes, its windows and the times that it is told, a worker that is alone comes to its end, and what it
reports and claims is what its scan finds. -/
theorem solo_refines_scan (node : Node σ) (id : Nat) (slice : NonceRange) (work : Work) (settings : WorkerSettings)
    (board : Board) (world : World σ) (hresync : 1 ≤ settings.resyncBatches)
    (hwork : work.target = Target.ofBits work.header.bits) (hcalm : Calm node work id world.node)
    (hstop : board.stop = false) (hwinner : board.winner = none) (hint : world.interrupted = false) :
    ∃ n report board' world',
      Execution.run (solo node) ⟨.running (ofSlice id slice work settings, board), world⟩
        (List.replicate n (.step (.worker id))) = ⟨.returned (report, board'), world'⟩ ∧
      ∀ time : Nat → UInt32, time 0 = work.header.time →
        (∀ i t, (readings (.worker id) (world'.since world.journal.size))[i]? = some t → time (i + 1) = t) →
        report = (Scan.mk id slice work settings time).report ∧
        board'.winner = (Scan.mk id slice work settings time).winner? := by
  obtain ⟨times, report, winner, ⟨c, hleads, hdone, rfl, rfl, hhears⟩, hscan⟩ :=
    completes_ofSlice hcalm hwork hresync hstop hwinner hint
  obtain ⟨n, hrun⟩ := hleads.run_solo id rfl hdone
  refine ⟨n, c.1.report, c.2.board, c.2.world, hrun, fun time hstart htimes => ?_⟩
  obtain ⟨new, hjournal, hnew⟩ := hhears.journal
  have hreadings : readings (.worker id) (c.2.world.since world.journal.size) = times := by
    rw [World.since_append (Nat.le_refl _) hjournal, World.since_self, List.nil_append]
    exact hnew
  rw [hreadings] at htimes
  refine hscan time hstart (fun i t hi => ?_) ⟨fun j hj => absurd hj (Nat.not_lt_zero j), (Nat.count_zero _).symm⟩
  rw [Nat.zero_add, Nat.add_comm]
  exact htimes i t hi

/-- Worker 0 of a local node, with three windows for six nonces. -/
theorem solo_refines_scan_localNode :
    let header : Header :=
      { version := 1, prevBlockHash := BlockHash.zero.bytes, merkleRoot := Bytes.zero 32,
        referenceHash := Bytes.zero 32, time := 1700000000, bits := 0x207fffff, nonce := 0 }
    let slice : NonceRange := ⟨0, 6, by decide, by decide⟩
    let settings : WorkerSettings := ⟨.two, 1, 100⟩
    let world : World LocalNode := { node := { bits := header.bits, clock := fun i => header.time + i.toUInt32 } }
    ∃ n report board' world',
      Execution.run (solo LocalNode.answer)
        ⟨.running (ofSlice 0 slice (Work.ofHeader header) settings, Board.ofWorkers 1), world⟩
        (List.replicate n (.step (.worker 0))) = ⟨.returned (report, board'), world'⟩ ∧
      ∀ time : Nat → UInt32, time 0 = (Work.ofHeader header).header.time →
        (∀ i t, (readings (.worker 0) (world'.since world.journal.size))[i]? = some t → time (i + 1) = t) →
        report = (Scan.mk 0 slice (Work.ofHeader header) settings time).report ∧
        board'.winner = (Scan.mk 0 slice (Work.ofHeader header) settings time).winner? :=
  solo_refines_scan LocalNode.answer 0 _ _ _ (Board.ofWorkers 1) _ (by decide) (by decide +kernel)
    (LocalNode.calm (by decide +kernel) 0) rfl rfl rfl

end Worker

end HeaderMiner
