import HeaderMiner.Proofs.Round.Batch
import HeaderMiner.Proofs.Round.Stage
import Mathlib

/-!
# Solutions of a round

A worker keeps two copies of its header, the bytes and the engine's words. `Worker.Faithful` ties both to the
last time that the worker was told: then every digest that waits to be tested is the double hash of the header
with its nonce, and a solution that is about to be claimed is `Solution.Sound`. The actions of the worker keep
this (`Acts.faithful`), and the entries of other threads do not matter to it. A worker whose solution is the winner
asks for the time no more, so the winner stays sound (`Search.honest`) until it is reported and handed in.
-/

namespace HeaderMiner

variable {σ : Type}

/-- The time that a worker's headers have after these entries. -/
def latestTime (work : Work) (id : Nat) (entries : List Entry) : UInt32 :=
  (readings (.worker id) entries).getLast?.getD work.header.time

theorem latestTime_append (work : Work) (id : Nat) {entries new : List Entry}
    (h : readings (.worker id) new = []) : latestTime work id (entries ++ new) = latestTime work id entries := by
  rw [latestTime, readings_append, h, List.append_nil, latestTime]

theorem latestTime_append_reading (work : Work) (id : Nat) {entries new : List Entry} {t : UInt32}
    (h : readings (.worker id) new = [t]) : latestTime work id (entries ++ new) = t := by
  rw [latestTime, readings_append, h, List.getLast?_concat, Option.getD_some]

/-- A solution is what its worker hashed for the work, and the node found it good. -/
structure Solution.Sound (work : Work) (slice : NonceRange) (entries : List Entry) (s : Solution) : Prop where
  /-- Only time and nonce differ from the work's header. -/
  frame : ∀ i (hi : i < 112), ¬ (100 ≤ i ∧ i < 104) → ¬ (108 ≤ i ∧ i < 112) →
    s.header.bytes[i] = work.header.bytes[i]
  nonce : s.header.nonce = s.nonce
  time : s.header.time = s.time
  hash : s.hash.bytes = Sha256.doubleHash s.header.bytes.toList
  checked : .called (.worker s.worker) (.proofOfWork s.hash work.header.bits) true ∈ entries
  mem : s.nonce ∈ slice
  latest : s.time = latestTime work s.worker entries

theorem Solution.Sound.append {work : Work} {slice : NonceRange} {entries new : List Entry} {s : Solution}
    (h : s.Sound work slice entries) (hnew : readings (.worker s.worker) new = []) :
    s.Sound work slice (entries ++ new) :=
  { h with
    checked := List.mem_append_left _ h.checked
    latest := h.latest.trans (latestTime_append work s.worker hnew).symm }

namespace Worker

/-- The header and the engine stand at the worker's latest time, and what was hashed with them is kept right. -/
structure Faithful (entries : List Entry) (w : Worker) : Prop where
  header : w.header = w.work.header.setTime (latestTime w.work w.id entries)
  engine : w.engine = Engine.ofHeader w.header
  start_le : w.slice.start ≤ w.cursor
  pending : ∀ x ∈ w.phase.pending, x.1 ∈ w.slice ∧ x.2 = (w.header.setNonce x.1).digest
  claimed : ∀ s, w.phase = .claiming s → s.worker = w.id ∧ s.Sound w.work w.slice entries

theorem faithful_ofSlice (id : Nat) (slice : NonceRange) (work : Work) (settings : WorkerSettings)
    {entries : List Entry} (h : readings (.worker id) entries = []) :
    (ofSlice id slice work settings).Faithful entries where
  header := by
    rw [latestTime]
    show work.header = work.header.setTime ((readings (.worker id) entries).getLast?.getD _)
    rw [h]
    exact (RawHeader.setTime_time _).symm
  engine := rfl
  start_le := Nat.le_refl _
  pending := by rintro x ⟨⟩
  claimed := by rintro s ⟨⟩

section

variable {w : Worker} {entries new : List Entry}

/-- A phase with no digests beyond those that were pending, and without a claim, changes nothing. -/
theorem Faithful.goto (h : w.Faithful entries) {p : Phase} (hpending : ∀ x ∈ p.pending, x ∈ w.phase.pending)
    (hclaim : ∀ s, p ≠ .claiming s) : (w.goto p).Faithful entries :=
  ⟨h.header, h.engine, h.start_le, fun x hx => h.pending x (hpending x hx),
    fun s hs => absurd hs (hclaim s)⟩

theorem Faithful.append (h : w.Faithful entries) (hnew : readings w.thread new = []) :
    w.Faithful (entries ++ new) := by
  refine ⟨?_, h.engine, h.start_le, h.pending, fun s hs => ?_⟩
  · rw [h.header, latestTime_append w.work w.id hnew]
  · obtain ⟨hid, hsound⟩ := h.claimed s hs
    refine ⟨hid, hsound.append ?_⟩
    rw [hid]
    exact hnew

theorem Faithful.setTime (h : w.Faithful entries) {t : UInt32} (hnew : readings w.thread new = [t])
    (hpending : w.phase.pending = []) (hclaim : ∀ s, w.phase ≠ .claiming s) :
    (w.setTime t).Faithful (entries ++ new) := by
  have hlatest : latestTime w.work w.id (entries ++ new) = t := latestTime_append_reading w.work w.id hnew
  rw [w.setTime_eq h.engine]
  refine ⟨?_, rfl, h.start_le, ?_, fun s hs => absurd hs (hclaim s)⟩
  · show w.header.setTime t = w.work.header.setTime (latestTime w.work w.id (entries ++ new))
    rw [hlatest, h.header, RawHeader.setTime_setTime]
  · show ∀ x ∈ w.phase.pending, _
    rw [hpending]
    rintro x ⟨⟩

theorem Faithful.hashBatch (h : w.Faithful entries) (hmore : w.remaining ≠ 0) (left : Nat) :
    (w.hashBatch left).Faithful entries :=
  ⟨h.header, h.engine, h.start_le.trans (Nat.le_add_right _ _),
    fun _ hx => w.mem_batch h.engine hmore h.start_le hx, by rintro s ⟨⟩⟩

/-- A digest that the node finds good makes a sound solution. -/
theorem Faithful.sound (h : w.Faithful entries) {nonce : UInt32} {digest : Digest}
    (hx : (nonce, digest) ∈ w.phase.pending)
    (hgood : .called w.thread (.proofOfWork digest.blockHash w.work.header.bits) true ∈ entries) :
    (w.solution nonce digest.blockHash).Sound w.work w.slice entries where
  frame i hi ht hn := by
    show (w.header.setNonce nonce).bytes[i] = _
    rw [RawHeader.getElem_setNonce _ _ hi hn, h.header, RawHeader.getElem_setTime _ _ hi ht]
  nonce := RawHeader.nonce_setNonce _ _
  time := RawHeader.time_setNonce _ _
  hash := by
    have hdigest : digest = (w.header.setNonce nonce).digest := (h.pending _ hx).2
    show digest.toBytes = Sha256.doubleHash (w.header.setNonce nonce).bytes.toList
    rw [hdigest]
    exact RawHeader.toBytes_digest _
  checked := hgood
  mem := (h.pending _ hx).1
  latest := by
    show w.header.time = _
    rw [h.header, RawHeader.time_setTime]
    rfl

theorem Acts.readings_eq_nil {w' : Worker} {b b' : Board} (h : w.Acts b w' b' new)
    (hw : w.phase.searches = false) : readings w.thread new = [] := by
  cases h with
  | wander hs | crash hs | giveUp hs => rw [hw] at hs; cases hs
  | refresh hs => rw [hs] at hw; cases hw
  | pass _ hnew | hit _ hnew | close _ hnew | finish _ _ hnew => exact hnew
  | _ => rfl

theorem Acts.searches_eq_false {w' : Worker} {b b' : Board} (h : w.Acts b w' b' new)
    (hw : w.phase.searches = false) : w'.phase.searches = false := by
  cases h with
  | wander hs | crash hs | giveUp hs => rw [hw] at hs; cases hs
  | hash hs | pass hs | refresh hs => rw [hs] at hw; cases hw
  | finish _ hp => rcases hp with rfl | rfl <;> rfl
  | rest => exact hw
  | _ => rfl

theorem Acts.faithful {w' : Worker} {b b' : Board} (hacts : w.Acts b w' b' new) (h : w.Faithful entries) :
    w'.Faithful (entries ++ new) := by
  cases hacts with
  | @wander p _ _ _ hp hpending _ hnew =>
    refine (h.append hnew).goto (by rw [hpending]; rintro x ⟨⟩) ?_
    rintro s rfl
    cases hp
  | @hash left _ hmore =>
    rw [List.append_nil]
    exact h.hashBatch hmore left
  | @pass left _ x pending _ hw hnew =>
    obtain ⟨hheader, hengine, hstart, hpending, -⟩ := h.append hnew
    refine ⟨hheader, hengine, hstart, fun y hy => hpending y ?_, by rintro s ⟨⟩⟩
    rw [hw]
    exact List.mem_cons_of_mem _ hy
  | @hit left nonce digest pending _ hw hnew hgood =>
    have h' := h.append hnew
    have hmem : (nonce, digest) ∈ w.phase.pending := by
      rw [hw]
      exact List.mem_cons_self
    refine ⟨h'.header, h'.engine, h'.start_le, by rintro x ⟨⟩, ?_⟩
    intro s hs
    obtain rfl : w.solution nonce digest.blockHash = s := Phase.claiming.inj hs
    exact ⟨rfl, h'.sound hmem (List.mem_append_right _ hgood)⟩
  | refresh hw hnew =>
    refine (h.setTime hnew ?_ ?_).goto (by rintro x ⟨⟩) (by rintro s ⟨⟩)
    · rw [hw]
      rfl
    · rw [hw]
      rintro s ⟨⟩
  | crash _ hnew => exact (h.append hnew).goto (by rintro x ⟨⟩) (by rintro s ⟨⟩)
  | giveUp _ _ hnew =>
    obtain ⟨hheader, hengine, hstart, -, -⟩ := h.append hnew
    exact ⟨hheader, hengine, hstart, by rintro x ⟨⟩, by rintro s ⟨⟩⟩
  | win | lose | announce | exhaust | conclude =>
    rw [List.append_nil]
    exact h.goto (by rintro x ⟨⟩) (by rintro s ⟨⟩)
  | close _ hnew =>
    obtain ⟨hheader, hengine, hstart, -, -⟩ := h.append hnew
    exact ⟨hheader, hengine, hstart, by rintro x ⟨⟩, by rintro s ⟨⟩⟩
  | finish _ hp hnew =>
    refine (h.append hnew).goto ?_ ?_
    · rcases hp with rfl | rfl <;> rintro x ⟨⟩
    · rcases hp with rfl | rfl <;> rintro s ⟨⟩
  | rest =>
    rw [List.append_nil]
    exact h

end

end Worker

namespace Round

variable {r : Setup σ} {history : List Worker} {spawning : Spawning} {workers : Array Worker} {s : Shared σ}

/-- All workers are faithful, and the winner is a sound solution of one that searches no more. -/
structure Honest (r : Setup σ) (workers : Array Worker) (s : Shared σ) : Prop where
  faithful : ∀ (i : Nat) (w : Worker), workers[i]? = some w → w.Faithful (r.entries s.world)
  winner : ∀ won : Solution, s.board.winner = some won → ∃ w : Worker, workers[won.worker]? = some w ∧
    w.phase.searches = false ∧ won.Sound w.work w.slice (r.entries s.world)

theorem Search.honest (h : Search r history spawning workers s) : Honest r workers s := by
  induction h with
  | @opened world n₁ n₂ hworld =>
    refine ⟨fun i w hw => ?_, by rintro won ⟨⟩⟩
    rw [getElem?_crew] at hw
    obtain ⟨slice, -, rfl⟩ := Option.map_eq_some_iff.1 hw
    refine Worker.faithful_ofSlice i slice r.work r.settings ?_
    rw [r.entries_of_journal hworld]
    rfl
  | @stepped _ _ workers s j v hsearch hv ih =>
    obtain ⟨new, hentries, hnew, hacts⟩ := hsearch.acts v
    have hid := hsearch.id_eq hv
    have hother {i : Nat} (hij : i ≠ j) : readings (.worker i) new = [] := by
      refine hnew.readings_eq_nil ?_
      rintro ⟨⟩
      exact hij hid
    refine ⟨?_, fun won hwon => ?_⟩
    · rw [hentries]
      refine forall_set ih.faithful hv (fun hf => hacts.faithful hf) fun i w hij hw hf => hf.append ?_
      rw [Worker.thread, hsearch.id_eq hw]
      exact hother hij
    · have hbefore : ∃ w : Worker, workers[won.worker]? = some w ∧ w.phase.searches = false ∧
          won.Sound w.work w.slice (r.entries s.world) := by
        rcases hacts.winner with hb | ⟨claimed, hphase, -, hb⟩
        · exact ih.winner won (hb.symm.trans hwon)
        · obtain rfl : claimed = won := Option.some.inj (hb.symm.trans hwon)
          obtain ⟨hworker, hsound⟩ := (ih.faithful j v hv).claimed claimed hphase
          exact ⟨v, by rw [hworker, hid, hv], by rw [hphase]; rfl, hsound⟩
      obtain ⟨w, hw, hsearches, hsound⟩ := hbefore
      rw [hentries]
      by_cases hj : won.worker = j
      · obtain rfl : v = w := Option.some.inj (by rw [← hv, ← hj, hw])
        have hnone : readings (.worker won.worker) new = [] := by
          rw [hj, ← hid]
          exact hacts.readings_eq_nil hsearches
        refine ⟨_, ?_, hacts.searches_eq_false hsearches, ?_⟩
        · rw [hj, Array.getElem?_setIfInBounds_self_of_lt (Array.getElem?_eq_some_iff.1 hv).1]
        · rw [hacts.sameTask.work, hacts.sameTask.slice]
          exact hsound.append hnone
      · refine ⟨w, ?_, hsearches, hsound.append (hother hj)⟩
        rw [Array.getElem?_setIfInBounds_ne (Ne.symm hj), hw]
  | spawned _ _ ih => exact ih
  | refused _ _ ih | interrupted _ ih | elapsed _ _ ih => exact ⟨ih.faithful, ih.winner⟩

/-- A solution is sound for the slice of its worker, by what the round has written to the journal. -/
def Setup.Vouches (r : Setup σ) (world : World σ) (s : Solution) : Prop :=
  ∃ slice, r.slices[s.worker]? = some slice ∧ s.Sound r.work slice (r.entries world)

theorem Search.vouches {won : Solution} (h : Search r history spawning workers s) (hwon : s.board.winner = some won) :
    r.Vouches s.world won := by
  obtain ⟨w, hw, -, hsound⟩ := h.honest.winner won hwon
  obtain ⟨slice, hslice, htask⟩ := h.task hw
  rw [htask.work, htask.slice] at hsound
  exact ⟨slice, hslice, hsound⟩

theorem Search.submit_not_mem (h : Search r history spawning workers s) (who : Thread) (header : Header)
    (answer : Except NodeFailure Bool) : .called who (.submit header) answer ∉ r.entries s.world := by
  induction h with
  | @opened world n₁ n₂ hworld =>
    rw [r.entries_of_journal hworld]
    rintro (_ | ⟨_, _ | ⟨_, ⟨⟩⟩⟩)
  | @stepped _ _ _ _ _ v hsearch _ ih =>
    obtain ⟨new, hentries, hnew, -⟩ := hsearch.acts v
    rw [hentries, List.mem_append]
    rintro (hmem | hmem)
    · exact ih hmem
    · exact (hnew _ _ _ hmem).2 header rfl
  | spawned _ _ ih | refused _ _ ih | interrupted _ ih | elapsed _ _ ih => exact ih

section After

variable {events earlier : List Event} {world world₀ : World σ} {started : Nat} {board : Board}

theorem After.entries (h : After r events world earlier started spawning board workers world₀) :
    ∃ new, r.entries world = r.entries world₀ ++ new ∧ HandsIn board.winner new := by
  obtain ⟨new, hworld, hnew⟩ := h.leadsTo
  exact ⟨new, World.since_append h.search.size_journal hworld, hnew⟩

theorem After.vouches {won : Solution} (h : After r events world earlier started spawning board workers world₀)
    (hwon : board.winner = some won) : r.Vouches world won := by
  obtain ⟨slice, hslice, hsound⟩ := h.search.vouches hwon
  obtain ⟨new, hentries, hnew⟩ := h.entries
  refine ⟨slice, hslice, ?_⟩
  rw [hentries]
  refine hsound.append (readings_eq_nil fun t ht => ?_)
  have hwho := (hnew _ _ _ ht).1
  cases hwho

theorem After.submitted (h : After r events world earlier started spawning board workers world₀) {who : Thread}
    {header : Header} {answer : Except NodeFailure Bool}
    (hmem : .called who (.submit header) answer ∈ r.entries world) :
    who = .session ∧ ∃ won, board.winner = some won ∧ header = won.header.toHeader := by
  obtain ⟨new, hentries, hnew⟩ := h.entries
  rw [hentries, List.mem_append] at hmem
  rcases hmem with hmem | hmem
  · exact absurd hmem (h.search.submit_not_mem who header answer)
  · exact ⟨(hnew _ _ _ hmem).1, (hnew _ _ _ hmem).2 header rfl⟩

end After

/-- The solution that is stored by a round, being handed in, or reported. -/
def solution? : Progress Round (Except Failure RoundReport) → Option Solution
  | .running (.searching _ _ _ board _) => board.winner
  | .running (.submitting _ winner _) => some winner
  | .returned (.ok report) => report.solution
  | _ => none

/-- Whatever the node answers and whichever order the workers run in, a solution that a round stores, reports or hands
in is the work's header with a nonce of its worker's slice and the latest time of this worker, under its double hash,
which the node found good. Only such headers are ever handed in, and only by the session's thread. -/
theorem solution_sound (r : Setup σ) (events : List Event) :
    (∀ s, solution? (r.run events).progress = some s → r.Vouches (r.run events).world s) ∧
    ∀ who header answer, .called who (.submit header) answer ∈ r.entries (r.run events).world →
      who = .session ∧ ∃ s : Solution, header = s.header.toHeader ∧ r.Vouches (r.run events).world s := by
  have hafter {world world₀ : World σ} {earlier : List Event} {started : Nat} {spawning : Spawning} {board : Board}
      {workers : Array Worker} (h : After r events world earlier started spawning board workers world₀) (who : Thread)
      (header : Header) (answer : Except NodeFailure Bool)
      (hmem : .called who (.submit header) answer ∈ r.entries world) :
      who = .session ∧ ∃ s : Solution, header = s.header.toHeader ∧ r.Vouches world s := by
    obtain ⟨hwho, won, hwon, hheader⟩ := h.submitted hmem
    exact ⟨hwho, won, hheader, h.vouches hwon⟩
  have hstage := stage_run (r := r) events
  generalize r.run events = e at hstage
  cases hstage with
  | @opening world hworld _ =>
    have hnone : r.entries world = [] := r.entries_of_journal (by rw [hworld, List.append_nil])
    refine ⟨by rintro s ⟨⟩, fun who header answer hmem => ?_⟩
    rw [hnone] at hmem
    cases hmem
  | searching h =>
    refine ⟨fun s hs => h.vouches hs, fun who header answer hmem => ?_⟩
    exact absurd hmem (h.submit_not_mem who header answer)
  | submitting h _ hwinner =>
    refine ⟨?_, hafter h⟩
    rintro s ⟨⟩
    exact h.vouches hwinner
  | returned h _ hreport _ =>
    refine ⟨fun s hs => h.vouches ?_, hafter h⟩
    rw [← hs, solution?, hreport]
  | failed h | crashed h | unspawned h | collapsed h => exact ⟨by rintro s ⟨⟩, hafter h⟩

end Round

end HeaderMiner
