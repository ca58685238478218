import HeaderMiner.Proofs.Engine.DoubleHash
import HeaderMiner.Round.Worker
import Mathlib

/-!
# Batches

As long as a worker's engine is that of its header, its next batch holds the nonces from the cursor on, as many as
the lanes and the slice allow, each with the digest of the header with this nonce (`batch_eq`). A new time keeps the
two in step (`setTime_eq`).
-/

namespace HeaderMiner

theorem LaneWidth.count_pos (l : LaneWidth) : 0 < l.count := by
  cases l <;> decide

theorem LaneWidth.count_getD_ofCount? {n : Nat} (hn : 0 < n) (hle : n ≤ 4) :
    ((ofCount? n).getD .one).count = n := by
  match n with
  | 0 => exact absurd hn (Nat.lt_irrefl 0)
  | 1 | 2 | 3 | 4 => rfl

theorem LaneWidth.count_le (l : LaneWidth) : l.count ≤ 4 := by
  cases l <;> decide

theorem NonceRange.toNat_of_mem (slice : NonceRange) {n : Nat} (hn : n < slice.stop) :
    (UInt32.ofNat n).toNat = n :=
  UInt32.toNat_ofNat_of_lt' (hn.trans_le slice.stop_le)

/-- The block hash of a header with a nonce. -/
def RawHeader.hashAt (h : RawHeader) (v : Nat) : BlockHash := (h.setNonce (UInt32.ofNat v)).blockHash

/-- Consecutive nonces with the digests of a header with them. -/
def RawHeader.candidates (h : RawHeader) (first n : Nat) : List (UInt32 × Digest) :=
  (List.range' first n).map fun v => (UInt32.ofNat v, (h.setNonce (UInt32.ofNat v)).digest)

theorem RawHeader.candidates_succ (h : RawHeader) (first n : Nat) :
    h.candidates first (n + 1) =
      (UInt32.ofNat first, (h.setNonce (UInt32.ofNat first)).digest) :: h.candidates (first + 1) n := by
  rw [candidates, List.range'_succ, List.map_cons, candidates]

namespace Worker

variable (w : Worker)

/-- The number of nonces in the next batch. -/
def batchSize : Nat := min w.settings.lanes.count w.remaining

theorem batchSize_le : w.batchSize ≤ w.remaining := Nat.min_le_right _ _

theorem batchSize_pos (hmore : w.remaining ≠ 0) : 0 < w.batchSize :=
  Nat.lt_min.2 ⟨LaneWidth.count_pos _, Nat.pos_of_ne_zero hmore⟩

theorem count_batchWidth (hmore : w.remaining ≠ 0) : w.batchWidth.count = w.batchSize :=
  LaneWidth.count_getD_ofCount? (w.batchSize_pos hmore) ((Nat.min_le_left _ _).trans (LaneWidth.count_le _))

/-- A time that the header has already changes nothing. -/
theorem setTime_eq (hengine : w.engine = Engine.ofHeader w.header) (t : UInt32) :
    w.setTime t = { w with header := w.header.setTime t, engine := Engine.ofHeader (w.header.setTime t) } := by
  unfold setTime
  split
  · rename_i htime
    rw [htime, RawHeader.setTime_time, ← hengine]
  · rw [hengine, Engine.setTime_ofHeader]

theorem batch_eq (hengine : w.engine = Engine.ofHeader w.header) (hmore : w.remaining ≠ 0) :
    w.batch = w.header.candidates w.cursor w.batchSize := by
  have hnonce (lane : Nat) : Engine.laneNonce w.cursor.toUInt32 lane = UInt32.ofNat (w.cursor + lane) :=
    (UInt32.ofNat_add _ _).symm
  rw [batch, hengine, Engine.hashBatch_ofHeader, w.count_batchWidth hmore, RawHeader.candidates,
    List.range'_eq_map_range, List.map_map]
  simp only [hnonce]
  rfl

theorem length_batch (hmore : w.remaining ≠ 0) : w.batch.length = w.batchSize := by
  rw [batch, Engine.hashBatch, List.length_mapIdx, Vector.length_toList, w.count_batchWidth hmore]

theorem hashBatch_eq (hengine : w.engine = Engine.ofHeader w.header) (hmore : w.remaining ≠ 0) (left : Nat) :
    w.hashBatch left = { w with
      cursor := w.cursor + w.batchSize
      hashes := w.hashes + w.batchSize
      phase := .testing left (w.header.candidates w.cursor w.batchSize) } := by
  rw [hashBatch, w.length_batch hmore, w.batch_eq hengine hmore]

theorem mem_batch (hengine : w.engine = Engine.ofHeader w.header) (hmore : w.remaining ≠ 0)
    (hstart : w.slice.start ≤ w.cursor) {x : UInt32 × Digest} (hx : x ∈ w.batch) :
    x.1 ∈ w.slice ∧ x.2 = (w.header.setNonce x.1).digest := by
  rw [w.batch_eq hengine hmore, RawHeader.candidates, List.mem_map] at hx
  obtain ⟨v, hv, rfl⟩ := hx
  rw [List.mem_range'_1] at hv
  have hlt : v < w.slice.stop := by
    have hle := w.batchSize_le
    rw [remaining] at hle
    omega
  have hnat := w.slice.toNat_of_mem hlt
  refine ⟨⟨?_, ?_⟩, rfl⟩
  · rw [hnat]
    exact hstart.trans hv.1
  · rw [hnat]
    exact hlt

end Worker

end HeaderMiner
