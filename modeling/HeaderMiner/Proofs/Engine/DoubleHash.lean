import HeaderMiner.Engine.Basic
import HeaderMiner.Proofs.Engine.SecondBlock

/-!
# The engine computes the double hash

Lane `l` of a call that starts at `base` takes the message words of the header with nonce `base + l`
(`map_laneBlock`); the rounds that are cached do not read that word, so what the lane finishes is the
compression of the header's last block (`lane_firstHash`), and the second hash is that of its digest
(`words_hashLanes`). A new time gives the engine of the header with that time (`setTime_ofHeader`).
-/

namespace HeaderMiner

open Sha256 Sha256.Lanes

/-- The state words of a header's double hash. -/
def RawHeader.digest (h : RawHeader) : Digest :=
  ⟨Sha256.compress initialState (Block.ofBytes ((Sha256.hash h.bytes.toList).toList ++ padding 32))⟩

theorem RawHeader.toBytes_digest (h : RawHeader) : h.digest.toBytes = doubleHash h.bytes.toList := by
  rw [doubleHash, hash_of_length_32 (by simp)]
  rfl

theorem RawHeader.blockHash_digest (h : RawHeader) : h.digest.blockHash = h.blockHash :=
  congrArg BlockHash.mk h.toBytes_digest

namespace Engine

variable (h : RawHeader) (base : UInt32)

theorem laneNonce_eq (lane : Nat) : laneNonce base lane = UInt32.ofNat (base.toNat + lane) := by
  rw [laneNonce, UInt32.ofNat_add, UInt32.ofNat_toNat]

/-! ### The first hash -/

theorem map_laneBlock {n : Nat} (l : Fin n) :
    ((ofHeader h).laneBlock n base).map (·.get l) = (h.setNonce (laneNonce base l)).lastBlock := by
  rw [RawHeader.lastBlock_setNonce, laneBlock, ofHeader]
  refine Vector.ext fun i hi => ?_
  rw [Vector.getElem_map, SecondBlock.words_ofHeader]
  by_cases hin : nonceWord = i
  · subst hin
    rw [Vector.getElem_set_self, Vector.getElem_set_self, get_ofFn]
  · rw [Vector.getElem_set_ne _ _ hin, Vector.getElem_set_ne _ _ hin, Vector.getElem_map]
    simp [Vector.get_eq_getElem]

theorem opening_ofHeader {n : Nat} (l : Fin n) :
    (ofHeader h).block.opening = afterRounds h.midstate
      (Sha256.schedule (((ofHeader h).laneBlock n base).map (·.get l))) nonceWord (by decide) := by
  rw [map_laneBlock, ofHeader, SecondBlock.ofHeader_eq]
  refine SecondBlock.openingRounds_eq _ fun i hi hlt => ?_
  rw [RawHeader.lastBlock_setNonce, Vector.getElem_set_ne _ _ (Nat.ne_of_gt hlt)]

theorem lane_firstHash {n : Nat} (l : Fin n) :
    ((ofHeader h).firstHash n base).lane l =
      Sha256.compress h.midstate (h.setNonce (laneNonce base l)).lastBlock := by
  have hmid : (broadcast n (ofHeader h).midstate).lane l = h.midstate := lane_broadcast _ _
  rw [firstHash, lane_feedForward_runRounds _ _ _ l (show nonceWord ≤ 64 by decide) ?_, hmid,
    map_laneBlock]
  rw [hmid, lane_broadcast]
  exact opening_ofHeader h base l

/-! ### The second hash -/

theorem map_digestBlock {n : Nat} (first : State n) (l : Fin n) :
    (digestBlock first).map (·.get l) =
      Block.ofBytes ((first.lane l).toBytes.toList ++ padding 32) := by
  have hlen : (first.lane l).toBytes.toList.length = 4 * 8 := by simp
  refine Vector.ext fun i hi => ?_
  rw [Vector.getElem_map, digestBlock, Vector.getElem_ofFn]
  by_cases hlt : i < 8
  · rw [dif_pos hlt, getElem_ofBytes_toBytes _ _ hlt, getElem_lane]
  · have hpad : (Block.ofBytes (padding 32))[i - 8] =
        if i - 8 = 0 then 0x80000000 else if i - 8 = 7 then 256 else 0 :=
      getElem_ofBytes_padding_32 ⟨i - 8, by omega⟩
    rw [dif_neg hlt, Block.getElem_ofBytes_append_right _ _ hi hlen (by omega), hpad,
      Vector.get_eq_getElem, Vector.getElem_replicate]
    have h8 : i = 8 ↔ i - 8 = 0 := by omega
    have h15 : i = 15 ↔ i - 8 = 7 := by omega
    simp only [h8, h15]
    rfl

/-- A lane finishes the double hash of the header with its nonce. -/
theorem getElem_hashLanes {n i : Nat} (hi : i < n) :
    ((ofHeader h).hashLanes n base)[i] = (h.setNonce (laneNonce base i)).digest := by
  have hsecond := lane_compress (broadcast n initialState) (digestBlock ((ofHeader h).firstHash n base))
    ⟨i, hi⟩
  rw [lane_broadcast, map_digestBlock, lane_firstHash] at hsecond
  rw [hashLanes, Vector.getElem_ofFn, hsecond, RawHeader.digest, RawHeader.hash_bytes,
    RawHeader.midstate_setNonce]

theorem hashOne_ofHeader (nonce : UInt32) : (ofHeader h).hashOne nonce = (h.setNonce nonce).digest := by
  have hzero : laneNonce nonce 0 = nonce := UInt32.add_zero nonce
  rw [hashOne, getElem_hashLanes, hzero]

theorem hashBatch_ofHeader (width : LaneWidth) :
    (ofHeader h).hashBatch width base = (List.range width.count).map fun lane =>
      (laneNonce base lane, (h.setNonce (laneNonce base lane)).digest) := by
  rw [hashBatch]
  refine List.ext_getElem (by simp) fun i hi _ => ?_
  have hlt : i < width.count := by simpa using hi
  rw [List.getElem_mapIdx, Vector.getElem_toList, getElem_hashLanes h base hlt, List.getElem_map,
    List.getElem_range]

/-! ### Times -/

theorem setTime_ofHeader (t : UInt32) : (ofHeader h).setTime t = ofHeader (h.setTime t) := by
  rw [setTime, ofHeader, ofHeader, SecondBlock.setTime_ofHeader, RawHeader.midstate_setTime]

theorem foldl_setTime_ofHeader (times : List UInt32) :
    times.foldl setTime (ofHeader h) = ofHeader (h.setTime (times.getLast?.getD h.time)) := by
  rw [List.foldl_hom ofHeader setTime_ofHeader, RawHeader.foldl_setTime]

/-- After any times, each lane of a call gives the double hash of the header with the last time and the lane's nonce,
which is what the lane's nonce gives alone; a batch pairs these digests with their nonces, in lane order; and the nonce
that the header came with is never read. -/
theorem hashLanes_eq_doubleHash (h : RawHeader) (times : List UInt32) :
    let engine := times.foldl setTime (ofHeader h)
    let header (nonce : UInt32) := (h.setTime (times.getLast?.getD h.time)).setNonce nonce
    (∀ (n : Nat) (base : UInt32) (lane : Fin n),
      (engine.hashLanes n base)[lane].toBytes =
        doubleHash (header (UInt32.ofNat (base.toNat + lane))).bytes.toList) ∧
    (∀ (width : LaneWidth) (base : UInt32),
      engine.hashBatch width base = List.ofFn fun lane : Fin width.count =>
        (UInt32.ofNat (base.toNat + lane), (engine.hashLanes width.count base)[lane])) ∧
    (∀ (n : Nat) (base : UInt32) (lane : Fin n),
      (engine.hashLanes n base)[lane] = engine.hashOne (UInt32.ofNat (base.toNat + lane))) ∧
    (∀ (nonce : UInt32) (n : Nat) (base : UInt32),
      (times.foldl setTime (ofHeader (h.setNonce nonce))).hashLanes n base = engine.hashLanes n base) := by
  intro engine header
  have hengine : engine = ofHeader (h.setTime (times.getLast?.getD h.time)) :=
    foldl_setTime_ofHeader h times
  rw [hengine]
  refine ⟨fun n base lane => ?_, fun width base => ?_, fun n base lane => ?_, fun nonce n base => ?_⟩
  · rw [Fin.getElem_fin, getElem_hashLanes, RawHeader.toBytes_digest, laneNonce_eq]
  · rw [hashBatch_ofHeader]
    refine List.ext_getElem (by simp) fun i hi _ => ?_
    rw [List.getElem_map, List.getElem_range, List.getElem_ofFn, Fin.getElem_fin, getElem_hashLanes,
      laneNonce_eq]
  · rw [Fin.getElem_fin, getElem_hashLanes, hashOne_ofHeader, laneNonce_eq]
  · refine Vector.ext fun i hi => ?_
    rw [foldl_setTime_ofHeader, RawHeader.time_setNonce, RawHeader.setTime_setNonce, getElem_hashLanes _ _ hi,
      getElem_hashLanes _ _ hi, RawHeader.setNonce_setNonce]

end Engine

end HeaderMiner
