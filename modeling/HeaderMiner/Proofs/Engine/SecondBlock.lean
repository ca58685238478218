import HeaderMiner.Engine.SecondBlock
import HeaderMiner.Proofs.Header.Fields
import HeaderMiner.Proofs.Sha256.Lanes
import HeaderMiner.Proofs.Sha256.Padding

/-!
# The two blocks of a header

A header is hashed in two compressions, of its first block and of `RawHeader.lastBlock`, the rest with
padding (`hash_bytes`). The kept message words are those of the last block (`words_ofHeader`), of which a
new time and a new nonce change one word each, and the cached rounds are the first eleven of any block
with the same eleven words (`openingRounds_eq`). So a block to which times are given stays the one that
would be made of the header with the last of them (`setTimes_exact`).
-/

namespace HeaderMiner

open Sha256 (padding)

namespace RawHeader

variable (h : RawHeader) (t n : UInt32)

/-- The second block of the padded header. -/
def lastBlock : Sha256.Block := Sha256.Block.ofBytes (h.tail.toList ++ padding 112)

theorem tail_splice {k : Nat} (new : Bytes k) (j : Nat) :
    (⟨h.bytes.splice (64 + j) new⟩ : RawHeader).tail = h.tail.splice j new := by
  refine Vector.ext fun i hi => ?_
  rw [tail, Bytes.getElem_slice]
  by_cases hij : j ≤ i ∧ i < j + k
  · rw [Bytes.getElem_splice_of_mem _ _ _ _ hij, Bytes.getElem_splice_of_mem _ _ _ _ (by omega)]
    simp only [show 64 + i - (64 + j) = i - j by omega]
  · rw [Bytes.getElem_splice_of_not_mem _ _ _ _ hij, Bytes.getElem_splice_of_not_mem _ _ _ _ (by omega),
      tail, Bytes.getElem_slice]

theorem lastBlock_setTime : (h.setTime t).lastBlock = h.lastBlock.set timeWord (swapBytes t) := by
  rw [lastBlock, setTime, tail_splice h (Bytes.ofWordLE t) 36]
  exact Sha256.Block.ofBytes_splice h.tail _ (k := 12) (j := 9) (by decide) (by decide) (by decide) t

theorem lastBlock_setNonce : (h.setNonce n).lastBlock = h.lastBlock.set nonceWord (swapBytes n) := by
  rw [lastBlock, setNonce, tail_splice h (Bytes.ofWordLE n) 44]
  exact Sha256.Block.ofBytes_splice h.tail _ (k := 12) (j := 11) (by decide) (by decide) (by decide) n

@[simp] theorem midstate_setTime : (h.setTime t).midstate = h.midstate := by
  rw [midstate, firstBlock_setTime, midstate]

@[simp] theorem midstate_setNonce : (h.setNonce n).midstate = h.midstate := by
  rw [midstate, firstBlock_setNonce, midstate]

theorem hash_bytes :
    Sha256.hash h.bytes.toList = (Sha256.compress h.midstate h.lastBlock).toBytes := by
  rw [toList_bytes, Sha256.hash_of_length_112 (by simp) (by simp), midstate, lastBlock]

end RawHeader

namespace SecondBlock

/-- The words laid out by hand are those of the padded header. -/
theorem words_ofHeader (h : RawHeader) (midstate : Sha256.State) :
    (ofHeader h midstate).words = h.lastBlock := by
  refine Vector.ext fun i hi => ?_
  rw [ofHeader, ofWords, RawHeader.lastBlock]
  have hlen : h.tail.toList.length = 4 * 12 := by simp
  by_cases hlt : i < 12
  · rw [Vector.getElem_set_ne _ _ (by omega), Vector.getElem_set_ne _ _ (by omega),
      Sha256.Block.getElem_ofBytes_append_left _ _ hi (by omega)]
  · have hpad : (Sha256.Block.ofBytes (padding 112))[i - 12] =
        if i - 12 = 0 then 0x80000000 else if i - 12 = 3 then 896 else 0 :=
      Sha256.getElem_ofBytes_padding_112 ⟨i - 12, by omega⟩
    rw [Sha256.Block.getElem_ofBytes_append_right _ _ hi hlen (by omega), hpad]
    by_cases h12 : i = 12
    · subst h12
      rw [Vector.getElem_set_ne _ _ (by decide), Vector.getElem_set_self]
      rfl
    by_cases h15 : i = 15
    · subst h15
      rw [Vector.getElem_set_self]
      rfl
    · rw [Vector.getElem_set_ne _ _ (Ne.symm h15), Vector.getElem_set_ne _ _ (Ne.symm h12),
        Sha256.Block.getElem_ofBytes_of_length_le hi (by omega), if_neg (by omega),
        if_neg (by omega)]

theorem ofHeader_eq (h : RawHeader) (midstate : Sha256.State) :
    ofHeader h midstate = ofWords h.lastBlock midstate := by
  rw [← words_ofHeader h midstate]; rfl

theorem setTime_ofHeader (h : RawHeader) (t : UInt32) (midstate : Sha256.State) :
    (ofHeader h midstate).setTime t midstate = ofHeader (h.setTime t) midstate := by
  rw [ofHeader_eq, ofHeader_eq, setTime, RawHeader.lastBlock_setTime]; rfl

/-- The cached rounds are the first eleven over any block that begins with the same eleven words. -/
theorem openingRounds_eq {words block : Sha256.Block} (midstate : Sha256.State)
    (hw : ∀ i (hi : i < 16), i < nonceWord → words[i] = block[i]) :
    openingRounds words midstate =
      Sha256.afterRounds midstate (Sha256.schedule block) nonceWord (by decide) := by
  have hlen : ((words.toList.take nonceWord).map (Vector.replicate 1)).length = nonceWord := by
    simp [nonceWord]
  rw [openingRounds, Sha256.Lanes.lane_runRounds midstate (Sha256.schedule block) 0 _ _ 0
    (by rw [hlen]; decide) (by rw [Sha256.Lanes.lane_broadcast]; rfl) fun i hi => ?_]
  · simp only [hlen, Nat.zero_add]
  · have hi' : i < nonceWord := hlen ▸ hi
    have hi16 : i < 16 := Nat.lt_trans hi' (by decide)
    simp only [List.getElem_map, List.getElem_take, Vector.getElem_toList, Vector.get_eq_getElem,
      Vector.getElem_replicate, Nat.zero_add, hw i hi16 hi', Sha256.getElem_schedule_of_lt block hi16]

/-! ### Times -/

/-- The block after these times were set, first to last, with the same midstate. -/
def setTimes (b : SecondBlock) (times : List UInt32) (midstate : Sha256.State) : SecondBlock :=
  times.foldl (fun b t => b.setTime t midstate) b

variable (h : RawHeader) (times : List UInt32) (midstate : Sha256.State)

theorem setTimes_ofHeader :
    (ofHeader h midstate).setTimes times midstate =
      ofHeader (h.setTime (times.getLast?.getD h.time)) midstate := by
  rw [setTimes, List.foldl_hom (ofHeader · midstate) fun h t => setTime_ofHeader h t midstate,
    RawHeader.foldl_setTime]

theorem opening_ofHeader :
    (ofHeader h midstate).opening =
      Sha256.afterRounds midstate (Sha256.schedule (ofHeader h midstate).words) nonceWord (by decide) := by
  rw [ofHeader_eq]
  exact openingRounds_eq midstate fun _ _ _ => rfl

/-- The nonce is word 11, which the first eleven rounds do not read. -/
theorem opening_setNonce (nonce : UInt32) :
    (ofHeader (h.setNonce nonce) midstate).opening = (ofHeader h midstate).opening := by
  rw [opening_ofHeader h midstate, words_ofHeader, ofHeader_eq]
  refine openingRounds_eq midstate fun i _ hlt => ?_
  rw [RawHeader.lastBlock_setNonce, Vector.getElem_set_ne _ _ (Nat.ne_of_gt hlt)]

/-- After any times, the block is the one made anew of the header with the last of them, whose midstate is the old one.
Its words are those of that header, its opening is what eleven rounds over these words make of the midstate, and no
nonce that the header may have come with makes a difference to it. -/
theorem setTimes_exact (h : RawHeader) (times : List UInt32) :
    let header := times.getLast?.elim h h.setTime
    let block := (ofHeader h h.midstate).setTimes times h.midstate
    header.midstate = h.midstate ∧ block = ofHeader header h.midstate ∧ block.words = header.lastBlock ∧
      block.opening = Sha256.afterRounds h.midstate (Sha256.schedule block.words) 11 (by decide) ∧
      ∀ nonce : UInt32, ((ofHeader (h.setNonce nonce) (h.setNonce nonce).midstate).setTimes times
        (h.setNonce nonce).midstate).opening = block.opening := by
  intro header block
  have hheader : header = h.setTime (times.getLast?.getD h.time) := by
    show times.getLast?.elim h h.setTime = _
    cases times.getLast? with
    | none => exact h.setTime_time.symm
    | some t => rfl
  have hblock : block = ofHeader header h.midstate := by
    rw [hheader]
    exact setTimes_ofHeader h times h.midstate
  refine ⟨?_, hblock, ?_, ?_, fun nonce => ?_⟩
  · rw [hheader, RawHeader.midstate_setTime]
  · rw [hblock, words_ofHeader]
  · rw [hblock]
    exact opening_ofHeader header h.midstate
  · rw [RawHeader.midstate_setNonce, setTimes_ofHeader, RawHeader.time_setNonce, RawHeader.setTime_setNonce,
      opening_setNonce, ← hheader, hblock]

end SecondBlock

end HeaderMiner
