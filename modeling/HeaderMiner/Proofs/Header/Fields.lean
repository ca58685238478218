import HeaderMiner.Header.Basic
import HeaderMiner.Proofs.Bytes

/-!
# Setting the time and the nonce of a header

The two fields that a search sets are written apart from each other and from the rest: each reads back as
it was last set, in any order of the two, and every other byte stays (`getElem_setTime`,
`getElem_setNonce`).
-/

namespace HeaderMiner

namespace RawHeader

variable (h : RawHeader) (t t' n n' : UInt32)

@[simp] theorem time_setTime : (h.setTime t).time = t := by
  rw [time, setTime, Bytes.slice_splice, Bytes.toWordLE_ofWordLE]

@[simp] theorem nonce_setNonce : (h.setNonce n).nonce = n := by
  rw [nonce, setNonce, Bytes.slice_splice, Bytes.toWordLE_ofWordLE]

@[simp] theorem nonce_setTime : (h.setTime t).nonce = h.nonce := by
  rw [nonce, setTime, Bytes.slice_splice_disjoint _ _ _ _ _ (by decide), nonce]

@[simp] theorem time_setNonce : (h.setNonce n).time = h.time := by
  rw [time, setNonce, Bytes.slice_splice_disjoint _ _ _ _ _ (by decide), time]

@[simp] theorem bits_setTime : (h.setTime t).bits = h.bits := by
  rw [bits, setTime, Bytes.slice_splice_disjoint _ _ _ _ _ (by decide), bits]

@[simp] theorem bits_setNonce : (h.setNonce n).bits = h.bits := by
  rw [bits, setNonce, Bytes.slice_splice_disjoint _ _ _ _ _ (by decide), bits]

@[simp] theorem firstBlock_setTime : (h.setTime t).firstBlock = h.firstBlock := by
  rw [firstBlock, setTime, Bytes.slice_splice_disjoint _ _ _ _ _ (by decide), firstBlock]

@[simp] theorem firstBlock_setNonce : (h.setNonce n).firstBlock = h.firstBlock := by
  rw [firstBlock, setNonce, Bytes.slice_splice_disjoint _ _ _ _ _ (by decide), firstBlock]

@[simp] theorem setTime_setTime : (h.setTime t).setTime t' = h.setTime t' := by
  simp [setTime]

@[simp] theorem setNonce_setNonce : (h.setNonce n).setNonce n' = h.setNonce n' := by
  simp [setNonce]

theorem setTime_setNonce : (h.setNonce n).setTime t = (h.setTime t).setNonce n := by
  rw [setTime, setNonce, setNonce, setTime, Bytes.splice_comm _ _ _ _ _ (by decide)]

@[simp] theorem setTime_time : h.setTime h.time = h := by
  rw [setTime, time, Bytes.ofWordLE_toWordLE, Bytes.splice_slice]

@[simp] theorem setNonce_nonce : h.setNonce h.nonce = h := by
  rw [setNonce, nonce, Bytes.ofWordLE_toWordLE, Bytes.splice_slice]

/-- Of the times set one after the other, the last one counts. -/
theorem foldl_setTime (times : List UInt32) :
    times.foldl setTime h = h.setTime (times.getLast?.getD h.time) := by
  induction times generalizing h with
  | nil => rw [List.foldl_nil, List.getLast?_nil, Option.getD_none, setTime_time]
  | cons t times ih =>
    rw [List.foldl_cons, ih, setTime_setTime, time_setTime, List.getLast?_cons, Option.getD_some]

theorem getElem_setTime {i : Nat} (hi : i < 112) (ht : ¬ (100 ≤ i ∧ i < 104)) :
    (h.setTime t).bytes[i] = h.bytes[i] := by
  rw [setTime, Bytes.getElem_splice_of_not_mem _ _ _ _ ht]

theorem getElem_setNonce {i : Nat} (hi : i < 112) (hn : ¬ (108 ≤ i ∧ i < 112)) :
    (h.setNonce n).bytes[i] = h.bytes[i] := by
  rw [setNonce, Bytes.getElem_splice_of_not_mem _ _ _ _ hn]

theorem toList_bytes : h.bytes.toList = h.firstBlock.toList ++ h.tail.toList := by
  refine List.ext_getElem (by simp) fun i hi _ => ?_
  have hi' : i < 112 := by simpa using hi
  by_cases hlt : i < 64
  · rw [List.getElem_append_left (by simpa using hlt)]
    simp [firstBlock]
  · rw [List.getElem_append_right (by simpa using hlt)]
    have : 64 + (i - 64) = i := by omega
    simp [tail, this]

end RawHeader

end HeaderMiner
