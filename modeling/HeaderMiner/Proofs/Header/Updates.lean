import HeaderMiner.Proofs.Engine.SecondBlock
import Mathlib

/-!
# Updates of a header

A search updates the time and the nonce of its header over and over. Whatever the updates were, what is left of them is
the last time and the last nonce (`updated_eq`), and all else is as it was before (`getElem_updated`).
-/

namespace HeaderMiner

namespace RawHeader

inductive Update where
  | time (t : UInt32)
  | nonce (n : UInt32)

def Update.time? : Update → Option UInt32
  | .time t => some t
  | .nonce _ => none

def Update.nonce? : Update → Option UInt32
  | .time _ => none
  | .nonce n => some n

def update (h : RawHeader) : Update → RawHeader
  | .time t => h.setTime t
  | .nonce n => h.setNonce n

/-- The header after these updates, first to last. -/
def updated (h : RawHeader) (updates : List Update) : RawHeader := updates.foldl update h

/-- The time that is set last, or else the header's own. -/
def lastTime (h : RawHeader) (updates : List Update) : UInt32 :=
  (updates.filterMap Update.time?).getLast?.getD h.time

/-- The nonce that is set last, or else the header's own. -/
def lastNonce (h : RawHeader) (updates : List Update) : UInt32 :=
  (updates.filterMap Update.nonce?).getLast?.getD h.nonce

variable (h : RawHeader) (updates : List Update) (t n : UInt32)

theorem lastTime_concat_time : h.lastTime (updates ++ [.time t]) = t := by
  simp [lastTime, Update.time?]

theorem lastTime_concat_nonce : h.lastTime (updates ++ [.nonce n]) = h.lastTime updates := by
  simp [lastTime, Update.time?]

theorem lastNonce_concat_time : h.lastNonce (updates ++ [.time t]) = h.lastNonce updates := by
  simp [lastNonce, Update.nonce?]

theorem lastNonce_concat_nonce : h.lastNonce (updates ++ [.nonce n]) = n := by
  simp [lastNonce, Update.nonce?]

theorem updated_concat (u : Update) : h.updated (updates ++ [u]) = (h.updated updates).update u := by
  rw [updated, List.foldl_append]
  rfl

/-- Of all updates, the last time and the last nonce are left. -/
theorem updated_eq : h.updated updates = (h.setTime (h.lastTime updates)).setNonce (h.lastNonce updates) := by
  induction updates using List.reverseRecOn with
  | nil =>
    have htime : h.lastTime [] = h.time := rfl
    have hnonce : h.lastNonce [] = h.nonce := rfl
    rw [htime, hnonce, setTime_time, setNonce_nonce]
    rfl
  | append_singleton updates u ih =>
    rw [updated_concat, ih]
    cases u with
    | time t => rw [lastTime_concat_time, lastNonce_concat_time, update, setTime_setNonce, setTime_setTime]
    | nonce n => rw [lastTime_concat_nonce, lastNonce_concat_nonce, update, setNonce_setNonce]

theorem getElem_updated {i : Nat} (hi : i < 112) (htime : ¬ (100 ≤ i ∧ i < 104)) (hnonce : ¬ (108 ≤ i ∧ i < 112)) :
    (h.updated updates).bytes[i] = h.bytes[i] := by
  rw [updated_eq, getElem_setNonce _ _ hi hnonce, getElem_setTime _ _ hi htime]

/-- A stretch of bytes that holds neither the time nor the nonce. -/
theorem slice_updated (start k : Nat) (hk : start + k ≤ 112) (htime : start + k ≤ 100 ∨ 104 ≤ start)
    (hnonce : start + k ≤ 108) : (h.updated updates).bytes.slice start k hk = h.bytes.slice start k hk := by
  refine Vector.ext fun i hi => ?_
  rw [Bytes.getElem_slice, Bytes.getElem_slice]
  exact h.getElem_updated updates _ (by omega) (by omega)

/-- What updates make of a header. -/
structure Updated (h : RawHeader) (updates : List Update) (h' : RawHeader) : Prop where
  time : h'.time = h.lastTime updates
  nonce : h'.nonce = h.lastNonce updates
  bytes : ∀ i (hi : i < 112), ¬ (100 ≤ i ∧ i < 104) → ¬ (108 ≤ i ∧ i < 112) → h'.bytes[i] = h.bytes[i]
  version : h'.version = h.version
  prevBlockHash : h'.prevBlockHash = h.prevBlockHash
  merkleRoot : h'.merkleRoot = h.merkleRoot
  referenceHash : h'.referenceHash = h.referenceHash
  bits : h'.bits = h.bits
  firstBlock : h'.firstBlock = h.firstBlock
  midstate : h'.midstate = h.midstate
  /-- The bytes depend on the last time and the last nonce only. -/
  eq : ∀ updates', h.lastTime updates' = h.lastTime updates → h.lastNonce updates' = h.lastNonce updates →
    h.updated updates' = h'

/-- After any updates a header has the time and the nonce that were set last; every other byte is as it was, and with
them all other fields and the midstate. In which order times and nonces were set makes no difference. -/
theorem last_updates_count (h : RawHeader) (updates : List Update) : Updated h updates (h.updated updates) := by
  have hslice (start k : Nat) (hk : start + k ≤ 112) := h.slice_updated updates start k hk
  have hfirst : (h.updated updates).firstBlock = h.firstBlock := hslice 0 64 _ (by decide) (by decide)
  refine ⟨?_, ?_, fun _ => h.getElem_updated updates, ?_, ?_, ?_, ?_, ?_, hfirst, ?_, fun updates' htime hnonce => ?_⟩
  · rw [updated_eq, time_setNonce, time_setTime]
  · rw [updated_eq, nonce_setNonce]
  · exact congrArg (fun b : Bytes 4 => (⟨b.toWordLE⟩ : Int32)) (hslice 0 4 _ (by decide) (by decide))
  · exact congrArg BlockHash.mk (hslice 4 32 _ (by decide) (by decide))
  · exact hslice 36 32 _ (by decide) (by decide)
  · exact hslice 68 32 _ (by decide) (by decide)
  · exact congrArg Bytes.toWordLE (hslice 104 4 _ (by decide) (by decide))
  · rw [midstate, hfirst, midstate]
  · rw [updated_eq, updated_eq, htime, hnonce]

end RawHeader

end HeaderMiner
