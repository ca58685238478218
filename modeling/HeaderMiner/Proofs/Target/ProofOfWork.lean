import HeaderMiner.Node.Basic
import HeaderMiner.Proofs.Target.Compact
import Mathlib

/-!
# The check of a hash by compact bits

An encoding is valid if it is not negative and its number has no more than 256 bits. By a valid encoding a node without
rules of its own finds those hashes good whose number is not larger. The others share the target zero, and as a hash
meets the number that it is equal to, one hash is good by each of them: the zero hash (`meetsBits_iff`).
-/

namespace HeaderMiner

theorem spelt_eq_zero_iff {bytes : List UInt8} : spelt bytes = 0 ↔ ∀ x ∈ bytes, x = 0 := by
  induction bytes with
  | nil => simp [spelt]
  | cons x xs ih =>
    have hpow : 256 ^ xs.length ≠ 0 := pow_ne_zero _ (by decide)
    have hx : x.toNat = 0 ↔ x = 0 := UInt8.toNat_inj (b := 0)
    rw [spelt_cons, Nat.add_eq_zero_iff, Nat.mul_eq_zero, or_iff_left hpow, hx, ih, List.forall_mem_cons]

theorem BlockHash.toNat_eq_zero_iff {h : BlockHash} : h.toNat = 0 ↔ h = zero := by
  constructor
  · intro hzero
    rw [toNat, Bytes.toNatLE_eq] at hzero
    have hbytes := spelt_eq_zero_iff.1 hzero
    obtain ⟨bytes⟩ := h
    congr 1
    refine Vector.ext fun i hi => ?_
    rw [Bytes.zero, Vector.getElem_replicate]
    exact hbytes _ (by simp)
  · rintro rfl
    decide

namespace Target

/-- The encoding is not negative, and the number that it stands for has no more than 256 bits. -/
def Valid (bits : UInt32) : Prop := bits.toNat.testBit 23 = false ∧ denoted bits < 2 ^ 256

instance (bits : UInt32) : Decidable (Valid bits) := inferInstanceAs (Decidable (_ ∧ _))

theorem toNat_ofBits_of_valid {bits : UInt32} (h : Valid bits) : (ofBits bits).toNat = denoted bits := by
  obtain ⟨hpositive, hfits⟩ := h
  rw [toNat_ofBits_of_positive hpositive, if_pos hfits]

/-- An encoding that is not valid has the same target as the number zero. -/
theorem toNat_ofBits_of_not_valid {bits : UInt32} (h : ¬ Valid bits) : (ofBits bits).toNat = 0 := by
  rcases Bool.eq_false_or_eq_true (bits.toNat.testBit 23) with hnegative | hpositive
  · rw [ofBits_of_negative hnegative, toNat_zero]
  · have hoverflow : ¬ denoted bits < 2 ^ 256 := fun hfits => h ⟨hpositive, hfits⟩
    rw [toNat_ofBits_of_positive hpositive, if_neg hoverflow]

/-- A hash passes if the encoding is valid and its number is not larger than the one that the encoding stands for. By an
encoding that is not valid the zero hash passes, and no other. -/
theorem meetsBits_iff (hash : BlockHash) (bits : UInt32) :
    meetsBits hash bits = true ↔
      Valid bits ∧ hash.toNat ≤ denoted bits ∨ ¬ Valid bits ∧ hash = BlockHash.zero := by
  rw [meetsBits, isMetBy_iff]
  by_cases h : Valid bits
  · rw [toNat_ofBits_of_valid h]
    simp [h]
  · rw [toNat_ofBits_of_not_valid h, Nat.le_zero, BlockHash.toNat_eq_zero_iff]
    simp [h]

/-- A negative encoding and one of 264 bits, both met by the zero hash. -/
theorem zero_meets_invalid :
    ¬ Valid 0x1d80ffff ∧ meetsBits BlockHash.zero 0x1d80ffff = true ∧
      ¬ Valid 0x23123456 ∧ meetsBits BlockHash.zero 0x23123456 = true := by
  decide +kernel

end Target

end HeaderMiner
