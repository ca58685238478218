import HeaderMiner.Engine.Basic
import HeaderMiner.Proofs.Bytes
import HeaderMiner.Target
import Mathlib

/-!
# Hashes and targets as numbers

Comparing byte strings of one length from the left compares the numbers that they spell (`leadingAtMost_iff`), and so
does their order as lists (`lt_iff_spelt`). So a hash meets a target exactly if its number is not larger
(`Target.isMetBy_iff`), and the order of the targets is that of their numbers (`Target.compare_eq`). The leading word of
a digest or of a target is its number without the last 224 bits, and a hash that meets a target has no larger leading
word.
-/

namespace HeaderMiner

/-! ### Numbers spelt by bytes -/

/-- The number that a list of bytes spells, most significant first. -/
def spelt (bytes : List UInt8) : Nat := bytes.foldl (fun v x => 256 * v + x.toNat) 0

theorem foldl_spelt (v : Nat) (bytes : List UInt8) :
    bytes.foldl (fun v x => 256 * v + x.toNat) v = v * 256 ^ bytes.length + spelt bytes := by
  induction bytes generalizing v with
  | nil => simp [spelt]
  | cons x xs ih =>
    rw [spelt, List.foldl_cons, List.foldl_cons, ih, ih (256 * 0 + x.toNat), List.length_cons, Nat.pow_succ]
    ring

theorem spelt_append (xs ys : List UInt8) :
    spelt (xs ++ ys) = spelt xs * 256 ^ ys.length + spelt ys := by
  rw [spelt, List.foldl_append, foldl_spelt]
  rfl

theorem spelt_cons (x : UInt8) (xs : List UInt8) :
    spelt (x :: xs) = x.toNat * 256 ^ xs.length + spelt xs := by
  rw [spelt, List.foldl_cons, foldl_spelt, Nat.mul_zero, Nat.zero_add]

theorem spelt_lt (bytes : List UInt8) : spelt bytes < 256 ^ bytes.length := by
  induction bytes with
  | nil => exact Nat.one_pos
  | cons x xs ih =>
    have hx := x.toNat_lt
    rw [spelt_cons, List.length_cons]
    calc x.toNat * 256 ^ xs.length + spelt xs < x.toNat * 256 ^ xs.length + 256 ^ xs.length :=
          Nat.add_lt_add_left ih _
      _ = (x.toNat + 1) * 256 ^ xs.length := by ring
      _ ≤ 256 * 256 ^ xs.length := Nat.mul_le_mul_right _ (by omega)
      _ = 256 ^ (xs.length + 1) := by ring

theorem spelt_cons_lt {a b : UInt8} (h : a.toNat < b.toNat) {as bs : List UInt8} (hlen : as.length = bs.length) :
    spelt (a :: as) < spelt (b :: bs) := by
  rw [spelt_cons, spelt_cons, ← hlen]
  calc a.toNat * 256 ^ as.length + spelt as < (a.toNat + 1) * 256 ^ as.length := by
        have hlt := spelt_lt as
        rw [Nat.add_mul, Nat.one_mul]
        omega
    _ ≤ b.toNat * 256 ^ as.length := Nat.mul_le_mul_right _ h
    _ ≤ b.toNat * 256 ^ as.length + spelt bs := Nat.le_add_right _ _

theorem leadingAtMost_iff {as bs : List UInt8} (hlen : as.length = bs.length) :
    leadingAtMost as bs ↔ spelt as ≤ spelt bs := by
  induction as generalizing bs with
  | nil =>
    rw [List.eq_nil_of_length_eq_zero hlen.symm]
    exact iff_of_true rfl (Nat.le_refl _)
  | cons a as ih =>
    cases bs with
    | nil => cases hlen
    | cons b bs =>
      have hlen' : as.length = bs.length := Nat.succ.inj hlen
      unfold leadingAtMost
      rcases Nat.lt_trichotomy a.toNat b.toNat with h | h | h
      · rw [if_pos (UInt8.lt_iff_toNat_lt.2 h)]
        exact iff_of_true rfl (spelt_cons_lt h hlen').le
      · have hab : ¬ a < b := fun hlt => Nat.ne_of_lt (UInt8.lt_iff_toNat_lt.1 hlt) h
        have hba : ¬ b < a := fun hlt => Nat.ne_of_gt (UInt8.lt_iff_toNat_lt.1 hlt) h
        rw [if_neg hab, if_neg hba, ih hlen', spelt_cons, spelt_cons, hlen', h]
        exact (Nat.add_le_add_iff_left).symm
      · have hab : ¬ a < b := fun hlt => Nat.lt_asymm h (UInt8.lt_iff_toNat_lt.1 hlt)
        rw [if_neg hab, if_pos (UInt8.lt_iff_toNat_lt.2 h)]
        exact iff_of_false (by decide) (spelt_cons_lt h hlen'.symm).not_ge

theorem lt_iff_leadingAtMost {as bs : List UInt8} (hlen : as.length = bs.length) :
    as < bs ↔ leadingAtMost bs as = false := by
  induction as generalizing bs with
  | nil =>
    rw [List.eq_nil_of_length_eq_zero hlen.symm]
    exact iff_of_false (List.lt_irrefl _) (by decide)
  | cons a as ih =>
    cases bs with
    | nil => cases hlen
    | cons b bs =>
      rw [List.cons_lt_cons_iff, ih (Nat.succ.inj hlen), leadingAtMost]
      by_cases hab : a < b
      · simp [hab, UInt8.lt_asymm hab]
      by_cases hba : b < a
      · have hne : a ≠ b := (UInt8.ne_of_lt hba).symm
        simp [hab, hba, hne]
      · have heq : a = b := UInt8.le_antisymm (UInt8.not_lt.1 hba) (UInt8.not_lt.1 hab)
        simp [heq, UInt8.lt_irrefl]

theorem lt_iff_spelt {as bs : List UInt8} (hlen : as.length = bs.length) : as < bs ↔ spelt as < spelt bs := by
  rw [lt_iff_leadingAtMost hlen, ← Nat.not_le, ← leadingAtMost_iff hlen.symm, Bool.not_eq_true]

theorem eq_iff_spelt {as bs : List UInt8} (hlen : as.length = bs.length) : as = bs ↔ spelt as = spelt bs := by
  constructor
  · rintro rfl
    rfl
  · intro heq
    have hab : ¬ as < bs := fun hlt => Nat.ne_of_lt ((lt_iff_spelt hlen).1 hlt) heq
    have hba : ¬ bs < as := fun hlt => Nat.ne_of_gt ((lt_iff_spelt hlen.symm).1 hlt) heq
    exact List.le_antisymm hba hab

namespace Bytes

theorem toNatLE_eq {n : Nat} (b : Bytes n) : b.toNatLE = toNatBE (n := n) b.reverse := by
  unfold toNatLE toNatBE
  rw [Vector.toList_reverse, List.foldl_reverse]
  simp only [Nat.add_comm]

/-- The leading four bytes are the number without the last 28 bytes. -/
theorem toNat_leading (b : Bytes 32) :
    (wordOfBytes (b.get 0) (b.get 1) (b.get 2) (b.get 3)).toNat = b.toNatBE / 2 ^ 224 := by
  show (wordOfBytes b[0] b[1] b[2] b[3]).toNat = _
  have htake : b.toList.take 4 = [b[0], b[1], b[2], b[3]] := by
    refine List.ext_getElem (by simp) fun i _ hi => ?_
    have h4 : i < 4 := hi
    interval_cases i <;> simp
  have hlen : (b.toList.drop 4).length = 28 := by simp
  have htail := spelt_lt (b.toList.drop 4)
  rw [hlen] at htail
  have hpow : 256 ^ 28 = 2 ^ 224 := by norm_num
  have hword : spelt [b[0], b[1], b[2], b[3]] = (wordOfBytes b[0] b[1] b[2] b[3]).toNat := by
    rw [toNat_wordOfBytes]
    simp only [spelt, List.foldl_cons, List.foldl_nil]
    omega
  show _ = spelt b.toList / 2 ^ 224
  rw [← List.take_append_drop 4 b.toList, htake, spelt_append, hlen, hword, ← hpow, Nat.mul_comm,
    Nat.mul_add_div (by norm_num), Nat.div_eq_of_lt htail, Nat.add_zero]

end Bytes

/-! ### Targets and digests -/

theorem Target.toNat_topWord (t : Target) : t.topWord.toNat = t.toNat / 2 ^ 224 :=
  Bytes.toNat_leading t.bytes

theorem Digest.toNat_topWord (d : Digest) : d.topWord.toNat = d.blockHash.toNat / 2 ^ 224 := by
  have hword : d.topWord = wordOfBytes d.blockHash.bytes[31] d.blockHash.bytes[30] d.blockHash.bytes[29]
      d.blockHash.bytes[28] := by
    simp [topWord, swapBytes, blockHash, toBytes, Sha256.State.toBytes, Bytes.ofWordBE, Vector.get_eq_getElem]
  have hreverse := Bytes.toNat_leading d.blockHash.bytes.reverse
  simp only [Vector.get_eq_getElem, Vector.getElem_reverse] at hreverse
  rw [hword, BlockHash.toNat, Bytes.toNatLE_eq]
  exact hreverse

namespace Target

/-- A hash meets a target if its number is not larger. -/
theorem isMetBy_iff (t : Target) (h : BlockHash) : t.isMetBy h ↔ h.toNat ≤ t.toNat := by
  rw [isMetBy, admits, leadingAtMost_iff (by simp), BlockHash.toNat, Bytes.toNatLE_eq]
  rfl

/-- The leading 32 bits of a hash are those of a hash that meets the target. -/
def MayBeMetBy (t : Target) (h : BlockHash) : Prop := h.toNat / 2 ^ 224 ≤ t.toNat / 2 ^ 224

instance (t : Target) (h : BlockHash) : Decidable (t.MayBeMetBy h) := inferInstanceAs (Decidable (_ ≤ _))

/-- A hash that passes the cheap test and fails the full one. -/
def MisledBy (t : Target) (h : BlockHash) : Prop := t.MayBeMetBy h ∧ ¬ t.isMetBy h

instance (t : Target) (h : BlockHash) : Decidable (t.MisledBy h) := inferInstanceAs (Decidable (_ ∧ _))

theorem mayBeMetBy_of_isMetBy {t : Target} {h : BlockHash} (hmet : t.isMetBy h) : t.MayBeMetBy h :=
  Nat.div_le_div_right ((isMetBy_iff t h).1 hmet)

/-! ### The order of targets -/

theorem compare_eq (s t : Target) : compare s t = compare s.toNat t.toNat := by
  have hlen : s.bytes.toList.length = t.bytes.toList.length := by simp
  show compareOfLessAndEq s.bytes.toList t.bytes.toList = compareOfLessAndEq s.toNat t.toNat
  unfold compareOfLessAndEq
  exact if_congr (lt_iff_spelt hlen) rfl (if_congr (eq_iff_spelt hlen) rfl rfl)

theorem isLE_compare_iff (s t : Target) : (compare s t).isLE = true ↔ s.toNat ≤ t.toNat := by
  rw [compare_eq, Nat.isLE_compare]

/-- A byte string is admitted exactly if its number, most significant byte first, is not larger than the target's, and
if it would not be the larger target; targets compare as their numbers do. A hash meets a target if its number, least
significant byte first, is not larger, so it meets every larger target too. -/
theorem admits_exact :
    (∀ a b : Bytes 32, (⟨b⟩ : Target).admits a = true ↔ a.toNatBE ≤ b.toNatBE) ∧
    (∀ a b : Bytes 32, (⟨b⟩ : Target).admits a = (compare (⟨a⟩ : Target) ⟨b⟩).isLE) ∧
    (∀ s t : Target, compare s t = compare s.bytes.toNatBE t.bytes.toNatBE) ∧
    (∀ (t : Target) (h : BlockHash), t.isMetBy h = true ↔ h.bytes.toNatLE ≤ t.bytes.toNatBE) ∧
    (∀ (s t : Target) (h : BlockHash), (compare s t).isLE = true → s.isMetBy h = true → t.isMetBy h = true) := by
  have hadmits (a b : Bytes 32) : (⟨b⟩ : Target).admits a = true ↔ a.toNatBE ≤ b.toNatBE :=
    leadingAtMost_iff (by simp)
  refine ⟨hadmits, fun a b => ?_, compare_eq, isMetBy_iff, fun s t h hle hmet => ?_⟩
  · rw [Bool.eq_iff_iff, hadmits, isLE_compare_iff]
    rfl
  · rw [isMetBy_iff] at hmet ⊢
    exact hmet.trans ((isLE_compare_iff s t).1 hle)

/-- A hash that is equal to the smaller of two targets. -/
theorem admits_exact_of_equal :
    let s := ofBits 0x1d00ffff
    let t := ofBits 0x207fffff
    let h : BlockHash := ⟨s.bytes.reverse⟩
    (compare s t).isLE = true ∧ s.isMetBy h = true ∧ t.isMetBy h = true := by
  intro s t h
  have hle : (compare s t).isLE = true := by decide +kernel
  have hmet : s.isMetBy h = true := by decide +kernel
  exact ⟨hle, hmet, admits_exact.2.2.2.2 s t h hle hmet⟩

end Target

end HeaderMiner
