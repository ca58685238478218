import HeaderMiner.Proofs.Target.Order
import HeaderMiner.Target
import Mathlib

/-!
# The number that a compact target stands for

An encoding with exponent `e` and mantissa `m` stands for `m · 256 ^ (e - 3)`, rounded down (`Target.denoted`). Its
target has this number if the encoding is not negative and the number has 256 bits, and else zero. The three mantissa
bytes are put at a window of the 32 bytes; as the window may reach beyond their front, an overflow shows in a lost byte
that is not zero (`exists_lost_iff`).
-/

namespace HeaderMiner

theorem spelt_ofFn {n : Nat} (f : Fin n → UInt8) :
    spelt (List.ofFn f) = ∑ p : Fin n, (f p).toNat * 256 ^ (n - 1 - p) := by
  induction n with
  | zero => rfl
  | succ n ih =>
    rw [List.ofFn_succ, spelt_cons, ih, Fin.sum_univ_succ, List.length_ofFn]
    congr 1
    refine Finset.sum_congr rfl fun p _ => ?_
    rw [Fin.val_succ, show n + 1 - 1 - (p + 1) = n - 1 - p by omega]

namespace Target

variable {m bits : UInt32} {e : Nat}

/-- The number that a compact encoding stands for, by its exponent and its mantissa. -/
def denoted (bits : UInt32) : Nat :=
  let e := (bits >>> 24).toNat
  let m := (bits &&& 0x7fffff).toNat
  if 3 ≤ e then m * 256 ^ (e - 3) else m / 256 ^ (3 - e)

/-! ### The mantissa and its bytes -/

theorem toNat_mantissa (bits : UInt32) : (bits &&& 0x7fffff).toNat = bits.toNat % 2 ^ 23 := by
  rw [UInt32.toNat_and]
  exact Nat.and_two_pow_sub_one_eq_mod bits.toNat 23

theorem toNat_mantissaByte (m : UInt32) {i : Nat} (hi : i < 3) :
    (mantissaByte m i).toNat = m.toNat / 256 ^ (2 - i) % 256 := by
  unfold mantissaByte
  interval_cases i
  · exact toNat_toUInt8_shiftRight m (k := 16) (by decide)
  · exact toNat_toUInt8_shiftRight m (k := 8) (by decide)
  · simp

theorem sum_mantissaByte (hm : m.toNat < 2 ^ 24) :
    ∑ i ∈ Finset.range 3, (mantissaByte m i).toNat * 256 ^ (2 - i) = m.toNat := by
  simp only [Finset.sum_range_succ, Finset.sum_range_zero, toNat_mantissaByte m (show 0 < 3 by decide),
    toNat_mantissaByte m (show 1 < 3 by decide), toNat_mantissaByte m (show 2 < 3 by decide)]
  omega

theorem le_of_mantissaByte {i : Nat} (hi : i < 3) (h : mantissaByte m i ≠ 0) : 256 ^ (2 - i) ≤ m.toNat := by
  by_contra hlt
  apply h
  apply UInt8.toNat_inj.1
  rw [toNat_mantissaByte m hi, Nat.div_eq_of_lt (Nat.lt_of_not_le hlt)]
  rfl

/-! ### The window of the mantissa bytes -/

/-- The mantissa bytes at offset `32 - e`; those that lie before the front are lost. -/
def window (m : UInt32) (e : Nat) : Bytes 32 :=
  Vector.ofFn fun p => if 32 ≤ p.val + e ∧ p.val + e < 35 then mantissaByte m (p.val + e - 32) else 0

theorem toNatBE_window (he : 3 ≤ e) : (window m e).toNatBE =
    ∑ i ∈ Finset.range 3 with e ≤ 32 + i, (mantissaByte m i).toNat * 256 ^ (e - 1 - i) := by
  show spelt (window m e).toList = _
  rw [window, Vector.toList_ofFn, spelt_ofFn, Fin.sum_univ_eq_sum_range
    fun p => (if 32 ≤ p + e ∧ p + e < 35 then mantissaByte m (p + e - 32) else 0).toNat * 256 ^ (32 - 1 - p)]
  rw [← Finset.sum_filter_of_ne (p := fun p => 32 ≤ p + e ∧ p + e < 35)]
  · refine Finset.sum_nbij' (fun p => p + e - 32) (fun i => 32 + i - e) ?_ ?_ ?_ ?_ ?_
    all_goals
      intro p hp
      simp only [Finset.mem_filter, Finset.mem_range] at hp ⊢
    · omega
    · omega
    · omega
    · omega
    · rw [if_pos hp.2, show 32 - 1 - p = e - 1 - (p + e - 32) by omega]
  · intro p _ hp
    by_contra hout
    rw [if_neg hout] at hp
    exact hp (Nat.zero_mul _)

/-- No mantissa byte that is not zero is lost. -/
def Fits (m : UInt32) (e : Nat) : Prop := ∀ i < 3, 32 + i < e → mantissaByte m i = 0

theorem toNatBE_window_of_fits (he : 3 ≤ e) (hm : m.toNat < 2 ^ 24) (h : Fits m e) :
    (window m e).toNatBE = m.toNat * 256 ^ (e - 3) := by
  rw [toNatBE_window he, Finset.sum_filter_of_ne]
  · conv_rhs => rw [← sum_mantissaByte hm, Finset.sum_mul]
    refine Finset.sum_congr rfl fun i hi => ?_
    have hi := Finset.mem_range.1 hi
    rw [Nat.mul_assoc, ← Nat.pow_add, show 2 - i + (e - 3) = e - 1 - i by omega]
  · intro i hi hne
    by_contra hlost
    rw [h i (Finset.mem_range.1 hi) (Nat.lt_of_not_le hlost)] at hne
    exact hne (Nat.zero_mul _)

theorem fits_iff (he : 3 ≤ e) (hm : m.toNat < 2 ^ 24) : Fits m e ↔ m.toNat * 256 ^ (e - 3) < 2 ^ 256 := by
  constructor
  · intro h
    have hlt := spelt_lt (window m e).toList
    rw [Vector.length_toList] at hlt
    rw [← toNatBE_window_of_fits he hm h]
    exact hlt.trans_eq (by norm_num)
  · intro hlt i hi hlost
    by_contra hbyte
    -- a lost byte alone is worth `256 ^ 32` or more
    have hle : 256 ^ 32 ≤ m.toNat * 256 ^ (e - 3) := by
      calc 256 ^ 32 ≤ 256 ^ (2 - i + (e - 3)) := Nat.pow_le_pow_right (by decide) (by omega)
        _ = 256 ^ (2 - i) * 256 ^ (e - 3) := Nat.pow_add ..
        _ ≤ m.toNat * 256 ^ (e - 3) := Nat.mul_le_mul_right _ (le_of_mantissaByte hi hbyte)
    exact absurd hlt (Nat.not_lt.2 (le_trans (by norm_num) hle))

/-! ### Targets of encodings -/

theorem toNat_zero : zero.toNat = 0 := by decide

/-- An encoding is negative if bit 23 is set. -/
theorem negative_iff (bits : UInt32) : bits &&& 0x00800000 ≠ 0 ↔ bits.toNat.testBit 23 = true := by
  rw [Ne, ← UInt32.toNat_inj, UInt32.toNat_and, show (0x00800000 : UInt32).toNat = 2 ^ 23 from rfl, Nat.and_two_pow]
  cases bits.toNat.testBit 23 <;> simp

theorem ofBits_of_negative (h : bits.toNat.testBit 23 = true) : ofBits bits = zero := by
  unfold ofBits
  exact if_pos (.inl ((negative_iff bits).2 h))

theorem window_three (m : UInt32) :
    window m 3 = Vector.ofFn fun p => if 29 ≤ p.val then mantissaByte m (p.val - 29) else 0 := by
  unfold window
  congr 1
  funext p
  have hp := p.isLt
  refine if_congr (by omega) ?_ rfl
  rw [show p.val + 3 - 32 = p.val - 29 by omega]

/-- Up to exponent three, the mantissa is shifted out at the end. -/
theorem toNat_ofBits_of_le_three (h : bits.toNat.testBit 23 = false) (he : (bits >>> 24).toNat ≤ 3) :
    (ofBits bits).toNat = denoted bits ∧ denoted bits < 2 ^ 256 := by
  have hpositive : ¬ bits &&& 0x00800000 ≠ 0 := by simp [negative_iff, h]
  have hm := toNat_mantissa bits
  unfold ofBits denoted
  generalize (bits >>> 24).toNat = e at he
  generalize bits &&& 0x7fffff = m at hm
  have hdenoted : (if 3 ≤ e then m.toNat * 256 ^ (e - 3) else m.toNat / 256 ^ (3 - e)) = m.toNat / 256 ^ (3 - e) := by
    split
    · rw [show e = 3 by omega]
      simp
    · rfl
  have hle : m.toNat / 256 ^ (3 - e) ≤ m.toNat := Nat.div_le_self _ _
  simp only [hdenoted]
  refine ⟨?_, by omega⟩
  rcases Nat.eq_zero_or_pos e with rfl | hpos
  · rw [if_pos (.inr rfl), toNat_zero]
    omega
  · have hvalue : (m >>> (8 * (3 - e)).toUInt32).toNat = m.toNat / 256 ^ (3 - e) := by
      rw [UInt32.toNat_shiftRight, Nat.shiftRight_eq_div_pow]
      interval_cases e <;> rfl
    rw [if_neg (by rintro (hneg | hzero) <;> [exact hpositive hneg; omega]), if_pos he,
      ← window_three]
    show (window _ 3).toNatBE = _
    rw [toNatBE_window_of_fits (Nat.le_refl 3) (by omega) fun i _ hi => by omega, hvalue]
    exact Nat.mul_one _

theorem any_lost (m : UInt32) (e : Nat) :
    ((List.range 3).any fun i => 32 + i < e && mantissaByte m i != 0) = true ↔ ¬ Fits m e := by
  simp [Fits]

/-- Above three, the mantissa is followed by zeros, if that leaves room for it. -/
theorem toNat_ofBits_of_three_lt (h : bits.toNat.testBit 23 = false) (he : 3 < (bits >>> 24).toNat) :
    (ofBits bits).toNat = if denoted bits < 2 ^ 256 then denoted bits else 0 := by
  have hpositive : ¬ bits &&& 0x00800000 ≠ 0 := by simp [negative_iff, h]
  have hm : (bits &&& 0x7fffff).toNat < 2 ^ 24 := by
    rw [toNat_mantissa]
    omega
  unfold ofBits denoted
  generalize (bits >>> 24).toNat = e at he
  generalize bits &&& 0x7fffff = m at hm
  have hthree : ¬ e ≤ 3 := Nat.not_le.2 he
  have hle : 3 ≤ e := he.le
  rw [if_neg (by rintro (hneg | hzero) <;> [exact hpositive hneg; omega]), if_neg hthree, if_pos hle]
  by_cases hfits : Fits m e
  · rw [if_neg (mt (any_lost m e).1 (not_not.2 hfits)), if_pos ((fits_iff hle hm).1 hfits)]
    exact toNatBE_window_of_fits hle hm hfits
  · rw [if_pos ((any_lost m e).2 hfits), if_neg (mt (fits_iff hle hm).2 hfits), toNat_zero]

theorem toNat_ofBits_of_positive (h : bits.toNat.testBit 23 = false) :
    (ofBits bits).toNat = if denoted bits < 2 ^ 256 then denoted bits else 0 := by
  rcases Nat.lt_or_ge 3 (bits >>> 24).toNat with he | he
  · exact toNat_ofBits_of_three_lt h he
  · obtain ⟨htoNat, hlt⟩ := toNat_ofBits_of_le_three h he
    rw [htoNat, if_pos hlt]

/-- The target of an encoding is the number that the encoding stands for, unless the encoding is negative or the number
has more than 256 bits; then it is zero. -/
theorem toNat_ofBits (bits : UInt32) :
    (ofBits bits).toNat = if bits.toNat.testBit 23 = false ∧ denoted bits < 2 ^ 256 then denoted bits else 0 := by
  cases hsign : bits.toNat.testBit 23 with
  | true =>
    rw [ofBits_of_negative hsign, toNat_zero]
    rfl
  | false =>
    rw [toNat_ofBits_of_positive hsign]
    simp only [true_and]

/-- Exponent 33 overflows only with a mantissa of three bytes, exponent 3 is the mantissa itself. -/
example : (ofBits 0x2100ffff).toNat = 0xffff * 256 ^ 30 ∧ (ofBits 0x21010000).toNat = 0 ∧
    (ofBits 0x03123456).toNat = 0x123456 ∧ (ofBits 0x02123456).toNat = 0x1234 := by decide

end Target

end HeaderMiner
