import HeaderMiner.Bytes
import Mathlib

/-!
# Words and their bytes

A word is the number of its four bytes in base 256 (`toNat_wordOfBytes`), so taking a word apart and
putting it together again are inverse to each other in either byte order. A splice changes the bytes of
its window and no others.
-/

namespace HeaderMiner

theorem toNat_wordOfBytes (a b c d : UInt8) :
    (wordOfBytes a b c d).toNat = 2 ^ 24 * a.toNat + 2 ^ 16 * b.toNat + 2 ^ 8 * c.toNat + d.toNat := by
  have hb := b.toNat_lt
  have hc := c.toNat_lt
  have hd := d.toNat_lt
  have hshift (x : UInt8) {k : Nat} (hk : k ≤ 24) : x.toNat <<< k % 2 ^ 32 = 2 ^ k * x.toNat := by
    have hx := x.toNat_lt
    rw [Nat.shiftLeft_eq, Nat.mul_comm, Nat.mod_eq_of_lt]
    calc 2 ^ k * x.toNat ≤ 2 ^ 24 * x.toNat :=
          Nat.mul_le_mul_right _ (Nat.pow_le_pow_right (by decide) hk)
      _ < 2 ^ 32 := by omega
  have h24 : (24 : UInt32).toNat % 32 = 24 := rfl
  have h16 : (16 : UInt32).toNat % 32 = 16 := rfl
  have h8 : (8 : UInt32).toNat % 32 = 8 := rfl
  simp only [wordOfBytes, UInt32.toNat_or, UInt32.toNat_shiftLeft, UInt8.toNat_toUInt32]
  rw [h24, h16, h8, hshift a (by decide), hshift b (by decide), hshift c (by decide)]
  -- the summands occupy different bits, so "or" adds
  rw [Nat.or_assoc, Nat.or_assoc, ← Nat.two_pow_add_eq_or_of_lt (i := 8) hd,
    ← Nat.two_pow_add_eq_or_of_lt (i := 16) (by omega), ← Nat.two_pow_add_eq_or_of_lt (i := 24) (by omega)]
  omega

/-- The byte of a word that `k` lower bits precede, as a number. -/
theorem toNat_toUInt8_shiftRight (w : UInt32) {k : Nat} (hk : k < 32) :
    (w >>> k.toUInt32).toUInt8.toNat = w.toNat / 2 ^ k % 2 ^ 8 := by
  have h : k.toUInt32.toNat % 32 = k := by
    rw [UInt32.toNat_ofNat']; omega
  rw [UInt32.toNat_toUInt8, UInt32.toNat_shiftRight, h, Nat.shiftRight_eq_div_pow]

section
variable (a b c d : UInt8) (w : UInt32)

@[simp] theorem toUInt8_wordOfBytes : (wordOfBytes a b c d).toUInt8 = d := by
  have hd := d.toNat_lt
  apply UInt8.toNat_inj.1
  rw [UInt32.toNat_toUInt8, toNat_wordOfBytes]
  omega

@[simp] theorem toUInt8_wordOfBytes_shift_8 : (wordOfBytes a b c d >>> 8).toUInt8 = c := by
  have hc := c.toNat_lt
  have hd := d.toNat_lt
  apply UInt8.toNat_inj.1
  refine (toNat_toUInt8_shiftRight _ (k := 8) (by decide)).trans ?_
  rw [toNat_wordOfBytes]
  omega

@[simp] theorem toUInt8_wordOfBytes_shift_16 : (wordOfBytes a b c d >>> 16).toUInt8 = b := by
  have hb := b.toNat_lt
  have hc := c.toNat_lt
  have hd := d.toNat_lt
  apply UInt8.toNat_inj.1
  refine (toNat_toUInt8_shiftRight _ (k := 16) (by decide)).trans ?_
  rw [toNat_wordOfBytes]
  omega

@[simp] theorem toUInt8_wordOfBytes_shift_24 : (wordOfBytes a b c d >>> 24).toUInt8 = a := by
  have ha := a.toNat_lt
  have hb := b.toNat_lt
  have hc := c.toNat_lt
  have hd := d.toNat_lt
  apply UInt8.toNat_inj.1
  refine (toNat_toUInt8_shiftRight _ (k := 24) (by decide)).trans ?_
  rw [toNat_wordOfBytes]
  omega

@[simp] theorem wordOfBytes_bytes :
    wordOfBytes (w >>> 24).toUInt8 (w >>> 16).toUInt8 (w >>> 8).toUInt8 w.toUInt8 = w := by
  have h24 : (w >>> 24).toUInt8.toNat = _ := toNat_toUInt8_shiftRight w (k := 24) (by decide)
  have h16 : (w >>> 16).toUInt8.toNat = _ := toNat_toUInt8_shiftRight w (k := 16) (by decide)
  have h8 : (w >>> 8).toUInt8.toNat = _ := toNat_toUInt8_shiftRight w (k := 8) (by decide)
  have hw := w.toNat_lt
  apply UInt32.toNat_inj.1
  rw [toNat_wordOfBytes, h24, h16, h8, UInt32.toNat_toUInt8]
  omega

end

namespace Bytes
variable {n : Nat}

@[simp] theorem toWordLE_ofWordLE (w : UInt32) : (ofWordLE w).toWordLE = w := by
  simp [toWordLE, ofWordLE]

@[simp] theorem toWordBE_ofWordBE (w : UInt32) : (ofWordBE w).toWordBE = w := by
  simp [toWordBE, ofWordBE]

@[simp] theorem toWordBE_ofWordLE (w : UInt32) : (ofWordLE w).toWordBE = swapBytes w := rfl

@[simp] theorem ofWordLE_toWordLE (b : Bytes 4) : ofWordLE b.toWordLE = b := by
  refine Vector.ext fun i hi => ?_
  have : i = 0 ∨ i = 1 ∨ i = 2 ∨ i = 3 := by omega
  rcases this with rfl | rfl | rfl | rfl <;> simp [ofWordLE, toWordLE]

/-! ### Slices and splices -/

@[simp] theorem getElem_slice (b : Bytes n) (start k : Nat) (h : start + k ≤ n) {i : Nat} (hi : i < k) :
    (b.slice start k h)[i] = b[start + i] := by
  simp [slice]

theorem getElem_splice_of_mem {k : Nat} (b : Bytes n) (start : Nat) (new : Bytes k) {i : Nat}
    (hi : i < n) (h : start ≤ i ∧ i < start + k) : (b.splice start new)[i] = new[i - start] := by
  simp [splice, h]

theorem getElem_splice_of_not_mem {k : Nat} (b : Bytes n) (start : Nat) (new : Bytes k) {i : Nat}
    (hi : i < n) (h : ¬ (start ≤ i ∧ i < start + k)) : (b.splice start new)[i] = b[i] := by
  simp [splice, Vector.get_eq_getElem, h]

@[simp] theorem slice_splice {k : Nat} (b : Bytes n) (start : Nat) (new : Bytes k) (h : start + k ≤ n) :
    (b.splice start new).slice start k h = new := by
  refine Vector.ext fun i hi => ?_
  rw [getElem_slice, getElem_splice_of_mem _ _ _ _ (by omega)]
  simp

theorem slice_splice_disjoint {k l : Nat} (b : Bytes n) (start at' : Nat) (new : Bytes k)
    (h : at' + l ≤ n) (hd : at' + l ≤ start ∨ start + k ≤ at') :
    (b.splice start new).slice at' l h = b.slice at' l h := by
  refine Vector.ext fun i hi => ?_
  rw [getElem_slice, getElem_slice, getElem_splice_of_not_mem _ _ _ _ (by omega)]

@[simp] theorem splice_splice {k : Nat} (b : Bytes n) (start : Nat) (old new : Bytes k) :
    (b.splice start old).splice start new = b.splice start new := by
  refine Vector.ext fun i hi => ?_
  by_cases h : start ≤ i ∧ i < start + k
  · rw [getElem_splice_of_mem _ _ _ _ h, getElem_splice_of_mem _ _ _ _ h]
  · rw [getElem_splice_of_not_mem _ _ _ _ h, getElem_splice_of_not_mem _ _ _ _ h,
      getElem_splice_of_not_mem _ _ _ _ h]

theorem splice_comm {k l : Nat} (b : Bytes n) (start at' : Nat) (new : Bytes k) (new' : Bytes l)
    (hd : at' + l ≤ start ∨ start + k ≤ at') :
    (b.splice start new).splice at' new' = (b.splice at' new').splice start new := by
  refine Vector.ext fun i hi => ?_
  by_cases h : start ≤ i ∧ i < start + k
  · have h' : ¬ (at' ≤ i ∧ i < at' + l) := by omega
    rw [getElem_splice_of_not_mem _ _ _ _ h', getElem_splice_of_mem _ _ _ _ h,
      getElem_splice_of_mem _ _ _ _ h]
  · rw [getElem_splice_of_not_mem _ _ _ _ h]
    by_cases h' : at' ≤ i ∧ i < at' + l
    · rw [getElem_splice_of_mem _ _ _ _ h', getElem_splice_of_mem _ _ _ _ h']
    · rw [getElem_splice_of_not_mem _ _ _ _ h', getElem_splice_of_not_mem _ _ _ _ h',
        getElem_splice_of_not_mem _ _ _ _ h]

@[simp] theorem splice_slice (b : Bytes n) (start k : Nat) (h : start + k ≤ n) :
    b.splice start (b.slice start k h) = b := by
  refine Vector.ext fun i hi => ?_
  by_cases hi' : start ≤ i ∧ i < start + k
  · rw [getElem_splice_of_mem _ _ _ _ hi', getElem_slice]
    simp only [Nat.add_sub_cancel' hi'.1]
  · rw [getElem_splice_of_not_mem _ _ _ _ hi']

end Bytes

end HeaderMiner
