import HeaderMiner.NonceRange
import Mathlib

/-!
# The parts of a range

The parts that a range is split into lie inside it, one after the other: a nonce of the range is in one part at
most (`eq_of_mem_split`). They leave no gap between them (`Tiles`), so together they make up the range
(`division_split`).
-/

namespace HeaderMiner.NonceRange

variable {r s t : NonceRange} {parts i j : Nat}

theorem mem_def {nonce : UInt32} : nonce ∈ r ↔ r.start ≤ nonce.toNat ∧ nonce.toNat < r.stop := Iff.rfl

theorem part_of_split (h : (r.split parts)[i]? = some s) : ∃ hi : i < parts, s = r.part parts i hi := by
  rw [split, List.getElem?_ofFn] at h
  split at h
  · exact ⟨‹_›, (Option.some.inj h).symm⟩
  · cases h

theorem start_part (hi : i < parts) : (r.part parts i hi).start = r.start + i * (r.size / parts) := rfl

theorem stop_part (hi : i < parts) : (r.part parts i hi).stop =
    if i + 1 = parts then r.stop else r.start + (i + 1) * (r.size / parts) := rfl

theorem start_le_start_part (hi : i < parts) : r.start ≤ (r.part parts i hi).start := Nat.le_add_right _ _

theorem stop_part_le (hi : i < parts) : (r.part parts i hi).stop ≤ r.stop := by
  rw [stop_part]
  split
  · exact Nat.le_refl _
  · have hparts : (i + 1) * (r.size / parts) ≤ parts * (r.size / parts) := Nat.mul_le_mul_right _ hi
    have hsize : parts * (r.size / parts) ≤ r.size := Nat.mul_div_le _ _
    have hle := r.start_le_stop
    rw [size] at hparts hsize ⊢
    omega

/-- An earlier part ends before a later one starts. -/
theorem stop_part_le_start_part (hj : j < parts) (hij : i < j) :
    (r.part parts i (hij.trans hj)).stop ≤ (r.part parts j hj).start := by
  have hnot : i + 1 ≠ parts := by omega
  rw [stop_part, if_neg hnot, start_part]
  exact Nat.add_le_add_left (Nat.mul_le_mul_right _ hij) _

theorem mem_of_mem_split (h : (r.split parts)[i]? = some s) {nonce : UInt32} (hn : nonce ∈ s) : nonce ∈ r := by
  obtain ⟨hi, rfl⟩ := part_of_split h
  have hstart : r.start ≤ _ := start_le_start_part hi
  have hstop := stop_part_le (r := r) hi
  rw [mem_def] at hn ⊢
  omega

theorem eq_of_mem_split (hs : (r.split parts)[i]? = some s) (ht : (r.split parts)[j]? = some t) {nonce : UInt32}
    (hns : nonce ∈ s) (hnt : nonce ∈ t) : i = j := by
  obtain ⟨hi, rfl⟩ := part_of_split hs
  obtain ⟨hj, rfl⟩ := part_of_split ht
  rw [mem_def] at hns hnt
  rcases Nat.lt_trichotomy i j with hij | hij | hij
  · have hle := stop_part_le_start_part (r := r) hj hij
    omega
  · exact hij
  · have hle := stop_part_le_start_part (r := r) hi hij
    omega

/-! ### Ranges without a gap between them -/

/-- The ranges follow one another without a gap, from `start` up to `stop`. -/
def Tiles : Nat → List NonceRange → Nat → Prop
  | start, [], stop => start = stop
  | start, s :: rest, stop => s.start = start ∧ Tiles s.stop rest stop

/-- The nonces of a range as numbers, in their order. -/
def nonces (r : NonceRange) : List Nat := List.range' r.start r.size

theorem start_add_size (r : NonceRange) : r.start + r.size = r.stop := by
  have hle := r.start_le_stop
  rw [size]
  omega

theorem tiles_ofFn {k : Nat} (f : Fin (k + 1) → NonceRange)
    (hnext : ∀ i : Fin k, (f i.castSucc).stop = (f i.succ).start) :
    Tiles (f 0).start (List.ofFn f) (f (Fin.last k)).stop := by
  induction k with
  | zero => simp [Tiles]
  | succ k ih =>
    rw [List.ofFn_succ]
    refine ⟨rfl, ?_⟩
    have htail := ih (fun i => f i.succ) fun i => hnext i.succ
    rw [show (f 0).stop = (f 1).start from hnext 0]
    exact htail

namespace Tiles

variable {slices : List NonceRange} {start stop : Nat}

theorem le (h : Tiles start slices stop) : start ≤ stop := by
  induction slices generalizing start with
  | nil => exact Nat.le_of_eq h
  | cons s rest ih =>
    obtain ⟨rfl, hrest⟩ := h
    exact s.start_le_stop.trans (ih hrest)

theorem flatMap_nonces (h : Tiles start slices stop) : slices.flatMap nonces = List.range' start (stop - start) := by
  induction slices generalizing start with
  | nil =>
    have heq : start = stop := h
    simp [heq]
  | cons s rest ih =>
    obtain ⟨rfl, hrest⟩ := h
    have hle := hrest.le
    have hsize := s.start_add_size
    rw [List.flatMap_cons, ih hrest, nonces, ← hsize, List.range'_append_1]
    congr 1
    omega

/-- A nonce between the ends is in exactly one of the ranges, and any other nonce is in none. -/
theorem countP_mem (h : Tiles start slices stop) (nonce : UInt32) :
    slices.countP (nonce ∈ ·) = if start ≤ nonce.toNat ∧ nonce.toNat < stop then 1 else 0 := by
  induction slices generalizing start with
  | nil =>
    have heq : start = stop := h
    rw [List.countP_nil, if_neg (by omega)]
  | cons s rest ih =>
    obtain ⟨rfl, hrest⟩ := h
    have hle := hrest.le
    have hs := s.start_le_stop
    rw [List.countP_cons, ih hrest]
    simp only [mem_def, decide_eq_true_eq]
    by_cases hmem : s.start ≤ nonce.toNat ∧ nonce.toNat < s.stop
    · rw [if_pos hmem, if_neg (by omega), if_pos (by omega)]
    · rw [if_neg hmem, Nat.add_zero]
      congr 1
      simp only [eq_iff_iff]
      omega

end Tiles

/-! ### The parts make up the range -/

theorem tiles_split (hparts : 0 < parts) : Tiles r.start (r.split parts) r.stop := by
  obtain ⟨k, rfl⟩ : ∃ k, parts = k + 1 := ⟨parts - 1, by omega⟩
  have hnext : ∀ i : Fin k, (r.part (k + 1) i.castSucc i.castSucc.isLt).stop =
      (r.part (k + 1) i.succ i.succ.isLt).start := by
    intro i
    have hi : (i : Nat) + 1 ≠ k + 1 := by omega
    rw [stop_part, start_part, Fin.val_castSucc, Fin.val_succ, if_neg hi]
  have htiles := tiles_ofFn (fun i : Fin (k + 1) => r.part (k + 1) i i.isLt) hnext
  rw [split]
  simpa only [start_part, stop_part, Fin.val_zero, Fin.val_last, Nat.zero_mul, Nat.add_zero, if_true] using htiles

theorem size_part (hi : i < parts) : (r.part parts i hi).size =
    r.size / parts + if i + 1 = parts then r.size % parts else 0 := by
  have hsize := r.start_add_size
  have hdiv := Nat.div_add_mod r.size parts
  rw [size, start_part, stop_part]
  generalize r.size / parts = chunk at *
  split
  · rename_i hlast
    rw [← hlast, Nat.add_mul, Nat.one_mul, hlast] at hdiv
    omega
  · rw [Nat.add_mul, Nat.one_mul]
    omega

theorem size_of_mem_dropLast (h : s ∈ (r.split parts).dropLast) : s.size = r.size / parts := by
  obtain ⟨i, hi, rfl⟩ := List.getElem_of_mem h
  have hlast : i + 1 ≠ parts := by
    simp only [List.length_dropLast, split, List.length_ofFn] at hi
    omega
  simp only [List.getElem_dropLast, split, List.getElem_ofFn, size_part, if_neg hlast, Nat.add_zero]

theorem size_getLast (hparts : 0 < parts) :
    (r.split parts).getLast?.map size = some (r.size / parts + r.size % parts) := by
  have hlast : parts - 1 < parts := by omega
  have hpart : (r.split parts)[parts - 1]? = some (r.part parts (parts - 1) hlast) := by
    rw [split, List.getElem?_ofFn, dif_pos hlast]
  rw [List.getLast?_eq_getElem?, split, List.length_ofFn, ← split, hpart, Option.map_some, size_part,
    if_pos (by omega)]

/-- The parts that make up a range. -/
structure Division (r : NonceRange) (parts : Nat) (slices : List NonceRange) : Prop where
  length : slices.length = parts
  tiles : Tiles r.start slices r.stop
  nonces : slices.flatMap NonceRange.nonces = r.nonces
  start_le_stop : ∀ s ∈ slices, s.start ≤ s.stop
  size_dropLast : ∀ s ∈ slices.dropLast, s.size = r.size / parts
  size_getLast : slices.getLast?.map size = some (r.size / parts + r.size % parts)
  mem_iff : ∀ nonce : UInt32, nonce ∈ r ↔ slices.countP (nonce ∈ ·) = 1
  not_mem : ∀ nonce : UInt32, nonce ∉ r → ∀ s ∈ slices, nonce ∉ s

/-- However many parts a range is split into, they follow one another without a gap from its start to its end, all of
one size but for the last, which has the remainder as well. So each nonce of the range is in exactly one of them, and no
other nonce is in any. -/
theorem division_split (r : NonceRange) {parts : Nat} (hparts : 0 < parts) : r.Division parts (r.split parts) := by
  have htiles : Tiles r.start (r.split parts) r.stop := tiles_split hparts
  have hcount (nonce : UInt32) : (r.split parts).countP (nonce ∈ ·) = if nonce ∈ r then 1 else 0 :=
    htiles.countP_mem nonce
  refine ⟨List.length_ofFn, htiles, htiles.flatMap_nonces, fun s _ => s.start_le_stop,
    fun _ => size_of_mem_dropLast, size_getLast hparts, ?_, ?_⟩
  · intro nonce
    rw [hcount]
    by_cases hmem : nonce ∈ r <;> simp [hmem]
  · intro nonce hmem
    have hnone := hcount nonce
    rw [if_neg hmem, List.countP_eq_zero] at hnone
    simpa using hnone

/-- More parts than nonces: all but the last are empty. -/
theorem division_split_of_few :
    0 < 5 ∧ (clamp 4294967293 5000000000).Division 5 ((clamp 4294967293 5000000000).split 5) ∧
      ((clamp 4294967293 5000000000).split 5).map size = [0, 0, 0, 0, 3] :=
  ⟨by decide, division_split _ (by decide), by decide⟩

end HeaderMiner.NonceRange
