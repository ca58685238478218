import HeaderMiner.CommandLine.Value
import HeaderMiner.Proofs.Text.Numeral
import Mathlib

/-!
# Compact targets on the command line

The texts that are read as a compact target are those that `Spells` it: marks, perhaps a plus sign, and digits
(`readBits_exact`). No mark can be left over before a numeral, as its second character is no digit.
-/

namespace HeaderMiner.CommandLine

/-- As many `0x` marks. -/
def marks (k : Nat) : List Char := (List.replicate k ['0', 'x']).flatten

/-- The text consists of marks and a hexadecimal numeral of this number. -/
def Spells (text : List Char) (n : Nat) : Prop := ∃ k numeral, text = marks k ++ numeral ∧ Numeral.IsHex numeral n

variable {text numeral : List Char} {n : Nat}

theorem marks_succ_append (k : Nat) (text : List Char) : marks (k + 1) ++ text = '0' :: 'x' :: (marks k ++ text) := by
  simp [marks, List.replicate_succ]

theorem exists_eq_marks (text : List Char) : ∃ k, text = marks k ++ dropMarks text := by
  fun_induction dropMarks text with
  | case1 rest ih =>
    obtain ⟨k, hk⟩ := ih
    refine ⟨k + 1, ?_⟩
    rw [marks_succ_append, ← hk]
  | case2 text _ => exact ⟨0, rfl⟩

theorem dropMarks_of_isHex (h : Numeral.IsHex numeral n) : dropMarks numeral = numeral := by
  unfold dropMarks
  split
  · obtain ⟨sign, digits, heq, hsign, -, hdigits, -⟩ := h
    rcases hsign with rfl | rfl
    · rw [List.nil_append] at heq
      subst heq
      exact absurd (hdigits 'x' (by simp)) (by decide)
    · simp at heq
  · rfl

theorem dropMarks_marks_append (h : Numeral.IsHex numeral n) (k : Nat) : dropMarks (marks k ++ numeral) = numeral := by
  induction k with
  | zero => exact dropMarks_of_isHex h
  | succ k ih => rw [marks_succ_append, dropMarks, ih]

theorem spells_iff : Spells text n ↔ Numeral.IsHex (dropMarks text) n := by
  constructor
  · rintro ⟨k, numeral, rfl, hhex⟩
    rwa [dropMarks_marks_append hhex]
  · intro hhex
    obtain ⟨k, hk⟩ := exists_eq_marks text
    exact ⟨k, _, hk, hhex⟩

theorem readBits_eq_ok_iff {text : String} {bits : UInt32} :
    readBits text = .ok bits ↔ Spells text.toList bits.toNat := by
  have hsize : 0 < UInt32.size := by decide
  rw [spells_iff, readBits]
  constructor
  · intro h
    cases hread : Numeral.read 16 UInt32.size (dropMarks text.toList) with
    | error e =>
      rw [hread] at h
      cases h
    | ok n =>
      rw [hread] at h
      cases h
      obtain ⟨hhex, hlt⟩ := (Numeral.read_eq_ok_iff hsize).1 hread
      rwa [UInt32.toNat_ofNat_of_lt' hlt]
  · intro h
    rw [(Numeral.read_eq_ok_iff hsize).2 ⟨h, bits.toNat_lt⟩]
    simp [Except.map]

theorem spells_marks_ofNat (k width n : Nat) : Spells (marks k ++ (Hex.ofNat width n).toList) n := by
  obtain ⟨hne, hdigits, hnumber⟩ := Hex.ofNat_spec width n
  have hhex : Numeral.IsHex (Hex.ofNat width n).toList n :=
    ⟨[], (Hex.ofNat width n).toList, (List.nil_append _).symm, .inl rfl, hne, hdigits, hnumber⟩
  exact ⟨k, (Hex.ofNat width n).toList, rfl, hhex⟩

/-- A text is read as a compact target exactly if it consists of any number of marks, perhaps a plus sign, and one or
more digits that spell the target; every other text is an error, also one that spells a number of more than 32 bits. The
eight digits that a target is shown with are read as that target, after any number of marks. -/
theorem readBits_exact :
    (∀ (text : String) (bits : UInt32), readBits text = .ok bits ↔ Spells text.toList bits.toNat) ∧
    (∀ text : String, (∃ e, readBits text = .error e) ↔ ∀ bits : UInt32, ¬ Spells text.toList bits.toNat) ∧
    (∀ (text : String) (n : Nat), Spells text.toList n → UInt32.size ≤ n → readBits text = .error .tooLarge) ∧
    (∀ (k : Nat) (bits : UInt32),
      readBits (String.ofList (marks k ++ (Hex.ofNat 8 bits.toNat).toList)) = .ok bits) := by
  refine ⟨fun text bits => readBits_eq_ok_iff, ?_, ?_, ?_⟩
  · intro text
    simp only [← readBits_eq_ok_iff]
    cases readBits text <;> simp
  · intro text n hspells hn
    rw [readBits, Numeral.read_of_isHex (by decide) (spells_iff.1 hspells), if_neg (by omega)]
    rfl
  · intro k bits
    rw [readBits_eq_ok_iff, String.toList_ofList]
    exact spells_marks_ofNat k 8 bits.toNat

end HeaderMiner.CommandLine
