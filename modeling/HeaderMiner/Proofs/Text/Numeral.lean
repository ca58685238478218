import HeaderMiner.Proofs.Text.Hex
import HeaderMiner.Text.Numeral
import Mathlib

/-!
# Hexadecimal numerals

A numeral is read exactly if it is an optional plus sign and one or more digits, and their number is below the limit
(`read_eq_ok_iff`). The reader watches the number as it grows: it never shrinks, so what goes over the limit on the way
ends up over it.
-/

namespace HeaderMiner.Numeral

/-- The text is a hexadecimal numeral of this number. -/
def IsHex (text : List Char) (n : Nat) : Prop :=
  ∃ sign digits, text = sign ++ digits ∧ (sign = [] ∨ sign = ['+']) ∧ digits ≠ [] ∧ (∀ c ∈ digits, Hex.IsDigit c) ∧
    Hex.numberOf digits = n

variable {limit acc n : Nat} {c : Char} {cs text : List Char}

theorem digitValue_eq (c : Char) : digitValue 16 c = if Hex.IsDigit c then some (Hex.valueOf c) else none := by
  have hall : ∀ k < 128, digitValue 16 (Char.ofNat k) =
      if Hex.IsDigit (Char.ofNat k) then some (Hex.valueOf (Char.ofNat k)) else none := by
    decide +kernel
  rcases Nat.lt_or_ge c.toNat 128 with hc | hc
  · have hsmall := hall c.toNat hc
    rwa [Char.ofNat_toNat] at hsmall
  · have hdigit : ¬ Hex.IsDigit c := by
      intro h
      have hlt := Hex.toNat_lt_of_isDigit h
      omega
    have habove : ∀ d : Char, d.toNat < 128 → ¬ c ≤ d := by
      intro d hd hle
      have hle' : c.toNat ≤ d.toNat := hle
      omega
    rw [if_neg hdigit]
    simp [digitValue, habove]

theorem readDigits_of_isDigit (hacc : acc < limit) (h : ∀ c ∈ cs, Hex.IsDigit c) : readDigits 16 limit acc cs =
    if acc * 16 ^ cs.length + Hex.numberOf cs < limit then .ok (acc * 16 ^ cs.length + Hex.numberOf cs)
    else .error .tooLarge := by
  induction cs generalizing acc with
  | nil => simp [readDigits, Hex.numberOf, hacc]
  | cons c cs ih =>
    have hc := h c (by simp)
    have hcs : ∀ d ∈ cs, Hex.IsDigit d := fun d hd => h d (by simp [hd])
    have hnumber : Hex.numberOf (c :: cs) = Hex.valueOf c * 16 ^ cs.length + Hex.numberOf cs := by
      have hone : Hex.numberOf [c] = Hex.valueOf c := by simp [Hex.numberOf]
      rw [← List.singleton_append, Hex.numberOf_append, hone]
    have hgrown : acc * 16 ^ (c :: cs).length + Hex.numberOf (c :: cs) =
        (acc * 16 + Hex.valueOf c) * 16 ^ cs.length + Hex.numberOf cs := by
      rw [hnumber, List.length_cons]
      ring
    rw [readDigits, digitValue_eq, if_pos hc, hgrown]
    dsimp only
    by_cases hlt : acc * 16 + Hex.valueOf c < limit
    · rw [if_pos hlt, ih hlt hcs]
    · have hpow : 0 < 16 ^ cs.length := by positivity
      -- The digits that follow only make it larger.
      have hle : acc * 16 + Hex.valueOf c ≤ (acc * 16 + Hex.valueOf c) * 16 ^ cs.length :=
        Nat.le_mul_of_pos_right _ hpow
      rw [if_neg hlt, if_neg (by omega)]

theorem isDigit_of_readDigits (h : readDigits 16 limit acc cs = .ok n) : ∀ c ∈ cs, Hex.IsDigit c := by
  induction cs generalizing acc with
  | nil => simp
  | cons c cs ih =>
    rw [readDigits, digitValue_eq] at h
    by_cases hc : Hex.IsDigit c
    · rw [if_pos hc] at h
      dsimp only at h
      split_ifs at h
      intro d hd
      rcases List.mem_cons.1 hd with rfl | hd
      · exact hc
      · exact ih h d hd
    · rw [if_neg hc] at h
      cases h

theorem readDigits_eq_ok (hlimit : 0 < limit) (h : readDigits 16 limit 0 cs = .ok n) :
    (∀ c ∈ cs, Hex.IsDigit c) ∧ Hex.numberOf cs = n ∧ n < limit := by
  have hdigits := isDigit_of_readDigits h
  rw [readDigits_of_isDigit hlimit hdigits, Nat.zero_mul, Nat.zero_add] at h
  split_ifs at h with hlt
  obtain rfl := Except.ok.inj h
  exact ⟨hdigits, rfl, hlt⟩

theorem read_of_ne_plus (hne : text ≠ []) (hplus : text.head? ≠ some '+') :
    read 16 limit text = readDigits 16 limit 0 text := by
  unfold read
  split
  · exact absurd rfl hne
  · exact absurd rfl hplus
  · exact absurd rfl hplus
  · rfl

theorem read_plus (hne : text ≠ []) : read 16 limit ('+' :: text) = readDigits 16 limit 0 text := by
  obtain ⟨c, cs, rfl⟩ := List.exists_cons_of_ne_nil hne
  rfl

/-- What becomes of a numeral. -/
theorem read_of_isHex (hlimit : 0 < limit) (h : IsHex text n) :
    read 16 limit text = if n < limit then .ok n else .error .tooLarge := by
  obtain ⟨sign, digits, rfl, hsign, hne, hdigits, rfl⟩ := h
  have hread := readDigits_of_isDigit hlimit hdigits
  rw [Nat.zero_mul, Nat.zero_add] at hread
  rw [← hread]
  rcases hsign with rfl | rfl
  · refine read_of_ne_plus hne ?_
    intro hplus
    exact absurd (hdigits '+' (List.mem_of_mem_head? hplus)) (by decide)
  · exact read_plus hne

theorem isHex_of_read (hlimit : 0 < limit) (h : read 16 limit text = .ok n) : IsHex text n ∧ n < limit := by
  rcases text with _ | ⟨c, cs⟩
  · cases h
  by_cases hc : c = '+'
  · subst hc
    have hne : cs ≠ [] := by
      rintro rfl
      cases h
    rw [read_plus hne] at h
    obtain ⟨hdigits, hnumber, hlt⟩ := readDigits_eq_ok hlimit h
    exact ⟨⟨['+'], cs, rfl, .inr rfl, hne, hdigits, hnumber⟩, hlt⟩
  · rw [read_of_ne_plus (by simp) (by simp [hc])] at h
    obtain ⟨hdigits, hnumber, hlt⟩ := readDigits_eq_ok hlimit h
    exact ⟨⟨[], c :: cs, rfl, .inl rfl, by simp, hdigits, hnumber⟩, hlt⟩

/-- A numeral is read if its number is below the limit, and nothing else is. -/
theorem read_eq_ok_iff (hlimit : 0 < limit) : read 16 limit text = .ok n ↔ IsHex text n ∧ n < limit := by
  refine ⟨isHex_of_read hlimit, ?_⟩
  rintro ⟨hhex, hlt⟩
  rw [read_of_isHex hlimit hhex, if_pos hlt]

end HeaderMiner.Numeral
