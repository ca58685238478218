import HeaderMiner.BlockHash
import HeaderMiner.Proofs.Text.Hex
import Mathlib

/-!
# Displayed block hashes

Each block hash has one displayed form in lower case, and is read from it and from no other text, up to the case of the
digits (`ofDisplay_eq_ok_iff`). Any other text is refused for its length or for its first byte that is no digit
(`display_exact`).
-/

namespace HeaderMiner.BlockHash

variable {s : String} {h : BlockHash}

/-- A hash is read from the texts that are its displayed form in lower case. -/
theorem ofDisplay_eq_ok_iff : ofDisplay s = .ok h ↔ h.display = s.toLower := by
  rw [display, ← Hex.decode_eq_ok_iff, ofDisplay]
  cases Hex.decode 32 s with
  | error e => simp [Except.map]
  | ok bytes =>
    simp only [Except.map, Except.ok.injEq, toBigEndian]
    constructor
    · rintro rfl
      rw [Vector.reverse_reverse]
    · rintro rfl
      rw [Vector.reverse_reverse]

theorem ofDisplay_eq_error_iff {e : Hex.Error} : ofDisplay s = .error e ↔ Hex.decode 32 s = .error e := by
  rw [ofDisplay]
  cases Hex.decode 32 s <;> simp [Except.map]

theorem ofDisplay_isOk_iff : (∃ h, ofDisplay s = .ok h) ↔ ∃ bytes, Hex.decode 32 s = .ok bytes := by
  rw [ofDisplay]
  cases Hex.decode 32 s <;> simp [Except.map]

/-- A hash is read back from its displayed form. A text is read exactly if it consists of 64 digits, of either case, and
it is then, in lower case, the displayed form of what was read. Of all that can be wrong with another text, an odd
number of bytes is told first, then any other wrong number of bytes, then the first byte that is no digit, with its
place. -/
theorem display_exact :
    (∀ h : BlockHash, ofDisplay h.display = .ok h) ∧
    (∀ s : String, (∃ h, ofDisplay s = .ok h) ↔ s.length = 64 ∧ ∀ c ∈ s.toList, Hex.IsDigit c) ∧
    (∀ (s : String) (h : BlockHash), ofDisplay s = .ok h ↔ h.display = s.toLower) ∧
    (∀ s : String, ofDisplay s = .error .oddLength ↔ s.utf8ByteSize % 2 = 1) ∧
    (∀ s : String, ofDisplay s = .error .wrongLength ↔ s.utf8ByteSize % 2 ≠ 1 ∧ s.utf8ByteSize ≠ 64) ∧
    (∀ (s : String) (b : UInt8) (i : Nat),
      ofDisplay s = .error (.badDigit b i) ↔ s.utf8ByteSize = 64 ∧ Hex.BadDigit (Hex.utf8 s) b i) := by
  refine ⟨?_, ?_, fun s h => ofDisplay_eq_ok_iff, ?_, ?_, ?_⟩
  · intro h
    rw [ofDisplay_eq_ok_iff, display, Hex.toLower_encode]
  · intro s
    rw [ofDisplay_isOk_iff, Hex.decode_isOk_iff, String.length_toList]
  · intro s
    rw [ofDisplay_eq_error_iff, Hex.decode_eq_oddLength_iff]
  · intro s
    rw [ofDisplay_eq_error_iff, Hex.decode_eq_wrongLength_iff]
  · intro s b i
    rw [ofDisplay_eq_error_iff, Hex.decode_eq_badDigit_iff]

end HeaderMiner.BlockHash
