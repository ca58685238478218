import HeaderMiner.Proofs.Sha256.Lanes
import Mathlib

/-!
# The compression function of the standard

FIPS 180-4 in its own words: strings of 32 bits, which are rotated; a schedule that is a recurrence; and round constants
that are not listed but read off the cube roots of the primes. The plain definition, which has the constants in a table
and makes a rotation of two shifts, agrees with it (`ofState_compress`). So does every lane of the code that works on
several lanes, however its rounds are broken up (`Lanes.compress_exact`).
-/

namespace HeaderMiner.Sha256

namespace Standard

/-- A string of 32 bits. -/
abbrev Word := BitVec 32

def ch (x y z : Word) : Word := (x &&& y) ^^^ (~~~x &&& z)

def maj (x y z : Word) : Word := (x &&& y) ^^^ (x &&& z) ^^^ (y &&& z)

def bigSigma0 (x : Word) : Word := x.rotateRight 2 ^^^ x.rotateRight 13 ^^^ x.rotateRight 22

def bigSigma1 (x : Word) : Word := x.rotateRight 6 ^^^ x.rotateRight 11 ^^^ x.rotateRight 25

def smallSigma0 (x : Word) : Word := x.rotateRight 7 ^^^ x.rotateRight 18 ^^^ x >>> 3

def smallSigma1 (x : Word) : Word := x.rotateRight 17 ^^^ x.rotateRight 19 ^^^ x >>> 10

/-- The first 32 bits of the fractional part of the cube root of prime number `t`, counted from zero. -/
noncomputable def constant (t : Nat) : Word := BitVec.ofNat 32 (Nat.nthRoot 3 (2 ^ 96 * Nat.nth Nat.Prime t))

/-- Word `t` of the message schedule. -/
def schedule (message : Fin 16 → Word) (t : Nat) : Word :=
  if h : t < 16 then message ⟨t, h⟩
  else
    smallSigma1 (schedule message (t - 2)) + schedule message (t - 7) + smallSigma0 (schedule message (t - 15)) +
      schedule message (t - 16)

/-- A hash value, or the working variables. -/
structure Words where
  a : Word
  b : Word
  c : Word
  d : Word
  e : Word
  f : Word
  g : Word
  h : Word

def Words.add (v w : Words) : Words :=
  ⟨v.a + w.a, v.b + w.b, v.c + w.c, v.d + w.d, v.e + w.e, v.f + w.f, v.g + w.g, v.h + w.h⟩

def round (v : Words) (k w : Word) : Words :=
  let t₁ := v.h + bigSigma1 v.e + ch v.e v.f v.g + k + w
  let t₂ := bigSigma0 v.a + maj v.a v.b v.c
  { a := t₁ + t₂, b := v.a, c := v.b, d := v.c, e := v.d + t₁, f := v.e, g := v.f, h := v.g }

/-- The working variables after the first `t` rounds. -/
noncomputable def afterRounds (init : Words) (message : Fin 16 → Word) : (t : Nat) → Words
  | 0 => init
  | t + 1 => round (afterRounds init message t) (constant t) (schedule message t)

noncomputable def compress (init : Words) (message : Fin 16 → Word) : Words := init.add (afterRounds init message 64)

/-! ### The table of constants -/

/-- Nothing up to its square root divides `p`. As a test for primes, this is quick enough to find the first 64. -/
def Undivided (p : Nat) : Prop := 2 ≤ p ∧ ∀ m, 2 ≤ m → m ≤ p.sqrt → ¬ m ∣ p

instance : DecidablePred Undivided := fun p =>
  inferInstanceAs (Decidable (2 ≤ p ∧ ∀ m, 2 ≤ m → m ≤ p.sqrt → ¬ m ∣ p))

theorem prime_eq : Nat.Prime = Undivided := funext fun _ => propext Nat.prime_def_le_sqrt

theorem count_undivided : Nat.count Undivided 312 = 64 := by decide +kernel

/-- Behind the integer part `i` of the root, the constant in the table is the greatest whose cube is not too large. -/
theorem cube_bounds : ∀ p < 312, Undivided p → ∃ i < 7,
    (i * 2 ^ 32 + (roundConstants[Nat.count Undivided p]?.getD 0).toNat) ^ 3 ≤ 2 ^ 96 * p ∧
      2 ^ 96 * p < (i * 2 ^ 32 + (roundConstants[Nat.count Undivided p]?.getD 0).toNat + 1) ^ 3 := by
  decide +kernel

theorem toBitVec_roundConstants {t : Nat} (ht : t < 64) : roundConstants[t].toBitVec = constant t := by
  have hinfinite := Nat.infinite_setOfPred_prime
  rw [prime_eq] at hinfinite
  have hprime := Nat.nth_mem_of_infinite hinfinite t
  have hcount := Nat.count_nth_of_infinite hinfinite t
  have hlt : Nat.nth Undivided t < 312 := Nat.nth_lt_of_lt_count (count_undivided ▸ ht)
  obtain ⟨i, -, hle, hgt⟩ := cube_bounds _ hlt hprime
  rw [hcount, Vector.getElem?_eq_getElem ht, Option.getD_some] at hle hgt
  have hword := roundConstants[t].toNat_lt
  rw [constant, prime_eq, Nat.nthRoot_eq_of_le_of_lt hle hgt]
  -- the integer part is a multiple of `2 ^ 32`, so the word from the table is what is left
  apply BitVec.eq_of_toNat_eq
  rw [BitVec.toNat_ofNat, UInt32.toNat_toBitVec]
  omega

/-! ### Operations on words -/

section
variable (x y z : UInt32)

theorem toBitVec_rotateRight {k : UInt32} (hpos : 0 < k.toNat) (hk : k.toNat < 32) :
    (rotateRight x k).toBitVec = x.toBitVec.rotateRight k.toNat := by
  have hright : (k.toBitVec % 32).toNat = k.toNat := by
    simp; omega
  have hleft : ((32 - k).toBitVec % 32).toNat = 32 - k.toNat := by
    simp; omega
  rw [rotateRight, UInt32.toBitVec_or, UInt32.toBitVec_shiftRight, UInt32.toBitVec_shiftLeft,
    BitVec.ushiftRight_eq', BitVec.shiftLeft_eq', hright, hleft, BitVec.rotateRight_def, Nat.mod_eq_of_lt hk]

@[simp] theorem toBitVec_bigSigma0 : (Sha256.bigSigma0 x).toBitVec = bigSigma0 x.toBitVec := by
  simp (disch := decide) only [Sha256.bigSigma0, bigSigma0, UInt32.toBitVec_xor, toBitVec_rotateRight]
  rfl

@[simp] theorem toBitVec_bigSigma1 : (Sha256.bigSigma1 x).toBitVec = bigSigma1 x.toBitVec := by
  simp (disch := decide) only [Sha256.bigSigma1, bigSigma1, UInt32.toBitVec_xor, toBitVec_rotateRight]
  rfl

@[simp] theorem toBitVec_smallSigma0 : (Sha256.smallSigma0 x).toBitVec = smallSigma0 x.toBitVec := by
  simp (disch := decide) only [Sha256.smallSigma0, smallSigma0, UInt32.toBitVec_xor, toBitVec_rotateRight]
  rfl

@[simp] theorem toBitVec_smallSigma1 : (Sha256.smallSigma1 x).toBitVec = smallSigma1 x.toBitVec := by
  simp (disch := decide) only [Sha256.smallSigma1, smallSigma1, UInt32.toBitVec_xor, toBitVec_rotateRight]
  rfl

@[simp] theorem toBitVec_choose : (choose x y z).toBitVec = ch x.toBitVec y.toBitVec z.toBitVec := rfl

@[simp] theorem toBitVec_majority : (majority x y z).toBitVec = maj x.toBitVec y.toBitVec z.toBitVec := rfl

end

/-! ### The plain definition -/

def Words.ofState (s : State) : Words :=
  let word (i : Nat) : Word := (s[i]?.getD 0).toBitVec
  ⟨word 0, word 1, word 2, word 3, word 4, word 5, word 6, word 7⟩

/-- The words of a block. -/
def message (block : Block) (t : Fin 16) : Word := (block.get t).toBitVec

theorem toBitVec_schedule (block : Block) {t : Nat} (ht : t < 64) :
    (Sha256.schedule block)[t].toBitVec = schedule (message block) t := by
  induction t using Nat.strong_induction_on with
  | h t ih =>
    rw [schedule]
    by_cases hlt : t < 16
    · rw [dif_pos hlt, getElem_schedule_of_lt block hlt]
      rfl
    · rw [dif_neg hlt, getElem_schedule_of_le block (Nat.le_of_not_lt hlt) ht]
      simp only [UInt32.toBitVec_add, toBitVec_smallSigma0, toBitVec_smallSigma1]
      rw [ih (t - 2) (by omega), ih (t - 7) (by omega), ih (t - 15) (by omega), ih (t - 16) (by omega)]

theorem ofState_round (s : State) (k w : UInt32) :
    Words.ofState (Sha256.round s k w) = round (Words.ofState s) k.toBitVec w.toBitVec := by
  simp [Words.ofState, Sha256.round, round]

theorem ofState_afterRounds (init : State) (block : Block) {t : Nat} (ht : t ≤ 64) :
    Words.ofState (Sha256.afterRounds init (Sha256.schedule block) t ht) =
      afterRounds (Words.ofState init) (message block) t := by
  induction t with
  | zero => rfl
  | succ t ih =>
    rw [Sha256.afterRounds, ofState_round, ih, toBitVec_roundConstants ht, toBitVec_schedule block ht, afterRounds]

theorem ofState_zipWith_add (s s' : State) :
    Words.ofState (s.zipWith (· + ·) s') = (Words.ofState s).add (Words.ofState s') := by
  simp [Words.ofState, Words.add]

theorem ofState_compress (init : State) (block : Block) :
    Words.ofState (Sha256.compress init block) = compress (Words.ofState init) (message block) := by
  rw [Sha256.compress, ofState_zipWith_add, ofState_afterRounds, compress]

end Standard

/-! ### Lanes -/

namespace Lanes

open Standard (message)
open Standard.Words (ofState)

variable {n : Nat}

/-- The rounds over the first words of a schedule, in one lane. -/
theorem lane_runRounds_take (init : State n) (block : Vector (Word n) 16) (l : Fin n) {k : Nat} (hk : k ≤ 64) :
    (runRounds init 0 ((schedule block).toList.take k)).lane l =
      afterRounds (init.lane l) (Sha256.schedule (block.map (·.get l))) k hk := by
  have hlength : ((schedule block).toList.take k).length = k := by
    simp; omega
  rw [lane_runRounds (init.lane l) (Sha256.schedule (block.map (·.get l))) l _ init 0 (by omega) rfl fun i hi => ?_]
  · simp only [hlength, Nat.zero_add]
  · simp [← map_schedule]

/-- What a lane is compressed to is what the standard gives for the words of that lane, and what the lane would give if
it were the only one; after some of the rounds, the lane has the working variables of the standard. Rounds that are
broken off after any word, and taken up there again, are the same rounds. -/
theorem compress_exact :
    (∀ (init : State n) (block : Vector (Word n) 16) (l : Fin n),
      ofState ((compress init block).lane l) =
        Standard.compress (ofState (init.lane l)) (message (block.map (·.get l)))) ∧
    (∀ (init : State n) (block : Vector (Word n) 16) (l : Fin n),
      (compress init block).lane l =
        (compress (broadcast 1 (init.lane l)) (block.map fun w => Vector.replicate 1 (w.get l))).lane 0) ∧
    (∀ (init : State n) (block : Vector (Word n) 16) (l : Fin n) (k : Fin 65),
      ofState ((runRounds init 0 ((schedule block).toList.take k)).lane l) =
        Standard.afterRounds (ofState (init.lane l)) (message (block.map (·.get l))) k) ∧
    (∀ (s : State n) (words : Vector (Word n) 64) (k : Fin 65),
      runRounds (runRounds s 0 (words.toList.take k)) k (words.toList.drop k) = runRounds s 0 words.toList) := by
  refine ⟨fun init block l => ?_, fun init block l => ?_, fun init block l k => ?_, fun s words k => ?_⟩
  · rw [lane_compress, Standard.ofState_compress]
  · have hblock : (block.map fun w => Vector.replicate 1 (w.get l)).map (·.get 0) = block.map (·.get l) := by
      simp [Vector.get_eq_getElem]
    rw [lane_compress, lane_compress, lane_broadcast, hblock]
  · rw [lane_runRounds_take init block l (Nat.le_of_lt_succ k.isLt), Standard.ofState_afterRounds]
  · have hlength : (words.toList.take k).length = k := by
      simp; omega
    have hsplit := runRounds_append s 0 (words.toList.take k) (words.toList.drop k)
    rw [List.take_append_drop, hlength, Nat.zero_add] at hsplit
    exact hsplit.symm

end Lanes

end HeaderMiner.Sha256
