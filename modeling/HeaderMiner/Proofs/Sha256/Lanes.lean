import HeaderMiner.Sha256.Lanes
import Mathlib

/-!
# Lanes are independent hashes

What the lane code computes is, read in one lane, the plain computation on the words of that lane: the
schedule (`map_schedule`), a round (`lane_round`), any run of rounds that starts where the plain rounds
have come to (`lane_runRounds`), and a whole compression (`lane_compress`). A run of rounds may be broken
off and taken up again (`runRounds_append`).
-/

namespace HeaderMiner.Sha256

theorem getElem_schedulePrefix (block : Block) {s t : Nat} (h : s ≤ t) {i : Nat} (hi : i < s) :
    (schedulePrefix block t)[i] = (schedulePrefix block s)[i] := by
  induction t with
  | zero => omega
  | succ t ih =>
    by_cases hs : s = t + 1
    · subst hs; rfl
    · rw [schedulePrefix, Vector.getElem_push_lt (by omega)]
      exact ih (by omega)

theorem getElem_schedule_of_lt (block : Block) {i : Nat} (hi : i < 16) :
    (schedule block)[i] = block[i] := by
  rw [schedule, getElem_schedulePrefix block (s := i + 1) (by omega) (by omega)]
  simp [schedulePrefix, hi]

/-- The recurrence of the schedule. -/
theorem getElem_schedule_of_le (block : Block) {t : Nat} (h : 16 ≤ t) (ht : t < 64) :
    (schedule block)[t] = smallSigma1 (schedule block)[t - 2] + (schedule block)[t - 7] +
      smallSigma0 (schedule block)[t - 15] + (schedule block)[t - 16] := by
  have hword {i : Nat} (hi : i < t) : (schedule block)[i] = (schedulePrefix block t)[i] :=
    getElem_schedulePrefix block ht.le hi
  have hlast : (schedule block)[t] = (schedulePrefix block (t + 1))[t] :=
    getElem_schedulePrefix block (s := t + 1) ht (by omega)
  rw [hlast, hword (i := t - 2) (by omega), hword (i := t - 7) (by omega), hword (i := t - 15) (by omega),
    hword (i := t - 16) (by omega)]
  simp [schedulePrefix, Nat.not_lt.2 h]

namespace Lanes

/-! ### The two selections -/

theorem choose_eq (e f g : UInt32) : choose e f g = Sha256.choose e f g := by
  apply UInt32.toBitVec_inj.1
  ext i hi
  simp only [choose, Sha256.choose, UInt32.toBitVec_xor, UInt32.toBitVec_and, UInt32.toBitVec_not,
    BitVec.getElem_xor, BitVec.getElem_and, BitVec.getElem_not]
  cases e.toBitVec[i] <;> cases f.toBitVec[i] <;> cases g.toBitVec[i] <;> rfl

theorem majority_eq (a b c : UInt32) : majority a b c = Sha256.majority a b c := by
  apply UInt32.toBitVec_inj.1
  ext i hi
  simp only [majority, Sha256.majority, UInt32.toBitVec_xor, UInt32.toBitVec_and, UInt32.toBitVec_or,
    BitVec.getElem_xor, BitVec.getElem_and, BitVec.getElem_or]
  cases a.toBitVec[i] <;> cases b.toBitVec[i] <;> cases c.toBitVec[i] <;> rfl

variable {n : Nat}

@[simp] theorem getElem_lane (s : State n) (l : Fin n) {i : Nat} (hi : i < 8) :
    (s.lane l)[i] = s[i].get l := by
  simp [State.lane]

@[simp] theorem lane_broadcast (s : Sha256.State) (l : Fin n) : (broadcast n s).lane l = s := by
  refine Vector.ext fun i hi => ?_
  simp [broadcast, Vector.get_eq_getElem]

/-! ### Schedule, rounds, compression -/

theorem map_schedulePrefix (block : Vector (Word n) 16) (l : Fin n) (t : Nat) :
    (schedulePrefix block t).map (·.get l) = Sha256.schedulePrefix (block.map (·.get l)) t := by
  induction t with
  | zero => exact Vector.ext fun i hi => absurd hi (Nat.not_lt_zero i)
  | succ t ih =>
    show ((schedulePrefix block t).push _).map (·.get l) = _
    rw [Sha256.schedulePrefix, Vector.map_push, ← ih]
    congr 1
    split <;> simp [Vector.get_eq_getElem]

theorem map_schedule (block : Vector (Word n) 16) (l : Fin n) :
    (schedule block).map (·.get l) = Sha256.schedule (block.map (·.get l)) :=
  map_schedulePrefix block l 64

theorem get_zipWith_add (v w : Word n) (l : Fin n) :
    (v.zipWith (· + ·) w).get l = v.get l + w.get l := by
  simp [Vector.get_eq_getElem]

theorem get_ofFn (f : Fin n → UInt32) (l : Fin n) : (Vector.ofFn f).get l = f l := by
  simp [Vector.get_eq_getElem]

theorem lane_round (s : State n) (k : UInt32) (w : Word n) (l : Fin n) :
    (round s k w).lane l = Sha256.round (s.lane l) k (w.get l) := by
  have h (i : Fin 8) : (s.get i).get l = (s.lane l).get i := by
    simp [Vector.get_eq_getElem]
  -- on arrays, where the literals carry no proof of their size
  apply Vector.toArray_inj.1
  rw [State.lane, round, Sha256.round]
  simp only [Vector.map_mk, List.map_toArray, List.map_cons, List.map_nil, get_zipWith_add, get_ofFn,
    choose_eq, majority_eq, h]
  generalize s.lane l = t
  rfl

/-- Rounds that start where lane `l` of the plain computation has come to, over schedule words that are
the plain ones in lane `l`, go on as it does. -/
theorem lane_runRounds (init : Sha256.State) (w : Vector UInt32 64) (l : Fin n) (ws : List (Word n)) :
    ∀ (s : State n) (first : Nat) (h : first + ws.length ≤ 64),
      s.lane l = afterRounds init w first (by omega) →
      (∀ i (hi : i < ws.length), ws[i].get l = w[first + i]) →
      (runRounds s first ws).lane l = afterRounds init w (first + ws.length) h := by
  induction ws with
  | nil => intro s first h hs _; exact hs
  | cons x ws ih =>
    intro s first h hs hw
    rw [List.length_cons] at h
    have hk : roundConstants[first]?.getD 0 = roundConstants[first] := by
      rw [Vector.getElem?_eq_getElem (by omega), Option.getD_some]
    have hround : (round s (roundConstants[first]?.getD 0) x).lane l =
        afterRounds init w (first + 1) (by omega) := by
      rw [lane_round, hs, hk, afterRounds]
      congr 1
      exact hw 0 (by simp)
    have hrest := ih _ (first + 1) (by omega) hround fun i hi => by
      have := hw (i + 1) (by simpa using hi)
      simpa [Nat.add_assoc, Nat.add_comm 1 i] using this
    rw [runRounds, hrest]
    congr 1
    rw [List.length_cons]
    omega

theorem runRounds_append (s : State n) (first : Nat) (xs ys : List (Word n)) :
    runRounds s first (xs ++ ys) = runRounds (runRounds s first xs) (first + xs.length) ys := by
  induction xs generalizing s first with
  | nil => rfl
  | cons x xs ih =>
    rw [List.cons_append, runRounds, ih, runRounds, List.length_cons, Nat.add_assoc, Nat.add_comm 1]

theorem lane_feedForward (s init : State n) (l : Fin n) :
    (feedForward s init).lane l = (init.lane l).zipWith (· + ·) (s.lane l) := by
  refine Vector.ext fun i hi => ?_
  simp [feedForward, Vector.get_eq_getElem, UInt32.add_comm]

/-- Rounds from number `first` on over the rest of the schedule, from where the plain ones have come to,
complete the compression of lane `l`. -/
theorem lane_feedForward_runRounds (s init : State n) (block : Vector (Word n) 16) (l : Fin n)
    {first : Nat} (h : first ≤ 64)
    (hs : s.lane l = afterRounds (init.lane l) (Sha256.schedule (block.map (·.get l))) first h) :
    (feedForward (runRounds s first ((schedule block).toList.drop first)) init).lane l =
      Sha256.compress (init.lane l) (block.map (·.get l)) := by
  have hlen : first + ((schedule block).toList.drop first).length = 64 := by simp; omega
  rw [lane_feedForward, lane_runRounds _ _ l _ s first (by omega) hs fun i hi => ?_]
  · simp only [hlen, Sha256.compress]
  · simp [← map_schedule]

/-- Every lane of a compression is the plain compression of that lane's words. -/
theorem lane_compress (init : State n) (block : Vector (Word n) 16) (l : Fin n) :
    (compress init block).lane l = Sha256.compress (init.lane l) (block.map (·.get l)) := by
  have := lane_feedForward_runRounds init init block l (Nat.zero_le 64) rfl
  rwa [List.drop_zero] at this

end Lanes

end HeaderMiner.Sha256
