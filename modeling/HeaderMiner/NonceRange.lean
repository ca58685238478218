/-!
# Ranges of nonces

A half-open interval of 32-bit nonces, and its division among several workers.
-/

namespace HeaderMiner

def nonceSpace : Nat := UInt32.size

/-- The nonces from `start` up to but not including `stop`. -/
structure NonceRange where
  start : Nat
  stop : Nat
  start_le_stop : start ≤ stop := by omega
  stop_le : stop ≤ nonceSpace := by omega
deriving DecidableEq

namespace NonceRange

def full : NonceRange := ⟨0, nonceSpace, Nat.zero_le _, Nat.le_refl _⟩

/-- The part of an interval of naturals that lies among the nonces; empty if its ends are reversed. -/
def clamp (start stop : Nat) : NonceRange where
  start := min start (min stop nonceSpace)
  stop := min stop nonceSpace

def size (r : NonceRange) : Nat := r.stop - r.start

def isEmpty (r : NonceRange) : Bool := r.start == r.stop

instance : Membership UInt32 NonceRange where
  mem r nonce := r.start ≤ nonce.toNat ∧ nonce.toNat < r.stop

instance (nonce : UInt32) (r : NonceRange) : Decidable (nonce ∈ r) :=
  inferInstanceAs (Decidable (r.start ≤ nonce.toNat ∧ nonce.toNat < r.stop))

/-- Part `i` of `parts` equal ones; the last part takes the remainder as well. -/
def part (r : NonceRange) (parts i : Nat) (h : i < parts) : NonceRange :=
  let chunk := r.size / parts
  have fits (k : Nat) (hk : k ≤ parts) : r.start + k * chunk ≤ r.stop := by
    have h₁ : k * chunk ≤ parts * chunk := Nat.mul_le_mul_right _ hk
    have h₂ : parts * chunk ≤ r.size := Nat.mul_div_le _ _
    have h₃ := r.start_le_stop
    simp only [size] at h₂
    omega
  { start := r.start + i * chunk
    stop := if i + 1 = parts then r.stop else r.start + (i + 1) * chunk
    start_le_stop := by
      have h₁ := fits i (Nat.le_of_lt h)
      have h₂ : i * chunk ≤ (i + 1) * chunk := Nat.mul_le_mul_right _ (Nat.le_succ i)
      split <;> omega
    stop_le := by
      have h₁ := fits (i + 1) h
      have h₂ := r.stop_le
      split <;> omega }

/-- Consecutive parts of equal size that make up the range, the last one with the remainder. -/
def split (r : NonceRange) (parts : Nat) : List NonceRange :=
  List.ofFn fun i : Fin parts => r.part parts i i.isLt

end NonceRange

end HeaderMiner
