import HeaderMiner.Node.Local
import HeaderMiner.Proofs.Journal
import HeaderMiner.Proofs.Target.Order
import HeaderMiner.Round.Filter
import Mathlib

/-!
# The two tests of a digest

The cheap test compares the leading 32 bits of a hash with those of the target (`Filter.precheck_ofTarget`), so it lets
every hash through that meets the target. What the full test gives is the node's answer (`Filter.check_eq`). With a node
that goes by the compact target alone, a digest passes both exactly if its hash meets the target (`filter_exact`).
-/

namespace HeaderMiner

variable {σ : Type}

theorem swapBytes_eq_zero_iff {w : UInt32} : swapBytes w = 0 ↔ w = 0 := by
  constructor
  · intro h
    have hback : swapBytes (swapBytes w) = w := by simp [swapBytes]
    rw [← hback, h]
    rfl
  · rintro rfl
    rfl

theorem Digest.topWord_eq_zero_iff {d : Digest} : d.topWord = 0 ↔ d.words.get 7 = 0 := swapBytes_eq_zero_iff

/-- The node checks hashes by their compact target, as one without rules of its own does. -/
def ChecksByBits (node : Node σ) : Prop :=
  ∀ hash bits state, (node (.proofOfWork hash bits) state).answer = some (meetsBits hash bits)

theorem LocalNode.checksByBits : ChecksByBits LocalNode.answer := fun _ _ _ => rfl

namespace Filter

theorem precheck_ofTarget (t : Target) (bits : UInt32) (d : Digest) :
    (ofTarget t bits).precheck d = decide (t.MayBeMetBy d.blockHash) := by
  refine decide_eq_decide.2 ?_
  rw [Target.MayBeMetBy, ← Digest.toNat_topWord, ← Target.toNat_topWord]
  exact UInt32.le_iff_toNat_le

theorem precheck_of_isMetBy {t : Target} {d : Digest} (h : t.isMetBy d.blockHash = true) (bits : UInt32) :
    (ofTarget t bits).precheck d = true := by
  rw [precheck_ofTarget, decide_eq_true_iff]
  exact Target.mayBeMetBy_of_isMetBy h

/-- Below 224 bits a target has no leading bits, so the cheap test asks for the last word to be zero. -/
theorem precheck_iff_of_lt {t : Target} (ht : t.toNat < 2 ^ 224) (bits : UInt32) (d : Digest) :
    (ofTarget t bits).precheck d = true ↔ d.words.get 7 = 0 := by
  rw [precheck_ofTarget, decide_eq_true_iff, Target.MayBeMetBy, Nat.div_eq_of_lt ht, Nat.le_zero,
    ← Digest.toNat_topWord, ← Digest.topWord_eq_zero_iff, ← UInt32.toNat_inj]
  rfl

theorem check_eq {f : Filter} {node : Node σ} {d : Digest} {w : World σ} {good : Bool}
    (h : (node (.proofOfWork d.blockHash f.bits) w.node).answer = some good) (who : Thread) :
    f.check node who d w =
      (some (if good then some d.blockHash else none), (w.call node who (.proofOfWork d.blockHash f.bits)).2) := by
  rw [← w.call_fst node who] at h
  simp only [check, h, Option.map_some]

end Filter

/-- The cheap test lets every digest through whose hash meets the target; for a target below 224 bits these are the
digests with the last word zero. With a node that goes by the compact target, the full test has a result, and a digest
passes both tests exactly if its hash meets the target, which the full test then gives. -/
theorem filter_exact (node : Node σ) (hnode : ChecksByBits node) (who : Thread) (world : World σ) (t : Target)
    (bits : UInt32) (d : Digest) :
    let f := Filter.ofTarget (Target.ofBits bits) bits
    (t.isMetBy d.blockHash = true → (Filter.ofTarget t bits).precheck d = true) ∧
    (t.toNat < 2 ^ 224 → ((Filter.ofTarget t bits).precheck d = true ↔ d.words.get 7 = 0)) ∧
    (f.check node who d world).1.isSome ∧
    (f.precheck d = true ∧ (∃ hash, (f.check node who d world).1 = some (some hash)) ↔
      (Target.ofBits bits).isMetBy d.blockHash = true) ∧
    ∀ hash, (f.check node who d world).1 = some (some hash) → hash = d.blockHash := by
  intro f
  have hcheck : (f.check node who d world).1 =
      some (if (Target.ofBits bits).isMetBy d.blockHash then some d.blockHash else none) := by
    rw [Filter.check_eq (hnode _ _ _) who]
    rfl
  refine ⟨fun hmet => Filter.precheck_of_isMetBy hmet bits, fun ht => Filter.precheck_iff_of_lt ht bits d, ?_, ?_, ?_⟩
  · rw [hcheck]
    rfl
  · rw [hcheck]
    constructor
    · rintro ⟨-, hash, hhash⟩
      by_contra hmiss
      simp [hmiss] at hhash
    · intro hmet
      exact ⟨Filter.precheck_of_isMetBy hmet bits, d.blockHash, by simp [hmet]⟩
  · intro hash hhash
    rw [hcheck] at hhash
    split at hhash
    · simpa using hhash.symm
    · simp at hhash

/-- A digest with its last two words zero, and a local node with the target of difficulty one. -/
theorem filter_exact_localNode :
    let node : LocalNode := { bits := 0x1d00ffff, clock := fun _ => 1700000000 }
    let t := Target.ofBits 0x1d00ffff
    let f := Filter.ofTarget t 0x1d00ffff
    let d : Digest := ⟨#v[1, 2, 3, 4, 5, 6, 0, 0]⟩
    ChecksByBits LocalNode.answer ∧ t.isMetBy d.blockHash = true ∧ t.toNat < 2 ^ 224 ∧
      f.precheck d = true ∧ d.words.get 7 = 0 ∧
      (f.check LocalNode.answer .session d { node }).1 = some (some d.blockHash) := by
  intro node t f d
  have hmet : t.isMetBy d.blockHash = true := by decide +kernel
  have hlt : t.toNat < 2 ^ 224 := by decide +kernel
  obtain ⟨hpre, hzero, -, hboth, hsame⟩ :=
    filter_exact LocalNode.answer LocalNode.checksByBits .session { node } t 0x1d00ffff d
  obtain ⟨-, hash, hhash⟩ := hboth.2 hmet
  rw [hsame hash hhash] at hhash
  exact ⟨LocalNode.checksByBits, hmet, hlt, hpre hmet, (hzero hlt).1 (hpre hmet), hhash⟩

end HeaderMiner
