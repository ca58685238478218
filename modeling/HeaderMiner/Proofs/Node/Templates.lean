import HeaderMiner.Proofs.Header.Serialization
import HeaderMiner.Proofs.Node.Operations
import Mathlib

/-!
# Templates of a local node

The coinbase of a template ends in the number of templates given before it, in eight bytes. Nothing but a template moves
that number, and each moves it on by one (`Numbered`), so no two templates of a node have the same coinbase, whatever is
asked for and whatever happens in between (`templates_differ`).
-/

namespace HeaderMiner

namespace Bytes

theorem toNat_getElem_ofDoubleWordLE (w : UInt64) {i : Nat} (hi : i < 8) :
    (ofDoubleWordLE w)[i].toNat = w.toNat / 2 ^ (8 * i) % 2 ^ 8 := by
  have hshift : (8 * i).toUInt64.toNat % 64 = 8 * i := by
    rw [UInt64.toNat_ofNat']
    omega
  rw [ofDoubleWordLE, Vector.getElem_ofFn, UInt64.toNat_toUInt8, UInt64.toNat_shiftRight, hshift,
    Nat.shiftRight_eq_div_pow]

theorem ofDoubleWordLE_injective : Function.Injective ofDoubleWordLE := by
  intro v w h
  apply UInt64.toNat_inj.1
  -- Bit `k` of a word is bit `k % 8` of its byte `k / 8`.
  refine Nat.eq_of_testBit_eq fun k => ?_
  by_cases hk : k < 64
  · have hbyte : v.toNat / 2 ^ (8 * (k / 8)) % 2 ^ 8 = w.toNat / 2 ^ (8 * (k / 8)) % 2 ^ 8 := by
      rw [← toNat_getElem_ofDoubleWordLE v (by omega), ← toNat_getElem_ofDoubleWordLE w (by omega)]
      simp only [h]
    have hbit := congrArg (Nat.testBit · (k % 8)) hbyte
    have hin : k % 8 < 8 := Nat.mod_lt _ (by decide)
    simpa only [Nat.testBit_mod_two_pow, hin, decide_true, Bool.true_and, Nat.testBit_div_two_pow, Nat.mod_add_div]
      using hbit
  · have hpow : 2 ^ 64 ≤ 2 ^ k := Nat.pow_le_pow_right (by decide) (by omega)
    rw [Nat.testBit_lt_two_pow (v.toNat_lt.trans_le hpow), Nat.testBit_lt_two_pow (w.toNat_lt.trans_le hpow)]

end Bytes

namespace LocalNode

/-- A call for a template: the node that was asked, and what for. -/
structure TemplateCall where
  node : LocalNode
  payout : String
  reference : BlockHash

namespace TemplateCall

/-- The text whose hash is the merkle root of the template. -/
def coinbase (c : TemplateCall) : List UInt8 := c.node.coinbase c.payout

/-- The template that the node answers with. -/
def work (c : TemplateCall) : Work := (c.node.template c.payout c.reference).1

/-- The header that the node builds. -/
def header (c : TemplateCall) : Header where
  version := templateVersion
  prevBlockHash := c.node.tip.bytes
  merkleRoot := Sha256.doubleHash c.coinbase
  referenceHash := c.reference.bytes
  time := c.node.clock c.node.readings
  bits := c.node.bits
  nonce := 0

theorem work_eq (c : TemplateCall) : c.work = Work.ofHeader c.header := rfl

/-- What a template has to carry for a call. -/
structure Carries (c : TemplateCall) (work : Work) : Prop where
  version : work.header.version = templateVersion
  prevBlockHash : work.header.prevBlockHash = c.node.tip
  merkleRoot : work.header.merkleRoot = Sha256.doubleHash c.coinbase
  referenceHash : work.header.referenceHash = c.reference.bytes
  time : work.header.time = c.node.clock c.node.readings
  bits : work.header.bits = c.node.bits
  nonce : work.header.nonce = 0
  target : work.target = Target.ofBits work.header.bits

theorem carries_of_toHeader {c : TemplateCall} {work : Work} (hheader : work.header.toHeader = c.header)
    (htarget : work.target = Target.ofBits c.header.bits) : c.Carries work := by
  simp only [RawHeader.toHeader, header, Header.mk.injEq] at hheader htarget
  obtain ⟨hversion, hparent, hroot, hreference, htime, hbits, hnonce⟩ := hheader
  refine ⟨hversion, congrArg BlockHash.mk hparent, hroot, hreference, htime, hbits, hnonce, ?_⟩
  rw [htarget, hbits]

theorem carries (c : TemplateCall) : c.Carries c.work :=
  carries_of_toHeader (c.work_eq ▸ c.header.toHeader_serialize) (c.work_eq ▸ rfl)

/-- The coinbase tells how many templates the node had given before. -/
theorem templates_eq_of_coinbase_eq {c d : TemplateCall} (h : c.coinbase = d.coinbase) :
    c.node.templates = d.node.templates := by
  rw [coinbase, coinbase, LocalNode.coinbase, LocalNode.coinbase] at h
  obtain ⟨-, hcounter⟩ := List.append_inj' h (Vector.length_toList.trans Vector.length_toList.symm)
  exact Bytes.ofDoubleWordLE_injective (Vector.toList_inj.1 hcounter)

end TemplateCall

def templateCall? (n : LocalNode) : Operation → Option TemplateCall
  | .ask (.template payout reference) => some ⟨n, payout, reference⟩
  | _ => none

/-- The calls for templates among the operations, each on the node that it meets. -/
def templateCalls (n : LocalNode) : List Operation → List TemplateCall
  | [] => []
  | op :: ops => (n.templateCall? op).toList ++ templateCalls (n.perform op) ops

variable {n start : LocalNode} {ops : List Operation} {op : Operation} {calls : List TemplateCall}

theorem templateCalls_concat (n : LocalNode) (ops : List Operation) (op : Operation) :
    n.templateCalls (ops ++ [op]) = n.templateCalls ops ++ ((n.run ops).templateCall? op).toList := by
  induction ops generalizing n with
  | nil => simp [templateCalls, run]
  | cons x xs ih => simp [templateCalls, ih, run]

/-- The templates given from `start` to `n` were numbered one by one. -/
structure Numbered (start : LocalNode) (calls : List TemplateCall) (n : LocalNode) : Prop where
  templates : n.templates = start.templates + UInt64.ofNat calls.length
  numbers : ∀ i c, calls[i]? = some c → c.node.templates = start.templates + UInt64.ofNat i

theorem templates_perform (n : LocalNode) (op : Operation) :
    (n.perform op).templates = n.templates + UInt64.ofNat (n.templateCall? op).toList.length := by
  have hkept {n' : LocalNode} (htemplates : n'.templates = n.templates) (hcall : n.templateCall? op = none) :
      n'.templates = n.templates + UInt64.ofNat (n.templateCall? op).toList.length := by
    rw [hcall, htemplates]
    exact (UInt64.add_zero _).symm
  rcases op with r | _ | bits | peers
  · cases r with
    | template payout reference =>
      have hnext : (n.perform (.ask (.template payout reference))).templates = n.templates + 1 := rfl
      have hone : (n.templateCall? (.ask (.template payout reference))).toList.length = 1 := rfl
      rw [hnext, hone]
      rfl
    | submit header =>
      by_cases h : n.judge header = .accepted
      · rw [perform, state_submit_of_taken h]
        exact hkept rfl rfl
      · rw [perform, state_submit_of_refused h]
        exact hkept rfl rfl
    | _ => exact hkept rfl rfl
  · exact hkept (by rw [perform, advance]) rfl
  · exact hkept rfl rfl
  · exact hkept rfl rfl

theorem node_of_templateCall? {c : TemplateCall} (h : n.templateCall? op = some c) : c.node = n := by
  unfold templateCall? at h
  split at h
  · cases h
    rfl
  · cases h

theorem Numbered.step (h : Numbered start calls n) (op : Operation) :
    Numbered start (calls ++ (n.templateCall? op).toList) (n.perform op) := by
  constructor
  · rw [templates_perform, h.templates, List.length_append, UInt64.ofNat_add, UInt64.add_assoc]
  · intro i c hc
    rcases Nat.lt_or_ge i calls.length with hi | hi
    · rw [List.getElem?_append_left hi] at hc
      exact h.numbers i c hc
    · rw [List.getElem?_append_right hi] at hc
      cases hcall : n.templateCall? op with
      | none => simp [hcall] at hc
      | some d =>
        rw [hcall, Option.toList_some, List.getElem?_singleton] at hc
        split_ifs at hc with hlast
        cases hc
        have hi' : i = calls.length := by omega
        rw [node_of_templateCall? hcall, h.templates, hi']

theorem numbered_run (start : LocalNode) (ops : List Operation) :
    Numbered start (start.templateCalls ops) (start.run ops) := by
  induction ops using List.reverseRecOn with
  | nil => exact ⟨(UInt64.add_zero _).symm, by simp [templateCalls]⟩
  | append_singleton ops op ih =>
    rw [templateCalls_concat, run_concat]
    exact ih.step op

/-- What holds of the templates that a node gives in the course of these operations. -/
structure TemplatesDiffer (start : LocalNode) (ops : List Operation) : Prop where
  coinbases : (start.templateCalls ops).Pairwise fun c d => c.coinbase ≠ d.coinbase
  /-- Templates with one merkle root have two coinbases with one hash. -/
  collision : (start.templateCalls ops).Pairwise fun c d => c.work.header.merkleRoot = d.work.header.merkleRoot →
    c.coinbase ≠ d.coinbase ∧ Sha256.doubleHash c.coinbase = Sha256.doubleHash d.coinbase
  answered : ∀ c ∈ start.templateCalls ops,
    (answer (.template c.payout c.reference) c.node).answer = some (.ok c.work)
  carries : ∀ c ∈ start.templateCalls ops, c.Carries c.work

/-- Whatever is asked of a node, in whatever order, as long as it gives fewer than 2^64 templates, no two of them have
the same coinbase, so if two share a merkle root, then the hash has a collision. Each template carries the tip and the
target of the node at its call, and the reference that was given. -/
theorem templates_differ (start : LocalNode) (ops : List Operation) (h : (start.templateCalls ops).length < 2 ^ 64) :
    start.TemplatesDiffer ops := by
  have hcoinbases : (start.templateCalls ops).Pairwise fun c d => c.coinbase ≠ d.coinbase := by
    rw [List.pairwise_iff_getElem]
    intro i j hi hj hij heq
    have hnumbers := (numbered_run start ops).numbers
    have hsame := TemplateCall.templates_eq_of_coinbase_eq heq
    rw [hnumbers i _ (List.getElem?_eq_getElem hi), hnumbers j _ (List.getElem?_eq_getElem hj),
      UInt64.add_right_inj] at hsame
    have hmod := congrArg UInt64.toNat hsame
    rw [UInt64.toNat_ofNat', UInt64.toNat_ofNat'] at hmod
    omega
  refine ⟨hcoinbases, hcoinbases.imp ?_, fun c _ => rfl, fun c _ => c.carries⟩
  intro c d hne hroot
  rw [c.carries.merkleRoot, d.carries.merkleRoot] at hroot
  exact ⟨hne, hroot⟩

/-- A payout that ends as if the height stood there already. -/
theorem templates_differ_of_payout :
    let start : LocalNode := { bits := 0x207fffff, clock := fun _ => 1700000000 }
    let ops : List Operation := [.ask (.template "a" .zero), .advance, .setBits 0x1d00ffff,
      .ask (.template "a\x02\x00\x00\x00\x00\x00\x00\x00" .zero), .ask (.template "a" .zero)]
    (start.templateCalls ops).length < 2 ^ 64 ∧ start.TemplatesDiffer ops :=
  ⟨by decide, templates_differ _ _ (by decide)⟩

end LocalNode

end HeaderMiner
