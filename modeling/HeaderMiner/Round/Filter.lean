import HeaderMiner.Engine.Basic
import HeaderMiner.World

/-!
# The two tests of a digest

Most digests fail a comparison of their leading 32 bits with those of the target: a hash that is not
larger than the target cannot have larger leading bits. The few that pass go to the node, whose word
is final.
-/

namespace HeaderMiner

structure Filter where
  /-- The leading bits of the target. -/
  ceiling : UInt32
  /-- The target that the node is asked about, in compact form. -/
  bits : UInt32
deriving DecidableEq

namespace Filter

def ofTarget (t : Target) (bits : UInt32) : Filter := ⟨t.topWord, bits⟩

def ofWork (work : Work) : Filter := ofTarget work.target work.header.bits

/-- The cheap test. -/
def precheck (f : Filter) (d : Digest) : Bool := d.topWord ≤ f.ceiling

/-- The full test: the digest's hash if the node finds it good. There is no result at all if the node
crashes the calling thread. -/
def check {σ : Type} (f : Filter) (node : Node σ) (who : Thread) (d : Digest) (w : World σ) :
    Option (Option BlockHash) × World σ :=
  let hash := d.blockHash
  let (answer, w) := w.call node who (.proofOfWork hash f.bits)
  (answer.map fun good => if good then some hash else none, w)

end Filter

end HeaderMiner
