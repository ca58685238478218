import HeaderMiner.Node.Basic

/-!
# A node without a network

`LocalNode` keeps a chain tip of its own and takes every header that builds on it and meets the current
target. Each template pays a fresh coinbase, which ends in the height and a counter of templates, so no
two templates of a node hash the same coinbase text.
-/

namespace HeaderMiner

structure LocalNode where
  tip : BlockHash := BlockHash.zero
  height : UInt64 := 0
  /-- The target that headers have to carry, in compact form. -/
  bits : UInt32
  /-- The hashes of accepted headers, oldest first. -/
  accepted : List BlockHash := []
  peers : Bool := true
  templates : UInt64 := 0
  /-- What the clock shows at each reading, in their order. -/
  clock : Nat → UInt32
  readings : Nat := 0

inductive Verdict where
  | accepted
  /-- The header does not build on the tip. -/
  | stale
  /-- The header carries another target, or does not meet it. -/
  | insufficientWork
deriving DecidableEq, Repr

namespace LocalNode

def templateVersion : Int32 := 0x20000000

/-- The current beat reference, which hashes the tip. -/
def referenceHash (n : LocalNode) : BlockHash :=
  BlockHash.ofMessage (Hex.utf8 "beat" ++ n.tip.bytes.toList)

def readClock (n : LocalNode) : UInt32 × LocalNode :=
  (n.clock n.readings, { n with readings := n.readings + 1 })

/-- The text whose hash is the merkle root of the next template. -/
def coinbase (n : LocalNode) (payout : String) : List UInt8 :=
  Hex.utf8 payout ++ (Bytes.ofDoubleWordLE (n.height + 1)).toList ++
    (Bytes.ofDoubleWordLE n.templates).toList

def template (n : LocalNode) (payout : String) (reference : BlockHash) : Work × LocalNode :=
  let (time, after) := { n with templates := n.templates + 1 }.readClock
  let header : Header := {
    version := templateVersion
    prevBlockHash := n.tip.bytes
    merkleRoot := Sha256.doubleHash (n.coinbase payout)
    referenceHash := reference.bytes
    time
    bits := n.bits
    nonce := 0 }
  (Work.ofHeader header, after)

def judge (n : LocalNode) (h : Header) : Verdict :=
  if h.prevBlockHash ≠ n.tip.bytes then .stale
  else if h.bits ≠ n.bits ∨ ¬meetsBits h.hash h.bits then .insufficientWork
  else .accepted

/-- Judges a header; an accepted one becomes the tip. -/
def submit (n : LocalNode) (h : Header) : Verdict × LocalNode :=
  match n.judge h with
  | .accepted =>
    (.accepted,
      { n with tip := h.hash, height := n.height + 1, accepted := n.accepted ++ [h.hash] })
  | verdict => (verdict, n)

def verdictNotices (n : LocalNode) (h : Header) : Verdict → List Notice
  | .accepted => []
  | .stale => [.staleHeader h.hash n.tip]
  | .insufficientWork => [.insufficientWork h.hash]

/-- Extends the chain by a block mined elsewhere. -/
def advance (n : LocalNode) : LocalNode :=
  { n with
    tip := BlockHash.ofMessage (n.tip.bytes.toList ++ (Bytes.ofDoubleWordLE n.height).toList)
    height := n.height + 1 }

/-- What the advance to a node's present tip writes to the log. -/
def advanceNotice (n : LocalNode) : Notice := .externalBlock n.tip n.height

def answer : Node LocalNode
  | .reference, n => { state := n, answer := some (.ok n.referenceHash) }
  | .template payout reference, n =>
    let (work, n) := n.template payout reference
    { state := n, answer := some (.ok work) }
  | .proofOfWork hash bits, n => { state := n, answer := some (meetsBits hash bits) }
  | .submit header, n =>
    let (verdict, after) := n.submit header
    { state := after
      answer := some (.ok (verdict = .accepted))
      notices := n.verdictNotices header verdict }
  | .tip, n => { state := n, answer := some (some n.tip) }
  | .height, n => { state := n, answer := some n.height }
  | .peers, n => { state := n, answer := some n.peers }
  | .time, n =>
    let (time, n) := n.readClock
    { state := n, answer := some time }

end LocalNode

end HeaderMiner
