import HeaderMiner.Notice

/-!
# Nodes

The miner knows the network through a node: it builds headers, checks and takes solved ones, and
tells the chain's tip and height, the presence of peers and the time. A node is a function that
answers requests and may change its state with each; nothing else is assumed of it. A call can also
crash the calling thread, trigger the process interrupt and write notices.
-/

namespace HeaderMiner

inductive Query where
  | reference | template | proofOfWork | submit | tip | height | peers | time
deriving DecidableEq, Repr

@[reducible] def Query.Answer : Query → Type
  | .reference => Except NodeFailure BlockHash
  | .template => Except NodeFailure Work
  | .proofOfWork => Bool
  | .submit => Except NodeFailure Bool
  | .tip => Option BlockHash
  | .height => UInt64
  | .peers => Bool
  | .time => UInt32

inductive Request where
  /-- The beat reference that new headers commit to. -/
  | reference
  /-- A header that pays `payout` and commits to `reference`. -/
  | template (payout : String) (reference : BlockHash)
  /-- Whether the hash meets the target of `bits`. -/
  | proofOfWork (hash : BlockHash) (bits : UInt32)
  /-- Takes a solved header; the answer is whether it was accepted. -/
  | submit (header : Header)
  /-- The hash of the chain's tip, if the node can tell. -/
  | tip
  | height
  | peers
  /-- Seconds since 1970, adjusted to the network. -/
  | time
deriving DecidableEq

@[reducible] def Request.query : Request → Query
  | .reference => .reference
  | .template .. => .template
  | .proofOfWork .. => .proofOfWork
  | .submit _ => .submit
  | .tip => .tip
  | .height => .height
  | .peers => .peers
  | .time => .time

abbrev Request.Answer (r : Request) : Type := r.query.Answer

/-- What a call of a node leads to. -/
structure Reply (σ α : Type) where
  state : σ
  /-- The answer, or `none` if the call crashed the calling thread. -/
  answer : Option α
  /-- The call triggered the process interrupt. -/
  interrupts : Bool := false
  /-- What the node wrote to the log during the call. -/
  notices : List Notice := []

abbrev Node (σ : Type) := (r : Request) → σ → Reply σ r.Answer

/-- The proof-of-work check of a node without rules of its own. -/
def meetsBits (hash : BlockHash) (bits : UInt32) : Bool := (Target.ofBits bits).isMetBy hash

end HeaderMiner
