import HeaderMiner.Proofs.Node.Local
import Mathlib

/-!
# Operations on a local node

A local node can be asked anything, and its owner can advance its chain and change its target and its peers. Whatever
is done with it, the chain grows by the blocks of `added`: the headers that it took, and the blocks mined elsewhere
(`tip_run`). A header is taken if it builds on the tip and meets the current target, and else nothing changes.
-/

namespace HeaderMiner.LocalNode

inductive Operation where
  | ask (r : Request)
  /-- A block is mined elsewhere. -/
  | advance
  | setBits (bits : UInt32)
  | setPeers (peers : Bool)
deriving DecidableEq

def perform (n : LocalNode) : Operation → LocalNode
  | .ask r => (answer r n).state
  | .advance => n.advance
  | .setBits bits => { n with bits }
  | .setPeers peers => { n with peers }

def run (n : LocalNode) (ops : List Operation) : LocalNode := ops.foldl perform n

/-- The hash of the header that an operation hands in, if the node answers that it has taken it. -/
def took? (n : LocalNode) : Operation → Option BlockHash
  | .ask (.submit header) =>
    match (answer (.submit header) n).answer with
    | some (.ok true) => some header.hash
    | _ => none
  | _ => none

/-- The block that an operation adds to the chain, if any. -/
def adds? (n : LocalNode) : Operation → Option BlockHash
  | .advance => some n.advance.tip
  | op => n.took? op

/-- What the operations give, each on the node that it meets. -/
def gather (f : LocalNode → Operation → Option BlockHash) (n : LocalNode) : List Operation → List BlockHash
  | [] => []
  | op :: ops => (f n op).toList ++ gather f (n.perform op) ops

/-- The hashes of the headers that were taken, oldest first. -/
def took (n : LocalNode) (ops : List Operation) : List BlockHash := n.gather took? ops

variable {n start : LocalNode} {ops : List Operation} {op : Operation} {header : Header}

theorem run_concat (n : LocalNode) (ops : List Operation) (op : Operation) :
    n.run (ops ++ [op]) = (n.run ops).perform op := by
  simp [run]

theorem gather_concat (f : LocalNode → Operation → Option BlockHash) (n : LocalNode) (ops : List Operation)
    (op : Operation) : n.gather f (ops ++ [op]) = n.gather f ops ++ (f (n.run ops) op).toList := by
  induction ops generalizing n with
  | nil => simp [gather, run]
  | cons x xs ih => simp [gather, ih, run]

theorem state_submit_of_taken (h : n.judge header = .accepted) :
    (answer (.submit header) n).state =
      { n with tip := header.hash, height := n.height + 1, accepted := n.accepted ++ [header.hash] } := by
  simp only [answer, submit_of_accepted h]

theorem state_submit_of_refused (h : n.judge header ≠ .accepted) : (answer (.submit header) n).state = n := by
  simp only [answer, submit_of_refused h]

/-- What an operation can do to the chain of a node. -/
inductive Performs (n : LocalNode) : Operation → LocalNode → Prop
  | takes (header : Header) (h : n.judge header = .accepted) :
      Performs n (.ask (.submit header))
        { n with tip := header.hash, height := n.height + 1, accepted := n.accepted ++ [header.hash] }
  | advances : Performs n .advance n.advance
  | keeps {op : Operation} {n' : LocalNode} (htook : n.took? op = none) (hop : op ≠ .advance) (htip : n'.tip = n.tip)
      (hheight : n'.height = n.height) (haccepted : n'.accepted = n.accepted) : Performs n op n'

theorem performs (n : LocalNode) (op : Operation) : n.Performs op (n.perform op) := by
  rcases op with r | _ | _ | _
  · cases r with
    | submit header =>
      by_cases h : n.judge header = .accepted
      · rw [perform, state_submit_of_taken h]
        exact .takes header h
      · have hanswer : (answer (.submit header) n).answer = some (.ok false) := by simp [answer_submit, h]
        rw [perform, state_submit_of_refused h]
        exact .keeps (by simp only [took?, hanswer]) (by simp) rfl rfl rfl
    | template payout reference => exact .keeps rfl (by simp) rfl rfl rfl
    | _ => exact .keeps rfl (by simp) rfl rfl rfl
  · exact .advances
  all_goals exact .keeps rfl (by simp) rfl rfl rfl

namespace Performs

variable {n' : LocalNode}

theorem took?_of_accepted (h : n.judge header = .accepted) : n.took? (.ask (.submit header)) = some header.hash := by
  simp only [took?, answer_submit, h, decide_true]

theorem accepted (h : n.Performs op n') : n'.accepted = n.accepted ++ (n.took? op).toList := by
  cases h with
  | takes header h => simp [took?_of_accepted h]
  | advances => simp [took?, advance]
  | keeps htook _ _ _ haccepted => simp [htook, haccepted]

theorem height (h : n.Performs op n') :
    n'.height = n.height + UInt64.ofNat ([op].count .advance + (n.took? op).toList.length) := by
  cases h with
  | takes header h => simp [took?_of_accepted h]
  | advances => simp [took?, advance]
  | keeps htook hop _ hheight _ => simp [htook, hop, hheight]

theorem tip (h : n.Performs op n') : n'.tip = (n.adds? op).getD n.tip := by
  cases h with
  | takes header h => simp [adds?, took?_of_accepted h]
  | advances => simp [adds?]
  | keeps htook hop htip _ _ => simp [adds?, htook, htip]

end Performs

end HeaderMiner.LocalNode
