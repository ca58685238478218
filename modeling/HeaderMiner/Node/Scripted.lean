import HeaderMiner.Node.Local

/-!
# Nodes that follow a script

A scripted node answers from queues, one for each query, and asks a local node where a queue is empty
or skips an answer. At chosen calls it also triggers the interrupt, lets the local chain advance, or
crashes the calling thread. With it any course of a session can be set up.
-/

namespace HeaderMiner

/-- The script of one query. Calls are counted from one. -/
structure Script (α : Type) where
  calls : Nat := 0
  interruptOn : List Nat := []
  /-- Calls before which a block is mined elsewhere. -/
  advanceOn : List Nat := []
  crashOn : List Nat := []
  /-- The next answers; `none` leaves a call to the local node. -/
  answers : List (Option α) := []

structure ScriptedNode where
  base : LocalNode
  scripts : (q : Query) → Script q.Answer

namespace ScriptedNode

def ofLocal (n : LocalNode) : ScriptedNode := ⟨n, fun _ => {}⟩

def setScript (n : ScriptedNode) (q : Query) (s : Script q.Answer) : ScriptedNode :=
  { n with scripts := fun q' => if h : q' = q then h ▸ s else n.scripts q' }

/-- The node's answers. A call that crashes takes no answer from its queue. -/
def answer : Node ScriptedNode := fun r n =>
  let script := n.scripts r.query
  let call := script.calls + 1
  let interrupts : Bool := call ∈ script.interruptOn
  let advances : Bool := call ∈ script.advanceOn
  let base := if advances then n.base.advance else n.base
  let notices := if advances then [base.advanceNotice] else []
  let next (answers : List (Option r.Answer)) (base : LocalNode) : ScriptedNode :=
    { n with base }.setScript r.query { script with calls := call, answers }
  if call ∈ script.crashOn then
    { state := next script.answers base, answer := none, interrupts, notices }
  else
    match script.answers with
    | some a :: rest => { state := next rest base, answer := some a, interrupts, notices }
    | rest =>
      let reply := LocalNode.answer r base
      { state := next rest.tail reply.state
        answer := reply.answer
        interrupts
        notices := notices ++ reply.notices }

end ScriptedNode

end HeaderMiner
