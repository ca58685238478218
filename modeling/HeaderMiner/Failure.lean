/-!
# Failures

What a node reports instead of an answer, and what ends a round or a session.
-/

namespace HeaderMiner

inductive NodeFailure where
  /-- There is no reference to commit to. -/
  | noReference
  | template (reason : String)
  | submit (reason : String)
  | unavailable (reason : String)
deriving DecidableEq

def NodeFailure.message : NodeFailure → String
  | .noReference => "no reference hash available yet"
  | .template reason => "failed to create block template: " ++ reason
  | .submit reason => "failed to submit block: " ++ reason
  | .unavailable reason => "node unavailable: " ++ reason

inductive Failure where
  | config (reason : String)
  /-- The thread of a worker could not be started. -/
  | spawn (worker : Nat)
  /-- The thread of a worker crashed in a call of the node. -/
  | workerCrashed (worker : Nat)
  | node (failure : NodeFailure)
deriving DecidableEq

def Failure.message : Failure → String
  | .config reason => "invalid configuration: " ++ reason
  | .spawn worker => "failed to spawn worker thread " ++ toString worker
  | .workerCrashed worker => "worker thread " ++ toString worker ++ " panicked"
  | .node failure => failure.message

end HeaderMiner
