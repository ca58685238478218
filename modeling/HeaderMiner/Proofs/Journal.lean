import HeaderMiner.World
import Mathlib

/-!
# The journal of a run

Nothing is ever taken out of the journal: a call, a notice and a pause append to it. The entries since some
moment are `World.since`; among them, `calls` are the requests with their answers, and `readings` the times
that a thread was told. What a step has the node do is `World.Serves`, and `Served` what the calls of a run have made
of the node.
-/

namespace HeaderMiner

variable {σ α β : Type}

/-- The time that a thread was told, if the entry is such an answer. -/
def Entry.reading (who : Thread) : Entry → Option UInt32
  | .called who' .time t => if who' = who then some t else none
  | _ => none

/-- The times that a thread was told, oldest first. -/
def readings (who : Thread) (entries : List Entry) : List UInt32 := entries.filterMap (·.reading who)

@[simp] theorem readings_nil (who : Thread) : readings who [] = [] := rfl

@[simp] theorem readings_append (who : Thread) (xs ys : List Entry) :
    readings who (xs ++ ys) = readings who xs ++ readings who ys :=
  List.filterMap_append

@[simp] theorem readings_logged (who : Thread) (notices : List Notice) :
    readings who (notices.map .logged) = [] := by
  induction notices with
  | nil => rfl
  | cons n ns ih => exact ih

theorem readings_eq_nil {who : Thread} {entries : List Entry}
    (h : ∀ t, .called who .time t ∉ entries) : readings who entries = [] := by
  refine List.filterMap_eq_nil_iff.2 fun e he => ?_
  unfold Entry.reading
  split
  · rename_i who' t
    refine if_neg fun hw => ?_
    subst hw
    exact h t he
  · rfl

/-- A request that was answered. -/
structure Call where
  who : Thread
  request : Request
  answer : request.Answer

def Entry.call? : Entry → Option Call
  | .called who request answer => some ⟨who, request, answer⟩
  | _ => none

/-- The answered requests among the entries, oldest first. -/
def calls (entries : List Entry) : List Call := entries.filterMap Entry.call?

@[simp] theorem calls_nil : calls [] = [] := rfl

@[simp] theorem calls_append (xs ys : List Entry) : calls (xs ++ ys) = calls xs ++ calls ys :=
  List.filterMap_append

@[simp] theorem calls_logged (notices : List Notice) : calls (notices.map .logged) = [] := by
  induction notices with
  | nil => rfl
  | cons n ns ih => exact ih

/-- The time that a thread was told by a call. -/
def Call.reading (who : Thread) : Call → Option UInt32
  | ⟨who', .time, t⟩ => if who' = who then some t else none
  | _ => none

theorem readings_eq_calls (who : Thread) (entries : List Entry) :
    readings who entries = (calls entries).filterMap (·.reading who) := by
  rw [readings, calls, List.filterMap_filterMap]
  congr 1
  funext e
  cases e with
  | called who' r a => cases r <;> rfl
  | logged | slept => rfl

theorem mem_calls {entries : List Entry} {who : Thread} {r : Request} {a : r.Answer} :
    ⟨who, r, a⟩ ∈ calls entries ↔ .called who r a ∈ entries := by
  rw [calls, List.mem_filterMap]
  constructor
  · rintro ⟨e, he, hcall⟩
    cases e with
    | called who' r' a' =>
      cases hcall
      exact he
    | logged | slept => cases hcall
  · intro h
    exact ⟨_, h, rfl⟩

/-- The header that a call handed in, with the node's answer. -/
def Call.submission? : Call → Option (Header × Except NodeFailure Bool)
  | ⟨_, .submit header, answer⟩ => some (header, answer)
  | _ => none

/-- The headers that were handed in, with the node's answers, oldest first. -/
def submissions (called : List Call) : List (Header × Except NodeFailure Bool) := called.filterMap Call.submission?

@[simp] theorem submissions_append (xs ys : List Call) : submissions (xs ++ ys) = submissions xs ++ submissions ys :=
  List.filterMap_append

theorem Call.submission?_eq_none (call : Call) (h : call.request.query ≠ .submit) : call.submission? = none := by
  obtain ⟨who, request, answer⟩ := call
  cases request with
  | submit => exact absurd rfl h
  | _ => rfl

theorem mem_submissions {called : List Call} {header : Header} {answer : Except NodeFailure Bool}
    (h : (header, answer) ∈ submissions called) : ∃ who, ⟨who, .submit header, answer⟩ ∈ called := by
  obtain ⟨⟨who, request, given⟩, hcall, hsubmission⟩ := List.mem_filterMap.1 h
  unfold Call.submission? at hsubmission
  split at hsubmission
  · rename_i heq
    cases heq
    cases hsubmission
    exact ⟨_, hcall⟩
  · cases hsubmission

/-- The headers that the node took, oldest first. -/
def taken (called : List Call) : List Header :=
  (submissions called).filterMap fun
    | (header, .ok true) => some header
    | _ => none

@[simp] theorem taken_append (xs ys : List Call) : taken (xs ++ ys) = taken xs ++ taken ys := by
  rw [taken, submissions_append, List.filterMap_append, taken, taken]

namespace World

variable (w : World σ)

/-- The entries written since the journal had `start` of them. -/
def since (start : Nat) : List Entry := w.journal.toList.drop start

theorem since_self : w.since w.journal.size = [] := by
  simp [since]

theorem since_append {w w' : World σ} {start : Nat} {new : List Entry} (hs : start ≤ w.journal.size)
    (h : w'.journal.toList = w.journal.toList ++ new) : w'.since start = w.since start ++ new := by
  rw [since, h, List.drop_append_of_le_length (by simpa using hs), since]

/-- The entries of a call: the node's notices and the answer, if there is one. -/
def callEntries (node : Node σ) (who : Thread) (r : Request) : List Entry :=
  (node r w.node).notices.map .logged ++ ((node r w.node).answer.map (Entry.called who r)).toList

theorem call_fst (node : Node σ) (who : Thread) (r : Request) :
    (w.call node who r).1 = (node r w.node).answer := by
  unfold call
  cases h : (node r w.node).answer <;> simp [h]

@[simp] theorem journal_call (node : Node σ) (who : Thread) (r : Request) :
    (w.call node who r).2.journal.toList = w.journal.toList ++ w.callEntries node who r := by
  unfold call callEntries
  cases h : (node r w.node).answer <;> simp [h]

@[simp] theorem node_call (node : Node σ) (who : Thread) (r : Request) :
    (w.call node who r).2.node = (node r w.node).state := by
  unfold call
  cases h : (node r w.node).answer <;> simp [h]

@[simp] theorem interrupted_call (node : Node σ) (who : Thread) (r : Request) :
    (w.call node who r).2.interrupted = (w.interrupted || (node r w.node).interrupts) := by
  unfold call
  cases h : (node r w.node).answer <;> simp [h]

@[simp] theorem journal_log (n : Notice) :
    (w.log n).journal.toList = w.journal.toList ++ [.logged n] := by
  simp [log]

@[simp] theorem journal_sleep (who : Thread) (ms : UInt64) :
    (w.sleep who ms).journal.toList = w.journal.toList ++ [.slept who ms] := by
  simp [sleep]

theorem called_mem_callEntries {node : Node σ} {who who' : Thread} {r r' : Request} {a : r'.Answer}
    (h : .called who' r' a ∈ w.callEntries node who r) : who' = who ∧ r' = r := by
  rw [callEntries, List.mem_append] at h
  rcases h with h | h
  · obtain ⟨n, _, hn⟩ := List.mem_map.1 h
    cases hn
  · cases ha : (node r w.node).answer with
    | none => rw [ha] at h; cases h
    | some b =>
      rw [ha] at h
      cases List.mem_singleton.1 h
      exact ⟨rfl, rfl⟩

theorem readings_callEntries (node : Node σ) (who who' : Thread) {r : Request} (hr : r ≠ .time) :
    readings who' (w.callEntries node who r) = [] :=
  readings_eq_nil fun _ ht => hr (called_mem_callEntries w ht).2.symm

theorem readings_callEntries_time {node : Node σ} {who : Thread} {t : UInt32}
    (h : (w.call node who .time).1 = some t) :
    readings who (w.callEntries node who .time) = [t] := by
  rw [call_fst] at h
  rw [callEntries, h, readings_append, readings_logged]
  exact List.filterMap_cons_some (if_pos rfl)

/-- In the second world the node has answered the request, if there is one, and nothing else has changed it or the
interrupt. -/
def Asks (node : Node σ) (request? : Option Request) (w w' : World σ) : Prop :=
  match request? with
  | none => w'.node = w.node ∧ w'.interrupted = w.interrupted
  | some r => w'.node = (node r w.node).state ∧
      w'.interrupted = (w.interrupted || (node r w.node).interrupts)

theorem asks_none (node : Node σ) : w.Asks node none w := ⟨rfl, rfl⟩

theorem asks_call (node : Node σ) (who : Thread) (r : Request) : w.Asks node (some r) (w.call node who r).2 :=
  ⟨node_call w node who r, interrupted_call w node who r⟩

theorem asks_of_call {node : Node σ} {who : Thread} {r : Request} {answer : Option r.Answer} {w' : World σ}
    (h : w.call node who r = (answer, w')) : w.Asks node (some r) w' := by
  have hasks := w.asks_call node who r
  rw [h] at hasks
  exact hasks

theorem Asks.interrupted_eq {w w' : World σ} {node : Node σ} {request? : Option Request}
    (h : w.Asks node request? w') :
    w'.interrupted = (w.interrupted || request?.any fun r => (node r w.node).interrupts) := by
  cases request? with
  | none => exact h.2.trans (Bool.or_false _).symm
  | some r => exact h.2

theorem Asks.interrupted {w w' : World σ} {node : Node σ} {request? : Option Request} (h : w.Asks node request? w')
    (hw : w.interrupted = true) : w'.interrupted = true := by
  rw [h.interrupted_eq, hw, Bool.true_or]

theorem calls_callEntries (node : Node σ) (who : Thread) (r : Request) :
    calls (w.callEntries node who r) = ((node r w.node).answer.map (Call.mk who r)).toList := by
  rw [callEntries, calls_append, calls_logged, List.nil_append]
  cases (node r w.node).answer <;> rfl

/-- After a call that is followed by entries without calls, the answer is the one new call. -/
theorem calls_of_call {node : Node σ} {who : Thread} {r : Request} {answer : Option r.Answer} {w' w'' : World σ}
    (hcall : w.call node who r = (answer, w')) {after : List Entry}
    (hw'' : w''.journal.toList = w'.journal.toList ++ after) (hafter : calls after = []) :
    ∃ new, w''.journal.toList = w.journal.toList ++ new ∧ calls new = (answer.map (Call.mk who r)).toList := by
  have hanswer : (node r w.node).answer = answer := by
    rw [← w.call_fst node who r, hcall]
  have hw' := w.journal_call node who r
  rw [hcall] at hw'
  refine ⟨w.callEntries node who r ++ after, ?_, ?_⟩
  · rw [hw'', hw', List.append_assoc]
  · rw [calls_append, calls_callEntries, hafter, hanswer, List.append_nil]

/-- The request of a thread with the node's answer, if there are any. -/
def answered (node : Node σ) (who : Thread) (request? : Option Request) : List Call :=
  (request?.bind fun r => (node r w.node).answer.map (Call.mk who r)).toList

@[simp] theorem answered_none (node : Node σ) (who : Thread) : w.answered node who none = [] := rfl

theorem answered_call {node : Node σ} {who : Thread} {r : Request} {answer : Option r.Answer} {w' : World σ}
    (hcall : w.call node who r = (answer, w')) :
    w.answered node who (some r) = (answer.map (Call.mk who r)).toList := by
  rw [answered, Option.bind_some, ← w.call_fst node who r, hcall]

theorem mem_answered {node : Node σ} {who : Thread} {request? : Option Request} {call : Call}
    (h : call ∈ w.answered node who request?) : call.who = who ∧ request? = some call.request ∧
      (node call.request w.node).answer = some call.answer := by
  rw [answered, Option.mem_toList, Option.bind_eq_some_iff] at h
  obtain ⟨r, hr, hcall⟩ := h
  obtain ⟨answer, hanswer, rfl⟩ := Option.map_eq_some_iff.1 hcall
  exact ⟨rfl, hr, hanswer⟩

/-- In the second world time has passed and the process may have been interrupted. -/
structure Rests (w w' : World σ) : Prop where
  node : w'.node = w.node
  journal : w'.journal = w.journal
  interrupted : w.interrupted = true → w'.interrupted = true

theorem Rests.refl (w : World σ) : w.Rests w := ⟨rfl, rfl, id⟩

theorem Rests.trans {w w' w'' : World σ} (h : w.Rests w') (h' : w'.Rests w'') : w.Rests w'' :=
  ⟨h'.node.trans h.node, h'.journal.trans h.journal, fun hint => h'.interrupted (h.interrupted hint)⟩

/-- From the first world to the second the node has served the request, if there is one, and nothing else. The journal
has grown by the answered request, and by entries that are no calls. -/
structure Serves (node : Node σ) (who : Thread) (request? : Option Request) (w w' : World σ) : Prop where
  state : w'.node = request?.elim w.node fun r => (node r w.node).state
  interrupted : w.interrupted = true → w'.interrupted = true
  journal : ∃ new, w'.journal.toList = w.journal.toList ++ new ∧ calls new = w.answered node who request?

theorem Rests.serves {w w' : World σ} (h : w.Rests w') (node : Node σ) (who : Thread) : w.Serves node who none w' :=
  ⟨h.node, h.interrupted, [], by rw [h.journal, List.append_nil], rfl⟩

theorem serves_call {node : Node σ} {who : Thread} {r : Request} {answer : Option r.Answer} {w' : World σ}
    (hcall : w.call node who r = (answer, w')) : w.Serves node who (some r) w' := by
  obtain rfl : (w.call node who r).2 = w' := by rw [hcall]
  exact ⟨w.node_call node who r, (w.asks_call node who r).interrupted, _, w.journal_call node who r,
    w.calls_callEntries node who r⟩

namespace Serves

variable {w w' : World σ} {node : Node σ} {who : Thread} {request? : Option Request} {start : Nat}

theorem append (h : w.Serves node who request? w') {w'' : World σ} (hnode : w''.node = w'.node)
    (hinterrupted : w''.interrupted = w'.interrupted) {after : List Entry}
    (hjournal : w''.journal.toList = w'.journal.toList ++ after) (hafter : calls after = []) :
    w.Serves node who request? w'' := by
  obtain ⟨hstate, hint, new, hnew, hcalls⟩ := h
  refine ⟨hnode.trans hstate, fun hw => hinterrupted.trans (hint hw), new ++ after, ?_, ?_⟩
  · rw [hjournal, hnew, List.append_assoc]
  · rw [calls_append, hafter, List.append_nil, hcalls]

theorem log (h : w.Serves node who request? w') (n : Notice) : w.Serves node who request? (w'.log n) :=
  h.append rfl rfl (w'.journal_log n) rfl

theorem sleep (h : w.Serves node who request? w') (who' : Thread) (ms : UInt64) :
    w.Serves node who request? (w'.sleep who' ms) :=
  h.append rfl rfl (w'.journal_sleep who' ms) rfl

theorem calls_eq (h : w.Serves node who request? w') {new : List Entry}
    (hnew : w'.journal.toList = w.journal.toList ++ new) : calls new = w.answered node who request? := by
  obtain ⟨-, -, new', hnew', hcalls⟩ := h
  obtain rfl := List.append_cancel_left (hnew.symm.trans hnew')
  exact hcalls

theorem size_le (h : w.Serves node who request? w') : w.journal.size ≤ w'.journal.size := by
  obtain ⟨-, -, new, hjournal, -⟩ := h
  rw [← Array.length_toList, ← Array.length_toList, hjournal, List.length_append]
  exact Nat.le_add_right _ _

theorem calls_since (h : w.Serves node who request? w') (hs : start ≤ w.journal.size) :
    calls (w'.since start) = calls (w.since start) ++ w.answered node who request? := by
  obtain ⟨-, -, new, hjournal, hcalls⟩ := h
  rw [since_append hs hjournal, calls_append, hcalls]

end Serves

end World

/-- A node has come from one state to another by serving requests, with these calls answered. -/
inductive Served (node : Node σ) (start : σ) : List Call → σ → Prop
  | start : Served node start [] start
  | call {called : List Call} {state : σ} (h : Served node start called state) (who : Thread) (r : Request) :
      Served node start (called ++ ((node r state).answer.map (Call.mk who r)).toList) (node r state).state

namespace Served

variable {node : Node σ} {start state : σ} {called : List Call}

theorem serves {w w' : World σ} {who : Thread} {request? : Option Request} (h : Served node start called w.node)
    (hserves : w.Serves node who request? w') :
    Served node start (called ++ w.answered node who request?) w'.node := by
  rw [hserves.state]
  cases request? with
  | none =>
    rw [World.answered_none, List.append_nil]
    exact h
  | some r => exact h.call who r

theorem trans {middle : σ} {later : List Call} (h : Served node start called middle)
    (hlater : Served node middle later state) : Served node start (called ++ later) state := by
  induction hlater with
  | start =>
    rw [List.append_nil]
    exact h
  | call _ who r ih =>
    rw [← List.append_assoc]
    exact ih.call who r

/-- A call was answered in the state that the calls before it had led to. -/
theorem answer_eq {call : Call} (h : Served node start called state) (hcall : call ∈ called) :
    ∃ before earlier, before <+: called ∧ Served node start before earlier ∧
      (node call.request earlier).answer = some call.answer := by
  induction h with
  | start => cases hcall
  | @call called state h who r ih =>
    rcases List.mem_append.1 hcall with hcall | hcall
    · obtain ⟨before, earlier, hbefore, hserved, hanswer⟩ := ih hcall
      exact ⟨before, earlier, hbefore.trans (List.prefix_append _ _), hserved, hanswer⟩
    · obtain ⟨answer, hanswer, rfl⟩ := Option.map_eq_some_iff.1 (Option.mem_toList.1 hcall)
      exact ⟨called, state, List.prefix_append _ _, h, hanswer⟩

end Served

namespace Execution

theorem run_append (move : Move σ α β) (e : Execution σ α β) (xs ys : List Event) :
    e.run move (xs ++ ys) = (e.run move xs).run move ys :=
  List.foldl_append

theorem run_concat (move : Move σ α β) (e : Execution σ α β) (events : List Event) (event : Event) :
    e.run move (events ++ [event]) = (e.run move events).next move event := by
  rw [run_append]; rfl

/-- What the events of a run give rise to, each in the execution that it meets. -/
def gather {τ : Type} (move : Move σ α β) (f : Execution σ α β → Event → List τ) (e : Execution σ α β) :
    List Event → List τ
  | [] => []
  | event :: events => f e event ++ gather move f (e.next move event) events

theorem gather_concat {τ : Type} (move : Move σ α β) (f : Execution σ α β → Event → List τ) (e : Execution σ α β)
    (events : List Event) (event : Event) :
    gather move f e (events ++ [event]) = gather move f e events ++ f (e.run move events) event := by
  induction events generalizing e with
  | nil => exact List.append_nil _
  | cons x xs ih =>
    show f e x ++ gather move f (e.next move x) (xs ++ [event]) = _
    rw [ih, ← List.append_assoc]
    rfl

/-- After its end an activity changes nothing any more. -/
theorem next_of_ended {move : Move σ α β} {progress : Progress α β} (hended : ∀ a, progress ≠ .running a)
    (world : World σ) (event : Event) :
    ∃ world', next move ⟨progress, world⟩ event = ⟨progress, world'⟩ ∧ world.Rests world' := by
  cases event with
  | interrupt => exact ⟨_, rfl, rfl, rfl, fun _ => rfl⟩
  | elapse nanos => exact ⟨_, rfl, rfl, rfl, id⟩
  | step who =>
    cases progress with
    | running a => exact absurd rfl (hended a)
    | returned | crashed => exact ⟨_, rfl, rfl, rfl, id⟩

end Execution

end HeaderMiner
