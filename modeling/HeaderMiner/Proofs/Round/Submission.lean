import HeaderMiner.Node.Scripted
import HeaderMiner.Proofs.Journal
import HeaderMiner.Round.Submission
import Mathlib

/-!
# The course of a submission

`Submission.Goes` lists the branches of a step, with the calls that the node answers. The looks for peers are bounded,
and the wait between the first and the last of them ends early at the first that finds some (`Waited`). But the last
look alone decides (`last_poll_decides`): a submission that has found peers in its wait, and finds none a moment
later, drops the solution (`dropped_with_peers`).
-/

namespace HeaderMiner

variable {σ : Type}

/-- The answer of a call that looked for peers. -/
def Call.poll? : Call → Option Bool
  | ⟨_, .peers, answer⟩ => some answer
  | _ => none

/-- The header that a call handed in. -/
def Call.header? : Call → Option Header
  | ⟨_, .submit header, _⟩ => some header
  | _ => none

/-- The answers to the looks for peers, oldest first. -/
def polls (entries : List Entry) : List Bool := (calls entries).filterMap Call.poll?

/-- The headers that were handed in, oldest first. -/
def handedIn (entries : List Entry) : List Header := (calls entries).filterMap Call.header?

namespace Submission

/-- The request that the next action of a submission makes. -/
def request? (solution : Solution) : Submission → Option Request
  | .asking | .retrying (_ + 1) | .confirming => some .peers
  | .retrying 0 => none
  | .delivering => some (.submit solution.header.toHeader)

theorem move_asks (config : Config) (node : Node σ) (solution : Solution) (sub : Submission)
    (world : World σ) :
    world.Asks node (sub.request? solution) (sub.move config node solution .session world).2 := by
  cases sub with
  | retrying left =>
    cases left with
    | zero => exact world.asks_none node
    | succ left =>
      simp only [move]
      split
      all_goals
        have hasks := world.asks_of_call ‹_ = (_, _)›
        exact hasks
  | asking | confirming | delivering =>
    simp only [move]
    split
    all_goals
      have hasks := world.asks_of_call ‹_ = (_, _)›
      exact hasks

/-- What becomes of a solution that was handed in. -/
def delivered (answer : Except NodeFailure Bool) : Except NodeFailure Delivery :=
  answer.map fun taken => if taken then .accepted else .rejected

theorem delivered_ne_noPeers (answer : Except NodeFailure Bool) : delivered answer ≠ .ok .noPeers := by
  rcases answer with _ | _ | _ <;> rintro ⟨⟩

/-- The branches of a step: from a submission to what it has become, with the answered calls. -/
inductive Goes (limit : Nat) (solution : Solution) :
    Submission → List Call → Progress Submission (Except NodeFailure Delivery) → Prop
  | crash {sub : Submission} (hsub : (sub.request? solution).isSome) : Goes limit solution sub [] .crashed
  | greet : Goes limit solution .asking [⟨.session, .peers, true⟩] (.running .delivering)
  | await : Goes limit solution .asking [⟨.session, .peers, false⟩] (.running (.retrying limit))
  | expire : Goes limit solution (.retrying 0) [] (.running .confirming)
  | meet {left : Nat} :
      Goes limit solution (.retrying (left + 1)) [⟨.session, .peers, true⟩] (.running .confirming)
  | pause {left : Nat} :
      Goes limit solution (.retrying (left + 1)) [⟨.session, .peers, false⟩] (.running (.retrying left))
  | confirm : Goes limit solution .confirming [⟨.session, .peers, true⟩] (.running .delivering)
  | drop : Goes limit solution .confirming [⟨.session, .peers, false⟩] (.returned (.ok .noPeers))
  | deliver (answer : Except NodeFailure Bool) :
      Goes limit solution .delivering [⟨.session, .submit solution.header.toHeader, answer⟩]
        (.returned (delivered answer))

/-- The answers up to the end of the wait: none found peers, or the last one did. -/
def Waited (limit : Nat) (answers : List Bool) : Prop :=
  answers = List.replicate (limit + 1) false ∨
    ∃ n, 0 < n ∧ n ≤ limit ∧ answers = List.replicate n false ++ [true]

/-- The answers of a submission that drops its solution. -/
def Missed (limit : Nat) (answers : List Bool) : Prop :=
  ∃ waited, Waited limit waited ∧ answers = waited ++ [false]

/-- The answers of a submission that hands its solution in. -/
def Met (limit : Nat) (answers : List Bool) : Prop :=
  answers = [true] ∨ ∃ waited, Waited limit waited ∧ answers = waited ++ [true]

/-- What was asked and handed in, by where a submission has come to. -/
def Stands (limit : Nat) (solution : Solution) (answers : List Bool) (headers : List Header) :
    Progress Submission (Except NodeFailure Delivery) → Prop
  | .running .asking => answers = [] ∧ headers = []
  | .running (.retrying left) =>
    left ≤ limit ∧ answers = List.replicate (limit - left + 1) false ∧ headers = []
  | .running .confirming => Waited limit answers ∧ headers = []
  | .running .delivering => Met limit answers ∧ headers = []
  | .returned result =>
    Missed limit answers ∧ headers = [] ∧ result = .ok .noPeers ∨
      Met limit answers ∧ headers = [solution.header.toHeader] ∧ result ≠ .ok .noPeers
  | .crashed => True

/-- The most steps that are left. -/
def rank (limit : Nat) : Submission → Nat
  | asking => limit + 4
  | retrying left => left + 3
  | confirming => 2
  | delivering => 1

section Step

variable {limit : Nat} {solution : Solution} {sub sub' : Submission} {called : List Call}
  {progress : Progress Submission (Except NodeFailure Delivery)} {answers : List Bool} {headers : List Header}

theorem Goes.rank_lt (h : Goes limit solution sub called (.running sub')) : sub'.rank limit < sub.rank limit := by
  cases h with
  | greet | await | expire | meet | pause | confirm => simp only [rank]; omega

theorem Goes.stands (h : Goes limit solution sub called progress)
    (hsub : Stands limit solution answers headers (.running sub)) :
    Stands limit solution (answers ++ called.filterMap Call.poll?) (headers ++ called.filterMap Call.header?)
      progress := by
  cases h with
  | crash => trivial
  | greet =>
    obtain ⟨rfl, rfl⟩ := hsub
    exact ⟨.inl rfl, rfl⟩
  | await =>
    obtain ⟨rfl, rfl⟩ := hsub
    exact ⟨Nat.le_refl _, by rw [Nat.sub_self]; rfl, rfl⟩
  | expire =>
    -- the wait ran out, so all `limit + 1` looks up to its end were in vain
    obtain ⟨-, rfl, rfl⟩ := hsub
    exact ⟨.inl (List.append_nil _), rfl⟩
  | @meet left =>
    -- the wait ends early, though its answer is not what the solution is handed in for
    obtain ⟨hleft, rfl, rfl⟩ := hsub
    exact ⟨.inr ⟨limit - (left + 1) + 1, by omega, by omega, rfl⟩, rfl⟩
  | @pause left =>
    obtain ⟨hleft, rfl, rfl⟩ := hsub
    refine ⟨by omega, ?_, rfl⟩
    have hmore : limit - left = limit - (left + 1) + 1 := by omega
    rw [hmore]
    exact List.replicate_succ'.symm
  | confirm =>
    obtain ⟨hwaited, rfl⟩ := hsub
    exact ⟨.inr ⟨answers, hwaited, rfl⟩, rfl⟩
  | drop =>
    obtain ⟨hwaited, rfl⟩ := hsub
    exact .inl ⟨⟨answers, hwaited, rfl⟩, rfl, rfl⟩
  | deliver answer =>
    obtain ⟨hmet, rfl⟩ := hsub
    rw [show [Call.mk .session (.submit solution.header.toHeader) answer].filterMap Call.poll? = [] from rfl,
      List.append_nil]
    exact .inr ⟨hmet, rfl, delivered_ne_noPeers answer⟩

end Step

section Run

variable (config : Config) (node : Node σ) (solution : Solution)

theorem goes_call {limit : Nat} {sub : Submission} {progress : Progress Submission (Except NodeFailure Delivery)}
    {r : Request} {answer : Option r.Answer} {world world' world'' : World σ}
    (hcall : world.call node .session r = (answer, world')) {after : List Entry}
    (hworld : world''.journal.toList = world'.journal.toList ++ after) (hafter : calls after = [])
    (h : sub.Goes limit solution (answer.map (Call.mk .session r)).toList progress) :
    ∃ new, world''.journal.toList = world.journal.toList ++ new ∧ sub.Goes limit solution (calls new) progress := by
  obtain ⟨new, hjournal, hnew⟩ := world.calls_of_call hcall hworld hafter
  refine ⟨new, hjournal, ?_⟩
  rw [hnew]
  exact h

theorem move_goes (sub : Submission) (world : World σ) :
    ∃ new, (sub.move config node solution .session world).2.journal.toList = world.journal.toList ++ new ∧
      sub.Goes config.submitPeerPolls.toNat solution (calls new) (sub.move config node solution .session world).1 := by
  cases sub with
  | asking =>
    simp only [move]
    split
    · exact goes_call node solution ‹_› (List.append_nil _).symm rfl (.crash rfl)
    · exact goes_call node solution ‹_› (List.append_nil _).symm rfl .greet
    · exact goes_call node solution ‹_› (World.journal_log _ _) rfl .await
  | retrying left =>
    cases left with
    | zero => exact ⟨[], (List.append_nil _).symm, .expire⟩
    | succ left =>
      simp only [move]
      split
      · exact goes_call node solution ‹_› (List.append_nil _).symm rfl (.crash rfl)
      · exact goes_call node solution ‹_› (List.append_nil _).symm rfl .meet
      · exact goes_call node solution ‹_› (World.journal_sleep _ _ _) rfl .pause
  | confirming =>
    simp only [move]
    split
    · exact goes_call node solution ‹_› (List.append_nil _).symm rfl (.crash rfl)
    · exact goes_call node solution ‹_› (List.append_nil _).symm rfl .confirm
    · exact goes_call node solution ‹_› (World.journal_log _ _) rfl .drop
  | delivering =>
    simp only [move]
    split
    · exact goes_call node solution ‹_› (List.append_nil _).symm rfl (.crash rfl)
    · exact goes_call node solution ‹_› (World.journal_log _ _) rfl (.deliver (.ok true))
    · exact goes_call node solution ‹_› (World.journal_log _ _) rfl (.deliver (.ok false))
    · exact goes_call node solution ‹_› (List.append_nil _).symm rfl (.deliver (.error _))

theorem move_worker (id : Nat) (sub : Submission) (world : World σ) :
    sub.move config node solution (.worker id) world = (.running sub, world) := by
  cases sub with
  | retrying left => cases left <;> rfl
  | _ => rfl

theorem move_ne_crashed (hnode : ∀ (request : Request) (state : σ), (node request state).answer.isSome)
    (who : Thread) (sub : Submission) (world : World σ) :
    (sub.move config node solution who world).1 ≠ .crashed := by
  have hanswers {request : Request} {world' : World σ} : world.call node .session request ≠ (none, world') := by
    intro hcall
    have hanswer := hnode request world.node
    rw [← world.call_fst node .session request, hcall] at hanswer
    cases hanswer
  cases who with
  | worker id =>
    rw [move_worker]
    rintro ⟨⟩
  | session =>
    cases sub with
    | retrying left =>
      cases left with
      | zero => rintro ⟨⟩
      | succ left =>
        simp only [move]
        split
        · exact absurd ‹_› hanswers
        · rintro ⟨⟩
        · rintro ⟨⟩
    | asking | confirming | delivering =>
      simp only [move]
      split
      · exact absurd ‹_› hanswers
      all_goals rintro ⟨⟩

/-- Where a submission has come to, by the entries since it began and the steps of the session's thread. -/
structure Follows (entries : List Entry) (steps : Nat)
    (progress : Progress Submission (Except NodeFailure Delivery)) : Prop where
  stands : Stands config.submitPeerPolls.toNat solution (polls entries) (handedIn entries) progress
  rank_le : ∀ sub, progress = .running sub →
    sub.rank config.submitPeerPolls.toNat + steps ≤ config.submitPeerPolls.toNat + 4

variable {config node solution}

theorem Follows.step {entries new : List Entry} {steps : Nat} {sub : Submission}
    {progress : Progress Submission (Except NodeFailure Delivery)}
    (h : Follows config solution entries steps (.running sub))
    (hgoes : sub.Goes config.submitPeerPolls.toNat solution (calls new) progress) :
    Follows config solution (entries ++ new) (steps + 1) progress := by
  refine ⟨?_, ?_⟩
  · rw [polls, handedIn, calls_append, List.filterMap_append, List.filterMap_append]
    exact hgoes.stands h.stands
  · rintro sub' rfl
    have hrank := h.rank_le sub rfl
    have hless := hgoes.rank_lt
    omega

variable {start steps : Nat} {e : Execution σ Submission (Except NodeFailure Delivery)}

theorem follows_next (hsize : start ≤ e.world.journal.size)
    (h : Follows config solution (e.world.since start) steps e.progress) (event : Event) :
    start ≤ (e.next (move config node solution) event).world.journal.size ∧
      Follows config solution ((e.next (move config node solution) event).world.since start)
        (steps + [event].count (.step .session)) (e.next (move config node solution) event).progress := by
  obtain ⟨progress, world⟩ := e
  cases event with
  | interrupt | elapse => exact ⟨hsize, h⟩
  | step who =>
    cases progress with
    | returned | crashed => exact ⟨hsize, h.stands, by rintro sub ⟨⟩⟩
    | running sub =>
      cases who with
      | worker id =>
        simp only [Execution.next, move_worker]
        exact ⟨hsize, h⟩
      | session =>
        obtain ⟨new, hjournal, hgoes⟩ := move_goes config node solution sub world
        refine ⟨?_, ?_⟩
        · show start ≤ (sub.move config node solution .session world).2.journal.size
          rw [← Array.length_toList, hjournal, List.length_append, Array.length_toList]
          exact hsize.trans (Nat.le_add_right _ _)
        · show Follows config solution ((sub.move config node solution .session world).2.since start) _ _
          rw [World.since_append hsize hjournal]
          exact h.step hgoes

theorem follows_run (config : Config) (node : Node σ) (solution : Solution) (world : World σ)
    (events : List Event) :
    let e := Execution.run (move config node solution) ⟨.running .asking, world⟩ events
    world.journal.size ≤ e.world.journal.size ∧
      Follows config solution (e.world.since world.journal.size) (events.count (.step .session)) e.progress := by
  induction events using List.reverseRecOn with
  | nil =>
    refine ⟨Nat.le_refl _, ?_, ?_⟩
    · show Stands _ _ (polls (world.since world.journal.size)) (handedIn (world.since world.journal.size)) _
      rw [world.since_self]
      exact ⟨rfl, rfl⟩
    · rintro sub ⟨⟩
      exact Nat.le_refl _
  | append_singleton events event ih =>
    obtain ⟨hsize, h⟩ := ih
    rw [Execution.run_concat, List.count_append]
    exact follows_next hsize h event

theorem run_ne_crashed (hnode : ∀ (request : Request) (state : σ), (node request state).answer.isSome)
    (world : World σ) (events : List Event) :
    (Execution.run (move config node solution) ⟨.running .asking, world⟩ events).progress ≠ .crashed := by
  induction events using List.reverseRecOn with
  | nil => rintro ⟨⟩
  | append_singleton events event ih =>
    rw [Execution.run_concat]
    generalize Execution.run _ _ events = e at ih
    obtain ⟨progress, world⟩ := e
    cases event with
    | interrupt | elapse => exact ih
    | step who =>
      cases progress with
      | returned | crashed => exact ih
      | running sub => exact move_ne_crashed config node solution hnode who sub world

end Run

/-- A submission ends within `submitPeerPolls + 4` steps of the session's thread, and it returns if the node answers. It
has then dropped the solution if the look after its wait found no peers, even if the wait ended because a look before it
found some; otherwise it has handed in the solution's header once. -/
theorem last_poll_decides (config : Config) (node : Node σ) (solution : Solution) (world : World σ)
    (events : List Event) :
    let e := Execution.run (move config node solution) ⟨.running .asking, world⟩ events
    let answers := polls (e.world.since world.journal.size)
    let headers := handedIn (e.world.since world.journal.size)
    (config.submitPeerPolls.toNat + 4 ≤ events.count (.step .session) → ∀ sub, e.progress ≠ .running sub) ∧
    ((∀ (request : Request) (state : σ), (node request state).answer.isSome) → e.progress ≠ .crashed) ∧
    ∀ result, e.progress = .returned result →
      Missed config.submitPeerPolls.toNat answers ∧ headers = [] ∧ result = .ok .noPeers ∨
      Met config.submitPeerPolls.toNat answers ∧ headers = [solution.header.toHeader] ∧ result ≠ .ok .noPeers := by
  obtain ⟨-, hstands, hrank⟩ := follows_run config node solution world events
  refine ⟨fun hsteps sub hsub => ?_, fun hnode => run_ne_crashed hnode world events, fun result hresult => ?_⟩
  · have hle := hrank sub hsub
    have hpos : 0 < sub.rank config.submitPeerPolls.toNat := by
      cases sub <;> simp only [rank] <;> omega
    omega
  · rw [hresult] at hstands
    exact hstands

/-- Peers appear during the wait and are gone at the look that follows it. -/
theorem dropped_with_peers :
    let header : Header :=
      { version := 0, prevBlockHash := BlockHash.zero.bytes, merkleRoot := Bytes.zero 32,
        referenceHash := Bytes.zero 32, time := 0, bits := 0x207fffff, nonce := 3 }
    let solution := Solution.ofHeader header.serialize 0
    let config : Config := { submitPeerPolls := 1 }
    let node := (ScriptedNode.ofLocal { bits := header.bits, clock := fun _ => 1700000000 }).setScript .peers
      { answers := [some false, some true, some false] }
    let e := Execution.run (move config ScriptedNode.answer solution) ⟨.running .asking, { node }⟩
      (List.replicate 3 (.step .session))
    e.progress = .returned (.ok .noPeers) ∧ polls (e.world.since 0) = [false, true, false] ∧
      handedIn (e.world.since 0) = [] := by
  decide +kernel

end Submission

end HeaderMiner
