import HeaderMiner.Proofs.Journal
import HeaderMiner.Session.Basic
import Mathlib

/-!
# The course of a session

Between its rounds, a session is moved by its own thread alone. `Session.Goes` lists the branches of such a step, with
the calls that the node answers; the request is fixed by the session before the step (`move_serves`).
-/

namespace HeaderMiner

variable {σ : Type}

namespace PeerWait

/-- The request that the next action of the wait makes. -/
def request? : PeerWait → Option Request
  | .asking _ => some .peers
  | .offline _ => none

theorem move_serves (config : Config) (node : Node σ) (wait : PeerWait) (world : World σ) :
    world.Serves node .session wait.request? (wait.move config node .session world).2 := by
  cases wait with
  | asking polls =>
    simp only [move]
    split <;> exact world.serves_call ‹_›
  | offline polls =>
    have hidle : world.Serves node .session none world := (World.Rests.refl world).serves node .session
    simp only [move]
    split
    · exact hidle
    · split
      · exact (hidle.log _).sleep _ _
      · exact hidle.sleep _ _

end PeerWait

namespace SyncWait

/-- The request that the next action of the wait makes. -/
def request? : SyncWait → Option Request
  | .starting | .asking _ _ => some .height
  | .counting _ _ => none

theorem move_serves (config : Config) (node : Node σ) (wait : SyncWait) (world : World σ) :
    world.Serves node .session wait.request? (wait.move config node .session world).2 := by
  cases wait with
  | starting =>
    simp only [move]
    split
    · exact world.serves_call ‹_›
    · exact (world.serves_call ‹_›).log _
  | counting height stable =>
    have hidle : world.Serves node .session none world := (World.Rests.refl world).serves node .session
    simp only [move]
    split
    · exact hidle.sleep _ _
    · exact hidle
  | asking height stable =>
    simp only [move]
    split
    · exact world.serves_call ‹_›
    · split
      · exact world.serves_call ‹_›
      · exact (world.serves_call ‹_›).log _

end SyncWait

namespace TemplateFetch

/-- The request that the next action of the fetch makes. -/
def request (config : Config) : TemplateFetch → Request
  | .askingReference => .reference
  | .askingTemplate reference => .template config.payout reference

theorem move_serves (config : Config) (node : Node σ) (fetch : TemplateFetch) (world : World σ) :
    world.Serves node .session (some (fetch.request config)) (fetch.move config node .session world).2 := by
  cases fetch <;> simp only [move] <;> split <;> exact world.serves_call ‹_›

end TemplateFetch

namespace Session

/-- The session is in a round. -/
def mines (s : Session) : Bool :=
  match s.phase with
  | .mining _ => true
  | _ => false

/-- The request that the next action of the session's thread makes between rounds. -/
def request? (config : Config) (s : Session) : Option Request :=
  match s.phase with
  | .waiting wait => wait.request?
  | .settling wait => wait.request?
  | .askingPeers => some .peers
  | .fetching fetch => some (fetch.request config)
  | .looping | .mining _ => none

def goto (s : Session) (phase : Phase) : Session := { s with phase }

/-- Counts a failed template. -/
def retry (s : Session) : Session :=
  { s with stats := { s.stats with templateErrors := s.stats.templateErrors + 1 }, phase := .looping }

/-- The branches of a step between rounds: from a session that reads the interrupt to what it has become, with the
answered calls. -/
inductive Goes (config : Config) (interrupted : Bool) (s : Session) :
    List Call → Progress Session (Except Failure Stats) → Prop
  | crash (hs : (s.request? config).isSome) : Goes config interrupted s [] .crashed
  | meet {polls : Nat} (hs : s.phase = .waiting (.asking polls)) :
      Goes config interrupted s [⟨.session, .peers, true⟩] (.running (s.afterPeers config polls))
  | miss {polls : Nat} (hs : s.phase = .waiting (.asking polls)) :
      Goes config interrupted s [⟨.session, .peers, false⟩] (.running (s.goto (.waiting (.offline polls))))
  | giveUp {polls : Nat} (hs : s.phase = .waiting (.offline polls)) (hint : interrupted = true) :
      Goes config interrupted s [] (.running (s.afterPeers config polls))
  | pause {polls : Nat} (hs : s.phase = .waiting (.offline polls)) (hint : interrupted = false) :
      Goes config interrupted s [] (.running (s.goto (.waiting (.asking (polls + 1)))))
  | settle {height : UInt64} (hs : s.phase = .settling .starting) :
      Goes config interrupted s [⟨.session, .height, height⟩] (.running (s.goto (.settling (.counting height 0))))
  | look {height : UInt64} {stable : Nat} (hs : s.phase = .settling (.counting height stable))
      (hmore : stable < config.syncWindowPolls.toNat) (hint : interrupted = false) :
      Goes config interrupted s [] (.running (s.goto (.settling (.asking height stable))))
  | settled {height : UInt64} {stable : Nat} (hs : s.phase = .settling (.counting height stable))
      (hend : config.syncWindowPolls.toNat ≤ stable ∨ interrupted = true) :
      Goes config interrupted s [] (.running (s.goto .looping))
  | hold {height : UInt64} {stable : Nat} (hs : s.phase = .settling (.asking height stable)) :
      Goes config interrupted s [⟨.session, .height, height⟩]
        (.running (s.goto (.settling (.counting height (stable + 1)))))
  | shift {height current : UInt64} {stable : Nat} (hs : s.phase = .settling (.asking height stable))
      (hmoved : current ≠ height) :
      Goes config interrupted s [⟨.session, .height, current⟩] (.running (s.goto (.settling (.counting current 0))))
  | conclude (hs : s.phase = .looping) (hend : interrupted = true ∨ s.isComplete config = true) :
      Goes config interrupted s [] (.returned (.ok s.stats))
  | loop (hs : s.phase = .looping) (hint : interrupted = false) (hmore : s.isComplete config = false) :
      Goes config interrupted s [] (.running (s.goto .askingPeers))
  | greet (hs : s.phase = .askingPeers) :
      Goes config interrupted s [⟨.session, .peers, true⟩] (.running (s.goto (.fetching .askingReference)))
  | part (hs : s.phase = .askingPeers) :
      Goes config interrupted s [⟨.session, .peers, false⟩] (.running (s.goto (.waiting (.asking 0))))
  | refer {reference : BlockHash} (hs : s.phase = .fetching .askingReference) :
      Goes config interrupted s [⟨.session, .reference, .ok reference⟩]
        (.running (s.goto (.fetching (.askingTemplate reference))))
  | lack {failure : NodeFailure} (hs : s.phase = .fetching .askingReference) :
      Goes config interrupted s [⟨.session, .reference, .error failure⟩] (.running s.retry)
  | mine {reference : BlockHash} {work : Work} (hs : s.phase = .fetching (.askingTemplate reference)) :
      Goes config interrupted s [⟨.session, .template config.payout reference, .ok work⟩]
        (.running (s.goto (.mining (.opening work .full))))
  | fail {reference : BlockHash} {failure : NodeFailure} (hs : s.phase = .fetching (.askingTemplate reference)) :
      Goes config interrupted s [⟨.session, .template config.payout reference, .error failure⟩] (.running s.retry)

theorem mines_afterPeers (config : Config) (s : Session) (polls : Nat) : (s.afterPeers config polls).mines = false := by
  unfold afterPeers
  split <;> rfl

/-- A step that opens a round has been given its work. -/
theorem Goes.of_mines {config : Config} {interrupted : Bool} {s s' : Session} {called : List Call}
    (h : s.Goes config interrupted called (.running s')) (hs' : s'.mines = true) :
    ∃ reference work, s.phase = .fetching (.askingTemplate reference) ∧
      called = [⟨.session, .template config.payout reference, .ok work⟩] ∧
      s' = s.goto (.mining (.opening work .full)) := by
  cases h with
  | mine hs => exact ⟨_, _, hs, rfl, rfl⟩
  | meet | giveUp =>
    rw [mines_afterPeers] at hs'
    cases hs'
  | _ => cases hs'

section Step

variable (config : Config) (host : Host) (node : Node σ) (s : Session) (world : World σ)

theorem move_serves (hs : s.mines = false) :
    world.Serves node .session (s.request? config) (s.move config host node .session world).2 := by
  have hidle : world.Serves node .session none world := (World.Rests.refl world).serves node .session
  unfold request? move
  cases hphase : s.phase with
  | waiting wait =>
    have hserves := wait.move_serves config node world
    dsimp only
    split
    all_goals
      rename_i hmove
      rw [hmove] at hserves
      exact hserves
  | settling wait =>
    have hserves := wait.move_serves config node world
    dsimp only
    split
    all_goals
      rename_i hmove
      rw [hmove] at hserves
      exact hserves
  | looping =>
    dsimp only
    split
    · exact hidle.log _
    · exact hidle
  | askingPeers =>
    dsimp only
    split <;> exact world.serves_call ‹_›
  | fetching fetch =>
    have hserves := fetch.move_serves config node world
    dsimp only
    split
    all_goals
      rename_i hmove
      rw [hmove] at hserves
    · exact hserves
    · exact hserves
    · exact (hserves.log _).sleep _ _
    · exact hserves
  | mining round =>
    rw [mines, hphase] at hs
    cases hs

theorem goes_waiting {wait : PeerWait} (hs : s.phase = .waiting wait) :
    s.Goes config world.interrupted (world.answered node .session wait.request?)
      (s.move config host node .session world).1 := by
  cases wait with
  | asking polls =>
    cases hcall : world.call node .session .peers with
    | mk answer world' =>
      rw [PeerWait.request?, world.answered_call hcall]
      simp only [move, hs, PeerWait.move, hcall]
      rcases answer with _ | _ | _
      · exact .crash (by rw [request?, hs]; rfl)
      · exact .miss hs
      · exact .meet hs
  | offline polls =>
    simp only [move, hs, PeerWait.move]
    cases hint : world.interrupted with
    | true => exact .giveUp hs rfl
    | false => exact .pause hs rfl

theorem goes_settling {wait : SyncWait} (hs : s.phase = .settling wait) :
    s.Goes config world.interrupted (world.answered node .session wait.request?)
      (s.move config host node .session world).1 := by
  cases wait with
  | starting =>
    cases hcall : world.call node .session .height with
    | mk answer world' =>
      rw [SyncWait.request?, world.answered_call hcall]
      simp only [move, hs, SyncWait.move, hcall]
      cases answer with
      | none => exact .crash (by rw [request?, hs]; rfl)
      | some height => exact .settle hs
  | counting height stable =>
    simp only [move, hs, SyncWait.move]
    by_cases hmore : stable < config.syncWindowPolls.toNat ∧ ¬ world.interrupted = true
    · rw [if_pos hmore]
      exact .look hs hmore.1 (by simpa using hmore.2)
    · rw [if_neg hmore]
      rw [not_and_or, not_not, Nat.not_lt] at hmore
      exact .settled hs hmore
  | asking height stable =>
    cases hcall : world.call node .session .height with
    | mk answer world' =>
      rw [SyncWait.request?, world.answered_call hcall]
      simp only [move, hs, SyncWait.move, hcall]
      cases answer with
      | none => exact .crash (by rw [request?, hs]; rfl)
      | some current =>
        by_cases hsame : current = height
        · subst hsame
          simp only [if_true]
          exact .hold hs
        · simp only [hsame, if_false]
          exact .shift hs hsame

theorem goes_fetching {fetch : TemplateFetch} (hs : s.phase = .fetching fetch) :
    s.Goes config world.interrupted (world.answered node .session (some (fetch.request config)))
      (s.move config host node .session world).1 := by
  cases fetch with
  | askingReference =>
    cases hcall : world.call node .session .reference with
    | mk answer world' =>
      rw [TemplateFetch.request, world.answered_call hcall]
      simp only [move, hs, TemplateFetch.move, hcall]
      rcases answer with _ | failure | reference
      · exact .crash (by rw [request?, hs]; rfl)
      · exact .lack hs
      · exact .refer hs
  | askingTemplate reference =>
    cases hcall : world.call node .session (.template config.payout reference) with
    | mk answer world' =>
      rw [TemplateFetch.request, world.answered_call hcall]
      simp only [move, hs, TemplateFetch.move, hcall]
      rcases answer with _ | failure | work
      · exact .crash (by rw [request?, hs]; rfl)
      · exact .fail hs
      · exact .mine hs

theorem move_goes (hs : s.mines = false) :
    s.Goes config world.interrupted (world.answered node .session (s.request? config))
      (s.move config host node .session world).1 := by
  unfold request?
  cases hphase : s.phase with
  | waiting wait => exact s.goes_waiting config host node world hphase
  | settling wait => exact s.goes_settling config host node world hphase
  | fetching fetch => exact s.goes_fetching config host node world hphase
  | looping =>
    simp only [move, hphase]
    by_cases hend : world.interrupted = true ∨ s.isComplete config = true
    · rw [if_pos hend]
      exact .conclude hphase hend
    · rw [if_neg hend]
      rw [not_or, Bool.not_eq_true, Bool.not_eq_true] at hend
      exact .loop hphase hend.1 hend.2
  | askingPeers =>
    cases hcall : world.call node .session .peers with
    | mk answer world' =>
      rw [world.answered_call hcall]
      simp only [move, hphase, hcall]
      rcases answer with _ | _ | _
      · exact .crash (by rw [request?, hphase]; rfl)
      · exact .part hphase
      · exact .greet hphase
  | mining round =>
    rw [mines, hphase] at hs
    cases hs

/-- Between rounds, the other threads have nothing to do. -/
theorem move_worker (hs : s.mines = false) (id : Nat) :
    s.move config host node (.worker id) world = (.running s, world) := by
  obtain ⟨stats, phase⟩ := s
  cases phase with
  | waiting wait => cases wait <;> rfl
  | settling wait => cases wait <;> rfl
  | fetching fetch => cases fetch <;> rfl
  | looping | askingPeers => rfl
  | mining round => cases hs

end Step

end Session

end HeaderMiner
