import HeaderMiner.Proofs.Session.Accounting
import HeaderMiner.Proofs.Session.Marks
import Mathlib

/-!
# The order of a session

What the session's thread may do next depends on what it has done before (`Mark.Follows`): no reference without peers,
no template without a reference, one round for each template, and for its winner one header at most, after all workers
have ended and peers were found. Where a session stands tells what it has done last (`Stands`), so each of its steps
is one that may follow. It never ends with work that it was given and has not searched (`Orderly.starts`).
-/

namespace HeaderMiner.Session

variable {σ : Type}

/-- Since the thread turned to a round that it may begin, it has done just this. -/
def Turned (config : Config) (since marks : List Mark) : Prop :=
  ∃ rounds, .turns false rounds :: since <:+ marks ∧ ∀ max, config.maxRounds = some max → rounds < max.toNat

/-- Since the workers of a round, which were all started, have all ended, with this winner, the thread has only looked
for peers, like this. -/
def Looked (winner : Solution) (looks marks : List Mark) : Prop :=
  ∃ work crew board workers, .starts work crew :: .joins board workers :: looks <:+ marks ∧
    workers.size = crew.size ∧ workers.all Worker.hasEnded ∧ board.winner = some winner ∧
    ∀ look ∈ looks, ∃ answer, look = .asked .peers answer

/-- What the thread must have done before. -/
def Mark.Allowed (config : Config) (past : List Mark) : Mark → Prop
  -- the rounds in the statistics are those that were recorded, which `Turned` bounds
  | .turns _ rounds => rounds = (past.filterMap report?).length
  | .asked .reference _ => past.getLast? = some (.asked .peers (some true))
  | .asked (.template payout reference) _ => payout = config.payout ∧
      Turned config [.asked .peers (some true), .asked .reference (some (.ok reference))] past
  | .asked (.submit header) _ => ∃ winner looks, Looked winner looks past ∧
      looks.getLast? = some (.asked .peers (some true)) ∧ header = winner.header.toHeader
  | .asked _ _ => True
  | .starts work workers => past.getLast?.bind given? = some work ∧ ∀ w ∈ workers, w.work = work
  | .joins _ workers => ∃ work crew, past.getLast? = some (.starts work crew) ∧ workers.all Worker.hasEnded ∧
      ∀ w ∈ workers, w.work = work
  | .records _ => ∃ work crew board workers asks, .starts work crew :: .joins board workers :: asks <:+ past ∧
      workers.size = crew.size ∧ ∀ ask ∈ asks, ∃ r answer, ask = .asked r answer

/-- The thread may do this after the past. -/
structure Mark.Follows (config : Config) (past : List Mark) (mark : Mark) : Prop where
  allowed : mark.Allowed config past
  /-- Work that the thread was given is what it goes on with. -/
  started : ∀ work, past.getLast?.bind given? = some work → ∃ workers, mark = .starts work workers

/-- Each of the marks may follow those before it. -/
def Lawful (config : Config) (marks : List Mark) : Prop :=
  ∀ past mark, past ++ [mark] <+: marks → mark.Follows config past

/-- What the thread has done last, by where the session stands. -/
def Stands (config : Config) (marks : List Mark) : Phase → Prop
  | .waiting _ | .settling _ | .looping => marks.getLast?.bind Mark.given? = none
  | .askingPeers => Turned config [] marks
  | .fetching .askingReference => Turned config [.asked .peers (some true)] marks
  | .fetching (.askingTemplate reference) =>
    Turned config [.asked .peers (some true), .asked .reference (some (.ok reference))] marks
  | .mining (.opening work _) => marks.getLast?.bind Mark.given? = some work
  | .mining (.searching work _ _ _ workers) =>
    (∃ crew, marks.getLast? = some (.starts work crew) ∧ workers.size = crew.size) ∧ ∀ w ∈ workers, w.work = work
  | .mining (.submitting _ winner submission) => ∃ looks, Looked winner looks marks ∧
      (submission = .delivering → looks.getLast? = some (.asked .peers (some true)))

/-- What a session has done, by where it stands. -/
structure Course (config : Config) (marks : List Mark) (s : Session) : Prop where
  rounds : s.stats.rounds = (marks.filterMap Mark.report?).length
  stands : Stands config marks s.phase

section Marks

variable {config : Config} {marks since : List Mark} {mark : Mark} {winner : Solution} {looks : List Mark}

theorem lawful_nil (config : Config) : Lawful config [] := by
  intro past mark h
  simp at h

/-- What holds of every element and those before it still holds with one more. -/
theorem forall_prefix_concat {α : Type} {p : List α → α → Prop} {xs : List α} {y : α}
    (h : ∀ past x, past ++ [x] <+: xs → p past x) (hy : p xs y) : ∀ past x, past ++ [x] <+: xs ++ [y] → p past x := by
  intro past x hprefix
  rcases List.prefix_concat_iff.1 hprefix with heq | hprefix
  · obtain ⟨rfl, hsame⟩ := List.append_inj' heq rfl
    rw [List.singleton_inj.1 hsame]
    exact hy
  · exact h past x hprefix

theorem Lawful.concat (h : Lawful config marks) (hmark : mark.Follows config marks) :
    Lawful config (marks ++ [mark]) :=
  forall_prefix_concat h hmark

theorem suffix_concat {α : Type} {xs ys : List α} (h : xs <:+ ys) (x : α) : xs ++ [x] <:+ ys ++ [x] := by
  obtain ⟨front, rfl⟩ := h
  exact ⟨front, (List.append_assoc _ _ _).symm⟩

theorem Turned.concat (h : Turned config since marks) (mark : Mark) :
    Turned config (since ++ [mark]) (marks ++ [mark]) := by
  obtain ⟨rounds, hsince, hmore⟩ := h
  exact ⟨rounds, suffix_concat hsince mark, hmore⟩

theorem Turned.getLast?_eq (since : List Mark) (h : Turned config (since ++ [mark]) marks) :
    marks.getLast? = some mark := by
  obtain ⟨rounds, ⟨front, rfl⟩, -⟩ := h
  exact List.getLast?_eq_some_iff.2 ⟨front ++ .turns false rounds :: since, by simp⟩

theorem Turned.getLast?_nil (h : Turned config [] marks) : ∃ rounds, marks.getLast? = some (.turns false rounds) := by
  obtain ⟨rounds, ⟨front, rfl⟩, -⟩ := h
  exact ⟨rounds, by simp⟩

theorem Looked.concat (h : Looked winner looks marks) (answer : Option Bool) :
    Looked winner (looks ++ [.asked .peers answer]) (marks ++ [.asked .peers answer]) := by
  obtain ⟨work, crew, board, workers, hsince, hsize, hended, hwinner, hlooks⟩ := h
  refine ⟨work, crew, board, workers, suffix_concat hsince _, hsize, hended, hwinner, fun look hlook => ?_⟩
  rcases List.mem_append.1 hlook with hlook | hlook
  · exact hlooks look hlook
  · exact ⟨answer, List.mem_singleton.1 hlook⟩

theorem given?_concat (marks : List Mark) (mark : Mark) :
    (marks ++ [mark]).getLast?.bind Mark.given? = mark.given? := by
  rw [List.getLast?_concat, Option.bind_some]

theorem given?_of_suffix (since : List Mark) (h : since ++ [mark] <:+ marks) :
    marks.getLast?.bind Mark.given? = mark.given? := by
  obtain ⟨front, rfl⟩ := h
  rw [← List.append_assoc, given?_concat]

theorem Looked.given?_eq_none (h : Looked winner looks marks) : marks.getLast?.bind Mark.given? = none := by
  obtain ⟨work, crew, board, workers, hsince, -, -, -, hlooks⟩ := h
  rcases List.eq_nil_or_concat looks with rfl | ⟨earlier, look, rfl⟩
  · exact given?_of_suffix [.starts work crew] hsince
  · obtain ⟨answer, rfl⟩ := hlooks look (by simp)
    rw [List.concat_eq_append, ← List.cons_append, ← List.cons_append] at hsince
    exact given?_of_suffix _ hsince

theorem Mark.Allowed.follows (h : mark.Allowed config marks) (hnone : marks.getLast?.bind given? = none) :
    mark.Follows config marks := by
  refine ⟨h, fun work hwork => ?_⟩
  rw [hnone] at hwork
  cases hwork

end Marks

section Between

variable {config : Config} {marks : List Mark} {s s' : Session} {mark : Mark} {node : Node σ} {world : World σ}

theorem act?_eq (hmark : s.act? config node world = some mark) (hs : s.phase ≠ .looping) :
    ∃ r, s.asks? config = some r ∧ mark = .asked r (node r world.node).answer := by
  rw [act?_of_ne hs] at hmark
  obtain ⟨r, hr, rfl⟩ := Option.map_eq_some_iff.1 hmark
  exact ⟨r, hr, rfl⟩

/-- Whatever the answer, the next step is one that may follow. -/
theorem Course.follows (h : Course config marks s) (hmark : s.act? config node world = some mark) :
    mark.Follows config marks := by
  have hstands := h.stands
  have hrounds := h.rounds
  obtain ⟨stats, phase⟩ := s
  cases phase with
  | looping =>
    cases hmark
    exact Mark.Allowed.follows hrounds hstands
  | waiting wait =>
    obtain ⟨r, hr, rfl⟩ := act?_eq hmark (by rintro ⟨⟩)
    cases wait with
    | asking =>
      cases hr
      exact Mark.Allowed.follows trivial hstands
    | offline => cases hr
  | settling wait =>
    obtain ⟨r, hr, rfl⟩ := act?_eq hmark (by rintro ⟨⟩)
    cases wait with
    | starting | asking =>
      cases hr
      exact Mark.Allowed.follows trivial hstands
    | counting => cases hr
  | askingPeers =>
    obtain ⟨r, hr, rfl⟩ := act?_eq hmark (by rintro ⟨⟩)
    cases hr
    obtain ⟨rounds, hlast⟩ := Turned.getLast?_nil hstands
    exact Mark.Allowed.follows trivial (by rw [hlast]; rfl)
  | fetching fetch =>
    obtain ⟨r, hr, rfl⟩ := act?_eq hmark (by rintro ⟨⟩)
    cases fetch with
    | askingReference =>
      cases hr
      have hlast := Turned.getLast?_eq [] hstands
      exact Mark.Allowed.follows hlast (by rw [hlast]; rfl)
    | askingTemplate reference =>
      cases hr
      have hlast := Turned.getLast?_eq [.asked .peers (some true)] hstands
      exact Mark.Allowed.follows ⟨rfl, hstands⟩ (by rw [hlast]; rfl)
  | mining round =>
    obtain ⟨r, hr, rfl⟩ := act?_eq hmark (by rintro ⟨⟩)
    cases round with
    | opening | searching => cases hr
    | submitting report winner submission =>
      obtain ⟨looks, hlooked, hdelivering⟩ := hstands
      cases submission with
      | asking | confirming =>
        cases hr
        exact Mark.Allowed.follows trivial hlooked.given?_eq_none
      | retrying left =>
        cases left with
        | zero => cases hr
        | succ left =>
          cases hr
          exact Mark.Allowed.follows trivial hlooked.given?_eq_none
      | delivering =>
        cases hr
        exact Mark.Allowed.follows ⟨winner, looks, hlooked, hdelivering rfl, rfl⟩ hlooked.given?_eq_none

theorem of_answered {request? : Option Request} {r : Request} {answer : r.Answer}
    (h : world.answered node .session request? = [⟨.session, r, answer⟩]) :
    request? = some r ∧ (node r world.node).answer = some answer := by
  have hmem : ⟨.session, r, answer⟩ ∈ world.answered node .session request? := h ▸ List.mem_singleton_self _
  exact (world.mem_answered hmem).2

theorem ofRequest?_eq {request? : Option Request} {r : Request} {answer : r.Answer}
    (h : world.answered node .session request? = [⟨.session, r, answer⟩]) :
    Mark.ofRequest? node world request? = some (.asked r (some answer)) := by
  obtain ⟨hr, hanswer⟩ := of_answered h
  rw [hr, ← hanswer]
  rfl

/-- Between rounds the thread makes a mark of what is answered. -/
theorem act?_of_answered {r : Request} {answer : r.Answer} (hs : s.mines = false)
    (h : world.answered node .session (s.request? config) = [⟨.session, r, answer⟩]) :
    s.act? config node world = some (.asked r (some answer)) := by
  have hphase : s.phase ≠ .looping := by
    intro hphase
    have hr := (of_answered h).1
    rw [request?, hphase] at hr
    cases hr
  rw [act?_of_ne hphase, asks?_eq hs, ofRequest?_eq h]

theorem act?_of_idle (hs : s.mines = false) (hphase : s.phase ≠ .looping) (hnone : s.request? config = none)
    (node : Node σ) (world : World σ) : s.act? config node world = none := by
  rw [act?_of_ne hphase, asks?_eq hs, hnone]
  rfl

theorem Goes.rounds_eq {interrupted : Bool} {called : List Call}
    (h : s.Goes config interrupted called (.running s')) : s'.stats.rounds = s.stats.rounds := by
  cases h with
  | meet | giveUp =>
    unfold afterPeers
    split <;> rfl
  | _ => rfl

theorem stands_afterPeers (h : marks.getLast?.bind Mark.given? = none) (polls : Nat) :
    Stands config marks (s.afterPeers config polls).phase := by
  unfold afterPeers
  split <;> exact h

theorem Course.goes (h : Course config marks s) (hs : s.mines = false)
    (hgoes : s.Goes config world.interrupted (world.answered node .session (s.request? config)) (.running s')) :
    Course config (marks ++ (s.act? config node world).toList) s' := by
  refine ⟨?_, ?_⟩
  · rw [hgoes.rounds_eq, h.rounds, List.filterMap_append, reports_act?, List.append_nil]
  · have hstands := h.stands
    generalize hcalled : world.answered node .session (s.request? config) = called at hgoes
    have hasked {r : Request} {answer : r.Answer} (hcall : called = [⟨.session, r, answer⟩]) :
        marks ++ (s.act? config node world).toList = marks ++ [.asked r (some answer)] := by
      rw [act?_of_answered hs (hcalled.trans hcall)]
      rfl
    have hidle (hphase : s.phase ≠ .looping) (hnone : s.request? config = none) :
        marks ++ (s.act? config node world).toList = marks := by
      rw [act?_of_idle hs hphase hnone]
      exact List.append_nil _
    -- a step asks and its answer is the last mark, or it leaves the marks as they are; the loop alone turns
    cases hgoes with
    | meet =>
      rw [hasked rfl]
      exact stands_afterPeers (given?_concat _ _) _
    | miss | settle | hold | shift | part | lack | mine | fail =>
      rw [hasked rfl]
      exact given?_concat _ _
    | giveUp hphase =>
      rw [hidle (by rw [hphase]; rintro ⟨⟩) (by rw [request?, hphase]; rfl)]
      rw [hphase] at hstands
      exact stands_afterPeers hstands _
    | pause hphase | look hphase | settled hphase =>
      rw [hidle (by rw [hphase]; rintro ⟨⟩) (by rw [request?, hphase]; rfl)]
      rw [hphase] at hstands
      exact hstands
    | loop hphase hint hmore =>
      have hact : s.act? config node world = some (.turns false s.stats.rounds) := by rw [act?, hphase, hint]
      rw [hact]
      refine ⟨s.stats.rounds, List.suffix_append _ _, fun max hmax => ?_⟩
      simpa [isComplete, hmax] using hmore
    | greet hphase | refer hphase =>
      rw [hasked rfl]
      rw [hphase] at hstands
      exact Turned.concat hstands _

/-- Work that the thread is given does not end the session. -/
theorem Goes.given?_eq_none {progress : Progress Session (Except Failure Stats)}
    (hgoes : s.Goes config world.interrupted (world.answered node .session (s.request? config)) progress)
    (hs : s.mines = false) (hended : ∀ s', progress ≠ .running s') (marks : List Mark) :
    (marks ++ (s.act? config node world).toList).getLast?.bind Mark.given? = none := by
  generalize hcalled : world.answered node .session (s.request? config) = called at hgoes
  cases hgoes with
  | conclude hphase =>
    rw [act?, hphase]
    exact given?_concat _ _
  | crash hr =>
    obtain ⟨r, hr⟩ := Option.isSome_iff_exists.1 hr
    have hanswer : (node r world.node).answer = none := by
      rw [hr] at hcalled
      simpa [World.answered] using hcalled
    have hphase : s.phase ≠ .looping := by
      intro hphase
      rw [request?, hphase] at hr
      cases hr
    rw [act?_of_ne hphase, asks?_eq hs, hr, Mark.ofRequest?, Option.map_some, hanswer]
    refine (given?_concat _ _).trans ?_
    cases r <;> rfl
  | _ => exact absurd rfl (hended _)

end Between

/-- A run of a session that has made these marks: they came in order, and the session stands where they have led, or
has ended and not left work that it was given undone. -/
structure Orderly (config : Config) (marks : List Mark) (progress : Progress Session (Except Failure Stats)) :
    Prop where
  lawful : Lawful config marks
  course : ∀ s, progress = .running s → Course config marks s
  ended : (∀ s, progress ≠ .running s) → marks.getLast?.bind Mark.given? = none

section Step

variable {c : Setup σ} {marks : List Mark} {s : Session} {world : World σ}

theorem Lawful.act (h : Lawful c.config marks) (hcourse : Course c.config marks s) :
    Lawful c.config (marks ++ (s.act? c.config c.node world).toList) := by
  rcases hact : s.act? c.config c.node world with _ | mark
  · rw [Option.toList_none, List.append_nil]
    exact h
  · exact h.concat (hcourse.follows hact)

def Keeps (c : Setup σ) (marks : List Mark) (s : Session) (world : World σ) (who : Thread) : Prop :=
  Orderly c.config (marks ++ c.marksAt ⟨.running s, world⟩ (.step who)) (c.move who s world).1

theorem Orderly.between (h : Orderly c.config marks (.running s)) (hs : s.mines = false) (who : Thread) :
    Keeps c marks s world who := by
  have hcourse := h.course s rfl
  unfold Keeps
  rcases who with _ | id
  · rw [marksAt_between hs]
    have hgoes := s.move_goes c.config c.host c.node world hs
    refine ⟨h.lawful.act hcourse, fun s' hs' => ?_, fun hended => hgoes.given?_eq_none hs hended marks⟩
    rw [show (s.move c.config c.host c.node .session world).1 = _ from hs'] at hgoes
    exact hcourse.goes hs hgoes
  · have hmove : c.move (.worker id) s world = _ := s.move_worker c.config c.host c.node world hs id
    rw [marksAt_of_idle hs, List.append_nil, hmove]
    exact h

/-! ### Steps in a round -/

section Mining

variable {r : Round} {who : Thread} {world' : World σ}

theorem keeps_of_move (acts : List Mark) {result : Progress Round (Except Failure RoundReport)}
    (hmove : r.move c.config c.host c.node who world = (result, world')) (hnone : returned? result = none)
    (hacts : c.actsAt (s.goto (.mining r)) world who ++
      bounds (.running (s.goto (.mining r))) (s.afterStep result world').1 = acts)
    (h : Orderly c.config (marks ++ acts) (s.afterStep result world').1) :
    Keeps c marks (s.goto (.mining r)) world who := by
  unfold Keeps
  rw [marksAt_mining s hmove, move_mining s hmove, hnone, Option.toList_none, List.map_nil, List.append_nil, hacts]
  exact h

/-- A step of a round that returns a report, which counts. -/
theorem keeps_of_report (acts : List Mark) {report : RoundReport}
    (hmove : r.move c.config c.host c.node who world = (.returned (.ok report), world'))
    (hacts : c.actsAt (s.goto (.mining r)) world who ++ bounds (.running (s.goto (.mining r))) .crashed = acts)
    (hlawful : Lawful c.config (marks ++ acts))
    (hrounds : s.stats.rounds = ((marks ++ acts).filterMap Mark.report?).length)
    (hfollows : (Mark.records report).Follows c.config (marks ++ acts)) :
    Keeps c marks (s.goto (.mining r)) world who := by
  have hmarks : marks ++ c.marksAt ⟨.running (s.goto (.mining r)), world⟩ (.step who) =
      marks ++ acts ++ [.records report] := by
    rw [marksAt_mining s hmove, afterStep, bounds_afterRound, ← List.append_assoc (c.actsAt _ _ _), hacts,
      List.append_assoc]
    rfl
  unfold Keeps
  rw [hmarks, move_mining s hmove, afterStep]
  refine ⟨hlawful.concat hfollows, fun s' hs' => ?_, fun _ => given?_concat _ _⟩
  unfold afterRound at hs'
  dsimp only at hs'
  split at hs'
  · cases hs'
  · cases hs'
    refine ⟨?_, given?_concat _ _⟩
    rw [List.filterMap_append, List.length_append, ← hrounds, Stats.record_eq]
    rfl

end Mining

theorem work_of_mem_crew {work : Work} {range : NonceRange} {threads : Nat} {settings : WorkerSettings} {w : Worker}
    (hw : w ∈ Round.crew work range threads settings) : w.work = work := by
  obtain ⟨i, hi⟩ := Array.mem_iff_getElem?.1 hw
  rw [Round.Search.getElem?_crew] at hi
  obtain ⟨slice, -, rfl⟩ := Option.map_eq_some_iff.1 hi
  rfl

theorem work_of_mem_step {work : Work} {workers : Array Worker} {id : Nat} {v : Worker}
    (h : ∀ w ∈ workers, w.work = work) (hv : workers[id]? = some v) (node : Node σ) (shared : Shared σ) :
    ∀ w ∈ workers.setIfInBounds id (v.step node shared).1, w.work = work := by
  intro w hw
  rcases Array.mem_or_eq_of_mem_setIfInBounds hw with hw | rfl
  · exact h w hw
  · obtain ⟨_, _, _, hacts⟩ := v.step_isAction node shared
    exact hacts.sameTask.work.trans (h v (Array.mem_iff_getElem?.2 ⟨id, hv⟩))

theorem Orderly.opening {work : Work} {range : NonceRange}
    (h : Orderly c.config marks (.running (s.goto (.mining (.opening work range))))) (who : Thread) :
    Keeps c marks (s.goto (.mining (.opening work range))) world who := by
  rcases who with _ | id
  · obtain ⟨hrounds, hstands⟩ := h.course _ rfl
    have hmove : Round.move c.config c.host c.node .session (.opening work range) world = (.running _, _) := rfl
    refine keeps_of_move [.starts work _] hmove rfl rfl
      ⟨h.lawful.concat ⟨⟨hstands, ?_⟩, ?_⟩, fun s' hs' => ?_, fun _ => given?_concat _ _⟩
    · intro w hw
      exact work_of_mem_crew hw
    · intro work' hwork'
      cases hstands.symm.trans hwork'
      exact ⟨_, rfl⟩
    · cases hs'
      refine ⟨?_, ⟨_, List.getLast?_concat, rfl⟩, fun w hw => work_of_mem_crew hw⟩
      rw [List.filterMap_append]
      exact hrounds.trans (congrArg List.length (List.append_nil _).symm)
  · exact keeps_of_move [] rfl rfl rfl ((List.append_nil marks).symm ▸ h)

section Search

variable {work : Work} {started : Nat} {spawning spawning' : Round.Spawning} {board board' : Board}
  {workers workers' : Array Worker} {who : Thread} {world' : World σ}

/-- The session's thread leaves a search only after all workers that were started have ended. -/
theorem follows_joins {config : Config} {count : Nat}
    (h : Stands config marks (.mining (.searching work started spawning board workers)))
    (hended : (workers.take count).all Worker.hasEnded) :
    (Mark.joins board (workers.take count)).Follows config marks := by
  obtain ⟨⟨crew, hlast, -⟩, hworkers⟩ := h
  refine Mark.Allowed.follows ⟨work, crew, hlast, hended, fun w hw => ?_⟩ ?_
  · obtain ⟨i, hi, rfl⟩ := Array.mem_extract_iff_getElem.1 hw
    exact hworkers _ (Array.getElem_mem _)
  · rw [hlast]
    rfl

/-- While the search goes on, the session's thread makes no mark. -/
theorem Orderly.search (h : Orderly c.config marks
      (.running (s.goto (.mining (.searching work started spawning board workers)))))
    (hmove : Round.move c.config c.host c.node who (.searching work started spawning board workers) world =
      (.running (.searching work started spawning' board' workers'), world'))
    (hsize : workers'.size = workers.size) (hworkers' : ∀ w ∈ workers', w.work = work) :
    Keeps c marks (s.goto (.mining (.searching work started spawning board workers))) world who := by
  obtain ⟨hrounds, ⟨crew, hlast, hcrew⟩, -⟩ := h.course _ rfl
  refine keeps_of_move [] hmove rfl (by cases who <;> rfl) ?_
  rw [List.append_nil]
  refine ⟨h.lawful, fun s' hs' => ?_, fun hend => absurd rfl (hend _)⟩
  cases hs'
  exact ⟨hrounds, ⟨crew, hlast, hsize.trans hcrew⟩, hworkers'⟩

/-- A round that fails when the search is over. -/
theorem Orderly.abandon {result : Progress Round (Except Failure RoundReport)}
    (h : Orderly c.config marks (.running (s.goto (.mining (.searching work started spawning board workers)))))
    (hmove : Round.move c.config c.host c.node .session (.searching work started spawning board workers) world =
      (result, world'))
    (hresult : (∃ failure, result = .returned (.error failure)) ∨ result = .crashed)
    (hended : (workers.take spawning.count).all Worker.hasEnded) :
    Keeps c marks (s.goto (.mining (.searching work started spawning board workers))) world .session := by
  have hjoined := h.lawful.concat (follows_joins (h.course _ rfl).stands hended)
  rcases hresult with ⟨failure, rfl⟩ | rfl
  all_goals
    refine keeps_of_move [.joins board (workers.take spawning.count)] hmove rfl rfl ⟨hjoined, ?_, fun _ => ?_⟩
    · rintro s' ⟨⟩
    · exact given?_concat _ _

/-- What the marks are once all workers of a round were started and have ended. -/
theorem Orderly.searched {next : Nat}
    (h : Orderly c.config marks (.running (s.goto (.mining (.searching work started (.upTo next) board workers)))))
    (hall : workers.take next = workers) (hended : workers.all Worker.hasEnded) :
    Lawful c.config (marks ++ [.joins board workers]) ∧
    s.stats.rounds = ((marks ++ [Mark.joins board workers]).filterMap Mark.report?).length ∧
    ∃ crew, [.starts work crew, .joins board workers] <:+ marks ++ [.joins board workers] ∧
      workers.size = crew.size := by
  obtain ⟨hrounds, hstands⟩ := h.course _ rfl
  have hfollows := follows_joins hstands (hall.symm ▸ hended)
  rw [hall] at hfollows
  obtain ⟨⟨crew, hlast, hsize⟩, -⟩ := hstands
  obtain ⟨earlier, rfl⟩ := List.getLast?_eq_some_iff.1 hlast
  refine ⟨h.lawful.concat hfollows, ?_, crew, ⟨earlier, by simp⟩, hsize⟩
  rw [List.filterMap_append]
  exact hrounds.trans (congrArg List.length (List.append_nil _).symm)

theorem Orderly.searching
    (h : Orderly c.config marks (.running (s.goto (.mining (.searching work started spawning board workers)))))
    (who : Thread) :
    Keeps c marks (s.goto (.mining (.searching work started spawning board workers))) world who := by
  have hworkers := (h.course _ rfl).stands.2
  have hadvances := Round.move_advances c.config c.host c.node who work started spawning board workers world
  rcases hmove : Round.move c.config c.host c.node who (.searching work started spawning board workers) world
    with ⟨result, world'⟩
  rw [hmove] at hadvances
  have hall {next : Nat} (hnext : workers.size ≤ next) : workers.take next = workers :=
    Array.extract_eq_self_of_le hnext
  have hjoins {next : Nat} (hnext : workers.size ≤ next) :
      [Mark.joins board (workers.take next)] = [Mark.joins board workers] := by rw [hall hnext]
  cases hadvances with
  | stepped hid hw => exact h.search hmove Array.size_setIfInBounds (work_of_mem_step hworkers hw _ _)
  | waits | spawned | refused => exact h.search hmove rfl hworkers
  | crashed hnext hended => exact h.abandon hmove (.inl ⟨_, rfl⟩) ((hall hnext).symm ▸ hended)
  | unspawned hended => exact h.abandon hmove (.inl ⟨_, rfl⟩) hended
  | collapsed hended => exact h.abandon hmove (.inr rfl) hended
  | unsolved hnext hended =>
    obtain ⟨hlawful, hcount, crew, hsince, hsize⟩ := h.searched (hall hnext) hended
    refine keeps_of_report [.joins board workers] hmove (hjoins hnext) hlawful hcount
      (Mark.Allowed.follows ⟨work, crew, board, workers, [], hsince, hsize, ?_⟩ (given?_concat _ _))
    rintro ask ⟨⟩
  | solved hnext hended _ hwinner =>
    obtain ⟨hlawful, hcount, crew, hsince, hsize⟩ := h.searched (hall hnext) hended
    refine keeps_of_move [.joins board workers] hmove rfl (hjoins hnext)
      ⟨hlawful, fun s' hs' => ?_, fun hrun => absurd rfl (hrun _)⟩
    cases hs'
    refine ⟨hcount, [], ⟨work, crew, board, workers, hsince, hsize, hended, hwinner, ?_⟩, ?_⟩
    · rintro look ⟨⟩
    · rintro ⟨⟩

end Search

theorem Looked.goes {limit : Nat} {winner : Solution} {sub sub' : Submission} {looks : List Mark}
    (h : Looked winner looks marks)
    (hgoes : sub.Goes limit winner (world.answered c.node .session (sub.request? winner)) (.running sub')) :
    ∃ looks', Looked winner looks' (marks ++ (Mark.ofRequest? c.node world (sub.request? winner)).toList) ∧
      (sub' = .delivering → looks'.getLast? = some (.asked .peers (some true))) := by
  generalize hcalled : world.answered c.node .session (sub.request? winner) = called at hgoes
  cases hgoes with
  | expire =>
    refine ⟨looks, ?_, by rintro ⟨⟩⟩
    rw [show (Mark.ofRequest? c.node world (Submission.request? winner (.retrying 0))).toList = [] from rfl,
      List.append_nil]
    exact h
  | greet | confirm | await | meet | pause =>
    rw [ofRequest?_eq hcalled]
    refine ⟨looks ++ [_], h.concat _, ?_⟩
    first
      | exact fun _ => List.getLast?_concat
      | rintro ⟨⟩

theorem Looked.records {limit : Nat} {winner : Solution} {sub : Submission} {looks : List Mark}
    {result : Except NodeFailure Delivery} (h : Looked winner looks marks)
    (hgoes : sub.Goes limit winner (world.answered c.node .session (sub.request? winner)) (.returned result))
    (report : RoundReport) :
    (Mark.records report).Follows c.config
      (marks ++ (Mark.ofRequest? c.node world (sub.request? winner)).toList) := by
  obtain ⟨work, crew, board, workers, hsince, hsize, -, -, hlooks⟩ := h
  have hasked (r : Request) (answer : Option r.Answer) :
      Mark.Allowed c.config (marks ++ [.asked r answer]) (.records report) := by
    refine ⟨work, crew, board, workers, looks ++ [Mark.asked r answer],
      suffix_concat hsince (Mark.asked r answer), hsize, fun ask hask => ?_⟩
    rcases List.mem_append.1 hask with hask | hask
    · obtain ⟨answer, rfl⟩ := hlooks ask hask
      exact ⟨_, _, rfl⟩
    · exact ⟨r, answer, List.mem_singleton.1 hask⟩
  generalize hcalled : world.answered c.node .session (sub.request? winner) = called at hgoes
  cases hgoes with
  | drop | deliver =>
    rw [ofRequest?_eq hcalled]
    exact (hasked _ _).follows (given?_concat _ _)

/-- While the winner is handed in, the thread is given no work. -/
theorem Looked.given?_ask {winner : Solution} {looks : List Mark} (h : Looked winner looks marks) (sub : Submission) :
    (marks ++ (Mark.ofRequest? c.node world (sub.request? winner)).toList).getLast?.bind Mark.given? = none := by
  cases sub with
  | asking | confirming | delivering => exact given?_concat _ _
  | retrying left =>
    cases left with
    | zero =>
      show (marks ++ []).getLast?.bind Mark.given? = none
      rw [List.append_nil]
      exact h.given?_eq_none
    | succ left => exact given?_concat _ _

theorem Orderly.submitting {report : RoundReport} {winner : Solution} {sub : Submission}
    (h : Orderly c.config marks (.running (s.goto (.mining (.submitting report winner sub))))) (who : Thread) :
    Keeps c marks (s.goto (.mining (.submitting report winner sub))) world who := by
  rcases who with _ | id
  · have hcourse := h.course _ rfl
    have hlawful : Lawful c.config (marks ++ (Mark.ofRequest? c.node world (sub.request? winner)).toList) :=
      h.lawful.act hcourse
    obtain ⟨hrounds, looks, hlooked, -⟩ := hcourse
    have hcount : s.stats.rounds = ((marks ++
        (Mark.ofRequest? c.node world (sub.request? winner)).toList).filterMap Mark.report?).length := by
      rw [List.filterMap_append, reports_ofRequest?, List.append_nil]
      exact hrounds
    have hgoes := sub.goes_answered c.config c.node winner world
    rcases hsub : sub.move c.config c.node winner .session world with ⟨progress, world'⟩
    rw [hsub] at hgoes
    rcases progress with sub' | result | _
    · have hmove : Round.move c.config c.host c.node .session (.submitting report winner sub) world =
          (.running (.submitting report winner sub'), world') := by simp only [Round.move, hsub]
      refine keeps_of_move _ hmove rfl (List.append_nil _)
        ⟨hlawful, fun s' hs' => ?_, fun hended => absurd rfl (hended _)⟩
      cases hs'
      exact ⟨hcount, hlooked.goes hgoes⟩
    · obtain ⟨report', world'', hmove⟩ : ∃ report' world'', Round.move c.config c.host c.node .session
          (.submitting report winner sub) world = (.returned (.ok report'), world'') := by
        simp only [Round.move, hsub]
        rcases result with failure | delivery
        · exact ⟨_, _, rfl⟩
        · exact ⟨_, _, rfl⟩
      exact keeps_of_report _ hmove (List.append_nil _) hlawful hcount (hlooked.records hgoes report')
    · have hmove : Round.move c.config c.host c.node .session (.submitting report winner sub) world =
          (.crashed, world') := by simp only [Round.move, hsub]
      refine keeps_of_move _ hmove rfl (List.append_nil _) ⟨hlawful, ?_, fun _ => hlooked.given?_ask sub⟩
      rintro s' ⟨⟩
  · exact keeps_of_move [] rfl rfl rfl ((List.append_nil marks).symm ▸ h)

theorem orderly_next {e : Execution σ Session (Except Failure Stats)} (h : Orderly c.config marks e.progress)
    (event : Event) : Orderly c.config (marks ++ c.marksAt e event) (e.next c.move event).progress := by
  obtain ⟨progress, world⟩ := e
  have hidle : Orderly c.config (marks ++ []) progress := by
    rw [List.append_nil]
    exact h
  rcases event with who | _ | nanos
  · rcases progress with s | result | _
    · rcases hs : s.mines with _ | _
      · exact h.between hs who
      · obtain ⟨s, r, rfl⟩ := exists_goto hs
        cases r with
        | opening work range => exact h.opening who
        | searching work started spawning board workers => exact h.searching who
        | submitting report winner submission => exact h.submitting who
    · exact hidle
    · exact hidle
  · exact hidle
  · exact hidle

end Step

theorem orderly_run (c : Setup σ) (events : List Event) :
    Orderly c.config (c.marks events) (c.run events).progress := by
  induction events using List.reverseRecOn with
  | nil =>
    refine ⟨lawful_nil _, fun s hs => ?_, fun _ => rfl⟩
    cases hs
    exact ⟨rfl, rfl⟩
  | append_singleton events event ih =>
    rw [c.marks_concat, c.run_concat]
    exact orderly_next ih event

/-- A second header is handed in for another round. -/
theorem Lawful.starts_between {config : Config} {marks before between after : List Mark} {header header' : Header}
    {answer answer' : Option (Except NodeFailure Bool)} (h : Lawful config marks)
    (hmarks : marks =
      before ++ .asked (.submit header) answer :: between ++ .asked (.submit header') answer' :: after) :
    ∃ work workers, .starts work workers ∈ between := by
  have hprefix : before ++ .asked (.submit header) answer :: between ++ [.asked (.submit header') answer'] <+: marks :=
    ⟨after, by simp [hmarks]⟩
  obtain ⟨winner, looks, ⟨work, crew, board, workers, hsince, -, -, -, hlooks⟩, -⟩ := (h _ _ hprefix).allowed
  have hnot : .asked (.submit header) answer ∉ .starts work crew :: .joins board workers :: looks := by
    intro hmem
    simp only [List.mem_cons, reduceCtorEq, false_or] at hmem
    obtain ⟨answer', heq⟩ := hlooks _ hmem
    cases heq
  -- the start of the second header's round lies before or after the first header, and before it cannot be
  rcases List.suffix_or_suffix_of_suffix hsince (List.suffix_append before _) with hsuffix | hsuffix
  · rcases List.suffix_cons_iff.1 hsuffix with heq | hsuffix
    · rw [heq] at hnot
      exact absurd List.mem_cons_self hnot
    · exact ⟨work, crew, hsuffix.subset List.mem_cons_self⟩
  · exact absurd (hsuffix.subset List.mem_cons_self) hnot

/-- Work that the thread was given in a session that has ended was searched next. -/
theorem Orderly.starts {config : Config} {marks past : List Mark} {progress : Progress Session (Except Failure Stats)}
    {mark : Mark} {work : Work} (h : Orderly config marks progress) (hended : ∀ s, progress ≠ .running s)
    (hpast : past ++ [mark] <+: marks) (hgiven : mark.given? = some work) :
    ∃ workers, past ++ [mark, .starts work workers] <+: marks := by
  obtain ⟨after, rfl⟩ := hpast
  have hlast : (past ++ [mark]).getLast?.bind Mark.given? = some work := (given?_concat past mark).trans hgiven
  cases after with
  | nil =>
    have hnone := h.ended hended
    rw [List.append_nil, hlast] at hnone
    cases hnone
  | cons next after =>
    obtain ⟨workers, rfl⟩ := (h.lawful (past ++ [mark]) next ⟨after, by simp⟩).started work hlast
    exact ⟨workers, after, by simp⟩

/-- The requests among the marks of a run are those of the session's thread in the journal, and the reports are those
of its rounds. Each mark may follow those before it, and between two headers that are handed in, another round starts.
In a session that has ended, each template that it was given was followed by its round. -/
theorem marks_in_order (c : Setup σ) (events : List Event) :
    (c.marks events).filterMap Mark.call? = c.ownCalls (c.run events).world ∧
    (c.marks events).filterMap Mark.report? = c.reports events ∧
    (∀ past mark, past ++ [mark] <+: c.marks events → mark.Follows c.config past) ∧
    (∀ (before between after : List Mark) (header header' : Header) (answer answer' : Option (Except NodeFailure Bool)),
      c.marks events =
        before ++ .asked (.submit header) answer :: between ++ .asked (.submit header') answer' :: after →
      ∃ work workers, .starts work workers ∈ between) ∧
    ((∀ s, (c.run events).progress ≠ .running s) →
      ∀ past mark work, past ++ [mark] <+: c.marks events → mark.given? = some work →
        ∃ workers, past ++ [mark, .starts work workers] <+: c.marks events) := by
  have horderly := orderly_run c events
  exact ⟨c.calls_marks events, c.reports_marks events, horderly.lawful,
    fun _ _ _ _ _ _ _ => horderly.lawful.starts_between, fun hended _ _ _ => horderly.starts hended⟩

/-- A session of one round: the template is searched, and the header of its winner handed in. -/
theorem marks_in_order_solved :
    let header : Header :=
      { version := 0, prevBlockHash := BlockHash.zero.bytes, merkleRoot := Bytes.zero 32,
        referenceHash := Bytes.zero 32, time := 3, bits := 0x207fffff, nonce := 0 }
    let node := ((ScriptedNode.ofLocal { bits := header.bits, clock := fun _ => header.time }).setScript .template
      { answers := [some (.ok (Work.ofHeader header))] }).setScript .submit { answers := [some (.ok true)] }
    let c : Setup ScriptedNode :=
      ⟨{ threads := some 1, lanes := some .one, resyncBatches := 1, maxRounds := some 1 }, {}, ScriptedNode.answer,
        { node }⟩
    let events : List Event :=
      List.replicate 7 (.step .session) ++ List.replicate 7 (.step (.worker 0)) ++ List.replicate 4 (.step .session)
    (∃ past mark work workers, mark.given? = some work ∧ past ++ [mark, .starts work workers] <+: c.marks events) ∧
    ∃ past header accepted, past ++ [.asked (.submit header) (some accepted)] <+: c.marks events ∧
      (Mark.asked (.submit header) (some accepted)).Allowed c.config past := by
  intro header node c events
  obtain ⟨hcalls, -, hfollows, -, hstarts⟩ := marks_in_order c events
  obtain ⟨hstats, hgiven, hsubmitted⟩ : (c.stats? events).isSome ∧
      ((c.ownCalls (c.run events).world).any fun call => (Mark.asked call.request (some call.answer)).given?.isSome) ∧
      (c.ownCalls (c.run events).world).any (·.submission?.isSome) := by
    decide +kernel
  have hreached {p : Call → Bool} (hp : (c.ownCalls (c.run events).world).any p) :
      ∃ past call, past ++ [.asked call.request (some call.answer)] <+: c.marks events ∧ p call := by
    obtain ⟨call, hcall, hp⟩ := List.any_eq_true.1 hp
    rw [← hcalls] at hcall
    obtain ⟨mark, hmem, hmark⟩ := List.mem_filterMap.1 hcall
    obtain ⟨past, after, heq⟩ := List.append_of_mem hmem
    rw [Mark.eq_of_call? hmark] at heq
    exact ⟨past, call, ⟨after, by simp [heq]⟩, hp⟩
  constructor
  · obtain ⟨past, call, hprefix, hcall⟩ := hreached hgiven
    obtain ⟨work, hwork⟩ := Option.isSome_iff_exists.1 hcall
    obtain ⟨stats, hreturned⟩ := Option.isSome_iff_exists.1 hstats
    have hended (s : Session) : (c.run events).progress ≠ .running s := by
      rw [c.progress_of_stats? hreturned]
      rintro ⟨⟩
    obtain ⟨workers, hstarts⟩ := hstarts hended past _ work hprefix hwork
    exact ⟨past, _, work, workers, hwork, hstarts⟩
  · obtain ⟨past, ⟨who, request, answer⟩, hprefix, hcall⟩ := hreached hsubmitted
    cases request with
    | submit header => exact ⟨past, header, answer, hprefix, (hfollows past _ hprefix).allowed⟩
    | _ => cases hcall

end HeaderMiner.Session
