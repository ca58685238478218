import HeaderMiner.Proofs.Session.Protocol
import Mathlib

/-!
# Outages

A session that looks for peers in vain is in an outage. It looks at two places: once when it turns to another round,
and then in the wait for peers, and only the looks of the wait count towards waiting for the chain (`waitedLooks`). In
a session that is not interrupted, what has become of the last outage can be told by where the session stands
(`Attends`): after more counted looks than configured, the chain has held still before the next reference is asked for.
-/

namespace HeaderMiner.Session

variable {σ : Type}

/-- A look for peers in vain. -/
def Mark.isVain : Mark → Bool
  | .asked .peers (some false) => true
  | _ => false

def Mark.isTurn : Mark → Bool
  | .turns _ _ => true
  | _ => false

/-- The looks in vain at the end of these marks, one after the other. -/
def vainLooks (marks : List Mark) : Nat := (marks.rtakeWhile Mark.isVain).length

/-- Those of them that the wait for peers makes. The first look after a turn to another round is not one of these. -/
def waitedLooks (marks : List Mark) : Nat :=
  if (marks.rdropWhile Mark.isVain).getLast?.any Mark.isTurn then vainLooks marks - 1 else vainLooks marks

/-- The thread hands in a winner: since the end of a search it has only made requests. -/
def HandingIn (marks : List Mark) : Prop :=
  ∃ board workers asks, .joins board workers :: asks <:+ marks ∧ ∀ ask ∈ asks, ∃ r answer, ask = .asked r answer

/-- The node has told one height, and then the same one for a whole window. -/
def Settled (config : Config) (marks : List Mark) : Prop :=
  ∃ height : UInt64, List.replicate (config.syncWindowPolls.toNat + 1) (.asked .height (some height)) <:+: marks

/-- After each outage with more than so many counted looks the chain has settled, or else no reference was asked for
since. -/
def Mended (config : Config) (limit : Nat) (marks : List Mark) : Prop :=
  ∀ before since, marks = before ++ since → ¬ HandingIn before → (∀ answer, .asked .reference answer ∉ since) →
    limit < waitedLooks before → Settled config since

section Looks

variable {config : Config} {marks : List Mark} {mark : Mark} {limit : Nat}

theorem vainLooks_concat (marks : List Mark) (mark : Mark) :
    vainLooks (marks ++ [mark]) = if mark.isVain then vainLooks marks + 1 else 0 := by
  rw [vainLooks, List.rtakeWhile_concat]
  split
  · rw [List.length_append]
    rfl
  · rfl

theorem waitedLooks_concat_of_not (h : mark.isVain = false) : waitedLooks (marks ++ [mark]) = 0 := by
  have hvain : vainLooks (marks ++ [mark]) = 0 := by
    rw [vainLooks_concat, h]
    rfl
  rw [waitedLooks, hvain]
  split <;> rfl

/-- The last mark of an outage is a look in vain. -/
theorem isVain_of_waitedLooks (h : 0 < waitedLooks (marks ++ [mark])) : mark.isVain = true := by
  by_contra hmark
  rw [waitedLooks_concat_of_not (by simpa using hmark)] at h
  cases h

/-- Just after a turn, the marks end with it. -/
theorem exists_turn (h : marks.getLast?.any Mark.isTurn = true) :
    ∃ earlier turn, marks = earlier ++ [turn] ∧ turn.isTurn = true ∧ turn.isVain = false := by
  rcases List.eq_nil_or_concat marks with rfl | ⟨earlier, turn, rfl⟩
  · cases h
  · rw [List.concat_eq_append] at h ⊢
    rw [List.getLast?_concat] at h
    cases turn with
    | turns => exact ⟨earlier, _, rfl, rfl, rfl⟩
    | _ => cases h

theorem waitedLooks_of_turn (h : marks.getLast?.any Mark.isTurn = true) : waitedLooks marks = 0 := by
  obtain ⟨earlier, turn, rfl, -, hvain⟩ := exists_turn h
  exact waitedLooks_concat_of_not hvain

/-- The first look after a turn does not count. -/
theorem waitedLooks_turn (h : marks.getLast?.any Mark.isTurn = true) :
    waitedLooks (marks ++ [.asked .peers (some false)]) = 0 := by
  obtain ⟨earlier, turn, rfl, hturn, hvain⟩ := exists_turn h
  rw [waitedLooks, List.rdropWhile_concat_pos _ _ _ rfl, List.rdropWhile_concat_neg _ _ _ (by simp [hvain]),
    List.getLast?_concat, vainLooks_concat, vainLooks_concat, hvain]
  exact if_pos hturn

theorem waitedLooks_vain (h : marks.getLast?.any Mark.isTurn = false) :
    waitedLooks (marks ++ [.asked .peers (some false)]) = waitedLooks marks + 1 := by
  have hvain : vainLooks (marks ++ [.asked .peers (some false)]) = vainLooks marks + 1 := vainLooks_concat _ _
  rw [waitedLooks, waitedLooks, hvain, List.rdropWhile_concat_pos _ _ _ rfl]
  rcases List.eq_nil_or_concat marks with rfl | ⟨earlier, last, rfl⟩
  · rfl
  · rw [List.concat_eq_append] at h ⊢
    by_cases hlast : last.isVain
    · -- the outage goes on, and all looks but the first one count in any case
      have hpos : 0 < vainLooks (earlier ++ [last]) := by
        rw [vainLooks_concat, if_pos hlast]
        exact Nat.succ_pos _
      split <;> omega
    · rw [List.rdropWhile_concat_neg _ _ _ hlast, h]
      rfl

theorem handingIn_concat {r : Request} {answer : Option r.Answer} :
    HandingIn (marks ++ [.asked r answer]) ↔ HandingIn marks := by
  constructor
  · rintro ⟨board, workers, asks, hsince, hasks⟩
    rcases List.eq_nil_or_concat asks with rfl | ⟨earlier, last, rfl⟩
    · obtain ⟨front, heq⟩ := hsince
      cases (List.append_inj' heq rfl).2
    · rw [List.concat_eq_append] at hsince hasks
      rw [← List.cons_append] at hsince
      obtain ⟨front, heq⟩ := hsince
      rw [← List.append_assoc] at heq
      exact ⟨board, workers, earlier, ⟨front, (List.append_inj' heq rfl).1⟩,
        fun ask hask => hasks ask (List.mem_append_left _ hask)⟩
  · rintro ⟨board, workers, asks, hsince, hasks⟩
    have hsince' := suffix_concat hsince (Mark.asked r answer)
    rw [List.cons_append] at hsince'
    refine ⟨board, workers, asks ++ [.asked r answer], hsince', fun ask hask => ?_⟩
    rcases List.mem_append.1 hask with hask | hask
    · exact hasks ask hask
    · exact ⟨r, answer, List.mem_singleton.1 hask⟩

theorem not_handingIn (h : ∀ board workers, .joins board workers ∉ marks) : ¬ HandingIn marks := by
  rintro ⟨board, workers, asks, hsince, -⟩
  exact h board workers (hsince.subset List.mem_cons_self)

theorem Settled.concat (h : Settled config marks) (mark : Mark) : Settled config (marks ++ [mark]) := by
  obtain ⟨height, hheights⟩ := h
  exact ⟨height, hheights.trans (List.prefix_append _ _).isInfix⟩

theorem mended_nil (config : Config) (limit : Nat) : Mended config limit [] := by
  intro before since heq _ _ hmany
  obtain ⟨rfl, rfl⟩ := List.append_eq_nil_iff.1 heq.symm
  cases hmany

theorem Mended.mono {limit' : Nat} (h : Mended config limit marks) (hle : limit ≤ limit') :
    Mended config limit' marks :=
  fun before since heq hown hsince hmany => h before since heq hown hsince (Nat.lt_of_le_of_lt hle hmany)

/-- One more mark brings one more outage at most, the one that it ends. -/
theorem Mended.concat (h : Mended config limit marks)
    (hmark : HandingIn (marks ++ [mark]) ∨ waitedLooks (marks ++ [mark]) ≤ limit) :
    Mended config limit (marks ++ [mark]) := by
  intro before since heq hown hsince hmany
  rcases List.eq_nil_or_concat since with rfl | ⟨earlier, last, rfl⟩
  · rw [List.append_nil] at heq
    subst heq
    rcases hmark with hin | hle
    · exact absurd hin hown
    · exact absurd hmany (Nat.not_lt.2 hle)
  · rw [List.concat_eq_append] at heq hsince ⊢
    rw [← List.append_assoc] at heq
    obtain ⟨rfl, -⟩ := List.append_inj' heq rfl
    refine (h before earlier rfl hown (fun answer hanswer => ?_) hmany).concat last
    exact hsince answer (List.mem_append_left _ hanswer)

/-- When the last heights were the same for a whole window, no outage is left. -/
theorem mended_of_heights {height : UInt64} {stable : Nat}
    (h : List.replicate (stable + 1) (.asked .height (some height)) <:+ marks)
    (hstable : config.syncWindowPolls.toNat ≤ stable) (limit : Nat) : Mended config limit marks := by
  rintro before since rfl - - hmany
  have hsettled : Settled config (List.replicate (stable + 1) (.asked .height (some height))) := by
    refine ⟨height, (List.prefix_iff_eq_take.2 ?_).isInfix⟩
    rw [List.take_replicate, List.length_replicate, Nat.min_eq_left (Nat.succ_le_succ hstable)]
  have hinfix {heights : List Mark} (hs : Settled config heights) (hsub : heights <:+: since) :
      Settled config since := by
    obtain ⟨height, hheights⟩ := hs
    exact ⟨height, hheights.trans hsub⟩
  rcases List.suffix_or_suffix_of_suffix h (List.suffix_append before since) with hsub | ⟨front, hfront⟩
  · exact hinfix hsettled hsub.isInfix
  · rcases List.eq_nil_or_concat front with rfl | ⟨earlier, last, rfl⟩
    · rw [List.nil_append] at hfront
      rw [hfront]
      exact hsettled
    · -- else the outage would end with a height
      rw [List.concat_eq_append] at hfront
      obtain ⟨rest, hrest⟩ := h
      rw [← hfront, ← List.append_assoc] at hrest
      rw [← (List.append_inj' hrest rfl).1, ← List.append_assoc] at hmany
      have hlast : last = .asked .height (some height) := by
        refine List.eq_of_mem_replicate (n := stable + 1) ?_
        rw [← hfront]
        simp
      have hvain := isVain_of_waitedLooks (Nat.zero_lt_of_lt hmany)
      rw [hlast] at hvain
      cases hvain

end Looks

/-! ### Where a session stands in an outage -/

/-- There is no outage that the chain has to settle after, unless it has settled. -/
structure Rested (config : Config) (marks : List Mark) : Prop where
  mended : Mended config config.syncAfterOfflinePolls.toNat marks
  vain : marks.getLast? = some (.asked .peers (some false)) → HandingIn marks
  found : ∀ before, marks = before ++ [.asked .peers (some true)] → ¬ HandingIn before →
    waitedLooks before ≤ config.syncAfterOfflinePolls.toNat

/-- The session waits for peers, and has counted these looks. -/
structure Waits (config : Config) (polls : Nat) (marks : List Mark) : Prop where
  looks : waitedLooks marks = polls
  isVain : ∀ mark, marks.getLast? = some mark → mark.isVain = true
  mended : Mended config (max config.syncAfterOfflinePolls.toNat polls) marks

/-- What has become of the last outage, by where the session stands. -/
def Attends (config : Config) (marks : List Mark) : Phase → Prop
  | .waiting (.asking polls) => Waits config polls marks
  | .waiting (.offline polls) => Waits config (polls + 1) marks
  | .settling .starting =>
    ∃ before, marks = before ++ [.asked .peers (some true)] ∧ config.syncAfterOfflinePolls.toNat < waitedLooks before
  | .settling (.counting height stable) | .settling (.asking height stable) =>
    List.replicate (stable + 1) (.asked .height (some height)) <:+ marks
  | .askingPeers => Rested config marks ∧ marks.getLast?.any Mark.isTurn
  | .looping | .fetching _ | .mining _ => Rested config marks

/-- What the thread may do after an outage. -/
structure Mark.Heeds (config : Config) (past : List Mark) (mark : Mark) : Prop where
  mended : ∀ answer, mark = .asked .reference answer → Mended config config.syncAfterOfflinePolls.toNat past
  again : past.getLast? = some (.asked .peers (some false)) → ¬ HandingIn past → ∃ answer, mark = .asked .peers answer
  chain : ∀ before, past = before ++ [.asked .peers (some true)] → ¬ HandingIn before →
    ((∃ answer, mark = .asked .height answer) ↔ config.syncAfterOfflinePolls.toNat < waitedLooks before)

def Heedful (config : Config) (marks : List Mark) : Prop :=
  ∀ past mark, past ++ [mark] <+: marks → mark.Heeds config past

section Marks

variable {config : Config} {marks : List Mark} {mark : Mark} {polls : Nat}

theorem isVain_iff : mark.isVain = true ↔ mark = .asked .peers (some false) := by
  constructor
  · intro h
    unfold Mark.isVain at h
    split at h
    · rfl
    · cases h
  · rintro rfl
    rfl

theorem Rested.heeds (h : Rested config marks) (hmark : ∀ answer, mark ≠ .asked .height answer) :
    mark.Heeds config marks := by
  refine ⟨fun _ _ => h.mended, fun hlast hown => absurd (h.vain hlast) hown, fun before heq hown => ?_⟩
  refine iff_of_false ?_ (Nat.not_lt.2 (h.found before heq hown))
  rintro ⟨answer, heq⟩
  exact hmark answer heq

theorem Rested.concat (h : Rested config marks) (hlook : ∀ answer, mark = .asked .peers answer → HandingIn marks) :
    Rested config (marks ++ [mark]) := by
  refine ⟨h.mended.concat ?_, fun hlast => ?_, fun before heq hown => ?_⟩
  · cases hmark : mark.isVain with
    | false =>
      rw [waitedLooks_concat_of_not hmark]
      exact .inr (Nat.zero_le _)
    | true =>
      obtain rfl := isVain_iff.1 hmark
      exact .inl (handingIn_concat.2 (hlook _ rfl))
  · rw [List.getLast?_concat] at hlast
    obtain rfl := Option.some_inj.1 hlast
    exact handingIn_concat.2 (hlook _ rfl)
  · obtain ⟨rfl, hmark⟩ := List.append_inj' heq rfl
    exact absurd (hlook _ (List.singleton_inj.1 hmark)) hown

/-- With peers after a wait that was not long, the session goes on. -/
theorem Mended.meet (h : Mended config config.syncAfterOfflinePolls.toNat marks)
    (hshort : waitedLooks marks ≤ config.syncAfterOfflinePolls.toNat) :
    Rested config (marks ++ [.asked .peers (some true)]) := by
  refine ⟨h.concat (.inr ?_), fun hlast => ?_, fun before heq _ => ?_⟩
  · rw [waitedLooks_concat_of_not rfl]
    exact Nat.zero_le _
  · rw [List.getLast?_concat] at hlast
    cases hlast
  · obtain ⟨rfl, -⟩ := List.append_inj' heq rfl
    exact hshort

theorem waits_nil (config : Config) : Waits config 0 [] := by
  refine ⟨rfl, ?_, mended_nil _ _⟩
  rintro mark ⟨⟩

theorem Waits.of_turn (h : Rested config marks) (hturn : marks.getLast?.any Mark.isTurn = true) :
    Waits config 0 (marks ++ [.asked .peers (some false)]) := by
  have hnone := waitedLooks_turn hturn
  refine ⟨hnone, fun mark hmark => ?_, (h.mended.concat ?_).mono (Nat.le_max_left _ _)⟩
  · rw [List.getLast?_concat] at hmark
    exact isVain_iff.2 (Option.some_inj.1 hmark).symm
  · rw [hnone]
    exact .inr (Nat.zero_le _)

theorem Waits.miss (h : Waits config polls marks) :
    Waits config (polls + 1) (marks ++ [.asked .peers (some false)]) := by
  have hlast : marks.getLast?.any Mark.isTurn = false := by
    rcases hlast : marks.getLast? with _ | last
    · rfl
    · obtain rfl := isVain_iff.1 (h.isVain last hlast)
      rfl
  have hlooks := waitedLooks_vain hlast
  rw [h.looks] at hlooks
  refine ⟨hlooks, fun mark hmark => ?_, (h.mended.mono (by omega)).concat (.inr ?_)⟩
  · rw [List.getLast?_concat] at hmark
    exact isVain_iff.2 (Option.some_inj.1 hmark).symm
  · rw [hlooks]
    exact Nat.le_max_right _ _

/-- The session waits on as long as there are no peers. -/
theorem Waits.heeds (h : Waits config polls marks) (answer : Option Bool) :
    (Mark.asked .peers answer).Heeds config marks := by
  refine ⟨?_, fun _ _ => ⟨answer, rfl⟩, fun before heq _ => ?_⟩
  · rintro _ ⟨⟩
  · have hvain := h.isVain (.asked .peers (some true)) (by rw [heq, List.getLast?_concat])
    cases hvain

theorem Waits.attends_afterPeers (h : Waits config polls marks) (s : Session) :
    Attends config (marks ++ [.asked .peers (some true)]) (s.afterPeers config polls).phase := by
  obtain ⟨rfl, -, hmended⟩ := h
  unfold afterPeers
  split
  · exact ⟨marks, rfl, ‹_›⟩
  · have hshort := Nat.not_lt.1 ‹_›
    rw [Nat.max_eq_left hshort] at hmended
    exact hmended.meet hshort

theorem getLast?_ne_of_heights {height : UInt64} {stable : Nat}
    (h : List.replicate (stable + 1) (.asked .height (some height)) <:+ marks) (answer : Option Bool) :
    marks.getLast? ≠ some (.asked .peers answer) := by
  obtain ⟨front, rfl⟩ := h
  rw [List.replicate_succ', ← List.append_assoc, List.getLast?_concat]
  rintro ⟨⟩

/-- If the last thing was no look for peers, there is nothing to heed but that no reference is asked for. -/
theorem heeds_of_getLast?_ne (hlast : ∀ answer, marks.getLast? ≠ some (.asked .peers answer))
    (hmark : ∀ answer, mark ≠ .asked .reference answer) : mark.Heeds config marks := by
  refine ⟨fun answer heq => absurd heq (hmark answer), fun hvain => absurd hvain (hlast _), fun before heq => ?_⟩
  exact absurd (by rw [heq, List.getLast?_concat]) (hlast (some true))

theorem Mended.rested (h : Mended config config.syncAfterOfflinePolls.toNat marks)
    (hlast : ∀ answer, marks.getLast? ≠ some (.asked .peers answer)) : Rested config marks := by
  refine ⟨h, fun hvain => absurd hvain (hlast _), fun before heq => ?_⟩
  exact absurd (by rw [heq, List.getLast?_concat]) (hlast (some true))

theorem Heedful.concat (h : Heedful config marks) (hmark : mark.Heeds config marks) :
    Heedful config (marks ++ [mark]) :=
  forall_prefix_concat h hmark

end Marks

section Between

variable {config : Config} {marks : List Mark} {s s' : Session} {mark : Mark} {node : Node σ} {world : World σ}

/-- Whatever the answer, the next step is one that the thread may take. -/
theorem Attends.heeds (h : Attends config marks s.phase) (hmark : s.act? config node world = some mark) :
    mark.Heeds config marks := by
  obtain ⟨stats, phase⟩ := s
  cases phase with
  | looping =>
    cases hmark
    refine Rested.heeds h ?_
    rintro _ ⟨⟩
  | waiting wait =>
    obtain ⟨r, hr, rfl⟩ := act?_eq hmark (by rintro ⟨⟩)
    cases wait with
    | asking =>
      cases hr
      exact Waits.heeds h _
    | offline => cases hr
  | settling wait =>
    obtain ⟨r, hr, rfl⟩ := act?_eq hmark (by rintro ⟨⟩)
    cases wait with
    | starting =>
      cases hr
      obtain ⟨before, rfl, hlong⟩ := h
      refine ⟨?_, fun hvain => ?_, fun before' heq _ => ?_⟩
      · rintro _ ⟨⟩
      · rw [List.getLast?_concat] at hvain
        cases hvain
      · obtain ⟨rfl, -⟩ := List.append_inj' heq rfl
        exact iff_of_true ⟨_, rfl⟩ hlong
    | counting => cases hr
    | asking =>
      cases hr
      refine heeds_of_getLast?_ne (getLast?_ne_of_heights h) ?_
      rintro _ ⟨⟩
  | askingPeers =>
    obtain ⟨r, hr, rfl⟩ := act?_eq hmark (by rintro ⟨⟩)
    cases hr
    refine Rested.heeds h.1 ?_
    rintro _ ⟨⟩
  | fetching fetch =>
    obtain ⟨r, hr, rfl⟩ := act?_eq hmark (by rintro ⟨⟩)
    refine Rested.heeds h ?_
    cases fetch with
    | askingReference | askingTemplate =>
      cases hr
      rintro _ ⟨⟩
  | mining round =>
    obtain ⟨r, hr, rfl⟩ := act?_eq hmark (by rintro ⟨⟩)
    refine Rested.heeds h ?_
    cases round with
    | opening | searching => cases hr
    | submitting report winner submission =>
      cases submission with
      | asking | confirming | delivering =>
        cases hr
        rintro _ ⟨⟩
      | retrying left =>
        cases left with
        | zero => cases hr
        | succ left =>
          cases hr
          rintro _ ⟨⟩

theorem Attends.goes (h : Attends config marks s.phase) (hs : s.mines = false) (hint : world.interrupted = false)
    (hgoes : s.Goes config world.interrupted (world.answered node .session (s.request? config)) (.running s')) :
    Attends config (marks ++ (s.act? config node world).toList) s'.phase := by
  generalize hcalled : world.answered node .session (s.request? config) = called at hgoes
  have hasked {r : Request} {answer : r.Answer} (hcall : called = [⟨.session, r, answer⟩]) :
      marks ++ (s.act? config node world).toList = marks ++ [.asked r (some answer)] := by
    rw [act?_of_answered hs (hcalled.trans hcall)]
    rfl
  have hidle (hphase : s.phase ≠ .looping) (hnone : s.request? config = none) :
      marks ++ (s.act? config node world).toList = marks := by
    rw [act?_of_idle hs hphase hnone]
    exact List.append_nil _
  cases hgoes with
  | meet hphase =>
    rw [hphase] at h
    rw [hasked rfl]
    exact Waits.attends_afterPeers h s
  | miss hphase =>
    rw [hphase] at h
    rw [hasked rfl]
    exact Waits.miss h
  | giveUp hphase hint' =>
    rw [hint] at hint'
    cases hint'
  | pause hphase =>
    rw [hidle (by rw [hphase]; rintro ⟨⟩) (by rw [request?, hphase]; rfl)]
    rw [hphase] at h
    exact h
  | settle =>
    rw [hasked rfl]
    exact List.suffix_append _ _
  | look hphase =>
    rw [hidle (by rw [hphase]; rintro ⟨⟩) (by rw [request?, hphase]; rfl)]
    rw [hphase] at h
    exact h
  | settled hphase hend =>
    rw [hidle (by rw [hphase]; rintro ⟨⟩) (by rw [request?, hphase]; rfl)]
    rw [hphase] at h
    have hstill := hend.resolve_right (by rw [hint]; exact Bool.false_ne_true)
    exact (mended_of_heights h hstill _).rested (getLast?_ne_of_heights h)
  | hold hphase =>
    rw [hphase] at h
    rw [hasked rfl]
    show List.replicate (_ + 1 + 1) _ <:+ _
    rw [List.replicate_succ']
    exact suffix_concat h _
  | shift =>
    rw [hasked rfl]
    exact List.suffix_append _ _
  | loop hphase =>
    have hact : s.act? config node world = some (.turns false s.stats.rounds) := by rw [act?, hphase, hint]
    rw [hact]
    rw [hphase] at h
    refine ⟨Rested.concat h ?_, ?_⟩
    · rintro _ ⟨⟩
    · show (marks ++ [_]).getLast?.any Mark.isTurn = true
      rw [List.getLast?_concat]
      rfl
  | greet hphase =>
    rw [hphase] at h
    rw [hasked rfl]
    refine h.1.mended.meet ?_
    rw [waitedLooks_of_turn h.2]
    exact Nat.zero_le _
  | part hphase =>
    rw [hphase] at h
    rw [hasked rfl]
    exact .of_turn h.1 h.2
  | refer hphase | lack hphase | mine hphase | fail hphase =>
    rw [hphase] at h
    rw [hasked rfl]
    refine Rested.concat h ?_
    rintro _ ⟨⟩

end Between

/-! ### Steps in a round -/

section Mining

variable {c : Setup σ} {marks : List Mark} {s : Session} {world : World σ} {r : Round} {who : Thread}

/-- In its rounds, the session's thread makes requests to hand in the winner. -/
theorem handingIn_of_actsAt (hstands : Stands c.config marks (.mining r)) {mark : Mark}
    (hmark : mark ∈ c.actsAt (s.goto (.mining r)) world who) : HandingIn marks := by
  cases who with
  | worker id => cases hmark
  | session =>
    cases r with
    | opening | searching => cases hmark
    | submitting report winner submission =>
      obtain ⟨looks, ⟨work, crew, board, workers, hsince, -, -, -, hlooks⟩, -⟩ := hstands
      refine ⟨board, workers, looks, (List.suffix_cons _ _).trans hsince, fun ask hask => ?_⟩
      obtain ⟨answer, rfl⟩ := hlooks ask hask
      exact ⟨.peers, answer, rfl⟩

/-- Whatever else happens in a round is no request. -/
theorem not_asked_of_bounds {before after : Progress Session (Except Failure Stats)} {reports : List RoundReport}
    {mark : Mark} (hmark : mark ∈ bounds before after ++ reports.map .records) (r : Request)
    (answer : Option r.Answer) : mark ≠ .asked r answer := by
  rintro rfl
  rcases List.mem_append.1 hmark with hmark | hmark
  · unfold bounds at hmark
    split at hmark <;> simp at hmark
  · obtain ⟨report, -, heq⟩ := List.mem_map.1 hmark
    cases heq

theorem Heedful.append {config : Config} {acts : List Mark} (h : Heedful config marks) (hrested : Rested config marks)
    (hacts : ∀ mark ∈ acts, ∀ r answer, mark ≠ .asked r answer) :
    Heedful config (marks ++ acts) ∧ Rested config (marks ++ acts) := by
  induction acts generalizing marks with
  | nil =>
    rw [List.append_nil]
    exact ⟨h, hrested⟩
  | cons mark acts ih =>
    have hmark := hacts mark List.mem_cons_self
    rw [← List.singleton_append, ← List.append_assoc]
    exact ih (h.concat (hrested.heeds (hmark .height)))
      (hrested.concat fun answer heq => absurd heq (hmark .peers answer))
      fun mark hmem => hacts mark (List.mem_cons_of_mem _ hmem)

theorem attends_afterStep {config : Config} {result : Progress Round (Except Failure RoundReport)} {s' : Session}
    (h : Rested config marks) (hs' : (s.afterStep result world).1 = .running s') : Attends config marks s'.phase := by
  rcases result with r' | ⟨failure | report⟩ | _
  · cases hs'
    exact h
  · cases hs'
  · unfold afterStep afterRound at hs'
    dsimp only at hs'
    split at hs'
    · cases hs'
    · cases hs'
      exact h
  · cases hs'

end Mining

/-! ### Sessions without an interrupt -/

/-- A run of a session that has made these marks: it has heeded its outages, and attends to the last one. -/
structure Watched (config : Config) (marks : List Mark) (progress : Progress Session (Except Failure Stats)) :
    Prop where
  heedful : Heedful config marks
  attends : ∀ s, progress = .running s → Attends config marks s.phase

section Run

variable {c : Setup σ} {marks : List Mark} {s : Session} {world : World σ}

theorem Heedful.act (h : Heedful c.config marks) (hattends : Attends c.config marks s.phase) :
    Heedful c.config (marks ++ (s.act? c.config c.node world).toList) := by
  rcases hact : s.act? c.config c.node world with _ | mark
  · rw [Option.toList_none, List.append_nil]
    exact h
  · exact h.concat (hattends.heeds hact)

theorem Watched.between (h : Watched c.config marks (.running s)) (hs : s.mines = false)
    (hint : world.interrupted = false) (who : Thread) :
    Watched c.config (marks ++ c.marksAt ⟨.running s, world⟩ (.step who)) (c.move who s world).1 := by
  have hattends := h.attends s rfl
  rcases who with _ | id
  · rw [marksAt_between hs]
    refine ⟨h.heedful.act hattends, fun s' hs' => ?_⟩
    have hgoes := s.move_goes c.config c.host c.node world hs
    rw [show (s.move c.config c.host c.node .session world).1 = _ from hs'] at hgoes
    exact hattends.goes hs hint hgoes
  · have hmove : c.move (.worker id) s world = _ := s.move_worker c.config c.host c.node world hs id
    rw [marksAt_of_idle hs, List.append_nil, hmove]
    exact h

theorem Watched.mining {r : Round} (h : Watched c.config marks (.running (s.goto (.mining r))))
    (hstands : Stands c.config marks (.mining r)) (who : Thread) :
    Watched c.config (marks ++ c.marksAt ⟨.running (s.goto (.mining r)), world⟩ (.step who))
      (c.move who (s.goto (.mining r)) world).1 := by
  have hrested : Rested c.config marks := h.attends _ rfl
  have hacts : Heedful c.config (marks ++ c.actsAt (s.goto (.mining r)) world who) ∧
      Rested c.config (marks ++ c.actsAt (s.goto (.mining r)) world who) := by
    cases who with
    | worker id => exact h.heedful.append hrested (by rintro _ ⟨⟩)
    | session =>
      have hin : ∀ mark ∈ (s.goto (.mining r)).act? c.config c.node world, HandingIn marks := by
        intro mark hmark
        have hacts : mark ∈ c.actsAt (s.goto (.mining r)) world .session := Option.mem_toList.2 hmark
        exact handingIn_of_actsAt hstands hacts
      refine ⟨h.heedful.act (s := s.goto (.mining r)) hrested, ?_⟩
      unfold Setup.actsAt
      rcases hact : (s.goto (.mining r)).act? c.config c.node world with _ | mark
      · rw [Option.toList_none, List.append_nil]
        exact hrested
      · exact hrested.concat fun _ _ => hin mark hact
  rcases hmove : r.move c.config c.host c.node who world with ⟨result, world'⟩
  rw [marksAt_mining s hmove, move_mining s hmove, ← List.append_assoc]
  obtain ⟨hheedful, hrested'⟩ := hacts.1.append hacts.2 fun _ hmark => not_asked_of_bounds hmark
  exact ⟨hheedful, fun s' hs' => attends_afterStep hrested' hs'⟩

theorem watched_next {e : Execution σ Session (Except Failure Stats)} (h : Watched c.config marks e.progress)
    (horderly : Orderly c.config marks e.progress) (hint : e.world.interrupted = false) (event : Event) :
    Watched c.config (marks ++ c.marksAt e event) (e.next c.move event).progress := by
  obtain ⟨progress, world⟩ := e
  have hidle : Watched c.config (marks ++ []) progress := by
    rw [List.append_nil]
    exact h
  rcases event with who | _ | nanos
  · rcases progress with s | result | _
    · rcases hs : s.mines with _ | _
      · exact h.between hs hint who
      · obtain ⟨s, r, rfl⟩ := exists_goto hs
        exact h.mining (horderly.course _ rfl).stands who
    · exact hidle
    · exact hidle
  · exact hidle
  · exact hidle

/-- An interrupt is never taken back. -/
theorem interrupted_next (c : Setup σ) (e : Execution σ Session (Except Failure Stats)) (event : Event)
    (h : e.world.interrupted = true) : (e.next c.move event).world.interrupted = true := by
  obtain ⟨progress, world⟩ := e
  rcases event with who | _ | nanos
  · rcases progress with s | result | _
    · rcases hs : s.mines with _ | _
      · rcases who with _ | id
        · exact (s.move_serves c.config c.host c.node world hs).interrupted h
        · have hmove : c.move (.worker id) s world = _ := s.move_worker c.config c.host c.node world hs id
          simp only [Execution.next, hmove]
          exact h
      · obtain ⟨s, r, rfl⟩ := exists_goto hs
        exact (serves_mining c s r world who).interrupted h
    · exact h
    · exact h
  · rfl
  · exact h

theorem watched_run (c : Setup σ) (events : List Event) (hint : (c.run events).world.interrupted = false) :
    Watched c.config (c.marks events) (c.run events).progress := by
  induction events using List.reverseRecOn with
  | nil =>
    refine ⟨fun past mark h => ?_, fun s hs => ?_⟩
    · exact absurd (List.prefix_nil.1 h) (by simp)
    · cases hs
      exact waits_nil c.config
  | append_singleton events event ih =>
    rw [c.run_concat] at hint ⊢
    rw [c.marks_concat]
    have hint' : (c.run events).world.interrupted = false := by
      by_contra hint'
      rw [interrupted_next c _ event (by simpa using hint')] at hint
      cases hint
    exact watched_next (ih hint') (orderly_run c events) hint' event

end Run

/-- Let there be no interrupt. A session that looks for peers in vain, other than to hand in a winner, looks again. When
there are peers, it asks for the chain's height just if its wait has counted more looks than configured; and then the
chain has held still for the configured window before another reference is asked for. -/
theorem chain_awaited (c : Setup σ) (events : List Event) (hint : (c.run events).world.interrupted = false) :
    (∀ (past : List Mark) (mark : Mark), past ++ [mark] <+: c.marks events →
      past.getLast? = some (.asked .peers (some false)) → ¬ HandingIn past → ∃ answer, mark = .asked .peers answer) ∧
    (∀ (before : List Mark) (mark : Mark), before ++ [.asked .peers (some true)] ++ [mark] <+: c.marks events →
      ¬ HandingIn before →
        ((∃ answer, mark = .asked .height answer) ↔ c.config.syncAfterOfflinePolls.toNat < waitedLooks before)) ∧
    ∀ (before since : List Mark) (answer : Option (Except NodeFailure BlockHash)),
      before ++ since ++ [.asked .reference answer] <+: c.marks events → ¬ HandingIn before →
      (∀ answer, .asked .reference answer ∉ since) → c.config.syncAfterOfflinePolls.toNat < waitedLooks before →
        Settled c.config since := by
  have hheedful := (watched_run c events hint).heedful
  refine ⟨fun past mark h => (hheedful past mark h).again, fun before mark h => ?_, fun before since answer h => ?_⟩
  · exact (hheedful _ mark h).chain before rfl
  · exact (hheedful _ _ h).mended answer rfl before since rfl

/-- A session that may lack peers for one look turns to its first round, and then looks three times in vain. -/
theorem chain_awaited_thrice :
    let node : Node (List Bool × List UInt64) := fun
      | .peers, (peers, heights) => { state := (peers.tail, heights), answer := peers.head? }
      | .height, (peers, heights) => { state := (peers, heights.tail), answer := heights.head? }
      | .reference, state => { state, answer := some (.ok .zero) }
      | _, state => { state, answer := none }
    let c : Setup (List Bool × List UInt64) := ⟨{ syncAfterOfflinePolls := 1, syncWindowPolls := 1 }, {}, node,
      { node := ([true, false, false, false, true, true], [7, 8, 8]) }⟩
    let events : List Event := List.replicate 17 (.step .session)
    (c.run events).world.interrupted = false ∧ ∃ before since : List Mark,
      before ++ since ++ [.asked .reference (some (.ok .zero))] <+: c.marks events ∧ ¬ HandingIn before ∧
      (∀ answer, .asked .reference answer ∉ since) ∧ c.config.syncAfterOfflinePolls.toNat < waitedLooks before ∧
      Settled c.config since := by
  intro node c events
  have hint : (c.run events).world.interrupted = false := by decide +kernel
  have hmarks : c.marks events = [.asked .peers (some true), .turns false 0, .asked .peers (some false),
      .asked .peers (some false), .asked .peers (some false), .asked .peers (some true), .asked .height (some 7),
      .asked .height (some 8), .asked .height (some 8), .turns false 0, .asked .peers (some true),
      .asked .reference (some (.ok .zero))] := by cbv
  have hprefix : (c.marks events).take 5 ++ ((c.marks events).drop 5).take 6 ++
      [.asked .reference (some (.ok .zero))] <+: c.marks events := by
    rw [hmarks]
    exact List.prefix_rfl
  have hown : ¬ HandingIn ((c.marks events).take 5) := not_handingIn (by simp [hmarks])
  have hsince : ∀ answer, .asked .reference answer ∉ ((c.marks events).drop 5).take 6 := by simp [hmarks]
  have hlong : c.config.syncAfterOfflinePolls.toNat < waitedLooks ((c.marks events).take 5) := by
    rw [hmarks]
    decide +kernel
  exact ⟨hint, _, _, hprefix, hown, hsince, hlong, (chain_awaited c events hint).2.2 _ _ _ hprefix hown hsince hlong⟩

/-- With one look in vain after the turn to the round and one in the wait, there are more looks in vain than configured.
Still the chain is not waited for. -/
theorem unawaited_after_turn :
    let node : Node (List Bool) := fun
      | .peers, peers => { state := peers.tail, answer := peers.head? }
      | .reference, state => { state, answer := some (.ok .zero) }
      | _, state => { state, answer := none }
    let c : Setup (List Bool) := ⟨{ syncAfterOfflinePolls := 1, syncWindowPolls := 1 }, {}, node,
      { node := [true, false, false, true, true] }⟩
    let events : List Event := List.replicate 9 (.step .session)
    (c.run events).world.interrupted = false ∧ ∃ before since : List Mark,
      before ++ since ++ [.asked .reference (some (.ok .zero))] <+: c.marks events ∧ ¬ HandingIn before ∧
      (∀ answer, .asked .reference answer ∉ since) ∧ c.config.syncAfterOfflinePolls.toNat < vainLooks before ∧
      ¬ Settled c.config since := by
  intro node c events
  have hint : (c.run events).world.interrupted = false := by decide +kernel
  have hmarks : c.marks events = [.asked .peers (some true), .turns false 0, .asked .peers (some false),
      .asked .peers (some false), .asked .peers (some true), .turns false 0, .asked .peers (some true),
      .asked .reference (some (.ok .zero))] := by cbv
  refine ⟨hint, (c.marks events).take 4, ((c.marks events).drop 4).take 3, ?_, ?_, ?_, ?_, ?_⟩
  · rw [hmarks]
    exact List.prefix_rfl
  · exact not_handingIn (by simp [hmarks])
  · simp [hmarks]
  · rw [hmarks]
    decide +kernel
  · rintro ⟨height, hheights⟩
    have hheight := hheights.subset (List.mem_replicate.2 ⟨Nat.succ_ne_zero _, rfl⟩)
    simp [hmarks] at hheight

end HeaderMiner.Session
