import DistributedConsensus.Tendermint.RuleLoop

/-!
# Tendermint: what the loop over the rules misses

`Upon` says when an upon-rule of the algorithm is enabled: the proposal in it is
any proposal of the proposer of the round.  The rules of a node look at the
first such proposal only, except for a decision, where they look at the first
one with the value id that was precommitted.  A node where no rule applies has
therefore nothing left to do exactly if the first proposals of the log are as
good as the others.
-/

namespace DistributedConsensus
namespace Tendermint

open Foundations

section Defs

variable (cfg : SimConfig) (hash : String → String)

/-- A proposal of the proposer of the round. -/
def FromProposer (log : List Message) (h r : ℤ) (m : Message) : Prop :=
  m ∈ log ∧ m.type = .proposal ∧ m.height = h ∧ m.round = r ∧ m.sender = cfg.proposer h r

/-- The proposal has what line 22 or line 28 asks for. -/
def Answerable (log : List Message) (h r : ℤ) (m : Message) : Prop :=
  m.validRound = -1 ∨ (0 ≤ m.validRound ∧ m.validRound < r) ∧
    hasQuorum cfg log .prevote h m.validRound (some (valueId hash m.value)) = true

/-- The proposal is valid, and a quorum has voted for it. -/
def Voted (log : List Message) (mtype : MessageType) (h r : ℤ) (m : Message) : Prop :=
  valid m.value = true ∧ hasQuorum cfg log mtype h r (some (valueId hash m.value)) = true

/-- Nodes of power f+1 have sent something in the round. -/
def Weighty (log : List Message) (h r : ℤ) : Prop :=
  cfg.f + 1 ≤ cfg.votingPowerOf (Node.sendersOf log h r)

/-- An upon-rule of the algorithm is enabled in the height and round of the node. -/
inductive Node.Upon (n : Node) : Prop
  | line22 {m : Message} : FromProposer cfg n.messageLog n.h n.round m → m.validRound = -1 →
      n.step = .propose → n.Upon
  | line28 {m : Message} : FromProposer cfg n.messageLog n.h n.round m →
      hasQuorum cfg n.messageLog .prevote n.h m.validRound (some (valueId hash m.value)) = true →
      n.step = .propose → 0 ≤ m.validRound → m.validRound < n.round → n.Upon
  | line34 : hasQuorum cfg n.messageLog .prevote n.h n.round none = true →
      n.step = .prevote → (n.h, n.round) ∉ n.firedPrevoteTimer → n.Upon
  | line36 {m : Message} : FromProposer cfg n.messageLog n.h n.round m →
      Voted cfg hash n.messageLog .prevote n.h n.round m →
      n.step ≠ .propose → (n.h, n.round) ∉ n.firedLock → n.Upon
  | line44 : hasQuorum cfg n.messageLog .prevote n.h n.round (some none) = true →
      n.step = .prevote → n.Upon
  | line47 : hasQuorum cfg n.messageLog .precommit n.h n.round none = true →
      (n.h, n.round) ∉ n.firedPrecommitTimer → n.Upon
  | line49 {r : ℤ} {m : Message} : FromProposer cfg n.messageLog n.h r m →
      Voted cfg hash n.messageLog .precommit n.h r m →
      n.decisions.contains n.h = false → n.Upon
  | line55 {m : Message} : m ∈ n.messageLog → m.height = n.h → n.round < m.round →
      Weighty cfg n.messageLog n.h m.round → n.Upon

/-- The proposal that the rules look at is as good as any other one of the
round: for a prevote and for a lock in a round that nodes do not leave for a
later one, and for a decision. -/
structure FirstAsGood (log : List Message) (h : ℤ) : Prop where
  answer : ∀ r, (∀ m ∈ log, m.height = h → r < m.round → ¬Weighty cfg log h m.round) →
    (∃ m, FromProposer cfg log h r m ∧ Answerable cfg hash log h r m) →
    ∃ m ∈ findProposal cfg log h r, Answerable cfg hash log h r m
  lock : ∀ r, (∀ m ∈ log, m.height = h → r < m.round → ¬Weighty cfg log h m.round) →
    (∃ m, FromProposer cfg log h r m ∧ Voted cfg hash log .prevote h r m) →
    ∃ m ∈ findProposal cfg log h r, Voted cfg hash log .prevote h r m
  decide : (∃ r m, FromProposer cfg log h r m ∧ Voted cfg hash log .precommit h r m) →
    ∃ r vid, ∃ m ∈ findProposalForId cfg hash log h r vid, Voted cfg hash log .precommit h r m

end Defs

variable {cfg : SimConfig} {hash : String → String}

section Proposals

variable {log : List Message} {h r : ℤ} {m : Message}

theorem fromProposer_of_find
    (hm : findProposal cfg log h r = some m) :
    FromProposer cfg log h r m := by
  have hfound := List.find?_some hm
  rw [decide_eq_true_eq] at hfound
  exact ⟨List.mem_of_find?_eq_some hm, hfound⟩

theorem fromProposer_of_findForId
    {vid : String}
    (hm : findProposalForId cfg hash log h r vid = some m) :
    FromProposer cfg log h r m := by
  have hfound := List.find?_some hm
  rw [decide_eq_true_eq] at hfound
  exact ⟨List.mem_of_find?_eq_some hm, hfound.1, hfound.2.1, hfound.2.2.1, hfound.2.2.2.1⟩

theorem valueId_of_find
    {vid : String}
    (hm : findProposalForId cfg hash log h r vid = some m) :
    valueId hash m.value = some vid := by
  have hfound := List.find?_some hm
  rw [decide_eq_true_eq] at hfound
  exact hfound.2.2.2.2

end Proposals

section Heights

/-- The messages of a height. -/
def ofHeight (log : List Message) (h : ℤ) : List Message :=
  log.filter (fun m => m.height = h)

theorem voters_ofHeight (log : List Message) (mtype : MessageType) (h r : ℤ)
    (vid : Option (Option String)) :
    voters (ofHeight log h) mtype h r vid = voters log mtype h r vid := by
  unfold voters ofHeight
  rw [List.filter_filter]
  congr 3
  grind

theorem hasQuorum_ofHeight (log : List Message) (mtype : MessageType) (h r : ℤ)
    (vid : Option (Option String)) :
    hasQuorum cfg (ofHeight log h) mtype h r vid = hasQuorum cfg log mtype h r vid := by
  unfold hasQuorum
  rw [voters_ofHeight]

theorem findProposal_ofHeight (log : List Message) (h r : ℤ) :
    findProposal cfg (ofHeight log h) h r = findProposal cfg log h r := by
  unfold findProposal ofHeight
  rw [List.find?_filter]
  congr 1
  grind

theorem findProposalForId_ofHeight (log : List Message) (h r : ℤ) (vid : String) :
    findProposalForId cfg hash (ofHeight log h) h r vid =
      findProposalForId cfg hash log h r vid := by
  unfold findProposalForId ofHeight
  rw [List.find?_filter]
  congr 1
  grind

theorem sendersOf_ofHeight (log : List Message) (h r : ℤ) :
    Node.sendersOf (ofHeight log h) h r = Node.sendersOf log h r := by
  unfold Node.sendersOf ofHeight
  rw [List.filter_filter]
  congr 3
  grind

theorem fromProposer_ofHeight {log : List Message} {h r : ℤ} {m : Message} :
    FromProposer cfg (ofHeight log h) h r m ↔ FromProposer cfg log h r m := by
  unfold FromProposer ofHeight
  rw [List.mem_filter]
  grind

theorem answerable_ofHeight {log : List Message} {h r : ℤ} {m : Message} :
    Answerable cfg hash (ofHeight log h) h r m ↔ Answerable cfg hash log h r m := by
  unfold Answerable
  rw [hasQuorum_ofHeight]

theorem voted_ofHeight {log : List Message} {mtype : MessageType} {h r : ℤ} {m : Message} :
    Voted cfg hash (ofHeight log h) mtype h r m ↔ Voted cfg hash log mtype h r m := by
  unfold Voted
  rw [hasQuorum_ofHeight]

theorem weighty_ofHeight {log : List Message} {h r : ℤ} :
    Weighty cfg (ofHeight log h) h r ↔ Weighty cfg log h r := by
  unfold Weighty
  rw [sendersOf_ofHeight]

/-- Whether the first proposals of a height are as good as the others depends on
the messages of the height only. -/
theorem firstAsGood_ofHeight {log : List Message} {h : ℤ} :
    FirstAsGood cfg hash (ofHeight log h) h ↔ FirstAsGood cfg hash log h := by
  have hlater : ∀ r, (∀ m ∈ ofHeight log h, m.height = h → r < m.round →
      ¬Weighty cfg log h m.round) ↔
      ∀ m ∈ log, m.height = h → r < m.round → ¬Weighty cfg log h m.round := by
    unfold ofHeight
    grind
  constructor
  · rintro ⟨hanswer, hlock, hdecide⟩
    simp only [answerable_ofHeight, voted_ofHeight, weighty_ofHeight, findProposal_ofHeight,
      findProposalForId_ofHeight, fromProposer_ofHeight, hlater] at hanswer hlock hdecide
    exact ⟨hanswer, hlock, hdecide⟩
  · rintro ⟨hanswer, hlock, hdecide⟩
    refine ⟨?_, ?_, ?_⟩
    all_goals
      simp only [answerable_ofHeight, voted_ofHeight, weighty_ofHeight, findProposal_ofHeight,
        findProposalForId_ofHeight, fromProposer_ofHeight, hlater]
      assumption

end Heights

namespace Node

section Idle

variable {n n' : Node}

/-- What it says about a node that no rule applies. -/
structure Idle (cfg : SimConfig) (hash : String → String) (n : Node) : Prop where
  answer : n.step = .propose → ∀ m ∈ findProposal cfg n.messageLog n.h n.round,
    ¬Answerable cfg hash n.messageLog n.h n.round m
  prevoteTimer : n.step = .prevote → (n.h, n.round) ∉ n.firedPrevoteTimer →
    hasQuorum cfg n.messageLog .prevote n.h n.round none = false
  lock : n.step ≠ .propose → (n.h, n.round) ∉ n.firedLock →
    ∀ m ∈ findProposal cfg n.messageLog n.h n.round,
      ¬Voted cfg hash n.messageLog .prevote n.h n.round m
  prevoteNil : n.step = .prevote →
    hasQuorum cfg n.messageLog .prevote n.h n.round (some none) = false
  precommitTimer : (n.h, n.round) ∉ n.firedPrecommitTimer →
    hasQuorum cfg n.messageLog .precommit n.h n.round none = false
  decide : n.decisions.contains n.h = false →
    ∀ r vid, ∀ m ∈ findProposalForId cfg hash n.messageLog n.h r vid,
      ¬Voted cfg hash n.messageLog .precommit n.h r m
  skip : ∀ m ∈ n.messageLog, m.height = n.h → n.round < m.round →
    ¬Weighty cfg n.messageLog n.h m.round

theorem prevoteRules_none_iff :
    n.ruleProposalInitial cfg hash = none ∧ n.ruleProposalWithVr cfg hash = none ↔
      (n.step = .propose → ∀ m ∈ findProposal cfg n.messageLog n.h n.round,
        ¬Answerable cfg hash n.messageLog n.h n.round m) := by
  unfold ruleProposalInitial ruleProposalWithVr Answerable
  cases hstep : n.step <;> cases hfind : findProposal cfg n.messageLog n.h n.round <;> grind

theorem rulePrevoteTimer_none_iff :
    n.rulePrevoteTimer cfg = none ↔
      (n.step = .prevote → (n.h, n.round) ∉ n.firedPrevoteTimer →
        hasQuorum cfg n.messageLog .prevote n.h n.round none = false) := by
  unfold rulePrevoteTimer
  grind

theorem ruleLockPrecommit_none_iff :
    n.ruleLockPrecommit cfg hash = none ↔
      (n.step ≠ .propose → (n.h, n.round) ∉ n.firedLock →
        ∀ m ∈ findProposal cfg n.messageLog n.h n.round,
          ¬Voted cfg hash n.messageLog .prevote n.h n.round m) := by
  unfold ruleLockPrecommit Voted
  cases hfind : findProposal cfg n.messageLog n.h n.round <;> grind

theorem rulePrevoteNil_none_iff :
    n.rulePrevoteNil cfg = none ↔
      (n.step = .prevote →
        hasQuorum cfg n.messageLog .prevote n.h n.round (some none) = false) := by
  unfold rulePrevoteNil
  grind

theorem rulePrecommitTimer_none_iff :
    n.rulePrecommitTimer cfg = none ↔
      ((n.h, n.round) ∉ n.firedPrecommitTimer →
        hasQuorum cfg n.messageLog .precommit n.h n.round none = false) := by
  unfold rulePrecommitTimer
  grind

theorem ruleRoundSkip_none_iff :
    n.ruleRoundSkip cfg hash = none ↔
      ∀ m ∈ n.messageLog, m.height = n.h → n.round < m.round →
        ¬Weighty cfg n.messageLog n.h m.round := by
  unfold ruleRoundSkip Weighty
  rw [Option.map_eq_none_iff]
  exact skipTarget_spec.2

/-- Of a quorum there is a vote in the log. -/
theorem exists_vote
    (hvalidate : cfg.validate = true)
    {log : List Message} {mtype : MessageType} {h r : ℤ} {vid : Option (Option String)}
    (hquorum : hasQuorum cfg log mtype h r vid = true) :
    ∃ m ∈ log, m.type = mtype ∧ m.height = h ∧ m.round = r ∧ ∀ v ∈ vid, m.valueId = v := by
  by_contra hnone
  push Not at hnone
  have hempty : voters log mtype h r vid = ∅ := by
    unfold voters
    rw [List.filter_eq_nil_iff.mpr]
    · rfl
    · intro m hm hvote
      rw [decide_eq_true_eq] at hvote
      obtain ⟨v, hv, hne⟩ := hnone m hm hvote.1 hvote.2.1 hvote.2.2.1
      exact hne (hvote.2.2.2 v hv)
  have hf := SimConfig.f_nonneg hvalidate
  rw [hasQuorum, hempty, decide_eq_true_eq] at hquorum
  simp only [SimConfig.quorum, SimConfig.votingPowerOf, Finset.sum_empty] at hquorum
  omega

theorem mem_precommitIds {rank : List String → String → ℕ} {r : ℤ} {vid : String} :
    vid ∈ n.precommitIds rank r ↔ ∃ m ∈ n.messageLog,
      (m.type = .precommit ∧ m.height = n.h ∧ m.round = r) ∧ m.valueId = some vid := by
  simp [precommitIds, and_assoc]

theorem decideOn_none_iff {r : ℤ} {vid : String} :
    n.decideOn cfg hash r vid = none ↔
      ∀ m ∈ findProposalForId cfg hash n.messageLog n.h r vid,
        ¬Voted cfg hash n.messageLog .precommit n.h r m := by
  unfold decideOn Voted
  cases hfind : findProposalForId cfg hash n.messageLog n.h r vid with
  | none => simp
  | some m =>
      have hid : valueId hash m.value = some vid := valueId_of_find hfind
      grind

theorem ruleDecide_none_iff
    (hvalidate : cfg.validate = true)
    {rank : List String → String → ℕ} :
    n.ruleDecide cfg hash rank = none ↔
      (n.decisions.contains n.h = false →
        ∀ r vid, ∀ m ∈ findProposalForId cfg hash n.messageLog n.h r vid,
          ¬Voted cfg hash n.messageLog .precommit n.h r m) := by
  unfold ruleDecide
  split
  case isTrue hdecided => simp [hdecided]
  case isFalse hopen =>
    have hopen' : n.decisions.contains n.h = false := by simpa using hopen
    simp only [List.findSome?_eq_none_iff, decideOn_none_iff, hopen', true_imp_iff]
    refine ⟨fun hall r vid m hfind hvoted => ?_, fun hall r _ vid _ => hall r vid⟩
    -- A value id with a quorum is the id of a precommit of the log.
    have hid : valueId hash m.value = some vid := valueId_of_find hfind
    obtain ⟨vote, hvote, htype, hheight, hround, hvid⟩ := exists_vote hvalidate hvoted.2
    have hvid' : vote.valueId = some vid := (hvid _ rfl).trans hid
    refine hall r (mem_precommitRounds.mpr ⟨vote, hvote, ⟨htype, hheight⟩, hround⟩) vid ?_ m hfind
      hvoted
    exact mem_precommitIds.mpr ⟨vote, hvote, ⟨htype, hheight, hround⟩, hvid'⟩

theorem idle_iff
    (hvalidate : cfg.validate = true)
    {rank : List String → String → ℕ} :
    (∀ rule ∈ rules cfg hash rank, rule n = none) ↔ n.Idle cfg hash := by
  simp only [rules, List.forall_mem_cons, List.not_mem_nil, false_imp_iff, implies_true, and_true]
  constructor
  · rintro ⟨h22, h28, h34, h36, h44, h47, h49, h55⟩
    exact ⟨prevoteRules_none_iff.mp ⟨h22, h28⟩, rulePrevoteTimer_none_iff.mp h34,
      ruleLockPrecommit_none_iff.mp h36, rulePrevoteNil_none_iff.mp h44,
      rulePrecommitTimer_none_iff.mp h47, (ruleDecide_none_iff hvalidate).mp h49,
      ruleRoundSkip_none_iff.mp h55⟩
  · intro hidle
    obtain ⟨h22, h28⟩ := prevoteRules_none_iff.mpr hidle.answer
    exact ⟨h22, h28, rulePrevoteTimer_none_iff.mpr hidle.prevoteTimer,
      ruleLockPrecommit_none_iff.mpr hidle.lock, rulePrevoteNil_none_iff.mpr hidle.prevoteNil,
      rulePrecommitTimer_none_iff.mpr hidle.precommitTimer,
      (ruleDecide_none_iff hvalidate).mpr hidle.decide, ruleRoundSkip_none_iff.mpr hidle.skip⟩

/-- A node where no rule applies has nothing left to do if the first proposals
of its height are as good as the others. -/
theorem Idle.not_upon
    (hidle : n.Idle cfg hash)
    (hfirst : FirstAsGood cfg hash n.messageLog n.h) :
    ¬n.Upon cfg hash := by
  intro hupon
  cases hupon with
  | @line22 m hm hvr hstep =>
      obtain ⟨m', hm', hanswer⟩ := hfirst.answer n.round hidle.skip ⟨m, hm, Or.inl hvr⟩
      exact hidle.answer hstep m' hm' hanswer
  | @line28 m hm hquorum hstep hle hlt =>
      obtain ⟨m', hm', hanswer⟩ :=
        hfirst.answer n.round hidle.skip ⟨m, hm, Or.inr ⟨⟨hle, hlt⟩, hquorum⟩⟩
      exact hidle.answer hstep m' hm' hanswer
  | line34 hquorum hstep hunfired =>
      have hnone := hidle.prevoteTimer hstep hunfired
      rw [hquorum] at hnone
      cases hnone
  | @line36 m hm hvoted hstep hunfired =>
      obtain ⟨m', hm', hvoted'⟩ := hfirst.lock n.round hidle.skip ⟨m, hm, hvoted⟩
      exact hidle.lock hstep hunfired m' hm' hvoted'
  | line44 hquorum hstep =>
      have hnone := hidle.prevoteNil hstep
      rw [hquorum] at hnone
      cases hnone
  | line47 hquorum hunfired =>
      have hnone := hidle.precommitTimer hunfired
      rw [hquorum] at hnone
      cases hnone
  | @line49 r m hm hvoted hopen =>
      obtain ⟨r', vid, m', hm', hvoted'⟩ := hfirst.decide ⟨r, m, hm, hvoted⟩
      exact hidle.decide hopen r' vid m' hm' hvoted'
  | @line55 m hm hheight hlater hweighty => exact hidle.skip m hm hheight hlater hweighty

end Idle

section Converse

/-- A node that has scheduled its timers and waits in a round. -/
def waiting (log : List Message) (h r : ℤ) (step : Step) (decisions : Dict ℤ (Option String)) :
    Node :=
  { Node.new 0 with
    h := h
    round := r
    step := step
    messageLog := log
    decisions := decisions
    firedPrevoteTimer := [(h, r)]
    firedPrecommitTimer := [(h, r)] }

variable {log : List Message} {h r : ℤ}

/-- A node that has decided its height and has no proposal to answer is idle. -/
theorem waiting_propose_idle
    (hskip : ∀ m ∈ log, m.height = h → r < m.round → ¬Weighty cfg log h m.round)
    (hanswer : ∀ m ∈ findProposal cfg log h r, ¬Answerable cfg hash log h r m) :
    (waiting log h r .propose (Dict.empty.set h none)).Idle cfg hash where
  answer := fun _ => hanswer
  prevoteTimer := nofun
  lock := fun hstep => absurd rfl hstep
  prevoteNil := nofun
  precommitTimer := fun hunfired => absurd List.mem_cons_self hunfired
  decide := fun hopen => by
    simp [waiting, Dict.contains, Dict.get?_set] at hopen
  skip := hskip

/-- A node that has decided its height and has no proposal to lock is idle. -/
theorem waiting_precommit_idle
    (hskip : ∀ m ∈ log, m.height = h → r < m.round → ¬Weighty cfg log h m.round)
    (hlock : ∀ m ∈ findProposal cfg log h r, ¬Voted cfg hash log .prevote h r m) :
    (waiting log h r .precommit (Dict.empty.set h none)).Idle cfg hash where
  answer := nofun
  prevoteTimer := nofun
  lock := fun _ _ => hlock
  prevoteNil := nofun
  precommitTimer := fun hunfired => absurd List.mem_cons_self hunfired
  decide := fun hopen => by
    simp [waiting, Dict.contains, Dict.get?_set] at hopen
  skip := hskip

/-- A node in a round after all rounds of the log that finds nothing to decide
is idle. -/
theorem waiting_open_idle
    (hlast : ∀ m ∈ log, m.round < r)
    (hdecide : ∀ r vid, ∀ m ∈ findProposalForId cfg hash log h r vid,
      ¬Voted cfg hash log .precommit h r m) :
    (waiting log h r .propose Dict.empty).Idle cfg hash where
  answer := fun _ m hm => by
    obtain ⟨hmem, -, -, hround, -⟩ : FromProposer cfg log h r m := fromProposer_of_find hm
    have hless := hlast m hmem
    omega
  prevoteTimer := nofun
  lock := fun hstep => absurd rfl hstep
  prevoteNil := nofun
  precommitTimer := fun hunfired => absurd List.mem_cons_self hunfired
  decide := fun _ => hdecide
  skip := fun m hm _ hlater => by
    have hmem := hlast m hm
    simp only [waiting] at hlater
    omega

end Converse

section Loop

variable {n n' : Node}

/-- The height does not decrease, and the messages of the heights from the new
one on stay in the log. -/
def Keeps (n n' : Node) : Prop :=
  n.h ≤ n'.h ∧ ∀ k, n'.h ≤ k → ofHeight n'.messageLog k = ofHeight n.messageLog k

theorem Keeps.refl (n : Node) : Keeps n n := ⟨le_refl _, fun _ _ => rfl⟩

theorem Keeps.trans
    {n₁ n₂ n₃ : Node}
    (h₁ : Keeps n₁ n₂)
    (h₂ : Keeps n₂ n₃) :
    Keeps n₁ n₃ :=
  ⟨h₁.1.trans h₂.1, fun k hk => (h₂.2 k hk).trans (h₁.2 k (h₂.1.trans hk))⟩

theorem Fires.keeps
    (h : Fires cfg hash n n') :
    Keeps n n' := by
  cases h with
  | advances hh _ hlog _ => exact ⟨hh.ge, fun k _ => by rw [hlog]⟩
  | enters =>
      obtain ⟨-, hh, -, hlog, -⟩ := startRound_frame cfg hash n _
      exact ⟨hh.ge, fun k _ => by rw [hlog]⟩
  | @decides _ value =>
      unfold decideValue
      dsimp only
      split
      case isFalse => exact ⟨by dsimp only; omega, fun k _ => rfl⟩
      case isTrue =>
        generalize hnext : resetForNewHeight _ = next
        obtain ⟨-, hh, -, hlog, -⟩ := startRound_frame cfg hash next 0
        have hheight : next.h = n.h + 1 := by rw [← hnext]; rfl
        have hfilter : next.messageLog = n.messageLog.filter (fun m => n.h + 1 ≤ m.height) := by
          rw [← hnext]
          rfl
        refine ⟨by omega, fun k hk => ?_⟩
        rw [hlog, hfilter]
        unfold ofHeight
        rw [List.filter_filter]
        congr 1
        grind

theorem exists_round_gt (log : List Message) : ∃ last, ∀ m ∈ log, m.round < last := by
  induction log with
  | nil => exact ⟨0, nofun⟩
  | cons m log ih =>
      obtain ⟨last, hlast⟩ := ih
      refine ⟨max (m.round + 1) last, fun m' hm' => ?_⟩
      rcases List.mem_cons.mp hm' with rfl | hold
      · omega
      · have hless := hlast m' hold
        omega

/-- The loop over the rules ends in every state.  It misses nothing exactly if
in every height of the log the first proposals are as good as the others. -/
theorem ruleLoop_complete_iff
    (hvalidate : cfg.validate = true)
    (rank : List String → String → ℕ)
    (log : List Message) :
    (∀ n : Node, n.messageLog = log → ∃ k n', n.ruleLoop cfg hash rank k = some n' ∧
        (n'.done = false → ¬n'.Upon cfg hash)) ↔
      ∀ h, FirstAsGood cfg hash log h := by
  constructor
  · intro hcomplete h
    have hidle : ∀ n : Node, n.messageLog = log → n.done = false → n.Idle cfg hash →
        ¬n.Upon cfg hash := by
      intro n hlog hdone hidle
      obtain ⟨k, n', hloop, hnot⟩ := hcomplete n hlog
      obtain rfl : n = n' := Saturation.eq_of_idle ((idle_iff hvalidate).mpr hidle) hloop
      exact hnot hdone
    refine ⟨fun r hskip hanswer => ?_, fun r hskip hlock => ?_, fun hdecide => ?_⟩
    · by_contra hnone
      push Not at hnone
      obtain ⟨m, hm, hvr | ⟨⟨hle, hlt⟩, hquorum⟩⟩ := hanswer
      · exact hidle _ rfl rfl (waiting_propose_idle hskip hnone) (Upon.line22 hm hvr rfl)
      · exact hidle _ rfl rfl (waiting_propose_idle hskip hnone)
          (Upon.line28 hm hquorum rfl hle hlt)
    · by_contra hnone
      push Not at hnone
      obtain ⟨m, hm, hvoted⟩ := hlock
      exact hidle _ rfl rfl (waiting_precommit_idle hskip hnone)
        (Upon.line36 hm hvoted nofun nofun)
    · by_contra hnone
      push Not at hnone
      obtain ⟨r, m, hm, hvoted⟩ := hdecide
      obtain ⟨last, hlast⟩ := exists_round_gt log
      exact hidle _ rfl rfl (waiting_open_idle hlast hnone) (Upon.line49 hm hvoted rfl)
  · rintro hfirst n rfl
    obtain ⟨n', hloop⟩ := @exists_ruleLoop cfg hash rank (n.work + 1) n (by omega)
    refine ⟨n.work + 1, n', hloop, fun _ => ?_⟩
    have hkeeps : Keeps n n' := Saturation.saturate_rel Keeps.refl (fun _ _ _ => Keeps.trans)
      (fun _ hrule _ _ h => (rules_fire hrule h).keeps) hloop
    have hidle : n'.Idle cfg hash := (idle_iff hvalidate).mp (idle_of_ruleLoop hloop)
    refine hidle.not_upon ?_
    rw [← firstAsGood_ofHeight, hkeeps.2 n'.h (le_refl _), firstAsGood_ofHeight]
    exact hfirst n'.h

/-- Without equivocation in the log nothing is missed. -/
theorem firstAsGood_of_unequivocal
    {log : List Message}
    (hsame : ∀ h r m m', FromProposer cfg log h r m → FromProposer cfg log h r m' →
      m.value = m'.value ∧ m.validRound = m'.validRound)
    (h : ℤ) :
    FirstAsGood cfg hash log h := by
  have hfirst : ∀ r m, FromProposer cfg log h r m → ∃ m', findProposal cfg log h r = some m' ∧
      m.value = m'.value ∧ m.validRound = m'.validRound := by
    intro r m hm
    have hsome : (findProposal cfg log h r).isSome := by
      rw [findProposal, List.find?_isSome]
      exact ⟨m, hm.1, decide_eq_true hm.2⟩
    obtain ⟨m', hm'⟩ := Option.isSome_iff_exists.mp hsome
    exact ⟨m', hm', hsame h r m m' hm (fromProposer_of_find hm')⟩
  refine ⟨fun r _ => ?_, fun r _ => ?_, ?_⟩
  · rintro ⟨m, hm, hanswer⟩
    obtain ⟨m', hm', hvalue, hvr⟩ := hfirst r m hm
    unfold Answerable at hanswer ⊢
    rw [hvalue, hvr] at hanswer
    exact ⟨m', hm', hanswer⟩
  · rintro ⟨m, hm, hvoted⟩
    obtain ⟨m', hm', hvalue, -⟩ := hfirst r m hm
    unfold Voted at hvoted ⊢
    rw [hvalue] at hvoted
    exact ⟨m', hm', hvoted⟩
  · rintro ⟨r, m, hm, hvoted⟩
    obtain ⟨v, hv⟩ := eq_some_of_valid hvoted.1
    have hid : valueId hash m.value = some (hash v) := by rw [hv]; rfl
    have hsome : (findProposalForId cfg hash log h r (hash v)).isSome := by
      rw [findProposalForId, List.find?_isSome]
      exact ⟨m, hm.1, decide_eq_true
        ⟨hm.2.1, hm.2.2.1, hm.2.2.2.1, hm.2.2.2.2, hid⟩⟩
    obtain ⟨m', hm'⟩ := Option.isSome_iff_exists.mp hsome
    obtain ⟨hvalue, -⟩ := hsame h r m m' hm (fromProposer_of_findForId hm')
    unfold Voted at hvoted ⊢
    rw [hvalue] at hvoted
    exact ⟨r, hash v, m', hm', hvoted⟩

end Loop

end Node

section Runs

/-- Four nodes, of which node 0, the proposer of the first round, is Byzantine. -/
def twoFaced : SimConfig := ⟨4, 1, 1, [], [], [0]⟩

/-- Node 1 in its first round with one proposal. -/
def wellLed : Node :=
  { (Node.new 1).startRound twoFaced id 0 with
    messageLog := [⟨.proposal, 0, 0, 0, some "A", some "A", -1⟩] }

theorem ruleLoop_complete_iff_wellLed :
    ∃ k n', wellLed.ruleLoop twoFaced id (fun _ _ => 0) k = some n' ∧
      (n'.done = false → ¬n'.Upon twoFaced id) := by
  refine (Node.ruleLoop_complete_iff (by decide) (fun _ _ => 0) _).mpr
    (Node.firstAsGood_of_unequivocal fun h r m m' hm hm' => ?_) wellLed rfl
  have hone := List.mem_singleton.mp hm.1
  have hone' := List.mem_singleton.mp hm'.1
  rw [hone, hone']
  exact ⟨rfl, rfl⟩

/-- The proposer has sent two proposals; a quorum, in which it is itself, has
prevoted the second one. -/
def equivocatedLog : List Message :=
  [⟨.proposal, 0, 0, 0, some "A", some "A", -1⟩, ⟨.proposal, 0, 0, 0, some "B", some "B", -1⟩] ++
    [0, 2, 3].map fun i => ⟨.prevote, 0, 0, i, none, some "B", -1⟩

/-- Node 1 in its first round with these messages. -/
def misled : Node :=
  { (Node.new 1).startRound twoFaced id 0 with messageLog := equivocatedLog }

/-- The node prevotes A, schedules its timer and stops, although the second
proposal is to be locked. -/
theorem not_ruleLoop_complete :
    ∃ n', misled.ruleLoop twoFaced id (fun _ _ => 0) 1001 = some n' ∧
      n'.done = false ∧ n'.Upon twoFaced id := by
  have hrun : (misled.ruleLoop twoFaced id (fun _ _ => 0) 1001).any (fun n' =>
      decide (n'.done = false ∧ n'.h = 0 ∧ n'.round = 0 ∧ n'.step = .prevote ∧
        n'.messageLog = equivocatedLog ∧ n'.firedLock = [])) = true := by
    decide +kernel
  obtain ⟨n', hloop, hspec⟩ := (Option.any_eq_true _ _).mp hrun
  obtain ⟨hdone, hh, hround, hstep, hlog, hlock⟩ := of_decide_eq_true hspec
  refine ⟨n', hloop, hdone, Node.Upon.line36 (m := ⟨.proposal, 0, 0, 0, some "B", some "B", -1⟩)
    ?_ ?_ ?_ ?_⟩
  · rw [hlog, hh, hround]
    exact ⟨by decide, by decide +kernel⟩
  · rw [hlog, hh, hround]
    exact ⟨by decide, by decide +kernel⟩
  · rw [hstep]
    exact nofun
  · rw [hlock]
    exact nofun

end Runs

end Tendermint
end DistributedConsensus
