import DistributedConsensus.Foundations.Saturation
import DistributedConsensus.Tendermint.NodeSteps

/-!
# Tendermint: the loop over the rules ends

A rule that applies does one of three things.  It uses up a step of the round
or one of the three first-time sets, it moves to a later round of the height
that some message of the log belongs to, or it decides a height that some
message of the log belongs to.  The rounds and heights of the log that lie ahead
of the node, together with what is left to do in its round, are a number that
every rule decreases, so the loop ends, whatever the state and the log.
-/

namespace DistributedConsensus
namespace Tendermint

open Foundations

variable {cfg : SimConfig} {hash : String → String}

namespace Node

section Defs

/-- The rounds ahead of the node that have a message in the log. -/
def roundsAhead (n : Node) : Finset (ℤ × ℤ) :=
  ((n.messageLog.filter (fun m => n.h < m.height ∨ m.height = n.h ∧ n.round < m.round)).map
    (fun m => (m.height, m.round))).toFinset

/-- The heights from the node's on that have a message in the log. -/
def heightsAhead (n : Node) : Finset ℤ :=
  ((n.messageLog.filter (fun m => n.h ≤ m.height)).map Message.height).toFinset

/-- The steps of the round that lie ahead. -/
def stepsAhead (n : Node) : ℕ :=
  match n.step with
  | .propose => 2
  | .prevote => 1
  | .precommit => 0

/-- 1 as long as a first-time set does not have the round. -/
def unfiredIn (key : ℤ × ℤ) (fired : List (ℤ × ℤ)) : ℕ :=
  if key ∈ fired then 0 else 1

/-- The first-time sets that do not have the round of the node yet. -/
def unfired (n : Node) : ℕ :=
  unfiredIn (n.h, n.round) n.firedPrevoteTimer + unfiredIn (n.h, n.round) n.firedPrecommitTimer +
    unfiredIn (n.h, n.round) n.firedLock

/-- What is left to do for the rules: at most five of them apply in a round. -/
def work (n : Node) : ℕ :=
  6 * (n.roundsAhead.card + n.heightsAhead.card) + (n.stepsAhead + n.unfired)

/-- What a rule that applies does to the height, the round and the log. -/
inductive Fires (cfg : SimConfig) (hash : String → String) (n : Node) : Node → Prop
  | advances {n' : Node} : n'.h = n.h → n'.round = n.round → n'.messageLog = n.messageLog →
      n'.stepsAhead + n'.unfired < n.stepsAhead + n.unfired → Fires cfg hash n n'
  | enters {m : Message} : m ∈ n.messageLog → m.height = n.h → n.round < m.round →
      Fires cfg hash n (n.startRound cfg hash m.round)
  | decides {m : Message} {value : Option String} : m ∈ n.messageLog → m.height = n.h →
      Fires cfg hash n (n.decideValue cfg hash value)

/-- The loop `while try_rules()` without its guard, with at most `k` passes. -/
def ruleLoop (cfg : SimConfig) (hash : String → String) (rank : List String → String → ℕ)
    (k : ℕ) (n : Node) : Option Node :=
  Saturation.saturate (rules cfg hash rank) k n

end Defs

section Measure

theorem mem_roundsAhead {n : Node} {p : ℤ × ℤ} :
    p ∈ n.roundsAhead ↔ ∃ m ∈ n.messageLog,
      (n.h < m.height ∨ m.height = n.h ∧ n.round < m.round) ∧ (m.height, m.round) = p := by
  simp [roundsAhead, and_assoc]

theorem mem_heightsAhead {n : Node} {k : ℤ} :
    k ∈ n.heightsAhead ↔ ∃ m ∈ n.messageLog, n.h ≤ m.height ∧ m.height = k := by
  simp [heightsAhead, and_assoc]

theorem stepsAhead_le (n : Node) : n.stepsAhead ≤ 2 := by
  unfold stepsAhead
  split <;> omega

theorem unfiredIn_le (key : ℤ × ℤ) (fired : List (ℤ × ℤ)) : unfiredIn key fired ≤ 1 := by
  unfold unfiredIn
  split <;> omega

@[simp] theorem unfiredIn_cons (key : ℤ × ℤ) (fired : List (ℤ × ℤ)) :
    unfiredIn key (key :: fired) = 0 := by
  simp [unfiredIn]

theorem unfiredIn_of_notMem
    {key : ℤ × ℤ} {fired : List (ℤ × ℤ)}
    (h : key ∉ fired) :
    unfiredIn key fired = 1 := by
  simp [unfiredIn, h]

theorem unfired_le (n : Node) : n.unfired ≤ 3 := by
  have hprevote := unfiredIn_le (n.h, n.round) n.firedPrevoteTimer
  have hprecommit := unfiredIn_le (n.h, n.round) n.firedPrecommitTimer
  have hlock := unfiredIn_le (n.h, n.round) n.firedLock
  unfold unfired
  omega

variable (cfg hash) in
/-- A new round begins with its round. -/
theorem startRound_round (n : Node) (r : ℤ) : (n.startRound cfg hash r).round = r := by
  unfold startRound
  dsimp only
  split
  case isTrue =>
    split
    case h_1 => rfl
    case h_2 => rfl
  case isFalse => rfl

/-- A rule that applies leaves less to do. -/
theorem Fires.work_lt
    {n n' : Node}
    (h : Fires cfg hash n n') :
    n'.work < n.work := by
  cases h with
  | advances hh hround hlog hlocal =>
      have hrounds : n'.roundsAhead = n.roundsAhead := by simp only [roundsAhead, hh, hround, hlog]
      have hheights : n'.heightsAhead = n.heightsAhead := by simp only [heightsAhead, hh, hlog]
      unfold work
      rw [hrounds, hheights]
      omega
  | @enters m hm hheight hlater =>
      obtain ⟨-, hh, -, hlog, -⟩ := startRound_frame cfg hash n m.round
      have hround := startRound_round cfg hash n m.round
      have hsteps := stepsAhead_le (n.startRound cfg hash m.round)
      have hunfired := unfired_le (n.startRound cfg hash m.round)
      have hheights : (n.startRound cfg hash m.round).heightsAhead = n.heightsAhead := by
        simp only [heightsAhead, hh, hlog]
      -- The round that is entered no longer lies ahead.
      have hrounds : (n.startRound cfg hash m.round).roundsAhead.card < n.roundsAhead.card := by
        refine Finset.card_lt_card ⟨fun p hp => ?_, fun hsub => ?_⟩
        · obtain ⟨m', hm', hahead, rfl⟩ := mem_roundsAhead.mp hp
          rw [hlog] at hm'
          rw [hh, hround] at hahead
          exact mem_roundsAhead.mpr ⟨m', hm', by omega, rfl⟩
        · have hmem := hsub (mem_roundsAhead.mpr ⟨m, hm, Or.inr ⟨hheight, hlater⟩, rfl⟩)
          obtain ⟨m', -, hahead, heq⟩ := mem_roundsAhead.mp hmem
          rw [Prod.mk.injEq] at heq
          rw [hh, hround] at hahead
          omega
      unfold work
      rw [hheights]
      omega
  | @decides m value hm hheight =>
      obtain ⟨-, hh, -, hlog, -⟩ := decideValue_frame cfg hash n value
      have hsteps := stepsAhead_le (n.decideValue cfg hash value)
      have hunfired := unfired_le (n.decideValue cfg hash value)
      have hrounds : (n.decideValue cfg hash value).roundsAhead.card ≤ n.roundsAhead.card := by
        refine Finset.card_le_card fun p hp => ?_
        obtain ⟨m', hm', hahead, rfl⟩ := mem_roundsAhead.mp hp
        rw [hh] at hahead
        exact mem_roundsAhead.mpr ⟨m', hlog hm', by omega, rfl⟩
      -- The height that is decided no longer lies ahead.
      have hheights : (n.decideValue cfg hash value).heightsAhead.card < n.heightsAhead.card := by
        refine Finset.card_lt_card ⟨fun k hk => ?_, fun hsub => ?_⟩
        · obtain ⟨m', hm', hahead, rfl⟩ := mem_heightsAhead.mp hk
          rw [hh] at hahead
          exact mem_heightsAhead.mpr ⟨m', hlog hm', by omega, rfl⟩
        · have hmem := hsub (mem_heightsAhead.mpr ⟨m, hm, hheight.ge, hheight⟩)
          obtain ⟨m', -, hahead, heq⟩ := mem_heightsAhead.mp hmem
          rw [hh] at hahead
          omega
      unfold work
      omega

end Measure

section Rules

variable {n n' : Node}

/-- The node prevotes. -/
theorem fires_prevote
    (hstep : n.step = .propose)
    (vid : Option String) :
    Fires cfg hash n { n.sendPrevote vid with step := .prevote } := by
  refine Fires.advances rfl rfl rfl ?_
  simp [stepsAhead, unfired, hstep, sendPrevote, broadcast]

theorem ruleProposalInitial_fires
    (h : n.ruleProposalInitial cfg hash = some n') :
    Fires cfg hash n n' := by
  unfold ruleProposalInitial at h
  split at h
  case isTrue => cases h
  case isFalse hstep =>
    split at h
    case h_1 => cases h
    case h_2 =>
      split at h
      case isTrue => cases h
      case isFalse =>
        split at h
        all_goals
          obtain rfl := Option.some.inj h
          exact fires_prevote (not_not.mp hstep) _

theorem ruleProposalWithVr_fires
    (h : n.ruleProposalWithVr cfg hash = some n') :
    Fires cfg hash n n' := by
  unfold ruleProposalWithVr at h
  split at h
  case isTrue => cases h
  case isFalse hstep =>
    split at h
    case h_1 => cases h
    case h_2 =>
      split at h
      case isTrue => cases h
      case isFalse =>
        split at h
        case isTrue => cases h
        case isFalse =>
          split at h
          all_goals
            obtain rfl := Option.some.inj h
            exact fires_prevote (not_not.mp hstep) _

theorem rulePrevoteTimer_fires
    (h : n.rulePrevoteTimer cfg = some n') :
    Fires cfg hash n n' := by
  unfold rulePrevoteTimer at h
  split at h
  case isTrue => cases h
  case isFalse =>
    split at h
    case isTrue => cases h
    case isFalse hunfired =>
      split at h
      case isTrue => cases h
      case isFalse =>
        obtain rfl := Option.some.inj h
        refine Fires.advances rfl rfl rfl ?_
        simp only [stepsAhead, unfired, scheduleTimeout, unfiredIn_cons,
          unfiredIn_of_notMem hunfired]
        omega

theorem ruleLockPrecommit_fires
    (h : n.ruleLockPrecommit cfg hash = some n') :
    Fires cfg hash n n' := by
  unfold ruleLockPrecommit at h
  split at h
  case isTrue => cases h
  case isFalse =>
    split at h
    case isTrue => cases h
    case isFalse hunfired =>
      split at h
      case h_1 => cases h
      case h_2 m _ =>
        split at h
        case isTrue => cases h
        case isFalse =>
          split at h
          case isTrue => cases h
          case isFalse =>
            obtain rfl := Option.some.inj h
            dsimp only
            split
            case isTrue hstep =>
              refine Fires.advances rfl rfl rfl ?_
              simp only [stepsAhead, unfired, sendPrecommit, broadcast, hstep,
                unfiredIn_cons, unfiredIn_of_notMem hunfired]
              omega
            case isFalse =>
              refine Fires.advances rfl rfl rfl ?_
              simp only [stepsAhead, unfired, unfiredIn_cons, unfiredIn_of_notMem hunfired]
              omega

theorem rulePrevoteNil_fires
    (h : n.rulePrevoteNil cfg = some n') :
    Fires cfg hash n n' := by
  unfold rulePrevoteNil at h
  split at h
  case isTrue => cases h
  case isFalse hstep =>
    split at h
    case isTrue => cases h
    case isFalse =>
      obtain rfl := Option.some.inj h
      refine Fires.advances rfl rfl rfl ?_
      simp [stepsAhead, unfired, sendPrecommit, broadcast, not_not.mp hstep]

theorem rulePrecommitTimer_fires
    (h : n.rulePrecommitTimer cfg = some n') :
    Fires cfg hash n n' := by
  unfold rulePrecommitTimer at h
  split at h
  case isTrue => cases h
  case isFalse hunfired =>
    split at h
    case isTrue => cases h
    case isFalse =>
      obtain rfl := Option.some.inj h
      refine Fires.advances rfl rfl rfl ?_
      simp only [stepsAhead, unfired, scheduleTimeout, unfiredIn_cons,
        unfiredIn_of_notMem hunfired]
      omega

theorem mem_precommitRounds {r : ℤ} :
    r ∈ n.precommitRounds ↔
      ∃ m ∈ n.messageLog, (m.type = .precommit ∧ m.height = n.h) ∧ m.round = r := by
  simp [precommitRounds, and_assoc]

theorem ruleDecide_fires
    {rank : List String → String → ℕ}
    (h : n.ruleDecide cfg hash rank = some n') :
    Fires cfg hash n n' := by
  unfold ruleDecide at h
  split at h
  case isTrue => cases h
  case isFalse =>
    obtain ⟨r, hr, hfound⟩ := List.exists_of_findSome?_eq_some h
    obtain ⟨m, hm, ⟨-, hheight⟩, -⟩ := mem_precommitRounds.mp hr
    obtain ⟨vid, -, hvid⟩ := List.exists_of_findSome?_eq_some hfound
    unfold decideOn at hvid
    split at hvid
    case isTrue => cases hvid
    case isFalse =>
      split at hvid
      case h_1 => cases hvid
      case h_2 =>
        split at hvid
        case isTrue => cases hvid
        case isFalse =>
          obtain rfl := Option.some.inj hvid
          exact Fires.decides hm hheight

/-- The nodes that have sent something in a round. -/
def sendersOf (log : List Message) (h r : ℤ) : Finset ℕ :=
  ((log.filter (fun m => m.height = h ∧ m.round = r)).map Message.sender).toFinset

/-- A fold that takes over some of the candidates it passes: it ends without
one only if no candidate was good. -/
theorem foldl_choose
    (good : ℤ → Prop) (step : Option ℤ → ℤ → Option ℤ)
    (hstep : ∀ b r, step b r = some r ∧ good r ∨ step b r = b ∧ (b = none → ¬good r))
    (l : List ℤ) (b : Option ℤ) :
    (∀ r ∈ l.foldl step b, r ∈ l ∨ r ∈ b) ∧
      (l.foldl step b = none ↔ b = none ∧ ∀ r ∈ l, ¬good r) := by
  induction l generalizing b with
  | nil => simp
  | cons r l ih =>
      obtain ⟨hfrom, hnone⟩ := ih (step b r)
      rw [List.foldl_cons, hnone, List.forall_mem_cons]
      rcases hstep b r with ⟨htaken, hgood⟩ | ⟨hkept, hbad⟩
      · rw [htaken] at hfrom ⊢
        refine ⟨fun r' hr' => ?_, by simp [hgood]⟩
        rcases hfrom r' hr' with hl | hb
        · exact Or.inl (List.mem_cons_of_mem _ hl)
        · exact Or.inl (Option.some.inj hb ▸ List.mem_cons_self)
      · rw [hkept] at hfrom ⊢
        refine ⟨fun r' hr' => (hfrom r' hr').imp_left (List.mem_cons_of_mem _), ?_⟩
        exact and_congr_right fun hb => (and_iff_right (hbad hb)).symm

/-- The node skips to a later round of power f+1, if there is one. -/
theorem skipTarget_spec :
    (∀ r ∈ n.skipTarget cfg, ∃ m ∈ n.messageLog, m.height = n.h ∧ n.round < m.round ∧
      m.round = r) ∧
    (n.skipTarget cfg = none ↔ ∀ m ∈ n.messageLog, m.height = n.h → n.round < m.round →
      ¬cfg.f + 1 ≤ cfg.votingPowerOf (sendersOf n.messageLog n.h m.round)) := by
  have hrounds : ∀ r, r ∈ ((n.messageLog.filter
      (fun m => m.height = n.h ∧ m.round > n.round)).map Message.round).dedup ↔
      ∃ m ∈ n.messageLog, (m.height = n.h ∧ n.round < m.round) ∧ m.round = r := by
    simp [and_assoc]
  obtain ⟨hfrom, hnone⟩ := foldl_choose
    (fun r => cfg.f + 1 ≤ cfg.votingPowerOf (sendersOf n.messageLog n.h r))
    (fun best r => if cfg.f + 1 ≤ cfg.votingPowerOf (sendersOf n.messageLog n.h r) ∧
      (∀ b ∈ best, b < r) then some r else best) (fun b r => by
        split
        case isTrue hskip => exact Or.inl ⟨rfl, hskip.1⟩
        case isFalse hskip =>
          refine Or.inr ⟨rfl, ?_⟩
          rintro rfl hgood
          exact hskip ⟨hgood, by simp⟩)
    (((n.messageLog.filter
      (fun m => m.height = n.h ∧ m.round > n.round)).map Message.round).dedup) none
  refine ⟨fun r hr => ?_, hnone.trans ⟨fun hall m hm hheight hlater => ?_,
    fun hall => ⟨rfl, fun r hr => ?_⟩⟩⟩
  · rcases hfrom r hr with hl | hb
    · obtain ⟨m, hm, ⟨hheight, hlater⟩, hround⟩ := (hrounds r).mp hl
      exact ⟨m, hm, hheight, hlater, hround⟩
    · cases hb
  · exact hall.2 m.round ((hrounds _).mpr ⟨m, hm, ⟨hheight, hlater⟩, rfl⟩)
  · obtain ⟨m, hm, ⟨hheight, hlater⟩, rfl⟩ := (hrounds r).mp hr
    exact hall m hm hheight hlater

theorem ruleRoundSkip_fires
    (h : n.ruleRoundSkip cfg hash = some n') :
    Fires cfg hash n n' := by
  unfold ruleRoundSkip at h
  rw [Option.map_eq_some_iff] at h
  obtain ⟨r, hr, rfl⟩ := h
  obtain ⟨m, hm, hheight, hlater, rfl⟩ := skipTarget_spec.1 r hr
  exact Fires.enters hm hheight hlater

theorem rules_fire
    {rank : List String → String → ℕ} {rule : Node → Option Node}
    (hrule : rule ∈ rules cfg hash rank)
    (h : rule n = some n') :
    Fires cfg hash n n' := by
  simp only [rules, List.mem_cons, List.not_mem_nil, or_false] at hrule
  rcases hrule with rfl | rfl | rfl | rfl | rfl | rfl | rfl | rfl
  · exact ruleProposalInitial_fires h
  · exact ruleProposalWithVr_fires h
  · exact rulePrevoteTimer_fires h
  · exact ruleLockPrecommit_fires h
  · exact rulePrevoteNil_fires h
  · exact rulePrecommitTimer_fires h
  · exact ruleDecide_fires h
  · exact ruleRoundSkip_fires h

end Rules

section Loop

variable {rank : List String → String → ℕ}

theorem attempt_eq (rule : Node → Option Node) (s : Bool × Node) :
    attempt rule s = Saturation.attempt rule s := by
  unfold attempt Saturation.attempt
  cases rule s.2 with
  | none => rfl
  | some n => rfl

/-- `try_rules` is a pass over the rules. -/
theorem tryRules_eq_pass (n : Node) :
    n.tryRules cfg hash rank = Saturation.pass (rules cfg hash rank) n := by
  unfold tryRules Saturation.pass
  simp only [attempt_eq]

/-- The loop ends, whatever the state and the log. -/
theorem exists_ruleLoop
    {k : ℕ} {n : Node}
    (hk : n.work < k) :
    ∃ n', n.ruleLoop cfg hash rank k = some n' :=
  Saturation.exists_saturate (μ := work) (fun _ hrule _ _ h => (rules_fire hrule h).work_lt) hk

/-- Where the loop ends, no rule applies. -/
theorem idle_of_ruleLoop
    {k : ℕ} {n n' : Node}
    (h : n.ruleLoop cfg hash rank k = some n') :
    ∀ rule ∈ rules cfg hash rank, rule n' = none :=
  Saturation.idle_of_saturate h

/-- The guard does not matter to a loop that ends before it. -/
theorem fixpoint_of_ruleLoop
    {k : ℕ} {n n' : Node}
    (h : n.ruleLoop cfg hash rank k = some n') :
    n.fixpoint cfg hash rank k = n' := by
  induction k generalizing n with
  | zero => cases h
  | succ k ih =>
      unfold ruleLoop at h
      rw [Saturation.saturate] at h
      rw [fixpoint, tryRules_eq_pass]
      split at h
      case isTrue hflag => rw [if_pos hflag]; exact ih h
      case isFalse hflag => rw [if_neg hflag]; exact Option.some.inj h

/-- The guarded loop of an iteration ends on its own in a state with little
enough to do. -/
theorem fixpoint_idle
    {n : Node}
    (hwork : n.work ≤ 1000) :
    ∀ rule ∈ rules cfg hash rank, rule (n.fixpoint cfg hash rank 1001) = none := by
  obtain ⟨n', hloop⟩ := @exists_ruleLoop cfg hash rank 1001 n (by omega)
  rw [fixpoint_of_ruleLoop hloop]
  exact idle_of_ruleLoop hloop

end Loop

end Node

end Tendermint
end DistributedConsensus
