import DistributedConsensus.Tendermint.Node
import Mathlib.Logic.Relation

/-!
# Tendermint: what a rule may do

The eight rules and the three timeouts have few effects: a node prevotes, locks
and precommits, precommits nil, starts a later round, decides, or changes data
that no vote depends on.  `Acts` lists these effects with the condition under
which each of them happens; an iteration of the loop is a sequence of them.
-/

namespace DistributedConsensus
namespace Tendermint

open Foundations

variable {cfg : SimConfig} {hash : String → String}

namespace Node

/-- Nothing that the votes depend on has changed. -/
structure Quiet (n n' : Node) : Prop where
  id : n'.id = n.id
  h : n'.h = n.h
  round : n'.round = n.round
  step : n'.step = n.step
  decisions : n'.decisions = n.decisions
  lockedValue : n'.lockedValue = n.lockedValue
  lockedRound : n'.lockedRound = n.lockedRound
  messageLog : n'.messageLog = n.messageLog
  sent : n'.sent = n.sent

variable (cfg) (hash)

/-- The value is the one of the first proposal of the current round. -/
def Proposed (n : Node) (v : String) : Prop :=
  ∃ m, findProposal cfg n.messageLog n.h n.round = some m ∧ m.value = some v

/-- The lock of the node does not exclude a prevote for the value. -/
def Unlocked (n : Node) (v : String) : Prop :=
  n.lockedRound = -1 ∨ n.lockedValue = some v ∨
    ∃ vr, vr < n.round ∧ n.lockedRound ≤ vr ∧
      hasQuorum cfg n.messageLog .prevote n.h vr (some (some (hash v))) = true

/-- The node precommits a value that a quorum has prevoted. -/
def lock (n : Node) (v : String) : Node :=
  { { n with lockedValue := some v, lockedRound := n.round }.sendPrecommit
      (some (hash v)) with step := .precommit }

/-- A quorum has precommitted the value in some round. -/
def Decidable (n : Node) (v : String) : Prop :=
  ∃ r, hasQuorum cfg n.messageLog .precommit n.h r (some (some (hash v))) = true ∧
    ∃ m ∈ n.messageLog, m.value = some v

/-- The effects of a rule or a timeout. -/
inductive Acts (n : Node) : Node → Prop
  | quiet {n' : Node} : Quiet n n' → Acts n n'
  | prevoteNil : n.step = .propose →
      Acts n { n.sendPrevote none with step := .prevote }
  | prevote {v : String} : n.step = .propose → n.Proposed cfg v → n.Unlocked cfg hash v →
      Acts n { n.sendPrevote (some (hash v)) with step := .prevote }
  | precommitNil : n.step = .prevote →
      Acts n { n.sendPrecommit none with step := .precommit }
  | precommit {v : String} : n.step = .prevote → n.Proposed cfg v →
      hasQuorum cfg n.messageLog .prevote n.h n.round (some (some (hash v))) = true →
      Acts n (n.lock hash v)
  | enter {r : ℤ} : n.round < r → Acts n (n.startRound cfg hash r)
  | decide {v : String} : n.Decidable cfg hash v →
      Acts n (n.decideValue cfg hash (some v))

/-- A sequence of effects. -/
abbrev Runs : Node → Node → Prop := Relation.ReflTransGen (Acts cfg hash)

variable {cfg} {hash}

theorem eq_some_of_valid
    {value : Option String}
    (h : valid value = true) :
    ∃ v, value = some v := by
  cases value with
  | none => cases h
  | some v => exact ⟨v, rfl⟩

section Timeouts

theorem onTimeout_acts
    {n n' : Node} {t : Timer}
    (h : n.onTimeout cfg hash t = some n') :
    Acts cfg hash n n' := by
  unfold onTimeout at h
  split at h
  case h_1 =>
    unfold onTimeoutPropose at h
    split at h
    case isTrue hstep =>
      obtain rfl := Option.some.inj h
      exact Acts.prevoteNil hstep.2.2
    case isFalse => cases h
  case h_2 =>
    unfold onTimeoutPrevote at h
    split at h
    case isTrue hstep =>
      obtain rfl := Option.some.inj h
      exact Acts.precommitNil hstep.2.2
    case isFalse => cases h
  case h_3 =>
    unfold onTimeoutPrecommit at h
    split at h
    case isTrue =>
      obtain rfl := Option.some.inj h
      exact Acts.enter (by omega)
    case isFalse => cases h

end Timeouts

section Rules

variable {n n' : Node}

theorem ruleProposalInitial_acts
    (h : n.ruleProposalInitial cfg hash = some n') :
    Acts cfg hash n n' := by
  unfold ruleProposalInitial at h
  split at h
  case isTrue => cases h
  case isFalse hstep =>
    rw [not_not] at hstep
    split at h
    case h_1 => cases h
    case h_2 m hm =>
      split at h
      case isTrue => cases h
      case isFalse =>
        split at h
        case isTrue hok =>
          obtain rfl := Option.some.inj h
          obtain ⟨v, hv⟩ := eq_some_of_valid hok.1
          rw [hv] at hok ⊢
          refine Acts.prevote hstep ⟨m, hm, hv⟩ ?_
          rcases hok.2 with hfree | hsame
          · exact Or.inl hfree
          · exact Or.inr (Or.inl hsame)
        case isFalse =>
          obtain rfl := Option.some.inj h
          exact Acts.prevoteNil hstep

theorem ruleProposalWithVr_acts
    (h : n.ruleProposalWithVr cfg hash = some n') :
    Acts cfg hash n n' := by
  unfold ruleProposalWithVr at h
  split at h
  case isTrue => cases h
  case isFalse hstep =>
    rw [not_not] at hstep
    split at h
    case h_1 => cases h
    case h_2 m hm =>
      split at h
      case isTrue => cases h
      case isFalse hvr =>
        split at h
        case isTrue => cases h
        case isFalse hquorum =>
          split at h
          case isTrue hok =>
            obtain rfl := Option.some.inj h
            obtain ⟨v, hv⟩ := eq_some_of_valid hok.1
            rw [hv] at hok hquorum ⊢
            refine Acts.prevote hstep ⟨m, hm, hv⟩ ?_
            rcases hok.2 with hle | hsame
            · refine Or.inr (Or.inr ⟨m.validRound, by omega, hle, ?_⟩)
              simpa [valueId] using hquorum
            · exact Or.inr (Or.inl hsame)
          case isFalse =>
            obtain rfl := Option.some.inj h
            exact Acts.prevoteNil hstep

theorem rulePrevoteTimer_acts
    (h : n.rulePrevoteTimer cfg = some n') :
    Acts cfg hash n n' := by
  unfold rulePrevoteTimer at h
  split at h
  case isTrue => cases h
  case isFalse =>
    split at h
    case isTrue => cases h
    case isFalse =>
      split at h
      case isTrue => cases h
      case isFalse =>
        obtain rfl := Option.some.inj h
        exact Acts.quiet ⟨rfl, rfl, rfl, rfl, rfl, rfl, rfl, rfl, rfl⟩

theorem ruleLockPrecommit_runs
    (h : n.ruleLockPrecommit cfg hash = some n') :
    Runs cfg hash n n' := by
  unfold ruleLockPrecommit at h
  split at h
  case isTrue => cases h
  case isFalse =>
    split at h
    case isTrue => cases h
    case isFalse =>
      split at h
      case h_1 => cases h
      case h_2 m hm =>
        split at h
        case isTrue => cases h
        case isFalse hvalid =>
          split at h
          case isTrue => cases h
          case isFalse hquorum =>
            obtain rfl := Option.some.inj h
            obtain ⟨v, hv⟩ := eq_some_of_valid (by simpa using hvalid)
            have hvotes : hasQuorum cfg n.messageLog .prevote n.h n.round
                (some (some (hash v))) = true := by
              simpa [hv, valueId] using hquorum
            by_cases hstep : n.step = .prevote
            · -- The node locks, then remembers the value as its valid value.
              refine (Relation.ReflTransGen.single
                (Acts.precommit hstep ⟨m, hm, hv⟩ hvotes)).tail ?_
              simp only [hstep, if_true, hv, valueId, Option.map_some]
              exact Acts.quiet ⟨rfl, rfl, rfl, rfl, rfl, rfl, rfl, rfl, rfl⟩
            · simp only [hstep, if_false]
              exact Relation.ReflTransGen.single
                (Acts.quiet ⟨rfl, rfl, rfl, rfl, rfl, rfl, rfl, rfl, rfl⟩)

theorem rulePrevoteNil_acts
    (h : n.rulePrevoteNil cfg = some n') :
    Acts cfg hash n n' := by
  unfold rulePrevoteNil at h
  split at h
  case isTrue => cases h
  case isFalse hstep =>
    split at h
    case isTrue => cases h
    case isFalse =>
      obtain rfl := Option.some.inj h
      exact Acts.precommitNil (not_not.mp hstep)

theorem rulePrecommitTimer_acts
    (h : n.rulePrecommitTimer cfg = some n') :
    Acts cfg hash n n' := by
  unfold rulePrecommitTimer at h
  split at h
  case isTrue => cases h
  case isFalse =>
    split at h
    case isTrue => cases h
    case isFalse =>
      obtain rfl := Option.some.inj h
      exact Acts.quiet ⟨rfl, rfl, rfl, rfl, rfl, rfl, rfl, rfl, rfl⟩

theorem decideOn_acts
    {r : ℤ} {vid : String}
    (h : n.decideOn cfg hash r vid = some n') :
    Acts cfg hash n n' := by
  unfold decideOn at h
  split at h
  case isTrue => cases h
  case isFalse hquorum =>
    split at h
    case h_1 => cases h
    case h_2 m hm =>
      split at h
      case isTrue => cases h
      case isFalse hvalid =>
        obtain rfl := Option.some.inj h
        obtain ⟨v, hv⟩ := eq_some_of_valid (by simpa using hvalid)
        have hfound := List.find?_some hm
        simp only [hv, valueId, Option.map_some, Option.some.injEq, decide_eq_true_eq] at hfound
        rw [hv]
        refine Acts.decide ⟨r, ?_, m, List.mem_of_find?_eq_some hm, hv⟩
        rw [hfound.2.2.2.2]
        simpa using hquorum

theorem ruleDecide_acts
    {rank : List String → String → ℕ}
    (h : n.ruleDecide cfg hash rank = some n') :
    Acts cfg hash n n' := by
  unfold ruleDecide at h
  split at h
  case isTrue => cases h
  case isFalse =>
    obtain ⟨r, -, hr⟩ := List.exists_of_findSome?_eq_some h
    obtain ⟨vid, -, hvid⟩ := List.exists_of_findSome?_eq_some hr
    exact decideOn_acts hvid

/-- A node skips to a later round only. -/
theorem lt_of_skipTarget
    {best : ℤ}
    (h : n.skipTarget cfg = some best) :
    n.round < best := by
  unfold skipTarget at h
  have key : ∀ (l : List ℤ) (b : Option ℤ), (∀ r ∈ l, n.round < r) →
      (∀ r ∈ b, n.round < r) →
      ∀ r ∈ l.foldl (fun best r =>
        let senders := ((n.messageLog.filter (fun m => m.height = n.h ∧ m.round = r)).map
          Message.sender).toFinset
        if cfg.f + 1 ≤ cfg.votingPowerOf senders ∧ (∀ b ∈ best, b < r) then some r
        else best) b, n.round < r := by
    intro l
    induction l with
    | nil => exact fun b _ hb => hb
    | cons a l ih =>
        intro b hl hb
        rw [List.foldl_cons]
        refine ih _ (fun r hr => hl r (List.mem_cons_of_mem _ hr)) ?_
        intro r hr
        simp only at hr
        split at hr
        case isTrue =>
          obtain rfl := Option.some.inj hr
          exact hl _ List.mem_cons_self
        case isFalse => exact hb r hr
  refine key _ none ?_ (by simp) best h
  intro r hr
  simp only [List.mem_dedup, List.mem_map, List.mem_filter, decide_eq_true_eq] at hr
  obtain ⟨m, ⟨-, -, hgt⟩, rfl⟩ := hr
  exact hgt

theorem ruleRoundSkip_acts
    (h : n.ruleRoundSkip cfg hash = some n') :
    Acts cfg hash n n' := by
  unfold ruleRoundSkip at h
  rw [Option.map_eq_some_iff] at h
  obtain ⟨best, hbest, rfl⟩ := h
  exact Acts.enter (lt_of_skipTarget hbest)

/-- Every rule is a sequence of effects. -/
theorem rules_runs
    {rank : List String → String → ℕ} {rule : Node → Option Node}
    (hrule : rule ∈ rules cfg hash rank)
    (h : rule n = some n') :
    Runs cfg hash n n' := by
  simp only [rules, List.mem_cons, List.not_mem_nil, or_false] at hrule
  rcases hrule with rfl | rfl | rfl | rfl | rfl | rfl | rfl | rfl
  · exact Relation.ReflTransGen.single (ruleProposalInitial_acts h)
  · exact Relation.ReflTransGen.single (ruleProposalWithVr_acts h)
  · exact Relation.ReflTransGen.single (rulePrevoteTimer_acts h)
  · exact ruleLockPrecommit_runs h
  · exact Relation.ReflTransGen.single (rulePrevoteNil_acts h)
  · exact Relation.ReflTransGen.single (rulePrecommitTimer_acts h)
  · exact Relation.ReflTransGen.single (ruleDecide_acts h)
  · exact Relation.ReflTransGen.single (ruleRoundSkip_acts h)

end Rules

section Loop

/-- Attempts of rules or timeouts, one after the other. -/
theorem foldl_attempt_runs
    {α : Type} {g : α → Node → Option Node}
    {l : List α}
    (hg : ∀ a ∈ l, ∀ n n', g a n = some n' → Runs cfg hash n n')
    (s : Bool × Node) :
    Runs cfg hash s.2 (l.foldl (fun s a => attempt (g a) s) s).2 := by
  induction l generalizing s with
  | nil => exact Relation.ReflTransGen.refl
  | cons a l ih =>
      rw [List.foldl_cons]
      have hrest := ih (fun b hb => hg b (List.mem_cons_of_mem _ hb)) (attempt (g a) s)
      refine Relation.ReflTransGen.trans ?_ hrest
      unfold attempt
      split
      case h_1 n hn => exact hg a List.mem_cons_self _ _ hn
      case h_2 => exact Relation.ReflTransGen.refl

theorem tryRules_runs
    (rank : List String → String → ℕ) (n : Node) :
    Runs cfg hash n (n.tryRules cfg hash rank).2 :=
  foldl_attempt_runs (g := fun rule => rule) (fun _ hrule _ _ h => rules_runs hrule h) (false, n)

theorem fixpoint_runs
    (rank : List String → String → ℕ) (k : ℕ) (n : Node) :
    Runs cfg hash n (n.fixpoint cfg hash rank k) := by
  induction k generalizing n with
  | zero =>
      rw [fixpoint]
  | succ k ih =>
      have hpass : Runs cfg hash n (n.tryRules cfg hash rank).2 := tryRules_runs rank n
      rw [fixpoint]
      split
      case isTrue => exact Relation.ReflTransGen.trans hpass (ih _)
      case isFalse => exact hpass

theorem checkTimeouts_runs
    (due : Timer → Bool) (n : Node) :
    Runs cfg hash n (n.checkTimeouts cfg hash due).2 := by
  unfold checkTimeouts
  refine Relation.ReflTransGen.head
    (b := { n with timers := n.timers.filter (fun t => !due t) })
    (Acts.quiet ⟨rfl, rfl, rfl, rfl, rfl, rfl, rfl, rfl, rfl⟩) ?_
  exact foldl_attempt_runs (g := fun t n => n.onTimeout cfg hash t)
    (fun _ _ _ _ h => Relation.ReflTransGen.single (onTimeout_acts h)) (false, _)

/-- An iteration puts the received messages into the log and then acts. -/
theorem iterate_runs
    (received : List Message) (due : Timer → Bool) (rank : List String → String → ℕ)
    (n : Node) :
    Runs cfg hash { n with messageLog := n.messageLog ++ received }
      (n.iterate cfg hash received due rank) := by
  unfold iterate
  generalize { n with messageLog := n.messageLog ++ received } = n₁
  dsimp only
  split
  case isTrue => exact Relation.ReflTransGen.refl
  case isFalse =>
    have htimeouts : Runs cfg hash n₁ (n₁.checkTimeouts cfg hash due).2 :=
      checkTimeouts_runs due n₁
    split
    case isTrue => exact Relation.ReflTransGen.trans htimeouts (fixpoint_runs rank 1001 _)
    case isFalse => exact htimeouts

end Loop

section Frame

variable {n n' : Node}

variable (cfg hash) in
theorem startRound_frame (n : Node) (r : ℤ) :
    (n.startRound cfg hash r).id = n.id ∧ (n.startRound cfg hash r).h = n.h ∧
      (n.startRound cfg hash r).decisions = n.decisions ∧
      (n.startRound cfg hash r).messageLog = n.messageLog ∧
      n.sent ⊆ (n.startRound cfg hash r).sent := by
  unfold startRound
  dsimp only
  split
  case isTrue =>
    split
    case h_1 => exact ⟨rfl, rfl, rfl, rfl, List.subset_append_left _ _⟩
    case h_2 => exact ⟨rfl, rfl, rfl, rfl, List.subset_append_left _ _⟩
  case isFalse => exact ⟨rfl, rfl, rfl, rfl, fun _ hm => hm⟩

/-- A new round adds at most a proposal. -/
theorem startRound_sent
    {r : ℤ} {m : Message}
    (hm : m ∈ (n.startRound cfg hash r).sent) :
    m ∈ n.sent ∨ m.type = .proposal ∧ m.height = n.h := by
  unfold startRound at hm
  dsimp only at hm
  split at hm
  case isTrue =>
    split at hm
    all_goals
      simp only [sendProposal, broadcast, List.mem_append, List.mem_singleton] at hm
      rcases hm with hold | rfl
      · exact Or.inl hold
      · exact Or.inr ⟨rfl, rfl⟩
  case isFalse => exact Or.inl hm

variable (cfg hash) in
theorem decideValue_frame (n : Node) (value : Option String) :
    (n.decideValue cfg hash value).id = n.id ∧ (n.decideValue cfg hash value).h = n.h + 1 ∧
      (n.decideValue cfg hash value).decisions = n.decisions.set n.h value ∧
      (n.decideValue cfg hash value).messageLog ⊆ n.messageLog ∧
      n.sent ⊆ (n.decideValue cfg hash value).sent := by
  unfold decideValue
  dsimp only
  split
  case isTrue =>
    obtain ⟨hid, hh, hdecisions, hlog, hsent⟩ := startRound_frame cfg hash
      (resetForNewHeight { n with decisions := n.decisions.set n.h value, h := n.h + 1 }) 0
    refine ⟨hid, hh, hdecisions, ?_, hsent⟩
    rw [hlog]
    exact List.filter_subset_self _
  case isFalse => exact ⟨rfl, rfl, rfl, fun _ hm => hm, fun _ hm => hm⟩

/-- The next height adds at most a proposal. -/
theorem decideValue_sent
    {value : Option String} {m : Message}
    (hm : m ∈ (n.decideValue cfg hash value).sent) :
    m ∈ n.sent ∨ m.type = .proposal ∧ m.height = n.h + 1 := by
  unfold decideValue at hm
  dsimp only at hm
  split at hm
  case isTrue => exact startRound_sent hm
  case isFalse => exact Or.inl hm

/-- An effect keeps the id and what was sent, and adds nothing to the log. -/
theorem Acts.frame
    (h : Acts cfg hash n n') :
    n'.id = n.id ∧ n'.messageLog ⊆ n.messageLog ∧ n.sent ⊆ n'.sent := by
  cases h with
  | quiet hq => exact ⟨hq.id, hq.messageLog ▸ fun _ hm => hm, hq.sent ▸ fun _ hm => hm⟩
  | prevoteNil | prevote | precommitNil | precommit =>
      exact ⟨rfl, fun _ hm => hm, List.subset_append_left _ _⟩
  | enter =>
      obtain ⟨hid, -, -, hlog, hsent⟩ := startRound_frame cfg hash n _
      exact ⟨hid, hlog ▸ fun _ hm => hm, hsent⟩
  | decide =>
      obtain ⟨hid, -, -, hlog, hsent⟩ := decideValue_frame cfg hash n _
      exact ⟨hid, hlog, hsent⟩

/-- An invariant that every effect keeps, as long as the log satisfies `P`. -/
theorem Runs.invariant
    {P : Message → Prop} {I : Node → Prop}
    (hacts : ∀ n n', (∀ m ∈ n.messageLog, P m) → I n → Acts cfg hash n n' → I n')
    (h : Runs cfg hash n n')
    (hlog : ∀ m ∈ n.messageLog, P m)
    (hn : I n) :
    n'.id = n.id ∧ n.sent ⊆ n'.sent ∧ (∀ m ∈ n'.messageLog, P m) ∧ I n' := by
  induction h with
  | refl => exact ⟨rfl, fun _ hm => hm, hlog, hn⟩
  | tail _ hact ih =>
      obtain ⟨hid, hsent, hlog', hn'⟩ := ih
      obtain ⟨hid', hsub, hsent'⟩ := hact.frame
      exact ⟨hid'.trans hid, fun _ hm => hsent' (hsent hm), fun m hm => hlog' m (hsub hm),
        hacts _ _ hlog' hn' hact⟩

end Frame

end Node

end Tendermint
end DistributedConsensus
