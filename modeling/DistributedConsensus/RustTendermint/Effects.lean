import DistributedConsensus.RustTendermint.Consensus
import Mathlib.Algebra.Group.Nat.Defs
import Mathlib.Logic.Relation

/-!
# Rust Tendermint: every event is a sequence of effects

What an event can do to a node that follows the protocol.  A vote of the current
height and round is stored; the node votes, commits or starts the next round or
height when its step, its lock and the stored votes allow it.

The counters of a node do not wrap around as long as it does not leave the last
round or the last height that the integer types can hold.
-/

namespace DistributedConsensus
namespace RustTendermint

open Foundations

namespace ConsensusState

/-- The vote of the current round makes the node start the next one. -/
def RejectsRound (s : ConsensusState) (vote : Vote) : Prop :=
  vote.voteType = .precommit ∧ vote.value = none ∧ vote.height = s.height ∧
    vote.round = s.round ∧ s.step = .precommit ∧ (s.record vote).reachesQuorum .precommit none

instance (s : ConsensusState) (vote : Vote) : Decidable (s.RejectsRound vote) :=
  inferInstanceAs (Decidable (_ ∧ _))

/-- The event makes the node start the next round. -/
def LeavesRound (s : ConsensusState) : Event → Prop
  | .plDeliver (.proposal _) => False
  | .plDeliver (.vote vote) => s.RejectsRound vote
  | .timeout => s.step = .precommit

instance (s : ConsensusState) : ∀ e, Decidable (s.LeavesRound e)
  | .plDeliver (.proposal _) => inferInstanceAs (Decidable False)
  | .plDeliver (.vote vote) => inferInstanceAs (Decidable (s.RejectsRound vote))
  | .timeout => inferInstanceAs (Decidable (s.step = .precommit))

/-- The event makes the node start the next height. -/
def LeavesHeight (s : ConsensusState) (e : Event) : Prop := e = .timeout ∧ s.step = .commit

instance (s : ConsensusState) (e : Event) : Decidable (s.LeavesHeight e) :=
  inferInstanceAs (Decidable (_ ∧ _))

/-- The event does not make a counter of the node wrap around. -/
def CountsOn (s : ConsensusState) (e : Event) : Prop :=
  (s.LeavesRound e → s.round.toNat + 1 < 2 ^ 32) ∧
    (s.LeavesHeight e → s.height.toNat + 1 < 2 ^ 64)

instance (s : ConsensusState) (e : Event) : Decidable (s.CountsOn e) :=
  inferInstanceAs (Decidable (_ ∧ _))

end ConsensusState

namespace Process

variable {p p' : Process} {e : Event}

/-- The node has cast the vote. -/
def HasVoted (p : Process) (vote : Vote) : Prop := .broadcast (.vote vote) ∈ p.requests

/-- Start a round, with the proposal of the proposer. -/
def startRound (p : Process) (round : Round) : Process :=
  p.hand (p.consensus.startRound round)

/-- One effect of an event. -/
inductive Acts (e : Event) : Process → Process → Prop
  | hear {c : ConsensusState} {reqs : List PlRequest} {vote : Vote} :
      e = .plDeliver (.vote vote) → vote.height = c.height → vote.round = c.round →
      Acts e ⟨c, reqs⟩ ⟨c.record vote, reqs⟩
  | prevote {c : ConsensusState} {reqs : List PlRequest} {proposal : Option Proposal}
      {value : Option Value} :
      c.step = .propose → (∀ x ∈ value, ∀ y ∈ c.lockedValue, y = x) →
      Acts e ⟨c, reqs⟩ ⟨{ c with proposal := proposal, step := .prevote },
        reqs ++ [.broadcast (.vote (c.ownVote .prevote value))]⟩
  | precommit {c : ConsensusState} {reqs : List PlRequest} {value : Option Value} :
      c.step = .prevote → (∀ x ∈ value, c.reachesQuorum .prevote (some x)) →
      Acts e ⟨c, reqs⟩ ⟨{ c.lock value with step := .precommit },
        reqs ++ [.broadcast (.vote (c.ownVote .precommit value))]⟩
  | commit {c : ConsensusState} {reqs : List PlRequest} {value : Value} :
      c.step = .precommit → c.reachesQuorum .precommit (some value) →
      Acts e ⟨c, reqs⟩
        ⟨{ c with step := .commit, committed := c.committed ++ [(c.height, value)] }, reqs⟩
  | nextRound {p : Process} :
      p.consensus.step = .precommit → p.consensus.round.toNat + 1 < 2 ^ 32 →
      Acts e p (p.startRound (p.consensus.round + 1))
  | nextHeight {c : ConsensusState} {reqs : List PlRequest} :
      c.step = .commit → c.height.toNat + 1 < 2 ^ 64 →
      Acts e ⟨c, reqs⟩ (Process.startRound ⟨c.nextHeight, reqs⟩ 0)

/-- A sequence of effects. -/
abbrev Runs (e : Event) : Process → Process → Prop := Relation.ReflTransGen (Acts e)

/-- Handing over the outcome of a node that follows the protocol. -/
theorem hand_eq
    {out : ConsensusState × Option PlRequest}
    (hout : out.1.behavior = .standard) (p : Process) :
    p.hand out = ⟨out.1, p.requests ++ out.2.toList⟩ := by
  obtain ⟨c, req⟩ := out
  cases req with
  | none => simp [hand]
  | some req =>
      have hc : c.behavior = .standard := hout
      simp [hand, hc]

/-- What starting a round does. -/
theorem startRound_spec
    (hp : p.consensus.behavior = .standard) (round : Round) :
    ∃ reqs, p.startRound round = ⟨p.consensus.enterRound round, p.requests ++ reqs⟩ ∧
      ∀ req ∈ reqs, ∃ m : Proposal,
        req = .broadcast (.proposal m) ∧ m.sender = p.consensus.id := by
  unfold startRound ConsensusState.startRound
  rw [if_neg (by rw [hp]; exact nofun)]
  by_cases hproposer : (p.consensus.enterRound round).getProposer = (p.consensus.enterRound round).id
  · simp only [if_pos hproposer]
    rw [hand_eq]
    swap
    · exact hp
    refine ⟨_, rfl, ?_⟩
    intro req hreq
    exact ⟨_, List.mem_singleton.mp hreq, rfl⟩
  · simp only [if_neg hproposer]
    refine ⟨[], ?_, nofun⟩
    rw [List.append_nil]
    rfl

theorem behavior_startRound (c : ConsensusState) (round : Round) :
    (c.startRound round).1.behavior = c.behavior := by
  simp only [ConsensusState.startRound]
  repeat' split
  all_goals rfl

/-- A node starts with round 0. -/
theorem boot_eq_startRound (i : NodeId) (n : UInt32) :
    boot i n .standard = startRound ⟨ConsensusState.new i n .standard, []⟩ 0 := by
  unfold startRound
  rw [hand_eq (behavior_startRound _ 0)]
  rfl

theorem handleProposal_runs
    {proposal : Proposal}
    (hp : p.consensus.behavior = .standard) :
    Runs e p (p.hand (p.consensus.handleProposal proposal)) := by
  unfold ConsensusState.handleProposal
  rw [if_neg (by rw [hp]; exact nofun)]
  split
  case isTrue => exact Relation.ReflTransGen.refl
  case isFalse hcurrent =>
    split
    case isTrue => exact Relation.ReflTransGen.refl
    case isFalse =>
      rw [hand_eq]
      swap
      · exact hp
      refine Relation.ReflTransGen.single (Acts.prevote ?_ ?_)
      · by_contra hstep
        exact hcurrent (Or.inl hstep)
      · intro x hx y hy
        unfold ConsensusState.voteValue at hx
        split at hx
        case isTrue => cases hx
        case isFalse hallowed =>
          rw [not_or] at hallowed
          obtain rfl := Option.some.inj hx
          by_contra hne
          exact hallowed.1 ⟨y, hy, hne⟩

theorem handleVote_runs
    {vote : Vote}
    (hp : p.consensus.behavior = .standard)
    (hcounts : p.consensus.CountsOn (.plDeliver (.vote vote))) :
    Runs (.plDeliver (.vote vote)) p (p.hand (p.consensus.handleVote vote)) := by
  obtain ⟨c, reqs⟩ := p
  unfold ConsensusState.handleVote
  rw [if_neg (by rw [hp]; exact nofun)]
  split
  case isTrue => exact Relation.ReflTransGen.refl
  case isFalse hcurrent =>
    rw [not_or, not_not, not_not] at hcurrent
    -- The vote is stored first.
    refine Relation.ReflTransGen.head (Acts.hear rfl hcurrent.1 hcurrent.2) ?_
    have hrecorded : (c.record vote).behavior = .standard := hp
    simp only
    cases htype : vote.voteType with
    | prevote =>
        simp only
        split
        case isTrue hquorum =>
          have hlocked : ((c.record vote).lock vote.value).behavior = .standard := by
            cases vote.value <;> exact hp
          rw [hand_eq]
          swap
          · exact hlocked
          refine Relation.ReflTransGen.single (Acts.precommit hquorum.2 ?_)
          intro x hx
          rw [← Option.mem_def.mp hx]
          exact hquorum.1
        case isFalse => exact Relation.ReflTransGen.refl
    | precommit =>
        simp only
        split
        case isTrue hquorum =>
          split
          case h_1 value hvalue =>
            rw [hvalue] at hquorum
            exact Relation.ReflTransGen.single (Acts.commit hquorum.2 hquorum.1)
          case h_2 hvalue =>
            rw [hvalue] at hquorum
            refine Relation.ReflTransGen.single (Acts.nextRound (p := ⟨c.record vote, reqs⟩)
              hquorum.2 (hcounts.1 ?_))
            exact ⟨htype, hvalue, hcurrent.1, hcurrent.2, hquorum.2, hquorum.1⟩
        case isFalse => exact Relation.ReflTransGen.refl

theorem handleTimeout_runs
    (hp : p.consensus.behavior = .standard)
    (hcounts : p.consensus.CountsOn .timeout) :
    Runs e p (p.hand p.consensus.handleTimeout) := by
  obtain ⟨c, reqs⟩ := p
  unfold ConsensusState.handleTimeout
  rw [if_neg (by rw [hp]; exact nofun)]
  cases hstep : c.step with
  | propose =>
      simp only
      rw [hand_eq]
      swap
      · exact hp
      exact Relation.ReflTransGen.single (@Acts.prevote e c reqs c.proposal none hstep nofun)
  | prevote =>
      simp only
      rw [hand_eq]
      swap
      · exact hp
      exact Relation.ReflTransGen.single (@Acts.precommit e c reqs none hstep nofun)
  | precommit => exact Relation.ReflTransGen.single (Acts.nextRound hstep (hcounts.1 hstep))
  | commit => exact Relation.ReflTransGen.single (Acts.nextHeight hstep (hcounts.2 ⟨rfl, hstep⟩))

/-- One iteration of the main loop is a sequence of effects. -/
theorem handle_runs
    (hp : p.consensus.behavior = .standard)
    (hcounts : p.consensus.CountsOn e) :
    Runs e p (p.handle e) := by
  match e with
  | .plDeliver (.proposal proposal) => exact handleProposal_runs hp
  | .plDeliver (.vote vote) => exact handleVote_runs hp hcounts
  | .timeout => exact handleTimeout_runs hp hcounts

end Process

end RustTendermint
end DistributedConsensus
