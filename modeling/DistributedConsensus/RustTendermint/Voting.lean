import DistributedConsensus.Foundations.MapOrder
import DistributedConsensus.Foundations.RoundVoter
import DistributedConsensus.RustTendermint.Effects

/-!
# Rust Tendermint: a node as a participant that votes with a lock

The heights, rounds, locks and votes of a node make it a participant in the sense
of `RoundVoter`, and its effects are steps of that participant, as long as a
quorum of stored prevotes is a quorum of prevotes.  The stored votes of the
current round belong to the current height.
-/

namespace DistributedConsensus
namespace RustTendermint

open Foundations
open Foundations.RoundVoter (Voter Ballot Kind Phase)

def VoteType.kind : VoteType → Kind
  | prevote => .prevote
  | precommit => .precommit

def Step.phase : Step → Phase
  | propose => .start
  | prevote => .prevoted
  | precommit => .precommitted
  | commit => .precommitted

def Vote.ballot (v : Vote) : Ballot Value :=
  ⟨v.voteType.kind, v.height.toNat, v.round.toNat, v.value⟩

/-- A broadcast vote. -/
def PlRequest.vote? : PlRequest → Option Vote
  | broadcast (.vote v) => some v
  | _ => none

/-- The lock of a node. -/
def ConsensusState.voterLock (c : ConsensusState) : Option (ℤ × Value) :=
  match c.lockedRound, c.lockedValue with
  | some r, some x => some (r.toNat, x)
  | _, _ => none

namespace Process

variable {p p' : Process} {e : Event} {reqs : List PlRequest} {c : ConsensusState}

/-- The votes that a node has cast. -/
def ballots (p : Process) : List (Ballot Value) :=
  (p.requests.filterMap PlRequest.vote?).map Vote.ballot

/-- The node as a participant. -/
def voter (p : Process) : Voter Value where
  height := p.consensus.height.toNat
  round := p.consensus.round.toNat
  phase := p.consensus.step.phase
  lock := p.consensus.voterLock
  votes := p.ballots

theorem hasVoted_iff {vote : Vote} :
    p.HasVoted vote ↔ vote ∈ p.requests.filterMap PlRequest.vote? := by
  unfold HasVoted
  rw [List.mem_filterMap]
  constructor
  · exact fun h => ⟨_, h, rfl⟩
  · rintro ⟨req, hreq, hvote⟩
    match req, hvote with
    | .broadcast (.vote v), hvote =>
        obtain rfl := Option.some.inj hvote
        exact hreq

theorem HasVoted.mem_ballots
    {vote : Vote}
    (h : p.HasVoted vote) :
    vote.ballot ∈ p.ballots :=
  List.mem_map_of_mem (hasVoted_iff.mp h)

/-- A vote is the last request. -/
theorem ballots_vote (c : ConsensusState) (reqs : List PlRequest) (v : Vote) :
    ballots ⟨c, reqs ++ [.broadcast (.vote v)]⟩ = ballots ⟨c, reqs⟩ ++ [v.ballot] := by
  simp [ballots, PlRequest.vote?]

/-- Proposals are no votes. -/
theorem ballots_proposals
    {c' : ConsensusState} {new : List PlRequest} {i : NodeId}
    (hnew : ∀ req ∈ new, ∃ m : Proposal, req = .broadcast (.proposal m) ∧ m.sender = i) :
    ballots ⟨c', reqs ++ new⟩ = ballots ⟨c, reqs⟩ := by
  have hnone : new.filterMap PlRequest.vote? = [] := by
    rw [List.filterMap_eq_nil_iff]
    intro req hreq
    obtain ⟨m, rfl, -⟩ := hnew req hreq
    rfl
  simp [ballots, hnone]

theorem toNat_succ_round {r : Round} (h : r.toNat + 1 < 2 ^ 32) : (r + 1).toNat = r.toNat + 1 := by
  rw [UInt32.toNat_add]
  exact Nat.mod_eq_of_lt h

theorem toNat_succ_height {h : Height} (hh : h.toNat + 1 < 2 ^ 64) :
    (h + 1).toNat = h.toNat + 1 := by
  rw [UInt64.toNat_add]
  exact Nat.mod_eq_of_lt hh

/-- Every effect leaves the participant as it is or is one of its steps. -/
theorem Acts.voter
    {K : ℤ → ℤ → Value → Prop}
    (hp : p.consensus.behavior = .standard)
    (hK : ∀ x, p.consensus.reachesQuorum .prevote (some x) →
      K p.consensus.height.toNat p.consensus.round.toNat x)
    (hact : Acts e p p') :
    p'.voter = p.voter ∨ Voter.Acts K p.voter p'.voter := by
  cases hact with
  | hear _ _ _ => exact Or.inl rfl
  | @prevote c reqs proposal value hstep hlock =>
      right
      have hvoted : Process.voter ⟨{ c with proposal := proposal, step := .prevote },
          reqs ++ [.broadcast (.vote (c.ownVote .prevote value))]⟩ =
          { Process.voter ⟨c, reqs⟩ with
            phase := .prevoted
            votes := ballots ⟨c, reqs⟩ ++ [(c.ownVote .prevote value).ballot] } := by
        rw [← ballots_vote]
        rfl
      rw [hvoted]
      refine Voter.Acts.prevote ?_ ?_
      · show c.step.phase = .start
        rw [hstep]
        rfl
      · intro x hx l hl
        left
        simp only [Process.voter, ConsensusState.voterLock] at hl
        split at hl
        case h_1 r y _ hy =>
          obtain rfl := Option.some.inj hl
          exact hlock x hx y hy
        case h_2 => cases hl
  | @precommit c reqs value hstep hquorum =>
      right
      have hphase : (Process.voter ⟨c, reqs⟩).phase = .prevoted := by
        show c.step.phase = .prevoted
        rw [hstep]
        rfl
      cases value with
      | none =>
          have hvoted : Process.voter ⟨{ c.lock none with step := .precommit },
              reqs ++ [.broadcast (.vote (c.ownVote .precommit none))]⟩ =
              { Process.voter ⟨c, reqs⟩ with
                phase := .precommitted
                votes := ballots ⟨c, reqs⟩ ++ [(c.ownVote .precommit none).ballot] } := by
            rw [← ballots_vote]
            rfl
          rw [hvoted]
          exact Voter.Acts.precommitNil hphase
      | some x =>
          have hvoted : Process.voter ⟨{ c.lock (some x) with step := .precommit },
              reqs ++ [.broadcast (.vote (c.ownVote .precommit (some x)))]⟩ =
              { Process.voter ⟨c, reqs⟩ with
                phase := .precommitted
                lock := some ((Process.voter ⟨c, reqs⟩).round, x)
                votes := ballots ⟨c, reqs⟩ ++ [(c.ownVote .precommit (some x)).ballot] } := by
            rw [← ballots_vote]
            rfl
          rw [hvoted]
          exact Voter.Acts.precommit hphase (hK x (hquorum x rfl))
  | @commit c reqs value hstep _ =>
      left
      have hphase : Step.phase .commit = c.step.phase := by
        rw [hstep]
        rfl
      simp only [Process.voter, hphase]
      rfl
  | @nextRound p hstep hcounts =>
      right
      obtain ⟨new, heq, hnew⟩ := startRound_spec hp (p.consensus.round + 1)
      have hentered : Process.voter (p.startRound (p.consensus.round + 1)) =
          { p.voter with round := (p.consensus.round + 1).toNat, phase := .start } := by
        rw [heq]
        simp only [Process.voter, ballots_proposals (c := p.consensus) hnew]
        rfl
      rw [hentered]
      refine Voter.Acts.enter ?_
      rw [toNat_succ_round hcounts]
      show (p.consensus.round.toNat : ℤ) < _
      omega
  | @nextHeight c reqs hstep hcounts =>
      right
      obtain ⟨new, heq, hnew⟩ := startRound_spec (p := ⟨c.nextHeight, reqs⟩) hp 0
      have hadvanced : Process.voter (Process.startRound ⟨c.nextHeight, reqs⟩ 0) =
          { Process.voter ⟨c, reqs⟩ with
            height := (c.height + 1).toNat, round := 0, phase := .start, lock := none } := by
        rw [heq]
        simp only [Process.voter, ballots_proposals (c := c) hnew]
        rfl
      rw [hadvanced]
      refine Voter.Acts.advance ?_
      rw [toNat_succ_height hcounts]
      show (c.height.toNat : ℤ) < _
      omega

/-! ## The stored votes -/

theorem votes_insert (rv : RoundVote) (vote : Vote) (t : VoteType) :
    (rv.insert vote).votes t =
      if vote.voteType = t then (rv.votes t).set vote.sender vote else rv.votes t := by
  unfold RoundVote.insert
  cases ht : vote.voteType <;> cases t <;> rfl

theorem tally_record (c : ConsensusState) (vote : Vote) :
    (c.record vote).tally vote.round = (c.tally vote.round).insert vote := by
  simp [ConsensusState.tally, ConsensusState.record, Dict.getD_set]

/-- The stored votes of the current round are known votes of their senders. -/
def Tallied (known : Vote → Prop) (c : ConsensusState) : Prop :=
  ∀ t i v, ((c.tally c.round).votes t).get? i = some v →
    v.sender = i ∧ v.voteType = t ∧ v.height = c.height ∧ v.round = c.round ∧ known v

theorem Tallied.mono
    {known known' : Vote → Prop}
    (hsub : ∀ v, known v → known' v)
    (h : Tallied known c) :
    Tallied known' c := by
  intro t i v hv
  obtain ⟨hsender, htype, hheight, hround, hknown⟩ := h t i v hv
  exact ⟨hsender, htype, hheight, hround, hsub v hknown⟩

/-- No votes are stored for a round that has just begun. -/
theorem tallied_enterRound
    (known : Vote → Prop) (c : ConsensusState) (round : Round) :
    Tallied known (c.enterRound round) := by
  intro t i v hv
  simp only [ConsensusState.tally, ConsensusState.enterRound, Dict.getD_set, if_true] at hv
  cases t <;> cases hv

theorem Tallied.acts
    {known : Vote → Prop}
    (hp : p.consensus.behavior = .standard)
    (he : ∀ vote, e = .plDeliver (.vote vote) → known vote)
    (hact : Acts e p p')
    (h : Tallied known p.consensus) :
    Tallied known p'.consensus := by
  cases hact with
  | @hear c reqs vote hevent hheight hround =>
      intro t i v hv
      have hcurrent : (c.record vote).round = vote.round := hround.symm
      rw [hcurrent, tally_record, votes_insert] at hv
      split at hv
      case isTrue htype =>
        rw [Dict.get?_set] at hv
        split at hv
        case isTrue hi =>
          obtain rfl := Option.some.inj hv
          exact ⟨hi.symm, htype, hheight, hround, he _ hevent⟩
        case isFalse =>
          rw [hround] at hv
          exact h t i v hv
      case isFalse =>
        rw [hround] at hv
        exact h t i v hv
  | prevote _ _ => exact h
  | @precommit c reqs value _ _ =>
      cases value with
      | none => exact h
      | some x => exact h
  | commit _ _ => exact h
  | nextRound _ _ =>
      obtain ⟨new, heq, -⟩ := startRound_spec hp (p.consensus.round + 1)
      rw [heq]
      exact tallied_enterRound _ _ _
  | @nextHeight c reqs _ _ =>
      obtain ⟨new, heq, -⟩ := startRound_spec (p := ⟨c.nextHeight, reqs⟩) hp 0
      rw [heq]
      exact tallied_enterRound _ _ _

/-- The senders of the stored votes for a value. -/
def supporters (c : ConsensusState) (t : VoteType) (value : Option Value) : Finset NodeId :=
  ((c.tally c.round).votes t).keysWhere fun v => v.value = value

theorem card_supporters (c : ConsensusState) (t : VoteType) (value : Option Value) :
    (supporters c t value).card = countVotes ((c.tally c.round).votes t) value := by
  unfold supporters countVotes
  rw [Dict.card_keysWhere, List.countP_eq_length_filter]

/-- A supporter is the sender of a known vote. -/
theorem Tallied.of_mem_supporters
    {known : Vote → Prop} {t : VoteType} {value : Option Value} {i : NodeId}
    (h : Tallied known c)
    (hi : i ∈ supporters c t value) :
    known ⟨t, c.height, c.round, value, i⟩ := by
  obtain ⟨v, hv, hvalue⟩ := Dict.mem_keysWhere.mp hi
  obtain ⟨rfl, rfl, hheight, hround, hknown⟩ := h t i v hv
  rw [← hheight, ← hround, ← of_decide_eq_true hvalue]
  exact hknown

end Process

end RustTendermint
end DistributedConsensus
