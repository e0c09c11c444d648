import DistributedConsensus.RustTendermint.Voting
import DistributedConsensus.Foundations.Runs

/-!
# Rust Tendermint: one node under any sequence of calls

The handlers of one node are called in any order, with any proposals and votes.

A quorum is looked for when a vote arrives, for the value of that vote only, and
only in the step that waits for it.  A quorum that is complete before the node
enters the step is therefore overlooked, and no other quorum is.

A lock is compared with the proposed value, never with the round of the lock.
-/

namespace DistributedConsensus
namespace RustTendermint

open Foundations

namespace ConsensusState

variable {s s' : ConsensusState} {e : Event}

/-- One call of a handler. -/
def call (s : ConsensusState) : Event → ConsensusState × Option PlRequest
  | .plDeliver (.proposal proposal) => s.handleProposal proposal
  | .plDeliver (.vote vote) => s.handleVote vote
  | .timeout => s.handleTimeout

/-- The calls of one node. -/
def calls (s : ConsensusState) : System ConsensusState Event where
  init := s
  step := fun s e => some (s.call e).1

/-- A node that follows the protocol, as it was created or after the start of
round 0. -/
inductive Fresh : ConsensusState → Prop
  | created (i : NodeId) (n : UInt32) : Fresh (new i n .standard)
  | started (i : NodeId) (n : UInt32) : Fresh ((new i n .standard).startRound 0).1

theorem behavior_call (s : ConsensusState) (e : Event) :
    (s.call e).1.behavior = s.behavior := by
  match e with
  | .plDeliver (.proposal proposal) =>
      simp only [call, handleProposal]
      repeat' split
      all_goals rfl
  | .plDeliver (.vote vote) =>
      have hlock : ∀ (c : ConsensusState) value, (c.lock value).behavior = c.behavior := by
        intro c value
        cases value <;> rfl
      simp only [call, handleVote]
      repeat' split
      all_goals first | rfl | exact hlock _ _ | exact Process.behavior_startRound _ _
  | .timeout =>
      simp only [call, handleTimeout]
      repeat' split
      all_goals first | rfl | exact Process.behavior_startRound _ _

/-! ## Overlooked quorums -/

/-- No quorum of stored votes of the current round waits to be noticed. -/
structure Heeds (s : ConsensusState) : Prop where
  prevotes : s.step = .prevote → ∀ value, ¬s.reachesQuorum .prevote value
  precommits : s.step = .precommit → ∀ x, ¬s.reachesQuorum .precommit (some x)

/-- The call makes the node enter the prevote step. -/
def EntersPrevote (s : ConsensusState) : Event → Prop
  | .plDeliver (.proposal proposal) =>
      s.step = .propose ∧ proposal.round = s.round ∧ proposal.height = s.height ∧
        proposal.sender = s.getProposer
  | .plDeliver (.vote _) => False
  | .timeout => s.step = .propose

/-- The call makes the node enter the precommit step. -/
def EntersPrecommit (s : ConsensusState) : Event → Prop
  | .plDeliver (.proposal _) => False
  | .plDeliver (.vote vote) =>
      vote.voteType = .prevote ∧ vote.height = s.height ∧ vote.round = s.round ∧
        s.step = .prevote ∧ (s.record vote).reachesQuorum .prevote vote.value
  | .timeout => s.step = .prevote

/-- The node enters a step before the quorum that the step waits for is complete. -/
structure InTime (s : ConsensusState) (e : Event) : Prop where
  prevotes : s.EntersPrevote e → ∀ value, ¬s.reachesQuorum .prevote value
  precommits : s.EntersPrecommit e → ∀ x, ¬s.reachesQuorum .precommit (some x)

/-- A quorum has at least one vote. -/
theorem quorumSize_pos (n : UInt32) : 0 < quorumSize n := by
  have hlt : (n * 2).toNat / 3 + 1 < 2 ^ 32 := by
    have := (n * 2).toNat_lt
    omega
  unfold quorumSize
  rw [UInt32.toNat_add, UInt32.toNat_div]
  show 0 < ((n * 2).toNat / 3 + 1) % 2 ^ 32
  rw [Nat.mod_eq_of_lt hlt]
  omega

/-- A quorum has a vote. -/
theorem exists_vote_of_reachesQuorum
    {t : VoteType} {value : Option Value}
    (h : s.reachesQuorum t value) :
    ∃ v ∈ ((s.tally s.round).votes t).values, v.value = value := by
  unfold reachesQuorum countVotes at h
  have hpos := (quorumSize_pos s.totalNodes).trans_le h
  obtain ⟨v, hv⟩ := List.exists_mem_of_length_pos hpos
  rw [List.mem_filter] at hv
  exact ⟨v, hv.1, of_decide_eq_true hv.2⟩

instance (t : VoteType) : Decidable (∀ value, ¬s.reachesQuorum t value) :=
  decidable_of_iff (∀ v ∈ ((s.tally s.round).votes t).values, ¬s.reachesQuorum t v.value) <| by
    constructor
    · intro h value hreach
      obtain ⟨v, hv, rfl⟩ := exists_vote_of_reachesQuorum hreach
      exact h v hv hreach
    · exact fun h v _ => h v.value

instance (t : VoteType) : Decidable (∀ x, ¬s.reachesQuorum t (some x)) :=
  decidable_of_iff (∀ v ∈ ((s.tally s.round).votes t).values,
      v.value ≠ none → ¬s.reachesQuorum t v.value) <| by
    constructor
    · intro h x hreach
      obtain ⟨v, hv, hvalue⟩ := exists_vote_of_reachesQuorum hreach
      rw [← hvalue] at hreach
      exact h v hv (by rw [hvalue]; exact nofun) hreach
    · intro h v _ hne
      obtain ⟨x, hx⟩ := Option.ne_none_iff_exists'.mp hne
      rw [hx]
      exact h x

instance (s : ConsensusState) : ∀ e, Decidable (s.EntersPrevote e)
  | .plDeliver (.proposal proposal) => inferInstanceAs (Decidable (s.step = .propose ∧
      proposal.round = s.round ∧ proposal.height = s.height ∧ proposal.sender = s.getProposer))
  | .plDeliver (.vote _) => inferInstanceAs (Decidable False)
  | .timeout => inferInstanceAs (Decidable (s.step = .propose))

instance (s : ConsensusState) : ∀ e, Decidable (s.EntersPrecommit e)
  | .plDeliver (.proposal _) => inferInstanceAs (Decidable False)
  | .plDeliver (.vote vote) => inferInstanceAs (Decidable (vote.voteType = .prevote ∧
      vote.height = s.height ∧ vote.round = s.round ∧ s.step = .prevote ∧
      (s.record vote).reachesQuorum .prevote vote.value))
  | .timeout => inferInstanceAs (Decidable (s.step = .prevote))

instance (s : ConsensusState) (e : Event) : Decidable (s.InTime e) :=
  decidable_of_iff ((s.EntersPrevote e → ∀ value, ¬s.reachesQuorum .prevote value) ∧
      (s.EntersPrecommit e → ∀ x, ¬s.reachesQuorum .precommit (some x)))
    ⟨fun h => ⟨h.1, h.2⟩, fun h => ⟨h.prevotes, h.precommits⟩⟩

/-- A call that enters neither step is in time. -/
theorem inTime_of_stays
    (hprevote : ¬s.EntersPrevote e)
    (hprecommit : ¬s.EntersPrecommit e) :
    s.InTime e :=
  ⟨fun h => absurd h hprevote, fun h => absurd h hprecommit⟩

/-- Storing a vote adds no support to the other values. -/
theorem countVotes_set_le
    {votes : Dict NodeId Vote} {vote : Vote} {value : Option Value}
    (hne : vote.value ≠ value) (i : NodeId) :
    countVotes (votes.set i vote) value ≤ countVotes votes value := by
  have hcount : ∀ d : Dict NodeId Vote,
      countVotes d value = (d.keysWhere fun v => v.value = value).card := by
    intro d
    rw [Dict.card_keysWhere, List.countP_eq_length_filter]
    rfl
  rw [hcount, hcount]
  refine Finset.card_le_card fun j hj => ?_
  obtain ⟨v, hv, hvalue⟩ := Dict.mem_keysWhere.mp hj
  rw [Dict.get?_set] at hv
  split at hv
  case isTrue =>
    obtain rfl := Option.some.inj hv
    exact absurd (of_decide_eq_true hvalue) hne
  case isFalse => exact Dict.mem_keysWhere.mpr ⟨v, hv, hvalue⟩

section Record

variable {vote : Vote} {t : VoteType} {value : Option Value}

/-- A stored vote counts for its own type and value only. -/
theorem reachesQuorum_of_record
    (hround : vote.round = s.round)
    (hother : vote.voteType ≠ t ∨ vote.value ≠ value)
    (h : (s.record vote).reachesQuorum t value) :
    s.reachesQuorum t value := by
  unfold reachesQuorum at h ⊢
  have hcurrent : (s.record vote).round = vote.round := hround.symm
  rw [hcurrent, Process.tally_record, Process.votes_insert, hround] at h
  refine h.trans ?_
  rcases hother with htype | hvalue
  · rw [if_neg htype]
  · split
    case isTrue => exact countVotes_set_le hvalue _
    case isFalse => exact Nat.le_refl _

theorem record_reachesQuorum_iff
    (hround : vote.round = s.round)
    (htype : vote.voteType ≠ t) :
    (s.record vote).reachesQuorum t value ↔ s.reachesQuorum t value := by
  refine ⟨reachesQuorum_of_record hround (Or.inl htype), ?_⟩
  intro h
  unfold reachesQuorum at h ⊢
  have hcurrent : (s.record vote).round = vote.round := hround.symm
  rw [hcurrent, Process.tally_record, Process.votes_insert, if_neg htype, hround]
  exact h

end Record

/-- No votes are stored for a round that has just begun. -/
theorem heeds_startRound
    (hs : s.behavior = .standard) (round : Round) :
    (s.startRound round).1.Heeds := by
  have hstep : (s.startRound round).1.step = .propose := by
    unfold startRound
    rw [if_neg (by rw [hs]; exact nofun)]
    simp only
    split <;> rfl
  constructor
  · intro h
    rw [hstep] at h
    cases h
  · intro h
    rw [hstep] at h
    cases h

theorem Fresh.spec (h : Fresh s) : s.behavior = .standard ∧ s.Heeds := by
  cases h with
  | created i n => exact ⟨rfl, nofun, nofun⟩
  | started i n => exact ⟨Process.behavior_startRound _ _, heeds_startRound rfl 0⟩

theorem heeds_handleProposal_iff
    {proposal : Proposal}
    (hs : s.behavior = .standard)
    (h : s.Heeds) :
    (s.handleProposal proposal).1.Heeds ↔ s.InTime (.plDeliver (.proposal proposal)) := by
  unfold handleProposal
  rw [if_neg (by rw [hs]; exact nofun)]
  split
  case isTrue hstale =>
    refine ⟨fun _ => inTime_of_stays ?_ nofun, fun _ => h⟩
    rintro ⟨hstep, hround, hheight, -⟩
    rcases hstale with hne | hne | hne
    · exact hne hstep
    · exact hne hround
    · exact hne hheight
  case isFalse hcurrent =>
    push Not at hcurrent
    split
    case isTrue hforeign =>
      exact ⟨fun _ => inTime_of_stays (fun henters => hforeign henters.2.2.2) nofun, fun _ => h⟩
    case isFalse hproposer =>
      rw [not_not] at hproposer
      constructor
      · intro hheeds
        exact ⟨fun _ => hheeds.prevotes rfl, nofun⟩
      · intro htime
        exact ⟨fun _ => htime.prevotes ⟨hcurrent.1, hcurrent.2.1, hcurrent.2.2, hproposer⟩, nofun⟩

/-- A stored prevote leaves the precommits alone, and is noticed in the prevote
step. -/
theorem heeds_prevote_iff
    {vote : Vote}
    (hs : s.behavior = .standard)
    (h : s.Heeds)
    (hheight : vote.height = s.height)
    (hround : vote.round = s.round)
    (htype : vote.voteType = .prevote) :
    (s.handleVote vote).1.Heeds ↔ s.InTime (.plDeliver (.vote vote)) := by
  have hother : vote.voteType ≠ .precommit := by
    rw [htype]
    exact nofun
  unfold handleVote
  rw [if_neg (by rw [hs]; exact nofun), if_neg (by simp [hheight, hround])]
  simp only [htype]
  split
  case isTrue hquorum =>
    have hlock : ∀ value x, ({ (s.record vote).lock value with step := Step.precommit } :
        ConsensusState).reachesQuorum .precommit (some x) ↔
        s.reachesQuorum .precommit (some x) := by
      intro value x
      rw [← record_reachesQuorum_iff hround hother]
      cases value <;> exact Iff.rfl
    constructor
    · intro hheeds
      exact ⟨nofun, fun _ x hx => hheeds.precommits rfl x ((hlock _ x).mpr hx)⟩
    · intro htime
      refine ⟨nofun, fun _ x hx => ?_⟩
      exact htime.precommits ⟨htype, hheight, hround, hquorum.2, hquorum.1⟩ x ((hlock _ x).mp hx)
  case isFalse hnone =>
    refine ⟨fun _ => inTime_of_stays nofun ?_, fun _ => ⟨?_, ?_⟩⟩
    · rintro ⟨-, -, -, hstep, hreach⟩
      exact hnone ⟨hreach, hstep⟩
    · intro hstep value hreach
      by_cases hvalue : vote.value = value
      · subst hvalue
        exact hnone ⟨hreach, hstep⟩
      · exact h.prevotes hstep value (reachesQuorum_of_record hround (Or.inr hvalue) hreach)
    · intro hstep x hreach
      exact h.precommits hstep x ((record_reachesQuorum_iff hround hother).mp hreach)

/-- A stored precommit leaves the prevotes alone, and is noticed in the precommit
step. -/
theorem heeds_precommit
    {vote : Vote}
    (hs : s.behavior = .standard)
    (h : s.Heeds)
    (hheight : vote.height = s.height)
    (hround : vote.round = s.round)
    (htype : vote.voteType = .precommit) :
    (s.handleVote vote).1.Heeds := by
  have hother : vote.voteType ≠ .prevote := by
    rw [htype]
    exact nofun
  unfold handleVote
  rw [if_neg (by rw [hs]; exact nofun), if_neg (by simp [hheight, hround])]
  simp only [htype]
  split
  case isTrue hquorum =>
    split
    case h_1 => exact ⟨nofun, nofun⟩
    case h_2 => exact heeds_startRound (s := s.record vote) hs _
  case isFalse hnone =>
    constructor
    · intro hstep value hreach
      exact h.prevotes hstep value ((record_reachesQuorum_iff hround hother).mp hreach)
    · intro hstep x hreach
      by_cases hvalue : vote.value = some x
      · rw [← hvalue] at hreach
        exact hnone ⟨hreach, hstep⟩
      · exact h.precommits hstep x (reachesQuorum_of_record hround (Or.inr hvalue) hreach)

theorem heeds_handleVote_iff
    {vote : Vote}
    (hs : s.behavior = .standard)
    (h : s.Heeds) :
    (s.handleVote vote).1.Heeds ↔ s.InTime (.plDeliver (.vote vote)) := by
  by_cases hcurrent : vote.height = s.height ∧ vote.round = s.round
  · obtain ⟨hheight, hround⟩ := hcurrent
    cases htype : vote.voteType with
    | prevote => exact heeds_prevote_iff hs h hheight hround htype
    | precommit =>
        refine ⟨fun _ => inTime_of_stays nofun ?_, fun _ => heeds_precommit hs h hheight hround htype⟩
        rintro ⟨hprevote, -⟩
        rw [htype] at hprevote
        cases hprevote
  · have hsame : (s.handleVote vote).1 = s := by
      unfold handleVote
      rw [if_neg (by rw [hs]; exact nofun), if_pos (by
        rw [not_and_or] at hcurrent
        exact hcurrent)]
    rw [hsame]
    refine ⟨fun _ => inTime_of_stays nofun ?_, fun _ => h⟩
    rintro ⟨-, hheight, hround, -⟩
    exact hcurrent ⟨hheight, hround⟩

theorem heeds_handleTimeout_iff
    (hs : s.behavior = .standard) :
    s.handleTimeout.1.Heeds ↔ s.InTime .timeout := by
  unfold handleTimeout
  rw [if_neg (by rw [hs]; exact nofun)]
  cases hstep : s.step with
  | propose =>
      constructor
      · intro hheeds
        refine ⟨fun _ => hheeds.prevotes rfl, fun henters => ?_⟩
        rw [EntersPrecommit, hstep] at henters
        cases henters
      · intro htime
        exact ⟨fun _ => htime.prevotes hstep, nofun⟩
  | prevote =>
      constructor
      · intro hheeds
        refine ⟨fun henters => ?_, fun _ => hheeds.precommits rfl⟩
        rw [EntersPrevote, hstep] at henters
        cases henters
      · intro htime
        exact ⟨nofun, fun _ => htime.precommits hstep⟩
  | precommit =>
      refine ⟨fun _ => inTime_of_stays ?_ ?_, fun _ => heeds_startRound hs _⟩
      · rw [EntersPrevote, hstep]
        exact nofun
      · rw [EntersPrecommit, hstep]
        exact nofun
  | commit =>
      refine ⟨fun _ => inTime_of_stays ?_ ?_, fun _ => heeds_startRound (s := s.nextHeight) hs 0⟩
      · rw [EntersPrevote, hstep]
        exact nofun
      · rw [EntersPrecommit, hstep]
        exact nofun

/-- **One call.**  A call creates an overlooked quorum exactly when it is not in
time. -/
theorem heeds_call_iff
    (hs : s.behavior = .standard)
    (h : s.Heeds) :
    (s.call e).1.Heeds ↔ s.InTime e := by
  match e with
  | .plDeliver (.proposal proposal) => exact heeds_handleProposal_iff hs h
  | .plDeliver (.vote vote) => exact heeds_handleVote_iff hs h
  | .timeout => exact heeds_handleTimeout_iff hs

/-- **No quorum is overlooked in time.**  In a run whose calls are all in time no
quorum waits to be noticed, and the first call that is not in time leaves one
behind. -/
theorem heeds_of_calls_inTime
    {s₀ : ConsensusState}
    (hfresh : Fresh s₀)
    (hrun : (calls s₀).Reachable InTime s) :
    s.Heeds ∧ ∀ e, (s.call e).1.Heeds ↔ s.InTime e := by
  have hinv : s.behavior = .standard ∧ s.Heeds := by
    refine System.Reachable.invariant (I := fun s => s.behavior = .standard ∧ s.Heeds)
      hfresh.spec ?_ hrun
    rintro c e c' - ⟨hc, hheeds⟩ htime hstep
    cases hstep
    exact ⟨(behavior_call c e).trans hc, (heeds_call_iff hc hheeds).mpr htime⟩
  exact ⟨hinv.2, fun e => heeds_call_iff hinv.1 hinv.2⟩

section Example

/-- A vote of the first round for block `a`. -/
def voteFor (t : VoteType) (i : NodeId) : Event := .plDeliver (.vote ⟨t, 1, 0, some ⟨"a"⟩, i⟩)

/-- Node 0 of four nodes in round 0. -/
def nodeZero : ConsensusState := ((new 0 4 .standard).startRound 0).1

/-- The runs in time are not vacuous: a node commits. -/
theorem heeds_of_calls_inTime_commit :
    ∃ s, (calls nodeZero).Reachable InTime s ∧ s.step = .commit ∧
      s.Heeds ∧ ∀ e, (s.call e).1.Heeds ↔ s.InTime e := by
  obtain ⟨s, hrun, hstep⟩ : ∃ s, (calls nodeZero).Reachable InTime s ∧ s.step = .commit := by
    refine System.exists_reaches_of_exec
      [.plDeliver (.proposal ⟨1, 0, ⟨"a"⟩, none, 1⟩),
        voteFor .prevote 0, voteFor .prevote 1, voteFor .prevote 2,
        voteFor .precommit 0, voteFor .precommit 1, voteFor .precommit 2] ?_
    decide +kernel
  exact ⟨s, hrun, hstep, heeds_of_calls_inTime (Fresh.started 0 4) hrun⟩

/-- **An overlooked quorum.**  The prevotes arrive before the timeout that ends the
propose step. -/
theorem not_heeds_of_calls :
    ¬∀ s₀ s : ConsensusState, Fresh s₀ → (calls s₀).Reachable System.anyStep s → s.Heeds := by
  intro hall
  obtain ⟨s, hrun, hstep, hquorum⟩ : ∃ s, (calls nodeZero).Reachable System.anyStep s ∧
      s.step = .prevote ∧ s.reachesQuorum .prevote (some ⟨"a"⟩) := by
    refine System.exists_reaches_of_exec
      [voteFor .prevote 1, voteFor .prevote 2, voteFor .prevote 3, .timeout] ?_
    decide +kernel
  exact (hall nodeZero s (Fresh.started 0 4) hrun).prevotes hstep _ hquorum

end Example

/-! ## Old locks -/

/-- The proposal repeats a value that a quorum has prevoted in an earlier round, and
the node has locked no value since that round. -/
structure Repeats (s : ConsensusState) (proposal : Proposal) (vr : Round) : Prop where
  step : s.step = .propose
  height : proposal.height = s.height
  round : proposal.round = s.round
  proposer : proposal.sender = s.getProposer
  validRound : proposal.validRound = some vr
  earlier : vr < s.round
  quorum : s.hasQuorum vr proposal.value
  lock : ∀ lr ∈ s.lockedRound, lr ≤ vr

instance (s : ConsensusState) (proposal : Proposal) (vr : Round) :
    Decidable (s.Repeats proposal vr) :=
  decidable_of_iff (s.step = .propose ∧ proposal.height = s.height ∧ proposal.round = s.round ∧
      proposal.sender = s.getProposer ∧ proposal.validRound = some vr ∧ vr < s.round ∧
      s.hasQuorum vr proposal.value ∧ s.lockedRound.all (fun lr => decide (lr ≤ vr)) = true) <| by
    simp only [Option.all_eq_true, decide_eq_true_eq]
    constructor
    · rintro ⟨h1, h2, h3, h4, h5, h6, h7, h8⟩
      exact ⟨h1, h2, h3, h4, h5, h6, h7, h8⟩
    · intro h
      exact ⟨h.step, h.height, h.round, h.proposer, h.validRound, h.earlier, h.quorum, h.lock⟩

/-- The node answers the proposal with a prevote for its value. -/
def Prevotes (s : ConsensusState) (proposal : Proposal) : Prop :=
  (s.handleProposal proposal).2
    = some (.broadcast (.vote (s.ownVote .prevote (some proposal.value))))

instance (s : ConsensusState) (proposal : Proposal) : Decidable (s.Prevotes proposal) :=
  inferInstanceAs (Decidable (_ = _))

/-- A node that follows the protocol keeps to it. -/
theorem behavior_of_calls
    {s₀ : ConsensusState} {ok : ConsensusState → Event → Prop}
    (hfresh : Fresh s₀)
    (hrun : (calls s₀).Reachable ok s) :
    s.behavior = .standard := by
  refine System.Reachable.invariant (I := fun s => s.behavior = .standard) hfresh.spec.1 ?_ hrun
  rintro c e c' - hc - hstep
  cases hstep
  exact (behavior_call c e).trans hc

/-- The vote on a proposal of the current round from its proposer. -/
theorem handleProposal_eq
    {proposal : Proposal}
    (hs : s.behavior = .standard)
    (hstep : s.step = .propose)
    (hround : proposal.round = s.round)
    (hheight : proposal.height = s.height)
    (hproposer : proposal.sender = s.getProposer) :
    s.handleProposal proposal = ({ s with proposal := some proposal, step := .prevote },
      some (.broadcast (.vote (s.ownVote .prevote (s.voteValue proposal))))) := by
  unfold handleProposal
  rw [if_neg (by rw [hs]; exact nofun), if_neg (by simp [hstep, hround, hheight]),
    if_neg (not_not.mpr hproposer)]

/-- **The lock never gets stale.**  A repeated proposal is prevoted exactly when the
node holds no lock on another value, however old the lock is. -/
theorem prevotes_iff_of_repeats
    {s₀ : ConsensusState} {proposal : Proposal} {vr : Round}
    (hfresh : Fresh s₀)
    (hrun : (calls s₀).Reachable System.anyStep s)
    (h : s.Repeats proposal vr) :
    s.Prevotes proposal ↔ ∀ locked ∈ s.lockedValue, locked = proposal.value := by
  have hs := behavior_of_calls hfresh hrun
  unfold Prevotes
  rw [handleProposal_eq hs h.step h.round h.height h.proposer]
  have hvalid : ¬∃ r ∈ proposal.validRound, ¬s.hasQuorum r proposal.value := by
    rintro ⟨r, hr, hnone⟩
    rw [h.validRound] at hr
    obtain rfl := Option.some.inj hr
    exact hnone h.quorum
  have hvalue : s.voteValue proposal = some proposal.value ↔
      ∀ locked ∈ s.lockedValue, locked = proposal.value := by
    unfold voteValue
    constructor
    · intro heq locked hlocked
      by_contra hne
      rw [if_pos (Or.inl ⟨locked, hlocked, hne⟩)] at heq
      cases heq
    · intro hall
      rw [if_neg]
      rintro (⟨locked, hlocked, hne⟩ | hnone)
      · exact hne (hall locked hlocked)
      · exact hvalid hnone
  rw [← hvalue]
  constructor
  · intro heq
    simpa [ownVote] using heq
  · intro heq
    rw [heq]

section Example

/-- A vote of height 1 for block `b` in round 1. -/
def laterVote (i : NodeId) : Event := .plDeliver (.vote ⟨.prevote, 1, 1, some ⟨"b"⟩, i⟩)

/-- Block `b` is proposed in round 2, with the prevotes of round 1. -/
def repeatedProposal : Proposal := ⟨1, 2, ⟨"b"⟩, some 1, 3⟩

/-- The prevotes for block `b` reach a node without a lock. -/
theorem prevotes_iff_of_repeats_unlocked :
    ∃ s, (calls nodeZero).Reachable System.anyStep s ∧ s.Repeats repeatedProposal 1 ∧
      s.lockedValue = none ∧
      (s.Prevotes repeatedProposal ↔
        ∀ locked ∈ s.lockedValue, locked = repeatedProposal.value) := by
  obtain ⟨s, hrun, hrepeats, hlock⟩ : ∃ s, (calls nodeZero).Reachable System.anyStep s ∧
      s.Repeats repeatedProposal 1 ∧ s.lockedValue = none := by
    refine System.exists_reaches_of_exec
      [.timeout, .timeout, .timeout, laterVote 1, laterVote 2, laterVote 3,
        .timeout, .timeout, .timeout] ?_
    decide +kernel
  exact ⟨s, hrun, hrepeats, hlock, prevotes_iff_of_repeats (Fresh.started 0 4) hrun hrepeats⟩

/-- **A stale lock.**  A node that has locked block `a` in round 0 rejects block `b`
in round 2 although a quorum has prevoted it in round 1. -/
theorem not_prevotes_of_repeats :
    ¬∀ (s₀ s : ConsensusState) (proposal : Proposal) (vr : Round), Fresh s₀ →
      (calls s₀).Reachable System.anyStep s → s.Repeats proposal vr → s.Prevotes proposal := by
  intro hall
  obtain ⟨s, hrun, hrepeats, hnot⟩ : ∃ s, (calls nodeZero).Reachable System.anyStep s ∧
      s.Repeats repeatedProposal 1 ∧ ¬s.Prevotes repeatedProposal := by
    refine System.exists_reaches_of_exec
      [.plDeliver (.proposal ⟨1, 0, ⟨"a"⟩, none, 1⟩),
        voteFor .prevote 0, voteFor .prevote 1, voteFor .prevote 2, .timeout,
        laterVote 1, laterVote 2, laterVote 3, .timeout, .timeout, .timeout] ?_
    decide +kernel
  exact hnot (hall nodeZero s repeatedProposal 1 (Fresh.started 0 4) hrun hrepeats)

end Example

end ConsensusState

end RustTendermint
end DistributedConsensus
