import DistributedConsensus.IbftSimulator.Node
import Mathlib.Logic.Relation

/-!
# IBFT simulator: every event is a sequence of effects

What an event can do to a node when every message that the node acts upon belongs
to the block that the node is working on.
-/

namespace DistributedConsensus
namespace IbftSimulator

open Foundations

namespace IBFTNode

/-- The node drops the message without counting or storing it. -/
def Ignores (n : IBFTNode) : IBFTMessage → Prop
  | .prePrepare m => m.round ≠ n.round ∨ n.pr = n.round
  | .prepare m => m.round ≠ n.round ∨ n.decided = true ∨ n.pr = n.round
  | .commit m => m.round ≠ n.round ∨ n.decided = true
  | .roundChange _ => False

instance (n : IBFTNode) : ∀ m, Decidable (n.Ignores m)
  | .prePrepare _ => inferInstanceAs (Decidable (_ ∨ _))
  | .prepare _ => inferInstanceAs (Decidable (_ ∨ _))
  | .commit _ => inferInstanceAs (Decidable (_ ∨ _))
  | .roundChange _ => inferInstanceAs (Decidable False)

/-- The message belongs to the block of the node, or the node does not act upon it. -/
def SameInstance (n : IBFTNode) (m : IBFTMessage) : Prop :=
  m.lambda = n.lambda ∨ n.isOffline = true ∨ n.Ignores m

instance (n : IBFTNode) (m : IBFTMessage) : Decidable (n.SameInstance m) :=
  inferInstanceAs (Decidable (_ ∨ _))

variable {n n' : IBFTNode} {e : Option IBFTMessage}

/-- What no vote, lock or round depends on. -/
def Quiet (n n' : IBFTNode) : Prop :=
  ∃ offline pending, n' = { n with isOffline := offline, pending := pending }

/-- The senders of votes that are counted after an event. -/
def Counts (n : IBFTNode) (heard : Vote → Prop) (votes votes' : Votes) : Prop :=
  ∀ v j, j ∈ votes'.getD v ∅ → j ∈ votes.getD v ∅ ∨
    ∃ m, heard m ∧ m.lambda = n.lambda ∧ m.round = n.round ∧ m.value = v ∧ m.senderID = j

/-- The proof of a PRE-PREPARE justifies its value. -/
def Justifies (n : IBFTNode) (m : PrePrepare) : Prop :=
  m.round ≤ 1 ∨ n.quorum ≤ m.proofRC.length ∧ m.value = n.getValueFromProof m.proofRC

/-- One effect of an event. -/
inductive Acts (e : Option IBFTMessage) : IBFTNode → IBFTNode → Prop
  | quiet {n n' : IBFTNode} : Quiet n n' → Acts e n n'
  | countPrepares {n : IBFTNode} {votes : Votes} :
      n.Counts (fun m => e = some (.prepare m)) n.prepareVotes votes →
      Acts e n { n with prepareVotes := votes }
  | countCommits {n : IBFTNode} {votes : Votes} :
      n.Counts (fun m => e = some (.commit m)) n.commitVotes votes →
      Acts e n { n with commitVotes := votes }
  | store {n : IBFTNode} {m : RoundChange} :
      e = some (.roundChange m) → m.lambda = n.lambda → Acts e n (n.store m)
  | prepare {n : IBFTNode} {m : PrePrepare} :
      e = some (.prePrepare m) → m.lambda = n.lambda → m.round = n.round → n.Justifies m →
      Acts e n (n.broadcast (.prepare ⟨n.lambda, n.round, m.value, n.id, none⟩))
  | lock {n : IBFTNode} {v : String} :
      n.quorum ≤ (n.prepareVotes.getD v ∅).card → Acts e n (n.lock v)
  | commit {n : IBFTNode} :
      n.pr = n.round → Acts e n (n.broadcast (.commit ⟨n.lambda, n.round, n.pv, n.id, none⟩))
  | decide {n : IBFTNode} {v : String} :
      n.quorum ≤ (n.commitVotes.getD v ∅).card → Acts e n (n.decide v)
  | changeRound {n : IBFTNode} : Acts e n n.changeRound
  | lead {n : IBFTNode} {o : MapOrder ℤ} :
      n.isLeader = true → n.quorum ≤ (n.roundChanges n.round).size →
      n.lastStartedRound < n.round → Acts e n (n.lead o)
  | nextInstance {n : IBFTNode} : n.isOffline = false → Acts e n n.nextInstance

/-- A sequence of effects. -/
abbrev Runs (e : Option IBFTMessage) : IBFTNode → IBFTNode → Prop :=
  Relation.ReflTransGen (Acts e)

theorem getD_touch (votes : Votes) (v x : String) :
    (votes.touch v).getD x ∅ = votes.getD x ∅ := by
  unfold Votes.touch
  split
  case isTrue => rfl
  case isFalse hnew =>
    rw [Dict.getD_set]
    split
    case isTrue heq =>
      subst heq
      unfold Dict.contains at hnew
      rw [Bool.not_eq_true, Option.isSome_eq_false_iff, Option.isNone_iff_eq_none] at hnew
      simp [Dict.getD, hnew]
    case isFalse => rfl

theorem counts_touch (heard : Vote → Prop) (votes : Votes) (v : String) :
    n.Counts heard votes (votes.touch v) := by
  intro x j hj
  rw [getD_touch] at hj
  exact Or.inl hj

theorem counts_add
    {heard : Vote → Prop} {m : Vote}
    (hm : heard m)
    (hlambda : m.lambda = n.lambda)
    (hround : m.round = n.round)
    (votes : Votes) :
    n.Counts heard votes (votes.add m.value m.senderID) := by
  intro x j hj
  unfold Votes.add at hj
  rw [Dict.getD_set] at hj
  split at hj
  case isTrue heq =>
    subst heq
    rcases Finset.mem_insert.mp hj with rfl | hold
    · exact Or.inr ⟨m, hm, hlambda, hround, rfl, rfl⟩
    · exact Or.inl hold
  case isFalse => exact Or.inl hj

theorem handlePrePrepare_runs
    {m : PrePrepare}
    (hsame : m.lambda = n.lambda ∨ n.Ignores (.prePrepare m)) :
    Runs (some (.prePrepare m)) n (n.handlePrePrepare m) := by
  unfold handlePrePrepare
  split
  case isTrue => exact Relation.ReflTransGen.refl
  case isFalse hround =>
    split
    case isTrue => exact Relation.ReflTransGen.refl
    case isFalse hpr =>
      split
      case isTrue => exact Relation.ReflTransGen.refl
      case isFalse hquorum =>
        split
        case isTrue => exact Relation.ReflTransGen.refl
        case isFalse hvalue =>
          rw [not_not] at hround
          have hlambda : m.lambda = n.lambda := by
            rcases hsame with hlambda | hdrop | hdrop
            · exact hlambda
            · exact absurd hround hdrop
            · exact absurd hdrop hpr
          refine Relation.ReflTransGen.single (Acts.prepare rfl hlambda hround ?_)
          by_cases hfirst : m.round ≤ 1
          · exact Or.inl hfirst
          · right
            rw [not_le] at hfirst
            constructor
            · by_contra hlt
              exact hquorum ⟨hfirst, not_le.mp hlt⟩
            · by_contra hne
              exact hvalue ⟨hfirst, hne⟩

theorem afterLock_runs {v : String} (hpr : n.pr = n.round) (hpv : n.pv = v) :
    Runs e n (n.afterLock v) := by
  subst hpv
  unfold afterLock
  repeat' split
  · exact Relation.ReflTransGen.single (Acts.quiet ⟨_, _, rfl⟩)
  · exact Relation.ReflTransGen.single (Acts.quiet ⟨_, _, rfl⟩)
  · exact Relation.ReflTransGen.single (Acts.commit hpr)

theorem handlePrepare_runs
    {m : Vote}
    (hsame : m.lambda = n.lambda ∨ n.Ignores (.prepare m)) :
    Runs (some (.prepare m)) n (n.handlePrepare m) := by
  unfold handlePrepare
  split
  case isTrue => exact Relation.ReflTransGen.refl
  case isFalse hround =>
    split
    case isTrue => exact Relation.ReflTransGen.refl
    case isFalse hdecided =>
      rw [not_not] at hround
      refine Relation.ReflTransGen.head (Acts.countPrepares (counts_touch _ _ m.value)) ?_
      simp only
      split
      case isTrue => exact Relation.ReflTransGen.refl
      case isFalse hpr =>
        have hlambda : m.lambda = n.lambda := by
          rcases hsame with hlambda | hdrop | hdrop | hdrop
          · exact hlambda
          · exact absurd hround hdrop
          · exact absurd hdrop hdecided
          · exact absurd hdrop hpr
        refine Relation.ReflTransGen.head
          (Acts.countPrepares (counts_add (m := m) ?_ ?_ ?_ _)) ?_
        · rfl
        · exact hlambda
        · exact hround
        split
        case isTrue hquorum =>
          exact Relation.ReflTransGen.head (Acts.lock hquorum) (afterLock_runs rfl rfl)
        case isFalse => exact Relation.ReflTransGen.refl

theorem handleCommit_runs
    {m : Vote}
    (hsame : m.lambda = n.lambda ∨ n.Ignores (.commit m)) :
    Runs (some (.commit m)) n (n.handleCommit m) := by
  unfold handleCommit
  split
  case isTrue => exact Relation.ReflTransGen.refl
  case isFalse hround =>
    split
    case isTrue => exact Relation.ReflTransGen.refl
    case isFalse hdecided =>
      rw [not_not] at hround
      have hlambda : m.lambda = n.lambda := by
        rcases hsame with hlambda | hdrop | hdrop
        · exact hlambda
        · exact absurd hround hdrop
        · exact absurd hdrop hdecided
      refine Relation.ReflTransGen.head (Acts.countCommits (counts_touch _ _ m.value)) ?_
      refine Relation.ReflTransGen.head
        (Acts.countCommits (counts_add (m := m) ?_ ?_ ?_ _)) ?_
      · rfl
      · exact hlambda
      · exact hround
      simp only
      split
      case isTrue hquorum =>
        split
        case isTrue => exact Relation.ReflTransGen.refl
        case isFalse => exact Relation.ReflTransGen.single (Acts.decide hquorum)
      case isFalse => exact Relation.ReflTransGen.refl

theorem onTimerExpire_runs (n : IBFTNode) : Runs e n n.onTimerExpire := by
  unfold onTimerExpire
  split
  case isTrue => exact Relation.ReflTransGen.refl
  case isFalse => exact Relation.ReflTransGen.single Acts.changeRound

theorem handleRoundChange_runs
    {m : RoundChange}
    (hlambda : m.lambda = n.lambda) (o : MapOrder ℤ) :
    Runs (some (.roundChange m)) n (n.handleRoundChange o m) := by
  unfold handleRoundChange
  refine Relation.ReflTransGen.head (Acts.store rfl hlambda) ?_
  simp only
  split
  case isTrue => exact onTimerExpire_runs _
  case isFalse =>
    split
    case isTrue hlead =>
      exact Relation.ReflTransGen.single (Acts.lead hlead.1 hlead.2.1 hlead.2.2.1)
    case isFalse => exact Relation.ReflTransGen.refl

/-- A message of the block of the node is handled in a sequence of effects. -/
theorem handleMessage_runs
    {m : IBFTMessage}
    (hsame : n.SameInstance m) (o : MapOrder ℤ) :
    Runs (some m) n (n.handleMessage o m) := by
  unfold handleMessage
  split
  case isTrue => exact Relation.ReflTransGen.refl
  case isFalse honline =>
    split
    case isTrue => exact Relation.ReflTransGen.refl
    case isFalse =>
      have hsame' : m.lambda = n.lambda ∨ n.Ignores m := by
        rcases hsame with hlambda | hoffline | hdrop
        · exact Or.inl hlambda
        · exact absurd hoffline honline
        · exact Or.inr hdrop
      cases m with
      | prePrepare m => exact handlePrePrepare_runs hsame'
      | prepare m => exact handlePrepare_runs hsame'
      | commit m => exact handleCommit_runs hsame'
      | roundChange m => exact handleRoundChange_runs (hsame'.resolve_right fun h => h) o

theorem nextInstance_runs (n : IBFTNode) : Runs e n n.nextInstance := by
  by_cases honline : n.isOffline = false
  · exact Relation.ReflTransGen.single (Acts.nextInstance honline)
  · unfold nextInstance
    rw [if_pos (Bool.not_eq_false _ ▸ honline)]

end IBFTNode

end IbftSimulator
end DistributedConsensus
