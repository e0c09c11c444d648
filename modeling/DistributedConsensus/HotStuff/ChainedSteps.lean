import DistributedConsensus.HotStuff.Network
import DistributedConsensus.HotStuff.ChainedCases

/-!
# Chained HotStuff: what one step of a replica can do

Only an accepted GENERIC proposal makes a replica vote, lock or execute; all
other handlers are `Quiet`.  `Handled` describes the effect of an accepted
proposal in terms of the two-chain and the three-chain behind the proposed node,
and `step_cases` is the resulting inversion lemma.
-/

namespace DistributedConsensus
namespace HotStuff
namespace ChainedReplica

open Foundations

variable {Cmd : Type} [Application Cmd]

/-- Nothing was voted, locked or executed. -/
structure Quiet (r r' : ChainedReplica Cmd) : Prop where
  id : r'.id = r.id
  voted : r'.voted = r.voted
  lockedNode : r'.lockedNode = r.lockedNode
  committed : r'.committed = r.committed
  executed : r'.executed = r.executed
  votes : votesOf r'.outbox = votesOf r.outbox

theorem Quiet.refl (r : ChainedReplica Cmd) : Quiet r r :=
  ⟨rfl, rfl, rfl, rfl, rfl, rfl⟩

theorem Quiet.trans
    {r s t : ChainedReplica Cmd}
    (h : Quiet r s)
    (h' : Quiet s t) :
    Quiet r t where
  id := h'.id.trans h.id
  voted := h'.voted.trans h.voted
  lockedNode := h'.lockedNode.trans h.lockedNode
  committed := h'.committed.trans h.committed
  executed := h'.executed.trans h.executed
  votes := h'.votes.trans h.votes

section Quiet

variable (cfg : Config) (r : ChainedReplica Cmd)

theorem quiet_send
    {m : Msg Cmd}
    (dst : Int)
    (hm : m.partialSig = none) :
    Quiet r (r.send dst m) := by
  refine ⟨rfl, rfl, rfl, rfl, rfl, ?_⟩
  simp [send, votesOf, hm]

theorem quiet_broadcast
    {m : Msg Cmd}
    (hm : m.partialSig = none) :
    Quiet r (r.broadcast cfg m) := by
  refine ⟨rfl, rfl, rfl, rfl, rfl, ?_⟩
  simp [broadcast, votesOf, List.filterMap_map, hm]

theorem quiet_tryPropose (v : Int) (qc : QC) : Quiet r (r.tryPropose cfg v qc) := by
  obtain ⟨pending, keys, heq | ⟨cmd, -, heq⟩⟩ := r.tryPropose_cases cfg v qc
  · rw [heq]
    exact ⟨rfl, rfl, rfl, rfl, rfl, rfl⟩
  · rw [heq]
    refine Quiet.trans ?_ (quiet_broadcast cfg _ rfl)
    exact ⟨rfl, rfl, rfl, rfl, rfl, rfl⟩

theorem quiet_submit (cmd : Cmd) : Quiet r (r.submit cfg cmd) := by
  unfold submit
  split
  case isTrue => exact Quiet.refl r
  case isFalse =>
    refine Quiet.trans ?_ (quiet_tryPropose cfg _ _ _)
    exact ⟨rfl, rfl, rfl, rfl, rfl, rfl⟩

theorem quiet_onNewView (m : Msg Cmd) : Quiet r (r.onNewView cfg m) := by
  rcases r.onNewView_cases cfg m with heq | ⟨-, -, s, rfl, heq | heq | ⟨high, -, -, heq⟩⟩
  · rw [heq]
    exact Quiet.refl r
  · rw [heq]
    exact ⟨rfl, rfl, rfl, rfl, rfl, rfl⟩
  · rw [heq]
    exact ⟨rfl, rfl, rfl, rfl, rfl, rfl⟩
  · rw [heq]
    refine Quiet.trans ?_ (quiet_tryPropose cfg _ _ _)
    exact ⟨rfl, rfl, rfl, rfl, rfl, rfl⟩

theorem quiet_advanceFrom (v : Int) : Quiet r (r.advanceFrom cfg v) := by
  unfold advanceFrom
  split
  case isTrue => exact Quiet.refl r
  case isFalse =>
    have hsend : ∀ (s : ChainedReplica Cmd) (dst : Int) (m : Msg Cmd),
        Quiet r s → m.partialSig = none → Quiet r ((s.send dst m).armTimer cfg) := by
      intro s dst m hs hm
      refine hs.trans ((s.quiet_send dst hm).trans ?_)
      exact ⟨rfl, rfl, rfl, rfl, rfl, rfl⟩
    exact hsend { r with left := r.left.insert v, view := v + 1 } _ _
      ⟨rfl, rfl, rfl, rfl, rfl, rfl⟩ rfl

theorem quiet_onTimeout (v : Int) : Quiet r (r.onTimeout cfg v) := by
  unfold onTimeout
  split
  case isTrue => exact Quiet.refl r
  case isFalse =>
    refine Quiet.trans ?_ (quiet_advanceFrom cfg _ _)
    exact ⟨rfl, rfl, rfl, rfl, rfl, rfl⟩

theorem quiet_onGenericVote (m : Msg Cmd) (rid : Int) (sig : Sig) :
    Quiet r (r.onGenericVote cfg m rid sig) := by
  rcases r.onGenericVote_cases cfg m rid sig with
    heq | heq | ⟨node, formed, qcs, s, -, rfl, heq | heq | ⟨qc, -, -, -, heq⟩⟩
  · rw [heq]
    exact Quiet.refl r
  · rw [heq]
    exact ⟨rfl, rfl, rfl, rfl, rfl, rfl⟩
  · rw [heq]
    exact ⟨rfl, rfl, rfl, rfl, rfl, rfl⟩
  · rw [heq]
    exact ⟨rfl, rfl, rfl, rfl, rfl, rfl⟩
  · rw [heq]
    refine Quiet.trans ?_ (quiet_tryPropose cfg _ _ _)
    exact ⟨rfl, rfl, rfl, rfl, rfl, rfl⟩

end Quiet

section Execution

/-- Nodes of a list were executed in order. -/
structure Executes (r r' : ChainedReplica Cmd) (bs : List (Node Cmd)) : Prop where
  id : r'.id = r.id
  voted : r'.voted = r.voted
  lockedNode : r'.lockedNode = r.lockedNode
  votes : votesOf r'.outbox = votesOf r.outbox
  committed : r'.committed = r.committed ++ bs
  executed : ∀ h, h ∈ r'.executed ↔ h ∈ r.executed ∨ h ∈ bs.map Node.hash

theorem executes_executeNode (r : ChainedReplica Cmd) (b : Node Cmd) :
    Executes r (r.executeNode b) [b] := by
  have hmem : ∀ h, h ∈ r.executed.insert b.hash ↔
      h ∈ r.executed ∨ h ∈ [b].map Node.hash := by
    intro h
    simp [or_comm]
  simp only [executeNode]
  split
  case h_1 => exact ⟨rfl, rfl, rfl, rfl, rfl, hmem⟩
  case h_2 => exact ⟨rfl, rfl, rfl, rfl, rfl, hmem⟩

theorem executes_foldl (bs : List (Node Cmd)) (r : ChainedReplica Cmd) :
    Executes r (bs.foldl executeNode r) bs := by
  induction bs generalizing r with
  | nil => exact ⟨rfl, rfl, rfl, rfl, by simp, by simp⟩
  | cons b bs ih =>
      have hb := executes_executeNode r b
      have hbs := ih (r.executeNode b)
      refine ⟨hbs.id.trans hb.id, hbs.voted.trans hb.voted,
        hbs.lockedNode.trans hb.lockedNode, hbs.votes.trans hb.votes, ?_, ?_⟩
      · rw [List.foldl_cons, hbs.committed, hb.committed, List.append_assoc]
        rfl
      · intro h
        rw [List.foldl_cons, hbs.executed, hb.executed, or_assoc, ← List.mem_append,
          ← List.map_append]
        rfl

/-- **The chained update rule.** -/
theorem update_spec (r : ChainedReplica Cmd) (bStar : Node Cmd) :
    Executes { r with lockedNode := lockOn r.lockedNode (twoChain r.tree bStar) }
      (r.update bStar) (newlyCommitted r.tree r.unexecuted bStar) := by
  rcases r.update_cases bStar with ⟨hnone, heq⟩ | ⟨qc, -, heq⟩
  · simp only [twoChain, newlyCommitted, threeChain, hnone]
    rcases heq with heq | heq
    · rw [heq]
      exact ⟨rfl, rfl, rfl, rfl, by simp, by simp⟩
    · rw [heq]
      exact ⟨rfl, rfl, rfl, rfl, by simp [raise], by simp [raise]⟩
  · rw [heq]
    have hexec := executes_foldl (newlyCommitted r.tree r.unexecuted bStar) { r with
      genericQc := if r.genericQc.viewNumber < qc.viewNumber then qc else r.genericQc
      lockedNode := lockOn r.lockedNode (twoChain r.tree bStar) }
    exact ⟨hexec.id, hexec.voted, hexec.lockedNode, hexec.votes, hexec.committed,
      hexec.executed⟩

end Execution

section Step

/-- The replica votes for a node that arrives in a view. -/
def Votes (r : ChainedReplica Cmd) (v : Int) (bStar : Node Cmd) (qc : QC) : Prop :=
  v ∉ r.voted ∧ safeNode { r with tree := r.tree.add bStar } bStar qc = true

instance (r : ChainedReplica Cmd) (v : Int) (bStar : Node Cmd) (qc : QC) :
    Decidable (Votes r v bStar qc) :=
  inferInstanceAs (Decidable (_ ∧ _))

/-- The effect of an accepted proposal. -/
structure Handled (r : ChainedReplica Cmd) (v : Int) (bStar : Node Cmd) (qc : QC)
    (r' : ChainedReplica Cmd) : Prop where
  id : r'.id = r.id
  votes : votesOf r'.outbox = votesOf r.outbox ++
    if Votes r v bStar qc then [.signed r.id .generic v bStar.hash] else []
  voted : r'.voted = if Votes r v bStar qc then r.voted.insert v else r.voted
  lockedNode : r'.lockedNode =
    lockOn r.lockedNode (twoChain (r.tree.add bStar) bStar)
  committed : r'.committed =
    r.committed ++ newlyCommitted (r.tree.add bStar) r.unexecuted bStar
  executed : ∀ h, h ∈ r'.executed ↔ h ∈ r.executed ∨
    h ∈ (newlyCommitted (r.tree.add bStar) r.unexecuted bStar).map Node.hash

/-- Voting changes nothing but the votes. -/
theorem vote_spec
    (cfg : Config) (r : ChainedReplica Cmd) (v : Int) (node : Node Cmd) (qc : QC) :
    r.vote cfg v node qc = { r with
      voted := if v ∉ r.voted ∧ r.safeNode node qc then r.voted.insert v else r.voted
      outbox := r.outbox ++ if v ∉ r.voted ∧ r.safeNode node qc then
        [(cfg.leader (v + 1), r.voteMsg v node)] else [] } := by
  unfold vote
  split
  case isTrue h => simp [send, h, voteMsg]
  case isFalse h => simp

theorem onGeneric_handled (cfg : Config) (r : ChainedReplica Cmd) (m : Msg Cmd) :
    Quiet r (r.onGeneric cfg m) ∨
      ∃ bStar qc, m.sender = cfg.leader m.viewNumber ∧ m.node = some bStar ∧
        m.justify = some qc ∧ Replica.verifyJustify cfg (some qc) = true ∧
        Handled r m.viewNumber bStar qc (r.onGeneric cfg m) := by
  rcases r.onGeneric_cases cfg m with heq | heq | ⟨bStar, qc, haccepts, heq⟩
  · rw [heq]
    exact Or.inl (Quiet.refl r)
  · rw [heq]
    exact Or.inl ⟨rfl, rfl, rfl, rfl, rfl, rfl⟩
  · refine Or.inr ⟨bStar, qc, haccepts.sender, haccepts.node, haccepts.justify,
      haccepts.verified, ?_⟩
    have hvotes : (m.viewNumber ∉ (r.storeProposal cfg m bStar).voted ∧
        (r.storeProposal cfg m bStar).safeNode bStar qc = true) ↔
        Votes r m.viewNumber bStar qc := Iff.rfl
    have hupdate := update_spec
      ((r.storeProposal cfg m bStar).vote cfg m.viewNumber bStar qc) bStar
    rw [heq]
    rw [vote_spec] at hupdate ⊢
    simp only [hvotes] at hupdate ⊢
    refine ⟨hupdate.id, ?_, hupdate.voted, hupdate.lockedNode, hupdate.committed,
      hupdate.executed⟩
    rw [hupdate.votes]
    simp only [votesOf_append]
    congr 1
    split
    case isTrue => simp [votesOf, voteMsg, signVote, storeProposal, registerBranch]
    case isFalse => rfl

/-- **Inversion of a step.**  A step is quiet, or it handles an accepted
proposal. -/
theorem step_cases
    {r r' : ChainedReplica Cmd} {i : Input Cmd}
    (cfg : Config)
    (h : r.step cfg i = some r') :
    Quiet { r with outbox := [] } r' ∨
      ∃ m bStar qc, i = .dispatch m ∧ m.type = .generic ∧ m.partialSig = none ∧
        m.sender = cfg.leader m.viewNumber ∧ m.node = some bStar ∧
        m.justify = some qc ∧ Replica.verifyJustify cfg (some qc) = true ∧
        Handled { r with outbox := [] } m.viewNumber bStar qc r' := by
  have hclear : Quiet { r with outbox := [] } { r with outbox := [], replies := [] } :=
    ⟨rfl, rfl, rfl, rfl, rfl, rfl⟩
  cases occurs_of_step h with
  | start =>
      refine Or.inl (Quiet.trans ?_ (quiet_advanceFrom cfg _ _))
      exact ⟨rfl, rfl, rfl, rfl, rfl, rfl⟩
  | newView m => exact Or.inl (hclear.trans (quiet_onNewView cfg _ m))
  | genericVote m rid sig => exact Or.inl (hclear.trans (quiet_onGenericVote cfg _ m rid sig))
  | generic m htype hsig =>
      rcases onGeneric_handled cfg { r with outbox := [], replies := [] } m with
        hquiet | ⟨bStar, qc, hsender, hnode, hqc, hverify, hh⟩
      · exact Or.inl (hclear.trans hquiet)
      · refine Or.inr ⟨m, bStar, qc, rfl, htype, hsig, hsender, hnode, hqc, hverify, ?_⟩
        exact ⟨hh.id, hh.votes, hh.voted, hh.lockedNode, hh.committed, hh.executed⟩
  | ignored m => exact Or.inl hclear
  | submit cmd => exact Or.inl (hclear.trans (quiet_submit cfg _ cmd))
  | timeout v =>
      refine Or.inl (Quiet.trans ?_ (quiet_onTimeout cfg _ v))
      exact ⟨rfl, rfl, rfl, rfl, rfl, rfl⟩
  | stop => exact Or.inl ⟨rfl, rfl, rfl, rfl, rfl, rfl⟩

end Step

end ChainedReplica
end HotStuff
end DistributedConsensus
