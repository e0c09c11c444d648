import DistributedConsensus.HotStuff.Network
import DistributedConsensus.HotStuff.ReplicaCases

/-!
# Basic HotStuff: what one step of a replica can do

Most handlers neither vote, nor lock, nor execute.  The relations `Quiet` and
`Idle` say so once per helper function, and the inversion lemmas at the end of
the module list what is left: a PREPARE vote, a PRE-COMMIT vote, a COMMIT vote
together with a new lock, or the execution of decided branches.
-/

namespace DistributedConsensus
namespace HotStuff
namespace Replica

open Foundations

variable {Cmd : Type} [Application Cmd]

/-- The identity, the lock and the votes handed to the network are unchanged. -/
structure Quiet (r r' : Replica Cmd) : Prop where
  id : r'.id = r.id
  lockedQc : r'.lockedQc = r.lockedQc
  votes : votesOf r'.outbox = votesOf r.outbox

/-- Moreover nothing was executed or deferred. -/
structure Idle (r r' : Replica Cmd) : Prop extends Quiet r r' where
  committed : r'.committed = r.committed
  executed : r'.executed = r.executed
  deferred : r'.deferred = r.deferred

theorem Quiet.trans
    {r s t : Replica Cmd}
    (h : Quiet r s)
    (h' : Quiet s t) :
    Quiet r t where
  id := h'.id.trans h.id
  lockedQc := h'.lockedQc.trans h.lockedQc
  votes := h'.votes.trans h.votes

theorem Idle.refl (r : Replica Cmd) : Idle r r :=
  ⟨⟨rfl, rfl, rfl⟩, rfl, rfl, rfl⟩

theorem Idle.trans
    {r s t : Replica Cmd}
    (h : Idle r s)
    (h' : Idle s t) :
    Idle r t where
  toQuiet := h.toQuiet.trans h'.toQuiet
  committed := h'.committed.trans h.committed
  executed := h'.executed.trans h.executed
  deferred := h'.deferred.trans h.deferred

section Idle

variable (cfg : Config) (r : Replica Cmd)

theorem idle_send
    {m : Msg Cmd}
    (dst : Int)
    (hm : m.partialSig = none) :
    Idle r (r.send dst m) := by
  refine ⟨⟨rfl, rfl, ?_⟩, rfl, rfl, rfl⟩
  simp [send, votesOf, hm]

theorem idle_broadcast
    {m : Msg Cmd}
    (hm : m.partialSig = none) :
    Idle r (r.broadcast cfg m) := by
  refine ⟨⟨rfl, rfl, ?_⟩, rfl, rfl, rfl⟩
  simp [broadcast, votesOf, List.filterMap_map, hm]

theorem idle_raise : Idle r r.raise := ⟨⟨rfl, rfl, rfl⟩, rfl, rfl, rfl⟩

theorem idle_requestSync (h : Digest) (peer : Int) : Idle r (r.requestSync h peer) :=
  r.idle_send peer rfl

theorem idle_armTimer : Idle r (r.armTimer cfg) :=
  ⟨⟨rfl, rfl, rfl⟩, rfl, rfl, rfl⟩

theorem idle_advanceFrom (v : Int) : Idle r (r.advanceFrom cfg v) := by
  unfold advanceFrom
  split
  case isTrue => exact Idle.refl r
  case isFalse =>
    refine Idle.trans ?_ (idle_armTimer cfg _)
    refine Idle.trans ?_ (idle_send _ _ rfl)
    exact ⟨⟨rfl, rfl, rfl⟩, rfl, rfl, rfl⟩

/-- Leaving the view of a decision is idle. -/
theorem idle_leaveDecided (m : Msg Cmd) : Idle r (r.leaveDecided cfg m) := by
  unfold leaveDecided
  split
  case isTrue => exact Idle.refl r
  case isFalse =>
    refine Idle.trans ?_ (idle_advanceFrom cfg _ _)
    exact ⟨⟨rfl, rfl, rfl⟩, rfl, rfl, rfl⟩

theorem idle_syncView (v : Int) : Idle r (r.syncView cfg v) :=
  ⟨⟨rfl, rfl, rfl⟩, rfl, rfl, rfl⟩

theorem idle_tryPropose (v : Int) : Idle r (r.tryPropose cfg v) := by
  obtain ⟨pending, keys, heq | ⟨high, cmd, -, heq⟩⟩ := r.tryPropose_cases cfg v
  · rw [heq]
    exact ⟨⟨rfl, rfl, rfl⟩, rfl, rfl, rfl⟩
  · rw [heq]
    refine Idle.trans ?_ (idle_broadcast cfg _ rfl)
    exact ⟨⟨rfl, rfl, rfl⟩, rfl, rfl, rfl⟩

theorem idle_submit (cmd : Cmd) : Idle r (r.submit cfg cmd) := by
  unfold submit
  split
  case isTrue => exact Idle.refl r
  case isFalse =>
    refine Idle.trans ?_ (idle_tryPropose cfg _ _)
    exact ⟨⟨rfl, rfl, rfl⟩, rfl, rfl, rfl⟩

theorem idle_onNewView (m : Msg Cmd) : Idle r (r.onNewView cfg m) := by
  rcases onNewView_cases cfg r m with heq | heq | ⟨high, -, heq⟩ <;> rw [heq]
  · exact Idle.refl r
  · exact ⟨⟨rfl, rfl, rfl⟩, rfl, rfl, rfl⟩
  · refine Idle.trans ?_ (idle_tryPropose cfg _ _)
    exact ⟨⟨rfl, rfl, rfl⟩, rfl, rfl, rfl⟩

theorem idle_tally (m : Msg Cmd) : Idle r (r.tally cfg m).2 := by
  rcases tally_cases cfg r m with heq | heq | ⟨rid, sig, node, -, ⟨-, heq⟩ | ⟨-, heq⟩⟩ <;> rw [heq]
  · exact Idle.refl r
  · exact idle_raise r
  · exact ⟨⟨rfl, rfl, rfl⟩, rfl, rfl, rfl⟩
  · exact ⟨⟨rfl, rfl, rfl⟩, rfl, rfl, rfl⟩

theorem idle_onPrepareVote (m : Msg Cmd) : Idle r (r.onPrepareVote cfg m) := by
  have htally := r.idle_tally cfg m
  rcases onPrepareVote_cases cfg r m with heq | heq | ⟨votes, qc, qcs, -, -, heq⟩ <;> rw [heq]
  · exact htally
  · exact htally.trans (idle_raise _)
  · refine htally.trans (Idle.trans ?_ (idle_broadcast cfg _ rfl))
    exact ⟨⟨rfl, rfl, rfl⟩, rfl, rfl, rfl⟩

theorem idle_onGenericVote (m : Msg Cmd) : Idle r (r.onGenericVote cfg m) := by
  have htally := r.idle_tally cfg m
  rcases onGenericVote_cases cfg r m with heq | heq | ⟨votes, qc, t, qcs, -, -, heq⟩ <;> rw [heq]
  · exact htally
  · exact htally.trans (idle_raise _)
  · refine htally.trans (Idle.trans ?_ (idle_broadcast cfg _ rfl))
    exact ⟨⟨rfl, rfl, rfl⟩, rfl, rfl, rfl⟩

theorem idle_onTimeout (v : Int) : Idle r (r.onTimeout cfg v) := by
  unfold onTimeout
  split
  case isTrue => exact Idle.refl r
  case isFalse =>
    refine Idle.trans ?_ (idle_advanceFrom cfg _ _)
    exact ⟨⟨rfl, rfl, rfl⟩, rfl, rfl, rfl⟩

theorem idle_onSyncReq (m : Msg Cmd) : Idle r (r.onSyncReq m) := by
  rcases onSyncReq_cases r m with heq | heq | ⟨h, heq⟩ <;> rw [heq]
  · exact Idle.refl r
  · exact idle_raise r
  · exact idle_send _ _ rfl

end Idle

section Execution

/-- The nodes `bs` were executed, oldest first; nothing else of interest
happened. -/
structure Executes (r r' : Replica Cmd) (bs : List (Node Cmd)) : Prop
    extends Quiet r r' where
  committed : r'.committed = r.committed ++ bs
  executed : ∀ h, h ∈ r'.executed ↔ h ∈ r.executed ∨ h ∈ bs.map Node.hash
  deferred : r'.deferred = r.deferred

/-- Idle steps after an execution do not matter. -/
theorem Executes.trans_idle
    {r s t : Replica Cmd} {bs : List (Node Cmd)}
    (h : Executes r s bs)
    (h' : Idle s t) :
    Executes r t bs where
  toQuiet := h.toQuiet.trans h'.toQuiet
  committed := h'.committed.trans h.committed
  executed := by
    rw [h'.executed]
    exact h.executed
  deferred := h'.deferred.trans h.deferred

/-- Executions compose. -/
theorem Executes.append
    {r s t : Replica Cmd} {bs cs : List (Node Cmd)}
    (h : Executes r s bs)
    (h' : Executes s t cs) :
    Executes r t (bs ++ cs) where
  toQuiet := h.toQuiet.trans h'.toQuiet
  committed := by rw [h'.committed, h.committed, List.append_assoc]
  executed := by
    intro x
    rw [h'.executed, h.executed, List.map_append, List.mem_append, or_assoc]
  deferred := h'.deferred.trans h.deferred

theorem executes_executeNode (r : Replica Cmd) (b : Node Cmd) :
    Executes r (r.executeNode b) [b] := by
  have hmem : ∀ h, h ∈ r.executed.insert b.hash ↔
      h ∈ r.executed ∨ h ∈ [b].map Node.hash := by
    intro h
    simp [or_comm]
  simp only [executeNode]
  split
  case h_1 => exact ⟨⟨rfl, rfl, rfl⟩, rfl, hmem, rfl⟩
  case h_2 => exact ⟨⟨rfl, rfl, rfl⟩, rfl, hmem, rfl⟩

theorem executes_foldl (bs : List (Node Cmd)) (r : Replica Cmd) :
    Executes r (bs.foldl executeNode r) bs := by
  induction bs generalizing r with
  | nil => exact ⟨⟨rfl, rfl, rfl⟩, by simp, by simp, rfl⟩
  | cons b bs ih => exact (executes_executeNode r b).append (ih _)

/-- What the handler of DECIDE does. -/
inductive Deciding (cfg : Config) (r : Replica Cmd) (m : Msg Cmd)
    (r' : Replica Cmd) : Prop
  | skip :
      Idle r r' → Deciding cfg r m r'
  | defer (qc : QC) :
      Accepts cfg m .commit qc →
      Quiet r r' →
      r'.committed = r.committed →
      r'.executed = r.executed →
      r'.deferred = r.deferred ++ [m] →
      Deciding cfg r m r'
  | execute (qc : QC) :
      Accepts cfg m .commit qc →
      r.tree.has qc.nodeHash = true →
      r.tree.firstMissing r.unexecuted qc.nodeHash = none →
      Executes r r' (r.tree.branch r.unexecuted qc.nodeHash).reverse →
      Deciding cfg r m r'

theorem onDecide_deciding (cfg : Config) (r : Replica Cmd) (m : Msg Cmd) :
    Deciding cfg r m (r.onDecide cfg m) := by
  rcases onDecide_cases cfg r m with heq | ⟨qc, hacc, ⟨h, heq⟩ | heq | ⟨b, hget, hmissing, heq⟩⟩ <;>
    rw [heq]
  · exact Deciding.skip (Idle.refl r)
  · have hidle := r.idle_requestSync h m.sender
    exact Deciding.defer qc hacc
      ⟨hidle.id, hidle.lockedQc, hidle.votes⟩ hidle.committed hidle.executed rfl
  · exact Deciding.skip (idle_leaveDecided cfg r m)
  · have hb := Tree.hash_of_get hget
    unfold firstMissingAncestor at hmissing
    rw [hb] at hmissing
    refine Deciding.execute qc hacc (by simp [Tree.has, hget]) hmissing ?_
    rw [← hb]
    exact (executes_foldl _ r).trans_idle (idle_leaveDecided cfg _ m)

/-- The handler of DECIDE neither votes nor locks. -/
theorem quiet_onDecide (cfg : Config) (r : Replica Cmd) (m : Msg Cmd) :
    Quiet r (r.onDecide cfg m) := by
  cases onDecide_deciding cfg r m with
  | skip h => exact h.toQuiet
  | defer _ _ h => exact h
  | execute _ _ _ _ h => exact h.toQuiet

theorem quiet_foldl_onDecide (cfg : Config) (ms : List (Msg Cmd)) (r : Replica Cmd) :
    Quiet r (ms.foldl (onDecide cfg) r) := by
  induction ms generalizing r with
  | nil => exact ⟨rfl, rfl, rfl⟩
  | cons m ms ih => exact (quiet_onDecide cfg r m).trans (ih _)

theorem quiet_onSyncResp (cfg : Config) (r : Replica Cmd) (m : Msg Cmd) :
    Quiet r (r.onSyncResp cfg m) := by
  rcases onSyncResp_cases cfg r m with heq | ⟨chain, -, heq⟩ <;> rw [heq]
  · exact (idle_raise r).toQuiet
  · refine Quiet.trans ?_ (quiet_foldl_onDecide cfg _ _)
    exact ⟨rfl, rfl, rfl⟩

end Execution

section Voting

/-- The votes that a step of replica `id` with lock `lock` sends, and the lock
that it leaves behind. -/
inductive Voting (cfg : Config) (id : Nat) (lock : QC) (i : Input Cmd) :
    List Sig → QC → Prop
  | none : Voting cfg id lock i [] lock
  | prepare (m : Msg Cmd) (node : Node Cmd) (qc : QC) :
      i = .dispatch m → m.type = .prepare → m.partialSig = none →
      m.sender = cfg.leader m.viewNumber →
      m.node = some node → m.justify = some qc →
      verifyJustify cfg (some qc) = true →
      node.hash.Extends qc.nodeHash →
      node.hash.Extends lock.nodeHash ∨ lock.viewNumber < qc.viewNumber →
      Voting cfg id lock i [.signed id .prepare m.viewNumber node.hash] lock
  | preCommit (m : Msg Cmd) (qc : QC) :
      i = .dispatch m → m.type = .preCommit → m.partialSig = none →
      Accepts cfg m .prepare qc →
      Voting cfg id lock i [.signed id .preCommit m.viewNumber qc.nodeHash] lock
  | commit (m : Msg Cmd) (qc : QC) :
      i = .dispatch m → m.type = .commit → m.partialSig = none →
      Accepts cfg m .preCommit qc →
      Voting cfg id lock i [.signed id .commit m.viewNumber qc.nodeHash] qc

/-- A quiet step does not vote. -/
theorem Voting.of_quiet
    {cfg : Config} {r r' : Replica Cmd} {i : Input Cmd}
    (hout : r.outbox = [])
    (h : Quiet r r') :
    Voting cfg r.id r.lockedQc i (votesOf r'.outbox) r'.lockedQc := by
  rw [h.votes, h.lockedQc, hout]
  exact Voting.none

@[simp] theorem votesOf_sendVote
    (cfg : Config) (r : Replica Cmd) (t : MsgType) (v : Int) (b : Node Cmd) :
    votesOf (r.sendVote cfg t v b).outbox =
      votesOf r.outbox ++ [.signed r.id t v b.hash] := by
  simp [sendVote, send, votesOf, voteMsg, signVote]

/-- The guard of a PREPARE vote. -/
theorem extends_or_lt_of_safeNode
    {r : Replica Cmd} {node : Node Cmd} {qc : QC}
    (h : r.safeNode node qc = true) :
    node.hash.Extends r.lockedQc.nodeHash ∨
      r.lockedQc.viewNumber < qc.viewNumber := by
  simp only [safeNode, Bool.or_eq_true, decide_eq_true_eq] at h
  rcases h with hsafe | hlive
  · left
    split at hsafe
    case h_1 b hb =>
      have hext := Tree.extends_of_reaches hsafe
      rwa [Tree.hash_of_get hb] at hext
    case h_2 => cases hsafe
  · exact Or.inr hlive

variable {cfg : Config} {r : Replica Cmd} {m : Msg Cmd}

theorem onPrepare_voting
    (hout : r.outbox = [])
    (htype : m.type = .prepare)
    (hsig : m.partialSig = none) :
    (r.onPrepare cfg m).id = r.id ∧
      Voting cfg r.id r.lockedQc (.dispatch m)
        (votesOf (r.onPrepare cfg m).outbox) (r.onPrepare cfg m).lockedQc := by
  have hquiet : ∀ r', Quiet r r' →
      r'.id = r.id ∧
        Voting cfg r.id r.lockedQc (.dispatch m) (votesOf r'.outbox) r'.lockedQc :=
    fun r' h => ⟨h.id, Voting.of_quiet hout h⟩
  have hstore : ∀ node, Quiet r (r.storeProposal m node) := fun node => ⟨rfl, rfl, rfl⟩
  rcases onPrepare_cases cfg r m with heq | heq |
    ⟨node, qc, hsender, hnode, hqc, hverify, heq | heq | ⟨parent, hparent, hext, hsafe, heq⟩⟩ <;>
    rw [heq]
  · exact hquiet r ⟨rfl, rfl, rfl⟩
  · exact hquiet _ (idle_raise r).toQuiet
  · exact hquiet _ ((hstore node).trans (idle_requestSync _ _ _).toQuiet)
  · exact hquiet _ (hstore node)
  · have hempty : (r.storeProposal m node).outbox = [] := hout
    have hreach : node.hash.Extends qc.nodeHash := by
      rw [← Tree.hash_of_get hparent]
      exact Tree.extends_of_reaches hext
    have hguard := extends_or_lt_of_safeNode hsafe
    refine ⟨rfl, ?_⟩
    rw [votesOf_sendVote, hempty]
    exact Voting.prepare m node qc rfl htype hsig hsender hnode hqc hverify hreach hguard

theorem onPreCommit_voting
    (hout : r.outbox = [])
    (htype : m.type = .preCommit)
    (hsig : m.partialSig = none) :
    (r.onPreCommit cfg m).id = r.id ∧
      Voting cfg r.id r.lockedQc (.dispatch m)
        (votesOf (r.onPreCommit cfg m).outbox) (r.onPreCommit cfg m).lockedQc := by
  rcases onPreCommit_cases cfg r m with heq | ⟨qc, hacc, heq | ⟨node, hnode, heq⟩⟩ <;> rw [heq]
  · exact ⟨rfl, Voting.of_quiet hout ⟨rfl, rfl, rfl⟩⟩
  · exact ⟨rfl, Voting.of_quiet hout ⟨rfl, rfl, rfl⟩⟩
  · refine ⟨rfl, ?_⟩
    rw [votesOf_sendVote, hout, Tree.hash_of_get hnode]
    exact Voting.preCommit m qc rfl htype hsig hacc

theorem onCommit_voting
    (hout : r.outbox = [])
    (htype : m.type = .commit)
    (hsig : m.partialSig = none) :
    (r.onCommit cfg m).id = r.id ∧
      Voting cfg r.id r.lockedQc (.dispatch m)
        (votesOf (r.onCommit cfg m).outbox) (r.onCommit cfg m).lockedQc := by
  rcases onCommit_cases cfg r m with heq | ⟨qc, node, hacc, hnode, heq⟩ <;> rw [heq]
  · exact ⟨rfl, Voting.of_quiet hout ⟨rfl, rfl, rfl⟩⟩
  · refine ⟨rfl, ?_⟩
    rw [votesOf_sendVote, hout, Tree.hash_of_get hnode]
    exact Voting.commit m qc rfl htype hsig hacc

end Voting

section Step

/-- The votes and the lock after a dispatched message. -/
theorem dispatch_voting
    (cfg : Config) (r : Replica Cmd) (m : Msg Cmd)
    (hout : r.outbox = []) :
    (r.dispatch cfg m).id = r.id ∧
      Voting cfg r.id r.lockedQc (.dispatch m)
        (votesOf (r.dispatch cfg m).outbox) (r.dispatch cfg m).lockedQc := by
  obtain ⟨s, hs, -, hhandled⟩ := dispatch_handled cfg r m
  obtain ⟨hsout, hid, hlock⟩ : s.outbox = [] ∧ s.id = r.id ∧ s.lockedQc = r.lockedQc := by
    rcases hs with rfl | ⟨-, rfl⟩
    · exact ⟨hout, rfl, rfl⟩
    · exact ⟨hout, rfl, rfl⟩
  have hquiet : ∀ r', Quiet s r' →
      r'.id = s.id ∧
        Voting cfg s.id s.lockedQc (.dispatch m) (votesOf r'.outbox) r'.lockedQc :=
    fun r' h => ⟨h.id, Voting.of_quiet hsout h⟩
  rw [← hid, ← hlock]
  generalize r.dispatch cfg m = r' at hhandled ⊢
  cases hhandled with
  | newView => exact hquiet _ (idle_onNewView cfg s m).toQuiet
  | prepareVote => exact hquiet _ (idle_onPrepareVote cfg s m).toQuiet
  | prepare htype hsig => exact onPrepare_voting hsout htype hsig
  | genericVote => exact hquiet _ (idle_onGenericVote cfg s m).toQuiet
  | preCommit htype hsig => exact onPreCommit_voting hsout htype hsig
  | commit htype hsig => exact onCommit_voting hsout htype hsig
  | decide => exact hquiet _ (quiet_onDecide cfg s m)
  | syncReq => exact hquiet _ (idle_onSyncReq s m).toQuiet
  | syncResp => exact hquiet _ (quiet_onSyncResp cfg s m)
  | ignored => exact hquiet _ ⟨rfl, rfl, rfl⟩

/-- **Inversion of a step, voting.**  A step sends at most one vote, and only a
COMMIT vote changes the lock. -/
theorem step_voting
    {r r' : Replica Cmd} {i : Input Cmd}
    (cfg : Config)
    (h : r.step cfg i = some r') :
    r'.id = r.id ∧
      Voting cfg r.id r.lockedQc i (votesOf r'.outbox) r'.lockedQc := by
  have hquiet : ∀ s : Replica Cmd, Quiet s r' → s.outbox = [] → s.id = r.id →
      s.lockedQc = r.lockedQc →
      r'.id = r.id ∧
        Voting cfg r.id r.lockedQc i (votesOf r'.outbox) r'.lockedQc := by
    intro s hq hout hid hlock
    rw [← hid, ← hlock]
    exact ⟨hq.id, Voting.of_quiet hout hq⟩
  cases occurs_of_step h with
  | start => exact hquiet _ (idle_advanceFrom cfg _ _).toQuiet rfl rfl rfl
  | dispatch m => exact dispatch_voting cfg { r with outbox := [], replies := [] } m rfl
  | submit cmd => exact hquiet _ (idle_submit cfg _ cmd).toQuiet rfl rfl rfl
  | timeout view => exact hquiet _ (idle_onTimeout cfg _ view).toQuiet rfl rfl rfl
  | stop => exact hquiet { r with outbox := [] } ⟨rfl, rfl, rfl⟩ rfl rfl rfl

/-- The executed nodes and the deferred messages agree. -/
structure SameRecord (r r' : Replica Cmd) : Prop where
  committed : r'.committed = r.committed
  executed : r'.executed = r.executed
  deferred : r'.deferred = r.deferred

theorem Idle.sameRecord
    {r r' : Replica Cmd}
    (h : Idle r r') :
    SameRecord r r' :=
  ⟨h.committed, h.executed, h.deferred⟩

theorem sameRecord_onPrepare (cfg : Config) (r : Replica Cmd) (m : Msg Cmd) :
    SameRecord r (r.onPrepare cfg m) := by
  rcases onPrepare_cases cfg r m with heq | heq |
    ⟨node, qc, -, -, -, -, heq | heq | ⟨parent, -, -, -, heq⟩⟩ <;>
    rw [heq] <;> exact ⟨rfl, rfl, rfl⟩

theorem sameRecord_onPreCommit (cfg : Config) (r : Replica Cmd) (m : Msg Cmd) :
    SameRecord r (r.onPreCommit cfg m) := by
  rcases onPreCommit_cases cfg r m with heq | ⟨qc, -, heq | ⟨node, -, heq⟩⟩ <;>
    rw [heq] <;> exact ⟨rfl, rfl, rfl⟩

theorem sameRecord_onCommit (cfg : Config) (r : Replica Cmd) (m : Msg Cmd) :
    SameRecord r (r.onCommit cfg m) := by
  rcases onCommit_cases cfg r m with heq | ⟨qc, node, -, -, heq⟩ <;>
    rw [heq] <;> exact ⟨rfl, rfl, rfl⟩

/-- **Inversion of a step, execution.**  Up to the parts of the state that
execution does not read, a step handles a list of DECIDE messages: the
dispatched one, or those that were deferred. -/
structure Decides (cfg : Config) (r : Replica Cmd) (i : Input Cmd)
    (r' s : Replica Cmd) (ms : List (Msg Cmd)) : Prop where
  committed : s.committed = r.committed
  executed : s.executed = r.executed
  deferred : s.deferred ⊆ r.deferred
  handled : ∀ m ∈ ms, m ∈ r.deferred ∨ (i = .dispatch m ∧ m.type = .decide)
  result : SameRecord (ms.foldl (onDecide cfg) s) r'

theorem Decides.of_sameRecord
    {cfg : Config} {r r' s : Replica Cmd} {i : Input Cmd}
    (hrs : SameRecord r s)
    (h : SameRecord s r') :
    Decides cfg r i r' s [] where
  committed := hrs.committed
  executed := hrs.executed
  deferred := by
    rw [hrs.deferred]
    exact List.Subset.refl _
  handled := by simp
  result := h

theorem onSyncResp_decides
    (cfg : Config) (r : Replica Cmd) (m : Msg Cmd) (i : Input Cmd) :
    ∃ s ms, Decides cfg r i (r.onSyncResp cfg m) s ms := by
  rcases onSyncResp_cases cfg r m with heq | ⟨chain, -, heq⟩ <;> rw [heq]
  · exact ⟨r, [], Decides.of_sameRecord ⟨rfl, rfl, rfl⟩ ⟨rfl, rfl, rfl⟩⟩
  · exact ⟨{ r with tree := chain.foldl Tree.add r.tree, deferred := [] }, r.deferred, rfl, rfl,
      List.nil_subset _, fun x hx => Or.inl hx, rfl, rfl, rfl⟩

theorem dispatch_decides (cfg : Config) (r : Replica Cmd) (m : Msg Cmd) :
    ∃ s ms, Decides cfg r (.dispatch m) (r.dispatch cfg m) s ms := by
  obtain ⟨s, hs, -, hhandled⟩ := dispatch_handled cfg r m
  have hsame : SameRecord r s := by
    rcases hs with rfl | ⟨-, rfl⟩
    · exact ⟨rfl, rfl, rfl⟩
    · exact (idle_syncView cfg r _).sameRecord
  have hnothing : ∀ r', SameRecord s r' →
      ∃ s ms, Decides cfg r (.dispatch m) r' s ms :=
    fun r' h => ⟨s, [], Decides.of_sameRecord hsame h⟩
  generalize r.dispatch cfg m = r' at hhandled ⊢
  cases hhandled with
  | newView => exact hnothing _ (idle_onNewView cfg s m).sameRecord
  | prepareVote => exact hnothing _ (idle_onPrepareVote cfg s m).sameRecord
  | prepare => exact hnothing _ (sameRecord_onPrepare cfg s m)
  | genericVote => exact hnothing _ (idle_onGenericVote cfg s m).sameRecord
  | preCommit => exact hnothing _ (sameRecord_onPreCommit cfg s m)
  | commit => exact hnothing _ (sameRecord_onCommit cfg s m)
  | decide htype =>
      refine ⟨s, [m], hsame.committed, hsame.executed, ?_, ?_, rfl, rfl, rfl⟩
      · rw [hsame.deferred]
        exact List.Subset.refl _
      · intro x hx
        rw [List.mem_singleton] at hx
        subst hx
        exact Or.inr ⟨rfl, htype⟩
  | syncReq => exact hnothing _ (idle_onSyncReq s m).sameRecord
  | syncResp =>
      obtain ⟨t, ms, h⟩ := onSyncResp_decides cfg s m (.dispatch m)
      refine ⟨t, ms, h.committed.trans hsame.committed, h.executed.trans hsame.executed,
        ?_, ?_, h.result⟩
      · rw [← hsame.deferred]
        exact h.deferred
      · rw [← hsame.deferred]
        exact h.handled
  | ignored => exact hnothing _ ⟨rfl, rfl, rfl⟩

theorem step_decides
    {cfg : Config} {r r' : Replica Cmd} {i : Input Cmd}
    (h : r.step cfg i = some r') :
    ∃ s ms, Decides cfg r i r' s ms := by
  have hidle : ∀ s : Replica Cmd, Idle s r' → SameRecord r s →
      ∃ s ms, Decides cfg r i r' s ms :=
    fun s hs hrs => ⟨s, [], Decides.of_sameRecord hrs hs.sameRecord⟩
  cases occurs_of_step h with
  | start => exact hidle _ (idle_advanceFrom cfg _ _) ⟨rfl, rfl, rfl⟩
  | dispatch m =>
      obtain ⟨s, ms, hd⟩ :=
        dispatch_decides cfg { r with outbox := [], replies := [] } m
      exact ⟨s, ms, hd.committed, hd.executed, hd.deferred, hd.handled, hd.result⟩
  | submit cmd => exact hidle _ (idle_submit cfg _ cmd) ⟨rfl, rfl, rfl⟩
  | timeout view => exact hidle _ (idle_onTimeout cfg _ view) ⟨rfl, rfl, rfl⟩
  | stop => exact ⟨r, [], Decides.of_sameRecord ⟨rfl, rfl, rfl⟩ ⟨rfl, rfl, rfl⟩⟩

end Step

end Replica
end HotStuff
end DistributedConsensus
