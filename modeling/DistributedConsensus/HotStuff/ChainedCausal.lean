import DistributedConsensus.HotStuff.ChainedCommands

/-!
# Chained HotStuff: leaders that have received the branch

The cache of a node is the cache of its parent and the command of the node.  So if every
proposal is handled after that of its parent, every cache is complete; and if a
certificate is used only after the proposal of its node has been handled, a leader knows
the branch that it extends (`causal_unrepeated`).
-/

namespace DistributedConsensus
namespace HotStuff

open Foundations

variable {Cmd : Type} [Application Cmd]

namespace ChainedReplica

/-- The commands cached for a node include those of its branch. -/
def Cached (r : ChainedReplica Cmd) : Prop :=
  ∀ h cached, r.branchCmds.get? h = some cached → ∀ k, h.Carries k → k ∈ cached

/-- A proposal is handled after that of its parent, and a certificate is used after the
proposal of its node was handled. -/
structure Causal (cfg : Config) (r : ChainedReplica Cmd) (i : Input Cmd) : Prop where
  handled : ∀ m b, i = .dispatch m → m.IsProposal → m.sender = cfg.leader m.viewNumber →
    Replica.verifyJustify cfg m.justify = true → m.node = some b →
    r.branchCmds.contains b.parentHash = true
  extended : ∀ view qc, proposeCall cfg r i = some (view, qc) → view ∉ r.proposed →
    cfg.isLeader view r.id = true → r.branchCmds.contains qc.nodeHash = true

/-- A leader with complete caches knows the branch of a cached node. -/
theorem Cached.knowsBranch
    {cfg : Config} {r : ChainedReplica Cmd} {i : Input Cmd}
    (h : Cached r)
    (hi : Causal cfg r i) :
    KnowsBranch cfg r i := by
  unfold KnowsBranch
  split
  case h_1 => trivial
  case h_2 view qc hcall =>
    intro hfresh hleader cmd _ hcarries
    obtain ⟨cached, hget⟩ := Option.isSome_iff_exists.mp (hi.extended view qc hcall hfresh hleader)
    right
    rw [Dict.getD, hget]
    exact h _ cached hget _ hcarries

theorem cached_new (id : Nat) (sm : Option (Application.State Cmd)) :
    Cached (new id sm : ChainedReplica Cmd) := by
  intro h cached hget k hk
  simp only [new, Dict.get?_set] at hget
  split at hget
  case isTrue heq =>
    rw [heq] at hk
    exact absurd hk (Digest.not_carries_genesisHash k)
  case isFalse => cases hget

namespace Cached

variable {cfg : Config} {r r' : ChainedReplica Cmd} {m : Msg Cmd}

theorem of_eq
    (h : Cached r)
    (heq : r'.branchCmds = r.branchCmds) :
    Cached r' := by
  unfold Cached
  rw [heq]
  exact h

/-- The cache of a node whose parent is cached is complete. -/
theorem registerBranch
    {node : Node Cmd}
    (h : Cached r)
    (hparent : r.branchCmds.contains node.parentHash = true) :
    Cached (r.registerBranch node) := by
  obtain ⟨base, hbase⟩ := Option.isSome_iff_exists.mp hparent
  intro x cached hget k hk
  simp only [ChainedReplica.registerBranch, hbase, Dict.get?_set] at hget
  split at hget
  case isFalse => exact h x cached hget k hk
  case isTrue heq =>
    cases hget
    rw [heq, Node.hash, Digest.carries_node_iff] at hk
    rcases hk with hown | hbelow
    · refine List.mem_append_left _ ?_
      obtain ⟨cmd, hcmd, rfl⟩ := Option.map_eq_some_iff.mp hown
      rw [hcmd]
      exact List.mem_singleton_self _
    · exact List.mem_append_right _ (h _ base hbase k hbelow)

theorem tryPropose
    {view : Int} {qc : QC}
    (h : Cached r)
    (hqc : view ∉ r.proposed → cfg.isLeader view r.id = true →
      r.branchCmds.contains qc.nodeHash = true) :
    Cached (r.tryPropose cfg view qc) := by
  obtain ⟨pending, keys, heq | ⟨cmd, hmay, heq⟩⟩ := r.tryPropose_cases cfg view qc
  · rw [heq]
    exact h.of_eq rfl
  · have hadded : Cached { r with
        pending := pending
        pendingKeys := keys
        tree := r.tree.add (leafOf qc cmd view) } := h.of_eq rfl
    rw [heq]
    exact (hadded.registerBranch (hqc hmay.fresh hmay.leader)).of_eq rfl

theorem advanceFrom
    (h : Cached r)
    (view : Int) :
    Cached (r.advanceFrom cfg view) := by
  unfold ChainedReplica.advanceFrom
  split
  case isTrue => exact h
  case isFalse => exact h.of_eq rfl

theorem update
    (h : Cached r)
    (bStar : Node Cmd) :
    Cached (r.update bStar) := by
  rcases r.update_cases bStar with ⟨-, heq | heq⟩ | ⟨qc, -, heq⟩
  · rw [heq]
    exact h
  · rw [heq]
    exact h.of_eq rfl
  · obtain ⟨sm, committed, executed, keys, replies, hexec⟩ := foldl_executeNode_cases { r with
      genericQc := if r.genericQc.viewNumber < qc.viewNumber then qc else r.genericQc
      lockedNode := lockOn r.lockedNode (twoChain r.tree bStar) }
      (newlyCommitted r.tree r.unexecuted bStar)
    rw [heq, hexec]
    exact h.of_eq rfl

theorem onGeneric
    (h : Cached r)
    (hparent : ∀ b, m.sender = cfg.leader m.viewNumber →
      Replica.verifyJustify cfg m.justify = true → m.node = some b →
      r.branchCmds.contains b.parentHash = true) :
    Cached (r.onGeneric cfg m) := by
  rcases r.onGeneric_cases cfg m with heq | heq | ⟨bStar, qc, haccepts, heq⟩
  · rw [heq]
    exact h
  · rw [heq]
    exact h.of_eq rfl
  · have hadded : Cached { r with tree := r.tree.add bStar } := h.of_eq rfl
    have hregistered := hadded.registerBranch
      (hparent bStar haccepts.sender (by rw [haccepts.justify]; exact haccepts.verified)
        haccepts.node)
    rw [heq, vote_spec]
    refine update ?_ bStar
    exact hregistered.of_eq rfl

theorem submit
    {cmd : Cmd}
    (h : Cached r)
    (hcall : ∀ view qc, proposeCall cfg r (.submit cmd) = some (view, qc) →
      view ∉ r.proposed → cfg.isLeader view r.id = true →
      r.branchCmds.contains qc.nodeHash = true) :
    Cached (r.submit cfg cmd) := by
  unfold ChainedReplica.submit
  split
  case isTrue => exact h
  case isFalse hnew =>
    refine tryPropose ?_ (hcall r.view r.genericQc (by rw [proposeCall, if_neg hnew]))
    exact h.of_eq rfl

theorem onNewView
    (h : Cached r)
    (hcall : ∀ view qc, newViewCall cfg r m = some (view, qc) →
      view ∉ r.proposed → cfg.isLeader view r.id = true →
      r.branchCmds.contains qc.nodeHash = true) :
    Cached (r.onNewView cfg m) := by
  rcases r.onNewView_cases cfg m with
    heq | ⟨-, -, s, rfl, heq | heq | ⟨high, hhigh, -, heq⟩⟩
  · rw [heq]
    exact h
  · rw [heq]
    exact h.of_eq rfl
  · rw [heq]
    exact h.of_eq rfl
  · rw [heq]
    refine tryPropose ?_ (hcall _ high hhigh)
    exact h.of_eq rfl

theorem onGenericVote
    {rid : Int} {sig : Sig}
    (h : Cached r)
    (hcall : ∀ view qc, voteCall cfg r m rid sig = some (view, qc) →
      view ∉ r.proposed → cfg.isLeader view r.id = true →
      r.branchCmds.contains qc.nodeHash = true) :
    Cached (r.onGenericVote cfg m rid sig) := by
  rcases r.onGenericVote_cases cfg m rid sig with
    heq | heq | ⟨node, formed, qcs, s, -, rfl, heq | heq | ⟨qc, hqc, -, -, heq⟩⟩
  · rw [heq]
    exact h
  · rw [heq]
    exact h.of_eq rfl
  · rw [heq]
    exact h.of_eq rfl
  · rw [heq]
    exact h.of_eq rfl
  · rw [heq]
    refine tryPropose ?_ (hcall _ qc hqc)
    exact h.of_eq rfl

/-- **One step in causal order keeps the caches complete.** -/
theorem step
    {i : Input Cmd}
    (h : Cached r)
    (hi : Causal cfg r i)
    (hstep : r.step cfg i = some r') :
    Cached r' := by
  have hclear : Cached { r with outbox := [], replies := [] } := h.of_eq rfl
  cases occurs_of_step hstep with
  | start =>
      refine advanceFrom ?_ 0
      exact h.of_eq rfl
  | newView m htype =>
      refine hclear.onNewView fun view qc hcall => hi.extended view qc ?_
      simp only [proposeCall, htype]
      exact hcall
  | genericVote m rid sig htype hsig =>
      refine hclear.onGenericVote fun view qc hcall => hi.extended view qc ?_
      simp only [proposeCall, htype, hsig]
      exact hcall
  | generic m htype hsig => exact hclear.onGeneric fun b => hi.handled m b rfl ⟨htype, hsig⟩
  | ignored m => exact hclear
  | submit cmd => exact hclear.submit hi.extended
  | timeout view =>
      unfold ChainedReplica.onTimeout
      split
      case isTrue => exact h.of_eq rfl
      case isFalse =>
        refine advanceFrom ?_ view
        exact h.of_eq rfl
  | stop => exact h.of_eq rfl

end Cached

end ChainedReplica

section Runs

variable [DecidableEq Cmd] {cfg : Config} {sm : Nat → Option (Application.State Cmd)}
  {w : World Cmd (ChainedReplica Cmd) cfg.n}

/-- The acting replica has received what it extends, parents first. -/
def InCausalOrder (cfg : Config) (w : World Cmd (ChainedReplica Cmd) cfg.n)
    (a : Fin cfg.n × Input Cmd) : Prop :=
  (w.procs a.1).Causal cfg a.2

/-- In causal order the caches are complete, and the leaders know their branches. -/
theorem cached_of_reachable
    (hw : System.Reachable (cluster (chained cfg sm) cfg.n ∅) (InCausalOrder cfg) w) :
    (∀ i, (w.procs i).Cached) ∧
      System.Reachable (cluster (chained cfg sm) cfg.n ∅) (LeaderKnowsBranch cfg) w := by
  unfold System.Reachable at hw
  induction hw with
  | refl => exact ⟨fun i => ChainedReplica.cached_new i (sm i), System.Reaches.refl _⟩
  | @tail v w' a _ hcausal hstep ih =>
      obtain ⟨hcached, hreach⟩ := ih
      refine ⟨?_, hreach.tail ((hcached a.1).knowsBranch hcausal) hstep⟩
      have hworld : worldStep (chained cfg sm) ∅ v a = some w' := hstep
      obtain ⟨-, -, p, hp, rfl⟩ := worldStep_cases hworld
      exact (Function.forall_update_iff v.procs fun _ (q : ChainedReplica Cmd) =>
        q.Cached).mpr ⟨(hcached a.1).step hcausal hp, fun i _ => hcached i⟩

/-- The input is not a generic message. -/
def notGeneric : Input Cmd → Bool
  | .dispatch m => decide (m.type ≠ .generic)
  | _ => true

end Runs

end HotStuff
end DistributedConsensus
