import DistributedConsensus.HotStuff.ChainedLocks

/-!
# Chained HotStuff: agreement among correct replicas

In every run that satisfies `ChainInOrder` the votes form a legal history, so
the nodes committed by three-chains lie on one branch, and the executed nodes of
any two replicas are prefixes of one list.
-/

namespace DistributedConsensus
namespace HotStuff

open Foundations
open Foundations.LockVoting (Vote Legal Admissible Prepared Committed)

section Step

variable {Cmd : Type} [Application Cmd] {cfg : Config}
  {w : World Cmd (ChainedReplica Cmd) cfg.n}

/-- What a replica knows about a proposal that it accepts. -/
structure AcceptedProposal (cfg : Config) (w : World Cmd (ChainedReplica Cmd) cfg.n)
    (i : Fin cfg.n) (v : Int) (b : Node Cmd) (qc : QC) : Prop where
  proposed : Proposed w.sent b
  view : b.viewNumber = v
  leaf : Leaf cfg w.sent b qc
  trusted : Trusted cfg w.sent qc
  nodes : ∀ x ∈ ((w.procs i).tree.add b).nodes, x = genesis ∨ Proposed w.sent x

theorem trafficFacts_of_honest
    {r : ChainedReplica Cmd}
    (h : Honest cfg w.sent r.settled) :
    TrafficFacts cfg w.sent := by
  have hnil : w.sent ++ r.settled.outbox = w.sent := List.append_nil _
  constructor
  · have hshape := h.shape
    rwa [hnil] at hshape
  · have hunique := h.unique
    rwa [hnil] at hunique

theorem acceptedProposal_of_delivered
    (hn : cfg.n = 3 * cfg.f + 1)
    (hvote : ChainedVoteInv cfg w)
    (hhonest : ∀ i, Honest cfg w.sent (w.procs i).settled)
    {i : Fin cfg.n} {m : Msg Cmd} {b : Node Cmd} {qc : QC}
    (hsent : ((i : Int), m) ∈ w.sent)
    (hprop : m.IsProposal)
    (hnode : m.node = some b)
    (hqc : m.justify = some qc)
    (hverify : Replica.verifyJustify cfg (some qc) = true) :
    AcceptedProposal cfg w i m.viewNumber b qc := by
  have htraffic := trafficFacts_of_honest (hhonest i)
  have hproposed : Proposed w.sent b := ⟨_, hsent, hprop, hnode⟩
  obtain ⟨hview, hgood, hleaf⟩ : b.viewNumber = m.viewNumber ∧ GoodQc cfg w.sent qc ∧
      Leaf cfg w.sent b qc := by
    cases htraffic.shape _ hsent with
    | newView qc' htype => cases hprop.1.symm.trans htype
    | vote q _ hq => cases hprop.2.symm.trans hq
    | proposal qc' cmd _ _ _ hqc' hgood hnode' =>
        cases hqc.symm.trans hqc'
        cases hnode.symm.trans hnode'
        obtain ⟨qc'', hleaf⟩ := exists_leaf htraffic.shape hproposed
        cases hleaf.justify
        exact ⟨rfl, hgood, hleaf⟩
  refine ⟨hproposed, hview, hleaf, trusted_of_verifyJustify hn hvote hgood hverify, ?_⟩
  intro x hx
  rcases Tree.mem_nodes_add hx with rfl | hx
  · exact Or.inr hproposed
  · have hstored := (hhonest i).stored
    have hnil : w.sent ++ (w.procs i).settled.outbox = w.sent := List.append_nil _
    rw [hnil] at hstored
    exact hstored.tree x hx

variable {hn : cfg.n = 3 * cfg.f + 1}

omit [Application Cmd] in
theorem Trusted.append
    {sent out : List (Int × Msg Cmd)} {qc : QC}
    (h : Trusted cfg sent qc) :
    Trusted cfg (sent ++ out) qc :=
  h.imp_right Certified.mono

/-- A step that casts no vote and raises no false lock keeps the invariant. -/
theorem ChainInv.of_no_vote
    {a : Fin cfg.n} {p : ChainedReplica Cmd}
    (hinv : ChainInv hn w)
    (hvotes : votesOf p.outbox = [])
    (hlocked : p.lockedNode = genesis ∨
      ChainCertified cfg w.sent p.lockedNode.viewNumber p.lockedNode.hash)
    (hmono : (w.procs a).lockedNode.viewNumber ≤ p.lockedNode.viewNumber) :
    ChainInv hn {
      procs := Function.update w.procs a p
      sent := w.sent ++ p.outbox } := by
  have hsigned : ∀ (i : Fin cfg.n) t v h, Signed (w.sent ++ p.outbox) i t v h →
      Signed w.sent i t v h := by
    intro i t v h hs
    rcases signed_append.mp hs with hs | hs
    · exact hs
    · rw [hvotes] at hs
      cases hs
  have hhist : chainHistory cfg.n (w.sent ++ p.outbox) = chainHistory cfg.n w.sent := by
    rw [chainHistory_append, hvotes]
    rfl
  constructor
  · intro i v h hs
    obtain ⟨b, qc, hprop, hhash, hview, hjustify, htrust⟩ :=
      hinv.backed i v h (hsigned i _ v h hs)
    exact ⟨b, qc, hprop.append, hhash, hview, hjustify, htrust.append⟩
  · exact fun i v h hs => hinv.rooted i v h (hsigned i _ v h hs)
  · refine (Function.forall_update_iff w.procs fun _ (q : ChainedReplica Cmd) =>
      q.lockedNode = genesis ∨ ChainCertified cfg (w.sent ++ p.outbox)
        q.lockedNode.viewNumber q.lockedNode.hash).mpr ⟨?_, fun i _ => ?_⟩
    · exact hlocked.imp_right Certified.mono
    · exact (hinv.locked i).imp_right Certified.mono
  · refine (Function.forall_update_iff w.procs fun i (q : ChainedReplica Cmd) => ∀ v x,
      Vote.commit i v x ∈ chainHistory cfg.n (w.sent ++ p.outbox) →
        1 ≤ v ∧ v ≤ q.lockedNode.viewNumber).mpr ⟨?_, ?_⟩
    · intro v x hx
      rw [hhist] at hx
      obtain ⟨hpos, hle⟩ := hinv.covers a v x hx
      exact ⟨hpos, hle.trans hmono⟩
    · intro i _ v x hx
      rw [hhist] at hx
      exact hinv.covers i v x hx
  · change Legal _ _ (chainHistory cfg.n (w.sent ++ p.outbox))
    rw [hhist]
    exact hinv.legal

/-- The lock after an accepted proposal is certified. -/
theorem ChainInv.lockOn_certified
    (hinv : ChainInv hn w)
    (htraffic : TrafficFacts cfg w.sent)
    {i : Fin cfg.n} {v : Int} {b : Node Cmd} {qc : QC}
    (hacc : AcceptedProposal cfg w i v b qc) :
    ChainedReplica.lockOn (w.procs i).lockedNode
        (ChainedReplica.twoChain ((w.procs i).tree.add b) b) = genesis ∨
      ChainCertified cfg w.sent
        (ChainedReplica.lockOn (w.procs i).lockedNode
          (ChainedReplica.twoChain ((w.procs i).tree.add b) b)).viewNumber
        (ChainedReplica.lockOn (w.procs i).lockedNode
          (ChainedReplica.twoChain ((w.procs i).tree.add b) b)).hash := by
  cases htwo : ChainedReplica.twoChain ((w.procs i).tree.add b) b with
  | none => exact hinv.locked i
  | some b1 =>
      simp only [ChainedReplica.lockOn]
      split
      case isTrue =>
        exact hinv.twoChain_certified htraffic hacc.nodes hacc.leaf hacc.trusted htwo
      case isFalse => exact hinv.locked i

/-- A vote in order keeps the invariant. -/
theorem ChainInv.of_vote
    {a : Fin cfg.n} {p : ChainedReplica Cmd} {v : Int} {b : Node Cmd} {qc : QC}
    (hvote : ChainedVoteInv cfg w)
    (hinv : ChainInv hn w)
    (htraffic : TrafficFacts cfg w.sent)
    (hacc : AcceptedProposal cfg w a v b qc)
    (hcast : ChainedReplica.Votes (w.procs a) v b qc)
    (horder : ∀ x ∈ (w.procs a).voted, x ≤ v)
    (hstored : TwoChainStored ((w.procs a).tree.add b) b)
    (hvotes : votesOf p.outbox = [.signed a .generic v b.hash])
    (hlock : p.lockedNode = ChainedReplica.lockOn (w.procs a).lockedNode
      (ChainedReplica.twoChain ((w.procs a).tree.add b) b)) :
    ChainInv hn {
      procs := Function.update w.procs a p
      sent := w.sent ++ p.outbox } := by
  have hfresh : ∀ (i : Fin cfg.n) t u h, Signed (w.sent ++ p.outbox) i t u h →
      Signed w.sent i t u h ∨ i = a ∧ t = .generic ∧ u = v ∧ h = b.hash := by
    intro i t u h hs
    rcases signed_append.mp hs with hs | hs
    · exact Or.inl hs
    · rw [hvotes] at hs
      simp only [List.mem_singleton, Sig.signed.injEq, Fin.val_inj] at hs
      exact Or.inr hs
  have hhist : chainHistory cfg.n (w.sent ++ p.outbox) =
      (chainStart b.hash).toList.map (fun q => Vote.commit a q.1 q.2) ++
        Vote.prepare a v b.hash :: chainHistory cfg.n w.sent := by
    rw [chainHistory_append, hvotes]
    simp [Sig.toChainVotes]
  have hview := hacc.view
  have hmono : (w.procs a).lockedNode.viewNumber ≤ p.lockedNode.viewNumber := by
    rw [hlock]
    exact viewNumber_le_lockOn _ _
  constructor
  · intro i u h hs
    rcases hfresh i _ u h hs with hs | ⟨_, _, rfl, rfl⟩
    · obtain ⟨b', qc', hprop, hhash, hview', hjustify, htrust⟩ := hinv.backed i u h hs
      exact ⟨b', qc', hprop.append, hhash, hview', hjustify, htrust.append⟩
    · exact ⟨b, qc, hacc.proposed.append, rfl, hview, hacc.leaf.justify,
        hacc.trusted.append⟩
  · intro i u h hs
    rcases hfresh i _ u h hs with hs | ⟨_, _, _, rfl⟩
    · exact hinv.rooted i u h hs
    · rw [Node.hash, hacc.leaf.parentHash]
      exact Digest.extends_node_iff.mpr (Or.inr (hinv.rooted_of_trusted hacc.trusted))
  · refine (Function.forall_update_iff w.procs fun _ (q : ChainedReplica Cmd) =>
      q.lockedNode = genesis ∨ ChainCertified cfg (w.sent ++ p.outbox)
        q.lockedNode.viewNumber q.lockedNode.hash).mpr ⟨?_, fun i _ => ?_⟩
    · rw [hlock]
      exact (hinv.lockOn_certified htraffic hacc).imp_right Certified.mono
    · exact (hinv.locked i).imp_right Certified.mono
  · refine (Function.forall_update_iff w.procs fun i (q : ChainedReplica Cmd) => ∀ u x,
      Vote.commit i u x ∈ chainHistory cfg.n (w.sent ++ p.outbox) →
        1 ≤ u ∧ u ≤ q.lockedNode.viewNumber).mpr ⟨?_, ?_⟩
    · intro u x hx
      rw [commit_mem_chainHistory] at hx
      obtain ⟨u', h, hs, hstart⟩ := hx
      rcases hfresh a _ u' h hs with hs | ⟨_, _, rfl, rfl⟩
      · obtain ⟨hpos, hle⟩ :=
          hinv.covers a u x (commit_mem_chainHistory.mpr ⟨u', h, hs, hstart⟩)
        exact ⟨hpos, hle.trans hmono⟩
      · rw [hlock]
        exact ⟨(hinv.chainStart_certified htraffic hacc.leaf hacc.trusted hstart).1,
          le_lockOn_of_twoChainStored htraffic hacc.nodes hacc.leaf hstart hstored⟩
    · intro i hi u x hx
      rw [commit_mem_chainHistory] at hx
      obtain ⟨u', h, hs, hstart⟩ := hx
      rcases hfresh i _ u' h hs with hs | ⟨heq, _⟩
      · exact hinv.covers i u x (commit_mem_chainHistory.mpr ⟨u', h, hs, hstart⟩)
      · exact absurd heq hi
  · change Legal _ _ (chainHistory cfg.n (w.sent ++ p.outbox))
    rw [hhist]
    have hprepare := Legal.cons
      (hinv.admissible_prepare hvote hacc.leaf hacc.trusted hcast) hinv.legal
    cases hstart : chainStart b.hash with
    | none => exact hprepare
    | some q =>
        subst hview
        exact Legal.cons (hinv.admissible_commit hvote htraffic hacc.leaf hacc.trusted
          hstart hcast.1 horder) hprepare

variable [DecidableEq Cmd] {sm : Nat → Option (Application.State Cmd)}

omit [DecidableEq Cmd] in
/-- What an accepted proposal means for the rest of the proof. -/
theorem acceptedProposal_of_step
    {a : Fin cfg.n × Input Cmd} {m : Msg Cmd} {b : Node Cmd} {qc : QC}
    (hn : cfg.n = 3 * cfg.f + 1)
    (hvote : ChainedVoteInv cfg w)
    (hhonest : ∀ i, Honest cfg w.sent (w.procs i).settled)
    (hok : ChainInOrder cfg w a)
    (hd : Deliverable ∅ w.sent a.1 a.2)
    (hi : a.2 = .dispatch m)
    (hprop : m.IsProposal)
    (hsender : m.sender = cfg.leader m.viewNumber)
    (hnode : m.node = some b)
    (hqc : m.justify = some qc)
    (hverify : Replica.verifyJustify cfg (some qc) = true) :
    AcceptedProposal cfg w a.1 m.viewNumber b qc ∧
      ProposalInOrder (w.procs a.1) m.viewNumber b qc := by
  rw [hi] at hd
  rcases hd with hsent | ⟨hne, _⟩
  · refine ⟨acceptedProposal_of_delivered hn hvote hhonest hsent hprop hnode hqc hverify, ?_⟩
    simp only [ChainInOrder, hi, hnode, hqc] at hok
    exact hok hprop.1 hprop.2 hsender hverify
  · exact absurd rfl hne

/-- **One step keeps the chain invariant.** -/
theorem ChainInv.step
    {w' : World Cmd (ChainedReplica Cmd) cfg.n} {a : Fin cfg.n × Input Cmd}
    (hvote : ChainedVoteInv cfg w)
    (hhonest : ∀ i, Honest cfg w.sent (w.procs i).settled)
    (hinv : ChainInv hn w)
    (hok : ChainInOrder cfg w a)
    (hstep : (cluster (chained cfg sm) cfg.n ∅).step w a = some w') :
    ChainInv hn w' := by
  change worldStep (chained cfg sm) ∅ w a = some w' at hstep
  obtain ⟨_, hd, p, hp, rfl⟩ := worldStep_cases hstep
  have htraffic := trafficFacts_of_honest (hhonest a.1)
  rcases ChainedReplica.step_cases cfg hp with
    hquiet | ⟨m, b, qc, hi, htype, hsig, hsender, hnode, hqc, hverify, hh⟩
  · refine hinv.of_no_vote hquiet.votes ?_ ?_
    · rw [hquiet.lockedNode]
      exact hinv.locked a.1
    · rw [hquiet.lockedNode]
  · obtain ⟨hacc, horder, _⟩ := acceptedProposal_of_step hn hvote hhonest hok hd hi
      ⟨htype, hsig⟩ hsender hnode hqc hverify
    have hvotes := hh.votes
    split at hvotes
    case isTrue hcast =>
      obtain ⟨hviews, hstored⟩ := horder hcast
      refine hinv.of_vote hvote htraffic hacc hcast hviews hstored ?_ hh.lockedNode
      rw [hvotes]
      have hid : (w.procs a.1).id = a.1 := hvote.ids a.1
      simp [hid]
    case isFalse =>
      refine hinv.of_no_vote (by simpa using hvotes) ?_ ?_
      · rw [hh.lockedNode]
        exact hinv.lockOn_certified htraffic hacc
      · rw [hh.lockedNode]
        exact viewNumber_le_lockOn _ _

theorem chainInv_of_reachable
    (hn : cfg.n = 3 * cfg.f + 1)
    (hw : System.Reachable (cluster (chained cfg sm) cfg.n ∅) (ChainInOrder cfg) w) :
    ChainInv hn w := by
  refine System.Reachable.invariant ?_ ?_ hw
  · refine ⟨by simp [cluster, Signed], by simp [cluster, Signed], fun _ => Or.inl rfl, ?_,
      Legal.nil⟩
    intro i v x hx
    cases hx
  · intro w a w' hreach hinv hok hstep
    exact hinv.step (chainedVoteInv_of_reachable hreach) (honest_of_reachable hn hreach)
      hok hstep

end Step

section Execution

variable {Cmd : Type} [Application Cmd] {cfg : Config} [DecidableEq Cmd]
  {sm : Nat → Option (Application.State Cmd)}
  {w : World Cmd (ChainedReplica Cmd) cfg.n}

/-- The genesis block, or a node that a quorum has locked. -/
def ChainCommitted (hn : cfg.n = 3 * cfg.f + 1) (sent : List (Int × Msg Cmd))
    (h : Digest) : Prop :=
  h = genesisHash ∨ ∃ v, Committed (votingGroup hn (no_faults cfg))
    (chainHistory cfg.n sent) v h

omit [Application Cmd] [DecidableEq Cmd] in
theorem ChainCommitted.append
    {hn : cfg.n = 3 * cfg.f + 1} {sent out : List (Int × Msg Cmd)} {h : Digest}
    (hc : ChainCommitted hn sent h) :
    ChainCommitted hn (sent ++ out) h := by
  rcases hc with heq | ⟨v, Q, hQ, hvotes⟩
  · exact Or.inl heq
  · refine Or.inr ⟨v, Q, hQ, fun i hi hb => ?_⟩
    rw [chainHistory_append]
    exact List.mem_append_right _ (hvotes i hi hb)

omit [DecidableEq Cmd] in
/-- Committed nodes descend from the genesis block. -/
theorem ChainInv.rooted_of_committed
    {hn : cfg.n = 3 * cfg.f + 1}
    (hinv : ChainInv hn w)
    {h : Digest}
    (hc : ChainCommitted hn w.sent h) :
    h.Rooted := by
  rcases hc with rfl | ⟨v, hc⟩
  · exact Digest.Extends.refl _
  · have hprep := (prepared_iff_chainCertified hn).mp (hinv.legal.prepared_of_committed hc)
    obtain ⟨i, _, hs⟩ := hprep.exists_signed (card_lt_quorum hn (no_faults cfg))
    exact hinv.rooted i v h hs

omit [DecidableEq Cmd] in
/-- Committed nodes lie on one branch. -/
theorem ChainInv.committed_comparable
    {hn : cfg.n = 3 * cfg.f + 1}
    (hinv : ChainInv hn w)
    {h h' : Digest}
    (hc : ChainCommitted hn w.sent h)
    (hc' : ChainCommitted hn w.sent h') :
    h.Extends h' ∨ h'.Extends h := by
  have hroot := hinv.rooted_of_committed hc
  have hroot' := hinv.rooted_of_committed hc'
  rcases hc with rfl | ⟨v, hc⟩
  · exact Or.inr hroot'
  · rcases hc' with rfl | ⟨v', hc'⟩
    · exact Or.inl hroot
    · exact (hinv.legal.committed_comparable hc hc').symm

/-- Every replica has executed the branch of a committed node. -/
theorem branchTo_of_reachable
    (hn : cfg.n = 3 * cfg.f + 1)
    (hw : System.Reachable (cluster (chained cfg sm) cfg.n ∅) (ChainInOrder cfg) w) :
    ∀ i, ∃ tip, ChainCommitted hn w.sent tip ∧
      BranchTo (w.procs i).committed (w.procs i).executed tip := by
  refine System.Reachable.invariant (I := fun w => ∀ i, ∃ tip,
    ChainCommitted hn w.sent tip ∧
      BranchTo (w.procs i).committed (w.procs i).executed tip) ?_ ?_ hw
  · exact fun i => ⟨genesisHash, Or.inl rfl, branchTo_genesis⟩
  · intro w a w' hreach hinv hok hstep
    have hvote := chainedVoteInv_of_reachable hreach
    have hhonest := honest_of_reachable hn hreach
    have hchain := chainInv_of_reachable hn hreach
    have htraffic := trafficFacts_of_honest (hhonest a.1)
    change worldStep (chained cfg sm) ∅ w a = some w' at hstep
    obtain ⟨_, hd, p, hp, rfl⟩ := worldStep_cases hstep
    have hself : ∃ tip, ChainCommitted hn w.sent tip ∧
        BranchTo p.committed p.executed tip := by
      obtain ⟨tip, htip, hbranch⟩ := hinv a.1
      rcases ChainedReplica.step_cases cfg hp with
        hquiet | ⟨m, b, qc, hi, htype, hsig, hsender, hnode, hqc, hverify, hh⟩
      · refine ⟨tip, htip, ?_⟩
        rw [hquiet.committed, hquiet.executed]
        exact hbranch
      · obtain ⟨hacc, _, hstored⟩ := acceptedProposal_of_step hn hvote hhonest hok hd hi
          ⟨htype, hsig⟩ hsender hnode hqc hverify
        have hcommitted := hh.committed
        have hexecuted := hh.executed
        unfold ChainedReplica.newlyCommitted at hcommitted hexecuted
        unfold ThreeChainStored at hstored
        cases hthree : ChainedReplica.threeChain ((w.procs a.1).tree.add b) b with
        | none =>
            simp only [hthree, List.append_nil, List.map_nil, List.not_mem_nil,
              or_false] at hcommitted hexecuted
            refine ⟨tip, htip, ?_, ?_⟩
            · rw [hcommitted]
              exact hbranch.committed
            · intro x
              rw [hexecuted]
              exact hbranch.executed x
        | some b0 =>
            simp only [hthree] at hcommitted hexecuted hstored
            obtain ⟨hroot, hhas, hb0⟩ := hchain.threeChain_committed htraffic hacc.nodes
              hacc.leaf hacc.trusted hthree
            have hcom : ChainCommitted hn w.sent b0.hash := by
              rcases hb0 with rfl | hc
              · exact Or.inl rfl
              · exact Or.inr ⟨_, hc⟩
            obtain ⟨tip', htip', hbranch'⟩ := hbranch.extend (fun _ => rfl)
              (hchain.rooted_of_committed htip) hroot
              (hchain.committed_comparable hcom htip) hhas hstored hcommitted hexecuted
            refine ⟨tip', ?_, hbranch'⟩
            rcases htip' with rfl | rfl
            · exact htip
            · exact hcom
    refine (Function.forall_update_iff w.procs fun _ (q : ChainedReplica Cmd) => ∃ tip,
      ChainCommitted hn (w.sent ++ p.outbox) tip ∧
        BranchTo q.committed q.executed tip).mpr ⟨?_, ?_⟩
    · obtain ⟨tip, htip, hbranch⟩ := hself
      exact ⟨tip, htip.append, hbranch⟩
    · intro i _
      obtain ⟨tip, htip, hbranch⟩ := hinv i
      exact ⟨tip, htip.append, hbranch⟩

/-- **Agreement of Chained HotStuff.**  In runs of correct replicas in order,
the executed nodes of two replicas are prefix-consistent. -/
theorem chained_committed_prefix_consistent
    (hn : cfg.n = 3 * cfg.f + 1)
    (hw : System.Reachable (cluster (chained cfg sm) cfg.n ∅) (ChainInOrder cfg) w)
    (i j : Fin cfg.n) :
    (w.procs i).committed.map Node.hash <+: (w.procs j).committed.map Node.hash ∨
      (w.procs j).committed.map Node.hash <+: (w.procs i).committed.map Node.hash := by
  have hinv := chainInv_of_reachable hn hw
  obtain ⟨tip, htip, hbranch⟩ := branchTo_of_reachable hn hw i
  obtain ⟨tip', htip', hbranch'⟩ := branchTo_of_reachable hn hw j
  rw [hbranch.committed, hbranch'.committed]
  rcases hinv.committed_comparable htip htip' with hext | hext
  · exact Or.inr (Digest.path_prefix_of_extends hext)
  · exact Or.inl (Digest.path_prefix_of_extends hext)

end Execution

section Runs

/-- Four correct replicas with leader 0. -/
def correctFour :
    System (World String (ChainedReplica String) fourReplicas.n)
      (Fin fourReplicas.n × Input String) :=
  cluster (chained fourReplicas fun _ => none) fourReplicas.n ∅

/-- The certificate that replicas 0, 1 and 2 form for a node. -/
def chainQc (b : Node String) : QC where
  type := .generic
  viewNumber := b.viewNumber
  nodeHash := b.hash
  sigs := [0, 1, 2].map fun (k : Nat) =>
    ((k : Int), signVote k .generic b.viewNumber b.hash)

/-- The certificate for the node of view `k`, and the node proposed on it. -/
def chainLink : Nat → QC × Node String
  | 0 => (genesisQc, ChainedReplica.leafOf genesisQc "a" 1)
  | k + 1 =>
      let qc := chainQc (chainLink k).2
      (qc, ChainedReplica.leafOf qc (["b", "c", "d", "e"].getD k "") (k + 2))

/-- The proposal of view `k + 1`. -/
def chainProposal (k : Nat) : Msg String :=
  (ChainedReplica.new 0 none).proposalMsg (k + 1) (chainLink k).2 (chainLink k).1

/-- The vote of replica `i` in view `k + 1`. -/
def chainVote (i k : Nat) : Msg String :=
  (ChainedReplica.new i none).voteMsg (k + 1) (chainLink k).2

/-- Replicas 0, 1 and 2 vote in view `k + 1` and the leader counts the votes. -/
def chainRound (k : Nat) : List (Fin fourReplicas.n × Input String) :=
  [deliver 0 (chainProposal k), deliver 1 (chainProposal k), deliver 2 (chainProposal k),
    deliver 0 (chainVote 0 k), deliver 0 (chainVote 1 k), deliver 0 (chainVote 2 k)]

/-- All replicas start, and the leader has five commands to propose. -/
def chainSetup : List (Fin fourReplicas.n × Input String) :=
  [startOf 0, startOf 1, startOf 2, startOf 3] ++
    ["a", "b", "c", "d", "e"].map (submitOf 0)

/-- Two replicas commit the first node. -/
theorem chained_committed_prefix_consistent_decided :
    ∃ w, System.Reachable correctFour (ChainInOrder fourReplicas) w ∧
      ((w.procs (0 : Fin 4)).committed = [(chainLink 0).2] ∧
        (w.procs (1 : Fin 4)).committed = [(chainLink 0).2]) ∧
      ((w.procs (0 : Fin 4)).committed.map Node.hash <+:
          (w.procs (1 : Fin 4)).committed.map Node.hash ∨
        (w.procs (1 : Fin 4)).committed.map Node.hash <+:
          (w.procs (0 : Fin 4)).committed.map Node.hash) := by
  have hrun : ∃ w, System.Reachable correctFour (ChainInOrder fourReplicas) w ∧
      ((w.procs (0 : Fin 4)).committed = [(chainLink 0).2] ∧
        (w.procs (1 : Fin 4)).committed = [(chainLink 0).2]) := by
    refine System.exists_reaches_of_exec (chainSetup ++ chainRound 0 ++ chainRound 1 ++
      chainRound 2 ++ [deliver 0 (chainProposal 3), deliver 1 (chainProposal 3)]) ?_
    decide +kernel
  obtain ⟨w, hw, hcommitted⟩ := hrun
  have hn : fourReplicas.n = 3 * fourReplicas.f + 1 := rfl
  exact ⟨w, hw, hcommitted, chained_committed_prefix_consistent hn hw _ _⟩

/-- **A hole.**  Replica 3 misses the first node; when the three-chain commits
the second one, it executes that node alone. -/
theorem exists_committed_hole :
    ∃ w, System.Reachable correctFour System.anyStep w ∧
      ¬ ((w.procs (0 : Fin 4)).committed.map Node.hash <+:
          (w.procs (3 : Fin 4)).committed.map Node.hash ∨
        (w.procs (3 : Fin 4)).committed.map Node.hash <+:
          (w.procs (0 : Fin 4)).committed.map Node.hash) := by
  refine System.exists_reaches_of_exec (chainSetup ++ chainRound 0 ++ chainRound 1 ++
    chainRound 2 ++ chainRound 3 ++ [deliver 3 (chainProposal 1),
      deliver 3 (chainProposal 2), deliver 3 (chainProposal 3),
      deliver 3 (chainProposal 4)]) ?_
  decide +kernel

end Runs

end HotStuff
end DistributedConsensus
