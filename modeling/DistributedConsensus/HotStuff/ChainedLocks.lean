import DistributedConsensus.HotStuff.ChainedHonest
import DistributedConsensus.Foundations.LockVoting

/-!
# Chained HotStuff: votes as locks

One GENERIC vote plays two parts.  It is a prepare vote for the voted node, and,
if the node ends a chain of three consecutive views, it is a commit vote for the
first node of that chain, on which the voter locks in the same step.  This
module turns the votes of correct replicas into a history of
`Foundations.LockVoting` and shows that a vote is admissible in runs that
satisfy `ChainInOrder`.

`ChainInOrder` rules out what the handlers do not check: a vote in a view below
one the replica has voted in, a vote for a node whose two-chain is not stored, a
commit whose branch has a missing ancestor, and a proposal in view 0.
-/

namespace DistributedConsensus
namespace HotStuff

open Foundations
open Foundations.LockVoting (Vote Legal Admissible Prepared Committed)

section History

variable {Cmd : Type} {n : Nat}

/-- The first node of the chain of three consecutive views that ends at a hash,
with its view. -/
def chainStart : Digest → Option (Int × Digest)
  | .node (.node (.node p c v) _ v1) _ v2 =>
      if v1 = v + 1 ∧ v2 = v1 + 1 ∧ (.node p c v : Digest) ≠ genesisHash then
        some (v, .node p c v)
      else none
  | _ => none

/-- The votes behind a GENERIC signature, newest first. -/
def Sig.toChainVotes (n : Nat) : Sig → List (Vote (Fin n) Digest)
  | .signed k .generic v h =>
      if hk : k < n then
        (chainStart h).toList.map (fun p => Vote.commit ⟨k, hk⟩ p.1 p.2) ++
          [Vote.prepare ⟨k, hk⟩ v h]
      else []
  | _ => []

/-- The votes that were sent, newest first. -/
def chainHistory (n : Nat) (sent : List (Int × Msg Cmd)) :
    List (Vote (Fin n) Digest) :=
  (votesOf sent).reverse.flatMap (Sig.toChainVotes n)

theorem chainHistory_append (sent out : List (Int × Msg Cmd)) :
    chainHistory n (sent ++ out) =
      (votesOf out).reverse.flatMap (Sig.toChainVotes n) ++ chainHistory n sent := by
  simp [chainHistory]

theorem prepare_mem_chainHistory
    {sent : List (Int × Msg Cmd)} {i : Fin n} {v : Int} {h : Digest} :
    Vote.prepare i v h ∈ chainHistory n sent ↔ Signed sent i .generic v h := by
  simp only [chainHistory, List.mem_flatMap, List.mem_reverse, Signed]
  constructor
  · rintro ⟨s, hs, hvote⟩
    unfold Sig.toChainVotes at hvote
    split at hvote
    case h_1 =>
      split at hvote
      case isTrue =>
        simp only [List.mem_append, List.mem_map, List.mem_singleton, reduceCtorEq,
          and_false, exists_false, false_or, Vote.prepare.injEq] at hvote
        obtain ⟨rfl, rfl, rfl⟩ := hvote
        exact hs
      case isFalse => cases hvote
    case h_2 => cases hvote
  · intro hs
    exact ⟨_, hs, by simp [Sig.toChainVotes]⟩

theorem commit_mem_chainHistory
    {sent : List (Int × Msg Cmd)} {i : Fin n} {v : Int} {x : Digest} :
    Vote.commit i v x ∈ chainHistory n sent ↔
      ∃ u h, Signed sent i .generic u h ∧ chainStart h = some (v, x) := by
  simp only [chainHistory, List.mem_flatMap, List.mem_reverse, Signed]
  constructor
  · rintro ⟨s, hs, hvote⟩
    unfold Sig.toChainVotes at hvote
    split at hvote
    case h_1 k u h =>
      split at hvote
      case isTrue =>
        simp only [List.mem_append, List.mem_map, Option.mem_toList, List.mem_singleton,
          reduceCtorEq, or_false, Vote.commit.injEq] at hvote
        obtain ⟨p, hp, rfl, rfl, rfl⟩ := hvote
        exact ⟨u, h, hs, hp⟩
      case isFalse => cases hvote
    case h_2 => cases hvote
  · rintro ⟨u, h, hs, hstart⟩
    exact ⟨_, hs, by simp [Sig.toChainVotes, hstart]⟩

end History

section Policy

variable {Cmd : Type} [Application Cmd]

/-- The node that a vote for `b` has to lock is stored. -/
def TwoChainStored (t : Tree Cmd) (b : Node Cmd) : Prop :=
  match ChainedReplica.justified t b with
  | some b2 => b2.justify.isSome = true → (ChainedReplica.justified t b2).isSome = true
  | none => False

instance (t : Tree Cmd) (b : Node Cmd) : Decidable (TwoChainStored t b) := by
  unfold TwoChainStored
  split <;> infer_instance

/-- No ancestor of the node that `b` makes the replica commit is missing. -/
def ThreeChainStored (r : ChainedReplica Cmd) (b : Node Cmd) : Prop :=
  match ChainedReplica.threeChain (r.tree.add b) b with
  | some b0 => (r.tree.add b).firstMissing r.unexecuted b0.hash = none
  | none => True

instance (r : ChainedReplica Cmd) (b : Node Cmd) : Decidable (ThreeChainStored r b) := by
  unfold ThreeChainStored
  split <;> infer_instance

/-- An accepted proposal is voted on in order of views and with its two-chain
stored, and it commits only complete branches. -/
def ProposalInOrder (r : ChainedReplica Cmd) (v : Int) (b : Node Cmd) (qc : QC) : Prop :=
  (ChainedReplica.Votes r v b qc →
    (∀ x ∈ r.voted, x ≤ v) ∧ TwoChainStored (r.tree.add b) b) ∧
  ThreeChainStored r b

instance (r : ChainedReplica Cmd) (v : Int) (b : Node Cmd) (qc : QC) :
    Decidable (ProposalInOrder r v b qc) :=
  inferInstanceAs (Decidable ((_ → _ ∧ _) ∧ _))

/-- The runs to which agreement applies. -/
def ChainInOrder (cfg : Config) (w : World Cmd (ChainedReplica Cmd) cfg.n)
    (a : Fin cfg.n × Input Cmd) : Prop :=
  match a.2 with
  | .submit _ =>
      cfg.isLeader (w.procs a.1).view (w.procs a.1).id = true → 1 ≤ (w.procs a.1).view
  | .dispatch m =>
      match m.node, m.justify with
      | some b, some qc =>
          m.type = .generic → m.partialSig = none →
          m.sender = cfg.leader m.viewNumber →
          Replica.verifyJustify cfg (some qc) = true →
          ProposalInOrder (w.procs a.1) m.viewNumber b qc
      | _, _ => True
  | _ => True

instance (cfg : Config) (w : World Cmd (ChainedReplica Cmd) cfg.n) :
    (a : Fin cfg.n × Input Cmd) → Decidable (ChainInOrder cfg w a)
  | (_, .submit _) => inferInstanceAs (Decidable (_ → _))
  | (i, .dispatch ⟨_, _, _, some _, some _, _, _⟩) =>
      inferInstanceAs (Decidable (_ → _ → _ → _ → ProposalInOrder (w.procs i) _ _ _))
  | (_, .dispatch ⟨_, _, _, some _, none, _, _⟩) | (_, .dispatch ⟨_, _, _, none, _, _, _⟩)
  | (_, .start) | (_, .timeout) | (_, .stop) => isTrue trivial

end Policy

section Traffic

variable {Cmd : Type} [Application Cmd] {cfg : Config}
  {sent : List (Int × Msg Cmd)}

/-- What is known of every proposed node. -/
structure Leaf (cfg : Config) (sent : List (Int × Msg Cmd)) (b : Node Cmd) (qc : QC) :
    Prop where
  justify : b.justify = some qc
  parentHash : b.parentHash = qc.nodeHash
  good : GoodQc cfg sent qc
  view : 1 ≤ b.viewNumber
  hash_ne : b.hash ≠ genesisHash

theorem exists_leaf
    (hshape : ∀ p ∈ sent, Shape cfg sent p.2)
    {b : Node Cmd}
    (hb : Proposed sent b) :
    ∃ qc, Leaf cfg sent b qc := by
  obtain ⟨p, hp, hprop, hnode⟩ := hb
  cases hshape p hp with
  | newView qc htype => cases hprop.1.symm.trans htype
  | vote q _ hq => cases hprop.2.symm.trans hq
  | proposal qc cmd _ _ hview _ hgood hnode' =>
      cases hnode.symm.trans hnode'
      exact ⟨qc, rfl, rfl, hgood, hview, by simp [Node.hash, ChainedReplica.leafOf,
        genesisHash]⟩

/-- The hash of a node determines its view. -/
theorem viewNumber_eq_of_hash_eq
    {b b' : Node Cmd}
    (h : b.hash = b'.hash) :
    b.viewNumber = b'.viewNumber := by
  simp only [Node.hash, Digest.node.injEq] at h
  exact h.2.2

/-- The first node of a chain is read off the hashes of its nodes. -/
theorem chainStart_of_parents
    {b2 b1 b0 : Node Cmd}
    (h2 : b2.parentHash = b1.hash)
    (h1 : b1.parentHash = b0.hash)
    (h0 : b0.hash ≠ genesisHash)
    (hviews : b1.viewNumber = b0.viewNumber + 1 ∧ b2.viewNumber = b1.viewNumber + 1) :
    chainStart b2.hash = some (b0.viewNumber, b0.hash) := by
  have heq : b2.hash = .node (.node (.node b0.parentHash (b0.cmd.map cmdKey)
      b0.viewNumber) (b1.cmd.map cmdKey) b1.viewNumber) (b2.cmd.map cmdKey)
      b2.viewNumber := by
    rw [Node.hash, h2, Node.hash, h1, Node.hash]
  rw [heq, chainStart, if_pos ⟨hviews.1, hviews.2, h0⟩]
  rfl

/-- The converse: what `chainStart` says about a node and its parents. -/
theorem parents_of_chainStart
    {b : Node Cmd} {v : Int} {x : Digest}
    (h : chainStart b.hash = some (v, x)) :
    ∃ c1 v1, b.parentHash = .node x c1 v1 ∧ v1 = v + 1 ∧ b.viewNumber = v1 + 1 ∧
      x ≠ genesisHash ∧ ∃ p c, x = .node p c v := by
  unfold chainStart at h
  split at h
  case h_1 p c v0 c1 v1 c2 v2 heq =>
    split at h
    case isTrue hcond =>
      simp only [Node.hash, Digest.node.injEq] at heq
      simp only [Option.some.injEq, Prod.mk.injEq] at h
      obtain ⟨rfl, rfl⟩ := h
      exact ⟨c1, v1, heq.1, hcond.1, by rw [heq.2.2]; exact hcond.2.1, hcond.2.2, p, c, rfl⟩
    case isFalse => cases h
  case h_2 => cases h

variable [DecidableEq Cmd] {sm : Nat → Option (Application.State Cmd)}
  {w : World Cmd (ChainedReplica Cmd) cfg.n}

/-- **Correct replicas stay honest along every run.** -/
theorem honest_of_reachable
    (hn : cfg.n = 3 * cfg.f + 1)
    (hw : System.Reachable (cluster (chained cfg sm) cfg.n ∅) (ChainInOrder cfg) w) :
    ∀ i, Honest cfg w.sent (w.procs i).settled := by
  refine System.Reachable.invariant (I := fun w => ∀ i,
    Honest cfg w.sent (w.procs i).settled) ?_ ?_ hw
  · exact fun i => honest_new cfg i (sm i)
  · intro w a w' hreach hinv hok hstep
    have hids := (chainedVoteInv_of_reachable hreach).ids
    change worldStep (chained cfg sm) ∅ w a = some w' at hstep
    obtain ⟨_, hd, p, hp, rfl⟩ := worldStep_cases hstep
    have hhonest : Honest cfg w.sent p := by
      refine (hinv a.1).step (by omega) (by unfold Config.quorum; omega) ?_ ?_ hp
      · intro m hm
        rw [hm] at hd
        rcases hd with hsent | ⟨hne, _⟩
        · exact ⟨_, hsent⟩
        · exact absurd rfl hne
      · intro cmd hcmd
        simpa only [ChainInOrder, hcmd] using hok
    have hid : p.id = a.1 := by
      rcases ChainedReplica.step_cases cfg hp with
        hquiet | ⟨_, _, _, _, _, _, _, _, _, _, hh⟩
      · exact hquiet.id.trans (hids a.1)
      · exact hh.id.trans (hids a.1)
    have hnil : ∀ q : ChainedReplica Cmd,
        w.sent ++ p.outbox ++ q.settled.outbox = w.sent ++ p.outbox :=
      fun _ => List.append_nil _
    refine (Function.forall_update_iff w.procs fun _ (q : ChainedReplica Cmd) =>
      Honest cfg (w.sent ++ p.outbox) q.settled).mpr ⟨?_, ?_⟩
    · refine ⟨?_, ?_, fun b hb => absurd hb (not_proposed_nil b), ?_, ?_, hhonest.view⟩
      · rw [hnil]
        exact hhonest.shape
      · rw [hnil]
        exact hhonest.unique
      · rw [hnil]
        exact hhonest.proposed
      · rw [hnil]
        exact { hhonest.stored with }
    · intro i hi
      have hold := hinv i
      refine ⟨?_, ?_, fun b hb => absurd hb (not_proposed_nil b), ?_, ?_, hold.view⟩
      · rw [hnil]
        exact hhonest.shape
      · rw [hnil]
        exact hhonest.unique
      · -- The proposals of this step are for views that another replica leads.
        rw [hnil]
        intro b hb hleader
        rcases proposed_append.mp hb with hb | hb
        · exact hold.proposed b (proposed_append.mpr (Or.inl hb)) hleader
        · exfalso
          apply hi
          have hown := hhonest.own b hb
          rw [hleader, hid] at hown
          have hids' : (w.procs i).settled.id = i := hids i
          rw [hids'] at hown
          exact Fin.val_inj.mp (Int.ofNat.inj hown)
      · rw [hnil]
        have hstored : Stored cfg (w.sent ++ []) (w.procs i).settled := hold.stored
        rw [List.append_nil] at hstored
        exact hstored.append

end Traffic

section Invariant

variable {Cmd : Type} [Application Cmd] {cfg : Config}

/-- A quorum of GENERIC votes. -/
def ChainCertified (cfg : Config) (sent : List (Int × Msg Cmd)) (v : Int)
    (h : Digest) : Prop :=
  Certified (∅ : Finset (Fin cfg.n)) cfg.quorum sent .generic v h

/-- A certificate that a correct replica accepts. -/
def Trusted (cfg : Config) (sent : List (Int × Msg Cmd)) (qc : QC) : Prop :=
  qc = genesisQc ∨ ChainCertified cfg sent qc.viewNumber qc.nodeHash

theorem no_faults (cfg : Config) : (∅ : Finset (Fin cfg.n)).card ≤ cfg.f := by
  simp

omit [Application Cmd] in
theorem prepared_iff_chainCertified
    (hn : cfg.n = 3 * cfg.f + 1)
    {sent : List (Int × Msg Cmd)} {v : Int} {h : Digest} :
    Prepared (votingGroup hn (no_faults cfg)) (chainHistory cfg.n sent) v h ↔
      ChainCertified cfg sent v h := by
  simp only [Prepared, ChainCertified, Certified, prepare_mem_chainHistory, votingGroup]

omit [Application Cmd] in
/-- A certified node commits the first node of its chain. -/
theorem committed_of_chainStart
    (hn : cfg.n = 3 * cfg.f + 1)
    {sent : List (Int × Msg Cmd)} {u v : Int} {h x : Digest}
    (hc : ChainCertified cfg sent u h)
    (hstart : chainStart h = some (v, x)) :
    Committed (votingGroup hn (no_faults cfg)) (chainHistory cfg.n sent) v x := by
  obtain ⟨Q, hQ, hvotes⟩ := hc
  refine ⟨Q, hQ, fun i hi hb => ?_⟩
  exact commit_mem_chainHistory.mpr ⟨u, h, hvotes i hi hb, hstart⟩

/-- The invariant of runs in order. -/
structure ChainInv (hn : cfg.n = 3 * cfg.f + 1)
    (w : World Cmd (ChainedReplica Cmd) cfg.n) : Prop where
  backed : ∀ (i : Fin cfg.n) v h, Signed w.sent i .generic v h →
    ∃ b qc, Proposed w.sent b ∧ b.hash = h ∧ b.viewNumber = v ∧ b.justify = some qc ∧
      Trusted cfg w.sent qc
  rooted : ∀ (i : Fin cfg.n) v h, Signed w.sent i .generic v h → h.Rooted
  locked : ∀ i, (w.procs i).lockedNode = genesis ∨
    ChainCertified cfg w.sent (w.procs i).lockedNode.viewNumber
      (w.procs i).lockedNode.hash
  covers : ∀ i v x, Vote.commit i v x ∈ chainHistory cfg.n w.sent →
    1 ≤ v ∧ v ≤ (w.procs i).lockedNode.viewNumber
  legal : Legal (votingGroup hn (no_faults cfg)) Digest.Extends
    (chainHistory cfg.n w.sent)

/-- The facts about the traffic that the chain rules use. -/
structure TrafficFacts (cfg : Config) (sent : List (Int × Msg Cmd)) : Prop where
  shape : ∀ p ∈ sent, Shape cfg sent p.2
  unique : ∀ b b', Proposed sent b → Proposed sent b' →
    b.viewNumber = b'.viewNumber → b = b'

section Chain

variable {hn : cfg.n = 3 * cfg.f + 1} {w : World Cmd (ChainedReplica Cmd) cfg.n}

/-- Acceptance of a certificate that a correct replica has sent. -/
theorem trusted_of_verifyJustify
    (hn : cfg.n = 3 * cfg.f + 1)
    (hvote : ChainedVoteInv cfg w)
    {qc : QC}
    (hgood : GoodQc cfg w.sent qc)
    (hverify : Replica.verifyJustify cfg (some qc) = true) :
    Trusted cfg w.sent qc := by
  rcases hgood with heq | ⟨hsigs, hauth⟩
  · exact Or.inl heq
  · right
    have hgen : Replica.isGenesisQc (some qc) = false := by
      simp [Replica.isGenesisQc, hsigs]
    rw [Replica.verifyJustify, hgen, Bool.false_or] at hverify
    have hcert := certified_of_verifyQc hauth hverify
    obtain ⟨i, _, hs⟩ := hcert.exists_signed (card_lt_quorum hn (no_faults cfg))
    rw [(hvote.voted i _ _ _ hs).1] at hcert
    exact hcert

/-- A certified hash belongs to a proposed node with a trusted certificate. -/
theorem ChainInv.exists_node
    (hinv : ChainInv hn w)
    {v : Int} {h : Digest}
    (hc : ChainCertified cfg w.sent v h) :
    ∃ b qc, Proposed w.sent b ∧ b.hash = h ∧ b.viewNumber = v ∧ b.justify = some qc ∧
      Trusted cfg w.sent qc := by
  obtain ⟨i, _, hs⟩ := hc.exists_signed (card_lt_quorum hn (no_faults cfg))
  exact hinv.backed i v h hs

/-- Trusted certificates are for descendants of the genesis block. -/
theorem ChainInv.rooted_of_trusted
    (hinv : ChainInv hn w)
    {qc : QC}
    (hqc : Trusted cfg w.sent qc) :
    qc.nodeHash.Rooted := by
  rcases hqc with rfl | hc
  · exact Digest.Extends.refl _
  · obtain ⟨i, _, hs⟩ := hc.exists_signed (card_lt_quorum hn (no_faults cfg))
    exact hinv.rooted i _ _ hs

/-- The stored node that a trusted certificate points to. -/
theorem ChainInv.node_of_trusted
    (hinv : ChainInv hn w)
    (htraffic : TrafficFacts cfg w.sent)
    {qc : QC} {b : Node Cmd}
    (hqc : Trusted cfg w.sent qc)
    (hb : b = genesis ∨ Proposed w.sent b)
    (hhash : b.hash = qc.nodeHash) :
    b = genesis ∨ ChainCertified cfg w.sent b.viewNumber b.hash ∧
      ∃ qc', Leaf cfg w.sent b qc' ∧ Trusted cfg w.sent qc' := by
  rcases hb with hgen | hprop
  · exact Or.inl hgen
  · obtain ⟨qc', hleaf⟩ := exists_leaf htraffic.shape hprop
    rcases hqc with rfl | hc
    · exact absurd hhash hleaf.hash_ne
    · right
      obtain ⟨b', x, hprop', hhash', hview', hjustify', htrust'⟩ := hinv.exists_node hc
      have hsame : b.viewNumber = b'.viewNumber :=
        viewNumber_eq_of_hash_eq (hhash.trans hhash'.symm)
      have heq : b = b' := htraffic.unique b b' hprop hprop' hsame
      subst heq
      cases hjustify'.symm.trans hleaf.justify
      refine ⟨?_, _, hleaf, htrust'⟩
      rw [hview', hhash]
      exact hc

theorem justified_spec
    {t : Tree Cmd} {b b' : Node Cmd}
    (h : ChainedReplica.justified t b = some b') :
    ∃ qc, b.justify = some qc ∧ b'.hash = qc.nodeHash ∧ b' ∈ t.nodes := by
  obtain ⟨qc, hqc, hget⟩ := ChainedReplica.justified_eq_some_iff.mp h
  exact ⟨qc, hqc, Tree.hash_of_get hget, Tree.mem_nodes_of_get hget⟩

/-- Following a certificate from a node with a trusted certificate. -/
theorem ChainInv.justified_cases
    (hinv : ChainInv hn w)
    (htraffic : TrafficFacts cfg w.sent)
    {t : Tree Cmd} {b b' : Node Cmd} {qc : QC}
    (hnodes : ∀ x ∈ t.nodes, x = genesis ∨ Proposed w.sent x)
    (hleaf : Leaf cfg w.sent b qc)
    (hqc : Trusted cfg w.sent qc)
    (h : ChainedReplica.justified t b = some b') :
    b.parentHash = b'.hash ∧
      (b' = genesis ∨ ChainCertified cfg w.sent b'.viewNumber b'.hash ∧
        ∃ qc', Leaf cfg w.sent b' qc' ∧ Trusted cfg w.sent qc') := by
  obtain ⟨qc', hqc', hhash, hmem⟩ := justified_spec h
  cases hqc'.symm.trans hleaf.justify
  exact ⟨hleaf.parentHash.trans hhash.symm,
    hinv.node_of_trusted htraffic hqc (hnodes b' hmem) hhash⟩

/-- The two-chain rule locks certified nodes. -/
theorem ChainInv.twoChain_certified
    (hinv : ChainInv hn w)
    (htraffic : TrafficFacts cfg w.sent)
    {t : Tree Cmd} {b b1 : Node Cmd} {qc : QC}
    (hnodes : ∀ x ∈ t.nodes, x = genesis ∨ Proposed w.sent x)
    (hleaf : Leaf cfg w.sent b qc)
    (hqc : Trusted cfg w.sent qc)
    (h : ChainedReplica.twoChain t b = some b1) :
    b1 = genesis ∨ ChainCertified cfg w.sent b1.viewNumber b1.hash := by
  unfold ChainedReplica.twoChain at h
  rw [Option.bind_eq_some_iff] at h
  obtain ⟨b2, h2, h1⟩ := h
  rcases (hinv.justified_cases htraffic hnodes hleaf hqc h2).2 with
    rfl | ⟨_, qc2, hleaf2, hqc2⟩
  · cases h1
  · rcases (hinv.justified_cases htraffic hnodes hleaf2 hqc2 h1).2 with hgen | ⟨hc, _⟩
    · exact Or.inl hgen
    · exact Or.inr hc

/-- The three-chain rule commits nodes that a quorum has locked. -/
theorem ChainInv.threeChain_committed
    (hinv : ChainInv hn w)
    (htraffic : TrafficFacts cfg w.sent)
    {t : Tree Cmd} {b b0 : Node Cmd} {qc : QC}
    (hnodes : ∀ x ∈ t.nodes, x = genesis ∨ Proposed w.sent x)
    (hleaf : Leaf cfg w.sent b qc)
    (hqc : Trusted cfg w.sent qc)
    (h : ChainedReplica.threeChain t b = some b0) :
    b0.hash.Rooted ∧ t.has b0.hash = true ∧
      (b0 = genesis ∨ Committed (votingGroup hn (no_faults cfg))
        (chainHistory cfg.n w.sent) b0.viewNumber b0.hash) := by
  obtain ⟨b2, b1, h2, h1, h0, hviews⟩ := ChainedReplica.links_of_threeChain h
  obtain ⟨qc0, hqc0, hget0⟩ := ChainedReplica.justified_eq_some_iff.mp h0
  have hhash0 := Tree.hash_of_get hget0
  have hhas : t.has b0.hash = true := by
    rw [hhash0]
    simp [Tree.has, hget0]
  rcases (hinv.justified_cases htraffic hnodes hleaf hqc h2).2 with
    rfl | ⟨hc2, qc2, hleaf2, hqc2⟩
  · cases h1
  · obtain ⟨hparent2, hcases1⟩ := hinv.justified_cases htraffic hnodes hleaf2 hqc2 h1
    rcases hcases1 with rfl | ⟨_, qc1, hleaf1, hqc1⟩
    · cases h0
    · obtain ⟨hparent1, hcases0⟩ := hinv.justified_cases htraffic hnodes hleaf1 hqc1 h0
      cases hqc0.symm.trans hleaf1.justify
      refine ⟨?_, hhas, ?_⟩
      · rw [hhash0]
        exact hinv.rooted_of_trusted hqc1
      · rcases hcases0 with hgen | ⟨_, _, hleaf0, _⟩
        · exact Or.inl hgen
        · right
          exact committed_of_chainStart hn hc2
            (chainStart_of_parents hparent2 hparent1 hleaf0.hash_ne hviews)

end Chain

section Votes

variable {hn : cfg.n = 3 * cfg.f + 1} {w : World Cmd (ChainedReplica Cmd) cfg.n}

/-- A vote for the end of a chain finds its first node certified. -/
theorem ChainInv.chainStart_certified
    (hinv : ChainInv hn w)
    (htraffic : TrafficFacts cfg w.sent)
    {b : Node Cmd} {qc : QC} {v : Int} {x : Digest}
    (hleaf : Leaf cfg w.sent b qc)
    (hqc : Trusted cfg w.sent qc)
    (hstart : chainStart b.hash = some (v, x)) :
    1 ≤ v ∧ ChainCertified cfg w.sent v x ∧ b.viewNumber = v + 1 + 1 ∧
      ∃ c1, b.parentHash = .node x c1 (v + 1) ∧
        ChainCertified cfg w.sent (v + 1) (.node x c1 (v + 1)) := by
  obtain ⟨c1, _, hparent, rfl, hview, hne, p, c, rfl⟩ := parents_of_chainStart hstart
  have hqcHash : qc.nodeHash = .node (.node p c v) c1 (v + 1) :=
    hleaf.parentHash.symm.trans hparent
  have hcert : ChainCertified cfg w.sent qc.viewNumber qc.nodeHash := by
    rcases hqc with rfl | hc
    · simp [genesisQc, genesisHash] at hqcHash
    · exact hc
  obtain ⟨b1, qc1, hprop1, hhash1, hview1, hjustify1, htrust1⟩ := hinv.exists_node hcert
  obtain ⟨qc1', hleaf1⟩ := exists_leaf htraffic.shape hprop1
  cases hjustify1.symm.trans hleaf1.justify
  have hb1 : b1.parentHash = .node p c v ∧ b1.viewNumber = v + 1 := by
    rw [hqcHash] at hhash1
    simp only [Node.hash, Digest.node.injEq] at hhash1
    exact ⟨hhash1.1, hhash1.2.2⟩
  have hcert1 : ChainCertified cfg w.sent qc1.viewNumber qc1.nodeHash := by
    rcases htrust1 with rfl | hc
    · exact absurd (hb1.1.symm.trans hleaf1.parentHash) hne
    · exact hc
  have hqc1Hash : qc1.nodeHash = .node p c v := hleaf1.parentHash.symm.trans hb1.1
  obtain ⟨b0, qc0, hprop0, hhash0, hview0, _, _⟩ := hinv.exists_node hcert1
  obtain ⟨_, hleaf0⟩ := exists_leaf htraffic.shape hprop0
  have hb0 : b0.viewNumber = v := by
    rw [hqc1Hash] at hhash0
    simp only [Node.hash, Digest.node.injEq] at hhash0
    exact hhash0.2.2
  refine ⟨by rw [← hb0]; exact hleaf0.view, ?_, hview, c1, hparent, ?_⟩
  · rw [← hview0, hb0, hqc1Hash] at hcert1
    exact hcert1
  · rw [← hview1, hb1.2, hqcHash] at hcert
    exact hcert

/-- A vote respects the lock. -/
theorem ChainInv.admissible_prepare
    (hvote : ChainedVoteInv cfg w)
    (hinv : ChainInv hn w)
    {i : Fin cfg.n} {u : Int} {b : Node Cmd} {qc : QC}
    (hleaf : Leaf cfg w.sent b qc)
    (hqc : Trusted cfg w.sent qc)
    (hvotes : ChainedReplica.Votes (w.procs i) u b qc) :
    Admissible (votingGroup hn (no_faults cfg)) Digest.Extends
      (chainHistory cfg.n w.sent) (.prepare i u b.hash) := by
  obtain ⟨hunvoted, hsafe⟩ := hvotes
  constructor
  · intro g hg
    have hs := prepare_mem_chainHistory.mp hg
    exact absurd (hvote.voted i _ u g hs).2 hunvoted
  · intro v x hcommit _
    obtain ⟨hpos, hle⟩ := hinv.covers i v x hcommit
    simp only [ChainedReplica.safeNode, Bool.or_eq_true, decide_eq_true_eq] at hsafe
    rcases hsafe with hext | hlive
    · rcases hinv.locked i with hgen | hcert
      · rw [hgen] at hle
        simp only [genesis] at hle
        omega
      · exact ⟨_, _, hle, (prepared_iff_chainCertified hn).mpr hcert,
          Tree.extends_of_reaches hext⟩
    · rcases hqc with rfl | hcert
      · simp only [genesisQc] at hlive
        omega
      · refine ⟨_, _, by omega, (prepared_iff_chainCertified hn).mpr hcert, ?_⟩
        rw [Node.hash, hleaf.parentHash]
        exact Digest.extends_node_iff.mpr (Or.inr (Digest.Extends.refl _))

/-- The lock that goes with a vote is admissible. -/
theorem ChainInv.admissible_commit
    (hvote : ChainedVoteInv cfg w)
    (hinv : ChainInv hn w)
    (htraffic : TrafficFacts cfg w.sent)
    {i : Fin cfg.n} {b : Node Cmd} {qc : QC} {v : Int} {x : Digest}
    (hleaf : Leaf cfg w.sent b qc)
    (hqc : Trusted cfg w.sent qc)
    (hstart : chainStart b.hash = some (v, x))
    (hunvoted : b.viewNumber ∉ (w.procs i).voted)
    (horder : ∀ u ∈ (w.procs i).voted, u ≤ b.viewNumber) :
    Admissible (votingGroup hn (no_faults cfg)) Digest.Extends
      (.prepare i b.viewNumber b.hash :: chainHistory cfg.n w.sent) (.commit i v x) := by
  obtain ⟨_, hcert, hview, c1, hparent, hcert1⟩ :=
    hinv.chainStart_certified htraffic hleaf hqc hstart
  have hext1 : Digest.Extends (.node x c1 (v + 1)) x :=
    Digest.extends_node_iff.mpr (Or.inr (Digest.Extends.refl _))
  constructor
  · exact ((prepared_iff_chainCertified hn).mpr hcert).mono (List.subset_cons_self _ _)
  · intro u g hg hlt
    rcases List.mem_cons.mp hg with heq | hold
    · cases heq
      rw [Node.hash, hparent]
      exact Digest.extends_node_iff.mpr (Or.inr hext1)
    · -- An older vote above `v` was cast in the view of the middle node.
      have hs := prepare_mem_chainHistory.mp hold
      have hvoted := (hvote.voted i _ u g hs).2
      have hle := horder u hvoted
      have hne : u ≠ b.viewNumber := fun heq => hunvoted (heq ▸ hvoted)
      have hu : u = v + 1 := by omega
      subst hu
      obtain ⟨b1, _, hprop1, hhash1, hview1, _, _⟩ := hinv.exists_node hcert1
      obtain ⟨b1', _, hprop1', hhash1', hview1', _, _⟩ := hinv.backed i _ g hs
      have heq : b1 = b1' :=
        htraffic.unique b1 b1' hprop1 hprop1' (hview1.trans hview1'.symm)
      rw [← hhash1', ← heq, hhash1]
      exact hext1

omit [Application Cmd] in
theorem viewNumber_le_lockOn (locked : Node Cmd) (o : Option (Node Cmd)) :
    locked.viewNumber ≤ (ChainedReplica.lockOn locked o).viewNumber := by
  cases o with
  | none => exact le_refl _
  | some b1 =>
      simp only [ChainedReplica.lockOn]
      split
      case isTrue h => exact h.le
      case isFalse => exact le_refl _

omit [Application Cmd] in
theorem viewNumber_le_lockOn_some (locked b1 : Node Cmd) :
    b1.viewNumber ≤ (ChainedReplica.lockOn locked (some b1)).viewNumber := by
  simp only [ChainedReplica.lockOn]
  split
  case isTrue => exact le_refl _
  case isFalse h => exact not_lt.mp h

/-- With its two-chain stored, a vote for the end of a chain locks the voter at
or above the first node. -/
theorem le_lockOn_of_twoChainStored
    (htraffic : TrafficFacts cfg w.sent)
    {t : Tree Cmd} {locked b : Node Cmd} {qc : QC} {v : Int} {x : Digest}
    (hnodes : ∀ y ∈ t.nodes, y = genesis ∨ Proposed w.sent y)
    (hleaf : Leaf cfg w.sent b qc)
    (hstart : chainStart b.hash = some (v, x))
    (hstored : TwoChainStored t b) :
    v ≤ (ChainedReplica.lockOn locked (ChainedReplica.twoChain t b)).viewNumber := by
  obtain ⟨c1, v1, hparent, rfl, _, _, p, c, rfl⟩ := parents_of_chainStart hstart
  unfold TwoChainStored at hstored
  split at hstored
  case h_2 => cases hstored
  case h_1 b2 h2 =>
    obtain ⟨qc', hqc', hhash2, hmem2⟩ := justified_spec h2
    cases hqc'.symm.trans hleaf.justify
    rw [← hleaf.parentHash, hparent] at hhash2
    have hprop2 : Proposed w.sent b2 := by
      rcases hnodes b2 hmem2 with rfl | hprop
      · simp [genesisHash] at hhash2
      · exact hprop
    obtain ⟨qc2, hleaf2⟩ := exists_leaf htraffic.shape hprop2
    obtain ⟨b1, h1⟩ := Option.isSome_iff_exists.mp
      (hstored (by rw [hleaf2.justify]; rfl))
    obtain ⟨qc1, hqc1, hhash1, _⟩ := justified_spec h1
    cases hqc1.symm.trans hleaf2.justify
    have hview1 : b1.viewNumber = v := by
      rw [← hleaf2.parentHash] at hhash1
      simp only [Node.hash, Digest.node.injEq] at hhash2
      rw [hhash2.1] at hhash1
      simp only [Node.hash, Digest.node.injEq] at hhash1
      exact hhash1.2.2
    have htwo : ChainedReplica.twoChain t b = some b1 := by
      simp [ChainedReplica.twoChain, h2, h1]
    rw [htwo, ← hview1]
    exact viewNumber_le_lockOn_some locked b1

end Votes

end Invariant

end HotStuff
end DistributedConsensus
