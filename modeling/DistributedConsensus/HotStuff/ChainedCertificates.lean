import DistributedConsensus.HotStuff.ChainedAgreement
import DistributedConsensus.HotStuff.Replay

/-!
# Chained HotStuff: certificates of a single replica

A replica reacts to arbitrary messages.  The certificate that `onGeneric` checks
is the one of the message; the chain rules follow the certificates stored in the
nodes.  As long as the nodes carry certificates that pass the same check, an
unsigned certificate for view 0 is the genesis certificate, and votes are counted
under the index of their signer, every certificate that the replica holds is
genuine, and so are the links along which it locks and commits.
-/

namespace DistributedConsensus
namespace HotStuff

open Foundations

/-- The genesis certificate, or one that passes `verifyQc`. -/
def QC.Genuine (cfg : Config) (qc : QC) : Prop :=
  qc = genesisQc ∨ verifyQc qc (verifyKeys cfg.n) cfg.quorum = true

instance (cfg : Config) (qc : QC) : Decidable (qc.Genuine cfg) :=
  inferInstanceAs (Decidable (_ ∨ _))

/-- An unsigned certificate for view 0 is the genesis certificate. -/
def QC.NotFalseGenesis (qc : QC) : Prop :=
  Replica.isGenesisQc (some qc) = true → qc = genesisQc

instance (qc : QC) : Decidable qc.NotFalseGenesis :=
  inferInstanceAs (Decidable (_ → _))

theorem QC.genuine_of_verifyJustify
    {cfg : Config} {qc : QC}
    (hfalse : qc.NotFalseGenesis)
    (h : Replica.verifyJustify cfg (some qc) = true) :
    qc.Genuine cfg := by
  unfold Replica.verifyJustify at h
  rw [Bool.or_eq_true] at h
  rcases h with hgenesis | hverify
  · exact Or.inl (hfalse hgenesis)
  · exact Or.inr hverify

namespace ChainedReplica

variable {Cmd : Type} [Application Cmd]

/-- The certificate of a node points to a stored node and is genuine. -/
def CertifiedLink (cfg : Config) (t : Tree Cmd) (b a : Node Cmd) : Prop :=
  ∃ qc, b.justify = some qc ∧ t.get qc.nodeHash = some a ∧ qc.Genuine cfg

/-- The node of an accepted proposal carries a certificate that passes the check
made of the certificate of the message, certificates without signatures are not
mistaken for the genesis certificate, and valid votes name their signer by its
own index. -/
def CarriesGenuine (cfg : Config) (r : ChainedReplica Cmd) : Input Cmd → Prop
  | .dispatch m =>
      (m.type = .newView → cfg.isLeader (m.viewNumber + 1) r.id = true →
        ∀ qc ∈ m.justify, qc.NotFalseGenesis) ∧
      (m.type = .generic → m.partialSig = none → m.sender = cfg.leader m.viewNumber →
        Replica.verifyJustify cfg m.justify = true →
        ∀ b ∈ m.node, ∀ qc ∈ b.justify,
          Replica.verifyJustify cfg (some qc) = true ∧ qc.NotFalseGenesis) ∧
      (m.type = .generic → cfg.isLeader (m.viewNumber + 1) r.id = true →
        ∀ p ∈ m.partialSig, p.1 < 0 → ∀ vk ∈ pyIndex (verifyKeys cfg.n) p.1,
          ∀ b ∈ m.node, verifyVote vk .generic m.viewNumber b.hash p.2 = false)
  | _ => True

instance (cfg : Config) (r : ChainedReplica Cmd) :
    (i : Input Cmd) → Decidable (CarriesGenuine cfg r i)
  | .dispatch m =>
      inferInstanceAs (Decidable (
        (_ → _ → ∀ qc ∈ m.justify, qc.NotFalseGenesis) ∧
        (_ → _ → _ → _ → ∀ b ∈ m.node, ∀ qc ∈ b.justify, _ ∧ qc.NotFalseGenesis) ∧
        (_ → _ → ∀ p ∈ m.partialSig, _ → ∀ vk ∈ pyIndex (verifyKeys cfg.n) p.1,
          ∀ b ∈ m.node, verifyVote vk .generic m.viewNumber b.hash p.2 = false)))
  | .start | .submit _ | .timeout | .stop => isTrue trivial

/-- A vote that is counted for a view and a hash. -/
structure CountedVote (n : Nat) (key : Int × Digest) (rid : Int) (m : Msg Cmd) : Prop where
  type : m.type = .generic
  viewNumber : m.viewNumber = key.1
  node : m.node.map Node.hash = some key.2
  signed : ∃ vk < n, m.partialSig = some (rid, .signed vk .generic key.1 key.2) ∧
    rid = (vk : Int)

/-- All certificates that a replica holds are genuine, and its votes are counted
under their signers. -/
structure HoldsGenuine (cfg : Config) (r : ChainedReplica Cmd) : Prop where
  genericQc : r.genericQc.Genuine cfg
  tree : ∀ b ∈ r.tree.nodes, ∀ qc, b.justify = some qc → qc.Genuine cfg
  newView : ∀ d ∈ r.newView.values, ∀ qc ∈ d.values, qc.Genuine cfg
  votes : ∀ p ∈ r.votes.entries, ∀ q ∈ p.2.entries, CountedVote cfg.n p.1 q.1 q.2

theorem holdsGenuine_new (cfg : Config) (id : Nat) (sm : Option (Application.State Cmd)) :
    HoldsGenuine cfg (new id sm) := by
  refine ⟨Or.inl rfl, ?_, ?_, ?_⟩
  · intro b hb qc hqc
    have hgenesis : b = genesis := by simpa [new, Tree.new] using hb
    rw [hgenesis] at hqc
    cases hqc
  · intro d hd
    cases hd
  · intro p hp
    cases hp

namespace HoldsGenuine

variable {cfg : Config} {r : ChainedReplica Cmd}

/-- The tree with a node that has a genuine certificate. -/
theorem tree_add
    {b : Node Cmd}
    (h : HoldsGenuine cfg r)
    (hb : ∀ qc, b.justify = some qc → qc.Genuine cfg) :
    ∀ b' ∈ (r.tree.add b).nodes, ∀ qc, b'.justify = some qc → qc.Genuine cfg := by
  intro b' hb'
  rcases Tree.mem_nodes_add hb' with rfl | hold
  · exact hb
  · exact h.tree b' hold

theorem tryPropose
    {qc : QC}
    (h : HoldsGenuine cfg r)
    (v : Int)
    (hqc : qc.Genuine cfg) :
    HoldsGenuine cfg (r.tryPropose cfg v qc) := by
  obtain ⟨pending, keys, heq | ⟨cmd, -, heq⟩⟩ := r.tryPropose_cases cfg v qc
  · rw [heq]
    exact { h with }
  · have htree := h.tree_add (b := leafOf qc cmd v) fun qc' hqc' => by
      cases hqc'
      exact hqc
    rw [heq]
    exact { h with tree := htree }

theorem submit
    (h : HoldsGenuine cfg r)
    (cmd : Cmd) :
    HoldsGenuine cfg (r.submit cfg cmd) := by
  unfold ChainedReplica.submit
  split
  case isTrue => exact h
  case isFalse =>
    refine tryPropose ?_ _ h.genericQc
    exact { h with }

theorem advanceFrom
    (h : HoldsGenuine cfg r)
    (v : Int) :
    HoldsGenuine cfg (r.advanceFrom cfg v) := by
  unfold ChainedReplica.advanceFrom
  split
  case isTrue => exact h
  case isFalse => exact { h with }

theorem onTimeout
    (h : HoldsGenuine cfg r)
    (v : Int) :
    HoldsGenuine cfg (r.onTimeout cfg v) := by
  unfold ChainedReplica.onTimeout
  split
  case isTrue => exact h
  case isFalse =>
    refine advanceFrom ?_ v
    exact { h with }

variable {m : Msg Cmd}

theorem newViewWith
    (h : HoldsGenuine cfg r)
    (hm : ∀ qc ∈ m.justify, qc.Genuine cfg) :
    ∀ qc ∈ (r.newViewWith m).values, qc.Genuine cfg := by
  intro qc hqc
  rcases Dict.mem_values_set hqc with rfl | hold
  · cases hjustify : m.justify with
    | none => exact Or.inl rfl
    | some qc => exact hm qc hjustify
  · rcases r.newView.getD_mem_values_or (m.viewNumber + 1) Dict.empty with hd | hd
    · exact h.newView _ hd qc hold
    · rw [hd] at hold
      cases hold

theorem onNewView
    (h : HoldsGenuine cfg r)
    (hm : cfg.isLeader (m.viewNumber + 1) r.id = true → ∀ qc ∈ m.justify, qc.NotFalseGenesis) :
    HoldsGenuine cfg (r.onNewView cfg m) := by
  rcases r.onNewView_cases cfg m with heq | ⟨hleader, hverify, s, rfl, hcases⟩
  · rw [heq]
    exact h
  · have htally := h.newViewWith fun qc hqc =>
      QC.genuine_of_verifyJustify (hm hleader qc hqc) (by
        rw [← Option.mem_def.mp hqc]
        exact hverify)
    have hset : HoldsGenuine cfg { r with
        newView := r.newView.set (m.viewNumber + 1) (r.newViewWith m) } := by
      refine { h with newView := ?_ }
      intro d hd
      rcases Dict.mem_values_set hd with rfl | hold
      · exact htally
      · exact h.newView d hold
    rcases hcases with heq | heq | ⟨high, -, hhigh, heq⟩
    · rw [heq]
      exact hset
    · rw [heq]
      exact { hset with }
    · rw [heq]
      exact hset.tryPropose _ (htally high hhigh)

/-- The certificate that a leader builds from the counted votes is genuine. -/
theorem genuine_buildQc
    {key : Int × Digest} {votes : Dict Int (Msg Cmd)} {qc : QC}
    (hvotes : ∀ q ∈ votes.entries, CountedVote cfg.n key q.1 q.2)
    (hquorum : cfg.quorum ≤ votes.size)
    (hqc : buildQc votes.values cfg.quorum = some qc) :
    qc.Genuine cfg := by
  right
  let sigs := votes.entries.map fun q =>
    (q.1, Sig.signed q.1.toNat .generic key.1 key.2)
  have hsig : ∀ q ∈ votes.entries,
      q.2.partialSig = some (q.1, Sig.signed q.1.toNat .generic key.1 key.2) := by
    intro q hq
    obtain ⟨vk, -, hp, hrid⟩ := (hvotes q hq).signed
    rw [hp, hrid]
    rfl
  refine verifyQc_of_buildQc .generic key.1 key.2 sigs hqc ?_ ?_ ?_ ?_ ?_
  · intro v hv
    obtain ⟨q, hq, rfl⟩ := List.mem_map.mp hv
    have hcounted := hvotes q hq
    exact ⟨hcounted.type, hcounted.viewNumber, hcounted.node⟩
  · simp only [Dict.values, sigs, List.map_map]
    exact List.map_congr_left hsig
  · intro p hp
    obtain ⟨q, hq, rfl⟩ := List.mem_map.mp hp
    obtain ⟨vk, hlt, -, hrid⟩ := (hvotes q hq).signed
    refine ⟨vk, hlt, ?_⟩
    rw [hrid]
    rfl
  · have hkeys : sigs.map Prod.fst = votes.entries.map Prod.fst := by
      simp [sigs]
    rw [hkeys]
    exact votes.nodup
  · rw [Dict.length_values]
    exact hquorum

theorem votesWith
    {rid : Int} {node : Node Cmd}
    (h : HoldsGenuine cfg r)
    (hm : CountedVote cfg.n (m.viewNumber, node.hash) rid m) :
    ∀ q ∈ (r.votesWith m rid node).entries,
      CountedVote cfg.n (m.viewNumber, node.hash) q.1 q.2 := by
  intro q hq
  rcases Dict.mem_entries_set hq with rfl | hold
  · exact hm
  · rw [Dict.getD] at hold
    cases hget : r.votes.get? (m.viewNumber, node.hash) with
    | none =>
        rw [hget] at hold
        cases hold
    | some d =>
        rw [hget] at hold
        exact h.votes _ (Dict.mem_entries_of_get? hget) q hold

/-- A valid vote under the index of its signer. -/
theorem countedVote
    {rid : Int} {sig : Sig} {node : Node Cmd}
    (htype : m.type = .generic)
    (hsig : m.partialSig = some (rid, sig))
    (hm : cfg.isLeader (m.viewNumber + 1) r.id = true → rid < 0 →
      ∀ vk ∈ pyIndex (verifyKeys cfg.n) rid, ∀ b ∈ m.node,
        verifyVote vk .generic m.viewNumber b.hash sig = false)
    (hcounted : Counted cfg r m rid sig node) :
    CountedVote cfg.n (m.viewNumber, node.hash) rid m := by
  obtain ⟨vk, hvk, hverify⟩ := hcounted.signed
  -- A negative index would have been excluded by the condition.
  have hindex : 0 ≤ rid := by
    by_contra hneg
    have hrejected := hm hcounted.leader (by omega) vk hvk node hcounted.voted
    rw [hverify] at hrejected
    cases hrejected
  obtain ⟨hrid, hlt⟩ := pyIndex_verifyKeys hindex hvk
  refine ⟨htype, rfl, by rw [hcounted.voted]; rfl, vk, hlt, ?_, hrid.symm⟩
  rw [hsig, verifyVote_iff.mp hverify]

theorem onGenericVote
    {rid : Int} {sig : Sig}
    (h : HoldsGenuine cfg r)
    (htype : m.type = .generic)
    (hsig : m.partialSig = some (rid, sig))
    (hm : cfg.isLeader (m.viewNumber + 1) r.id = true → rid < 0 →
      ∀ vk ∈ pyIndex (verifyKeys cfg.n) rid, ∀ b ∈ m.node,
        verifyVote vk .generic m.viewNumber b.hash sig = false) :
    HoldsGenuine cfg (r.onGenericVote cfg m rid sig) := by
  rcases r.onGenericVote_cases cfg m rid sig with
    heq | heq | ⟨node, formed, qcs, s, hcounted, rfl, hcases⟩
  · rw [heq]
    exact h
  · rw [heq]
    exact { h with }
  · have hvotes := h.votesWith (countedVote htype hsig hm hcounted)
    have hset : HoldsGenuine cfg { r with
        votes := r.votes.set (m.viewNumber, node.hash) (r.votesWith m rid node)
        formed := formed
        qcs := qcs } := by
      refine { h with votes := ?_ }
      intro p hp
      rcases Dict.mem_entries_set hp with rfl | hold
      · exact hvotes
      · exact h.votes p hold
    rcases hcases with heq | heq | ⟨qc, -, hquorum, hqc, heq⟩
    · rw [heq]
      exact hset
    · rw [heq]
      exact { hset with }
    · rw [heq]
      exact hset.tryPropose _ (genuine_buildQc hvotes hquorum hqc)

theorem update
    {bStar : Node Cmd}
    (h : HoldsGenuine cfg r)
    (hqc : ∀ qc, bStar.justify = some qc → qc.Genuine cfg) :
    HoldsGenuine cfg (r.update bStar) := by
  rcases r.update_cases bStar with ⟨-, heq | heq⟩ | ⟨qc, hjustify, heq⟩
  · rw [heq]
    exact h
  · rw [heq]
    exact { h with }
  · have hgeneric : (if r.genericQc.viewNumber < qc.viewNumber then qc
        else r.genericQc).Genuine cfg := by
      split
      case isTrue => exact hqc qc hjustify
      case isFalse => exact h.genericQc
    obtain ⟨sm, committed, executed, keys, replies, hexec⟩ := foldl_executeNode_cases { r with
      genericQc := if r.genericQc.viewNumber < qc.viewNumber then qc else r.genericQc
      lockedNode := lockOn r.lockedNode (twoChain r.tree bStar) }
      (newlyCommitted r.tree r.unexecuted bStar)
    rw [heq, hexec]
    exact { h with genericQc := hgeneric }

theorem onGeneric
    (h : HoldsGenuine cfg r)
    (hm : m.sender = cfg.leader m.viewNumber → Replica.verifyJustify cfg m.justify = true →
      ∀ b ∈ m.node, ∀ qc ∈ b.justify,
        Replica.verifyJustify cfg (some qc) = true ∧ qc.NotFalseGenesis) :
    HoldsGenuine cfg (r.onGeneric cfg m) := by
  rcases r.onGeneric_cases cfg m with heq | heq | ⟨bStar, qc, haccepts, heq⟩
  · rw [heq]
    exact h
  · rw [heq]
    exact { h with }
  · have hstar : ∀ qc, bStar.justify = some qc → qc.Genuine cfg := by
      intro qc' hqc'
      obtain ⟨hcheck, hfalse⟩ := hm haccepts.sender
        (by rw [haccepts.justify]; exact haccepts.verified) bStar haccepts.node qc' hqc'
      exact QC.genuine_of_verifyJustify hfalse hcheck
    rw [heq, vote_spec]
    refine update ?_ hstar
    exact { h with tree := h.tree_add hstar }

/-- **One step of a replica among arbitrary inputs.** -/
theorem step
    {r' : ChainedReplica Cmd} {i : Input Cmd}
    (h : HoldsGenuine cfg r)
    (hi : CarriesGenuine cfg r i)
    (hstep : r.step cfg i = some r') :
    HoldsGenuine cfg r' := by
  have hclear : HoldsGenuine cfg { r with outbox := [], replies := [] } := { h with }
  cases occurs_of_step hstep with
  | start =>
      refine advanceFrom ?_ 0
      exact { hclear with }
  | newView m htype => exact hclear.onNewView (hi.1 htype)
  | genericVote m rid sig htype hsig =>
      exact hclear.onGenericVote htype hsig fun hleader => hi.2.2 htype hleader _ hsig
  | generic m htype hsig => exact hclear.onGeneric (hi.2.1 htype hsig)
  | ignored m => exact hclear
  | submit cmd => exact hclear.submit cmd
  | timeout v =>
      refine onTimeout ?_ v
      exact { hclear with }
  | stop => exact { hclear with }

/-- A followed link is certified. -/
theorem certifiedLink
    {t : Tree Cmd} {b a : Node Cmd}
    (ht : ∀ b ∈ t.nodes, ∀ qc, b.justify = some qc → qc.Genuine cfg)
    (hb : b ∈ t.nodes)
    (hlink : justified t b = some a) :
    CertifiedLink cfg t b a ∧ a ∈ t.nodes := by
  obtain ⟨qc, hqc, hget⟩ := justified_eq_some_iff.mp hlink
  exact ⟨⟨qc, hqc, hget, ht b hb qc hqc⟩, Tree.mem_nodes_of_get hget⟩

end HoldsGenuine

section Runs

variable {cfg : Config} {id : Nat} {sm : Option (Application.State Cmd)}

/-- A step keeps the lock, or moves it to the end of a certified two-chain. -/
def LocksCertified (cfg : Config) (r : ChainedReplica Cmd) (i : Input Cmd)
    (r' : ChainedReplica Cmd) : Prop :=
  r'.lockedNode = r.lockedNode ∨
    ∃ m bStar b2, i = .dispatch m ∧ m.node = some bStar ∧
      CertifiedLink cfg (r.tree.add bStar) bStar b2 ∧
      CertifiedLink cfg (r.tree.add bStar) b2 r'.lockedNode

/-- A step executes nothing, or the branch that ends with the last node of a
certified three-chain of consecutive views. -/
def CommitsCertified (cfg : Config) (r : ChainedReplica Cmd) (i : Input Cmd)
    (r' : ChainedReplica Cmd) : Prop :=
  r'.committed = r.committed ∨
    ∃ m bStar b2 b1 b0, i = .dispatch m ∧ m.node = some bStar ∧
      CertifiedLink cfg (r.tree.add bStar) bStar b2 ∧
      CertifiedLink cfg (r.tree.add bStar) b2 b1 ∧
      CertifiedLink cfg (r.tree.add bStar) b1 b0 ∧
      b1.viewNumber = b0.viewNumber + 1 ∧ b2.viewNumber = b1.viewNumber + 1 ∧
      r'.committed = r.committed ++
        ((r.tree.add bStar).branch r.unexecuted b0.hash).reverse

omit [Application Cmd] in
theorem lockOn_cases (locked : Node Cmd) (o : Option (Node Cmd)) :
    lockOn locked o = locked ∨ o = some (lockOn locked o) := by
  cases o with
  | none => exact Or.inl rfl
  | some b1 =>
      simp only [lockOn]
      split
      case isTrue => exact Or.inr rfl
      case isFalse => exact Or.inl rfl

/-- What the rules of `update` follow are certified links. -/
theorem Handled.certified
    {r r' : ChainedReplica Cmd} {m : Msg Cmd} {bStar : Node Cmd} {qc : QC}
    (hh : Handled { r with outbox := [] } m.viewNumber bStar qc r')
    (hnode : m.node = some bStar)
    (htree : ∀ b ∈ (r.tree.add bStar).nodes, ∀ qc, b.justify = some qc → qc.Genuine cfg) :
    LocksCertified cfg r (.dispatch m) r' ∧ CommitsCertified cfg r (.dispatch m) r' := by
  have hstar : bStar ∈ (r.tree.add bStar).nodes := by
    refine Tree.mem_nodes_of_get (Tree.get_add_self _ _)
  constructor
  · rcases lockOn_cases r.lockedNode (twoChain (r.tree.add bStar) bStar) with hkeep | hmove
    · exact Or.inl (hh.lockedNode.trans hkeep)
    · right
      unfold twoChain at hmove
      rw [Option.bind_eq_some_iff] at hmove
      obtain ⟨b2, h2, h1⟩ := hmove
      obtain ⟨hlink, hmem⟩ := HoldsGenuine.certifiedLink htree hstar h2
      refine ⟨m, bStar, b2, rfl, hnode, hlink, ?_⟩
      rw [hh.lockedNode]
      exact (HoldsGenuine.certifiedLink htree hmem h1).1
  · have hcommitted := hh.committed
    unfold newlyCommitted at hcommitted
    split at hcommitted
    case h_2 =>
      left
      rw [hcommitted, List.append_nil]
    case h_1 b0 hchain =>
      right
      obtain ⟨b2, b1, h2, h1, h0, hviews⟩ := links_of_threeChain hchain
      obtain ⟨hlink2, hmem2⟩ := HoldsGenuine.certifiedLink htree hstar h2
      obtain ⟨hlink1, hmem1⟩ := HoldsGenuine.certifiedLink htree hmem2 h1
      obtain ⟨hlink0, -⟩ := HoldsGenuine.certifiedLink htree hmem1 h0
      exact ⟨m, bStar, b2, b1, b0, rfl, hnode, hlink2, hlink1, hlink0, hviews.1,
        hviews.2, hcommitted⟩

theorem HoldsGenuine.step_certified
    {r r' : ChainedReplica Cmd} {i : Input Cmd}
    (h : HoldsGenuine cfg r)
    (hi : CarriesGenuine cfg r i)
    (hstep : r.step cfg i = some r') :
    LocksCertified cfg r i r' ∧ CommitsCertified cfg r i r' := by
  rcases step_cases cfg hstep with hquiet | ⟨m, bStar, qc, rfl, htype, hsig, hsender, hnode,
    hqc, hverify, hh⟩
  · exact ⟨Or.inl hquiet.lockedNode, Or.inl hquiet.committed⟩
  · have hstar : ∀ qc, bStar.justify = some qc → qc.Genuine cfg := by
      intro qc' hqc'
      obtain ⟨hcheck, hfalse⟩ :=
        hi.2.1 htype hsig hsender (by rw [hqc]; exact hverify) bStar hnode qc' hqc'
      exact QC.genuine_of_verifyJustify hfalse hcheck
    exact hh.certified hnode (h.tree_add hstar)

theorem holdsGenuine_of_reachable
    {r : ChainedReplica Cmd}
    (hr : System.Reachable (exposed cfg id sm) (CarriesGenuine cfg) r) :
    HoldsGenuine cfg r := by
  refine System.Reachable.invariant ?_ ?_ hr
  · exact holdsGenuine_new cfg id sm
  · intro r i r' _ h hi hstep
    exact h.step hi hstep

/-- **Genuine certificates.**  In every run whose inputs carry genuine
certificates in their nodes, the replica holds a genuine certificate, and every
step locks and commits along certified links only. -/
theorem genuine_of_reachable
    {r : ChainedReplica Cmd}
    (hr : System.Reachable (exposed cfg id sm) (CarriesGenuine cfg) r) :
    r.genericQc.Genuine cfg ∧
      ∀ i r', CarriesGenuine cfg r i → r.step cfg i = some r' →
        LocksCertified cfg r i r' ∧ CommitsCertified cfg r i r' := by
  have hinv := holdsGenuine_of_reachable hr
  exact ⟨hinv.genericQc, fun i r' hi hstep => hinv.step_certified hi hstep⟩

/-- Replica 1 follows four proposals and commits the first node. -/
theorem genuine_of_reachable_chain :
    ∃ r : ChainedReplica String,
      System.Reachable (exposed fourReplicas 1 none) (CarriesGenuine fourReplicas) r ∧
      r.committed = [(chainLink 0).2] ∧ r.genericQc = (chainLink 3).1 ∧
      r.genericQc.Genuine fourReplicas := by
  have hrun : ∃ r : ChainedReplica String,
      System.Reachable (exposed fourReplicas 1 none) (CarriesGenuine fourReplicas) r ∧
      (r.committed = [(chainLink 0).2] ∧ r.genericQc = (chainLink 3).1) := by
    refine System.exists_reaches_of_exec [.start, .dispatch (chainProposal 0),
      .dispatch (chainProposal 1), .dispatch (chainProposal 2),
      .dispatch (chainProposal 3)] ?_
    decide +kernel
  obtain ⟨r, hr, hcommitted, hgeneric⟩ := hrun
  exact ⟨r, hr, hcommitted, hgeneric, (genuine_of_reachable hr).1⟩

/-- The leader proposes a node with the genesis certificate in the message and
an unsigned certificate for view 5 in the node. -/
def forgedProposal : Msg String :=
  (new 0 none).proposalMsg 1
    { leafOf genesisQc "x" 1 with justify := some ⟨.generic, 5, genesisHash, []⟩ } genesisQc

/-- **A certificate that nobody signed.**  The replica adopts the certificate of
the node, which it has not checked. -/
theorem exists_not_genuine :
    ∃ r : ChainedReplica String,
      System.Reachable (exposed fourReplicas 1 none) System.anyStep r ∧
      ¬ r.genericQc.Genuine fourReplicas := by
  refine System.exists_reaches_of_exec [.start, .dispatch forgedProposal] ?_
  decide +kernel

end Runs

end ChainedReplica
end HotStuff
end DistributedConsensus
