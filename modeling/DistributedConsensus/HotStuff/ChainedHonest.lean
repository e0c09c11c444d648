import DistributedConsensus.HotStuff.ChainedVoting

/-!
# Chained HotStuff: traffic among correct replicas

When all replicas are correct, every message in the network has one of three
shapes: a NEW-VIEW message with a certificate of its sender, a proposal whose
node carries the same certificate as the message, or a signed vote.  A leader
proposes at most once per view.  `Honest` collects these facts together with
what a replica stores; it refers to the messages sent before the current step
and those in the outbox.
-/

namespace DistributedConsensus
namespace HotStuff

open Foundations

variable {Cmd : Type}

/-- The message is a proposal. -/
def Msg.IsProposal (m : Msg Cmd) : Prop := m.type = .generic ∧ m.partialSig = none

/-- The node was proposed. -/
def Proposed (S : List (Int × Msg Cmd)) (b : Node Cmd) : Prop :=
  ∃ p ∈ S, p.2.IsProposal ∧ p.2.node = some b

/-- The genesis certificate, or one with authentic signatures. -/
def GoodQc (cfg : Config) (S : List (Int × Msg Cmd)) (qc : QC) : Prop :=
  qc = genesisQc ∨
    qc.sigs ≠ [] ∧ qc.All (Authentic (∅ : Finset (Fin cfg.n)) S)

/-- The messages that correct replicas send. -/
inductive Shape (cfg : Config) (S : List (Int × Msg Cmd)) (m : Msg Cmd) : Prop
  | newView (qc : QC) :
      m.type = .newView → 0 ≤ m.viewNumber → m.justify = some qc → GoodQc cfg S qc →
      Shape cfg S m
  | proposal (qc : QC) (cmd : Cmd) :
      m.IsProposal → m.sender = cfg.leader m.viewNumber → 1 ≤ m.viewNumber →
      m.justify = some qc → GoodQc cfg S qc →
      m.node = some (ChainedReplica.leafOf qc cmd m.viewNumber) →
      Shape cfg S m
  | vote (p : Int × Sig) :
      m.type = .generic → m.partialSig = some p → 1 ≤ m.viewNumber →
      Authentic (∅ : Finset (Fin cfg.n)) S p.2 →
      Shape cfg S m

section Growth

variable {cfg : Config} {S out : List (Int × Msg Cmd)}

theorem Proposed.append
    {b : Node Cmd}
    (h : Proposed S b) :
    Proposed (S ++ out) b := by
  obtain ⟨p, hp, hrest⟩ := h
  exact ⟨p, List.mem_append_left _ hp, hrest⟩

/-- A proposal of a longer list is old or new. -/
theorem proposed_append
    {b : Node Cmd} :
    Proposed (S ++ out) b ↔ Proposed S b ∨ Proposed out b := by
  simp only [Proposed, List.mem_append, or_and_right, exists_or]

theorem GoodQc.append
    {qc : QC}
    (h : GoodQc cfg S qc) :
    GoodQc cfg (S ++ out) qc :=
  h.imp_right fun ⟨hne, hall⟩ => ⟨hne, hall.mono fun _ hs => hs.mono⟩

theorem Shape.append
    {m : Msg Cmd}
    (h : Shape cfg S m) :
    Shape cfg (S ++ out) m := by
  cases h with
  | newView qc htype hview hqc hgood => exact .newView qc htype hview hqc hgood.append
  | proposal qc cmd hprop hsender hview hqc hgood hnode =>
      exact .proposal qc cmd hprop hsender hview hqc hgood.append hnode
  | vote p htype hsig hview hauth => exact .vote p htype hsig hview hauth.mono

end Growth

variable [Application Cmd]

/-- A replica between two steps. -/
def ChainedReplica.settled (r : ChainedReplica Cmd) : ChainedReplica Cmd :=
  { r with outbox := [] }

/-- What a correct replica stores. -/
structure Stored (cfg : Config) (S : List (Int × Msg Cmd)) (r : ChainedReplica Cmd) :
    Prop where
  tree : ∀ b ∈ r.tree.nodes, b = genesis ∨ Proposed S b
  lockedNode : r.lockedNode = genesis ∨ Proposed S r.lockedNode
  genericQc : GoodQc cfg S r.genericQc
  newView : ∀ d ∈ r.newView.values, ∀ qc ∈ d.values, GoodQc cfg S qc
  votes : ∀ d ∈ r.votes.values, ∀ v ∈ d.values, ∃ p, v.partialSig = some p ∧
    Authentic (∅ : Finset (Fin cfg.n)) S p.2

/-- What a correct replica stores and sends, and what it may rely on. -/
structure Honest (cfg : Config) (sent : List (Int × Msg Cmd))
    (r : ChainedReplica Cmd) : Prop where
  shape : ∀ p ∈ sent ++ r.outbox, Shape cfg (sent ++ r.outbox) p.2
  unique : ∀ b b', Proposed (sent ++ r.outbox) b → Proposed (sent ++ r.outbox) b' →
    b.viewNumber = b'.viewNumber → b = b'
  own : ∀ b, Proposed r.outbox b → cfg.leader b.viewNumber = r.id
  proposed : ∀ b, Proposed (sent ++ r.outbox) b → cfg.leader b.viewNumber = r.id →
    b.viewNumber ∈ r.proposed
  stored : Stored cfg (sent ++ r.outbox) r
  view : 0 ≤ r.view

variable {cfg : Config} {sent : List (Int × Msg Cmd)} {r : ChainedReplica Cmd}

theorem Stored.append
    {S out : List (Int × Msg Cmd)}
    (h : Stored cfg S r) :
    Stored cfg (S ++ out) r where
  tree b hb := (h.tree b hb).imp_right Proposed.append
  lockedNode := h.lockedNode.imp_right Proposed.append
  genericQc := h.genericQc.append
  newView d hd qc hqc := (h.newView d hd qc hqc).append
  votes d hd v hv := by
    obtain ⟨p, hp, hauth⟩ := h.votes d hd v hv
    exact ⟨p, hp, hauth.mono⟩

omit [Application Cmd] in
theorem not_proposed_nil (b : Node Cmd) : ¬ Proposed [] b := by
  rintro ⟨p, hp, _⟩
  cases hp

/-- A new replica is honest. -/
theorem honest_new (cfg : Config) (id : Nat) (sm : Option (Application.State Cmd)) :
    Honest cfg [] (ChainedReplica.new id sm) where
  shape p hp := by cases hp
  unique b _ hb := absurd hb (not_proposed_nil b)
  own b hb := absurd hb (not_proposed_nil b)
  proposed b hb := absurd hb (not_proposed_nil b)
  stored := {
    tree := by
      intro b hb
      left
      simpa [ChainedReplica.new, Tree.new] using hb
    lockedNode := Or.inl rfl
    genericQc := Or.inl rfl
    newView := by
      intro d hd
      cases hd
    votes := by
      intro d hd
      cases hd }
  view := le_refl 0

namespace Honest

/-- Sending messages that are not proposals. -/
theorem sendOther
    {out : List (Int × Msg Cmd)}
    (h : Honest cfg sent r)
    (hshape : ∀ p ∈ out, Shape cfg (sent ++ (r.outbox ++ out)) p.2)
    (hother : ∀ p ∈ out, ¬ p.2.IsProposal) :
    Honest cfg sent { r with outbox := r.outbox ++ out } := by
  have hnone : ∀ b, ¬ Proposed out b := by
    rintro b ⟨p, hp, hprop, _⟩
    exact hother p hp hprop
  have hold : ∀ b, Proposed (sent ++ (r.outbox ++ out)) b →
      Proposed (sent ++ r.outbox) b := by
    intro b hb
    rw [← List.append_assoc, proposed_append] at hb
    exact hb.resolve_right (hnone b)
  constructor
  · intro p hp
    rw [← List.append_assoc] at hp
    rcases List.mem_append.mp hp with hp | hp
    · have hgrow : Shape cfg (sent ++ r.outbox ++ out) p.2 := (h.shape p hp).append
      rwa [List.append_assoc] at hgrow
    · exact hshape p hp
  · exact fun b b' hb hb' => h.unique b b' (hold b hb) (hold b' hb')
  · intro b hb
    exact h.own b ((proposed_append.mp hb).resolve_right (hnone b))
  · exact fun b hb => h.proposed b (hold b hb)
  · have hgrow : Stored cfg (sent ++ r.outbox ++ out) r := h.stored.append
    rw [List.append_assoc] at hgrow
    exact { hgrow with }
  · exact h.view

/-- Proposing a leaf on a good certificate, for the first time in the view. -/
theorem propose
    {v : Int} {qc : QC}
    (h : Honest cfg sent r)
    (cmd : Cmd)
    (hn : 0 < cfg.n)
    (hfirst : v ∉ r.proposed)
    (hleader : cfg.leader v = r.id)
    (hview : 1 ≤ v)
    (hqc : GoodQc cfg (sent ++ r.outbox) qc) :
    Honest cfg sent (ChainedReplica.broadcast cfg
      { r with
        tree := r.tree.add (ChainedReplica.leafOf qc cmd v)
        proposed := r.proposed.insert v }
      (r.proposalMsg v (ChainedReplica.leafOf qc cmd v) qc)) := by
  -- The outbox grows by copies of one proposal.
  obtain ⟨out, hout, hcopies⟩ : ∃ out : List (Int × Msg Cmd),
      (List.range cfg.n).map (fun (i : Nat) => ((i : Int),
        r.proposalMsg v (ChainedReplica.leafOf qc cmd v) qc)) = out ∧
      ∀ p ∈ out, p.2 = r.proposalMsg v (ChainedReplica.leafOf qc cmd v) qc := by
    refine ⟨_, rfl, ?_⟩
    intro p hp
    obtain ⟨i, _, rfl⟩ := List.mem_map.mp hp
    rfl
  unfold ChainedReplica.broadcast
  rw [hout]
  have hnew : ∀ b, Proposed out b → b = ChainedReplica.leafOf qc cmd v := by
    rintro b ⟨p, hp, _, hnode⟩
    rw [hcopies p hp] at hnode
    exact (Option.some.inj hnode).symm
  have hcases : ∀ b, Proposed (sent ++ (r.outbox ++ out)) b →
      Proposed (sent ++ r.outbox) b ∨ b = ChainedReplica.leafOf qc cmd v := by
    intro b hb
    rw [← List.append_assoc, proposed_append] at hb
    exact hb.imp_right (hnew b)
  have hstale : ∀ b, Proposed (sent ++ r.outbox) b → b.viewNumber ≠ v := by
    intro b hb heq
    apply hfirst
    rw [← heq]
    exact h.proposed b hb (by rw [heq]; exact hleader)
  constructor
  · intro p hp
    rw [← List.append_assoc] at hp
    rcases List.mem_append.mp hp with hp | hp
    · have hgrow : Shape cfg (sent ++ r.outbox ++ out) p.2 := (h.shape p hp).append
      rwa [List.append_assoc] at hgrow
    · rw [hcopies p hp]
      have hgrow : GoodQc cfg (sent ++ r.outbox ++ out) qc := hqc.append
      rw [List.append_assoc] at hgrow
      exact Shape.proposal qc cmd ⟨rfl, rfl⟩ hleader.symm hview rfl hgrow rfl
  · intro b b' hb hb' heq
    rcases hcases b hb with hold | rfl
    · rcases hcases b' hb' with hold' | rfl
      · exact h.unique b b' hold hold' heq
      · exact absurd heq (hstale b hold)
    · rcases hcases b' hb' with hold' | rfl
      · exact absurd heq.symm (hstale b' hold')
      · rfl
  · intro b hb
    rcases proposed_append.mp hb with hb | hb
    · exact h.own b hb
    · rw [hnew b hb]
      exact hleader
  · intro b hb hb'
    rcases hcases b hb with hold | rfl
    · exact List.mem_insert_of_mem (h.proposed b hold hb')
    · exact List.mem_insert_self
  · have hgrow : Stored cfg (sent ++ r.outbox ++ out) r := h.stored.append
    rw [List.append_assoc] at hgrow
    refine { hgrow with tree := ?_ }
    intro b hb
    rcases Tree.mem_nodes_add hb with rfl | hb
    · right
      refine proposed_append.mpr (Or.inr (proposed_append.mpr (Or.inr ?_)))
      refine ⟨((0 : Nat), r.proposalMsg v (ChainedReplica.leafOf qc cmd v) qc), ?_,
        ⟨rfl, rfl⟩, rfl⟩
      rw [← hout]
      exact List.mem_map.mpr ⟨0, List.mem_range.mpr hn, rfl⟩
    · exact hgrow.tree b hb
  · exact h.view

theorem tryPropose
    {v : Int} {qc : QC}
    (h : Honest cfg sent r)
    (hn : 0 < cfg.n)
    (hview : cfg.isLeader v r.id = true → 1 ≤ v)
    (hqc : GoodQc cfg (sent ++ r.outbox) qc) :
    Honest cfg sent (r.tryPropose cfg v qc) := by
  obtain ⟨pending, keys, hcases⟩ := r.tryPropose_cases cfg v qc
  have hset : Honest cfg sent { r with pending := pending, pendingKeys := keys } :=
    { h with stored := { h.stored with } }
  rcases hcases with heq | ⟨cmd, hmay, heq⟩
  · rw [heq]
    exact hset
  · rw [heq]
    have hprop := hset.propose cmd hn hmay.fresh (by simpa [Config.isLeader] using hmay.leader)
      (hview hmay.leader) hqc
    exact { hprop with stored := { hprop.stored with } }

theorem submit
    (h : Honest cfg sent r)
    (hn : 0 < cfg.n)
    (hview : cfg.isLeader r.view r.id = true → 1 ≤ r.view)
    (cmd : Cmd) :
    Honest cfg sent (r.submit cfg cmd) := by
  unfold ChainedReplica.submit
  split
  case isTrue => exact h
  case isFalse =>
    refine tryPropose ?_ hn hview h.stored.genericQc
    exact { h with stored := { h.stored with } }

theorem armTimer (h : Honest cfg sent r) (cfg' : Config) :
    Honest cfg sent (r.armTimer cfg') :=
  { h with stored := { h.stored with } }

theorem advanceFrom
    {v : Int}
    (h : Honest cfg sent r)
    (hview : 0 ≤ v) :
    Honest cfg sent (r.advanceFrom cfg v) := by
  unfold ChainedReplica.advanceFrom
  split
  case isTrue => exact h
  case isFalse =>
    have hleft : Honest cfg sent { r with left := r.left.insert v, view := v + 1 } :=
      { h with
        stored := { h.stored with }
        view := by simp only; omega }
    refine Honest.armTimer (hleft.sendOther ?_ ?_) cfg
    · intro p hp
      rw [List.mem_singleton] at hp
      subst hp
      refine Shape.newView r.genericQc rfl hview rfl ?_
      rw [← List.append_assoc]
      exact h.stored.genericQc.append
    · intro p hp hprop
      rw [List.mem_singleton] at hp
      subst hp
      cases hprop.1

theorem onTimeout
    (h : Honest cfg sent r)
    (v : Int) :
    Honest cfg sent (r.onTimeout cfg v) := by
  unfold ChainedReplica.onTimeout
  split
  case isTrue => exact h
  case isFalse hguard =>
    push Not at hguard
    refine advanceFrom ?_ (by rw [hguard.2.1]; exact h.view)
    exact { h with stored := { h.stored with } }

variable {m : Msg Cmd}

theorem newViewWith
    {qc : QC}
    (h : Honest cfg sent r)
    (hjustify : m.justify = some qc)
    (hqc : GoodQc cfg sent qc) :
    ∀ x ∈ (r.newViewWith m).values, GoodQc cfg (sent ++ r.outbox) x := by
  intro x hx
  rcases Dict.mem_values_set hx with rfl | hold
  · rw [hjustify]
    exact hqc.append
  · rcases r.newView.getD_mem_values_or (m.viewNumber + 1) Dict.empty with hd | hd
    · exact h.stored.newView _ hd x hold
    · rw [hd] at hold
      cases hold

theorem onNewView
    (h : Honest cfg sent r)
    (hn : 0 < cfg.n)
    (hm : Shape cfg sent m)
    (htype : m.type = .newView) :
    Honest cfg sent (r.onNewView cfg m) := by
  obtain ⟨hview, qc, hjustify, hqc⟩ :
      0 ≤ m.viewNumber ∧ ∃ qc, m.justify = some qc ∧ GoodQc cfg sent qc := by
    cases hm with
    | newView qc _ hview hqc hgood => exact ⟨hview, qc, hqc, hgood⟩
    | proposal qc cmd hprop => cases htype.symm.trans hprop.1
    | vote p htype' => cases htype.symm.trans htype'
  have htally := h.newViewWith hjustify hqc
  have hset : Honest cfg sent { r with
      newView := r.newView.set (m.viewNumber + 1) (r.newViewWith m) } := by
    refine { h with stored := { h.stored with newView := ?_ } }
    intro d hd
    rcases Dict.mem_values_set hd with rfl | hold
    · exact htally
    · exact h.stored.newView d hold
  rcases r.onNewView_cases cfg m with heq | ⟨-, -, s, rfl, heq | heq | ⟨high, -, hhigh, heq⟩⟩
  · rw [heq]
    exact h
  · rw [heq]
    exact hset
  · rw [heq]
    exact { hset with stored := { hset.stored with } }
  · rw [heq]
    exact hset.tryPropose hn (fun _ => by omega) (htally high hhigh)

theorem votesWith
    {rid : Int} {sig : Sig}
    (h : Honest cfg sent r)
    (hsig : m.partialSig = some (rid, sig))
    (hauth : Authentic (∅ : Finset (Fin cfg.n)) sent sig)
    (node : Node Cmd) :
    ∀ v ∈ (r.votesWith m rid node).values, ∃ p, v.partialSig = some p ∧
      Authentic (∅ : Finset (Fin cfg.n)) (sent ++ r.outbox) p.2 := by
  intro v hv
  rcases Dict.mem_values_set hv with rfl | hold
  · exact ⟨_, hsig, hauth.mono⟩
  · rcases r.votes.getD_mem_values_or (m.viewNumber, node.hash) Dict.empty with hd | hd
    · exact h.stored.votes _ hd v hold
    · rw [hd] at hold
      cases hold

/-- A quorum of authentic votes makes a good certificate. -/
theorem goodQc_of_buildQc
    {votes : List (Msg Cmd)} {qc : QC} {S : List (Int × Msg Cmd)}
    (hquorum : 0 < cfg.quorum)
    (hvotes : ∀ v ∈ votes, ∃ p, v.partialSig = some p ∧
      Authentic (∅ : Finset (Fin cfg.n)) S p.2)
    (hqc : buildQc votes cfg.quorum = some qc) :
    GoodQc cfg S qc := by
  right
  constructor
  · refine sigs_ne_nil_of_buildQc hqc hquorum fun v hv => ?_
    obtain ⟨p, hp, _⟩ := hvotes v hv
    exact ⟨p, hp⟩
  · intro x hx
    obtain ⟨p, hp, rfl⟩ := List.mem_map.mp hx
    obtain ⟨v, hv, hpv⟩ := mem_sigs_buildQc hqc hp
    obtain ⟨p', hp', hauth⟩ := hvotes v hv
    cases hpv.symm.trans hp'
    exact hauth

theorem onGenericVote
    {rid : Int} {sig : Sig}
    (h : Honest cfg sent r)
    (hn : 0 < cfg.n)
    (hquorum : 0 < cfg.quorum)
    (hm : Shape cfg sent m)
    (htype : m.type = .generic)
    (hsig : m.partialSig = some (rid, sig)) :
    Honest cfg sent (r.onGenericVote cfg m rid sig) := by
  obtain ⟨hview, hauth⟩ : 1 ≤ m.viewNumber ∧
      Authentic (∅ : Finset (Fin cfg.n)) sent sig := by
    cases hm with
    | newView qc htype' => cases htype.symm.trans htype'
    | proposal qc cmd hprop => cases hsig.symm.trans hprop.2
    | vote p _ hp hview hauth =>
        cases hsig.symm.trans hp
        exact ⟨hview, hauth⟩
  rcases r.onGenericVote_cases cfg m rid sig with
    heq | heq | ⟨node, formed, qcs, s, -, rfl, hcases⟩
  · rw [heq]
    exact h
  · rw [heq]
    exact { h with stored := { h.stored with } }
  · have hnew := h.votesWith hsig hauth node
    have hset : Honest cfg sent { r with
        votes := r.votes.set (m.viewNumber, node.hash) (r.votesWith m rid node)
        formed := formed
        qcs := qcs } := by
      refine { h with stored := { h.stored with votes := ?_ } }
      intro d hd
      rcases Dict.mem_values_set hd with rfl | hold
      · exact hnew
      · exact h.stored.votes d hold
    rcases hcases with heq | heq | ⟨qc, -, -, hqc, heq⟩
    · rw [heq]
      exact hset
    · rw [heq]
      exact { hset with stored := { hset.stored with } }
    · rw [heq]
      exact hset.tryPropose hn (fun _ => by omega) (goodQc_of_buildQc hquorum hnew hqc)

/-- The lock is taken from the tree. -/
theorem lockOn_proposed
    {S : List (Int × Msg Cmd)} {o : Option (Node Cmd)}
    (h : Stored cfg S r)
    (ho : ∀ b1, o = some b1 → b1 ∈ r.tree.nodes) :
    ChainedReplica.lockOn r.lockedNode o = genesis ∨
      Proposed S (ChainedReplica.lockOn r.lockedNode o) := by
  cases o with
  | none => exact h.lockedNode
  | some b1 =>
      simp only [ChainedReplica.lockOn]
      split
      case isTrue => exact h.tree b1 (ho b1 rfl)
      case isFalse => exact h.lockedNode

theorem update
    {bStar : Node Cmd}
    (h : Honest cfg sent r)
    (hqc : ∀ qc, bStar.justify = some qc → GoodQc cfg (sent ++ r.outbox) qc) :
    Honest cfg sent (r.update bStar) := by
  rcases r.update_cases bStar with ⟨-, heq | heq⟩ | ⟨qc, hjustify, heq⟩
  · rw [heq]
    exact h
  · rw [heq]
    exact { h with stored := { h.stored with } }
  · have hgood : GoodQc cfg (sent ++ r.outbox)
        (if r.genericQc.viewNumber < qc.viewNumber then qc else r.genericQc) := by
      split
      case isTrue => exact hqc qc hjustify
      case isFalse => exact h.stored.genericQc
    have hlock := lockOn_proposed (o := ChainedReplica.twoChain r.tree bStar) h.stored
      fun b1 hb1 => by
        obtain ⟨b2, -, h1⟩ := Option.bind_eq_some_iff.mp hb1
        exact ChainedReplica.mem_nodes_of_justified h1
    obtain ⟨sm, committed, executed, keys, replies, hexec⟩ :=
      ChainedReplica.foldl_executeNode_cases { r with
        genericQc := if r.genericQc.viewNumber < qc.viewNumber then qc else r.genericQc
        lockedNode := ChainedReplica.lockOn r.lockedNode (ChainedReplica.twoChain r.tree bStar) }
        (ChainedReplica.newlyCommitted r.tree r.unexecuted bStar)
    rw [heq, hexec]
    exact { h with stored := { h.stored with
      genericQc := hgood
      lockedNode := hlock } }

/-- A proposed node is stored and its view entered. -/
theorem storeProposal
    {b : Node Cmd}
    (h : Honest cfg sent r)
    (hb : Proposed sent b) :
    Honest cfg sent (r.storeProposal cfg m b) := by
  have htree : ∀ b' ∈ (r.tree.add b).nodes, b' = genesis ∨ Proposed (sent ++ r.outbox) b' := by
    intro b' hb'
    rcases Tree.mem_nodes_add hb' with rfl | hold
    · exact Or.inr hb.append
    · exact h.stored.tree b' hold
  exact { h with
    stored := { h.stored with tree := htree }
    view := h.view.trans (le_max_left _ _) }

theorem vote
    {v : Int}
    (h : Honest cfg sent r)
    (hview : 1 ≤ v)
    (node : Node Cmd) (qc : QC) :
    Honest cfg sent (r.vote cfg v node qc) := by
  unfold ChainedReplica.vote
  split
  case isFalse => exact h
  case isTrue =>
    refine sendOther (r := { r with voted := r.voted.insert v })
      { h with stored := { h.stored with } } ?_ ?_
    · intro p hp
      rw [List.mem_singleton] at hp
      subst hp
      refine Shape.vote _ rfl rfl hview (authentic_of_mem_votesOf ?_)
      simp [votesOf, ChainedReplica.voteMsg]
    · intro p hp hprop
      rw [List.mem_singleton] at hp
      subst hp
      cases hprop.2

theorem onGeneric
    (h : Honest cfg sent r)
    (hm : Shape cfg sent m)
    (hmem : ∃ dst, (dst, m) ∈ sent)
    (hprop : m.IsProposal) :
    Honest cfg sent (r.onGeneric cfg m) := by
  obtain ⟨qc, cmd, hview, hqc, hnode⟩ : ∃ qc cmd, 1 ≤ m.viewNumber ∧ GoodQc cfg sent qc ∧
      m.node = some (ChainedReplica.leafOf qc cmd m.viewNumber) := by
    cases hm with
    | newView qc htype' => cases hprop.1.symm.trans htype'
    | proposal qc cmd _ _ hview _ hgood hnode => exact ⟨qc, cmd, hview, hgood, hnode⟩
    | vote p _ hp => cases hprop.2.symm.trans hp
  obtain ⟨dst, hdst⟩ := hmem
  rcases r.onGeneric_cases cfg m with heq | heq | ⟨bStar, qc', haccepts, heq⟩
  · rw [heq]
    exact h
  · rw [heq]
    exact { h with stored := { h.stored with } }
  · obtain rfl : ChainedReplica.leafOf qc cmd m.viewNumber = bStar :=
      Option.some.inj (hnode.symm.trans haccepts.node)
    have hstored := h.storeProposal (m := m) ⟨_, hdst, hprop, hnode⟩
    rw [heq]
    refine (hstored.vote hview _ qc').update ?_
    intro x hx
    cases hx
    exact hqc.append

/-- **One step of a correct replica among correct replicas.** -/
theorem step
    {r' : ChainedReplica Cmd} {i : Input Cmd}
    (h : Honest cfg sent r.settled)
    (hn : 0 < cfg.n)
    (hquorum : 0 < cfg.quorum)
    (hi : ∀ m, i = .dispatch m → ∃ dst, (dst, m) ∈ sent)
    (hsubmit : ∀ cmd, i = .submit cmd → cfg.isLeader r.view r.id = true → 1 ≤ r.view)
    (hstep : r.step cfg i = some r') :
    Honest cfg sent r' := by
  have hclear : Honest cfg sent { r with outbox := [], replies := [] } :=
    { h with stored := { h.stored with } }
  have hshape : ∀ m, i = .dispatch m → Shape cfg sent m := by
    intro m hm
    obtain ⟨dst, hdst⟩ := hi m hm
    simpa [ChainedReplica.settled] using h.shape (dst, m) (List.mem_append_left _ hdst)
  cases ChainedReplica.occurs_of_step hstep with
  | start =>
      refine advanceFrom ?_ (le_refl 0)
      exact { hclear with stored := { hclear.stored with } }
  | newView m htype => exact hclear.onNewView hn (hshape m rfl) htype
  | genericVote m rid sig htype hsig =>
      exact hclear.onGenericVote hn hquorum (hshape m rfl) htype hsig
  | generic m htype hsig => exact hclear.onGeneric (hshape m rfl) (hi m rfl) ⟨htype, hsig⟩
  | ignored m => exact hclear
  | submit cmd => exact hclear.submit hn (hsubmit cmd rfl) cmd
  | timeout v =>
      refine onTimeout ?_ v
      exact { hclear with stored := { hclear.stored with } }
  | stop => exact { hclear with stored := { hclear.stored with } }

end Honest

end HotStuff
end DistributedConsensus
