import DistributedConsensus.HotStuff.ReplicaSteps

/-!
# Basic HotStuff: a replica makes up no signatures

`Holds K r` says that every signature a replica stores satisfies `K`, and that
every signature in its outgoing messages satisfies `K` or is a vote the replica
has just signed.  Every handler preserves this, whatever `K` is, as long as the
signatures of the incoming message satisfy it.
-/

namespace DistributedConsensus
namespace HotStuff

open Foundations

namespace Replica

variable {Cmd : Type} [Application Cmd]

/-- The stored signatures satisfy `K`; those in outgoing messages satisfy `K`
or are fresh votes. -/
structure Holds (K : Sig → Prop) (r : Replica Cmd) : Prop where
  tree : ∀ b ∈ r.tree.nodes, b.All K
  lockedQc : r.lockedQc.All K
  prepareQc : r.prepareQc.All K
  votes : ∀ d ∈ r.votes.values, ∀ v ∈ d.values, v.All K
  newView : ∀ d ∈ r.newView.values, ∀ qc ∈ d.values, qc.All K
  highQc : ∀ qc ∈ r.highQc.values, qc.All K
  deferred : ∀ m ∈ r.deferred, m.All K
  outbox : ∀ p ∈ r.outbox, p.2.All (fun s => K s ∨ s ∈ votesOf r.outbox)

variable {K : Sig → Prop} {r : Replica Cmd}

theorem holds_new (id : Nat) (sm : Option (Application.State Cmd)) :
    Holds K (new id sm) where
  tree := by
    intro b hb s hs
    simp only [new, Tree.new, List.mem_singleton] at hb
    subst hb
    simp [Node.allSigs, genesis] at hs
  lockedQc := genesisQc_all
  prepareQc := genesisQc_all
  votes := by simp [new]
  newView := by simp [new]
  highQc := by simp [new]
  deferred := by simp [new]
  outbox := by simp [new]

theorem Holds.mono
    {K' : Sig → Prop}
    (hsub : ∀ s, K s → K' s)
    (h : Holds K r) :
    Holds K' r where
  tree b hb s hs := hsub s (h.tree b hb s hs)
  lockedQc := h.lockedQc.mono hsub
  prepareQc := h.prepareQc.mono hsub
  votes d hd v hv s hs := hsub s (h.votes d hd v hv s hs)
  newView d hd qc hqc := (h.newView d hd qc hqc).mono hsub
  highQc qc hqc := (h.highQc qc hqc).mono hsub
  deferred m hm s hs := hsub s (h.deferred m hm s hs)
  outbox p hp s hs := (h.outbox p hp s hs).imp_left (hsub s)

theorem Holds.outbox_append
    {out : List (Int × Msg Cmd)}
    (h : Holds K r)
    (hout : ∀ p ∈ out, p.2.All (fun s => K s ∨ s ∈ votesOf out)) :
    Holds K { r with outbox := r.outbox ++ out } where
  tree := h.tree
  lockedQc := h.lockedQc
  prepareQc := h.prepareQc
  votes := h.votes
  newView := h.newView
  highQc := h.highQc
  deferred := h.deferred
  outbox := by
    intro p hp s hs
    rw [votesOf_append, List.mem_append]
    rcases List.mem_append.mp hp with hp | hp
    · exact (h.outbox p hp s hs).imp_right Or.inl
    · exact (hout p hp s hs).imp_right Or.inr

theorem Holds.send
    {m : Msg Cmd}
    (h : Holds K r)
    (dst : Int)
    (hm : m.All K) :
    Holds K (r.send dst m) := by
  refine h.outbox_append ?_
  intro p hp s hs
  rw [List.mem_singleton] at hp
  subst hp
  exact Or.inl (hm s hs)

theorem Holds.broadcast
    {m : Msg Cmd}
    (cfg : Config)
    (h : Holds K r)
    (hm : m.All K) :
    Holds K (r.broadcast cfg m) := by
  refine h.outbox_append ?_
  intro p hp s hs
  obtain ⟨i, _, rfl⟩ := List.mem_map.mp hp
  exact Or.inl (hm s hs)

theorem Holds.sendVote
    {node : Node Cmd}
    (h : Holds K r)
    (cfg : Config) (t : MsgType) (v : Int)
    (hnode : node.All K) :
    Holds K (r.sendVote cfg t v node) := by
  refine h.outbox_append ?_
  intro p hp s hs
  rw [List.mem_singleton] at hp
  subst hp
  simp only [voteMsg, Msg.allSigs, Payload.allSigs, Option.elim_some, Option.elim_none,
    List.append_nil, List.mem_append, List.mem_singleton] at hs
  rcases hs with rfl | hs
  · right
    simp [votesOf, voteMsg]
  · exact Or.inl (hnode s hs)

theorem Holds.raise (h : Holds K r) : Holds K r.raise := { h with }

theorem Holds.armTimer (h : Holds K r) (cfg : Config) : Holds K (r.armTimer cfg) :=
  { h with }

theorem Holds.advanceFrom
    (h : Holds K r)
    (cfg : Config) (v : Int) :
    Holds K (r.advanceFrom cfg v) := by
  unfold Replica.advanceFrom
  split
  case isTrue => exact h
  case isFalse =>
    refine Holds.armTimer ?_ cfg
    refine Holds.send ?_ _ ?_
    · exact { h with }
    · exact Msg.all_of_justify h.prepareQc rfl rfl rfl rfl

theorem Holds.syncView (h : Holds K r) (cfg : Config) (v : Int) :
    Holds K (r.syncView cfg v) :=
  { h with }

theorem Holds.addNode
    {b : Node Cmd}
    (h : Holds K r)
    (hb : b.All K) :
    Holds K { r with tree := r.tree.add b } := by
  refine { h with tree := ?_ }
  intro x hx
  rcases Tree.mem_nodes_add hx with rfl | hx
  · exact hb
  · exact h.tree x hx

/-- A proposal carries only the signatures of its certificate. -/
theorem proposalMsg_all
    {v : Int} {parent : Digest} {cmd : Cmd} {qc : QC}
    (hqc : qc.All K) :
    (r.proposalMsg v (createLeaf parent cmd v) qc).All K := by
  intro s hs
  simp only [proposalMsg, createLeaf, Msg.allSigs, Node.allSigs, Payload.allSigs,
    Option.elim_some, Option.elim_none, List.append_nil, List.nil_append] at hs
  exact hqc s hs

theorem Holds.tryPropose
    (h : Holds K r)
    (cfg : Config) (v : Int) :
    Holds K (r.tryPropose cfg v) := by
  obtain ⟨pending, keys, heq | ⟨high, cmd, hhigh, heq⟩⟩ := r.tryPropose_cases cfg v
  · rw [heq]
    exact { h with }
  · have hqc := h.highQc high (Dict.mem_values_of_get? hhigh)
    have hleaf : (createLeaf high.nodeHash cmd v : Node Cmd).All K := by
      intro s hs
      simp [createLeaf, Node.allSigs] at hs
    rw [heq]
    refine Holds.broadcast cfg ?_ (proposalMsg_all hqc)
    exact { h.addNode hleaf with }

theorem Holds.submit
    (h : Holds K r)
    (cfg : Config) (cmd : Cmd) :
    Holds K (r.submit cfg cmd) := by
  unfold Replica.submit
  split
  case isTrue => exact h
  case isFalse =>
    refine Holds.tryPropose ?_ cfg _
    exact { h with }

variable {m : Msg Cmd}

/-- The tally of the view keeps authentic certificates. -/
theorem Holds.newViewWith
    (h : Holds K r)
    (hm : m.All K) :
    ∀ qc ∈ (r.newViewWith m).values, qc.All K := by
  intro qc hqc
  rcases Dict.mem_values_set hqc with rfl | hold
  · cases hjustify : m.justify with
    | none => exact genesisQc_all
    | some qc => exact hm.justify hjustify
  · rcases r.newView.getD_mem_values_or (m.viewNumber + 1) Dict.empty with hd | hd
    · exact h.newView _ hd qc hold
    · rw [hd] at hold
      cases hold

theorem Holds.onNewView
    (h : Holds K r)
    (cfg : Config)
    (hm : m.All K) :
    Holds K (r.onNewView cfg m) := by
  have htally := h.newViewWith hm
  have hview : ∀ d ∈ (r.newView.set (m.viewNumber + 1) (r.newViewWith m)).values,
      ∀ qc ∈ d.values, qc.All K := by
    intro d hd
    rcases Dict.mem_values_set hd with rfl | hold
    · exact htally
    · exact h.newView d hold
  rcases onNewView_cases cfg r m with heq | heq | ⟨high, hmax, heq⟩ <;> rw [heq]
  · exact h
  · exact { h with newView := hview }
  · refine Holds.tryPropose ?_ cfg _
    refine { h with newView := hview, highQc := ?_ }
    intro qc hqc
    rcases Dict.mem_values_set hqc with rfl | hold
    · exact htally _ (mem_of_maxBy hmax)
    · exact h.highQc qc hold

/-- The votes with an authentic vote are authentic. -/
theorem Holds.votesWith
    (h : Holds K r)
    (hm : m.All K)
    (rid : Int) (node : Node Cmd) :
    ∀ v ∈ (r.votesWith m rid node).values, v.All K := by
  intro v hv
  rcases Dict.mem_values_set hv with rfl | hold
  · exact hm
  · rcases r.votes.getD_mem_values_or (m.type, m.viewNumber, node.hash) Dict.empty with hd | hd
    · exact h.votes _ hd v hold
    · rw [hd] at hold
      cases hold

/-- A tally keeps the signatures and hands out only recorded votes. -/
theorem Holds.tally
    (h : Holds K r)
    (cfg : Config)
    (hm : m.All K) :
    Holds K (r.tally cfg m).2 ∧
      ∀ votes, (r.tally cfg m).1 = some votes → ∀ v ∈ votes, v.All K := by
  rcases tally_cases cfg r m with heq | heq | ⟨rid, sig, node, -, htally⟩
  · rw [heq]
    exact ⟨h, by simp⟩
  · rw [heq]
    exact ⟨h.raise, by simp⟩
  · have hvotes : ∀ d ∈ (r.votes.set (m.type, m.viewNumber, node.hash)
        (r.votesWith m rid node)).values, ∀ v ∈ d.values, v.All K := by
      intro d hd
      rcases Dict.mem_values_set hd with rfl | hold
      · exact h.votesWith hm rid node
      · exact h.votes d hold
    rcases htally with ⟨-, heq⟩ | ⟨-, heq⟩ <;> rw [heq]
    · refine ⟨{ h with votes := hvotes }, ?_⟩
      intro votes hsome
      cases hsome
      exact h.votesWith hm rid node
    · exact ⟨{ h with votes := hvotes }, by simp⟩

theorem phaseMsg_all
    {t : MsgType} {v : Int} {qc : QC}
    (hqc : qc.All K) :
    (r.phaseMsg t v qc).All K :=
  Msg.all_of_justify hqc rfl rfl rfl rfl

theorem Holds.onPrepareVote
    (h : Holds K r)
    (cfg : Config)
    (hm : m.All K) :
    Holds K (r.onPrepareVote cfg m) := by
  obtain ⟨htally, hvotes⟩ := h.tally cfg hm
  rcases onPrepareVote_cases cfg r m with heq | heq | ⟨votes, qc, qcs, hsome, hqc, heq⟩ <;>
    rw [heq]
  · exact htally
  · exact htally.raise
  · have hall := QC.All.of_buildQc (hvotes votes hsome) hqc
    refine Holds.broadcast cfg ?_ (phaseMsg_all hall)
    exact { htally with prepareQc := hall }

theorem Holds.onGenericVote
    (h : Holds K r)
    (cfg : Config)
    (hm : m.All K) :
    Holds K (r.onGenericVote cfg m) := by
  obtain ⟨htally, hvotes⟩ := h.tally cfg hm
  rcases onGenericVote_cases cfg r m with heq | heq | ⟨votes, qc, t, qcs, hsome, hqc, heq⟩ <;>
    rw [heq]
  · exact htally
  · exact htally.raise
  · have hall := QC.All.of_buildQc (hvotes votes hsome) hqc
    refine Holds.broadcast cfg ?_ (phaseMsg_all hall)
    exact { htally with }

/-- A request carries no signatures. -/
theorem Holds.requestSync
    (h : Holds K r)
    (nodeHash : Digest) (peer : Int) :
    Holds K (r.requestSync nodeHash peer) := by
  refine h.send peer ?_
  intro s hs
  simp [Msg.allSigs, Payload.allSigs] at hs

theorem Holds.onPrepare
    (h : Holds K r)
    (cfg : Config)
    (hm : m.All K) :
    Holds K (r.onPrepare cfg m) := by
  have hstore : ∀ node, m.node = some node → Holds K (r.storeProposal m node) :=
    fun node hnode => { h.addNode (hm.node hnode) with }
  rcases onPrepare_cases cfg r m with heq | heq |
    ⟨node, qc, -, hnode, -, -, heq | heq | ⟨parent, -, -, -, heq⟩⟩ <;> rw [heq]
  · exact h
  · exact h.raise
  · exact (hstore node hnode).requestSync _ _
  · exact hstore node hnode
  · exact (hstore node hnode).sendVote cfg _ _ (hm.node hnode)

theorem Holds.onPreCommit
    (h : Holds K r)
    (cfg : Config)
    (hm : m.All K) :
    Holds K (r.onPreCommit cfg m) := by
  rcases onPreCommit_cases cfg r m with heq | ⟨qc, hacc, hset⟩
  · rw [heq]
    exact h
  · have hkept : Holds K { r with prepareQc := qc } :=
      { h with prepareQc := hm.justify hacc.justify }
    rcases hset with heq | ⟨node, hnode, heq⟩ <;> rw [heq]
    · exact hkept
    · exact hkept.sendVote cfg _ _ (h.tree node (Tree.mem_nodes_of_get hnode))

theorem Holds.onCommit
    (h : Holds K r)
    (cfg : Config)
    (hm : m.All K) :
    Holds K (r.onCommit cfg m) := by
  rcases onCommit_cases cfg r m with heq | ⟨qc, node, hacc, hnode, heq⟩ <;> rw [heq]
  · exact h
  · have hlocked : Holds K { r with lockedQc := qc } :=
      { h with lockedQc := hm.justify hacc.justify }
    exact hlocked.sendVote cfg _ _ (h.tree node (Tree.mem_nodes_of_get hnode))

theorem Holds.execute (h : Holds K r) (b : Node Cmd) : Holds K (r.execute b) := by
  obtain ⟨sm, committed, executed, keys, replies, heq⟩ := r.execute_cases b
  rw [heq]
  exact { h with }

theorem Holds.leaveDecided
    (h : Holds K r)
    (cfg : Config) (m : Msg Cmd) :
    Holds K (r.leaveDecided cfg m) := by
  unfold Replica.leaveDecided
  split
  case isTrue => exact h
  case isFalse =>
    refine Holds.advanceFrom ?_ cfg _
    exact { h with }

theorem Holds.onDecide
    (h : Holds K r)
    (cfg : Config)
    (hm : m.All K) :
    Holds K (r.onDecide cfg m) := by
  rcases onDecide_cases cfg r m with heq | ⟨qc, -, ⟨hash, heq⟩ | heq | ⟨b, -, -, heq⟩⟩ <;> rw [heq]
  · exact h
  · refine { h.requestSync hash m.sender with deferred := ?_ }
    intro x hx
    rcases List.mem_append.mp hx with hx | hx
    · exact h.deferred x hx
    · rw [List.mem_singleton] at hx
      subst hx
      exact hm
  · exact h.leaveDecided cfg m
  · exact Holds.leaveDecided (h.execute b) cfg m

theorem Holds.foldl_onDecide
    (h : Holds K r)
    (cfg : Config) {ms : List (Msg Cmd)}
    (hms : ∀ x ∈ ms, x.All K) :
    Holds K (ms.foldl (Replica.onDecide cfg) r) := by
  induction ms generalizing r with
  | nil => exact h
  | cons x ms ih =>
      refine ih (h.onDecide cfg (hms x List.mem_cons_self)) ?_
      exact fun y hy => hms y (List.mem_cons_of_mem _ hy)

theorem Holds.onTimeout (h : Holds K r) (cfg : Config) (v : Int) :
    Holds K (r.onTimeout cfg v) := by
  unfold Replica.onTimeout
  split
  case isTrue => exact h
  case isFalse =>
    refine Holds.advanceFrom ?_ cfg v
    exact { h with }

theorem Holds.onSyncReq (h : Holds K r) (m : Msg Cmd) :
    Holds K (r.onSyncReq m) := by
  rcases onSyncReq_cases r m with heq | heq | ⟨hash, heq⟩ <;> rw [heq]
  · exact h
  · exact h.raise
  · refine h.send _ ?_
    intro s hs
    simp only [Msg.allSigs, Payload.allSigs, Option.elim_none, List.nil_append,
      List.mem_flatMap] at hs
    obtain ⟨b, hb, hs⟩ := hs
    exact h.tree b (Tree.mem_branch hb).1 s hs

theorem Holds.addNodes
    (h : Holds K r)
    {chain : List (Node Cmd)}
    (hchain : ∀ b ∈ chain, b.All K) :
    Holds K { r with tree := chain.foldl Tree.add r.tree } := by
  induction chain generalizing r with
  | nil => exact h
  | cons b chain ih =>
      refine ih (h.addNode (hchain b List.mem_cons_self)) ?_
      exact fun x hx => hchain x (List.mem_cons_of_mem _ hx)

theorem Holds.onSyncResp
    (h : Holds K r)
    (cfg : Config)
    (hm : m.All K) :
    Holds K (r.onSyncResp cfg m) := by
  rcases onSyncResp_cases cfg r m with heq | ⟨chain, hchain, heq⟩ <;> rw [heq]
  · exact h.raise
  · have hnodes : ∀ b ∈ chain, b.All K := by
      rcases hchain with hchain | rfl
      · exact hm.nodes hchain
      · simp
    refine Holds.foldl_onDecide ?_ cfg h.deferred
    exact { h.addNodes hnodes with deferred := by simp }

theorem Holds.dispatch
    (h : Holds K r)
    (cfg : Config)
    (hm : m.All K) :
    Holds K (r.dispatch cfg m) := by
  obtain ⟨s, hs, -, hhandled⟩ := dispatch_handled cfg r m
  have hsync : Holds K s := by
    rcases hs with rfl | ⟨-, rfl⟩
    · exact h
    · exact h.syncView cfg _
  generalize r.dispatch cfg m = r' at hhandled ⊢
  cases hhandled with
  | newView => exact hsync.onNewView cfg hm
  | prepareVote => exact hsync.onPrepareVote cfg hm
  | prepare => exact hsync.onPrepare cfg hm
  | genericVote => exact hsync.onGenericVote cfg hm
  | preCommit => exact hsync.onPreCommit cfg hm
  | commit => exact hsync.onCommit cfg hm
  | decide => exact hsync.onDecide cfg hm
  | syncReq => exact hsync.onSyncReq m
  | syncResp => exact hsync.onSyncResp cfg hm
  | ignored => exact hsync

/-- **No made-up signatures.**  A step stores and sends only signatures that
were stored before, arrived with the input, or are votes of this step. -/
theorem Holds.step
    {cfg : Config} {r' : Replica Cmd} {i : Input Cmd}
    (h : Holds K r)
    (hi : ∀ m, i = .dispatch m → m.All K)
    (hstep : r.step cfg i = some r') :
    Holds K r' := by
  have hclear : Holds K { r with outbox := [], replies := [] } :=
    { h with outbox := by simp }
  cases occurs_of_step hstep with
  | start =>
      refine Holds.advanceFrom ?_ cfg 0
      exact { hclear with }
  | dispatch m => exact hclear.dispatch cfg (hi m rfl)
  | submit cmd => exact hclear.submit cfg cmd
  | timeout view =>
      refine Holds.onTimeout ?_ cfg view
      exact { hclear with }
  | stop => exact { hclear with }

end Replica
end HotStuff
end DistributedConsensus
