import DistributedConsensus.HotStuff.BasicVoting
import DistributedConsensus.HotStuff.Tallies

/-!
# Basic HotStuff: the log has no holes

Correct replicas name only nodes that descend from the genesis block: a proposal extends
the node of a certificate, and a certificate is for a node that was voted for.  So the
walk from a decided node, which passes no missing node, ends at the genesis block or at
an executed node, and what it executes closes the log (`log_without_holes`).
-/

namespace DistributedConsensus
namespace HotStuff

open Foundations

variable {Cmd : Type} [Application Cmd]

/-! ## Logs without holes -/

/-- The parent of every node of the log is the genesis block or comes before it. -/
def Closed (log : List (Node Cmd)) : Prop :=
  ∀ before b after, log = before ++ b :: after →
    b.parentHash = genesisHash ∨ ∃ parent ∈ before, parent.hash = b.parentHash

theorem closed_nil : Closed ([] : List (Node Cmd)) := by
  intro before b after h
  simp at h

/-- A node whose parent is logged closes the log. -/
theorem Closed.append_singleton
    {log : List (Node Cmd)} {b : Node Cmd}
    (h : Closed log)
    (hb : b.parentHash = genesisHash ∨ ∃ parent ∈ log, parent.hash = b.parentHash) :
    Closed (log ++ [b]) := by
  intro before x after heq
  rcases List.append_eq_append_iff.mp heq with ⟨rest, hbefore, hlast⟩ | ⟨rest, hlog, hlast⟩
  · cases rest with
    | nil =>
        simp only [List.nil_append, List.cons.injEq] at hlast
        rw [hbefore, List.append_nil, ← hlast.1]
        exact hb
    | cons y rest => simp at hlast
  · cases rest with
    | nil =>
        simp only [List.nil_append, List.cons.injEq] at hlast
        rw [List.append_nil] at hlog
        rw [hlast.1, ← hlog]
        exact hb
    | cons y rest =>
        simp only [List.cons_append, List.cons.injEq] at hlast
        refine h before x rest ?_
        rw [hlog, hlast.1]

/-- A hash is not the hash of its parent. -/
theorem Digest.node_ne_self (p : Digest) (c : Option String) (v : Int) :
    (.node p c v : Digest) ≠ p := by
  intro h
  have hsize := congrArg sizeOf h
  simp at hsize
  omega

/-- The parent of a rooted hash is rooted. -/
theorem Digest.Rooted.parent
    {p : Digest} {c : Option String} {v : Int}
    (h : (.node p c v : Digest).Rooted)
    (hne : (.node p c v : Digest) ≠ genesisHash) :
    p.Rooted :=
  (Digest.extends_node_iff.mp h).resolve_left (Ne.symm hne)

theorem Digest.Rooted.truthy
    {d : Digest}
    (h : d.Rooted) :
    d.truthy = true := by
  cases d with
  | absent => simp [Digest.Rooted, Digest.Extends, Digest.ancestors, genesisHash] at h
  | text s => simp [Digest.Rooted, Digest.Extends, Digest.ancestors, genesisHash] at h
  | node p c v => rfl

/-- The walk up from a node does not come back to it. -/
theorem Tree.node_notMem_branch
    {t : Tree Cmd} {keep : Digest → Bool} (p : Digest) (c : Option String) (v : Int) :
    (.node p c v : Digest) ∉ (t.branch keep p).map Node.hash := by
  intro hwalk
  obtain ⟨x, hx, hxhash⟩ := List.mem_map.mp hwalk
  obtain ⟨-, -, hext⟩ := mem_branch hx
  rw [hxhash] at hext
  have hself : (.node p c v : Digest).Extends p :=
    Digest.extends_node_iff.mpr (Or.inr (Digest.Extends.refl p))
  exact Digest.node_ne_self p c v (hself.antisymm hext)

/-- A walk that goes on and misses nothing has the parent. -/
theorem Tree.has_parent_of_firstMissing
    {t : Tree Cmd} {keep : Digest → Bool} {p : Digest} {c : Option String} {v : Int}
    (hkeep : keep (.node p c v) = true)
    (hp : p.truthy = true)
    (hmiss : t.firstMissing keep (.node p c v) = none) :
    t.has p = true ∧ t.firstMissing keep p = none := by
  have hhas : t.has p = true := by
    by_contra hnot
    rw [Bool.not_eq_true] at hnot
    simp [firstMissing, hkeep, hnot, hp] at hmiss
  exact ⟨hhas, by simpa [firstMissing, hkeep, hhas] using hmiss⟩

/-- **What a complete walk collects.**  The walk up from a rooted node that passes no
missing node closes the log, and collects nothing twice. -/
theorem Tree.closed_append_branch
    {t : Tree Cmd} {log : List (Node Cmd)} {keep : Digest → Bool} {d : Digest}
    (hkeep : ∀ h, keep h = false ↔ h = genesisHash ∨ h ∈ log.map Node.hash)
    (hlog : Closed log)
    (hnodup : (log.map Node.hash).Nodup)
    (hroot : d.Rooted)
    (hhas : t.has d = true)
    (hmiss : t.firstMissing keep d = none) :
    Closed (log ++ (t.branch keep d).reverse) ∧
      ((log ++ (t.branch keep d).reverse).map Node.hash).Nodup ∧
      (d = genesisHash ∨ d ∈ (log ++ (t.branch keep d).reverse).map Node.hash) := by
  induction d with
  | absent => cases hroot.truthy
  | text s =>
      obtain ⟨_, _, _, heq⟩ := exists_node_of_has hhas
      cases heq
  | node p c v ih =>
      cases hk : keep (.node p c v) with
      | false =>
          rw [branch_eq_nil hk]
          simp only [List.reverse_nil, List.append_nil]
          exact ⟨hlog, hnodup, (hkeep _).mp hk⟩
      | true =>
          obtain ⟨b, hb⟩ := Option.isSome_iff_exists.mp hhas
          have hhash := hash_of_get hb
          have hstop : ¬ ((.node p c v : Digest) = genesisHash ∨
              (.node p c v : Digest) ∈ log.map Node.hash) := by
            rw [← hkeep, hk]
            simp
          push Not at hstop
          have hp := hroot.parent hstop.1
          obtain ⟨hhasp, hmissp⟩ := has_parent_of_firstMissing hk hp.truthy hmiss
          obtain ⟨hclosed, hnodup', hmem⟩ := ih hp hhasp hmissp
          have hbranch : t.branch keep (.node p c v) = b :: t.branch keep p := by
            simp [branch, hb, hk]
          have hparent : b.parentHash = p := by
            simp only [Node.hash, Digest.node.injEq] at hhash
            exact hhash.1
          have hnew : b.hash ∉ (log ++ (t.branch keep p).reverse).map Node.hash := by
            rw [hhash, List.map_append, List.mem_append]
            rintro (hold | hwalk)
            · exact hstop.2 hold
            · rw [List.map_reverse, List.mem_reverse] at hwalk
              exact node_notMem_branch p c v hwalk
          rw [hbranch, List.reverse_cons, ← List.append_assoc]
          refine ⟨hclosed.append_singleton ?_, ?_, Or.inr ?_⟩
          · rw [hparent]
            rcases hmem with hgenesis | hmem
            · exact Or.inl hgenesis
            · obtain ⟨x, hx, hxhash⟩ := List.mem_map.mp hmem
              exact Or.inr ⟨x, hx, hxhash⟩
          · rw [List.map_append, List.map_singleton, ← List.concat_eq_append]
            exact List.Nodup.concat hnew hnodup'
          · rw [List.map_append, List.mem_append, ← hhash]
            exact Or.inr (by simp)

/-! ## Hashes that descend from the genesis block -/

/-- The hashes that a message names descend from the genesis block. -/
structure Msg.Rooted (m : Msg Cmd) : Prop where
  justify : ∀ qc, m.justify = some qc → qc.nodeHash.Rooted
  node : ∀ b, m.node = some b → b.hash.Rooted
  payload : ∀ chain, m.payload = .nodes chain → ∀ b ∈ chain, b.hash.Rooted

/-- A message that names no node and only a rooted certificate. -/
theorem Msg.rooted_of_justify
    {m : Msg Cmd} {qc : QC}
    (hqc : qc.nodeHash.Rooted)
    (hjustify : m.justify = some qc)
    (hnode : m.node = none)
    (hpayload : m.payload = .none) :
    m.Rooted where
  justify qc' h := by
    rw [hjustify, Option.some.injEq] at h
    rw [← h]
    exact hqc
  node b h := by simp [hnode] at h
  payload chain h := by simp [hpayload] at h

namespace Replica

/-- The hashes that a replica stores and sends descend from the genesis block. -/
structure Rooted (r : Replica Cmd) : Prop where
  tree : ∀ b ∈ r.tree.nodes, b.hash.Rooted
  prepareQc : r.prepareQc.nodeHash.Rooted
  votes : ∀ d ∈ r.votes.values, ∀ v ∈ d.values, ∃ b, v.node = some b ∧ b.hash.Rooted
  newView : ∀ d ∈ r.newView.values, ∀ qc ∈ d.values, qc.nodeHash.Rooted
  highQc : ∀ qc ∈ r.highQc.values, qc.nodeHash.Rooted
  deferred : ∀ m ∈ r.deferred, m.Rooted
  outbox : ∀ p ∈ r.outbox, p.2.Rooted

section Rooted

variable {cfg : Config} {r r' : Replica Cmd} {m : Msg Cmd}

theorem rooted_new (id : Nat) (sm : Option (Application.State Cmd)) :
    Rooted (new id sm : Replica Cmd) where
  tree := by
    intro b hb
    simp only [new, Tree.new, List.mem_singleton] at hb
    subst hb
    exact Digest.Extends.refl _
  prepareQc := Digest.Extends.refl _
  votes := by simp [new]
  newView := by simp [new]
  highQc := by simp [new]
  deferred := by simp [new]
  outbox := by simp [new]

theorem Rooted.send
    (h : Rooted r)
    (dst : Int)
    (hm : m.Rooted) :
    Rooted (r.send dst m) := by
  refine { h with outbox := ?_ }
  intro p hp
  rcases List.mem_append.mp hp with hp | hp
  · exact h.outbox p hp
  · rw [List.mem_singleton] at hp
    rw [hp]
    exact hm

theorem Rooted.broadcast
    (cfg : Config)
    (h : Rooted r)
    (hm : m.Rooted) :
    Rooted (r.broadcast cfg m) := by
  refine { h with outbox := ?_ }
  intro p hp
  rcases List.mem_append.mp hp with hp | hp
  · exact h.outbox p hp
  · obtain ⟨i, -, rfl⟩ := List.mem_map.mp hp
    exact hm

theorem Rooted.sendVote
    {node : Node Cmd}
    (h : Rooted r)
    (cfg : Config) (t : MsgType) (view : Int)
    (hnode : node.hash.Rooted) :
    Rooted (r.sendVote cfg t view node) := by
  have hm : (r.voteMsg t view node).Rooted := by
    refine ⟨(fun _ hqc => nomatch hqc), ?_, fun _ hchain => nomatch hchain⟩
    intro b hb
    cases hb
    exact hnode
  exact h.send _ hm

theorem Rooted.raise (h : Rooted r) : Rooted r.raise := { h with }

theorem Rooted.advanceFrom
    (h : Rooted r)
    (cfg : Config) (view : Int) :
    Rooted (r.advanceFrom cfg view) := by
  unfold Replica.advanceFrom
  split
  case isTrue => exact h
  case isFalse =>
    have hleft : Rooted { r with left := r.left.insert view, view := view + 1 } := { h with }
    have hsent := hleft.send (cfg.leader (view + 1)) (Msg.rooted_of_justify
      (m := { type := .newView, viewNumber := view, sender := r.id, node := none,
              justify := some r.prepareQc, partialSig := none, payload := .none })
      h.prepareQc rfl rfl rfl)
    exact { hsent with }

theorem Rooted.addNode
    {b : Node Cmd}
    (h : Rooted r)
    (hb : b.hash.Rooted) :
    Rooted { r with tree := r.tree.add b } := by
  refine { h with tree := ?_ }
  intro x hx
  rcases Tree.mem_nodes_add hx with rfl | hx
  · exact hb
  · exact h.tree x hx

/-- A leaf extends the node of its certificate. -/
theorem rooted_createLeaf
    {parent : Digest}
    (h : parent.Rooted)
    (cmd : Cmd) (view : Int) :
    (createLeaf parent cmd view).hash.Rooted :=
  Digest.extends_node_iff.mpr (Or.inr h)

theorem Rooted.tryPropose
    (h : Rooted r)
    (cfg : Config) (view : Int) :
    Rooted (r.tryPropose cfg view) := by
  obtain ⟨pending, keys, heq | ⟨high, cmd, hhigh, heq⟩⟩ := r.tryPropose_cases cfg view
  · rw [heq]
    exact { h with }
  · have hqc := h.highQc high (Dict.mem_values_of_get? hhigh)
    have hleaf := rooted_createLeaf hqc cmd view
    rw [heq]
    refine Rooted.broadcast cfg ?_ ⟨?_, ?_, fun chain hchain => nomatch hchain⟩
    · exact { h.addNode hleaf with }
    · intro qc hhigh'
      cases hhigh'
      exact hqc
    · intro b hb
      cases hb
      exact hleaf

theorem Rooted.submit
    (h : Rooted r)
    (cfg : Config) (cmd : Cmd) :
    Rooted (r.submit cfg cmd) := by
  unfold Replica.submit
  split
  case isTrue => exact h
  case isFalse =>
    refine Rooted.tryPropose ?_ cfg _
    exact { h with }

theorem Rooted.newViewWith
    (h : Rooted r)
    (hm : m.Rooted) :
    ∀ qc ∈ (r.newViewWith m).values, qc.nodeHash.Rooted := by
  intro qc hqc
  rcases Dict.mem_values_set hqc with rfl | hold
  · cases hjustify : m.justify with
    | none => exact Digest.Extends.refl _
    | some qc => exact hm.justify qc hjustify
  · rcases r.newView.getD_mem_values_or (m.viewNumber + 1) Dict.empty with hd | hd
    · exact h.newView _ hd qc hold
    · rw [hd] at hold
      cases hold

theorem Rooted.onNewView
    (h : Rooted r)
    (cfg : Config)
    (hm : m.Rooted) :
    Rooted (r.onNewView cfg m) := by
  have htally := h.newViewWith hm
  have hview : ∀ d ∈ (r.newView.set (m.viewNumber + 1) (r.newViewWith m)).values,
      ∀ qc ∈ d.values, qc.nodeHash.Rooted := by
    intro d hd
    rcases Dict.mem_values_set hd with rfl | hold
    · exact htally
    · exact h.newView d hold
  rcases onNewView_cases cfg r m with heq | heq | ⟨high, hmax, heq⟩ <;> rw [heq]
  · exact h
  · exact { h with newView := hview }
  · refine Rooted.tryPropose ?_ cfg _
    refine { h with newView := hview, highQc := ?_ }
    intro qc hqc
    rcases Dict.mem_values_set hqc with rfl | hold
    · exact htally _ (mem_of_maxBy hmax)
    · exact h.highQc qc hold

/-- The votes with a vote for a rooted node are for rooted nodes. -/
theorem Rooted.votesWith
    {rid : Int} {node : Node Cmd}
    (h : Rooted r)
    (hvoted : m.node = some node)
    (hnode : node.hash.Rooted) :
    ∀ v ∈ (r.votesWith m rid node).values, ∃ b, v.node = some b ∧ b.hash.Rooted := by
  intro v hv
  rcases Dict.mem_values_set hv with rfl | hold
  · exact ⟨node, hvoted, hnode⟩
  · rcases r.votes.getD_mem_values_or (m.type, m.viewNumber, node.hash) Dict.empty with hd | hd
    · exact h.votes _ hd v hold
    · rw [hd] at hold
      cases hold

theorem Rooted.tally
    (h : Rooted r)
    (cfg : Config)
    (hm : m.Rooted) :
    Rooted (r.tally cfg m).2 ∧ ∀ votes, (r.tally cfg m).1 = some votes →
      ∀ v ∈ votes, ∃ b, v.node = some b ∧ b.hash.Rooted := by
  rcases tally_cases cfg r m with heq | heq | ⟨rid, sig, node, hcounted, htally⟩
  · rw [heq]
    exact ⟨h, by simp⟩
  · rw [heq]
    exact ⟨h.raise, by simp⟩
  · have hnew : ∀ v ∈ (r.votesWith m rid node).values, ∃ b, v.node = some b ∧ b.hash.Rooted :=
      h.votesWith hcounted.voted (hm.node node hcounted.voted)
    have hvotes : ∀ d ∈ (r.votes.set (m.type, m.viewNumber, node.hash)
        (r.votesWith m rid node)).values, ∀ v ∈ d.values,
          ∃ b, v.node = some b ∧ b.hash.Rooted := by
      intro d hd
      rcases Dict.mem_values_set hd with rfl | hold
      · exact hnew
      · exact h.votes d hold
    rcases htally with ⟨-, heq⟩ | ⟨-, heq⟩ <;> rw [heq]
    · refine ⟨{ h with votes := hvotes }, ?_⟩
      intro votes hsome
      cases hsome
      exact hnew
    · exact ⟨{ h with votes := hvotes }, by simp⟩

/-- A certificate is for a node that was voted for. -/
theorem rooted_of_buildQc
    {votes : List (Msg Cmd)} {quorum : Nat} {qc : QC}
    (hvotes : ∀ v ∈ votes, ∃ b, v.node = some b ∧ b.hash.Rooted)
    (hqc : buildQc votes quorum = some qc) :
    qc.nodeHash.Rooted := by
  cases votes with
  | nil => cases hqc
  | cons v vs =>
      obtain ⟨b, hb, hroot⟩ := hvotes v List.mem_cons_self
      simp only [buildQc, hb, Option.map_some, Option.getD_some, Option.some.injEq] at hqc
      rw [← hqc]
      exact hroot

theorem rooted_phaseMsg
    {qc : QC}
    (hqc : qc.nodeHash.Rooted)
    (t : MsgType) (view : Int) :
    (r.phaseMsg t view qc).Rooted :=
  Msg.rooted_of_justify hqc rfl rfl rfl

theorem Rooted.onPrepareVote
    (h : Rooted r)
    (cfg : Config)
    (hm : m.Rooted) :
    Rooted (r.onPrepareVote cfg m) := by
  obtain ⟨htally, hvotes⟩ := h.tally cfg hm
  rcases onPrepareVote_cases cfg r m with heq | heq | ⟨votes, qc, qcs, hsome, hqc, heq⟩ <;> rw [heq]
  · exact htally
  · exact htally.raise
  · have hroot := rooted_of_buildQc (hvotes votes hsome) hqc
    have hset : Rooted { (r.tally cfg m).2 with prepareQc := qc, qcs := qcs } :=
      { htally with prepareQc := hroot }
    exact hset.broadcast cfg (rooted_phaseMsg hroot _ _)

theorem Rooted.onGenericVote
    (h : Rooted r)
    (cfg : Config)
    (hm : m.Rooted) :
    Rooted (r.onGenericVote cfg m) := by
  obtain ⟨htally, hvotes⟩ := h.tally cfg hm
  rcases onGenericVote_cases cfg r m with heq | heq | ⟨votes, qc, t, qcs, hsome, hqc, heq⟩ <;>
    rw [heq]
  · exact htally
  · exact htally.raise
  · have hroot := rooted_of_buildQc (hvotes votes hsome) hqc
    have hset : Rooted { (r.tally cfg m).2 with qcs := qcs } := { htally with }
    exact hset.broadcast cfg (rooted_phaseMsg hroot _ _)

/-- A request for a branch names no node. -/
theorem Rooted.requestSync
    (h : Rooted r)
    (nodeHash : Digest) (peer : Int) :
    Rooted (r.requestSync nodeHash peer) :=
  h.send peer ⟨(fun _ hqc => nomatch hqc), (fun _ hb => nomatch hb), fun _ hchain => nomatch hchain⟩

theorem Rooted.onPrepare
    (h : Rooted r)
    (cfg : Config)
    (hm : m.Rooted) :
    Rooted (r.onPrepare cfg m) := by
  have hstore : ∀ node, m.node = some node → Rooted (r.storeProposal m node) :=
    fun node hnode => { h.addNode (hm.node node hnode) with }
  rcases onPrepare_cases cfg r m with heq | heq |
    ⟨node, qc, -, hnode, -, -, heq | heq | ⟨parent, -, -, -, heq⟩⟩ <;> rw [heq]
  · exact h
  · exact h.raise
  · exact (hstore node hnode).requestSync _ _
  · exact hstore node hnode
  · exact (hstore node hnode).sendVote cfg _ _ (hm.node node hnode)

theorem Rooted.onPreCommit
    (h : Rooted r)
    (cfg : Config)
    (hm : m.Rooted) :
    Rooted (r.onPreCommit cfg m) := by
  rcases onPreCommit_cases cfg r m with heq | ⟨qc, hacc, hset⟩
  · rw [heq]
    exact h
  · have hkept : Rooted { r with prepareQc := qc } :=
      { h with prepareQc := hm.justify qc hacc.justify }
    rcases hset with heq | ⟨node, hnode, heq⟩ <;> rw [heq]
    · exact hkept
    · exact hkept.sendVote cfg _ _ (h.tree node (Tree.mem_nodes_of_get hnode))

theorem Rooted.onCommit
    (h : Rooted r)
    (cfg : Config) (m : Msg Cmd) :
    Rooted (r.onCommit cfg m) := by
  rcases onCommit_cases cfg r m with heq | ⟨qc, node, -, hnode, heq⟩ <;> rw [heq]
  · exact h
  · have hlocked : Rooted { r with lockedQc := qc } := { h with }
    exact hlocked.sendVote cfg _ _ (h.tree node (Tree.mem_nodes_of_get hnode))

theorem Rooted.execute (h : Rooted r) (b : Node Cmd) : Rooted (r.execute b) := by
  obtain ⟨sm, committed, executed, keys, replies, heq⟩ := r.execute_cases b
  rw [heq]
  exact { h with }

theorem Rooted.leaveDecided
    (h : Rooted r)
    (cfg : Config) (m : Msg Cmd) :
    Rooted (r.leaveDecided cfg m) := by
  unfold Replica.leaveDecided
  split
  case isTrue => exact h
  case isFalse =>
    refine Rooted.advanceFrom ?_ cfg _
    exact { h with }

theorem Rooted.onDecide
    (h : Rooted r)
    (cfg : Config)
    (hm : m.Rooted) :
    Rooted (r.onDecide cfg m) := by
  rcases onDecide_cases cfg r m with heq | ⟨qc, -, ⟨hash, heq⟩ | heq | ⟨b, -, -, heq⟩⟩ <;> rw [heq]
  · exact h
  · refine { h.requestSync hash m.sender with deferred := ?_ }
    intro x hx
    rcases List.mem_append.mp hx with hx | hx
    · exact h.deferred x hx
    · rw [List.mem_singleton] at hx
      rw [hx]
      exact hm
  · exact h.leaveDecided cfg m
  · exact Rooted.leaveDecided (h.execute b) cfg m

theorem Rooted.foldl_onDecide
    (h : Rooted r)
    (cfg : Config) {ms : List (Msg Cmd)}
    (hms : ∀ x ∈ ms, x.Rooted) :
    Rooted (ms.foldl (Replica.onDecide cfg) r) := by
  induction ms generalizing r with
  | nil => exact h
  | cons x ms ih =>
      refine ih (h.onDecide cfg (hms x List.mem_cons_self)) ?_
      exact fun y hy => hms y (List.mem_cons_of_mem _ hy)

theorem Rooted.onTimeout (h : Rooted r) (cfg : Config) (view : Int) :
    Rooted (r.onTimeout cfg view) := by
  unfold Replica.onTimeout
  split
  case isTrue => exact h
  case isFalse =>
    refine Rooted.advanceFrom ?_ cfg view
    exact { h with }

theorem Rooted.onSyncReq (h : Rooted r) (m : Msg Cmd) : Rooted (r.onSyncReq m) := by
  rcases onSyncReq_cases r m with heq | heq | ⟨hash, heq⟩ <;> rw [heq]
  · exact h
  · exact h.raise
  · refine h.send _ ⟨(fun _ hqc => by cases hqc), (fun _ hb => by cases hb), ?_⟩
    intro chain hchain b hb
    cases hchain
    exact h.tree b (Tree.mem_branch hb).1

theorem Rooted.addNodes
    (h : Rooted r)
    {chain : List (Node Cmd)}
    (hchain : ∀ b ∈ chain, b.hash.Rooted) :
    Rooted { r with tree := chain.foldl Tree.add r.tree } := by
  induction chain generalizing r with
  | nil => exact h
  | cons b chain ih =>
      refine ih (h.addNode (hchain b List.mem_cons_self)) ?_
      exact fun x hx => hchain x (List.mem_cons_of_mem _ hx)

theorem Rooted.onSyncResp
    (h : Rooted r)
    (cfg : Config)
    (hm : m.Rooted) :
    Rooted (r.onSyncResp cfg m) := by
  rcases onSyncResp_cases cfg r m with heq | ⟨chain, hchain, heq⟩ <;> rw [heq]
  · exact h.raise
  · have hnodes : ∀ b ∈ chain, b.hash.Rooted := by
      rcases hchain with hchain | rfl
      · exact hm.payload chain hchain
      · simp
    refine Rooted.foldl_onDecide ?_ cfg h.deferred
    exact { h.addNodes hnodes with deferred := by simp }

theorem Rooted.handled
    (h : Rooted r)
    (hm : m.Rooted)
    (hhandled : Handled cfg r m r') :
    Rooted r' := by
  cases hhandled with
  | newView => exact h.onNewView cfg hm
  | prepareVote => exact h.onPrepareVote cfg hm
  | prepare => exact h.onPrepare cfg hm
  | genericVote => exact h.onGenericVote cfg hm
  | preCommit => exact h.onPreCommit cfg hm
  | commit => exact h.onCommit cfg m
  | decide => exact h.onDecide cfg hm
  | syncReq => exact h.onSyncReq m
  | syncResp => exact h.onSyncResp cfg hm
  | ignored => exact h

/-- **One step names nothing else.**  A replica that is given rooted hashes stores and
sends rooted hashes. -/
theorem Rooted.step
    {i : Input Cmd}
    (h : Rooted r)
    (hi : ∀ m, i = .dispatch m → m.Rooted)
    (hstep : r.step cfg i = some r') :
    Rooted r' := by
  have hclear : Rooted { r with outbox := [], replies := [] } :=
    { h with outbox := by simp }
  cases occurs_of_step hstep with
  | start =>
      refine Rooted.advanceFrom ?_ cfg 0
      exact { hclear with }
  | dispatch m =>
      obtain ⟨s, hs, -, hhandled⟩ :=
        dispatch_handled cfg { r with outbox := [], replies := [] } m
      refine handled ?_ (hi m rfl) hhandled
      rcases hs with rfl | ⟨-, rfl⟩
      · exact hclear
      · exact { hclear with }
  | submit cmd => exact hclear.submit cfg cmd
  | timeout view =>
      refine Rooted.onTimeout ?_ cfg view
      exact { hclear with }
  | stop => exact { hclear with }

end Rooted

/-! ## The executed nodes -/

/-- The executed hashes are those of the log, which is closed and repeats nothing. -/
structure Logged (r : Replica Cmd) : Prop where
  closed : Closed r.committed
  nodup : (r.committed.map Node.hash).Nodup
  executed : ∀ h, h ∈ r.executed ↔ h ∈ r.committed.map Node.hash

section Logged

variable {cfg : Config} {r r' : Replica Cmd} {m : Msg Cmd}

theorem logged_new (id : Nat) (sm : Option (Application.State Cmd)) :
    Logged (new id sm : Replica Cmd) :=
  ⟨closed_nil, by simp [new], by simp [new]⟩

theorem Logged.of_eq
    (h : Logged r)
    (hcommitted : r'.committed = r.committed)
    (hexecuted : r'.executed = r.executed) :
    Logged r' := by
  constructor
  · rw [hcommitted]
    exact h.closed
  · rw [hcommitted]
    exact h.nodup
  · rw [hcommitted, hexecuted]
    exact h.executed

/-- The walk of `execute` stops at the genesis block and at the log. -/
theorem Logged.unexecuted_iff
    (h : Logged r)
    (hash : Digest) :
    r.unexecuted hash = false ↔ hash = genesisHash ∨ hash ∈ r.committed.map Node.hash := by
  rw [← h.executed]
  by_cases hg : hash = genesisHash
  · simp [unexecuted, hg]
  · simp [unexecuted, hg]

/-- A decision about a rooted node closes the log. -/
theorem Logged.onDecide
    (h : Logged r)
    (hm : m.Rooted) :
    Logged (r.onDecide cfg m) := by
  cases onDecide_deciding cfg r m with
  | skip hidle => exact h.of_eq hidle.committed hidle.executed
  | defer qc _ _ hcommitted hexecuted _ => exact h.of_eq hcommitted hexecuted
  | execute qc hacc hhas hmiss hexec =>
      obtain ⟨hclosed, hnodup, -⟩ := Tree.closed_append_branch h.unexecuted_iff h.closed h.nodup
        (hm.justify qc hacc.justify) hhas hmiss
      constructor
      · rw [hexec.committed]
        exact hclosed
      · rw [hexec.committed]
        exact hnodup
      · intro hash
        rw [hexec.executed, hexec.committed, h.executed, List.map_append, List.mem_append]

theorem Logged.foldl_onDecide
    {ms : List (Msg Cmd)}
    (h : Logged r)
    (hms : ∀ m ∈ ms, m.Rooted) :
    Logged (ms.foldl (Replica.onDecide cfg) r) := by
  induction ms generalizing r with
  | nil => exact h
  | cons m ms ih =>
      exact ih (h.onDecide (hms m List.mem_cons_self))
        fun m' hm' => hms m' (List.mem_cons_of_mem _ hm')

theorem Logged.step
    {i : Input Cmd}
    (h : Logged r)
    (hr : Rooted r)
    (hi : ∀ m, i = .dispatch m → m.Rooted)
    (hstep : r.step cfg i = some r') :
    Logged r' := by
  obtain ⟨s, ms, hdec⟩ := step_decides hstep
  have hs : Logged s := h.of_eq hdec.committed hdec.executed
  have hms : ∀ m ∈ ms, m.Rooted := by
    intro m hm
    rcases hdec.handled m hm with hold | ⟨hi', -⟩
    · exact hr.deferred m hold
    · exact hi m hi'
  exact (hs.foldl_onDecide hms).of_eq hdec.result.committed hdec.result.executed

end Logged

end Replica

/-! ## Runs of correct replicas -/

section Runs

variable [DecidableEq Cmd] {cfg : Config} {sm : Nat → Option (Application.State Cmd)}
  {w : World Cmd (Replica Cmd) cfg.n}

/-- Everything that was sent or stored is rooted, and every log is closed. -/
structure Connected (cfg : Config) (w : World Cmd (Replica Cmd) cfg.n) : Prop where
  sent : ∀ p ∈ w.sent, p.2.Rooted
  stored : ∀ i, (w.procs i).Rooted
  logged : ∀ i, (w.procs i).Logged

theorem connected_of_reachable
    (hw : System.Reachable (cluster (basic cfg sm) cfg.n ∅) System.anyStep w) :
    Connected cfg w := by
  refine System.Reachable.invariant (I := Connected cfg) ?_ ?_ hw
  · exact ⟨by simp [cluster], fun i => Replica.rooted_new _ _, fun i => Replica.logged_new _ _⟩
  · intro w a w' _ hinv _ hstep
    have hworld : worldStep (basic cfg sm) ∅ w a = some w' := hstep
    obtain ⟨-, hd, p, hp, rfl⟩ := worldStep_cases hworld
    have hi : ∀ m, a.2 = .dispatch m → m.Rooted := by
      intro m hm
      rw [hm] at hd
      rcases hd with hsent | ⟨hfaulty, -⟩
      · exact hinv.sent _ hsent
      · exact absurd rfl hfaulty
    have hrooted : p.Rooted := (hinv.stored a.1).step hi hp
    have hlogged : p.Logged := (hinv.logged a.1).step (hinv.stored a.1) hi hp
    constructor
    · intro q hq
      rcases List.mem_append.mp hq with hq | hq
      · exact hinv.sent q hq
      · exact hrooted.outbox q hq
    · exact (Function.forall_update_iff w.procs fun _ (q : Replica Cmd) => q.Rooted).mpr
        ⟨hrooted, fun i _ => hinv.stored i⟩
    · exact (Function.forall_update_iff w.procs fun _ (q : Replica Cmd) => q.Logged).mpr
        ⟨hlogged, fun i _ => hinv.logged i⟩

/-- **No holes.**  In every run of correct replicas over the unreliable network, no log
contains a node twice, and the parent of every node of a log is the genesis block or
comes before it. -/
theorem log_without_holes
    (hw : System.Reachable (cluster (basic cfg sm) cfg.n ∅) System.anyStep w)
    (i : Fin cfg.n) :
    (w.procs i).committed.Nodup ∧ Closed (w.procs i).committed := by
  have hlogged := (connected_of_reachable hw).logged i
  exact ⟨hlogged.nodup.of_map _, hlogged.closed⟩

end Runs

section Fixture

/-- Replica `k` enters the first view. -/
def newViewOf (k : Nat) : Msg String where
  type := .newView
  viewNumber := 0
  sender := k
  node := none
  justify := some genesisQc
  partialSig := none
  payload := .none

/-- Replica `k` votes for the block in the first view. -/
def voteOf (t : MsgType) (k : Nat) : Msg String where
  type := t
  viewNumber := 1
  sender := k
  node := some (blockOf "x")
  justify := none
  partialSig := some ((k : Int), signVote k t 1 (blockOf "x").hash)
  payload := .none

/-- Replicas 0, 1 and 2 vote in a phase, and the leader hears of it. -/
def phaseSteps (start : Msg String) (t : MsgType) : List (Fin fourReplicas.n × Input String) :=
  [deliver 0 start, deliver 1 start, deliver 2 start,
    deliver 0 (voteOf t 0), deliver 0 (voteOf t 1), deliver 0 (voteOf t 2)]

/-- A command is decided and executed by replica 1. -/
theorem log_without_holes_sample :
    ∃ w, System.Reachable (cluster (basic fourReplicas fun _ => none) fourReplicas.n ∅)
        System.anyStep w ∧
      (w.procs (1 : Fin 4)).committed = [blockOf "x"] ∧
      (w.procs (1 : Fin 4)).committed.Nodup ∧ Closed (w.procs (1 : Fin 4)).committed := by
  obtain ⟨w, hw, hcommitted⟩ : ∃ w,
      System.Reaches (cluster (basic fourReplicas fun _ => none) fourReplicas.n ∅)
        System.anyStep (cluster (basic fourReplicas fun _ => none) fourReplicas.n ∅).init w ∧
      (w.procs (1 : Fin 4)).committed = [blockOf "x"] := by
    refine System.exists_reaches_of_exec
      ([startOf 0, startOf 1, startOf 2, submitOf 0 "x",
        deliver 0 (newViewOf 0), deliver 0 (newViewOf 1), deliver 0 (newViewOf 2)] ++
        phaseSteps (proposalOf "x") .prepare ++
        phaseSteps (phaseOf .preCommit (certificateOf .prepare 1 "x" [0, 1, 2])) .preCommit ++
        phaseSteps (phaseOf .commit (certificateOf .preCommit 1 "x" [0, 1, 2])) .commit ++
        [deliver 1 (phaseOf .decide (certificateOf .commit 1 "x" [0, 1, 2]))]) ?_
    decide +kernel
  exact ⟨w, hw, hcommitted, log_without_holes hw _⟩

end Fixture
end HotStuff
end DistributedConsensus
