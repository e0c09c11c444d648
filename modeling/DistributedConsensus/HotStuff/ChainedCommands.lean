import DistributedConsensus.HotStuff.ChainedHonest

/-!
# Chained HotStuff: the commands of a branch

A leader skips the commands that it has cached for the node it extends.  The cache of a
node is filled when its proposal arrives, and a leader may hold a certificate, built from
votes, for a node whose proposal has not arrived: then it skips nothing and may propose a
command that is on the branch already (`exists_command_twice`).

If the leaders know the commands of the branches that they extend, no branch carries a
command twice (`branch_unrepeated`).
-/

namespace DistributedConsensus
namespace HotStuff

open Foundations

/-! ## Commands on a branch -/

namespace Digest

/-- The command of the node with this hash. -/
def command : Digest → Option String
  | .node _ c _ => c
  | _ => none

/-- A node of the parent chain has the command. -/
def Carries (d : Digest) (k : String) : Prop :=
  ∃ a ∈ d.ancestors, a.command = some k

instance (d : Digest) (k : String) : Decidable (d.Carries k) :=
  inferInstanceAs (Decidable (∃ a ∈ d.ancestors, a.command = some k))

/-- No command occurs in two nodes of the parent chain. -/
def Unrepeated (d : Digest) : Prop :=
  ∀ a ∈ d.ancestors, ∀ b ∈ d.ancestors, ∀ k,
    a.command = some k → b.command = some k → a = b

theorem carries_node_iff
    {p : Digest} {c : Option String} {v : Int} {k : String} :
    (.node p c v : Digest).Carries k ↔ c = some k ∨ p.Carries k := by
  simp [Carries, ancestors, command]

theorem not_carries_genesisHash (k : String) : ¬ genesisHash.Carries k := by
  simp [genesisHash, Carries, ancestors, command]

theorem unrepeated_genesisHash : genesisHash.Unrepeated := by
  intro a ha _ _ k hk
  exact absurd ⟨a, ha, hk⟩ (not_carries_genesisHash k)

/-- A new command on top of a branch. -/
theorem Unrepeated.node
    {p : Digest} {k : String}
    (h : p.Unrepeated)
    (hk : ¬ p.Carries k)
    (v : Int) :
    (.node p (some k) v : Digest).Unrepeated := by
  intro a ha b hb x hax hbx
  rcases List.mem_cons.mp ha with rfl | ha
  · rcases List.mem_cons.mp hb with rfl | hb
    · rfl
    · cases hax
      exact absurd ⟨b, hb, hbx⟩ hk
  · rcases List.mem_cons.mp hb with rfl | hb
    · cases hbx
      exact absurd ⟨a, ha, hax⟩ hk
    · exact h a ha b hb x hax hbx

end Digest

variable {Cmd : Type} [Application Cmd]

/-! ## The hashes that a replica extends -/

/-- The hashes that a message names have the property. -/
structure Msg.Names (G : Digest → Prop) (m : Msg Cmd) : Prop where
  justify : ∀ qc, m.justify = some qc → G qc.nodeHash
  node : ∀ b, m.node = some b → G b.hash
  nodeJustify : ∀ b, m.node = some b → ∀ qc, b.justify = some qc → G qc.nodeHash

namespace ChainedReplica

/-- The hashes of the certificates and votes that a replica holds, and those that it
sends, have the property. -/
structure Names (G : Digest → Prop) (r : ChainedReplica Cmd) : Prop where
  genericQc : G r.genericQc.nodeHash
  newView : ∀ d ∈ r.newView.values, ∀ qc ∈ d.values, G qc.nodeHash
  votes : ∀ d ∈ r.votes.values, ∀ v ∈ d.values, ∃ b, v.node = some b ∧ G b.hash
  outbox : ∀ p ∈ r.outbox, p.2.Names G

/-- The view and the certificate with which an input lets the replica try to propose. -/
def proposeCall (cfg : Config) (r : ChainedReplica Cmd) : Input Cmd → Option (Int × QC)
  | .submit cmd =>
      if cmdKey cmd ∈ r.pendingKeys ∨ cmdKey cmd ∈ r.committedCmds then none
      else some (r.view, r.genericQc)
  | .dispatch m =>
      match m.type with
      | .newView => r.newViewCall cfg m
      | .generic =>
          match m.partialSig with
          | some (rid, sig) => r.voteCall cfg m rid sig
          | none => none
      | _ => none
  | _ => none

/-- The commands that wait when an input lets the replica try to propose. -/
def waiting (r : ChainedReplica Cmd) : Input Cmd → List Cmd
  | .submit cmd => r.pending ++ [cmd]
  | _ => r.pending

/-- The leaves that a call may lead to have the property, if the certified node has. -/
def LeavesNamed (G : Digest → Prop) (cfg : Config) (r : ChainedReplica Cmd) (cmds : List Cmd)
    (call : Option (Int × QC)) : Prop :=
  ∀ view qc, call = some (view, qc) → G qc.nodeHash →
    ∀ cmd, MayPropose cfg r cmds view qc cmd → G (leafOf qc cmd view).hash

namespace Names

variable {G : Digest → Prop} {cfg : Config} {r r' : ChainedReplica Cmd} {m : Msg Cmd}

/-- **A proposal.**  The leaf is the only new hash. -/
theorem tryPropose
    {view : Int} {qc : QC}
    (h : Names G r)
    (hqc : G qc.nodeHash)
    (hleaf : ∀ cmd, MayPropose cfg r r.pending view qc cmd → G (leafOf qc cmd view).hash) :
    Names G (r.tryPropose cfg view qc) := by
  obtain ⟨pending, keys, heq | ⟨cmd, hmay, heq⟩⟩ := r.tryPropose_cases cfg view qc
  · rw [heq]
    exact { h with }
  · rw [heq]
    refine { h with outbox := ?_ }
    intro p hp
    rcases List.mem_append.mp hp with hp | hp
    · exact h.outbox p hp
    · obtain ⟨i, -, rfl⟩ := List.mem_map.mp hp
      constructor
      · intro qc' heq'
        cases heq'
        exact hqc
      · intro b heq'
        cases heq'
        exact hleaf cmd hmay
      · intro b heq' qc' hjustify
        cases heq'
        cases hjustify
        exact hqc

theorem submit
    {cmd : Cmd}
    (h : Names G r)
    (hleaf : LeavesNamed G cfg r (r.waiting (.submit cmd))
      (proposeCall cfg r (.submit cmd))) :
    Names G (r.submit cfg cmd) := by
  unfold ChainedReplica.submit
  split
  case isTrue => exact h
  case isFalse hnew =>
    refine tryPropose ?_ h.genericQc fun x hx => ?_
    · exact { h with }
    · refine hleaf r.view r.genericQc (by rw [proposeCall, if_neg hnew]) h.genericQc x ?_
      exact ⟨hx.fresh, hx.leader, hx.waits, hx.uncommitted, hx.notCached⟩

theorem advanceFrom
    (h : Names G r)
    (view : Int) :
    Names G (r.advanceFrom cfg view) := by
  unfold ChainedReplica.advanceFrom
  split
  case isTrue => exact h
  case isFalse =>
    refine { h with outbox := ?_ }
    intro p hp
    rcases List.mem_append.mp hp with hp | hp
    · exact h.outbox p hp
    · rw [List.mem_singleton] at hp
      subst hp
      refine ⟨?_, (fun _ hb => nomatch hb), fun _ hb => nomatch hb⟩
      intro qc hqc
      cases hqc
      exact h.genericQc

theorem onTimeout
    (h : Names G r)
    (view : Int) :
    Names G (r.onTimeout cfg view) := by
  unfold ChainedReplica.onTimeout
  split
  case isTrue => exact h
  case isFalse =>
    refine advanceFrom ?_ view
    exact { h with }

theorem newViewWith
    (h : Names G r)
    (hgenesis : G genesisHash)
    (hm : m.Names G) :
    ∀ qc ∈ (r.newViewWith m).values, G qc.nodeHash := by
  intro qc hqc
  rcases Dict.mem_values_set hqc with rfl | hold
  · cases hjustify : m.justify with
    | none => exact hgenesis
    | some qc => exact hm.justify qc hjustify
  · rcases r.newView.getD_mem_values_or (m.viewNumber + 1) Dict.empty with hd | hd
    · exact h.newView _ hd qc hold
    · rw [hd] at hold
      cases hold

theorem onNewView
    (h : Names G r)
    (hgenesis : G genesisHash)
    (hm : m.Names G)
    (hleaf : LeavesNamed G cfg r r.pending (newViewCall cfg r m)) :
    Names G (r.onNewView cfg m) := by
  have htally := h.newViewWith hgenesis hm
  rcases r.onNewView_cases cfg m with heq | ⟨-, -, s, hs, hcases⟩
  · rw [heq]
    exact h
  · have hset : Names G s := by
      rw [hs]
      refine { h with newView := ?_ }
      intro d hd
      rcases Dict.mem_values_set hd with rfl | hold
      · exact htally
      · exact h.newView d hold
    rcases hcases with heq | heq | ⟨high, hcall, hhigh, heq⟩
    · rw [heq]
      exact hset
    · rw [heq]
      exact { hset with }
    · rw [heq]
      refine hset.tryPropose (htally high hhigh) fun x hx => ?_
      rw [hs] at hx
      refine hleaf _ _ hcall (htally high hhigh) x ?_
      exact ⟨hx.fresh, hx.leader, hx.waits, hx.uncommitted, hx.notCached⟩

theorem votesWith
    {rid : Int} {node : Node Cmd}
    (h : Names G r)
    (hm : m.Names G)
    (hnode : m.node = some node) :
    ∀ v ∈ (r.votesWith m rid node).values, ∃ b, v.node = some b ∧ G b.hash := by
  intro v hv
  rcases Dict.mem_values_set hv with rfl | hold
  · exact ⟨node, hnode, hm.node node hnode⟩
  · rcases r.votes.getD_mem_values_or (m.viewNumber, node.hash) Dict.empty with hd | hd
    · exact h.votes _ hd v hold
    · rw [hd] at hold
      cases hold

/-- A certificate names the node of a vote. -/
theorem of_buildQc
    {votes : List (Msg Cmd)} {quorum : Nat} {qc : QC}
    (hvotes : ∀ v ∈ votes, ∃ b, v.node = some b ∧ G b.hash)
    (hqc : buildQc votes quorum = some qc) :
    G qc.nodeHash := by
  cases votes with
  | nil => cases hqc
  | cons v vs =>
      obtain ⟨b, hb, hG⟩ := hvotes v List.mem_cons_self
      simp only [buildQc, hb, Option.map_some, Option.getD_some, Option.some.injEq] at hqc
      rw [← hqc]
      exact hG

theorem onGenericVote
    {rid : Int} {sig : Sig}
    (h : Names G r)
    (hm : m.Names G)
    (hleaf : LeavesNamed G cfg r r.pending (voteCall cfg r m rid sig)) :
    Names G (r.onGenericVote cfg m rid sig) := by
  rcases r.onGenericVote_cases cfg m rid sig with
    heq | heq | ⟨node, formed, qcs, s, hcounted, hs, hcases⟩
  · rw [heq]
    exact h
  · rw [heq]
    exact { h with }
  · have hnew : ∀ v ∈ (r.votesWith m rid node).values,
        ∃ b, v.node = some b ∧ G b.hash := h.votesWith hm hcounted.voted
    have hset : Names G s := by
      rw [hs]
      refine { h with votes := ?_ }
      intro d hd
      rcases Dict.mem_values_set hd with rfl | hold
      · exact hnew
      · exact h.votes d hold
    rcases hcases with heq | heq | ⟨qc, hcall, -, hqc, heq⟩
    · rw [heq]
      exact hset
    · rw [heq]
      exact { hset with }
    · have hcertified : G qc.nodeHash := of_buildQc hnew hqc
      rw [heq]
      refine hset.tryPropose hcertified fun x hx => ?_
      rw [hs] at hx
      refine hleaf _ _ hcall hcertified x ?_
      exact ⟨hx.fresh, hx.leader, hx.waits, hx.uncommitted, hx.notCached⟩

theorem update
    {bStar : Node Cmd}
    (h : Names G r)
    (hb : ∀ qc, bStar.justify = some qc → G qc.nodeHash) :
    Names G (r.update bStar) := by
  rcases r.update_cases bStar with ⟨-, heq | heq⟩ | ⟨qc, hqc, heq⟩
  · rw [heq]
    exact h
  · rw [heq]
    exact { h with }
  · have hgeneric : G (if r.genericQc.viewNumber < qc.viewNumber then qc
        else r.genericQc).nodeHash := by
      split
      case isTrue => exact hb qc hqc
      case isFalse => exact h.genericQc
    obtain ⟨sm, committed, executed, keys, replies, hexec⟩ := foldl_executeNode_cases { r with
      genericQc := if r.genericQc.viewNumber < qc.viewNumber then qc else r.genericQc
      lockedNode := lockOn r.lockedNode (twoChain r.tree bStar) }
      (newlyCommitted r.tree r.unexecuted bStar)
    rw [heq, hexec]
    exact { h with genericQc := hgeneric }

theorem vote
    {node : Node Cmd} {qc : QC}
    (h : Names G r)
    (view : Int)
    (hnode : G node.hash)
    (hjustify : ∀ qc, node.justify = some qc → G qc.nodeHash) :
    Names G (r.vote cfg view node qc) := by
  unfold ChainedReplica.vote
  split
  case isFalse => exact h
  case isTrue =>
    refine { h with outbox := ?_ }
    intro p hp
    rcases List.mem_append.mp hp with hp | hp
    · exact h.outbox p hp
    · rw [List.mem_singleton] at hp
      subst hp
      refine ⟨(fun _ hqc => nomatch hqc), ?_, ?_⟩
      · intro b hb
        cases hb
        exact hnode
      · intro b hb
        cases hb
        exact hjustify

theorem onGeneric
    (h : Names G r)
    (hm : m.Names G) :
    Names G (r.onGeneric cfg m) := by
  rcases r.onGeneric_cases cfg m with heq | heq | ⟨bStar, qc, haccepts, heq⟩
  · rw [heq]
    exact h
  · rw [heq]
    exact { h with }
  · have hjustify := hm.nodeJustify bStar haccepts.node
    have hstored : Names G (r.storeProposal cfg m bStar) := { h with }
    rw [heq]
    exact (hstored.vote m.viewNumber (hm.node bStar haccepts.node) hjustify).update hjustify

/-- **One step.**  The hashes that a replica names afterwards were named before, or they
are those of a leaf that it may propose. -/
theorem step
    {i : Input Cmd}
    (h : Names G r)
    (hgenesis : G genesisHash)
    (hi : ∀ m, i = .dispatch m → m.Names G)
    (hleaf : LeavesNamed G cfg r (r.waiting i) (proposeCall cfg r i))
    (hstep : r.step cfg i = some r') :
    Names G r' := by
  have hclear : Names G { r with outbox := [], replies := [] } := { h with outbox := by simp }
  -- the call reads neither the outbox nor the replies
  have hleaf' : LeavesNamed G cfg { r with outbox := [], replies := [] } (r.waiting i)
      (proposeCall cfg r i) := fun view qc hcall hqc cmd hcmd => hleaf view qc hcall hqc cmd
    ⟨hcmd.fresh, hcmd.leader, hcmd.waits, hcmd.uncommitted, hcmd.notCached⟩
  cases occurs_of_step hstep with
  | start =>
      refine advanceFrom ?_ 0
      exact { hclear with }
  | newView m htype =>
      have hcall : proposeCall cfg r (.dispatch m) = newViewCall cfg r m := by
        simp only [proposeCall, htype]
      rw [hcall] at hleaf'
      exact hclear.onNewView hgenesis (hi m rfl) hleaf'
  | genericVote m rid sig htype hsig =>
      have hcall : proposeCall cfg r (.dispatch m) = voteCall cfg r m rid sig := by
        simp only [proposeCall, htype, hsig]
      rw [hcall] at hleaf'
      exact hclear.onGenericVote (hi m rfl) hleaf'
  | generic m => exact hclear.onGeneric (hi m rfl)
  | ignored m => exact hclear
  | submit cmd => exact hclear.submit hleaf'
  | timeout view =>
      refine onTimeout ?_ view
      exact { hclear with }
  | stop => exact { hclear with }

end Names

/-! ## What a leader knows of a branch -/

/-- If an input lets the replica propose on a certificate, then it has committed, or cached
for the certified node, those of the waiting commands that are on the branch. -/
def KnowsBranch (cfg : Config) (r : ChainedReplica Cmd) (i : Input Cmd) : Prop :=
  match proposeCall cfg r i with
  | none => True
  | some (view, qc) =>
      view ∉ r.proposed → cfg.isLeader view r.id = true →
        ∀ cmd ∈ r.waiting i, qc.nodeHash.Carries (cmdKey cmd) →
          cmdKey cmd ∈ r.committedCmds ∨ cmdKey cmd ∈ r.branchCmds.getD qc.nodeHash []

instance (cfg : Config) (r : ChainedReplica Cmd) (i : Input Cmd) :
    Decidable (KnowsBranch cfg r i) := by
  unfold KnowsBranch
  split <;> infer_instance

/-- A leader that knows the branch adds a new command to it. -/
theorem KnowsBranch.leavesNamed
    {cfg : Config} {r : ChainedReplica Cmd} {i : Input Cmd}
    (h : KnowsBranch cfg r i) :
    LeavesNamed Digest.Unrepeated cfg r (r.waiting i) (proposeCall cfg r i) := by
  intro view qc hcall hqc cmd hcmd
  simp only [KnowsBranch, hcall] at h
  refine hqc.node (fun hcarries => ?_) view
  rcases h hcmd.fresh hcmd.leader cmd hcmd.waits hcarries with hcommitted | hcached
  · exact hcmd.uncommitted hcommitted
  · exact hcmd.notCached hcached

end ChainedReplica

/-! ## Runs of correct replicas -/

section Runs

variable [DecidableEq Cmd] {cfg : Config} {sm : Nat → Option (Application.State Cmd)}
  {w : World Cmd (ChainedReplica Cmd) cfg.n}

/-- The acting replica knows the branch that it extends. -/
def LeaderKnowsBranch (cfg : Config) (w : World Cmd (ChainedReplica Cmd) cfg.n)
    (a : Fin cfg.n × Input Cmd) : Prop :=
  (w.procs a.1).KnowsBranch cfg a.2

instance (cfg : Config) (w : World Cmd (ChainedReplica Cmd) cfg.n)
    (a : Fin cfg.n × Input Cmd) : Decidable (LeaderKnowsBranch cfg w a) :=
  inferInstanceAs (Decidable ((w.procs a.1).KnowsBranch cfg a.2))

/-- The hashes that are sent or held have the property. -/
structure Named (G : Digest → Prop) (cfg : Config) (w : World Cmd (ChainedReplica Cmd) cfg.n) :
    Prop where
  sent : ∀ p ∈ w.sent, p.2.Names G
  held : ∀ i, (w.procs i).Names G

theorem named_of_reachable
    (hw : System.Reachable (cluster (chained cfg sm) cfg.n ∅) (LeaderKnowsBranch cfg) w) :
    Named Digest.Unrepeated cfg w := by
  refine System.Reachable.invariant (I := Named Digest.Unrepeated cfg) ?_ ?_ hw
  · refine ⟨by simp [cluster], fun i => ⟨Digest.unrepeated_genesisHash, ?_, ?_, ?_⟩⟩
    · simp [cluster, chained, ChainedReplica.new]
    · simp [cluster, chained, ChainedReplica.new]
    · simp [cluster, chained, ChainedReplica.new]
  · intro w a w' _ hinv hknows hstep
    have hworld : worldStep (chained cfg sm) ∅ w a = some w' := hstep
    obtain ⟨-, hd, p, hp, rfl⟩ := worldStep_cases hworld
    have hi : ∀ m, a.2 = .dispatch m → m.Names Digest.Unrepeated := by
      intro m hm
      rw [hm] at hd
      rcases hd with hsent | ⟨hfaulty, -⟩
      · exact hinv.sent _ hsent
      · exact absurd rfl hfaulty
    have hnames : p.Names Digest.Unrepeated := (hinv.held a.1).step
      Digest.unrepeated_genesisHash hi hknows.leavesNamed hp
    constructor
    · intro q hq
      rcases List.mem_append.mp hq with hq | hq
      · exact hinv.sent q hq
      · exact hnames.outbox q hq
    · exact (Function.forall_update_iff w.procs fun _ (q : ChainedReplica Cmd) =>
        q.Names Digest.Unrepeated).mpr ⟨hnames, fun i _ => hinv.held i⟩

/-- **No command twice on a branch.**  In every run of correct replicas over the unreliable
network in which the leaders know the branches that they extend, no command occurs in two
nodes of the parent chain of a proposed node. -/
theorem branch_unrepeated
    (hw : System.Reachable (cluster (chained cfg sm) cfg.n ∅) (LeaderKnowsBranch cfg) w)
    {b : Node Cmd}
    (hb : Proposed w.sent b) :
    b.hash.Unrepeated := by
  obtain ⟨p, hp, -, hnode⟩ := hb
  exact ((named_of_reachable hw).sent p hp).node b hnode

end Runs

section Fixture

/-- Four replicas that lead in turn. -/
def rotatingFour : Config where
  n := 4
  f := 1
  fixedLeader := none
  timeouts := false

/-- The four replicas, all of them correct. -/
def rotating :
    System (World String (ChainedReplica String) rotatingFour.n)
      (Fin rotatingFour.n × Input String) :=
  cluster (chained rotatingFour fun _ => none) rotatingFour.n ∅

/-- Replica `k` enters the first view. -/
def enterFirst (k : Nat) : Msg String where
  type := .newView
  viewNumber := 0
  sender := k
  node := none
  justify := some genesisQc
  partialSig := none
  payload := .none

/-- The node that replica 1 proposes in the first view. -/
def firstNode : Node String := ChainedReplica.leafOf genesisQc "x" 1

def firstProposal : Msg String :=
  (ChainedReplica.new 1 none).proposalMsg 1 firstNode genesisQc

def firstVote (k : Nat) : Msg String := (ChainedReplica.new k none).voteMsg 1 firstNode

/-- The certificate that replica 2 forms of the votes of the others. -/
def firstQc : QC where
  type := .generic
  viewNumber := 1
  nodeHash := firstNode.hash
  sigs := [0, 1, 3].map fun (k : Nat) => ((k : Int), signVote k .generic 1 firstNode.hash)

/-- The node that replica 2 proposes in the second view. -/
def secondNode (cmd : String) : Node String := ChainedReplica.leafOf firstQc cmd 2

/-- Replica 1 proposes the command, which replica 2 holds as well, and the others vote. -/
def firstView : List (Fin rotatingFour.n × Input String) :=
  [startOf 0, startOf 1, startOf 2, startOf 3, submitOf 1 "x", submitOf 2 "x",
    deliver 1 (enterFirst 0), deliver 1 (enterFirst 1), deliver 1 (enterFirst 3),
    deliver 0 firstProposal, deliver 1 firstProposal, deliver 3 firstProposal]

/-- Replica 2 receives the proposal and another command. -/
def receiveFirst : List (Fin rotatingFour.n × Input String) :=
  [submitOf 2 "y", deliver 2 firstProposal]

/-- Replica 2 counts the votes. -/
def countVotes : List (Fin rotatingFour.n × Input String) :=
  [deliver 2 (firstVote 0), deliver 2 (firstVote 1), deliver 2 (firstVote 3)]

/-- Replica 2 has received the proposal before the votes and goes on with another
command. -/
theorem branch_unrepeated_sample :
    ∃ w, System.Reachable rotating (LeaderKnowsBranch rotatingFour) w ∧
      Proposed w.sent (secondNode "y") ∧ (secondNode "y").hash.Unrepeated := by
  obtain ⟨w, hw, p, hp, htype, hsig, hnode⟩ : ∃ w,
      System.Reaches rotating (LeaderKnowsBranch rotatingFour) rotating.init w ∧
      ∃ p ∈ w.sent, p.2.type = .generic ∧ p.2.partialSig = none ∧
        p.2.node = some (secondNode "y") := by
    refine System.exists_reaches_of_exec (firstView ++ receiveFirst ++ countVotes) ?_
    decide +kernel
  have hproposed : Proposed w.sent (secondNode "y") := ⟨p, hp, ⟨htype, hsig⟩, hnode⟩
  exact ⟨w, hw, hproposed, branch_unrepeated hw hproposed⟩

/-- **A command twice.**  Replica 2 has not received the proposal when it completes the
certificate, and proposes the same command on top of it. -/
theorem exists_command_twice :
    ∃ w, System.Reachable rotating System.anyStep w ∧
      ∃ b, Proposed w.sent b ∧ ¬ b.hash.Unrepeated := by
  obtain ⟨w, hw, p, hp, htype, hsig, hnode⟩ : ∃ w,
      System.Reaches rotating System.anyStep rotating.init w ∧
      ∃ p ∈ w.sent, p.2.type = .generic ∧ p.2.partialSig = none ∧
        p.2.node = some (secondNode "x") := by
    refine System.exists_reaches_of_exec (firstView ++ countVotes) ?_
    decide +kernel
  refine ⟨w, hw, secondNode "x", ⟨p, hp, ⟨htype, hsig⟩, hnode⟩, fun hunrepeated => ?_⟩
  have hsame := hunrepeated (secondNode "x").hash (by decide +kernel) firstNode.hash
    (by decide +kernel) "x" rfl rfl
  revert hsame
  decide +kernel

end Fixture

end HotStuff
end DistributedConsensus
