import DistributedConsensus.HotStuff.ChainedReplica

/-!
# Chained HotStuff: what the handlers can do

For each handler of a chained replica the list of the states that it can leave behind,
with what holds when it does.  The properties of a replica are proved from these lists.
-/

namespace DistributedConsensus
namespace HotStuff
namespace ChainedReplica

open Foundations

variable {Cmd : Type} [Application Cmd]

/-! ## What the handlers check and compute -/

/-- The NEW-VIEW certificates of the next view, with that of a message. -/
def newViewWith (r : ChainedReplica Cmd) (m : Msg Cmd) : Dict Int QC :=
  (r.newView.getD (m.viewNumber + 1) Dict.empty).set m.sender (m.justify.getD genesisQc)

/-- The votes for a node, with a vote. -/
def votesWith (r : ChainedReplica Cmd) (m : Msg Cmd) (rid : Int) (node : Node Cmd) :
    Dict Int (Msg Cmd) :=
  (r.votes.getD (m.viewNumber, node.hash) Dict.empty).set rid m

/-- The certificate with which a NEW-VIEW message lets its next leader propose. -/
def newViewCall (cfg : Config) (r : ChainedReplica Cmd) (m : Msg Cmd) : Option (Int × QC) :=
  if !cfg.isLeader (m.viewNumber + 1) r.id ∨ !Replica.verifyJustify cfg m.justify then none
  else if cfg.quorum ≤ (r.newViewWith m).size then
    (maxBy QC.viewNumber (r.newViewWith m).values).map fun high => (m.viewNumber + 1, high)
  else none

/-- The certificate that a vote completes for the next leader. -/
def voteCall (cfg : Config) (r : ChainedReplica Cmd) (m : Msg Cmd) (rid : Int) (sig : Sig) :
    Option (Int × QC) :=
  match m.node, pyIndex (verifyKeys cfg.n) rid with
  | some node, some vk =>
      if !cfg.isLeader (m.viewNumber + 1) r.id ∨
          !verifyVote vk .generic m.viewNumber node.hash sig ∨
          (m.viewNumber, node.hash) ∈ r.formed then none
      else if cfg.quorum ≤ (r.votesWith m rid node).size then
        (buildQc (r.votesWith m rid node).values cfg.quorum).map fun qc =>
          (m.viewNumber + 1, qc)
      else none
  | _, _ => none

/-- A command may be proposed on a certificate: the view is led and not used, and the
command waits and is not known as committed or as one of the branch. -/
structure MayPropose (cfg : Config) (r : ChainedReplica Cmd) (cmds : List Cmd) (view : Int)
    (qc : QC) (cmd : Cmd) : Prop where
  fresh : view ∉ r.proposed
  leader : cfg.isLeader view r.id = true
  waits : cmd ∈ cmds
  uncommitted : cmdKey cmd ∉ r.committedCmds
  notCached : cmdKey cmd ∉ r.branchCmds.getD qc.nodeHash []

/-- A leaf is stored and proposed. -/
def proposeLeaf (cfg : Config) (r : ChainedReplica Cmd) (view : Int) (qc : QC) (cmd : Cmd) :
    ChainedReplica Cmd :=
  ({ ({ r with tree := r.tree.add (leafOf qc cmd view) }).registerBranch (leafOf qc cmd view) with
    proposed := r.proposed.insert view }).broadcast cfg
      (r.proposalMsg view (leafOf qc cmd view) qc)

/-- The next leader counts a valid vote for a node whose certificate is not formed. -/
structure Counted (cfg : Config) (r : ChainedReplica Cmd) (m : Msg Cmd) (rid : Int) (sig : Sig)
    (node : Node Cmd) : Prop where
  voted : m.node = some node
  leader : cfg.isLeader (m.viewNumber + 1) r.id = true
  signed : ∃ vk, pyIndex (verifyKeys cfg.n) rid = some vk ∧
    verifyVote vk .generic m.viewNumber node.hash sig = true
  fresh : (m.viewNumber, node.hash) ∉ r.formed

/-- The call of a vote that is counted. -/
theorem Counted.voteCall
    {cfg : Config} {r : ChainedReplica Cmd} {m : Msg Cmd} {rid : Int} {sig : Sig}
    {node : Node Cmd}
    (h : Counted cfg r m rid sig node)
    (hquorum : cfg.quorum ≤ (r.votesWith m rid node).size) :
    r.voteCall cfg m rid sig =
      (buildQc (r.votesWith m rid node).values cfg.quorum).map fun qc =>
        (m.viewNumber + 1, qc) := by
  obtain ⟨vk, hvk, hverify⟩ := h.signed
  simp [ChainedReplica.voteCall, h.voted, h.leader, hvk, hverify, h.fresh, hquorum]

/-- The proposal is accepted. -/
structure Accepts (cfg : Config) (m : Msg Cmd) (bStar : Node Cmd) (qc : QC) : Prop where
  sender : m.sender = cfg.leader m.viewNumber
  node : m.node = some bStar
  justify : m.justify = some qc
  verified : Replica.verifyJustify cfg (some qc) = true

/-- An accepted node is stored, and its view is entered. -/
def storeProposal (cfg : Config) (r : ChainedReplica Cmd) (m : Msg Cmd) (bStar : Node Cmd) :
    ChainedReplica Cmd :=
  { ({ r with tree := r.tree.add bStar }).registerBranch bStar with
    view := max r.view m.viewNumber
    timer := if r.view < m.viewNumber then (if cfg.timeouts then some m.viewNumber else none)
      else r.timer }

/-! ## Chains -/

/-- The node that the two-chain behind a proposed node locks. -/
def twoChain (t : Tree Cmd) (bStar : Node Cmd) : Option (Node Cmd) :=
  (justified t bStar).bind (justified t)

/-- The node that the three-chain behind a proposed node commits. -/
def threeChain (t : Tree Cmd) (bStar : Node Cmd) : Option (Node Cmd) :=
  match justified t bStar with
  | none => none
  | some b2 =>
      match justified t b2 with
      | none => none
      | some b1 =>
          match justified t b1 with
          | none => none
          | some b0 =>
              if b1.viewNumber = b0.viewNumber + 1 ∧
                  b2.viewNumber = b1.viewNumber + 1 then
                some b0
              else none

/-- The branch that is executed when a proposed node arrives. -/
def newlyCommitted (t : Tree Cmd) (unexecuted : Digest → Bool) (bStar : Node Cmd) :
    List (Node Cmd) :=
  match threeChain t bStar with
  | some b0 => (t.branch unexecuted b0.hash).reverse
  | none => []

theorem justified_eq_some_iff
    {t : Tree Cmd} {b a : Node Cmd} :
    justified t b = some a ↔ ∃ qc, b.justify = some qc ∧ t.get qc.nodeHash = some a := by
  rw [justified]
  cases b.justify with
  | none => simp
  | some qc => simp

/-- A link that is followed leads to a stored node. -/
theorem mem_nodes_of_justified
    {t : Tree Cmd} {b a : Node Cmd}
    (h : justified t b = some a) :
    a ∈ t.nodes := by
  obtain ⟨qc, -, hget⟩ := justified_eq_some_iff.mp h
  exact Tree.mem_nodes_of_get hget

/-- The links of a three-chain. -/
theorem links_of_threeChain
    {t : Tree Cmd} {bStar b0 : Node Cmd}
    (h : threeChain t bStar = some b0) :
    ∃ b2 b1, justified t bStar = some b2 ∧ justified t b2 = some b1 ∧
      justified t b1 = some b0 ∧ b1.viewNumber = b0.viewNumber + 1 ∧
      b2.viewNumber = b1.viewNumber + 1 := by
  unfold threeChain at h
  split at h
  case h_1 => cases h
  case h_2 b2 h2 =>
    split at h
    case h_1 => cases h
    case h_2 b1 h1 =>
      split at h
      case h_1 => cases h
      case h_2 b0' h0 =>
        rw [Option.ite_none_right_eq_some, Option.some.injEq] at h
        obtain ⟨hviews, rfl⟩ := h
        exact ⟨b2, b1, h2, h1, h0, hviews⟩

/-! ## The handlers -/

section Handlers

variable (cfg : Config) (r : ChainedReplica Cmd)

/-- The loop changes what is pending only, and finds a command that it may propose. -/
theorem nextCommandLoop_cases (onBranch : List String) (skipped cmds : List Cmd) :
    ∃ pending keys, (r.nextCommandLoop onBranch skipped cmds).2 =
        { r with
          pending := pending
          pendingKeys := keys } ∧
      ∀ cmd, (r.nextCommandLoop onBranch skipped cmds).1 = some cmd →
        cmd ∈ cmds ∧ cmdKey cmd ∉ r.committedCmds ∧ cmdKey cmd ∉ onBranch := by
  induction cmds generalizing r skipped with
  | nil => exact ⟨skipped, r.pendingKeys, rfl, fun cmd hcmd => by cases hcmd⟩
  | cons x rest ih =>
      simp only [nextCommandLoop]
      split_ifs with hcommitted hbranch
      · obtain ⟨pending, keys, heq, hfound⟩ := ih { r with
          pendingKeys := r.pendingKeys.filter (· ≠ cmdKey x) } skipped
        refine ⟨pending, keys, heq, fun cmd hcmd => ?_⟩
        exact (hfound cmd hcmd).imp_left (List.mem_cons_of_mem _)
      · obtain ⟨pending, keys, heq, hfound⟩ := ih r (skipped ++ [x])
        refine ⟨pending, keys, heq, fun cmd hcmd => ?_⟩
        exact (hfound cmd hcmd).imp_left (List.mem_cons_of_mem _)
      · refine ⟨skipped ++ rest, r.pendingKeys, rfl, fun cmd hcmd => ?_⟩
        cases hcmd
        exact ⟨List.mem_cons_self, hcommitted, hbranch⟩

/-- Nothing but the pending commands changes, or one of them is proposed. -/
theorem tryPropose_cases (view : Int) (qc : QC) :
    ∃ pending keys,
      r.tryPropose cfg view qc = { r with pending := pending, pendingKeys := keys } ∨
      ∃ cmd, MayPropose cfg r r.pending view qc cmd ∧
        r.tryPropose cfg view qc =
          ({ r with pending := pending, pendingKeys := keys }).proposeLeaf cfg view qc cmd := by
  simp only [tryPropose]
  split_ifs with hguard
  · exact ⟨r.pending, r.pendingKeys, Or.inl rfl⟩
  · exact ⟨r.pending, r.pendingKeys, Or.inl rfl⟩
  · push Not at hguard
    obtain ⟨pending, keys, heq, hfound⟩ :=
      r.nextCommandLoop_cases (r.branchCmds.getD qc.nodeHash []) [] r.pending
    refine ⟨pending, keys, ?_⟩
    split
    case h_1 r' hnext =>
      rw [nextCommand] at hnext
      rw [hnext] at heq
      exact Or.inl heq
    case h_2 cmd r' hnext =>
      rw [nextCommand] at hnext
      rw [hnext] at heq hfound
      obtain ⟨hwaits, huncommitted, hnot⟩ := hfound cmd rfl
      simp only at heq
      rw [heq]
      exact Or.inr ⟨cmd, ⟨hguard.1, by simpa using hguard.2, hwaits, huncommitted, hnot⟩, rfl⟩

/-- A NEW-VIEW message is dropped, or it is filed and may lead to a proposal. -/
theorem onNewView_cases (m : Msg Cmd) :
    r.onNewView cfg m = r ∨
      cfg.isLeader (m.viewNumber + 1) r.id = true ∧
      Replica.verifyJustify cfg m.justify = true ∧
      ∃ s : ChainedReplica Cmd,
        s = { r with newView := r.newView.set (m.viewNumber + 1) (r.newViewWith m) } ∧
        (r.onNewView cfg m = s ∨ r.onNewView cfg m = s.raise ∨
          ∃ high, newViewCall cfg r m = some (m.viewNumber + 1, high) ∧
            high ∈ (r.newViewWith m).values ∧
            r.onNewView cfg m = s.tryPropose cfg (m.viewNumber + 1) high) := by
  simp only [ChainedReplica.onNewView]
  split
  case isTrue => exact Or.inl rfl
  case isFalse hguard =>
    have hchecks := hguard
    push Not at hchecks
    refine Or.inr ⟨by simpa using hchecks.1, by simpa using hchecks.2, _, rfl, ?_⟩
    split
    case isFalse => exact Or.inl rfl
    case isTrue hquorum =>
      split
      case h_2 => exact Or.inr (Or.inl rfl)
      case h_1 high hmax =>
        refine Or.inr (Or.inr ⟨high, ?_, mem_of_maxBy hmax, rfl⟩)
        rw [newViewCall, if_neg hguard, newViewWith, if_pos hquorum, hmax]
        rfl

/-- An audit changes the list of audited certificates only. -/
theorem recordQc_cases (qc : QC) : ∃ qcs, r.recordQc qc = { r with qcs := qcs } := by
  unfold recordQc
  split
  case isTrue => exact ⟨r.qcs, rfl⟩
  case isFalse => exact ⟨_, rfl⟩

/-- A vote is dropped, or it is counted and may lead to a proposal. -/
theorem onGenericVote_cases (m : Msg Cmd) (rid : Int) (sig : Sig) :
    r.onGenericVote cfg m rid sig = r ∨ r.onGenericVote cfg m rid sig = r.raise ∨
      ∃ node formed qcs, ∃ s : ChainedReplica Cmd, Counted cfg r m rid sig node ∧
        s = { r with
          votes := r.votes.set (m.viewNumber, node.hash) (r.votesWith m rid node)
          formed := formed
          qcs := qcs } ∧
        (r.onGenericVote cfg m rid sig = s ∨ r.onGenericVote cfg m rid sig = s.raise ∨
          ∃ qc, voteCall cfg r m rid sig = some (m.viewNumber + 1, qc) ∧
            cfg.quorum ≤ (r.votesWith m rid node).size ∧
            buildQc (r.votesWith m rid node).values cfg.quorum = some qc ∧
            r.onGenericVote cfg m rid sig = s.tryPropose cfg (m.viewNumber + 1) qc) := by
  simp only [ChainedReplica.onGenericVote]
  split
  case h_1 => exact Or.inl rfl
  case h_2 node hnode =>
    split
    case isTrue => exact Or.inl rfl
    case isFalse hleader =>
      split
      case h_1 => exact Or.inr (Or.inl rfl)
      case h_2 vk hvk =>
        split_ifs with hverify hformed hquorum
        · exact Or.inl rfl
        · exact Or.inl rfl
        all_goals
          have hcounted : Counted cfg r m rid sig node :=
            ⟨hnode, by simpa using hleader, ⟨vk, hvk, by simpa using hverify⟩, hformed⟩
          refine Or.inr (Or.inr ?_)
        · refine ⟨node, r.formed.insert (m.viewNumber, node.hash), ?_⟩
          split
          case h_2 => exact ⟨r.qcs, _, hcounted, rfl, Or.inr (Or.inl rfl)⟩
          case h_1 qc hqc =>
            obtain ⟨qcs, hrecord⟩ := recordQc_cases { r with
              votes := r.votes.set (m.viewNumber, node.hash) (r.votesWith m rid node)
              formed := r.formed.insert (m.viewNumber, node.hash) } qc
            refine ⟨qcs, _, hcounted, rfl, Or.inr (Or.inr ⟨qc, ?_, hquorum, hqc, ?_⟩)⟩
            · rw [hcounted.voteCall hquorum, votesWith, hqc]
              rfl
            · rw [← hrecord]
              rfl
        · exact ⟨node, r.formed, r.qcs, _, hcounted, rfl, Or.inl rfl⟩

/-- Executing nodes changes the log and the state machine only. -/
theorem foldl_executeNode_cases (bs : List (Node Cmd)) :
    ∃ sm committed executed keys replies, bs.foldl executeNode r = { r with
      sm := sm
      committed := committed
      executed := executed
      committedCmds := keys
      replies := replies } := by
  induction bs generalizing r with
  | nil => exact ⟨r.sm, r.committed, r.executed, r.committedCmds, r.replies, rfl⟩
  | cons b bs ih =>
      obtain ⟨sm, committed, executed, keys, replies, heq⟩ := ih (r.executeNode b)
      refine ⟨sm, committed, executed, keys, replies, ?_⟩
      rw [List.foldl_cons, heq]
      unfold executeNode
      cases b.cmd with
      | none => rfl
      | some cmd => rfl

/-- The node has no usable certificate, or the certificate is adopted, the two-chain
locked and the three-chain executed. -/
theorem update_cases (bStar : Node Cmd) :
    justified r.tree bStar = none ∧ (r.update bStar = r ∨ r.update bStar = r.raise) ∨
    ∃ qc, bStar.justify = some qc ∧
      r.update bStar = (newlyCommitted r.tree r.unexecuted bStar).foldl executeNode { r with
        genericQc := if r.genericQc.viewNumber < qc.viewNumber then qc else r.genericQc
        lockedNode := lockOn r.lockedNode (twoChain r.tree bStar) } := by
  simp only [update]
  split
  case h_1 hnone =>
    left
    exact ⟨by simp [justified, hnone], Or.inr rfl⟩
  case h_2 qc hqc =>
    split
    case h_1 hmissing =>
      left
      exact ⟨by simp [justified, hqc, hmissing], Or.inl rfl⟩
    case h_2 b2 h2 =>
      right
      refine ⟨qc, hqc, ?_⟩
      have h2' : justified r.tree bStar = some b2 := by simp [justified, hqc, h2]
      simp only [newlyCommitted, threeChain, twoChain, h2', Option.bind_some]
      cases h1 : justified r.tree b2 with
      | none => rfl
      | some b1 =>
          simp only [Option.bind_some]
          cases h0 : justified r.tree b1 with
          | none => rfl
          | some b0 =>
              by_cases hviews : b1.viewNumber = b0.viewNumber + 1 ∧
                  b2.viewNumber = b1.viewNumber + 1
              · simp only [if_pos hviews]
                rfl
              · simp only [if_neg hviews]
                rfl

/-- A proposal is refused, it is incomplete, or its node is stored, voted for and
followed. -/
theorem onGeneric_cases (m : Msg Cmd) :
    r.onGeneric cfg m = r ∨ r.onGeneric cfg m = r.raise ∨
    ∃ bStar qc, Accepts cfg m bStar qc ∧ r.onGeneric cfg m =
      ((r.storeProposal cfg m bStar).vote cfg m.viewNumber bStar qc).update bStar := by
  simp only [onGeneric]
  split
  case isTrue => exact Or.inl rfl
  case isFalse hguard =>
    push Not at hguard
    obtain ⟨hsender, hverify⟩ := hguard
    right
    split
    case h_2 => exact Or.inl rfl
    case h_1 bStar qc hnode hqc =>
      refine Or.inr ⟨bStar, qc, ⟨hsender, hnode, hqc, by simpa [hqc] using hverify⟩, ?_⟩
      have hentered : (if (({ r with tree := r.tree.add bStar }).registerBranch bStar).view <
            m.viewNumber then
          (({ r with tree := r.tree.add bStar }).registerBranch bStar).enter cfg m.viewNumber
          else ({ r with tree := r.tree.add bStar }).registerBranch bStar) =
          r.storeProposal cfg m bStar := by
        have hview : (({ r with tree := r.tree.add bStar }).registerBranch bStar).view = r.view :=
          rfl
        rw [hview, storeProposal]
        by_cases hlt : r.view < m.viewNumber
        · rw [if_pos hlt, if_pos hlt, max_eq_right hlt.le]
          rfl
        · rw [if_neg hlt, if_neg hlt, max_eq_left (not_lt.mp hlt)]
          rfl
      rw [hentered]

end Handlers

/-! ## Steps -/

/-- The inputs of a replica whose last output is gone. -/
inductive Occurs (cfg : Config) (r : ChainedReplica Cmd) : Input Cmd → ChainedReplica Cmd → Prop
  | start : Occurs cfg r .start ({ r with started := true }.advanceFrom cfg 0)
  | newView (m : Msg Cmd) : m.type = .newView →
      Occurs cfg r (.dispatch m) (r.onNewView cfg m)
  | genericVote (m : Msg Cmd) (rid : Int) (sig : Sig) : m.type = .generic →
      m.partialSig = some (rid, sig) →
      Occurs cfg r (.dispatch m) (r.onGenericVote cfg m rid sig)
  | generic (m : Msg Cmd) : m.type = .generic → m.partialSig = none →
      Occurs cfg r (.dispatch m) (r.onGeneric cfg m)
  | ignored (m : Msg Cmd) : Occurs cfg r (.dispatch m) r
  | submit (cmd : Cmd) : Occurs cfg r (.submit cmd) (r.submit cfg cmd)
  | timeout (view : Int) : Occurs cfg r .timeout ({ r with timer := none }.onTimeout cfg view)
  | stop : Occurs cfg r .stop { r with running := false, timer := none }

theorem occurs_of_step
    {cfg : Config} {r r' : ChainedReplica Cmd} {i : Input Cmd}
    (h : r.step cfg i = some r') :
    Occurs cfg { r with outbox := [], replies := [] } i r' := by
  cases i with
  | start =>
      simp only [step, Option.ite_none_left_eq_some, Option.some.injEq] at h
      obtain ⟨-, rfl⟩ := h
      exact .start
  | dispatch m =>
      simp only [step, Option.ite_none_right_eq_some, Option.some.injEq] at h
      obtain ⟨-, rfl⟩ := h
      unfold dispatch
      split
      case h_1 htype => exact .newView m htype
      case h_2 htype =>
        split
        case h_1 rid sig hsig => exact .genericVote m rid sig htype hsig
        case h_2 hsig => exact .generic m htype hsig
      case h_3 => exact .ignored m
  | submit cmd =>
      cases h
      exact .submit cmd
  | timeout =>
      simp only [step] at h
      split at h
      case h_1 view _ =>
        cases h
        exact .timeout view
      case h_2 => cases h
  | stop =>
      cases h
      exact .stop

end ChainedReplica
end HotStuff
end DistributedConsensus
