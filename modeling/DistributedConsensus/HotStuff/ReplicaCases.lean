import DistributedConsensus.HotStuff.Replica

/-!
# Basic HotStuff: what the handlers can do

For each handler of a replica the list of the states that it can leave behind, with what
holds when it does.  The properties of a replica are proved from these lists; the other
modules do not take the handlers apart again.
-/

namespace DistributedConsensus
namespace HotStuff
namespace Replica

open Foundations

variable {Cmd : Type} [Application Cmd]

/-! ## What the handlers check and compute -/

/-- The message comes from the leader of its view and carries an accepted
certificate of the given type for that view. -/
structure Accepts (cfg : Config) (m : Msg Cmd) (t : MsgType) (qc : QC) : Prop where
  sender : m.sender = cfg.leader m.viewNumber
  justify : m.justify = some qc
  type : qc.type = t
  view : qc.viewNumber = m.viewNumber
  verified : verifyJustify cfg (some qc) = true

omit [Application Cmd] in
/-- The checks at the head of the phase handlers. -/
theorem accepts_of_guards
    {cfg : Config} {m : Msg Cmd} {t : MsgType} {qc : QC}
    (hguard : ¬ (m.sender ≠ cfg.leader m.viewNumber ∨
      (!matchingQc m.justify t m.viewNumber) = true))
    (hverify : ¬ (!verifyJustify cfg m.justify) = true)
    (hqc : m.justify = some qc) :
    Accepts cfg m t qc := by
  rw [hqc] at hguard hverify
  simp [matchingQc] at hguard hverify
  exact ⟨hguard.1, hqc, hguard.2.1, hguard.2.2, hverify⟩

/-- The vote is valid and its certificate is not formed yet. -/
structure Counted (cfg : Config) (r : Replica Cmd) (m : Msg Cmd) (rid : Int) (sig : Sig)
    (node : Node Cmd) : Prop where
  partialSig : m.partialSig = some (rid, sig)
  voted : m.node = some node
  signed : ∃ vk, pyIndex (verifyKeys cfg.n) rid = some vk ∧
    sig = .signed vk m.type m.viewNumber node.hash
  fresh : (m.type, m.viewNumber, node.hash) ∉ r.formed

/-- The votes for the node of a vote, with the vote. -/
def votesWith (r : Replica Cmd) (m : Msg Cmd) (rid : Int) (node : Node Cmd) :
    Dict Int (Msg Cmd) :=
  (r.votes.getD (m.type, m.viewNumber, node.hash) Dict.empty).set rid m

/-- The certificates for the view after that of a NEW-VIEW message, with its certificate. -/
def newViewWith (r : Replica Cmd) (m : Msg Cmd) : Dict Int QC :=
  (r.newView.getD (m.viewNumber + 1) Dict.empty).set m.sender (m.justify.getD genesisQc)

/-- A proposed node is stored. -/
def storeProposal (r : Replica Cmd) (m : Msg Cmd) (node : Node Cmd) : Replica Cmd :=
  { r with
    tree := r.tree.add node
    view := max r.view m.viewNumber }

/-- The rest of a decision, once its branch is executed. -/
def leaveDecided (cfg : Config) (r : Replica Cmd) (m : Msg Cmd) : Replica Cmd :=
  if m.viewNumber ∈ r.decided then r
  else
    let r := { r with
      decided := r.decided.insert m.viewNumber
      failures := 0 }
    r.advanceFrom cfg m.viewNumber

/-! ## The handlers -/

section Handlers

variable (cfg : Config) (r : Replica Cmd) (m : Msg Cmd)

/-- The loop changes what is pending only. -/
theorem nextCommandLoop_cases (cmds : List Cmd) :
    ∃ pending keys, (r.nextCommandLoop cmds).2 = { r with
      pending := pending
      pendingKeys := keys } := by
  induction cmds generalizing r with
  | nil => exact ⟨[], r.pendingKeys, rfl⟩
  | cons cmd rest ih =>
      simp only [nextCommandLoop]
      split
      case isTrue => exact ih { r with pendingKeys := r.pendingKeys.filter (· ≠ cmdKey cmd) }
      case isFalse => exact ⟨rest, r.pendingKeys, rfl⟩

/-- Nothing but the pending commands changes, or one of them is proposed below the high
certificate. -/
theorem tryPropose_cases (view : Int) :
    ∃ pending keys,
      r.tryPropose cfg view = { r with pending := pending, pendingKeys := keys } ∨
      ∃ high cmd, r.highQc.get? view = some high ∧
        r.tryPropose cfg view = ({ r with
          pending := pending
          pendingKeys := keys
          tree := r.tree.add (createLeaf high.nodeHash cmd view)
          proposed := r.proposed.insert view }).broadcast cfg
            (r.proposalMsg view (createLeaf high.nodeHash cmd view) high) := by
  unfold tryPropose
  split
  case h_1 => exact ⟨r.pending, r.pendingKeys, Or.inl rfl⟩
  case h_2 high hhigh =>
    split_ifs
    · exact ⟨r.pending, r.pendingKeys, Or.inl rfl⟩
    · exact ⟨r.pending, r.pendingKeys, Or.inl rfl⟩
    · obtain ⟨pending, keys, heq⟩ := r.nextCommandLoop_cases r.pending
      refine ⟨pending, keys, ?_⟩
      split
      case h_1 r' hnext =>
        rw [nextCommand] at hnext
        rw [hnext] at heq
        exact Or.inl heq
      case h_2 cmd r' hnext =>
        rw [nextCommand] at hnext
        rw [hnext] at heq
        simp only at heq
        rw [heq]
        exact Or.inr ⟨high, cmd, hhigh, rfl⟩

/-- The message is ignored, it is counted, or it completes a quorum, and the highest
certificate starts the view. -/
theorem onNewView_cases :
    r.onNewView cfg m = r ∨
    r.onNewView cfg m =
      { r with newView := r.newView.set (m.viewNumber + 1) (r.newViewWith m) } ∨
    ∃ high, maxBy QC.viewNumber (r.newViewWith m).values = some high ∧
      r.onNewView cfg m = ({ r with
        newView := r.newView.set (m.viewNumber + 1) (r.newViewWith m)
        highQc := r.highQc.set (m.viewNumber + 1) high }).tryPropose cfg
          (m.viewNumber + 1) := by
  simp only [onNewView]
  split_ifs
  · exact Or.inl rfl
  · exact Or.inl rfl
  · right
    split
    case h_1 high hmax => exact Or.inr ⟨high, hmax, rfl⟩
    case h_2 => exact Or.inl rfl
  · exact Or.inr (Or.inl rfl)

/-- A vote is dropped, its signer is not in the key list, or it is counted and may
complete a quorum. -/
theorem tally_cases :
    r.tally cfg m = (none, r) ∨ r.tally cfg m = (none, r.raise) ∨
    ∃ rid sig node, Counted cfg r m rid sig node ∧
      ((cfg.quorum ≤ (r.votesWith m rid node).size ∧
        r.tally cfg m = (some (r.votesWith m rid node).values, { r with
          votes := r.votes.set (m.type, m.viewNumber, node.hash) (r.votesWith m rid node)
          formed := r.formed.insert (m.type, m.viewNumber, node.hash) })) ∨
      (¬ cfg.quorum ≤ (r.votesWith m rid node).size ∧
        r.tally cfg m = (none, { r with
          votes := r.votes.set (m.type, m.viewNumber, node.hash)
            (r.votesWith m rid node) }))) := by
  simp only [tally]
  split
  case h_2 => exact Or.inl rfl
  case h_1 rid sig node hsig hnode =>
    split
    case h_1 => exact Or.inr (Or.inl rfl)
    case h_2 vk hvk =>
      split_ifs with hverify hformed hquorum
      · exact Or.inl rfl
      · exact Or.inl rfl
      all_goals
        rw [Bool.not_eq_true, Bool.not_eq_false', verifyVote_iff] at hverify
        have hcounted : Counted cfg r m rid sig node :=
          ⟨hsig, hnode, ⟨vk, hvk, hverify⟩, hformed⟩
      · exact Or.inr (Or.inr ⟨rid, sig, node, hcounted, Or.inl ⟨hquorum, rfl⟩⟩)
      · exact Or.inr (Or.inr ⟨rid, sig, node, hcounted, Or.inr ⟨hquorum, rfl⟩⟩)

/-- An audit changes the list of audited certificates only. -/
theorem recordQc_cases (qc : QC) : ∃ qcs, r.recordQc qc = { r with qcs := qcs } := by
  unfold recordQc
  split
  case isTrue => exact ⟨r.qcs, rfl⟩
  case isFalse => exact ⟨_, rfl⟩

/-- No quorum is complete, its votes give no certificate, or the certificate is sent with
the next phase. -/
theorem onPrepareVote_cases :
    r.onPrepareVote cfg m = (r.tally cfg m).2 ∨
    r.onPrepareVote cfg m = (r.tally cfg m).2.raise ∨
    ∃ votes qc qcs, (r.tally cfg m).1 = some votes ∧ buildQc votes cfg.quorum = some qc ∧
      r.onPrepareVote cfg m = ({ (r.tally cfg m).2 with
        prepareQc := qc
        qcs := qcs }).broadcast cfg
          ((r.tally cfg m).2.phaseMsg .preCommit m.viewNumber qc) := by
  unfold onPrepareVote
  split
  case h_1 r' heq =>
    rw [heq]
    exact Or.inl rfl
  case h_2 votes r' heq =>
    rw [heq]
    right
    split
    case h_1 => exact Or.inl rfl
    case h_2 qc hqc =>
      obtain ⟨qcs, hrecord⟩ := recordQc_cases { r' with prepareQc := qc } qc
      simp only [hrecord]
      exact Or.inr ⟨votes, qc, qcs, rfl, hqc, rfl⟩

/-- The same for the votes of the later phases. -/
theorem onGenericVote_cases :
    r.onGenericVote cfg m = (r.tally cfg m).2 ∨
    r.onGenericVote cfg m = (r.tally cfg m).2.raise ∨
    ∃ votes qc t qcs, (r.tally cfg m).1 = some votes ∧ buildQc votes cfg.quorum = some qc ∧
      r.onGenericVote cfg m = ({ (r.tally cfg m).2 with qcs := qcs }).broadcast cfg
        ((r.tally cfg m).2.phaseMsg t m.viewNumber qc) := by
  unfold onGenericVote
  split
  case h_1 r' heq =>
    rw [heq]
    exact Or.inl rfl
  case h_2 votes r' heq =>
    rw [heq]
    right
    split
    case h_1 => exact Or.inl rfl
    case h_2 qc hqc =>
      right
      obtain ⟨qcs, hrecord⟩ := recordQc_cases r' qc
      simp only [hrecord]
      split
      case isTrue => exact ⟨votes, qc, .commit, qcs, rfl, hqc, rfl⟩
      case isFalse => exact ⟨votes, qc, .decide, qcs, rfl, hqc, rfl⟩

/-- A proposal is refused, it is incomplete, or its node is stored; then its parent is
asked for, it is unsafe, or it gets a vote. -/
theorem onPrepare_cases :
    r.onPrepare cfg m = r ∨ r.onPrepare cfg m = r.raise ∨
    ∃ node qc, m.sender = cfg.leader m.viewNumber ∧ m.node = some node ∧
      m.justify = some qc ∧ verifyJustify cfg (some qc) = true ∧
      (r.onPrepare cfg m = (r.storeProposal m node).requestSync qc.nodeHash m.sender ∨
      r.onPrepare cfg m = r.storeProposal m node ∨
      ∃ parent, (r.storeProposal m node).tree.get qc.nodeHash = some parent ∧
        (r.storeProposal m node).tree.extendsNode node parent = true ∧
        (r.storeProposal m node).safeNode node qc = true ∧
        r.onPrepare cfg m = (r.storeProposal m node).sendVote cfg .prepare m.viewNumber node) := by
  simp only [onPrepare]
  split
  case isTrue => exact Or.inl rfl
  case isFalse hguard =>
    push Not at hguard
    obtain ⟨hsender, hverify⟩ := hguard
    right
    split
    case h_2 => exact Or.inl rfl
    case h_1 node qc hnode hqc =>
      refine Or.inr ⟨node, qc, hsender, hnode, hqc, by simpa [hqc] using hverify, ?_⟩
      split
      case h_1 => exact Or.inl rfl
      case h_2 parent hparent =>
        right
        split_ifs with hext hsafe
        · exact Or.inl rfl
        · exact Or.inl rfl
        · exact Or.inr ⟨parent, hparent, by simpa [storeProposal] using hext,
            by simpa [storeProposal] using hsafe, rfl⟩

/-- The message is refused, or its certificate is kept, and a vote is cast if the node is
stored. -/
theorem onPreCommit_cases :
    r.onPreCommit cfg m = r ∨
    ∃ qc, Accepts cfg m .prepare qc ∧
      (r.onPreCommit cfg m = { r with prepareQc := qc } ∨
      ∃ node, r.tree.get qc.nodeHash = some node ∧
        r.onPreCommit cfg m =
          ({ r with prepareQc := qc }).sendVote cfg .preCommit m.viewNumber node) := by
  simp only [onPreCommit]
  split_ifs with hguard hverify
  · exact Or.inl rfl
  · exact Or.inl rfl
  · split
    case h_1 => exact Or.inl rfl
    case h_2 qc hqc =>
      refine Or.inr ⟨qc, accepts_of_guards hguard hverify hqc, ?_⟩
      split
      case h_1 => exact Or.inl rfl
      case h_2 node hnode => exact Or.inr ⟨node, hnode, rfl⟩

/-- The message is refused, its node is missing, or it is locked and voted for. -/
theorem onCommit_cases :
    r.onCommit cfg m = r ∨
    ∃ qc node, Accepts cfg m .preCommit qc ∧ r.tree.get qc.nodeHash = some node ∧
      r.onCommit cfg m = ({ r with lockedQc := qc }).sendVote cfg .commit m.viewNumber node := by
  simp only [onCommit]
  split_ifs with hguard hverify
  · exact Or.inl rfl
  · exact Or.inl rfl
  · split
    case h_1 => exact Or.inl rfl
    case h_2 qc hqc =>
      split
      case h_1 => exact Or.inl rfl
      case h_2 node hnode =>
        exact Or.inr ⟨qc, node, accepts_of_guards hguard hverify hqc, hnode, rfl⟩

/-- Executing a branch changes the log and the state machine only. -/
theorem execute_cases (b : Node Cmd) :
    ∃ sm committed executed keys replies, r.execute b = { r with
      sm := sm
      committed := committed
      executed := executed
      committedCmds := keys
      replies := replies } := by
  have hfold : ∀ (bs : List (Node Cmd)) (r : Replica Cmd),
      ∃ sm committed executed keys replies, bs.foldl executeNode r = { r with
        sm := sm
        committed := committed
        executed := executed
        committedCmds := keys
        replies := replies } := by
    intro bs
    induction bs with
    | nil => exact fun r => ⟨r.sm, r.committed, r.executed, r.committedCmds, r.replies, rfl⟩
    | cons b bs ih =>
        intro r
        obtain ⟨sm, committed, executed, keys, replies, heq⟩ := ih (r.executeNode b)
        refine ⟨sm, committed, executed, keys, replies, ?_⟩
        rw [List.foldl_cons, heq]
        unfold executeNode
        cases b.cmd with
        | none => rfl
        | some cmd => rfl
  exact hfold _ r

/-- The message is refused, kept until its branch is complete, or its branch is executed. -/
theorem onDecide_cases :
    r.onDecide cfg m = r ∨
    ∃ qc, Accepts cfg m .commit qc ∧
      ((∃ h, r.onDecide cfg m =
        { r.requestSync h m.sender with deferred := r.deferred ++ [m] }) ∨
      r.onDecide cfg m = r.leaveDecided cfg m ∨
      ∃ b, r.tree.get qc.nodeHash = some b ∧ r.firstMissingAncestor b = none ∧
        r.onDecide cfg m = (r.execute b).leaveDecided cfg m) := by
  simp only [onDecide]
  split_ifs with hguard hverify
  · exact Or.inl rfl
  · exact Or.inl rfl
  · split
    case h_1 => exact Or.inl rfl
    case h_2 qc hqc =>
      refine Or.inr ⟨qc, accepts_of_guards hguard hverify hqc, ?_⟩
      split
      case h_1 h _ => exact Or.inl ⟨h, rfl⟩
      case h_2 hmissing =>
        right
        cases hget : r.tree.get qc.nodeHash with
        | none => exact Or.inl rfl
        | some b =>
            rw [hget] at hmissing
            exact Or.inr ⟨b, rfl, hmissing, rfl⟩

/-- The request is unusable, the branch is unknown, or it is sent. -/
theorem onSyncReq_cases :
    r.onSyncReq m = r ∨ r.onSyncReq m = r.raise ∨
    ∃ h, r.onSyncReq m = r.send m.sender {
      type := .syncResp
      viewNumber := r.view
      sender := r.id
      node := none
      justify := none
      partialSig := none
      payload := .nodes (r.tree.branch (· ≠ genesisHash) h) } := by
  simp only [onSyncReq]
  split
  case h_1 => exact Or.inr (Or.inl rfl)
  case h_2 => exact Or.inl rfl
  case h_3 h _ =>
    split
    case isTrue => exact Or.inl rfl
    case isFalse => exact Or.inr (Or.inr ⟨h, rfl⟩)

/-- The received nodes are stored and the kept decisions are taken up again, or the
payload is unusable. -/
theorem onSyncResp_cases :
    r.onSyncResp cfg m = r.raise ∨ ∃ chain, (m.payload = .nodes chain ∨ chain = []) ∧
      r.onSyncResp cfg m = r.deferred.foldl (onDecide cfg)
        { r with tree := chain.foldl Tree.add r.tree, deferred := [] } := by
  unfold onSyncResp
  split
  case h_1 chain hchain => exact Or.inr ⟨chain, Or.inl hchain, rfl⟩
  case h_2 =>
    split
    case isTrue => exact Or.inr ⟨[], Or.inr rfl, rfl⟩
    case isFalse => exact Or.inl rfl
  case h_3 => exact Or.inl rfl

end Handlers

/-! ## Dispatch and steps -/

section Steps

variable {cfg : Config} {r : Replica Cmd}

/-- The handlers that `dispatch` chooses from. -/
inductive Handled (cfg : Config) (r : Replica Cmd) (m : Msg Cmd) : Replica Cmd → Prop
  | newView : m.type = .newView → Handled cfg r m (r.onNewView cfg m)
  | prepareVote : m.type = .prepare → m.partialSig.isSome = true →
      Handled cfg r m (r.onPrepareVote cfg m)
  | prepare : m.type = .prepare → m.partialSig = none → Handled cfg r m (r.onPrepare cfg m)
  | genericVote : m.type ≠ .prepare → m.partialSig.isSome = true →
      Handled cfg r m (r.onGenericVote cfg m)
  | preCommit : m.type = .preCommit → m.partialSig = none →
      Handled cfg r m (r.onPreCommit cfg m)
  | commit : m.type = .commit → m.partialSig = none → Handled cfg r m (r.onCommit cfg m)
  | decide : m.type = .decide → Handled cfg r m (r.onDecide cfg m)
  | syncReq : m.type = .syncReq → Handled cfg r m (r.onSyncReq m)
  | syncResp : m.type = .syncResp → Handled cfg r m (r.onSyncResp cfg m)
  | ignored : m.type = .generic → Handled cfg r m r

/-- A message is handled once the view of a phase is entered. -/
theorem dispatch_handled (cfg : Config) (r : Replica Cmd) (m : Msg Cmd) :
    ∃ s, (s = r ∨ r.view < m.viewNumber ∧ s = r.syncView cfg m.viewNumber) ∧
      (m.partialSig = none → m.type = .prepare ∨ m.type = .decide → m.viewNumber ≤ s.view) ∧
      Handled cfg s m (r.dispatch cfg m) := by
  obtain ⟨s, hs, hsync, hview⟩ : ∃ s, (if (m.type = .prepare ∨ m.type = .preCommit ∨
        m.type = .commit ∨ m.type = .decide) ∧ (!m.partialSig.isSome) = true ∧
        r.view < m.viewNumber then r.syncView cfg m.viewNumber else r) = s ∧
      (s = r ∨ r.view < m.viewNumber ∧ s = r.syncView cfg m.viewNumber) ∧
      (m.partialSig = none → m.type = .prepare ∨ m.type = .decide → m.viewNumber ≤ s.view) := by
    refine ⟨_, rfl, ?_, ?_⟩
    · split
      case isTrue h => exact Or.inr ⟨h.2.2, rfl⟩
      case isFalse => exact Or.inl rfl
    · intro hnone htype
      split
      case isTrue => exact le_refl _
      case isFalse h => rcases htype with htype | htype <;> simpa [htype, hnone] using h
  have hnone : ¬ m.partialSig.isSome = true → m.partialSig = none := by simp
  refine ⟨s, hsync, hview, ?_⟩
  simp only [dispatch, hs]
  split
  case h_1 htype => exact .newView htype
  case h_2 htype =>
    split
    case isTrue hvote => exact .prepareVote htype hvote
    case isFalse hvote => exact .prepare htype (hnone hvote)
  case h_3 htype =>
    split
    case isTrue hvote => exact .genericVote (by simp [htype]) hvote
    case isFalse hvote => exact .preCommit htype (hnone hvote)
  case h_4 htype =>
    split
    case isTrue hvote => exact .genericVote (by simp [htype]) hvote
    case isFalse hvote => exact .commit htype (hnone hvote)
  case h_5 htype => exact .decide htype
  case h_6 htype => exact .syncReq htype
  case h_7 htype => exact .syncResp htype
  case h_8 htype => exact .ignored htype

/-- The inputs of a replica whose last output is gone. -/
inductive Occurs (cfg : Config) (r : Replica Cmd) : Input Cmd → Replica Cmd → Prop
  | start : Occurs cfg r .start ({ r with started := true }.advanceFrom cfg 0)
  | dispatch (m : Msg Cmd) : Occurs cfg r (.dispatch m) (r.dispatch cfg m)
  | submit (cmd : Cmd) : Occurs cfg r (.submit cmd) (r.submit cfg cmd)
  | timeout (view : Int) : Occurs cfg r .timeout ({ r with timer := none }.onTimeout cfg view)
  | stop : Occurs cfg r .stop { r with running := false, timer := none }

theorem occurs_of_step
    {r' : Replica Cmd} {i : Input Cmd}
    (h : r.step cfg i = some r') :
    Occurs cfg { r with outbox := [], replies := [] } i r' := by
  cases i with
  | start =>
      simp only [step, Option.ite_none_left_eq_some, Option.some.injEq] at h
      obtain ⟨-, rfl⟩ := h
      exact .start
  | dispatch m =>
      simp only [step, Option.ite_none_right_eq_some, Option.some.injEq] at h
      obtain ⟨-, rfl⟩ := h
      exact .dispatch m
  | submit cmd =>
      cases h
      exact .submit cmd
  | timeout =>
      simp only [step] at h
      split at h
      case h_1 view _ =>
        cases h
        exact .timeout view
      case h_2 => cases h
  | stop =>
      cases h
      exact .stop

end Steps

end Replica
end HotStuff
end DistributedConsensus
