import DistributedConsensus.GoHotStuff.Tree

/-!
# Go HotStuff: what a node does

Whatever a node handles, it takes a sequence of small actions: it grows its tree, takes
a lock, casts a vote, counts a share, combines a certificate, executes a path, sends a
message without a share (`Act`), or enters a later view and forgets its messages
(`Move`).  Each action comes with the checks that the handlers make before it.

The shares that are counted satisfy `K`.  A lock is taken and a vote is cast for a view
only if `fresh` allows it in the current view of the node.  Replayed messages may be of a
view that the node has left: only a decision makes the node leave the view that it
replays, see `Orderly`.
-/

namespace DistributedConsensus
namespace GoHotStuff

open Foundations

/-! ## Messages -/

namespace Message

/-- The shares in a message satisfy `K`. -/
def Signed (K : SignatureShare → Prop) (msg : Message) : Prop :=
  ∀ share, msg.partialSig = some share → K share

/-- The message carries a certificate of the type, for the view of the message. -/
def certifies (msg : Message) (type : MsgType) : Bool :=
  msg.node.isNone &&
    msg.justify.any fun qc => decide (qc.type = type ∧ qc.viewNumber = msg.viewNumber)

def fromLeader (cfg : Config) (msg : Message) : Bool :=
  !msg.isVote && decide (msg.senderID = cfg.leaderForView msg.viewNumber)

/-- A request of the leader for a vote. -/
def asksForVote (cfg : Config) (msg : Message) : Bool :=
  msg.fromLeader cfg &&
    match msg.type with
    | .prepare => msg.node.isSome
    | .preCommit => msg.certifies .prepare
    | .commit => msg.certifies .preCommit
    | _ => false

/-- A decision of the leader. -/
def decides (cfg : Config) (msg : Message) : Bool :=
  msg.fromLeader cfg && decide (msg.type = .decide) && msg.certifies .commit

end Message

namespace Process

/-! ## Actions -/

/-- Why a node may cast a vote. -/
inductive Justified (cfg : Config) (n : Process) : MsgType → ℤ → String → Prop
  | prepare {viewNumber : ℤ} (node : TreeNode) (justify : Option QuorumCertificate) :
      cfg.hashNode node = node.hash →
      Known n.tree node.hash →
      (∀ qc, justify = some qc → qc.type = .prepare ∧ qc.viewNumber < viewNumber ∧
        verifyQC cfg n.shared.certificates qc = true ∧ node.parentHash = qc.nodeHash) →
      LockAllows n node.hash justify →
      Justified cfg n .prepare viewNumber node.hash
  | preCommit (qc : QuorumCertificate) :
      qc.type = .prepare →
      verifyQC cfg n.shared.certificates qc = true →
      Justified cfg n .preCommit qc.viewNumber qc.nodeHash
  | commit (qc : QuorumCertificate) :
      qc.type = .preCommit →
      verifyQC cfg n.shared.certificates qc = true →
      n.lockedQC = some qc →
      Justified cfg n .commit qc.viewNumber qc.nodeHash

/-- An action inside a view. -/
inductive Act (cfg : Config) (K : SignatureShare → Prop) (fresh : MsgType → ℤ → ℤ → Prop)
    (n : Process) : Process → Prop
  | quiet (phase : MsgType) (newViews : Dict ℤ (Dict String (Option QuorumCertificate)))
      (proposedInView : List ℤ) (pendingCommands : List Command) (knownCommands : List String)
      (formedQC : List (MsgType × ℤ × String)) (prepareQC : Option QuorumCertificate) :
      Act cfg K fresh n { n with
        phase := phase
        newViews := newViews
        proposedInView := proposedInView
        pendingCommands := pendingCommands
        knownCommands := knownCommands
        formedQC := formedQC
        prepareQC := prepareQC }
  | send (receiverID : String) (msg : Message) :
      msg.partialSig = none →
      Act cfg K fresh n (n.send cfg receiverID msg)
  | grow {tree : Dict String TreeNode} :
      Grows cfg n.tree tree →
      Act cfg K fresh n { n with tree := tree }
  | store (node : TreeNode) :
      Act cfg K fresh n { n with
        shared := { n.shared with nodeStore := n.shared.nodeStore.storeNode node } }
  | lock (qc : QuorumCertificate) :
      qc.type = .preCommit →
      verifyQC cfg n.shared.certificates qc = true →
      fresh .commit qc.viewNumber n.viewNumber →
      Act cfg K fresh n { n with lockedQC := some qc }
  | vote (phase : MsgType) (viewNumber : ℤ) (nodeHash leaderID : String) :
      n.voted.get? (phase, viewNumber) = none →
      fresh phase viewNumber n.viewNumber →
      Justified cfg n phase viewNumber nodeHash →
      Act cfg K fresh n (n.castVote cfg phase viewNumber nodeHash leaderID)
  | count (key : MsgType × ℤ × String) (senderID : String) (share : SignatureShare) :
      K share →
      Act cfg K fresh n { n with
        votes := n.votes.set key ((n.votes.getD key Dict.empty).set senderID share) }
  | certify (type : MsgType) (viewNumber : ℤ) (nodeHash token : String)
      (certificates : Dict String CertificateRecord) :
      combine cfg n.shared.certificates type viewNumber nodeHash
          (n.votes.getD (type, viewNumber, nodeHash) Dict.empty)
        = some (token, certificates) →
      Act cfg K fresh n { n with shared := { n.shared with certificates := certificates } }
  | execute (qc : QuorumCertificate) (nodes : List TreeNode) :
      qc.type = .commit →
      verifyQC cfg n.shared.certificates qc = true →
      Unexecuted n qc.nodeHash nodes →
      Act cfg K fresh n (nodes.reverse.foldl executeNode n)

/-- Actions inside a view, one after the other. -/
def Acts (cfg : Config) (K : SignatureShare → Prop) (fresh : MsgType → ℤ → ℤ → Prop) :
    Process → Process → Prop :=
  Relation.ReflTransGen (Act cfg K fresh)

section Handlers

variable {cfg : Config} {K : SignatureShare → Prop} {fresh : MsgType → ℤ → ℤ → Prop}
variable {n n' : Process} {msg : Message}

theorem Acts.refl (n : Process) : Acts cfg K fresh n n := Relation.ReflTransGen.refl

theorem Act.acts (h : Act cfg K fresh n n') : Acts cfg K fresh n n' :=
  Relation.ReflTransGen.single h

theorem Acts.then
    {n'' : Process}
    (h : Acts cfg K fresh n n')
    (h' : Act cfg K fresh n' n'') :
    Acts cfg K fresh n n'' :=
  Relation.ReflTransGen.tail h h'

theorem send_frame (cfg : Config) (n : Process) (receiverID : String) (msg : Message) :
    (n.send cfg receiverID msg).toNode = n.toNode ∧
      (n.send cfg receiverID msg).shared.nodeStore = n.shared.nodeStore ∧
      (n.send cfg receiverID msg).shared.certificates = n.shared.certificates ∧
      (n.send cfg receiverID msg).shared.signed = n.shared.signed := by
  unfold send
  split
  case isTrue => exact ⟨rfl, rfl, rfl, rfl⟩
  case isFalse => exact ⟨rfl, rfl, rfl, rfl⟩

@[simp] theorem toNode_send
    (cfg : Config) (n : Process) (receiverID : String) (msg : Message) :
    (n.send cfg receiverID msg).toNode = n.toNode :=
  (send_frame cfg n receiverID msg).1

@[simp] theorem toNode_castVote
    (cfg : Config) (n : Process) (phase : MsgType) (viewNumber : ℤ) (nodeHash leaderID : String) :
    (n.castVote cfg phase viewNumber nodeHash leaderID).toNode =
      { n.toNode with voted := n.voted.set (phase, viewNumber) nodeHash } :=
  toNode_send cfg _ leaderID _

theorem executeNodes_frame (nodes : List TreeNode) :
    (nodes.foldl executeNode n).id = n.id ∧
      (nodes.foldl executeNode n).viewNumber = n.viewNumber ∧
      (nodes.foldl executeNode n).lockedQC = n.lockedQC ∧
      (nodes.foldl executeNode n).tree = n.tree ∧
      (nodes.foldl executeNode n).voted = n.voted ∧
      (nodes.foldl executeNode n).votes = n.votes ∧
      (nodes.foldl executeNode n).futureMessages = n.futureMessages ∧
      (nodes.foldl executeNode n).shared = n.shared := by
  induction nodes generalizing n with
  | nil => exact ⟨rfl, rfl, rfl, rfl, rfl, rfl, rfl, rfl⟩
  | cons node nodes ih =>
      rw [List.foldl_cons]
      have hone : (n.executeNode node).id = n.id ∧
          (n.executeNode node).viewNumber = n.viewNumber ∧
          (n.executeNode node).lockedQC = n.lockedQC ∧
          (n.executeNode node).tree = n.tree ∧
          (n.executeNode node).voted = n.voted ∧
          (n.executeNode node).votes = n.votes ∧
          (n.executeNode node).futureMessages = n.futureMessages ∧
          (n.executeNode node).shared = n.shared := by
        unfold executeNode
        split
        case isTrue => exact ⟨rfl, rfl, rfl, rfl, rfl, rfl, rfl, rfl⟩
        case isFalse => exact ⟨rfl, rfl, rfl, rfl, rfl, rfl, rfl, rfl⟩
      obtain ⟨h1, h2, h3, h4, h5, h6, h7, h8⟩ := ih (n := n.executeNode node)
      obtain ⟨g1, g2, g3, g4, g5, g6, g7, g8⟩ := hone
      exact ⟨h1.trans g1, h2.trans g2, h3.trans g3, h4.trans g4, h5.trans g5, h6.trans g6,
        h7.trans g7, h8.trans g8⟩

/-- An action does not change the view or the kept messages. -/
theorem Act.frame
    (h : Act cfg K fresh n n') :
    n'.id = n.id ∧ n'.viewNumber = n.viewNumber ∧ n'.futureMessages = n.futureMessages := by
  cases h with
  | send receiverID msg => simp
  | vote phase viewNumber nodeHash leaderID => simp
  | execute qc nodes =>
      obtain ⟨hid, hview, -, -, -, -, hfuture, -⟩ := executeNodes_frame (n := n) nodes.reverse
      exact ⟨hid, hview, hfuture⟩
  | quiet => exact ⟨rfl, rfl, rfl⟩
  | grow => exact ⟨rfl, rfl, rfl⟩
  | store => exact ⟨rfl, rfl, rfl⟩
  | lock => exact ⟨rfl, rfl, rfl⟩
  | count => exact ⟨rfl, rfl, rfl⟩
  | certify => exact ⟨rfl, rfl, rfl⟩

theorem Acts.frame
    (h : Acts cfg K fresh n n') :
    n'.id = n.id ∧ n'.viewNumber = n.viewNumber ∧ n'.futureMessages = n.futureMessages := by
  induction h with
  | refl => exact ⟨rfl, rfl, rfl⟩
  | tail _ hact ih =>
      obtain ⟨h1, h2, h3⟩ := hact.frame
      exact ⟨h1.trans ih.1, h2.trans ih.2.1, h3.trans ih.2.2⟩

/-- An action takes a lock, or casts a vote, or leaves both alone. -/
theorem Act.voting
    (h : Act cfg K fresh n n') :
    n'.lockedQC = n.lockedQC ∧ n'.voted = n.voted ∧ n'.shared.signed = n.shared.signed ∨
      (∃ qc, qc.type = .preCommit ∧ verifyQC cfg n.shared.certificates qc = true ∧
        fresh .commit qc.viewNumber n.viewNumber ∧ n'.lockedQC = some qc ∧
        n'.voted = n.voted ∧ n'.shared.signed = n.shared.signed) ∨
      ∃ phase viewNumber nodeHash, n.voted.get? (phase, viewNumber) = none ∧
        fresh phase viewNumber n.viewNumber ∧ Justified cfg n phase viewNumber nodeHash ∧
        n'.lockedQC = n.lockedQC ∧ n'.voted = n.voted.set (phase, viewNumber) nodeHash ∧
        n'.shared.signed = ⟨n.id, n.viewNumber, phase, viewNumber, nodeHash⟩ :: n.shared.signed := by
  cases h with
  | lock qc htype hverify hfresh =>
      exact Or.inr (Or.inl ⟨qc, htype, hverify, hfresh, rfl, rfl, rfl⟩)
  | vote phase viewNumber nodeHash leaderID hnone hfresh hjust =>
      refine Or.inr (Or.inr ⟨phase, viewNumber, nodeHash, hnone, hfresh, hjust, ?_, ?_, ?_⟩)
      · simp
      · simp
      · exact (send_frame cfg _ leaderID _).2.2.2
  | send receiverID msg =>
      obtain ⟨hnode, -, -, hsigned⟩ := send_frame cfg n receiverID msg
      exact Or.inl ⟨by rw [hnode], by rw [hnode], hsigned⟩
  | execute qc nodes =>
      obtain ⟨-, -, hlock, -, hvoted, -, -, hshared⟩ := executeNodes_frame (n := n) nodes.reverse
      exact Or.inl ⟨hlock, hvoted, by rw [hshared]⟩
  | quiet => exact Or.inl ⟨rfl, rfl, rfl⟩
  | grow => exact Or.inl ⟨rfl, rfl, rfl⟩
  | store => exact Or.inl ⟨rfl, rfl, rfl⟩
  | count => exact Or.inl ⟨rfl, rfl, rfl⟩
  | certify => exact Or.inl ⟨rfl, rfl, rfl⟩

/-! ## Proposals -/

theorem acts_broadcast
    (hmsg : msg.partialSig = none) :
    Acts cfg K fresh n (n.broadcast cfg msg) := by
  have hall : ∀ (ids : List String) (n : Process),
      Acts cfg K fresh n (ids.foldl (fun n nodeID => n.send cfg nodeID msg) n) := by
    intro ids
    induction ids with
    | nil => exact fun n => Acts.refl n
    | cons id ids ih => exact fun n => (Act.send id msg hmsg).acts.trans (ih _)
  exact hall cfg.nodeIDs n

theorem acts_addNode
    {node : TreeNode}
    (hhash : cfg.hashNode node = node.hash)
    (hparent : Known n.tree node.parentHash) :
    Acts cfg K fresh n (n.addNode node) := by
  have hgrows : Grows cfg n.tree (n.tree.set node.hash node) :=
    Relation.ReflTransGen.single (AddsNode.add node hhash hparent)
  exact (Act.grow hgrows).acts.then (Act.store node)

theorem acts_propose
    {parentHash : String} {cmd : Command} {highQC : Option QuorumCertificate}
    (hparent : Known n.tree parentHash) :
    Acts cfg K fresh n (n.propose cfg parentHash cmd highQC) := by
  have hadd : Acts cfg K fresh n
      (n.addNode ⟨parentHash, cmd, cfg.hash parentHash cmd, n.viewNumber⟩) :=
    acts_addNode rfl hparent
  exact (hadd.then (Act.quiet .prepare _ _ _ _ _ _)).trans (acts_broadcast rfl)

theorem acts_tryPropose (o : MapOrder String) : Acts cfg K fresh n (n.tryPropose cfg o) := by
  rw [tryPropose]
  split
  case isTrue => exact Acts.refl n
  case isFalse =>
    simp only
    split
    case isTrue => exact Acts.refl n
    case isFalse =>
      split
      case h_1 => exact Acts.refl n
      case h_2 cmd _ =>
        split
        case h_1 => exact Acts.refl n
        case h_2 parentHash m hparent =>
          unfold proposalParent at hparent
          split at hparent
          case h_1 =>
            cases hparent
            exact acts_propose (Or.inl rfl)
          case h_2 qc _ =>
            split at hparent
            case isTrue => cases hparent
            case isFalse =>
              obtain ⟨m', hensure, heq⟩ := Option.map_eq_some_iff.mp hparent
              cases heq
              obtain ⟨tree, rfl, hgrows, hknown⟩ := ensureNode_spec hensure
              exact (Act.grow hgrows).acts.trans (acts_propose hknown)

theorem acts_processNewView (o : MapOrder String) :
    Acts cfg K fresh n (n.processNewView cfg o msg) := by
  unfold processNewView
  simp only
  split
  case isTrue => exact Acts.refl n
  case isFalse =>
    split
    case isTrue => exact Acts.refl n
    case isFalse =>
      split
      case isTrue => exact Acts.refl n
      case isFalse =>
        split
        case isTrue => exact Acts.refl n
        case isFalse =>
          have hkeep : ∀ newViews, Acts cfg K fresh n { n with newViews := newViews } :=
            fun newViews => (Act.quiet n.phase newViews _ _ _ _ _).acts
          split
          case isTrue => exact (hkeep _).trans (acts_tryPropose o)
          case isFalse => exact hkeep _

theorem acts_sendNewView (previousView targetView : ℤ) :
    Acts cfg K fresh n (n.sendNewView cfg previousView targetView) := by
  unfold sendNewView
  simp only
  split
  case isTrue => exact Acts.refl n
  case isFalse => exact (Act.send _ _ rfl).acts

/-! ## Requests of the leader -/

/-- A vote for a known node is cast once. -/
theorem acts_sendVoteForHash
    {phase : MsgType} {viewNumber : ℤ} {nodeHash leaderID : String}
    (hknown : Known n.tree nodeHash)
    (hfresh : fresh phase viewNumber n.viewNumber)
    (hjust : Justified cfg n phase viewNumber nodeHash) :
    Acts cfg K fresh n (n.sendVoteForHash cfg phase viewNumber nodeHash leaderID) := by
  unfold sendVoteForHash
  split
  case h_1 => exact Acts.refl n
  case h_2 hnone =>
    rw [ensureNode_of_known hknown]
    exact (Act.vote _ _ _ _ hnone hfresh hjust).acts

/-- The parent that a proposal has to extend is that of its certificate. -/
theorem expectedParent_spec
    {parentHash : String}
    (h : n.expectedParent cfg msg = some (parentHash, n')) :
    ∃ tree, n' = { n with tree := tree } ∧ Grows cfg n.tree tree ∧
      ∀ qc, msg.justify = some qc → qc.type = .prepare ∧ qc.viewNumber < msg.viewNumber ∧
        verifyQC cfg n.shared.certificates qc = true ∧ parentHash = qc.nodeHash := by
  unfold expectedParent at h
  split at h
  case h_1 hjustify =>
    cases h
    refine ⟨n.tree, rfl, Relation.ReflTransGen.refl, fun qc hqc => ?_⟩
    rw [hjustify] at hqc
    cases hqc
  case h_2 qc hjustify =>
    split at h
    case isTrue => cases h
    case isFalse hvalid =>
      rw [not_or, not_or, not_not, not_le, Bool.not_eq_false] at hvalid
      obtain ⟨m, hensure, heq⟩ := Option.map_eq_some_iff.mp h
      cases heq
      obtain ⟨tree, rfl, hgrows, -⟩ := ensureNode_spec hensure
      refine ⟨tree, rfl, hgrows, fun qc' hqc' => ?_⟩
      rw [hjustify] at hqc'
      cases hqc'
      exact ⟨hvalid.1, hvalid.2.1, hvalid.2.2, rfl⟩

theorem acts_processPrepare
    (hfresh : msg.node.isSome = true → fresh .prepare msg.viewNumber n.viewNumber) :
    Acts cfg K fresh n (n.processPrepare cfg msg) := by
  unfold processPrepare
  split
  case h_1 => exact Acts.refl n
  case h_2 node hnode =>
    have hfresh := hfresh (by rw [hnode]; rfl)
    split
    case isTrue => exact Acts.refl n
    case isFalse =>
      split
      case h_1 => exact Acts.refl n
      case h_2 m haccept =>
        obtain ⟨hhash, tree, rfl, hgrows, hknown⟩ := acceptNode_spec haccept
        have haccepted : Acts cfg K fresh n { n with
            tree := tree
            shared := { n.shared with nodeStore := n.shared.nodeStore.storeNode node } } :=
          (Act.grow hgrows).acts.then (Act.store node)
        split
        case h_1 => exact haccepted
        case h_2 parentHash m' hexpected =>
          obtain ⟨tree', rfl, hgrows', hjustify⟩ := expectedParent_spec hexpected
          have hknown' := hgrows'.known hknown
          have hfetched := haccepted.then (Act.grow hgrows')
          split
          case isTrue => exact hfetched
          case isFalse hparent =>
            rw [not_not] at hparent
            obtain ⟨tree'', heq, hgrows'', hlock⟩ := safeNode_spec cfg
              { n with
                tree := tree'
                shared := { n.shared with nodeStore := n.shared.nodeStore.storeNode node } }
              node msg.justify
            have hchecked := hfetched.then (Act.grow hgrows'')
            simp only [heq]
            split
            case isFalse => exact hchecked
            case isTrue hsafe =>
              refine (hchecked.then (Act.quiet .prepare _ _ _ _ _ _)).trans
                (acts_sendVoteForHash (hgrows''.known hknown') hfresh ?_)
              refine Justified.prepare node msg.justify hhash (hgrows''.known hknown') ?_
                (hlock hsafe)
              intro qc hqc
              obtain ⟨htype, hview, hverify, hsame⟩ := hjustify qc hqc
              exact ⟨htype, hview, hverify, hparent.trans hsame⟩

/-- A certificate passes the checks of a phase. -/
structure PhaseQC (cfg : Config) (n : Process) (msg : Message) (type : MsgType)
    (qc : QuorumCertificate) (tree : Dict String TreeNode) : Prop where
  certifies : msg.certifies type = true
  type_eq : qc.type = type
  view_eq : qc.viewNumber = msg.viewNumber
  verified : verifyQC cfg n.shared.certificates qc = true
  grows : Grows cfg n.tree tree
  known : Known tree qc.nodeHash

/-- A later phase runs after its checks, or nothing changes. -/
theorem withPhaseQC_cases (cfg : Config) (n : Process) (msg : Message) (type : MsgType) :
    (∀ next, n.withPhaseQC cfg msg type next = n) ∨
      ∃ qc tree, PhaseQC cfg n msg type qc tree ∧
        ∀ next, n.withPhaseQC cfg msg type next = next qc { n with tree := tree } := by
  unfold withPhaseQC
  split
  case h_1 => exact Or.inl fun _ => rfl
  case h_2 qc hjustify =>
    split
    case isTrue => exact Or.inl fun _ => rfl
    case isFalse hvalid =>
      rw [not_or, Bool.not_eq_false, validPhaseQC, Bool.and_eq_true, decide_eq_true_eq] at hvalid
      obtain ⟨hnode, ⟨htype, hview⟩, hverify⟩ := hvalid
      split
      case h_1 => exact Or.inl fun _ => rfl
      case h_2 m hensure =>
        obtain ⟨tree, rfl, hgrows, hknown⟩ := ensureNode_spec hensure
        refine Or.inr ⟨qc, tree, ⟨?_, htype, hview, hverify, hgrows, hknown⟩, fun _ => rfl⟩
        simpa [Message.certifies, hjustify, htype, hview] using hnode

theorem acts_processPreCommit
    (hfresh : msg.certifies .prepare = true → fresh .preCommit msg.viewNumber n.viewNumber) :
    Acts cfg K fresh n (n.processPreCommit cfg msg) := by
  unfold processPreCommit
  rcases withPhaseQC_cases cfg n msg .prepare with hsame | ⟨qc, tree, hqc, hnext⟩
  · rw [hsame]
    exact Acts.refl n
  · rw [hnext, ← hqc.view_eq]
    have hgrow : Acts cfg K fresh n { n with tree := tree } := (Act.grow hqc.grows).acts
    have hvote : ∀ prepareQC, Acts cfg K fresh n
        ({ n with tree := tree, prepareQC := prepareQC, phase := .preCommit }.sendVoteForHash cfg
          .preCommit qc.viewNumber qc.nodeHash msg.senderID) := by
      intro prepareQC
      refine (hgrow.then (Act.quiet .preCommit _ _ _ _ _ prepareQC)).trans
        (acts_sendVoteForHash hqc.known ?_ (Justified.preCommit qc hqc.type_eq hqc.verified))
      rw [hqc.view_eq]
      exact hfresh hqc.certifies
    simp only
    split
    case isTrue => exact hvote (some qc)
    case isFalse => exact hvote n.prepareQC

theorem acts_processCommit
    (hfresh : msg.certifies .preCommit = true → fresh .commit msg.viewNumber n.viewNumber) :
    Acts cfg K fresh n (n.processCommit cfg msg) := by
  unfold processCommit
  rcases withPhaseQC_cases cfg n msg .preCommit with hsame | ⟨qc, tree, hqc, hnext⟩
  · rw [hsame]
    exact Acts.refl n
  · rw [hnext, ← hqc.view_eq]
    have hfresh' : fresh .commit qc.viewNumber n.viewNumber := by
      rw [hqc.view_eq]
      exact hfresh hqc.certifies
    have hgrow : Acts cfg K fresh n { n with tree := tree } := (Act.grow hqc.grows).acts
    have hlock := hgrow.then (Act.lock qc hqc.type_eq hqc.verified hfresh')
    exact (hlock.then (Act.quiet .commit _ _ _ _ _ _)).trans
      (acts_sendVoteForHash hqc.known hfresh'
        (Justified.commit qc hqc.type_eq hqc.verified rfl))

/-- A decision is executed, and then the next view is entered. -/
theorem processDecide_cases (cfg : Config) (K : SignatureShare → Prop)
    (fresh : MsgType → ℤ → ℤ → Prop) (n : Process) (msg : Message) :
    (∃ m, Acts cfg K fresh n m ∧ ∀ enter, n.processDecide cfg enter msg = m) ∨
      msg.certifies .commit = true ∧ ∃ m, Acts cfg K fresh n m ∧
        ∀ enter, n.processDecide cfg enter msg = enter (msg.viewNumber + 1) m := by
  unfold processDecide
  rcases withPhaseQC_cases cfg n msg .commit with hsame | ⟨qc, tree, hqc, hnext⟩
  · exact Or.inl ⟨n, Acts.refl n, fun enter => hsame _⟩
  · simp only [hnext]
    have hgrow : Acts cfg K fresh n { n with tree := tree } := (Act.grow hqc.grows).acts
    have hphase : Acts cfg K fresh n { n with tree := tree, phase := .decide } :=
      hgrow.then (Act.quiet .decide _ _ _ _ _ _)
    obtain ⟨tree', hgrows, hcases⟩ :=
      executeThrough_spec cfg { n with tree := tree, phase := .decide } qc.nodeHash
    have hfetched := hphase.then (Act.grow hgrows)
    rcases hcases with ⟨hdone, nodes, hpath, heq⟩ | ⟨hfailed, heq⟩
    · simp only [hdone, heq, if_true]
      refine Or.inr ⟨hqc.certifies, _, hfetched.then ?_, fun enter => rfl⟩
      exact Act.execute qc nodes hqc.type_eq hqc.verified hpath
    · simp only [hfailed, heq, Bool.false_eq_true, if_false]
      exact Or.inl ⟨_, hfetched, fun enter => rfl⟩

/-! ## Votes -/

theorem acts_announceQC (next : MsgType) (qc : QuorumCertificate) :
    Acts cfg K fresh n (n.announceQC cfg next qc) :=
  (Act.quiet next _ _ _ _ _ _).acts.trans (acts_broadcast rfl)

theorem acts_countVote
    {type : MsgType} {viewNumber : ℤ} {nodeHash senderID : String} {share : SignatureShare}
    (hshare : K share) :
    Acts cfg K fresh n (n.countVote cfg type viewNumber nodeHash senderID share) := by
  unfold countVote
  simp only
  split
  case isTrue => exact Acts.refl n
  case isFalse =>
    split
    case isTrue => exact Acts.refl n
    case isFalse =>
      have hcount : Acts cfg K fresh n { n with
          votes := n.votes.set (type, viewNumber, nodeHash)
            ((n.votes.getD (type, viewNumber, nodeHash) Dict.empty).set senderID share) } :=
        (Act.count (type, viewNumber, nodeHash) senderID share hshare).acts
      split
      case isTrue => exact hcount
      case isFalse =>
        split
        case h_1 => exact hcount
        case h_2 token certificates hcombine =>
          have hcertify := hcount.then (Act.certify type viewNumber nodeHash token certificates (by
            simpa [Dict.getD, Dict.get?_set] using hcombine))
          have hformed : Acts cfg K fresh n { n with
              votes := n.votes.set (type, viewNumber, nodeHash)
                ((n.votes.getD (type, viewNumber, nodeHash) Dict.empty).set senderID share)
              formedQC := (type, viewNumber, nodeHash) :: n.formedQC
              shared := { n.shared with certificates := certificates } } :=
            hcertify.then (Act.quiet n.phase _ _ _ _ _ _)
          split
          case h_1 => exact hformed.trans (acts_announceQC _ _)
          case h_2 => exact hformed.trans (acts_announceQC _ _)
          case h_3 => exact hformed.trans (acts_announceQC _ _)
          case h_4 => exact hformed

theorem acts_processLeaderVote
    (hmsg : msg.Signed K) :
    Acts cfg K fresh n (n.processLeaderVote cfg msg) := by
  unfold processLeaderVote
  split
  case isTrue => exact Acts.refl n
  case isFalse =>
    split
    case isTrue => exact Acts.refl n
    case isFalse =>
      split
      case h_2 => exact Acts.refl n
      case h_1 node share hnode hshare =>
        split
        case isTrue => exact Acts.refl n
        case isFalse =>
          split
          case h_1 => exact Acts.refl n
          case h_2 m haccept =>
            obtain ⟨-, tree, rfl, hgrows, -⟩ := acceptNode_spec haccept
            have haccepted : Acts cfg K fresh n { n with
                tree := tree
                shared := { n.shared with nodeStore := n.shared.nodeStore.storeNode node } } :=
              (Act.grow hgrows).acts.then (Act.store node)
            split
            case isTrue => exact haccepted.trans (acts_countVote (hmsg share hshare))
            case isFalse => exact haccepted

/-- **One message.**  The node acts inside its view, or it decides and then enters the
next view. -/
theorem replay_cases
    (cfg : Config) (K : SignatureShare → Prop) (fresh : MsgType → ℤ → ℤ → Prop) (n : Process)
    (msg : Message)
    (hmsg : msg.Signed K)
    (hfresh : msg.asksForVote cfg = true → fresh msg.type msg.viewNumber n.viewNumber) :
    (∃ m, Acts cfg K fresh n m ∧ ∀ enter, n.replay cfg enter msg = m) ∨
      msg.decides cfg = true ∧ ∃ m, Acts cfg K fresh n m ∧
        ∀ enter, n.replay cfg enter msg = enter (msg.viewNumber + 1) m := by
  unfold replay
  by_cases hvote : msg.isVote = true
  · simp only [hvote, if_true]
    exact Or.inl ⟨_, acts_processLeaderVote hmsg, fun _ => rfl⟩
  · simp only [if_neg hvote]
    unfold processReplicaMessage
    by_cases hleader : msg.senderID = cfg.leaderForView msg.viewNumber
    · have hfrom : msg.fromLeader cfg = true := by simp [Message.fromLeader, hvote, hleader]
      simp only [hleader, ne_eq, not_true_eq_false, if_false]
      cases htype : msg.type with
      | prepare =>
          refine Or.inl ⟨_, acts_processPrepare fun hnode => ?_, fun _ => rfl⟩
          rw [← htype]
          exact hfresh (by simp [Message.asksForVote, hfrom, htype, hnode])
      | preCommit =>
          refine Or.inl ⟨_, acts_processPreCommit fun hqc => ?_, fun _ => rfl⟩
          rw [← htype]
          exact hfresh (by simp [Message.asksForVote, hfrom, htype, hqc])
      | commit =>
          refine Or.inl ⟨_, acts_processCommit fun hqc => ?_, fun _ => rfl⟩
          rw [← htype]
          exact hfresh (by simp [Message.asksForVote, hfrom, htype, hqc])
      | decide =>
          rcases processDecide_cases cfg K fresh n msg with hacts | ⟨hqc, hdecide⟩
          · exact Or.inl hacts
          · exact Or.inr ⟨by simp [Message.decides, hfrom, htype, hqc], hdecide⟩
      | newView => exact Or.inl ⟨n, Acts.refl n, fun _ => rfl⟩
      | other s => exact Or.inl ⟨n, Acts.refl n, fun _ => rfl⟩
    · simp only [ne_eq, hleader, not_false_eq_true, if_true]
      exact Or.inl ⟨n, Acts.refl n, fun _ => rfl⟩

end Handlers

end Process

end GoHotStuff
end DistributedConsensus
