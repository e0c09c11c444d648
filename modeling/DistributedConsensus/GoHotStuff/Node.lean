import DistributedConsensus.GoHotStuff.Protocol
import DistributedConsensus.Foundations.PointerWalk

/-!
# Go HotStuff: a node

A node holds its lock while it handles a message, a client command or a timeout, so
each of these is one function on the node and the shared services.

Messages of later views are kept.  A node that enters a view replays the messages that
it kept for this view, and a replayed decision lets it enter the next view before the
rest is replayed.  Every entered view forgets its messages, which bounds the nesting:
see `enterView`.

A message counts as sent when it is handed to the network.  `Start` may be called more
than once here.
-/

namespace DistributedConsensus
namespace GoHotStuff

open Foundations

structure Node where
  id : String
  stateMachine : StateMachine
  viewNumber : ℤ
  phase : MsgType
  lockedQC : Option QuorumCertificate
  prepareQC : Option QuorumCertificate
  tree : Dict String TreeNode
  lastExecutedHash : String
  executedCommands : List String
  pendingCommands : List Command
  knownCommands : List String
  voted : Dict (MsgType × ℤ) String
  votes : Dict (MsgType × ℤ × String) (Dict String SignatureShare)
  formedQC : List (MsgType × ℤ × String)
  newViews : Dict ℤ (Dict String (Option QuorumCertificate))
  proposedInView : List ℤ
  futureMessages : Dict ℤ (List Message)

/-- `NewNode`. -/
def Node.new (id : String) : Node where
  id := id
  stateMachine := StateMachine.new
  viewNumber := 1
  phase := .newView
  lockedQC := none
  prepareQC := none
  tree := Dict.empty
  lastExecutedHash := genesisHash
  executedCommands := []
  pendingCommands := []
  knownCommands := []
  voted := Dict.empty
  votes := Dict.empty
  formedQC := []
  newViews := Dict.empty
  proposedInView := []
  futureMessages := Dict.empty

/-- A node and the services that it shares with the others. -/
structure Process extends Node where
  shared : Shared

/-- The certificate of the highest view; among equal views, the least hash. -/
def highestQC (o : MapOrder String) (newViews : Dict String (Option QuorumCertificate)) :
    Option QuorumCertificate :=
  let candidates := (newViews.inOrder o).filterMap Prod.snd
  (candidates.insertionSort fun a b =>
    b.viewNumber < a.viewNumber ∨ a.viewNumber = b.viewNumber ∧ a.nodeHash ≤ b.nodeHash).head?

namespace Process

section Handlers

variable (cfg : Config) (o : MapOrder String) (n : Process)

/-! ## The tree -/

/-- A fetched node is used only with the right hash. -/
def fetchValid (nodeHash : String) : Option TreeNode :=
  (n.shared.nodeStore.fetchNode nodeHash).filter fun node => cfg.hashNode node = node.hash

/-- The genesis block, or a node of the tree. -/
def known (nodeHash : String) : Bool :=
  decide (nodeHash = genesisHash) || n.tree.contains nodeHash

/-- `ensureNodeLocked`: no result stands for `false`, which changes nothing. -/
def ensureNode (nodeHash : String) : Option Process :=
  match PointerWalk.walk (n.fetchValid cfg) TreeNode.parentHash n.known
      (n.shared.nodeStore.nodes.size + 1) [] nodeHash with
  | none => none
  | some (fetched, _) =>
      some { n with
        tree := fetched.reverse.foldl (fun tree node => tree.set node.hash node) n.tree }

/-- Keep a node in the tree and in the store. -/
def addNode (node : TreeNode) : Process :=
  { n with
    tree := n.tree.set node.hash node
    shared := { n.shared with nodeStore := n.shared.nodeStore.storeNode node } }

/-- `acceptNodeLocked`: no result stands for `false`, which changes nothing. -/
def acceptNode (node : TreeNode) : Option Process :=
  if node.parentHash = "" ∨ node.hash = "" ∨ node.cmd.id = "" then none
  else if cfg.hashNode node ≠ node.hash then none
  else if node.parentHash = genesisHash then some (n.addNode node)
  else (n.ensureNode cfg node.parentHash).map fun n => n.addNode node

/-- The ancestor is on the way from the descendant to the genesis block. -/
def onBranch (descendantHash ancestorHash : String) : Bool :=
  match PointerWalk.walk n.tree.get? TreeNode.parentHash
      (fun k => decide (k = genesisHash ∨ k = ancestorHash)) (n.tree.size + 1) []
      descendantHash with
  | none => false
  | some (_, last) => decide (last = ancestorHash)

def extendsFrom (descendantHash ancestorHash : String) : Bool × Process :=
  if ancestorHash = genesisHash then (true, n)
  else
    match n.ensureNode cfg descendantHash with
    | none => (false, n)
    | some n =>
        match n.ensureNode cfg ancestorHash with
        | none => (false, n)
        | some n => (n.onBranch descendantHash ancestorHash, n)

def safeNode (node : TreeNode) (qc : Option QuorumCertificate) : Bool × Process :=
  match n.lockedQC with
  | none => (true, n)
  | some lockedQC =>
      let (safetyRule, n) := n.extendsFrom cfg node.hash lockedQC.nodeHash
      let livenessRule := qc.any fun qc => decide (lockedQC.viewNumber < qc.viewNumber)
      (safetyRule || livenessRule, n)

/-! ## Execution -/

/-- Execute the command of a node unless its id was executed before. -/
def executeNode (node : TreeNode) : Process :=
  let n :=
    if node.cmd.id ∈ n.executedCommands then n
    else
      { n with
        stateMachine := (n.stateMachine.execute node.cmd).1
        executedCommands := node.cmd.id :: n.executedCommands }
  { n with lastExecutedHash := node.hash }

def executeThrough (committedHash : String) : Bool × Process :=
  if committedHash = n.lastExecutedHash then (true, n)
  else
    match n.ensureNode cfg committedHash with
    | none => (false, n)
    | some n =>
        match PointerWalk.walk (fun k => if k = genesisHash then none else n.tree.get? k)
            TreeNode.parentHash (fun k => decide (k = n.lastExecutedHash)) (n.tree.size + 1) []
            committedHash with
        | none => (false, n)
        | some (reversePath, _) => (true, reversePath.reverse.foldl executeNode n)

def nextPendingCommand : Option Command :=
  n.pendingCommands.find? fun cmd => decide (cmd.id ∉ n.executedCommands)

/-! ## Sending -/

/-- `Network.Send`: the transport stamps the sender. -/
def send (receiverID : String) (msg : Message) : Process :=
  if receiverID ∈ cfg.nodeIDs then
    { n with shared := { n.shared with
        sent := n.shared.sent ++ [(receiverID, { msg with senderID := n.id })] } }
  else n

/-- `Network.Broadcast`. -/
def broadcast (msg : Message) : Process :=
  cfg.nodeIDs.foldl (fun n nodeID => n.send cfg nodeID msg) n

def sendNewView (previousView targetView : ℤ) : Process :=
  let leaderID := cfg.leaderForView targetView
  if leaderID = "" then n
  else
    n.send cfg leaderID {
      type := .newView
      viewNumber := previousView
      node := none
      justify := n.prepareQC
      senderID := ""
      partialSig := none
      isVote := false }

/-- The share of the node on a vote. -/
def sign (phase : MsgType) (viewNumber : ℤ) (nodeHash : String) : SignatureShare :=
  ⟨n.id, some ⟨n.id, phase, viewNumber, nodeHash⟩⟩

/-- Record the vote, sign it and send it. -/
def castVote (phase : MsgType) (viewNumber : ℤ) (nodeHash leaderID : String) : Process :=
  let ballot : Ballot := ⟨n.id, n.viewNumber, phase, viewNumber, nodeHash⟩
  let n := { n with
    voted := n.voted.set (phase, viewNumber) nodeHash
    shared := { n.shared with signed := ballot :: n.shared.signed } }
  n.send cfg leaderID {
    type := phase
    viewNumber := viewNumber
    node := n.tree.get? nodeHash
    justify := none
    senderID := ""
    partialSig := some (n.sign phase viewNumber nodeHash)
    isVote := true }

def sendVoteForHash (phase : MsgType) (viewNumber : ℤ) (nodeHash leaderID : String) : Process :=
  match n.voted.get? (phase, viewNumber) with
  | some _ => n
  | none =>
      match n.ensureNode cfg nodeHash with
      | none => n
      | some n => n.castVote cfg phase viewNumber nodeHash leaderID

/-! ## Proposals -/

/-- The block below which the leader proposes, with its certificate. -/
def proposalParent (highQC : Option QuorumCertificate) : Option (String × Process) :=
  match highQC with
  | none => some (genesisHash, n)
  | some qc =>
      if qc.type ≠ .prepare ∨ verifyQC cfg n.shared.certificates qc = false then none
      else (n.ensureNode cfg qc.nodeHash).map fun n => (qc.nodeHash, n)

/-- Propose a command below a block. -/
def propose (parentHash : String) (cmd : Command) (highQC : Option QuorumCertificate) : Process :=
  let proposal : TreeNode := ⟨parentHash, cmd, cfg.hash parentHash cmd, n.viewNumber⟩
  let n := { n.addNode proposal with
    proposedInView := n.viewNumber :: n.proposedInView
    phase := .prepare }
  n.broadcast cfg {
    type := .prepare
    viewNumber := n.viewNumber
    node := some proposal
    justify := highQC
    senderID := ""
    partialSig := none
    isVote := false }

def tryPropose : Process :=
  if cfg.leaderForView n.viewNumber ≠ n.id ∨ n.viewNumber ∈ n.proposedInView then n
  else
    let newViews := n.newViews.getD n.viewNumber Dict.empty
    if newViews.size < cfg.quorum then n
    else
      match n.nextPendingCommand with
      | none => n
      | some cmd =>
          let highQC := highestQC o newViews
          match n.proposalParent cfg highQC with
          | none => n
          | some (parentHash, n) => n.propose cfg parentHash cmd highQC

def processNewView (msg : Message) : Process :=
  let targetView := msg.viewNumber + 1
  if targetView < 1 ∨ cfg.leaderForView targetView ≠ n.id then n
  else if msg.isVote ∨ msg.node.isSome ∨ msg.partialSig.isSome then n
  else if msg.justify.any (fun qc => decide (qc.type ≠ .prepare ∨ msg.viewNumber < qc.viewNumber) ||
      !verifyQC cfg n.shared.certificates qc) then n
  else
    let views := n.newViews.getD targetView Dict.empty
    if views.contains msg.senderID then n
    else
      let n := { n with newViews := n.newViews.set targetView (views.set msg.senderID msg.justify) }
      if targetView = n.viewNumber then n.tryPropose cfg o else n

/-! ## Requests of the leader -/

/-- The block that a proposal has to extend, once its certificate is checked. -/
def expectedParent (msg : Message) : Option (String × Process) :=
  match msg.justify with
  | none => some (genesisHash, n)
  | some qc =>
      if qc.type ≠ .prepare ∨ msg.viewNumber ≤ qc.viewNumber ∨
          verifyQC cfg n.shared.certificates qc = false then none
      else (n.ensureNode cfg qc.nodeHash).map fun n => (qc.nodeHash, n)

def processPrepare (msg : Message) : Process :=
  match msg.node with
  | none => n
  | some node =>
      if msg.partialSig.isSome ∨ msg.isVote then n
      else
        match n.acceptNode cfg node with
        | none => n
        | some n =>
            match n.expectedParent cfg msg with
            | none => n
            | some (parentHash, n) =>
                if node.parentHash ≠ parentHash then n
                else
                  let (safe, n) := n.safeNode cfg node msg.justify
                  if safe then
                    { n with phase := .prepare }.sendVoteForHash cfg .prepare msg.viewNumber
                      node.hash msg.senderID
                  else n

def validPhaseQC (qc : QuorumCertificate) (expectedType : MsgType) (expectedView : ℤ) : Bool :=
  decide (qc.type = expectedType ∧ qc.viewNumber = expectedView) &&
    verifyQC cfg n.shared.certificates qc

/-- The checks that the later phases share. -/
def withPhaseQC (msg : Message) (expectedType : MsgType)
    (next : QuorumCertificate → Process → Process) : Process :=
  match msg.justify with
  | none => n
  | some qc =>
      if msg.node.isSome ∨ n.validPhaseQC cfg qc expectedType msg.viewNumber = false then n
      else
        match n.ensureNode cfg qc.nodeHash with
        | none => n
        | some n => next qc n

def processPreCommit (msg : Message) : Process :=
  n.withPhaseQC cfg msg .prepare fun qc n =>
    let n :=
      if n.prepareQC.all (fun prepareQC => decide (prepareQC.viewNumber < qc.viewNumber)) then
        { n with prepareQC := some qc }
      else n
    { n with phase := .preCommit }.sendVoteForHash cfg .preCommit msg.viewNumber qc.nodeHash
      msg.senderID

def processCommit (msg : Message) : Process :=
  n.withPhaseQC cfg msg .preCommit fun qc n =>
    { n with lockedQC := some qc, phase := .commit }.sendVoteForHash cfg .commit msg.viewNumber
      qc.nodeHash msg.senderID

/-- `enter` is the function that enters a view. -/
def processDecide (enter : ℤ → Process → Process) (msg : Message) : Process :=
  n.withPhaseQC cfg msg .commit fun qc n =>
    let (executed, n) := { n with phase := .decide }.executeThrough cfg qc.nodeHash
    if executed then enter (msg.viewNumber + 1) n else n

def processReplicaMessage (enter : ℤ → Process → Process) (msg : Message) : Process :=
  if msg.senderID ≠ cfg.leaderForView msg.viewNumber then n
  else
    match msg.type with
    | .prepare => n.processPrepare cfg msg
    | .preCommit => n.processPreCommit cfg msg
    | .commit => n.processCommit cfg msg
    | .decide => n.processDecide cfg enter msg
    | _ => n

/-! ## Votes -/

/-- Keep a new certificate and start the next phase with it. -/
def announceQC (next : MsgType) (qc : QuorumCertificate) : Process :=
  { n with phase := next }.broadcast cfg {
    type := next
    viewNumber := qc.viewNumber
    node := none
    justify := some qc
    senderID := ""
    partialSig := none
    isVote := false }

/-- Count the share of a vote; a quorum forms a certificate. -/
def countVote (type : MsgType) (viewNumber : ℤ) (nodeHash senderID : String)
    (share : SignatureShare) : Process :=
  let key := (type, viewNumber, nodeHash)
  if key ∈ n.formedQC then n
  else
    let votes := n.votes.getD key Dict.empty
    if votes.contains senderID then n
    else
      let votes := votes.set senderID share
      let n := { n with votes := n.votes.set key votes }
      if votes.size < cfg.quorum then n
      else
        match combine cfg n.shared.certificates type viewNumber nodeHash votes with
        | none => n
        | some (token, certificates) =>
            let qc : QuorumCertificate := ⟨type, viewNumber, nodeHash, token⟩
            let n := { n with
              formedQC := key :: n.formedQC
              shared := { n.shared with certificates := certificates } }
            match type with
            | .prepare => n.announceQC cfg .preCommit qc
            | .preCommit => n.announceQC cfg .commit qc
            | .commit => n.announceQC cfg .decide qc
            | _ => n

def processLeaderVote (msg : Message) : Process :=
  if cfg.leaderForView msg.viewNumber ≠ n.id ∨ msg.viewNumber ≠ n.viewNumber then n
  else if msg.type ≠ .prepare ∧ msg.type ≠ .preCommit ∧ msg.type ≠ .commit then n
  else
    match msg.node, msg.partialSig with
    | some node, some share =>
        if msg.justify.isSome ∨ share.signerID ≠ msg.senderID then n
        else
          match n.acceptNode cfg node with
          | none => n
          | some n =>
              if verifyShare cfg share msg.type msg.viewNumber node.hash then
                n.countVote cfg msg.type msg.viewNumber node.hash msg.senderID share
              else n
    | _, _ => n

/-! ## Views -/

/-- Replay a message that was kept. -/
def replay (enter : ℤ → Process → Process) (msg : Message) : Process :=
  if msg.isVote then n.processLeaderVote cfg msg
  else n.processReplicaMessage cfg enter msg

/-- Take over the new view and forget its messages. -/
def moveTo (newView : ℤ) : Process :=
  let oldView := n.viewNumber
  let n := { n with viewNumber := newView, phase := .newView }.sendNewView cfg oldView newView
  { n with futureMessages := n.futureMessages.erase newView }

/-- `enterViewLocked`, nested at most as often as the fuel says. -/
def enterViewFuel : ℕ → ℤ → Process → Process
  | 0, _, n => n
  | fuel + 1, newView, n =>
      if newView ≤ n.viewNumber then n
      else
        let buffered := n.futureMessages.getD newView []
        (buffered.foldl (fun n msg => n.replay cfg (enterViewFuel fuel) msg)
          (n.moveTo cfg newView)).tryPropose cfg o

/-- `enterViewLocked`: every entered view forgets its messages. -/
def enterView (newView : ℤ) : Process :=
  enterViewFuel cfg o (n.futureMessages.size + 1) newView n

/-! ## Inputs -/

def handleMessage (msg : Message) : Process :=
  if msg.senderID ∉ cfg.nodeIDs then n
  else if msg.type = .newView then n.processNewView cfg o msg
  else if n.viewNumber < msg.viewNumber then
    { n with futureMessages :=
        n.futureMessages.set msg.viewNumber (n.futureMessages.getD msg.viewNumber [] ++ [msg]) }
  else if msg.viewNumber < n.viewNumber then n
  else n.replay cfg (fun newView n => n.enterView cfg o newView) msg

def handleClientCommand (cmd : Command) : Process :=
  if cmd.id = "" then n
  else if cmd.id ∈ n.knownCommands then n
  else
    { n with
      knownCommands := cmd.id :: n.knownCommands
      pendingCommands := n.pendingCommands ++ [cmd] }.tryPropose cfg o

def handleTimeout (viewNumber : ℤ) : Process :=
  if viewNumber ≠ n.viewNumber then n else n.enterView cfg o (viewNumber + 1)

/-- `Start`. -/
def start : Process := n.sendNewView cfg 0 1

end Handlers

end Process

/-- What a node handles. -/
inductive Event where
  | start
  | message (msg : Message)
  | command (cmd : Command)
  | timeout (viewNumber : ℤ)

/-- Handle an event; maps are iterated in the order `o`. -/
def Process.handle (cfg : Config) (o : MapOrder String) (n : Process) : Event → Process
  | .start => n.start cfg
  | .message msg => n.handleMessage cfg o msg
  | .command cmd => n.handleClientCommand cfg o cmd
  | .timeout viewNumber => n.handleTimeout cfg o viewNumber

end GoHotStuff
end DistributedConsensus
