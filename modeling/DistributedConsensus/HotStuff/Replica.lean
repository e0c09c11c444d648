import DistributedConsensus.HotStuff.Crypto
import DistributedConsensus.HotStuff.Tree
import DistributedConsensus.HotStuff.Pacemaker
import DistributedConsensus.Foundations.Dict

/-!
# Basic HotStuff: one replica

The class `Replica` of `hotstuff/replica.py`, handler by handler and under the
source's names.  A handler maps the replica state to the replica state.
Messages handed to the network are appended to `outbox` and replies to the
client to `replies`; both are emptied before the next input.  A Python
exception ends the task of the replica: the handler then returns the state
reached so far with `raised` set, and the replica dispatches nothing more.
-/

namespace DistributedConsensus
namespace HotStuff

open Foundations

/-- Key of a vote tally and of an audited certificate. -/
abbrev VoteKey := MsgType × Int × Digest

/-- State of a Basic HotStuff replica. -/
structure Replica (Cmd : Type) [Application Cmd] where
  id : Nat
  view : Int
  tree : Tree Cmd
  lockedQc : QC
  prepareQc : QC
  /-- Executed nodes in order. -/
  committed : List (Node Cmd)
  executed : List Digest
  pending : List Cmd
  pendingKeys : List String
  committedCmds : List String
  votes : Dict VoteKey (Dict Int (Msg Cmd))
  newView : Dict Int (Dict Int QC)
  formed : List VoteKey
  proposed : List Int
  highQc : Dict Int QC
  decided : List Int
  left : List Int
  failures : Nat
  /-- The view for which the timer is armed. -/
  timer : Option Int
  deferred : List (Msg Cmd)
  qcs : List VoteKey
  running : Bool
  sm : Option (Application.State Cmd)
  started : Bool
  raised : Bool
  outbox : List (Int × Msg Cmd)
  replies : List (Cmd × Option (Application.Result Cmd))

namespace Replica

variable {Cmd : Type} [Application Cmd]

/-- A new replica. -/
def new (id : Nat) (sm : Option (Application.State Cmd)) : Replica Cmd where
  id := id
  view := 0
  tree := Tree.new
  lockedQc := genesisQc
  prepareQc := genesisQc
  committed := []
  executed := []
  pending := []
  pendingKeys := []
  committedCmds := []
  votes := Dict.empty
  newView := Dict.empty
  formed := []
  proposed := []
  highQc := Dict.empty
  decided := []
  left := []
  failures := 0
  timer := none
  deferred := []
  qcs := []
  running := true
  sm := sm
  started := false
  raised := false
  outbox := []
  replies := []

/-- The signature-free form of a certificate. -/
def isGenesisQc (qc : Option QC) : Bool :=
  match qc with
  | some qc => qc.viewNumber = 0 && qc.sigs.isEmpty
  | none => false

/-- Hand a message to the network. -/
def send (r : Replica Cmd) (dst : Int) (m : Msg Cmd) : Replica Cmd :=
  { r with outbox := r.outbox ++ [(dst, m)] }

/-- Hand a message for every replica to the network. -/
def broadcast (cfg : Config) (r : Replica Cmd) (m : Msg Cmd) : Replica Cmd :=
  { r with
    outbox := r.outbox ++ (List.range cfg.n).map (fun (i : Nat) => ((i : Int), m)) }

/-- A Python exception. -/
def raise (r : Replica Cmd) : Replica Cmd := { r with raised := true }

/-- Audit a certificate with signatures. -/
def recordQc (r : Replica Cmd) (qc : QC) : Replica Cmd :=
  if qc.sigs.isEmpty then r
  else { r with qcs := r.qcs ++ [(qc.type, qc.viewNumber, qc.nodeHash)] }

/-- The vote message of this replica. -/
def voteMsg (r : Replica Cmd) (type : MsgType) (view : Int) (node : Node Cmd) :
    Msg Cmd where
  type := type
  viewNumber := view
  sender := r.id
  node := some node
  justify := none
  partialSig := some ((r.id : Int), signVote r.id type view node.hash)
  payload := .none

/-- Sign a vote and send it to the leader of the view. -/
def sendVote (cfg : Config) (r : Replica Cmd) (type : MsgType) (view : Int)
    (node : Node Cmd) : Replica Cmd :=
  r.send (cfg.leader view) (r.voteMsg type view node)

/-- Accept the signature-free form or a valid certificate. -/
def verifyJustify (cfg : Config) (qc : Option QC) : Bool :=
  isGenesisQc qc ||
    match qc with
    | some qc => verifyQc qc (verifyKeys cfg.n) cfg.quorum
    | none => false

/-- Start the timer of the current view, if timeouts are enabled. -/
def armTimer (cfg : Config) (r : Replica Cmd) : Replica Cmd :=
  { r with timer := if cfg.timeouts then some r.view else none }

/-- Leave a view once and tell the leader of the next one. -/
def advanceFrom (cfg : Config) (r : Replica Cmd) (prevView : Int) : Replica Cmd :=
  if prevView ∈ r.left then r
  else
    let r := { r with left := r.left.insert prevView, view := prevView + 1 }
    let r := r.send (cfg.leader r.view) {
      type := .newView
      viewNumber := prevView
      sender := r.id
      node := none
      justify := some r.prepareQc
      partialSig := none
      payload := .none }
    r.armTimer cfg

/-- Jump forward to a view without announcing it. -/
def syncView (cfg : Config) (r : Replica Cmd) (view : Int) : Replica Cmd :=
  let skipped := (List.range (view - r.view).toNat).map (fun (k : Nat) => r.view + k)
  let r := { r with left := skipped ++ r.left, view := view }
  r.armTimer cfg

/-- Drop committed commands and take the first one that remains. -/
def nextCommandLoop (r : Replica Cmd) : List Cmd → Option Cmd × Replica Cmd
  | [] => (none, { r with pending := [] })
  | cmd :: rest =>
      if cmdKey cmd ∈ r.committedCmds then
        nextCommandLoop
          { r with pendingKeys := r.pendingKeys.filter (· ≠ cmdKey cmd) } rest
      else (some cmd, { r with pending := rest })

/-- The next command to propose. -/
def nextCommand (r : Replica Cmd) : Option Cmd × Replica Cmd :=
  r.nextCommandLoop r.pending

/-- Create a leaf below a hash. -/
def createLeaf (parentHash : Digest) (cmd : Cmd) (view : Int) : Node Cmd where
  parentHash := parentHash
  cmd := some cmd
  viewNumber := view
  justify := none

/-- The proposal message of a leader. -/
def proposalMsg (r : Replica Cmd) (view : Int) (leaf : Node Cmd) (justify : QC) :
    Msg Cmd where
  type := .prepare
  viewNumber := view
  sender := r.id
  node := some leaf
  justify := some justify
  partialSig := none
  payload := .none

/-- Propose once in a view, when the leader holds a high certificate and a
command. -/
def tryPropose (cfg : Config) (r : Replica Cmd) (view : Int) : Replica Cmd :=
  match r.highQc.get? view with
  | none => r
  | some high =>
      if view ∈ r.proposed then r
      else if !cfg.isLeader view r.id then r
      else
        match r.nextCommand with
        | (none, r) => r
        | (some cmd, r) =>
            let leaf := createLeaf high.nodeHash cmd view
            let r := { r with
              tree := r.tree.add leaf
              proposed := r.proposed.insert view }
            r.broadcast cfg (r.proposalMsg view leaf high)

/-- Buffer a command of a client. -/
def submit (cfg : Config) (r : Replica Cmd) (cmd : Cmd) : Replica Cmd :=
  if cmdKey cmd ∈ r.pendingKeys ∨ cmdKey cmd ∈ r.committedCmds then r
  else
    let r := { r with
      pending := r.pending ++ [cmd]
      pendingKeys := r.pendingKeys.insert (cmdKey cmd) }
    r.tryPropose cfg r.view

/-- Collect NEW-VIEW messages for the view that this replica leads. -/
def onNewView (cfg : Config) (r : Replica Cmd) (m : Msg Cmd) : Replica Cmd :=
  let start := m.viewNumber + 1
  if !cfg.isLeader start r.id then r
  else if !verifyJustify cfg m.justify then r
  else
    let tally := (r.newView.getD start Dict.empty).set m.sender
      (m.justify.getD genesisQc)
    let r := { r with newView := r.newView.set start tally }
    if cfg.quorum ≤ tally.size ∧ !r.highQc.contains start then
      match maxBy QC.viewNumber tally.values with
      | some high =>
          let r := { r with highQc := r.highQc.set start high }
          r.tryPropose cfg start
      | none => r
    else r

/-- Record a vote; the votes of a fresh quorum, if there is one.  An index out
of the key list raises. -/
def tally (cfg : Config) (r : Replica Cmd) (m : Msg Cmd) :
    Option (List (Msg Cmd)) × Replica Cmd :=
  match m.partialSig, m.node with
  | some (rid, sig), some node =>
      match pyIndex (verifyKeys cfg.n) rid with
      | none => (none, r.raise)
      | some vk =>
          if !verifyVote vk m.type m.viewNumber node.hash sig then (none, r)
          else
            let key := (m.type, m.viewNumber, node.hash)
            if key ∈ r.formed then (none, r)
            else
              let votes := (r.votes.getD key Dict.empty).set rid m
              let r := { r with votes := r.votes.set key votes }
              if cfg.quorum ≤ votes.size then
                (some votes.values, { r with formed := r.formed.insert key })
              else (none, r)
  | _, _ => (none, r)

/-- Ask a peer for the branch that ends at a hash. -/
def requestSync (r : Replica Cmd) (nodeHash : Digest) (peer : Int) : Replica Cmd :=
  r.send peer {
    type := .syncReq
    viewNumber := r.view
    sender := r.id
    node := none
    justify := none
    partialSig := none
    payload := .hash nodeHash }

/-- The node extends the locked node, or its certificate is newer than the
lock. -/
def safeNode (r : Replica Cmd) (node : Node Cmd) (qc : QC) : Bool :=
  let safety :=
    match r.tree.get r.lockedQc.nodeHash with
    | some lockedNode => r.tree.extendsNode node lockedNode
    | none => false
  let liveness := r.lockedQc.viewNumber < qc.viewNumber
  safety || liveness

/-- Replica side of PREPARE. -/
def onPrepare (cfg : Config) (r : Replica Cmd) (m : Msg Cmd) : Replica Cmd :=
  if m.sender ≠ cfg.leader m.viewNumber ∨ !verifyJustify cfg m.justify then r
  else
    match m.node, m.justify with
    | some node, some qc =>
        let r := { r with
          tree := r.tree.add node
          view := max r.view m.viewNumber }
        match r.tree.get qc.nodeHash with
        | none => r.requestSync qc.nodeHash m.sender
        | some parent =>
            if !r.tree.extendsNode node parent then r
            else if !r.safeNode node qc then r
            else r.sendVote cfg .prepare m.viewNumber node
    | _, _ => r.raise

/-- The message that carries a certificate to the next phase. -/
def phaseMsg (r : Replica Cmd) (type : MsgType) (view : Int) (qc : QC) :
    Msg Cmd where
  type := type
  viewNumber := view
  sender := r.id
  node := none
  justify := some qc
  partialSig := none
  payload := .none

/-- Leader side of PREPARE votes. -/
def onPrepareVote (cfg : Config) (r : Replica Cmd) (m : Msg Cmd) : Replica Cmd :=
  match r.tally cfg m with
  | (none, r) => r
  | (some votes, r) =>
      match buildQc votes cfg.quorum with
      | none => r.raise
      | some qc =>
          let r := { r with prepareQc := qc }
          let r := r.recordQc qc
          r.broadcast cfg (r.phaseMsg .preCommit m.viewNumber qc)

/-- Replica side of PRE-COMMIT. -/
def onPreCommit (cfg : Config) (r : Replica Cmd) (m : Msg Cmd) : Replica Cmd :=
  if m.sender ≠ cfg.leader m.viewNumber ∨
      !matchingQc m.justify .prepare m.viewNumber then r
  else if !verifyJustify cfg m.justify then r
  else
    match m.justify with
    | none => r
    | some qc =>
        let r := { r with prepareQc := qc }
        match r.tree.get qc.nodeHash with
        | none => r
        | some node => r.sendVote cfg .preCommit m.viewNumber node

/-- Leader side of PRE-COMMIT and COMMIT votes. -/
def onGenericVote (cfg : Config) (r : Replica Cmd) (m : Msg Cmd) : Replica Cmd :=
  match r.tally cfg m with
  | (none, r) => r
  | (some votes, r) =>
      match buildQc votes cfg.quorum with
      | none => r.raise
      | some qc =>
          let r := r.recordQc qc
          if m.type = .preCommit then
            r.broadcast cfg (r.phaseMsg .commit m.viewNumber qc)
          else
            r.broadcast cfg (r.phaseMsg .decide m.viewNumber qc)

/-- Replica side of COMMIT: the lock. -/
def onCommit (cfg : Config) (r : Replica Cmd) (m : Msg Cmd) : Replica Cmd :=
  if m.sender ≠ cfg.leader m.viewNumber ∨
      !matchingQc m.justify .preCommit m.viewNumber then r
  else if !verifyJustify cfg m.justify then r
  else
    match m.justify with
    | none => r
    | some qc =>
        match r.tree.get qc.nodeHash with
        | none => r
        | some node =>
            let r := { r with lockedQc := qc }
            r.sendVote cfg .commit m.viewNumber node

/-- The walk to the first executed ancestor continues at this hash. -/
def unexecuted (r : Replica Cmd) (h : Digest) : Bool :=
  h ≠ genesisHash && !(r.executed.contains h)

/-- Execute one node. -/
def executeNode (r : Replica Cmd) (b : Node Cmd) : Replica Cmd :=
  let r := { r with
    executed := r.executed.insert b.hash
    committed := r.committed ++ [b] }
  match b.cmd with
  | none => r
  | some cmd =>
      let (sm, result) :=
        match r.sm with
        | some s =>
            let (s', res) := Application.apply s cmd
            (some s', some res)
        | none => (none, none)
      { r with
        sm := sm
        committedCmds := r.committedCmds.insert (cmdKey cmd)
        replies := r.replies ++ [(cmd, result)] }

/-- Execute a node and its unexecuted ancestors, oldest first. -/
def execute (r : Replica Cmd) (node : Node Cmd) : Replica Cmd :=
  (r.tree.branch r.unexecuted node.hash).reverse.foldl executeNode r

/-- The first ancestor that is not stored, if the branch is incomplete. -/
def firstMissingAncestor (r : Replica Cmd) (node : Node Cmd) : Option Digest :=
  r.tree.firstMissing r.unexecuted node.hash

/-- Replica side of DECIDE. -/
def onDecide (cfg : Config) (r : Replica Cmd) (m : Msg Cmd) : Replica Cmd :=
  if m.sender ≠ cfg.leader m.viewNumber ∨
      !matchingQc m.justify .commit m.viewNumber then r
  else if !verifyJustify cfg m.justify then r
  else
    match m.justify with
    | none => r
    | some qc =>
        let node := r.tree.get qc.nodeHash
        let missing :=
          match node with
          | none => if qc.nodeHash = .absent then none else some qc.nodeHash
          | some b => r.firstMissingAncestor b
        match missing with
        | some h =>
            let r := r.requestSync h m.sender
            { r with deferred := r.deferred ++ [m] }
        | none =>
            let r :=
              match node with
              | some b => r.execute b
              | none => r
            if m.viewNumber ∈ r.decided then r
            else
              let r := { r with
                decided := r.decided.insert m.viewNumber
                failures := 0 }
              r.advanceFrom cfg m.viewNumber

/-- The armed timer of a view fires. -/
def onTimeout (cfg : Config) (r : Replica Cmd) (view : Int) : Replica Cmd :=
  if !r.running ∨ view ≠ r.view ∨ view ∈ r.left then r
  else
    let r := { r with failures := r.failures + 1 }
    r.advanceFrom cfg view

/-- Answer a peer that is missing a branch. -/
def onSyncReq (r : Replica Cmd) (m : Msg Cmd) : Replica Cmd :=
  match m.payload with
  | .nodes _ => r.raise
  | .none => r
  | .hash nodeHash =>
      let chain := r.tree.branch (· ≠ genesisHash) nodeHash
      if chain.isEmpty then r
      else r.send m.sender {
        type := .syncResp
        viewNumber := r.view
        sender := r.id
        node := none
        justify := none
        partialSig := none
        payload := .nodes chain }

/-- Store the received branch and retry the deferred decisions. -/
def onSyncResp (cfg : Config) (r : Replica Cmd) (m : Msg Cmd) : Replica Cmd :=
  let retry (r : Replica Cmd) : Replica Cmd :=
    r.deferred.foldl (onDecide cfg) { r with deferred := [] }
  match m.payload with
  | .nodes chain => retry { r with tree := chain.foldl Tree.add r.tree }
  | .hash nodeHash => if nodeHash = .text "" then retry r else r.raise
  | .none => r.raise

/-- React to a message by its type. -/
def dispatch (cfg : Config) (r : Replica Cmd) (m : Msg Cmd) : Replica Cmd :=
  let isVote := m.partialSig.isSome
  let r :=
    if (m.type = .prepare ∨ m.type = .preCommit ∨ m.type = .commit ∨
        m.type = .decide) ∧ !isVote ∧ r.view < m.viewNumber then
      r.syncView cfg m.viewNumber
    else r
  match m.type with
  | .newView => r.onNewView cfg m
  | .prepare => if isVote then r.onPrepareVote cfg m else r.onPrepare cfg m
  | .preCommit => if isVote then r.onGenericVote cfg m else r.onPreCommit cfg m
  | .commit => if isVote then r.onGenericVote cfg m else r.onCommit cfg m
  | .decide => r.onDecide cfg m
  | .syncReq => r.onSyncReq m
  | .syncResp => r.onSyncResp cfg m
  | .generic => r

/-- One input of the replica, if it can occur. -/
def step (cfg : Config) (r : Replica Cmd) (i : Input Cmd) : Option (Replica Cmd) :=
  let r := { r with outbox := [], replies := [] }
  match i with
  | .start =>
      if r.started then none
      else some ({ r with started := true }.advanceFrom cfg 0)
  | .dispatch m =>
      if r.started && r.running && !r.raised then some (r.dispatch cfg m) else none
  | .submit cmd => some (r.submit cfg cmd)
  | .timeout =>
      match r.timer with
      | some view => some ({ r with timer := none }.onTimeout cfg view)
      | none => none
  | .stop => some { r with running := false, timer := none }

end Replica

section Fixture

/-- Four replicas of which one may be faulty; replica 0 leads every view. -/
def fourReplicas : Config where
  n := 4
  f := 1
  fixedLeader := some 0
  timeouts := false

/-- A block of view 1 below the genesis block. -/
def blockOf (cmd : String) : Node String :=
  Replica.createLeaf genesisHash cmd 1

/-- The proposal of a block by the leader. -/
def proposalOf (cmd : String) : Msg String where
  type := .prepare
  viewNumber := 1
  sender := 0
  node := some (blockOf cmd)
  justify := some genesisQc
  partialSig := none
  payload := .none

/-- A certificate over a block, signed by the listed replicas. -/
def certificateOf (t : MsgType) (view : Int) (cmd : String) (signers : List Nat) :
    QC where
  type := t
  viewNumber := view
  nodeHash := (blockOf cmd).hash
  sigs := signers.map fun (k : Nat) => ((k : Int), signVote k t view (blockOf cmd).hash)

/-- The leader starts a phase with a certificate. -/
def phaseOf (t : MsgType) (qc : QC) : Msg String where
  type := t
  viewNumber := qc.viewNumber
  sender := 0
  node := none
  justify := some qc
  partialSig := none
  payload := .none

/-- Replica `i` starts. -/
def startOf (i : Fin 4) : Fin fourReplicas.n × Input String := (i, .start)

/-- Replica `i` is handed a command. -/
def submitOf (i : Fin 4) (cmd : String) : Fin fourReplicas.n × Input String :=
  (i, .submit cmd)

/-- Replica `i` receives a message. -/
def deliver (i : Fin 4) (m : Msg String) : Fin fourReplicas.n × Input String :=
  (i, .dispatch m)

end Fixture

end HotStuff
end DistributedConsensus
