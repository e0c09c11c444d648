import DistributedConsensus.HotStuff.Replica

/-!
# Chained HotStuff: one replica

The class `ChainedReplica` of `hotstuff/chained_replica.py`, handler by handler
and under the source's names, with the conventions of `Replica`: handlers map
states to states, messages go to `outbox` and replies to `replies`, and a Python
exception sets `raised`.
-/

namespace DistributedConsensus
namespace HotStuff

open Foundations

/-- State of a Chained HotStuff replica. -/
structure ChainedReplica (Cmd : Type) [Application Cmd] where
  id : Nat
  view : Int
  tree : Tree Cmd
  /-- Highest certificate seen. -/
  genericQc : QC
  /-- The node the replica is locked on. -/
  lockedNode : Node Cmd
  committed : List (Node Cmd)
  executed : List Digest
  pending : List Cmd
  pendingKeys : List String
  committedCmds : List String
  /-- Commands present on the branch that ends at a hash. -/
  branchCmds : Dict Digest (List String)
  votes : Dict (Int × Digest) (Dict Int (Msg Cmd))
  newView : Dict Int (Dict Int QC)
  formed : List (Int × Digest)
  proposed : List Int
  voted : List Int
  left : List Int
  failures : Nat
  timer : Option Int
  qcs : List VoteKey
  running : Bool
  sm : Option (Application.State Cmd)
  started : Bool
  raised : Bool
  outbox : List (Int × Msg Cmd)
  replies : List (Cmd × Option (Application.Result Cmd))

namespace ChainedReplica

variable {Cmd : Type} [Application Cmd]

/-- A new replica. -/
def new (id : Nat) (sm : Option (Application.State Cmd)) : ChainedReplica Cmd where
  id := id
  view := 0
  tree := Tree.new
  genericQc := genesisQc
  lockedNode := genesis
  committed := []
  executed := []
  pending := []
  pendingKeys := []
  committedCmds := []
  branchCmds := Dict.empty.set genesisHash []
  votes := Dict.empty
  newView := Dict.empty
  formed := []
  proposed := []
  voted := []
  left := []
  failures := 0
  timer := none
  qcs := []
  running := true
  sm := sm
  started := false
  raised := false
  outbox := []
  replies := []

/-- Hand a message to the network. -/
def send (r : ChainedReplica Cmd) (dst : Int) (m : Msg Cmd) : ChainedReplica Cmd :=
  { r with outbox := r.outbox ++ [(dst, m)] }

/-- Hand a message for every replica to the network. -/
def broadcast (cfg : Config) (r : ChainedReplica Cmd) (m : Msg Cmd) :
    ChainedReplica Cmd :=
  { r with
    outbox := r.outbox ++ (List.range cfg.n).map (fun (i : Nat) => ((i : Int), m)) }

/-- A Python exception. -/
def raise (r : ChainedReplica Cmd) : ChainedReplica Cmd := { r with raised := true }

/-- Audit a certificate with signatures. -/
def recordQc (r : ChainedReplica Cmd) (qc : QC) : ChainedReplica Cmd :=
  if qc.sigs.isEmpty then r
  else { r with qcs := r.qcs ++ [(qc.type, qc.viewNumber, qc.nodeHash)] }

/-- Record the commands on the branch that ends at a node. -/
def registerBranch (r : ChainedReplica Cmd) (node : Node Cmd) : ChainedReplica Cmd :=
  let base :=
    match r.branchCmds.get? node.parentHash with
    | some base => base
    | none =>
        (r.tree.branch (· ≠ genesisHash) node.parentHash).filterMap
          (fun b => b.cmd.map cmdKey)
  let own := node.cmd.toList.map cmdKey
  { r with branchCmds := r.branchCmds.set node.hash (own ++ base) }

/-- Take the oldest pending command that is neither committed nor on the branch;
commands on the branch stay pending in front of the rest. -/
def nextCommandLoop (r : ChainedReplica Cmd) (onBranch : List String)
    (skipped : List Cmd) : List Cmd → Option Cmd × ChainedReplica Cmd
  | [] => (none, { r with pending := skipped })
  | cmd :: rest =>
      if cmdKey cmd ∈ r.committedCmds then
        nextCommandLoop
          { r with pendingKeys := r.pendingKeys.filter (· ≠ cmdKey cmd) }
          onBranch skipped rest
      else if cmdKey cmd ∈ onBranch then
        nextCommandLoop r onBranch (skipped ++ [cmd]) rest
      else (some cmd, { r with pending := skipped ++ rest })

/-- The next command to propose below a hash. -/
def nextCommand (r : ChainedReplica Cmd) (parentHash : Digest) :
    Option Cmd × ChainedReplica Cmd :=
  r.nextCommandLoop (r.branchCmds.getD parentHash []) [] r.pending

/-- The node proposed on top of a certificate. -/
def leafOf (justify : QC) (cmd : Cmd) (view : Int) : Node Cmd where
  parentHash := justify.nodeHash
  cmd := some cmd
  viewNumber := view
  justify := some justify

/-- The proposal message of a leader. -/
def proposalMsg (r : ChainedReplica Cmd) (view : Int) (leaf : Node Cmd)
    (justify : QC) : Msg Cmd where
  type := .generic
  viewNumber := view
  sender := r.id
  node := some leaf
  justify := some justify
  partialSig := none
  payload := .none

/-- Propose a leaf on the certificate, once per view. -/
def tryPropose (cfg : Config) (r : ChainedReplica Cmd) (view : Int) (justify : QC) :
    ChainedReplica Cmd :=
  if view ∈ r.proposed ∨ !cfg.isLeader view r.id then r
  else if r.pending.isEmpty then r
  else
    match r.nextCommand justify.nodeHash with
    | (none, r) => r
    | (some cmd, r) =>
        let leaf := leafOf justify cmd view
        let r := { r with tree := r.tree.add leaf }
        let r := r.registerBranch leaf
        let r := { r with proposed := r.proposed.insert view }
        r.broadcast cfg (r.proposalMsg view leaf justify)

/-- Buffer a command of a client. -/
def submit (cfg : Config) (r : ChainedReplica Cmd) (cmd : Cmd) : ChainedReplica Cmd :=
  if cmdKey cmd ∈ r.pendingKeys ∨ cmdKey cmd ∈ r.committedCmds then r
  else
    let r := { r with
      pending := r.pending ++ [cmd]
      pendingKeys := r.pendingKeys.insert (cmdKey cmd) }
    r.tryPropose cfg r.view r.genericQc

/-- Collect NEW-VIEW messages for the view that this replica leads. -/
def onNewView (cfg : Config) (r : ChainedReplica Cmd) (m : Msg Cmd) :
    ChainedReplica Cmd :=
  let start := m.viewNumber + 1
  if !cfg.isLeader start r.id ∨ !Replica.verifyJustify cfg m.justify then r
  else
    let tally := (r.newView.getD start Dict.empty).set m.sender
      (m.justify.getD genesisQc)
    let r := { r with newView := r.newView.set start tally }
    if cfg.quorum ≤ tally.size then
      match maxBy QC.viewNumber tally.values with
      | some high => r.tryPropose cfg start high
      | none => r.raise
    else r

/-- Start the timer of the current view, if timeouts are enabled. -/
def armTimer (cfg : Config) (r : ChainedReplica Cmd) : ChainedReplica Cmd :=
  { r with timer := if cfg.timeouts then some r.view else none }

/-- Enter a view. -/
def enter (cfg : Config) (r : ChainedReplica Cmd) (view : Int) : ChainedReplica Cmd :=
  { r with view := view }.armTimer cfg

/-- Leave a view once and tell the leader of the next one. -/
def advanceFrom (cfg : Config) (r : ChainedReplica Cmd) (prev : Int) :
    ChainedReplica Cmd :=
  if prev ∈ r.left then r
  else
    let r := { r with left := r.left.insert prev, view := prev + 1 }
    let r := r.send (cfg.leader r.view) {
      type := .newView
      viewNumber := prev
      sender := r.id
      node := none
      justify := some r.genericQc
      partialSig := none
      payload := .none }
    r.armTimer cfg

/-- The armed timer of a view fires. -/
def onTimeout (cfg : Config) (r : ChainedReplica Cmd) (view : Int) :
    ChainedReplica Cmd :=
  if !r.running ∨ view ≠ r.view ∨ view ∈ r.left then r
  else
    let r := { r with failures := r.failures + 1 }
    r.advanceFrom cfg view

/-- The walk of `commit` continues at this hash. -/
def unexecuted (r : ChainedReplica Cmd) (h : Digest) : Bool :=
  h ≠ genesisHash && !(r.executed.contains h)

/-- Execute one node. -/
def executeNode (r : ChainedReplica Cmd) (b : Node Cmd) : ChainedReplica Cmd :=
  let r := { r with
    executed := r.executed.insert b.hash
    committed := r.committed ++ [b] }
  match b.cmd with
  | none => r
  | some cmd =>
      let (sm, result) :=
        match r.sm with
        | some s =>
            let (s', res) := Application.apply s cmd
            (some s', some res)
        | none => (none, none)
      { r with
        sm := sm
        committedCmds := r.committedCmds.insert (cmdKey cmd)
        replies := r.replies ++ [(cmd, result)] }

/-- Execute a node and the ancestors found on the way up, oldest first.  The
walk ends silently at a missing ancestor. -/
def commit (r : ChainedReplica Cmd) (node : Node Cmd) : ChainedReplica Cmd :=
  (r.tree.branch r.unexecuted node.hash).reverse.foldl executeNode r

/-- The stored node that the certificate of a node points to. -/
def justified (t : Tree Cmd) (b : Node Cmd) : Option (Node Cmd) :=
  match b.justify with
  | some qc => t.get qc.nodeHash
  | none => none

/-- The two-chain rule: lock on the grandparent if it is newer. -/
def lockOn (locked : Node Cmd) : Option (Node Cmd) → Node Cmd
  | some b1 => if locked.viewNumber < b1.viewNumber then b1 else locked
  | none => locked

/-- The one-, two- and three-chain rules. -/
def update (r : ChainedReplica Cmd) (bStar : Node Cmd) : ChainedReplica Cmd :=
  match bStar.justify with
  | none => r.raise
  | some qc =>
      match r.tree.get qc.nodeHash with
      | none => r
      | some b2 =>
          let b1 := justified r.tree b2
          let b0 := b1.bind (justified r.tree)
          let r := { r with
            genericQc :=
              if r.genericQc.viewNumber < qc.viewNumber then qc else r.genericQc
            lockedNode := lockOn r.lockedNode b1 }
          match b0, b1 with
          | some b0, some b1 =>
              if b1.viewNumber = b0.viewNumber + 1 ∧
                  b2.viewNumber = b1.viewNumber + 1 then
                r.commit b0
              else r
          | _, _ => r

/-- The node extends the locked node, or its certificate is newer than the
lock. -/
def safeNode (r : ChainedReplica Cmd) (node : Node Cmd) (qc : QC) : Bool :=
  r.tree.extendsNode node r.lockedNode || r.lockedNode.viewNumber < qc.viewNumber

/-- The vote message of this replica. -/
def voteMsg (r : ChainedReplica Cmd) (view : Int) (node : Node Cmd) : Msg Cmd where
  type := .generic
  viewNumber := view
  sender := r.id
  node := some node
  justify := none
  partialSig := some ((r.id : Int), signVote r.id .generic view node.hash)
  payload := .none

/-- Vote once per view for a safe node; the vote goes to the next leader. -/
def vote (cfg : Config) (r : ChainedReplica Cmd) (view : Int) (node : Node Cmd)
    (qc : QC) : ChainedReplica Cmd :=
  if view ∉ r.voted ∧ r.safeNode node qc then
    let r := { r with voted := r.voted.insert view }
    r.send (cfg.leader (view + 1)) (r.voteMsg view node)
  else r

/-- Replica side of the GENERIC phase. -/
def onGeneric (cfg : Config) (r : ChainedReplica Cmd) (m : Msg Cmd) :
    ChainedReplica Cmd :=
  if m.sender ≠ cfg.leader m.viewNumber ∨ !Replica.verifyJustify cfg m.justify then r
  else
    match m.node, m.justify with
    | some bStar, some qc =>
        let r := { r with tree := r.tree.add bStar }
        let r := r.registerBranch bStar
        let r := if r.view < m.viewNumber then r.enter cfg m.viewNumber else r
        let r := r.vote cfg m.viewNumber bStar qc
        r.update bStar
    | _, _ => r.raise

/-- The next leader collects GENERIC votes and proposes on the certificate. -/
def onGenericVote (cfg : Config) (r : ChainedReplica Cmd) (m : Msg Cmd)
    (rid : Int) (sig : Sig) : ChainedReplica Cmd :=
  let start := m.viewNumber + 1
  match m.node with
  | none => r
  | some node =>
      if !cfg.isLeader start r.id then r
      else
        match pyIndex (verifyKeys cfg.n) rid with
        | none => r.raise
        | some vk =>
            if !verifyVote vk .generic m.viewNumber node.hash sig then r
            else
              let key := (m.viewNumber, node.hash)
              if key ∈ r.formed then r
              else
                let votes := (r.votes.getD key Dict.empty).set rid m
                let r := { r with votes := r.votes.set key votes }
                if cfg.quorum ≤ votes.size then
                  let r := { r with formed := r.formed.insert key }
                  match buildQc votes.values cfg.quorum with
                  | some qc => (r.recordQc qc).tryPropose cfg start qc
                  | none => r.raise
                else r

/-- React to a message by its type. -/
def dispatch (cfg : Config) (r : ChainedReplica Cmd) (m : Msg Cmd) :
    ChainedReplica Cmd :=
  match m.type with
  | .newView => r.onNewView cfg m
  | .generic =>
      match m.partialSig with
      | some (rid, sig) => r.onGenericVote cfg m rid sig
      | none => r.onGeneric cfg m
  | _ => r

/-- One input of the replica, if it can occur. -/
def step (cfg : Config) (r : ChainedReplica Cmd) (i : Input Cmd) :
    Option (ChainedReplica Cmd) :=
  let r := { r with outbox := [], replies := [] }
  match i with
  | .start =>
      if r.started then none
      else some ({ r with started := true }.advanceFrom cfg 0)
  | .dispatch m =>
      if r.started && r.running && !r.raised then some (r.dispatch cfg m) else none
  | .submit cmd => some (r.submit cfg cmd)
  | .timeout =>
      match r.timer with
      | some view => some ({ r with timer := none }.onTimeout cfg view)
      | none => none
  | .stop => some { r with running := false, timer := none }

end ChainedReplica

end HotStuff
end DistributedConsensus
