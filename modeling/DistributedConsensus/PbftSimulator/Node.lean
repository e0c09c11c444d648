import DistributedConsensus.PbftSimulator.Message
import Mathlib.Data.Finset.Card

/-!
# PBFT simulator: the node

`node.go`: the state of a correct node and its handlers.  A handler runs as one
step; what it sends is appended to `sent` with the nodes that it is sent to, what
it sends to clients to `replies`, and the line that it prints when it commits to
`log`.  The other log lines, the simulated faults and the skipped peers, whose
messages count as lost, are left out.

`rejectPendingNewView` starts a view change, which looks at the NEW-VIEW message
of the next view and can reject it in turn.  Each rejection removes a pending
NEW-VIEW message; `startViewChange` recurses on a bound for their number.
-/

namespace DistributedConsensus
namespace PbftSimulator

open Foundations

/-- The numbers of replicas and of faults that every node is created with. -/
structure Config where
  totalNodes : ℕ
  F : ℕ

/-- A message with the nodes that it is sent to. -/
structure Packet where
  recipients : List ℤ
  msg : Message
deriving DecidableEq

/-- Votes: sequence number, view and digest, and who has sent the vote. -/
abbrev Votes := Dict (ℤ × ℤ × String) (Finset ℤ)

structure Node where
  id : ℤ
  view : ℤ
  clientChannels : Finset ℤ
  assignedRequests : Finset String
  prepareVotes : Votes
  commitVotes : Votes
  /-- Sequence numbers and views. -/
  commitSent : Finset (ℤ × ℤ)
  committed : Finset ℤ
  prePrepareReceived : Dict ℤ String
  preparedSent : Dict ℤ Bool
  requestLog : Dict String Request
  pendingPrePrepares : Dict String PrePrepare
  timerActive : Bool
  seqCounter : ℤ
  activeView : Bool
  viewChangeLog : Dict ℤ (Dict ℤ ViewChange)
  /-- Views and replicas, and who has acknowledged the VIEW-CHANGE message. -/
  viewChangeAckCount : Dict (ℤ × ℤ) (Finset ℤ)
  newViewSent : Finset ℤ
  preparedView : Dict ℤ ℤ
  prePreparedView : Dict ℤ ℤ
  pendingNewView : Dict ℤ NewView
  enteredPrePrepared : Dict ℤ ℤ
  executedDigests : Dict String Reply
  sent : List Packet
  replies : List (ℤ × Reply)
  log : List (ℤ × String)

/-- `NewNode` with the registered clients. -/
def Node.new (id : ℤ) (clientChannels : Finset ℤ) : Node where
  id := id
  view := 0
  clientChannels := clientChannels
  assignedRequests := ∅
  prepareVotes := Dict.empty
  commitVotes := Dict.empty
  commitSent := ∅
  committed := ∅
  prePrepareReceived := Dict.empty
  preparedSent := Dict.empty
  requestLog := Dict.empty
  pendingPrePrepares := Dict.empty
  timerActive := false
  seqCounter := 0
  activeView := true
  viewChangeLog := Dict.empty
  viewChangeAckCount := Dict.empty
  newViewSent := ∅
  preparedView := Dict.empty
  prePreparedView := Dict.empty
  pendingNewView := Dict.empty
  enteredPrePrepared := Dict.empty
  executedDigests := Dict.empty
  sent := []
  replies := []
  log := []

namespace Node

variable (c : Config)

/-- The primary of a view. -/
def primary (view : ℤ) : ℤ := view.tmod c.totalNodes

def isPrimary (n : Node) : Bool := decide (n.id = primary c n.view)

/-- The peers of a node. -/
def peers (id : ℤ) : List ℤ :=
  ((List.range c.totalNodes).map (fun k => (k : ℤ))).filter (fun peer => !decide (peer = id))

def broadcast (n : Node) (msg : Message) : Node :=
  { n with sent := n.sent ++ [⟨peers c n.id, msg⟩] }

def sendTo (n : Node) (peer : ℤ) (msg : Message) : Node :=
  if peer < 0 ∨ c.totalNodes ≤ peer then n else { n with sent := n.sent ++ [⟨[peer], msg⟩] }

/-- Send a reply to a registered client. -/
def sendReply (n : Node) (client : ℤ) (reply : Reply) : Node :=
  if client ∈ n.clientChannels then { n with replies := n.replies ++ [(client, reply)] } else n

/-! ## Timers -/

def startTimerIfNeeded (n : Node) : Node :=
  if n.isPrimary c then n else if n.timerActive then n else { n with timerActive := true }

def stopTimer (n : Node) : Node := { n with timerActive := false }

/-! ## The phases of a request -/

def recordVote (votes : Votes) (sequence view : ℤ) (digest : String) (senderID : ℤ) : Votes :=
  votes.set (sequence, view, digest) (insert senderID (votes.getD (sequence, view, digest) ∅))

def countVotes (votes : Votes) (sequence view : ℤ) (digest : String) : ℕ :=
  (votes.getD (sequence, view, digest) ∅).card

/-- Remember that the request is executed and reply to its client, when the
request is known. -/
def execute (n : Node) (digest : String) : Node :=
  match n.requestLog.get? digest with
  | none => n
  | some req =>
      let reply : Reply := ⟨n.view, n.id, digest, req.timestamp⟩
      { n with executedDigests := n.executedDigests.set digest reply }.sendReply req.senderID reply

def tryCommit (n : Node) (sequence : ℤ) (digest : String) (view : ℤ) : Node :=
  if countVotes n.commitVotes sequence view digest < quorumSize c.F then n
  else if n.preparedSent.getD sequence false = false ∨
      n.prePrepareReceived.getD sequence "" ≠ digest then n
  else if sequence ∈ n.committed then n
  else
    { { n with committed := insert sequence n.committed }.stopTimer with
      log := n.log ++ [(sequence, digest)] }.execute digest

/-- The sequence number becomes prepared in the view. -/
def setPrepared (n : Node) (sequence : ℤ) (digest : String) (view : ℤ) : Node :=
  { n with
    preparedSent := n.preparedSent.set sequence true
    preparedView := n.preparedView.set sequence view
    commitSent := insert (sequence, view) n.commitSent
    commitVotes := recordVote n.commitVotes sequence view digest n.id }.broadcast c
      (.commit ⟨view, sequence, digest, n.id⟩)

/-- The check that lets a node send its COMMIT. -/
def isPrepared (n : Node) (sequence : ℤ) (digest : String) (view : ℤ) : Bool :=
  decide (n.prePrepareReceived.get? sequence = some digest) &&
    !decide ((sequence, view) ∈ n.commitSent) &&
    decide (2 * c.F ≤ countVotes n.prepareVotes sequence view digest)

def checkPrepared (n : Node) (sequence : ℤ) (digest : String) (view : ℤ) : Node :=
  if n.isPrepared c sequence digest view then
    (n.setPrepared c sequence digest view).tryCommit c sequence digest view
  else n

def enterPreparePhase (n : Node) (sequence : ℤ) (digest : String) (view : ℤ) : Node :=
  let n := ({ n with
    prepareVotes := recordVote n.prepareVotes sequence view digest n.id }.broadcast c
      (.prepare ⟨view, sequence, digest, n.id⟩)).checkPrepared c sequence digest view
  { n with enteredPrePrepared := n.enteredPrePrepared.set sequence view }

/-- The digest stands for the sequence number in the view. -/
def accept (n : Node) (sequence : ℤ) (digest : String) (view : ℤ) : Node :=
  { n with
    prePrepareReceived := n.prePrepareReceived.set sequence digest
    prePreparedView := n.prePreparedView.set sequence view }

def startConsensusFor (n : Node) (req : Request) (sequence : ℤ) : Node :=
  let n := (n.accept sequence req.digest n.view).broadcast c
    (.prePrepare ⟨n.view, sequence, req.digest, n.id, req.payload⟩)
  { n with enteredPrePrepared := n.enteredPrePrepared.set sequence n.view }

/-- A new request on an active primary. -/
def assign (n : Node) (msg : Request) : Node :=
  if msg.digest ∈ n.assignedRequests then n
  else
    startConsensusFor c { n with
      seqCounter := n.seqCounter + 1
      assignedRequests := insert msg.digest n.assignedRequests } msg (n.seqCounter + 1)

/-- A request on an active backup. -/
def onBackupRequest (n : Node) (msg : Request) : Node :=
  match n.pendingPrePrepares.get? msg.digest with
  | none => n.startTimerIfNeeded c
  | some pending =>
      ({ n with
        pendingPrePrepares := n.pendingPrePrepares.erase msg.digest }.startTimerIfNeeded
          c).enterPreparePhase c pending.sequence pending.digest pending.view

def onRequest (n : Node) (msg : Request) : Node :=
  match n.executedDigests.get? msg.digest with
  | some reply => n.sendReply msg.senderID reply
  | none =>
      let n := { n with requestLog := n.requestLog.set msg.digest msg }
      if n.activeView = false then n
      else if n.isPrimary c then n.assign c msg
      else n.onBackupRequest c msg

/-- The PRE-PREPARE contradicts one of the same view. -/
def conflicts (n : Node) (msg : PrePrepare) : Bool :=
  decide (n.prePreparedView.get? msg.sequence = some msg.view) &&
    (n.prePrepareReceived.get? msg.sequence).any (fun digest => !decide (digest = msg.digest))

def onPrePrepare (n : Node) (msg : PrePrepare) : Node :=
  if msg.view ≠ n.view then n
  else if msg.senderID ≠ primary c msg.view then n
  else if n.conflicts msg then n
  else
    let n := n.accept msg.sequence msg.digest msg.view
    if n.requestLog.contains msg.digest then
      n.enterPreparePhase c msg.sequence msg.digest msg.view
    else { n with pendingPrePrepares := n.pendingPrePrepares.set msg.digest msg }

def onPrepare (n : Node) (msg : Vote) : Node :=
  if msg.view ≠ n.view then n
  else
    { n with
      prepareVotes := recordVote n.prepareVotes msg.sequence msg.view msg.digest
        msg.senderID }.checkPrepared c msg.sequence msg.digest msg.view

def onCommit (n : Node) (msg : Vote) : Node :=
  if msg.view ≠ n.view then n
  else
    { n with
      commitVotes := recordVote n.commitVotes msg.sequence msg.view msg.digest
        msg.senderID }.tryCommit c msg.sequence msg.digest msg.view

/-! ## View changes -/

/-- The P set: the sequence numbers that were prepared at least once. -/
def pSet (n : Node) (o : Orders) : List PQEntry :=
  ((n.preparedSent.inOrder o.preparedSent).filter Prod.snd).map fun p =>
    ⟨p.1, n.prePrepareReceived.getD p.1 "", n.preparedView.getD p.1 0⟩

/-- The Q set: the sequence numbers that entered the prepare phase. -/
def qSet (n : Node) (o : Orders) : List PQEntry :=
  (n.enteredPrePrepared.inOrder o.enteredPrePrepared).map fun p =>
    ⟨p.1, n.prePrepareReceived.getD p.1 "", p.2⟩

/-- One entry of the X set of a new view. -/
def processEntry (view : ℤ) (n : Node) (x : XEntry) : Node :=
  if x.digest = "null" then n
  else
    let n := { n with
      requestLog := if n.requestLog.contains x.digest then n.requestLog
        else n.requestLog.set x.digest ⟨0, x.digest, x.payload, 0⟩ }.accept x.sequence x.digest view
    if n.isPrimary c then
      { n with assignedRequests := insert x.digest n.assignedRequests }.broadcast c
        (.prePrepare ⟨view, x.sequence, x.digest, n.id, x.payload⟩)
    else n.enterPreparePhase c x.sequence x.digest view

/-- The node becomes active in a view. -/
def activate (n : Node) (msg : NewView) : Node :=
  { n with
    view := msg.view
    activeView := true
    seqCounter := msg.xSet.foldl (fun counter x => max counter x.sequence) n.seqCounter }

def processNewView (n : Node) (msg : NewView) : Node :=
  if n.activeView = true ∧ n.view = msg.view then n
  else msg.xSet.foldl (processEntry c msg.view) (n.activate msg)

/-- The VIEW-CHANGE messages that count for the new primary. -/
def qualified (n : Node) (newView : ℤ) : Dict ℤ ViewChange :=
  (n.viewChangeLog.getD newView Dict.empty).filter fun p =>
    decide (p.1 = n.id) ||
      decide (2 * (c.F : ℤ) - 1 ≤ (n.viewChangeAckCount.getD (newView, p.1) ∅).card)

/-- The NEW-VIEW message of the primary. -/
def newViewMessage (n : Node) (o : Orders) (newView : ℤ) : NewView where
  view := newView
  senderID := n.id
  vSet := ((n.qualified c newView).inOrder o.qualified).map fun p =>
    ⟨p.1, viewChangeDigest p.2⟩
  xSet := xEntries n.requestLog o (decisionProcedure c.F o (n.qualified c newView)).decisions

def tryBuildNewView (o : Orders) (n : Node) (newView : ℤ) : Node :=
  if primary c newView ≠ n.id then n
  else if newView ∈ n.newViewSent then n
  else if (n.qualified c newView).size < quorumSize c.F then n
  else if (decisionProcedure c.F o (n.qualified c newView)).complete = false then n
  else
    let msg := n.newViewMessage c o newView
    ({ n with newViewSent := insert newView n.newViewSent }.broadcast c
      (.newView msg)).processNewView c msg

/-- The VIEW-CHANGE message that an entry of the V set stands for. -/
def referenced (n : Node) (view : ℤ) (v : VCEntry) : Option ViewChange :=
  ((n.viewChangeLog.getD view Dict.empty).get? v.replicaID).filter fun vcMsg =>
    decide (viewChangeDigest vcMsg = v.digest)

/-- The messages of a V set by their senders. -/
def collect (n : Node) (view : ℤ) (vSet : List VCEntry) : Dict ℤ ViewChange :=
  vSet.foldl (fun S v =>
    match n.referenced view v with
    | none => S
    | some vcMsg => S.set v.replicaID vcMsg) Dict.empty

/-- Ask the primary for the VIEW-CHANGE messages that are missing. -/
def fetchMissing (n : Node) (msg : NewView) (missing : List VCEntry) : Node :=
  missing.foldl (fun n v =>
    n.sendTo c msg.senderID (.fetchViewChange ⟨msg.view, n.id, v.replicaID⟩)) n

/-- Drop the NEW-VIEW message and, if it is not too late, go on to the next view. -/
def rejectPendingNewView (again : Node → Node) (n : Node) (view : ℤ) : Node :=
  let n := { n with pendingNewView := n.pendingNewView.erase view }
  if view < n.view then n else again n

/-- Check the NEW-VIEW message of a view; `again` starts a view change. -/
def tryVerifyNewView (again : Node → Node) (o : Orders) (n : Node) (view : ℤ) : Node :=
  match n.pendingNewView.get? view with
  | none => n
  | some msg =>
      if view < n.view then n
      else
        let missing := msg.vSet.filter fun v => (n.referenced view v).isNone
        let S := n.collect view msg.vSet
        if missing ≠ [] then n.fetchMissing c msg missing
        else if S.size < quorumSize c.F then n.rejectPendingNewView again view
        else if (decisionProcedure c.F o S).agreesWith msg.xSet = false then
          n.rejectPendingNewView again view
        else
          { n with pendingNewView := n.pendingNewView.erase view }.processNewView c msg

/-- Store a VIEW-CHANGE message. -/
def storeViewChange (n : Node) (msg : ViewChange) : Node :=
  { n with
    viewChangeLog := n.viewChangeLog.set msg.view
      ((n.viewChangeLog.getD msg.view Dict.empty).set msg.senderID msg) }

/-- A VIEW-CHANGE message is acknowledged to the new primary. -/
def acknowledge (n : Node) (msg : ViewChange) : Node :=
  if msg.senderID = n.id then n
  else
    n.sendTo c (primary c msg.view)
      (.viewChangeAck ⟨msg.view, n.id, msg.senderID, viewChangeDigest msg⟩)

def onViewChange (again : Node → Node) (o o' : Orders) (n : Node) (msg : ViewChange) : Node :=
  if msg.view < n.view then n
  else if correctViewChange msg = false then n
  else if (n.viewChangeLog.getD msg.view Dict.empty).contains msg.senderID then n
  else
    let n := ((n.storeViewChange msg).acknowledge c msg).tryBuildNewView c o msg.view
    n.tryVerifyNewView c again o' msg.view

/-- The node gives up its view. -/
def leaveView (n : Node) : Node :=
  { n with view := n.view + 1, activeView := false }.stopTimer

/-- The VIEW-CHANGE message of a node that gives up its view. -/
def viewChangeMessage (n : Node) (o : Orders) : ViewChange :=
  ⟨n.view + 1, n.id, n.pSet o, n.qSet o⟩

/-- Give up views, at most as many as `fuel`; each pass has its own orders. -/
def startViewChange : ℕ → (ℕ → Orders) → Node → Node
  | 0, _, n => n
  | fuel + 1, o, n =>
      (n.leaveView.broadcast c (.viewChange (n.viewChangeMessage (o 0)))).onViewChange c
        (startViewChange fuel (fun k => o (k + 2))) (o 0) (o 1) (n.viewChangeMessage (o 0))

/-- A view change with enough passes for all pending NEW-VIEW messages. -/
def changeView (o : ℕ → Orders) (n : Node) : Node :=
  n.startViewChange c (n.pendingNewView.size + 1) o

def onViewChangeAck (o : Orders) (n : Node) (msg : ViewChangeAck) : Node :=
  if n.id ≠ primary c msg.view then n
  else
    let acks := n.viewChangeAckCount.getD (msg.view, msg.ackTarget) ∅
    { n with
      viewChangeAckCount := n.viewChangeAckCount.set (msg.view, msg.ackTarget)
        (if msg.senderID = msg.ackTarget then acks else insert msg.senderID acks) }.tryBuildNewView
          c o msg.view

def onNewView (again : Node → Node) (o : Orders) (n : Node) (msg : NewView) : Node :=
  if msg.senderID ≠ primary c msg.view then n
  else if msg.view < n.view then n
  else
    { n with pendingNewView := n.pendingNewView.set msg.view msg }.tryVerifyNewView c again o
      msg.view

def onFetchViewChange (n : Node) (msg : FetchViewChange) : Node :=
  match (n.viewChangeLog.getD msg.view Dict.empty).get? msg.ackTarget with
  | none => n
  | some vcMsg => n.sendTo c msg.senderID (.viewChange vcMsg)

/-- `handleMessage`.  The view changes of a handler take the orders from the third
one on. -/
def handleMessage (o : ℕ → Orders) (n : Node) : Message → Node
  | .request m => n.onRequest c m
  | .prePrepare m => n.onPrePrepare c m
  | .prepare m => n.onPrepare c m
  | .commit m => n.onCommit c m
  | .viewChange m => n.onViewChange c (changeView c (fun k => o (k + 2))) (o 0) (o 1) m
  | .viewChangeAck m => n.onViewChangeAck c (o 0) m
  | .newView m => n.onNewView c (changeView c (fun k => o (k + 2))) (o 0) m
  | .fetchViewChange m => n.onFetchViewChange c m

/-- The request timer expires. -/
def requestTimeout (o : ℕ → Orders) (n : Node) : Node :=
  { n with timerActive := false }.changeView c o

end Node

end PbftSimulator
end DistributedConsensus
