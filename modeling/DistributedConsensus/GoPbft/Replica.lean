import DistributedConsensus.Foundations.Dict
import Mathlib.Data.Finset.Card
import Mathlib.Data.List.Sort

/-!
# PBFT replica: the three-phase protocol and the view change

`replica.go` and `viewchange.go`: the run state of a replica and its message
handlers, with the thresholds of `quorum.go` and the messages of `types.go`.

Replicas are numbered by their position in `allIDs`.  The digest of a request
is a parameter.  A handler appends what it broadcasts to `sent`; the replies to
the clients, the printed lines and the recorded views are left out.  A running
timer may fire at any time.
-/

namespace DistributedConsensus
namespace GoPbft

open Foundations

section Quorums

/-- `MaxFaulty`. -/
def maxFaulty (n : ℕ) : ℕ := (n - 1) / 3

/-- `QuorumSize`. -/
def quorumSize (n : ℕ) : ℕ := 2 * maxFaulty n + 1

/-- `WeakQuorumSize`. -/
def weakQuorumSize (n : ℕ) : ℕ := maxFaulty n + 1

/-- `PrimaryFor`: the position of the primary of a view.  A negative view, which
no correct replica names, is an index error in the source. -/
def primaryFor (v : ℤ) (n : ℕ) : ℕ := (v % n).toNat

end Quorums

structure ClientRequest where
  clientId : String
  op : String
  timestamp : ℤ
deriving DecidableEq

/-- The kinds of `PBFTMessage` that replicas receive, with their fields. -/
inductive Kind where
  | request (req : ClientRequest)
  | prePrepare (view seq : ℤ) (digest : String) (req : ClientRequest)
  | prepare (view seq : ℤ) (digest : String)
  | commit (view seq : ℤ) (digest : String)
  | viewChange (newView lastExecuted : ℤ) (pendingReq : Option ClientRequest)
  | newView (newView : ℤ) (viewChangeSet : List ℕ)
deriving DecidableEq

structure PBFTMessage where
  sender : ℕ
  kind : Kind
deriving DecidableEq

/-- A message with the replicas that it was sent to. -/
structure Multicast where
  recipients : List ℕ
  msg : PBFTMessage
deriving DecidableEq

structure LogEntry where
  view : ℤ
  digest : String
  request : ClientRequest
  prePrepared : Bool
  prepares : Finset ℕ
  commits : Finset ℕ
  preparedFired : Bool
  committed : Bool
  executed : Bool
deriving DecidableEq

def newLogEntry (view : ℤ) (digest : String) : LogEntry where
  view := view
  digest := digest
  request := ⟨"", "", 0⟩
  prePrepared := false
  prepares := ∅
  commits := ∅
  preparedFired := false
  committed := false
  executed := false

/-- An entry of the recorder. -/
structure ExecutionEntry where
  seq : ℤ
  digest : String
  op : String
deriving DecidableEq

/-- `runState`, with the id of its node, what it has sent and executed. -/
structure RunState where
  id : ℕ
  view : ℤ
  active : Bool
  nextSeq : ℤ
  lastExecuted : ℤ
  logs : Dict ℤ LogEntry
  pendingRequest : Option ClientRequest
  viewChangeVotes : Dict ℤ (List ℕ)
  timer : Bool
  sent : List Multicast
  executions : List ExecutionEntry

namespace RunState

/-- The state at the start of `Run`. -/
def new (id : ℕ) : RunState where
  id := id
  view := 0
  active := true
  nextSeq := 1
  lastExecuted := 0
  logs := Dict.empty
  pendingRequest := none
  viewChangeVotes := Dict.empty
  timer := false
  sent := []
  executions := []

variable (n : ℕ) (digestOf : ClientRequest → String)

section Helpers

def resetTimer (rs : RunState) : RunState := { rs with timer := true }

def primary (rs : RunState) : ℕ := primaryFor rs.view n

def isPrimary (rs : RunState) : Bool := rs.primary n == rs.id

/-- `Broadcast` to the given replicas. -/
def broadcast (rs : RunState) (recipients : List ℕ) (kind : Kind) : RunState :=
  { rs with sent := rs.sent ++ [⟨recipients, rs.id, kind⟩] }

/-- `except(allIDs, id)`. -/
def others (rs : RunState) : List ℕ := (List.range n).filter (· ≠ rs.id)

/-- The entry of a sequence number, unless it is a stale one of another view. -/
def currentEntry (rs : RunState) (view seq : ℤ) : Option LogEntry :=
  match rs.logs.get? seq with
  | none => none
  | some entry => if entry.view ≠ view ∧ entry.committed = false then none else some entry

end Helpers

section Execution

/-- The body of the loop of `maybeExecute`. -/
def execute (rs : RunState) (entry : LogEntry) : RunState :=
  let next := rs.lastExecuted + 1
  { rs with
    logs := rs.logs.set next { entry with executed := true }
    lastExecuted := next
    executions := rs.executions ++ [⟨next, entry.digest, entry.request.op⟩]
    pendingRequest :=
      if rs.pendingRequest.map digestOf = some entry.digest then none else rs.pendingRequest }

/-- The loop of `maybeExecute`. -/
def executeLoop : ℕ → RunState → RunState
  | 0, rs => rs
  | k + 1, rs =>
      match rs.logs.get? (rs.lastExecuted + 1) with
      | none => rs
      | some entry =>
          if entry.committed = false ∨ entry.executed then rs
          else executeLoop k (rs.execute digestOf entry)

/-- `maybeExecute`.  Every pass of the loop executes another entry of the log. -/
def maybeExecute (rs : RunState) (seq : ℤ) : RunState :=
  match rs.logs.get? seq with
  | none => rs
  | some entry =>
      if entry.committed ∨ entry.prePrepared = false then rs
      else if entry.commits.card < quorumSize n then rs
      else
        let rs := { rs with logs := rs.logs.set seq { entry with committed := true } }
        rs.executeLoop digestOf rs.logs.size

/-- `maybeCommit`. -/
def maybeCommit (rs : RunState) (seq : ℤ) : RunState :=
  match rs.logs.get? seq with
  | none => rs
  | some entry =>
      if entry.preparedFired ∨ entry.prePrepared = false then rs
      else if entry.prepares.card < quorumSize n then rs
      else
        let rs := { rs with
          logs := rs.logs.set seq
            { entry with preparedFired := true, commits := insert rs.id entry.commits } }
        let rs := rs.broadcast (rs.others n) (.commit rs.view seq entry.digest)
        rs.maybeExecute n digestOf seq

end Execution

section Normal

/-- A primary assigns the next sequence number to a request. -/
def propose (rs : RunState) (req : ClientRequest) : RunState :=
  let seq := rs.nextSeq
  let digest := digestOf req
  let entry := { newLogEntry rs.view digest with
    request := req
    prePrepared := true
    prepares := {rs.id} }
  let rs := { rs with nextSeq := seq + 1, logs := rs.logs.set seq entry }
  let rs := rs.broadcast (rs.others n) (.prePrepare rs.view seq digest req)
  rs.broadcast (rs.others n) (.prepare rs.view seq digest)

def handleClientRequest (rs : RunState) (req : ClientRequest) : RunState :=
  let rs := { rs with
    pendingRequest := if rs.pendingRequest = none then some req else rs.pendingRequest }
  if rs.active = false then rs
  else if rs.isPrimary n = false then rs.resetTimer
  else (rs.propose n digestOf req).resetTimer

/-- The replica accepts a PRE-PREPARE and records it in an entry. -/
def accept (rs : RunState) (entry : LogEntry) (seq : ℤ) (digest : String) (req : ClientRequest) :
    RunState :=
  let entry := { entry with
    digest := digest
    request := req
    prePrepared := true
    prepares := insert rs.id entry.prepares }
  let rs := { rs with logs := rs.logs.set seq entry }
  rs.broadcast (rs.others n) (.prepare rs.view seq digest)

def handlePrePrepare (rs : RunState) (sender : ℕ) (view seq : ℤ) (digest : String)
    (req : ClientRequest) : RunState :=
  if rs.active = false ∨ view ≠ rs.view then rs
  else if sender ≠ rs.primary n then rs
  else
    match rs.currentEntry view seq with
    | some entry =>
        if entry.prePrepared ∧ entry.digest ≠ digest then rs
        else
          -- Votes for another digest that came first are thrown away.
          let entry :=
            if entry.prePrepared = false ∧ entry.digest ≠ "" ∧ entry.digest ≠ digest then
              { entry with prepares := ∅, digest := digest }
            else entry
          ((rs.accept n entry seq digest req).resetTimer).maybeCommit n digestOf seq
    | none =>
        ((rs.accept n (newLogEntry view digest) seq digest req).resetTimer).maybeCommit n digestOf
          seq

/-- The entry that a vote is counted in, if the vote names its digest. -/
def votedEntry (rs : RunState) (view seq : ℤ) (digest : String) : Option LogEntry :=
  let entry := (rs.currentEntry view seq).getD (newLogEntry view digest)
  let entry := if entry.digest = "" then { entry with digest := digest } else entry
  if entry.digest ≠ digest then none else some entry

def handlePrepare (rs : RunState) (sender : ℕ) (view seq : ℤ) (digest : String) : RunState :=
  if rs.active = false ∨ view ≠ rs.view then rs
  else
    match rs.votedEntry view seq digest with
    | none => rs
    | some entry =>
        let rs := { rs with
          logs := rs.logs.set seq { entry with prepares := insert sender entry.prepares } }
        rs.resetTimer.maybeCommit n digestOf seq

def handleCommit (rs : RunState) (sender : ℕ) (view seq : ℤ) (digest : String) : RunState :=
  if rs.active = false ∨ view ≠ rs.view then rs
  else
    match rs.votedEntry view seq digest with
    | none => rs
    | some entry =>
        let rs := { rs with
          logs := rs.logs.set seq { entry with commits := insert sender entry.commits } }
        rs.resetTimer.maybeExecute n digestOf seq

end Normal

section ViewChange

/-- The distinct senders in `rs.viewChangeVotes[nv]`. -/
def votesFor (rs : RunState) (nv : ℤ) : List ℕ := rs.viewChangeVotes.getD nv []

def castViewChangeVote (rs : RunState) (nv : ℤ) (sender : ℕ) : RunState :=
  let votes := rs.votesFor nv
  { rs with
    viewChangeVotes := rs.viewChangeVotes.set nv
      (if sender ∈ votes then votes else votes ++ [sender]) }

/-- `sortedProcessIDs`. -/
def sortedProcessIDs (votes : List ℕ) : List ℕ := votes.insertionSort (· ≤ ·)

/-- The replica stops in its view and multicasts its VIEW-CHANGE. -/
def sendViewChange (rs : RunState) (nv : ℤ) : RunState :=
  let rs := { rs with active := false }.castViewChangeVote nv rs.id
  rs.broadcast (List.range n) (.viewChange nv rs.lastExecuted rs.pendingRequest)

/-- `onTimeout`, after the timer has fired. -/
def onTimeout (rs : RunState) : RunState :=
  let rs := { rs with timer := false }
  if rs.pendingRequest = none then rs
  else (rs.sendViewChange n (rs.view + 1)).resetTimer

/-- The replica takes part in a view. -/
def enterView (rs : RunState) (nv : ℤ) : RunState :=
  { rs with view := nv, active := true, nextSeq := rs.lastExecuted + 1 }

def completeViewChange (rs : RunState) (nv : ℤ) : RunState :=
  let rs := rs.enterView nv
  let proofs := sortedProcessIDs (rs.votesFor nv)
  let rs := rs.broadcast (List.range n) (.newView nv proofs)
  match rs.pendingRequest with
  | some req => (rs.propose n digestOf req).resetTimer
  | none => rs.resetTimer

/-- The part of `handleViewChange` that counts the vote and may join it. -/
def joinViewChange (rs : RunState) (sender : ℕ) (nv : ℤ) (pending : Option ClientRequest) :
    RunState :=
  let rs := rs.castViewChangeVote nv sender
  let rs := { rs with
    pendingRequest := if rs.pendingRequest = none then pending else rs.pendingRequest }
  if nv > rs.view ∧ weakQuorumSize n ≤ (rs.votesFor nv).length ∧ rs.id ∉ rs.votesFor nv then
    rs.sendViewChange n nv
  else rs

/-- The replica is the primary of the view and has a quorum of votes for it. -/
def completes (rs : RunState) (nv : ℤ) : Bool :=
  decide (primaryFor nv n = rs.id ∧ quorumSize n ≤ (rs.votesFor nv).length ∧ rs.view < nv)

def handleViewChange (rs : RunState) (sender : ℕ) (nv : ℤ) (pending : Option ClientRequest) :
    RunState :=
  let rs := rs.joinViewChange n sender nv pending
  if rs.completes n nv then rs.completeViewChange n digestOf nv else rs

def handleNewView (rs : RunState) (sender : ℕ) (nv : ℤ) (viewChangeSet : List ℕ) : RunState :=
  if sender ≠ primaryFor nv n then rs
  else if viewChangeSet.length < quorumSize n then rs
  else if nv < rs.view ∨ nv = rs.view ∧ rs.active then rs
  else (rs.enterView nv).resetTimer

end ViewChange

/-- The dispatch of `Run` on the kind of a message. -/
def receive (rs : RunState) (m : PBFTMessage) : RunState :=
  match m.kind with
  | .request req => rs.handleClientRequest n digestOf req
  | .prePrepare view seq digest req => rs.handlePrePrepare n digestOf m.sender view seq digest req
  | .prepare view seq digest => rs.handlePrepare n digestOf m.sender view seq digest
  | .commit view seq digest => rs.handleCommit n digestOf m.sender view seq digest
  | .viewChange nv _ pending => rs.handleViewChange n digestOf m.sender nv pending
  | .newView nv viewChangeSet => rs.handleNewView n m.sender nv viewChangeSet

end RunState

end GoPbft
end DistributedConsensus
