import DistributedConsensus.Coordinator.Raft.Log
import DistributedConsensus.Foundations.Dict

/-!
# Raft: the coordinator node

The state of a coordinator and the operations that the source makes atomic with
a lock: starting an election, handling a vote request, becoming leader,
handling replicated entries, tracking the progress of the peers and advancing
the commit index.  Term and vote, the log and the commit state are kept in a
persistent store as well; what is only in memory is lost by a crash.

Node identities are the elements of a type.  A function that may throw returns
`none` for the missing result.
-/

namespace DistributedConsensus
namespace Raft

open Foundations

variable {ι : Type}

/-- The role of a node. -/
inductive RaftNodeRole where
  | follower
  | candidate
  | leader
deriving DecidableEq, Repr

/-- The stored term and vote. -/
structure RaftPersistentState (ι : Type) where
  currentTerm : Nat
  votedFor : Option ι
deriving DecidableEq

/-- The stored commit state. -/
structure RaftCommitState where
  commitIndex : Nat
  lastApplied : Nat
deriving DecidableEq

structure RequestVoteRequest (ι : Type) where
  term : Nat
  candidateId : ι
  lastLogIndex : Nat
  lastLogTerm : Nat
deriving DecidableEq

structure RequestVoteResponse where
  term : Nat
  voteGranted : Bool
deriving DecidableEq

structure AppendEntriesRequest (ι : Type) where
  term : Nat
  leaderId : ι
  prevLogIndex : Nat
  prevLogTerm : Nat
  leaderCommit : Nat
  entries : List RaftLogEntry
deriving DecidableEq

structure AppendEntriesResponse where
  term : Nat
  success : Bool
deriving DecidableEq

/-- The progress of a peer. -/
structure PeerReplicationState where
  nextIndex : Nat
  matchIndex : Nat
deriving DecidableEq

/-- The progress of all peers in a term. -/
structure RaftReplicationTracker (ι : Type) where
  term : Option Nat
  states : Dict ι PeerReplicationState

/-- An election in progress: its term and, once it is built, its request. -/
structure ElectionTask (ι : Type) where
  term : Nat
  request : Option (RequestVoteRequest ι)

/-- The state of a heartbeat towards one peer. -/
inductive PeerTask (ι : Type) where
  | pending
  | waiting (request : AppendEntriesRequest ι)
  | finished

/-- Whether the request for the peer has not been built yet. -/
def PeerTask.isPending : PeerTask ι → Bool
  | .pending => true
  | .waiting _ | .finished => false

/-- A heartbeat in progress: the term of its snapshot and its peers. -/
structure HeartbeatTask (ι : Type) where
  term : Nat
  tasks : ι → PeerTask ι

/-- A submission in progress: the command and the term of its snapshot. -/
structure SubmissionTask where
  command : SerializedCommand
  term : Nat

/-- The state of a node. -/
structure Node (ι : Type) where
  persistentState : RaftPersistentState ι
  logStore : LogStore
  commitState : RaftCommitState
  role : RaftNodeRole
  currentTerm : Nat
  votedFor : Option ι
  leaderId : Option ι
  commitIndex : Nat
  lastApplied : Nat
  tracker : RaftReplicationTracker ι
  election : Option (ElectionTask ι)
  heartbeat : Option (HeartbeatTask ι)
  submission : Option SubmissionTask

/-- A node whose memory is filled from its stores. -/
def loadNode (persistentState : RaftPersistentState ι) (logStore : LogStore)
    (commitState : RaftCommitState) : Node ι where
  persistentState := persistentState
  logStore := logStore
  commitState := commitState
  role := .follower
  currentTerm := persistentState.currentTerm
  votedFor := persistentState.votedFor
  leaderId := none
  commitIndex := commitState.commitIndex
  lastApplied := commitState.lastApplied
  tracker := ⟨none, Dict.empty⟩
  election := none
  heartbeat := none
  submission := none

/-- A node that starts for the first time. -/
def newNode : Node ι := loadNode ⟨0, none⟩ LogStore.empty ⟨0, 0⟩

/-- A crash keeps the stores and nothing else. -/
def Node.restart (n : Node ι) : Node ι :=
  loadNode n.persistentState n.logStore n.commitState

/-- Store a commit state; it must not move backwards. -/
def RaftCommitState.save (st : RaftCommitState) (commitIndex lastApplied : Nat) :
    Option RaftCommitState :=
  if lastApplied > commitIndex then none
  else if commitIndex < st.commitIndex then none
  else if lastApplied < st.lastApplied then none
  else some ⟨commitIndex, lastApplied⟩

variable [DecidableEq ι]

/-- Store term and vote; the term must not move backwards and a vote is final. -/
def RaftPersistentState.save (st : RaftPersistentState ι) (currentTerm : Nat)
    (votedFor : Option ι) : Option (RaftPersistentState ι) :=
  if currentTerm < st.currentTerm then none
  else if currentTerm = st.currentTerm ∧ st.votedFor ≠ none ∧ st.votedFor ≠ votedFor then none
  else some ⟨currentTerm, votedFor⟩

namespace Node

/-- Start an election. -/
def beginElection (nodeId : ι) (n : Node ι) : Option (Node ι) :=
  match checkedSucc n.currentTerm with
  | none => none
  | some nextTerm =>
      match n.persistentState.save nextTerm (some nodeId) with
      | none => none
      | some st =>
          some { n with
            persistentState := st
            currentTerm := nextTerm
            votedFor := some nodeId
            role := .candidate
            leaderId := none }

/-- Take over a higher term without a vote. -/
def adoptTerm (n : Node ι) (term : Nat) : Option (Node ι) :=
  match n.persistentState.save term none with
  | none => none
  | some st => some { n with persistentState := st, currentTerm := term, votedFor := none }

/-- Step down when a higher term is seen. -/
def observeHigherTerm (n : Node ι) (term : Nat) : Node ι :=
  if term ≤ n.currentTerm then n
  else
    match n.adoptTerm term with
    | none => n
    | some n => { n with role := .follower, leaderId := none }

/-- The candidate of an election takes over the lead. -/
def tryBecomeLeader (nodeId : ι) (n : Node ι) (electionTerm : Nat) : Node ι × Bool :=
  if n.currentTerm ≠ electionTerm ∨ n.role ≠ .candidate then (n, false)
  else ({ n with role := .leader, leaderId := some nodeId }, true)

/-- Whether a candidate's log is at least as recent as the own one. -/
def isCandidateLogUpToDate (n : Node ι) (candidateLastLogIndex candidateLastLogTerm : Nat) :
    Bool :=
  let localLastLogPosition := getLastPosition n.logStore
  decide (candidateLastLogTerm > localLastLogPosition.term) ||
    (decide (candidateLastLogTerm = localLastLogPosition.term) &&
      decide (candidateLastLogIndex ≥ localLastLogPosition.logIndex))

/-- Give the vote, in the term of the request. -/
def castVote (n : Node ι) (request : RequestVoteRequest ι) :
    Node ι × Option RequestVoteResponse :=
  let canVote := n.votedFor = none ∨ n.votedFor = some request.candidateId
  if ¬ canVote ∨ n.isCandidateLogUpToDate request.lastLogIndex request.lastLogTerm = false then
    (n, some ⟨n.currentTerm, false⟩)
  else if n.votedFor = none then
    match n.persistentState.save n.currentTerm (some request.candidateId) with
    | none => (n, none)
    | some st =>
        ({ n with persistentState := st, votedFor := some request.candidateId },
          some ⟨n.currentTerm, true⟩)
  else (n, some ⟨n.currentTerm, true⟩)

/-- Handle a vote request. -/
def handleRequestVote (n : Node ι) (request : RequestVoteRequest ι) :
    Node ι × Option RequestVoteResponse :=
  if request.term < n.currentTerm then (n, some ⟨n.currentTerm, false⟩)
  else if request.term > n.currentTerm then
    match n.adoptTerm request.term with
    | none => (n, none)
    | some n => castVote { n with role := .follower, leaderId := none } request
  else n.castVote request

/-- Follow the commit index of the leader as far as the own log reaches. -/
def advanceFollowerCommit (n : Node ι) (leaderCommit : Nat) : Option (Node ι) :=
  let targetCommitIndex := min leaderCommit (getLastPosition n.logStore).logIndex
  if targetCommitIndex ≤ n.commitIndex then some n
  else
    match n.commitState.save targetCommitIndex n.lastApplied with
    | none => none
    | some st => some { n with commitState := st, commitIndex := targetCommitIndex }

/-- Take over the entries of the leader of the current term. -/
def replicate (n : Node ι) (request : AppendEntriesRequest ι) :
    Node ι × Option AppendEntriesResponse :=
  let n := { n with role := .follower, leaderId := some request.leaderId }
  let (logStore, result) := tryAppendEntries n.logStore request.prevLogIndex request.prevLogTerm
    request.entries n.commitIndex
  let n := { n with logStore := logStore }
  match result with
  | .error _ => (n, none)
  | .ok false => (n, some ⟨n.currentTerm, false⟩)
  | .ok true =>
      match n.advanceFollowerCommit request.leaderCommit with
      | none => (n, none)
      | some n => (n, some ⟨n.currentTerm, true⟩)

/-- Handle a replication request. -/
def handleAppendEntries (n : Node ι) (request : AppendEntriesRequest ι) :
    Node ι × Option AppendEntriesResponse :=
  if request.term < n.currentTerm then (n, some ⟨n.currentTerm, false⟩)
  else if request.term > n.currentTerm then
    match n.adoptTerm request.term with
    | none => (n, none)
    | some n => n.replicate request
  else n.replicate request

end Node

/-! ## The progress of the peers -/

namespace RaftReplicationTracker

/-- Start over for a term, unless the tracker already covers it. -/
def ensureInitialized (t : RaftReplicationTracker ι) (term : Nat) (peers : List ι)
    (leaderLastLogIndex : Nat) : Option (RaftReplicationTracker ι) :=
  if term = 0 then none
  else if t.term = some term ∧ peers.isPerm (t.states.entries.map Prod.fst) = true then some t
  else
    match checkedSucc leaderLastLogIndex with
    | none => none
    | some nextIndex =>
        some ⟨some term, peers.foldl (fun d p => d.set p ⟨nextIndex, 0⟩) Dict.empty⟩

/-- The peer has stored everything up to an index. -/
def recordSuccess (t : RaftReplicationTracker ι) (peerId : ι) (replicatedThroughIndex : Nat)
    (term : Nat) : Option (RaftReplicationTracker ι) :=
  if t.term ≠ some term then some t
  else
    match t.states.get? peerId with
    | none => none
    | some state =>
        let matchIndex :=
          if replicatedThroughIndex > state.matchIndex then replicatedThroughIndex
          else state.matchIndex
        match checkedSucc matchIndex with
        | none => none
        | some nextIndex => some { t with states := t.states.set peerId ⟨nextIndex, matchIndex⟩ }

/-- The peer has rejected a request. -/
def recordFailure (t : RaftReplicationTracker ι) (peerId : ι) (term : Nat) :
    Option (RaftReplicationTracker ι) :=
  if t.term ≠ some term then some t
  else
    match t.states.get? peerId with
    | none => none
    | some state =>
        if state.nextIndex > 1 then
          some { t with
            states := t.states.set peerId ⟨state.nextIndex - 1, state.matchIndex⟩ }
        else some t

end RaftReplicationTracker

namespace Node

/-- Build the request for a peer. -/
def buildAppendEntries (nodeId : ι) (n : Node ι) (term : Nat) (peer : ι) :
    Option (AppendEntriesRequest ι) :=
  match n.tracker.states.get? peer with
  | none => none
  | some replicationState =>
      let prevLogIndex := replicationState.nextIndex - 1
      match getTermAt n.logStore prevLogIndex with
      | none => none
      | some prevLogTerm =>
          some {
            term := term
            leaderId := nodeId
            prevLogIndex := prevLogIndex
            prevLogTerm := prevLogTerm
            leaderCommit := n.commitIndex
            entries := n.logStore.getFrom replicationState.nextIndex }

/-- Record the response of a peer to a request built in a term. -/
def recordAppendResponse (n : Node ι) (term : Nat) (peer : ι) (request : AppendEntriesRequest ι)
    (response : AppendEntriesResponse) : Node ι :=
  if response.term > term then n.observeHigherTerm response.term
  else if n.role ≠ .leader ∨ n.currentTerm ≠ term then n
  else
    let tracker :=
      if response.success then
        n.tracker.recordSuccess peer (request.prevLogIndex + request.entries.length) term
      else n.tracker.recordFailure peer term
    match tracker with
    | none => n
    | some t => { n with tracker := t }

/-- The largest index that may be committed: an entry of the term on a quorum. -/
def committableIndex (store : LogStore) (commitIndex currentTerm quorumSize : Nat)
    (followerMatchIndexes : List Nat) : Nat → Option Nat
  | 0 => none
  | candidateIndex + 1 =>
      if candidateIndex + 1 ≤ commitIndex then none
      else
        match store.get (candidateIndex + 1) with
        | none => none
        | some entry =>
            if entry.term ≠ currentTerm then
              committableIndex store commitIndex currentTerm quorumSize followerMatchIndexes
                candidateIndex
            else
              let replicationCount := 1 + followerMatchIndexes.countP
                (fun matchIndex => decide (matchIndex ≥ candidateIndex + 1))
              if replicationCount < quorumSize then
                committableIndex store commitIndex currentTerm quorumSize followerMatchIndexes
                  candidateIndex
              else some (candidateIndex + 1)

/-- Advance the commit index of the leader. -/
def tryAdvanceLeaderCommit (n : Node ι) (currentTerm clusterSize : Nat)
    (followerMatchIndexes : List Nat) : Option (Node ι) :=
  if currentTerm = 0 then none
  else if clusterSize = 0 then none
  else if followerMatchIndexes.length ≠ clusterSize - 1 then none
  else
    let lastLogIndex := (getLastPosition n.logStore).logIndex
    match committableIndex n.logStore n.commitIndex currentTerm (clusterSize / 2 + 1)
        followerMatchIndexes lastLogIndex with
    | none => some n
    | some candidateIndex =>
        match n.commitState.save candidateIndex n.lastApplied with
        | none => none
        | some st => some { n with commitState := st, commitIndex := candidateIndex }

/-- An entry has been applied to the state machine. -/
def markApplied (n : Node ι) (logIndex : Nat) : Option (Node ι) :=
  match checkedSucc n.lastApplied with
  | none => none
  | some expectedIndex =>
      if logIndex ≠ expectedIndex then none
      else if logIndex > n.commitIndex then none
      else
        match n.commitState.save n.commitIndex logIndex with
        | none => none
        | some st => some { n with commitState := st, lastApplied := logIndex }

end Node

end Raft
end DistributedConsensus
