import DistributedConsensus.Coordinator.Raft.Node
import DistributedConsensus.Foundations.Runs

/-!
# Raft: a cluster of coordinators

The nodes list each other as peers and call each other over an unreliable
network.  A request or a response that was sent may arrive any number of times,
late, or never, so the network keeps all of them.  A response belongs to its
request, as it does for a remote call.

The operations under a lock are single steps.  An election, a heartbeat and a
submission consist of several steps each, between which other operations may
run on the same node; a node has at most one of each in progress.  A crash
loses everything but the stores.
-/

namespace DistributedConsensus
namespace Raft

open Foundations

/-- Who lists whom as a peer: every other node exactly once. -/
structure Membership (ι : Type) where
  peers : ι → List ι
  nodup : ∀ i, (peers i).Nodup
  mem_peers : ∀ i j, j ∈ peers i ↔ j ≠ i

/-- A vote request on its way to a node. -/
structure VoteCall (ι : Type) where
  receiver : ι
  request : RequestVoteRequest ι
deriving DecidableEq

/-- The response of a node to a vote request. -/
structure VoteReply (ι : Type) where
  voter : ι
  request : RequestVoteRequest ι
  response : RequestVoteResponse
deriving DecidableEq

/-- A replication request on its way to a node. -/
structure AppendCall (ι : Type) where
  receiver : ι
  request : AppendEntriesRequest ι
deriving DecidableEq

/-- The response of a node to a replication request. -/
structure AppendReply (ι : Type) where
  follower : ι
  request : AppendEntriesRequest ι
  response : AppendEntriesResponse
deriving DecidableEq

/-- The nodes and everything that was sent. -/
structure World (ι : Type) where
  nodes : ι → Node ι
  voteCalls : List (VoteCall ι)
  voteReplies : List (VoteReply ι)
  appendCalls : List (AppendCall ι)
  appendReplies : List (AppendReply ι)

/-- The steps of the cluster. -/
inductive Label (ι : Type) where
  | beginElection (i : ι)
  | requestVotes (i : ι)
  | handleRequestVote (v : ι) (request : RequestVoteRequest ι)
  | finishElection (i : ι) (responses : ι → Option RequestVoteResponse)
  | abandonElection (i : ι)
  | submitSnapshot (i : ι) (command : SerializedCommand)
  | submitAppend (i : ι)
  | beginHeartbeat (i : ι)
  | buildRequest (i p : ι)
  | handleAppendEntries (p : ι) (request : AppendEntriesRequest ι)
  | recordResponse (i p : ι) (response : AppendEntriesResponse)
  | finishHeartbeat (i : ι)
  | abandonHeartbeat (i : ι)
  | markApplied (i : ι)
  | restart (i : ι)

variable {ι : Type} [DecidableEq ι]

/-- The highest term among the responses. -/
def highestObservedTerm (electionTerm : Nat) (responses : List RequestVoteResponse) : Nat :=
  if responses = [] then electionTerm
  else (responses.map RequestVoteResponse.term).foldl max 0

/-- The votes of an election, the own one included. -/
def votesGranted (electionTerm : Nat) (responses : List RequestVoteResponse) : Nat :=
  1 + responses.countP
    (fun response => response.voteGranted && decide (response.term = electionTerm))

/-- The end of an election, once every peer has answered or failed. -/
def Node.concludeElection (nodeId : ι) (peers : List ι) (n : Node ι) (electionTerm : Nat)
    (responses : ι → Option RequestVoteResponse) : Node ι :=
  let received := peers.filterMap responses
  let highest := highestObservedTerm electionTerm received
  let clusterSize := peers.length + 1
  let quorumSize := clusterSize / 2 + 1
  if highest > electionTerm then n.observeHigherTerm highest
  else if votesGranted electionTerm received ≥ quorumSize then
    (n.tryBecomeLeader nodeId electionTerm).1
  else n

/-- The end of a heartbeat: the leader advances its commit index. -/
def Node.concludeHeartbeat (peers : List ι) (n : Node ι) (term : Nat) : Node ι :=
  if n.role = .leader ∧ n.currentTerm = term then
    match n.tryAdvanceLeaderCommit term (peers.length + 1)
        (n.tracker.states.values.map PeerReplicationState.matchIndex) with
    | none => n
    | some n => n
  else n

/-- Replace a node. -/
def World.put (w : World ι) (i : ι) (n : Node ι) : World ι :=
  { w with nodes := Function.update w.nodes i n }

section Step

variable (M : Membership ι)

/-- A step of the cluster; a step that is not possible has no result. -/
def worldStep (w : World ι) : Label ι → Option (World ι)
  | .beginElection i =>
      if (w.nodes i).election.isSome then none
      else
        match (w.nodes i).beginElection i with
        | none => none
        | some n => some (w.put i { n with election := some ⟨n.currentTerm, none⟩ })
  | .requestVotes i =>
      match (w.nodes i).election with
      | some ⟨term, none⟩ =>
          let position := getLastPosition (w.nodes i).logStore
          let request := ⟨term, i, position.logIndex, position.term⟩
          some { w.put i { w.nodes i with election := some ⟨term, some request⟩ } with
            voteCalls := w.voteCalls ++ (M.peers i).map (fun p => ⟨p, request⟩) }
      | _ => none
  | .handleRequestVote v request =>
      if ⟨v, request⟩ ∈ w.voteCalls then
        let (n, response) := (w.nodes v).handleRequestVote request
        some { w.put v n with
          voteReplies := w.voteReplies ++ (response.map (fun r => ⟨v, request, r⟩)).toList }
      else none
  | .finishElection i responses =>
      match (w.nodes i).election with
      | some ⟨term, some request⟩ =>
          if ∀ p ∈ M.peers i, ∀ r ∈ responses p, ⟨p, request, r⟩ ∈ w.voteReplies then
            some (w.put i { (w.nodes i).concludeElection i (M.peers i) term responses with
              election := none })
          else none
      | _ => none
  | .abandonElection i =>
      some (w.put i { w.nodes i with election := none })
  | .submitSnapshot i command =>
      if (w.nodes i).submission.isSome ∨ (w.nodes i).role ≠ .leader then none
      else some (w.put i { w.nodes i with submission := some ⟨command, (w.nodes i).currentTerm⟩ })
  | .submitAppend i =>
      match (w.nodes i).submission with
      | none => none
      | some task =>
          match appendCommand (w.nodes i).logStore task.command task.term with
          | .error _ => some (w.put i { w.nodes i with submission := none })
          | .ok (logStore, _) =>
              some (w.put i { w.nodes i with logStore := logStore, submission := none })
  | .beginHeartbeat i =>
      if (w.nodes i).heartbeat.isSome ∨ (w.nodes i).role ≠ .leader then none
      else
        match (w.nodes i).tracker.ensureInitialized (w.nodes i).currentTerm (M.peers i)
            (getLastPosition (w.nodes i).logStore).logIndex with
        | none => none
        | some tracker =>
            some (w.put i { w.nodes i with
              tracker := tracker
              heartbeat := some ⟨(w.nodes i).currentTerm, fun _ => .pending⟩ })
  | .buildRequest i p =>
      match (w.nodes i).heartbeat with
      | none => none
      | some task =>
          match task.tasks p with
          | .pending =>
              match (w.nodes i).buildAppendEntries i task.term p with
              | none => none
              | some request =>
                  if p ∈ M.peers i then
                    some { w.put i { w.nodes i with
                        heartbeat := some { task with
                          tasks := Function.update task.tasks p (.waiting request) } } with
                      appendCalls := w.appendCalls ++ [⟨p, request⟩] }
                  else none
          | _ => none
  | .handleAppendEntries p request =>
      if ⟨p, request⟩ ∈ w.appendCalls then
        let (n, response) := (w.nodes p).handleAppendEntries request
        some { w.put p n with
          appendReplies := w.appendReplies ++ (response.map (fun r => ⟨p, request, r⟩)).toList }
      else none
  | .recordResponse i p response =>
      match (w.nodes i).heartbeat with
      | none => none
      | some task =>
          match task.tasks p with
          | .waiting request =>
              if ⟨p, request, response⟩ ∈ w.appendReplies then
                some (w.put i { (w.nodes i).recordAppendResponse task.term p request response with
                  heartbeat := some { task with
                    tasks := Function.update task.tasks p .finished } })
              else none
          | _ => none
  | .finishHeartbeat i =>
      match (w.nodes i).heartbeat with
      | none => none
      | some task =>
          if (M.peers i).any (fun p => (task.tasks p).isPending) then none
          else
            some (w.put i { (w.nodes i).concludeHeartbeat (M.peers i) task.term with
              heartbeat := none })
  | .abandonHeartbeat i =>
      some (w.put i { w.nodes i with heartbeat := none })
  | .markApplied i =>
      match (w.nodes i).markApplied ((w.nodes i).lastApplied + 1) with
      | none => none
      | some n => some (w.put i n)
  | .restart i => some (w.put i (w.nodes i).restart)

/-- The cluster before anything has happened. -/
def initialWorld : World ι where
  nodes _ := newNode
  voteCalls := []
  voteReplies := []
  appendCalls := []
  appendReplies := []

/-- The cluster as a transition system. -/
def cluster : System (World ι) (Label ι) where
  init := initialWorld
  step := worldStep M

end Step

section Moves

variable {M : Membership ι} {w w' : World ι} {l : Label ι}

/-- The steps that are possible, with what they find and what they leave behind. -/
inductive Moves (M : Membership ι) (w : World ι) : Label ι → World ι → Prop
  | beginElection (i : ι) (n : Node ι) :
      (w.nodes i).beginElection i = some n →
      Moves M w (.beginElection i) (w.put i { n with election := some ⟨n.currentTerm, none⟩ })
  | requestVotes (i : ι) (term : Nat) (request : RequestVoteRequest ι) :
      (w.nodes i).election = some ⟨term, none⟩ →
      request = ⟨term, i, (getLastPosition (w.nodes i).logStore).logIndex,
        (getLastPosition (w.nodes i).logStore).term⟩ →
      Moves M w (.requestVotes i)
        { w.put i { w.nodes i with election := some ⟨term, some request⟩ } with
          voteCalls := w.voteCalls ++ (M.peers i).map (fun p => ⟨p, request⟩) }
  | handleRequestVote (v : ι) (request : RequestVoteRequest ι) :
      ⟨v, request⟩ ∈ w.voteCalls →
      Moves M w (.handleRequestVote v request)
        { w.put v ((w.nodes v).handleRequestVote request).1 with
          voteReplies := w.voteReplies ++
            (((w.nodes v).handleRequestVote request).2.map (fun r => ⟨v, request, r⟩)).toList }
  | finishElection (i : ι) (responses : ι → Option RequestVoteResponse) (term : Nat)
      (request : RequestVoteRequest ι) :
      (w.nodes i).election = some ⟨term, some request⟩ →
      (∀ p ∈ M.peers i, ∀ r ∈ responses p, ⟨p, request, r⟩ ∈ w.voteReplies) →
      Moves M w (.finishElection i responses)
        (w.put i { (w.nodes i).concludeElection i (M.peers i) term responses with
          election := none })
  | abandonElection (i : ι) :
      Moves M w (.abandonElection i) (w.put i { w.nodes i with election := none })
  | submitSnapshot (i : ι) (command : SerializedCommand) :
      Moves M w (.submitSnapshot i command)
        (w.put i { w.nodes i with submission := some ⟨command, (w.nodes i).currentTerm⟩ })
  | submitRefused (i : ι) (task : SubmissionTask) (e : LogError) :
      (w.nodes i).submission = some task →
      appendCommand (w.nodes i).logStore task.command task.term = .error e →
      Moves M w (.submitAppend i) (w.put i { w.nodes i with submission := none })
  | submitAppended (i : ι) (task : SubmissionTask) (logStore : LogStore) (entry : RaftLogEntry) :
      (w.nodes i).submission = some task →
      appendCommand (w.nodes i).logStore task.command task.term = .ok (logStore, entry) →
      Moves M w (.submitAppend i)
        (w.put i { w.nodes i with logStore := logStore, submission := none })
  | beginHeartbeat (i : ι) (tracker : RaftReplicationTracker ι) :
      (w.nodes i).role = .leader →
      (w.nodes i).tracker.ensureInitialized (w.nodes i).currentTerm (M.peers i)
        (getLastPosition (w.nodes i).logStore).logIndex = some tracker →
      Moves M w (.beginHeartbeat i) (w.put i { w.nodes i with
        tracker := tracker
        heartbeat := some ⟨(w.nodes i).currentTerm, fun _ => .pending⟩ })
  | buildRequest (i p : ι) (task : HeartbeatTask ι) (request : AppendEntriesRequest ι) :
      (w.nodes i).heartbeat = some task → p ∈ M.peers i →
      (w.nodes i).buildAppendEntries i task.term p = some request →
      Moves M w (.buildRequest i p)
        { w.put i { w.nodes i with
            heartbeat := some { task with
              tasks := Function.update task.tasks p (.waiting request) } } with
          appendCalls := w.appendCalls ++ [⟨p, request⟩] }
  | handleAppendEntries (p : ι) (request : AppendEntriesRequest ι) :
      ⟨p, request⟩ ∈ w.appendCalls →
      Moves M w (.handleAppendEntries p request)
        { w.put p ((w.nodes p).handleAppendEntries request).1 with
          appendReplies := w.appendReplies ++
            (((w.nodes p).handleAppendEntries request).2.map (fun r => ⟨p, request, r⟩)).toList }
  | recordResponse (i p : ι) (response : AppendEntriesResponse) (task : HeartbeatTask ι)
      (request : AppendEntriesRequest ι) :
      (w.nodes i).heartbeat = some task → task.tasks p = .waiting request →
      ⟨p, request, response⟩ ∈ w.appendReplies →
      Moves M w (.recordResponse i p response)
        (w.put i { (w.nodes i).recordAppendResponse task.term p request response with
          heartbeat := some { task with tasks := Function.update task.tasks p .finished } })
  | finishHeartbeat (i : ι) (task : HeartbeatTask ι) :
      (w.nodes i).heartbeat = some task →
      Moves M w (.finishHeartbeat i)
        (w.put i { (w.nodes i).concludeHeartbeat (M.peers i) task.term with heartbeat := none })
  | abandonHeartbeat (i : ι) :
      Moves M w (.abandonHeartbeat i) (w.put i { w.nodes i with heartbeat := none })
  | markApplied (i : ι) (n : Node ι) :
      (w.nodes i).markApplied ((w.nodes i).lastApplied + 1) = some n →
      Moves M w (.markApplied i) (w.put i n)
  | restart (i : ι) : Moves M w (.restart i) (w.put i (w.nodes i).restart)

/-- **Inversion of a step of the cluster.** -/
theorem moves_of_worldStep
    (h : worldStep M w l = some w') :
    Moves M w l w' := by
  cases l with
  | beginElection i =>
      simp only [worldStep, Option.ite_none_left_eq_some] at h
      obtain ⟨-, h⟩ := h
      split at h
      case h_1 => cases h
      case h_2 n hn =>
        cases h
        exact .beginElection i n hn
  | requestVotes i =>
      simp only [worldStep] at h
      split at h
      case h_2 => cases h
      case h_1 term htask =>
        cases h
        exact .requestVotes i term _ htask rfl
  | handleRequestVote v request =>
      simp only [worldStep, Option.ite_none_right_eq_some, Option.some.injEq] at h
      obtain ⟨hcall, rfl⟩ := h
      exact .handleRequestVote v request hcall
  | finishElection i responses =>
      simp only [worldStep] at h
      split at h
      case h_2 => cases h
      case h_1 term request htask =>
        rw [Option.ite_none_right_eq_some, Option.some.injEq] at h
        obtain ⟨hreplies, rfl⟩ := h
        exact .finishElection i responses term request htask hreplies
  | abandonElection i =>
      cases h
      exact .abandonElection i
  | submitSnapshot i command =>
      simp only [worldStep, Option.ite_none_left_eq_some, Option.some.injEq] at h
      obtain ⟨-, rfl⟩ := h
      exact .submitSnapshot i command
  | submitAppend i =>
      simp only [worldStep] at h
      split at h
      case h_1 => cases h
      case h_2 task htask =>
        split at h
        case h_1 e happend =>
          cases h
          exact .submitRefused i task e htask happend
        case h_2 logStore entry happend =>
          cases h
          exact .submitAppended i task logStore entry htask happend
  | beginHeartbeat i =>
      simp only [worldStep, Option.ite_none_left_eq_some] at h
      obtain ⟨hlead, h⟩ := h
      push Not at hlead
      split at h
      case h_1 => cases h
      case h_2 tracker htracker =>
        cases h
        exact .beginHeartbeat i tracker hlead.2 htracker
  | buildRequest i p =>
      simp only [worldStep] at h
      split at h
      case h_1 => cases h
      case h_2 task htask =>
        split at h
        case h_2 => cases h
        case h_1 =>
          split at h
          case h_1 => cases h
          case h_2 request hrequest =>
            rw [Option.ite_none_right_eq_some, Option.some.injEq] at h
            obtain ⟨hpeer, rfl⟩ := h
            exact .buildRequest i p task request htask hpeer hrequest
  | handleAppendEntries p request =>
      simp only [worldStep, Option.ite_none_right_eq_some, Option.some.injEq] at h
      obtain ⟨hcall, rfl⟩ := h
      exact .handleAppendEntries p request hcall
  | recordResponse i p response =>
      simp only [worldStep] at h
      split at h
      case h_1 => cases h
      case h_2 task htask =>
        split at h
        case h_2 => cases h
        case h_1 request hrequest =>
          rw [Option.ite_none_right_eq_some, Option.some.injEq] at h
          obtain ⟨hreply, rfl⟩ := h
          exact .recordResponse i p response task request htask hrequest hreply
  | finishHeartbeat i =>
      simp only [worldStep] at h
      split at h
      case h_1 => cases h
      case h_2 task htask =>
        rw [Option.ite_none_left_eq_some, Option.some.injEq] at h
        obtain ⟨-, rfl⟩ := h
        exact .finishHeartbeat i task htask
  | abandonHeartbeat i =>
      cases h
      exact .abandonHeartbeat i
  | markApplied i =>
      simp only [worldStep] at h
      split at h
      case h_1 => cases h
      case h_2 n hn =>
        cases h
        exact .markApplied i n hn
  | restart i =>
      cases h
      exact .restart i

/-- A vote request that was sent is handled, and the response is sent back. -/
theorem handleRequestVote_eq_some
    {v : ι} {request : RequestVoteRequest ι}
    (h : worldStep M w (.handleRequestVote v request) = some w') :
    ⟨v, request⟩ ∈ w.voteCalls ∧ ∀ n response,
      (w.nodes v).handleRequestVote request = (n, response) → w' = { w.put v n with
        voteReplies := w.voteReplies ++ (response.map (fun r => ⟨v, request, r⟩)).toList } := by
  cases moves_of_worldStep h with
  | handleRequestVote _ _ hcall =>
      refine ⟨hcall, fun n response heq => ?_⟩
      rw [heq]

end Moves

end Raft
end DistributedConsensus
