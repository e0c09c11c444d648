import DistributedConsensus.Coordinator.Raft.Cluster

/-!
# Raft: what the operations of a node do

As long as the memory of a node agrees with its store, the store accepts every
term and vote that a handler saves, and a handler first moves to the term of
its request (`seeTerm`) and then acts in that term.
-/

namespace DistributedConsensus
namespace Raft

open Foundations

variable {ι : Type}

namespace Node

/-- Term and vote of a node agree with its store. -/
def Stored (n : Node ι) : Prop :=
  n.persistentState = ⟨n.currentTerm, n.votedFor⟩

/-- The node after it has seen a term. -/
def seeTerm (n : Node ι) (term : Nat) : Node ι :=
  if term ≤ n.currentTerm then n
  else { n with
    persistentState := ⟨term, none⟩
    currentTerm := term
    votedFor := none
    role := .follower
    leaderId := none }

/-- The node after it has given its vote. -/
def votedTo (n : Node ι) (candidate : ι) : Node ι :=
  { n with
    persistentState := ⟨n.currentTerm, some candidate⟩
    votedFor := some candidate }

section

variable {n : Node ι} {term : Nat}

theorem Stored.seeTerm
    (h : n.Stored) :
    (n.seeTerm term).Stored := by
  unfold Node.seeTerm
  split
  · exact h
  · rfl

theorem seeTerm_currentTerm (n : Node ι) (term : Nat) :
    (n.seeTerm term).currentTerm = max n.currentTerm term := by
  unfold seeTerm
  split
  case isTrue hle => omega
  case isFalse hlt =>
    simp only
    omega

theorem seeTerm_zero (n : Node ι) : n.seeTerm 0 = n := by
  unfold seeTerm
  rw [if_pos (Nat.zero_le _)]

@[simp] theorem seeTerm_logStore (n : Node ι) (term : Nat) :
    (n.seeTerm term).logStore = n.logStore := by
  unfold seeTerm
  split <;> rfl

@[simp] theorem seeTerm_heartbeat (n : Node ι) (term : Nat) :
    (n.seeTerm term).heartbeat = n.heartbeat := by
  unfold seeTerm
  split <;> rfl

@[simp] theorem seeTerm_commitIndex (n : Node ι) (term : Nat) :
    (n.seeTerm term).commitIndex = n.commitIndex := by
  unfold seeTerm
  split <;> rfl

variable [DecidableEq ι]

theorem adoptTerm_eq_some
    (h : n.Stored)
    (hlt : n.currentTerm < term) :
    n.adoptTerm term =
      some { n with persistentState := ⟨term, none⟩, currentTerm := term, votedFor := none } := by
  unfold adoptTerm RaftPersistentState.save
  rw [h]
  simp only
  rw [if_neg (by omega), if_neg (by omega)]

theorem observeHigherTerm_eq
    (h : n.Stored) (term : Nat) :
    n.observeHigherTerm term = n.seeTerm term := by
  unfold observeHigherTerm seeTerm
  split
  case isTrue => rfl
  case isFalse hlt => rw [adoptTerm_eq_some h (by omega)]

/-- A new election moves to the next term with the own vote. -/
theorem beginElection_eq_some
    {nodeId : ι} {n' : Node ι}
    (h : n.Stored)
    (hn' : n.beginElection nodeId = some n') :
    n' = { n with
      persistentState := ⟨n.currentTerm + 1, some nodeId⟩
      currentTerm := n.currentTerm + 1
      votedFor := some nodeId
      role := .candidate
      leaderId := none } := by
  unfold beginElection at hn'
  split at hn'
  case h_1 => cases hn'
  case h_2 nextTerm hnext =>
    obtain rfl := checkedSucc_eq_some hnext
    unfold RaftPersistentState.save at hn'
    rw [h] at hn'
    simp only at hn'
    rw [if_neg (by omega), if_neg (by omega)] at hn'
    exact (Option.some.inj hn').symm

/-- A vote is refused without a change, or given to the candidate. -/
theorem castVote_cases
    (h : n.Stored) (request : RequestVoteRequest ι) :
    n.castVote request = (n, some ⟨n.currentTerm, false⟩) ∨
      (n.votedFor = none ∨ n.votedFor = some request.candidateId) ∧
      n.isCandidateLogUpToDate request.lastLogIndex request.lastLogTerm = true ∧
      n.castVote request = (n.votedTo request.candidateId, some ⟨n.currentTerm, true⟩) := by
  unfold castVote
  simp only
  split
  case isTrue => exact Or.inl rfl
  case isFalse hgrant =>
    right
    rw [not_or, not_not, Bool.not_eq_false] at hgrant
    refine ⟨hgrant.1, hgrant.2, ?_⟩
    split
    case isTrue hnone =>
      have hsave : n.persistentState.save n.currentTerm (some request.candidateId) =
          some ⟨n.currentTerm, some request.candidateId⟩ := by
        unfold RaftPersistentState.save
        rw [h, hnone]
        simp
      rw [hsave]
      rfl
    case isFalse hsome =>
      have hvoted : n.votedFor = some request.candidateId := hgrant.1.resolve_left hsome
      have hsame : n.votedTo request.candidateId = n := by
        unfold votedTo
        rw [← hvoted, ← h]
      rw [hsame]

theorem handleRequestVote_eq
    {request : RequestVoteRequest ι}
    (h : n.Stored)
    (hle : n.currentTerm ≤ request.term) :
    n.handleRequestVote request = (n.seeTerm request.term).castVote request := by
  unfold handleRequestVote
  rw [if_neg (by omega)]
  split
  case isTrue hlt =>
    rw [adoptTerm_eq_some h hlt]
    unfold seeTerm
    rw [if_neg (by omega)]
  case isFalse heq =>
    unfold seeTerm
    rw [if_pos (by omega)]

theorem handleAppendEntries_eq
    {request : AppendEntriesRequest ι}
    (h : n.Stored)
    (hle : n.currentTerm ≤ request.term) :
    n.handleAppendEntries request = (n.seeTerm request.term).replicate request := by
  unfold handleAppendEntries
  rw [if_neg (by omega)]
  split
  case isTrue hlt =>
    rw [adoptTerm_eq_some h hlt]
    unfold seeTerm
    rw [if_neg (by omega)]
    rfl
  case isFalse heq =>
    unfold seeTerm
    rw [if_pos (by omega)]

/-- A vote request is refused, after a later term was seen or not, or the vote is given
in the term of the request. -/
theorem handleRequestVote_cases
    (h : n.Stored) (request : RequestVoteRequest ι) :
    (∃ T, n.handleRequestVote request =
        (n.seeTerm T, some ⟨(n.seeTerm T).currentTerm, false⟩)) ∨
      n.currentTerm ≤ request.term ∧
      ((n.seeTerm request.term).votedFor = none ∨
        (n.seeTerm request.term).votedFor = some request.candidateId) ∧
      (n.seeTerm request.term).isCandidateLogUpToDate request.lastLogIndex
        request.lastLogTerm = true ∧
      n.handleRequestVote request = ((n.seeTerm request.term).votedTo request.candidateId,
        some ⟨(n.seeTerm request.term).currentTerm, true⟩) := by
  by_cases hlt : request.term < n.currentTerm
  · refine Or.inl ⟨0, ?_⟩
    rw [seeTerm_zero]
    exact if_pos hlt
  · have hle := Nat.le_of_not_lt hlt
    have heq := handleRequestVote_eq h hle
    rcases castVote_cases h.seeTerm request with hno | ⟨hfree, hlog, hyes⟩
    · exact Or.inl ⟨request.term, heq.trans hno⟩
    · exact Or.inr ⟨hle, hfree, hlog, heq.trans hyes⟩

/-- Entries of an earlier term are refused; others are handled in their term. -/
theorem handleAppendEntries_cases
    (h : n.Stored) (request : AppendEntriesRequest ι) :
    n.handleAppendEntries request = (n, some ⟨n.currentTerm, false⟩) ∨
      n.currentTerm ≤ request.term ∧
      n.handleAppendEntries request = (n.seeTerm request.term).replicate request := by
  by_cases hlt : request.term < n.currentTerm
  · exact Or.inl (if_pos hlt)
  · have hle := Nat.le_of_not_lt hlt
    exact Or.inr ⟨hle, handleAppendEntries_eq h hle⟩

theorem commitState_save_eq_some
    {st st' : RaftCommitState} {commitIndex lastApplied : Nat}
    (h : st.save commitIndex lastApplied = some st') :
    st' = ⟨commitIndex, lastApplied⟩ := by
  unfold RaftCommitState.save at h
  split at h
  case isTrue => cases h
  case isFalse =>
    split at h
    case isTrue => cases h
    case isFalse =>
      split at h
      case isTrue => cases h
      case isFalse => exact (Option.some.inj h).symm

omit [DecidableEq ι] in
theorem advanceFollowerCommit_cases
    {leaderCommit : Nat} {n' : Node ι}
    (h : n.advanceFollowerCommit leaderCommit = some n') :
    n' = n ∨ ∃ c, c = min leaderCommit n.logStore.entries.length ∧ n.commitIndex < c ∧
      n' = { n with commitState := ⟨c, n.lastApplied⟩, commitIndex := c } := by
  unfold advanceFollowerCommit at h
  simp only [getLastPosition_logIndex] at h
  split at h
  case isTrue => exact Or.inl (Option.some.inj h).symm
  case isFalse hlt =>
    split at h
    case h_1 => cases h
    case h_2 st hsave =>
      rw [commitState_save_eq_some hsave] at h
      exact Or.inr ⟨_, rfl, by omega, (Option.some.inj h).symm⟩

/-- What is stored when entries are received. -/
def received (n : Node ι) (request : AppendEntriesRequest ι) :
    LogStore × Except LogError Bool :=
  tryAppendEntries n.logStore request.prevLogIndex request.prevLogTerm request.entries
    n.commitIndex

omit [DecidableEq ι] in
/-- Received entries make the node a follower; its commit index may follow the
leader only if the entries were accepted. -/
theorem replicate_cases
    (n : Node ι) (request : AppendEntriesRequest ι) :
    ∃ st c r, n.replicate request = ({ n with
        role := .follower
        leaderId := some request.leaderId
        logStore := (n.received request).1
        commitState := st
        commitIndex := c }, r) ∧
      (st = n.commitState ∧ c = n.commitIndex ∨
        (n.received request).2 = .ok true ∧ st = ⟨c, n.lastApplied⟩ ∧ n.commitIndex < c ∧
        c = min request.leaderCommit (n.received request).1.entries.length) ∧
      ∀ resp, r = some resp → resp.term = n.currentTerm ∧
        (resp.success = true → (n.received request).2 = .ok true) := by
  have hreceived : tryAppendEntries n.logStore request.prevLogIndex request.prevLogTerm
      request.entries n.commitIndex = n.received request := rfl
  unfold replicate
  simp only
  rw [hreceived]
  cases hresult : (n.received request).2 with
  | error e => exact ⟨_, _, _, rfl, Or.inl ⟨rfl, rfl⟩, fun resp hresp => by cases hresp⟩
  | ok matched =>
      cases matched with
      | false =>
          refine ⟨_, _, _, rfl, Or.inl ⟨rfl, rfl⟩, fun resp hresp => ?_⟩
          cases hresp
          exact ⟨rfl, fun hsuccess => by cases hsuccess⟩
      | true =>
          dsimp only
          split
          case h_1 => exact ⟨_, _, _, rfl, Or.inl ⟨rfl, rfl⟩, fun resp hresp => by cases hresp⟩
          case h_2 n' hn' =>
            rcases advanceFollowerCommit_cases hn' with rfl | ⟨c, hc, hlt, rfl⟩
            · refine ⟨_, _, _, rfl, Or.inl ⟨rfl, rfl⟩, fun resp hresp => ?_⟩
              cases hresp
              exact ⟨rfl, fun _ => rfl⟩
            · refine ⟨_, _, _, rfl, Or.inr ⟨rfl, rfl, hlt, hc⟩, fun resp hresp => ?_⟩
              cases hresp
              exact ⟨rfl, fun _ => rfl⟩

/-- An election ends with the lead in its own term or without a new role. -/
theorem concludeElection_cases
    {electionTerm : Nat}
    (h : n.Stored) (nodeId : ι) (peers : List ι) (responses : ι → Option RequestVoteResponse) :
    (∃ T, n.concludeElection nodeId peers electionTerm responses = n.seeTerm T) ∨
      n.role = .candidate ∧ n.currentTerm = electionTerm ∧
      votesGranted electionTerm (peers.filterMap responses) ≥ (peers.length + 1) / 2 + 1 ∧
      n.concludeElection nodeId peers electionTerm responses =
        { n with role := .leader, leaderId := some nodeId } := by
  unfold concludeElection
  simp only
  split
  case isTrue => exact Or.inl ⟨_, observeHigherTerm_eq h _⟩
  case isFalse =>
    split
    case isTrue hquorum =>
      unfold tryBecomeLeader
      split
      case isTrue => exact Or.inl ⟨0, n.seeTerm_zero.symm⟩
      case isFalse hcand =>
        push Not at hcand
        exact Or.inr ⟨hcand.2, hcand.1, hquorum, rfl⟩
    case isFalse => exact Or.inl ⟨0, n.seeTerm_zero.symm⟩

/-- A response moves the node to a later term or updates the progress of the peer. -/
theorem recordAppendResponse_cases
    {term : Nat}
    (h : n.Stored) (peer : ι) (request : AppendEntriesRequest ι)
    (response : AppendEntriesResponse) :
    (∃ T, n.recordAppendResponse term peer request response = n.seeTerm T) ∨
      n.role = .leader ∧ n.currentTerm = term ∧ ∃ t,
        n.recordAppendResponse term peer request response = { n with tracker := t } ∧
        (response.success = true ∧ response.term ≤ term ∧ n.tracker.recordSuccess peer
            (request.prevLogIndex + request.entries.length) term = some t ∨
          n.tracker.recordFailure peer term = some t) := by
  unfold recordAppendResponse
  split
  case isTrue => exact Or.inl ⟨_, observeHigherTerm_eq h _⟩
  case isFalse hle =>
    split
    case isTrue => exact Or.inl ⟨0, n.seeTerm_zero.symm⟩
    case isFalse hlead =>
      push Not at hlead
      simp only
      split
      case h_1 => exact Or.inl ⟨0, n.seeTerm_zero.symm⟩
      case h_2 t ht =>
        refine Or.inr ⟨hlead.1, hlead.2, t, rfl, ?_⟩
        split at ht
        case isTrue hsuccess => exact Or.inl ⟨hsuccess, by omega, ht⟩
        case isFalse => exact Or.inr ht

/-- A committable index holds an entry of the term that a quorum has stored. -/
theorem committableIndex_spec
    {store : LogStore} {commitIndex currentTerm quorumSize k start : Nat}
    {followerMatchIndexes : List Nat}
    (h : committableIndex store commitIndex currentTerm quorumSize followerMatchIndexes start =
      some k) :
    commitIndex < k ∧ (∃ entry, store.get k = some entry ∧ entry.term = currentTerm) ∧
      quorumSize ≤ 1 + followerMatchIndexes.countP (fun matchIndex => decide (matchIndex ≥ k)) := by
  induction start with
  | zero => cases h
  | succ candidateIndex ih =>
      unfold committableIndex at h
      split at h
      case isTrue => cases h
      case isFalse hlt =>
        split at h
        case h_1 => cases h
        case h_2 entry hget =>
          split at h
          case isTrue => exact ih h
          case isFalse hterm =>
            simp only at h
            split at h
            case isTrue => exact ih h
            case isFalse hquorum =>
              cases h
              push Not at hterm
              exact ⟨by omega, ⟨entry, hget, hterm⟩, by omega⟩

omit [DecidableEq ι] in
/-- The end of a heartbeat changes nothing but the commit index of a leader. -/
theorem concludeHeartbeat_cases
    (n : Node ι) (peers : List ι) (term : Nat) :
    n.concludeHeartbeat peers term = n ∨
      n.role = .leader ∧ n.currentTerm = term ∧
      n.tracker.states.values.length = peers.length ∧ ∃ k,
        committableIndex n.logStore n.commitIndex term ((peers.length + 1) / 2 + 1)
          (n.tracker.states.values.map PeerReplicationState.matchIndex)
          n.logStore.entries.length = some k ∧
        n.concludeHeartbeat peers term =
          { n with commitState := ⟨k, n.lastApplied⟩, commitIndex := k } := by
  unfold concludeHeartbeat
  split
  case isFalse => exact Or.inl rfl
  case isTrue hlead =>
    split
    case h_1 => exact Or.inl rfl
    case h_2 n' hn' =>
      unfold tryAdvanceLeaderCommit at hn'
      split at hn'
      case isTrue => cases hn'
      case isFalse =>
        split at hn'
        case isTrue => cases hn'
        case isFalse =>
          split at hn'
          case isTrue => cases hn'
          case isFalse hlen =>
            simp only [getLastPosition_logIndex] at hn'
            split at hn'
            case h_1 => exact Or.inl (Option.some.inj hn').symm
            case h_2 k hk =>
              split at hn'
              case h_1 => cases hn'
              case h_2 st hsave =>
                rw [commitState_save_eq_some hsave] at hn'
                refine Or.inr ⟨hlead.1, hlead.2, ?_, k, hk, (Option.some.inj hn').symm⟩
                simpa using hlen

omit [DecidableEq ι] in
/-- Applying an entry leaves the commit index alone. -/
theorem markApplied_eq_some
    {logIndex : Nat} {n' : Node ι}
    (h : n.markApplied logIndex = some n') :
    n' = { n with commitState := ⟨n.commitIndex, logIndex⟩, lastApplied := logIndex } := by
  unfold markApplied at h
  split at h
  case h_1 => cases h
  case h_2 =>
    split at h
    case isTrue => cases h
    case isFalse =>
      split at h
      case isTrue => cases h
      case isFalse =>
        split at h
        case h_1 => cases h
        case h_2 st hsave =>
          rw [commitState_save_eq_some hsave] at h
          exact (Option.some.inj h).symm

end

end Node

/-! ## The progress of the peers -/

namespace RaftReplicationTracker

variable [DecidableEq ι] {t t' : RaftReplicationTracker ι} {term : Nat}

/-- The entries of a tracker that starts over. -/
theorem mem_foldl_set
    {peers : List ι} {st : PeerReplicationState} {d : Dict ι PeerReplicationState}
    {e : ι × PeerReplicationState}
    (he : e ∈ (peers.foldl (fun d p => d.set p st) d).entries) :
    e ∈ d.entries ∨ e.1 ∈ peers ∧ e.2 = st := by
  induction peers generalizing d with
  | nil => exact Or.inl he
  | cons p peers ih =>
      rcases ih he with hset | ⟨hmem, heq⟩
      · rcases Dict.mem_entries_set hset with rfl | hold
        · exact Or.inr ⟨List.mem_cons_self, rfl⟩
        · exact Or.inl hold
      · exact Or.inr ⟨List.mem_cons_of_mem p hmem, heq⟩

/-- A tracker for the term is kept, any other one starts over. -/
theorem ensureInitialized_cases
    {peers : List ι} {leaderLastLogIndex : Nat}
    (h : t.ensureInitialized term peers leaderLastLogIndex = some t') :
    t'.term = some term ∧
      (t' = t ∨ ∀ e ∈ t'.states.entries, e.1 ∈ peers ∧ e.2.matchIndex = 0) := by
  unfold ensureInitialized at h
  split at h
  case isTrue => cases h
  case isFalse =>
    split at h
    case isTrue hterm =>
      cases h
      exact ⟨hterm.1, Or.inl rfl⟩
    case isFalse =>
      split at h
      case h_1 => cases h
      case h_2 =>
        cases h
        refine ⟨rfl, Or.inr fun e he => ?_⟩
        rcases mem_foldl_set he with hold | ⟨hmem, heq⟩
        · cases hold
        · rw [heq]
          exact ⟨hmem, rfl⟩

/-- Recording a response changes at most the progress of the peer. -/
structure Updates (t t' : RaftReplicationTracker ι) (peer : ι) (through : Nat) : Prop where
  term : t'.term = t.term
  entries : ∀ e ∈ t'.states.entries, e ∈ t.states.entries ∨
    e.1 = peer ∧ ∃ st, (peer, st) ∈ t.states.entries ∧
      (e.2.matchIndex = through ∨ e.2.matchIndex = st.matchIndex)

omit [DecidableEq ι] in
theorem Updates.refl (t : RaftReplicationTracker ι) (peer : ι) (through : Nat) :
    t.Updates t peer through :=
  ⟨rfl, fun _ he => Or.inl he⟩

theorem recordSuccess_updates
    {peer : ι} {through : Nat}
    (h : t.recordSuccess peer through term = some t') :
    t.Updates t' peer through := by
  unfold recordSuccess at h
  split at h
  case isTrue =>
    cases h
    exact Updates.refl t peer through
  case isFalse =>
    split at h
    case h_1 => cases h
    case h_2 st hget =>
      simp only at h
      split at h
      case h_1 => cases h
      case h_2 =>
        cases h
        refine ⟨rfl, fun e he => ?_⟩
        rcases Dict.mem_entries_set he with rfl | hold
        · refine Or.inr ⟨rfl, st, Dict.mem_entries_of_get? hget, ?_⟩
          simp only
          split
          · exact Or.inl rfl
          · exact Or.inr rfl
        · exact Or.inl hold

theorem recordFailure_updates
    {peer : ι} (through : Nat)
    (h : t.recordFailure peer term = some t') :
    t.Updates t' peer through := by
  unfold recordFailure at h
  split at h
  case isTrue =>
    cases h
    exact Updates.refl t peer through
  case isFalse =>
    split at h
    case h_1 => cases h
    case h_2 st hget =>
      split at h
      case isFalse =>
        cases h
        exact Updates.refl t peer through
      case isTrue =>
        cases h
        refine ⟨rfl, fun e he => ?_⟩
        rcases Dict.mem_entries_set he with rfl | hold
        · exact Or.inr ⟨rfl, st, Dict.mem_entries_of_get? hget, Or.inr rfl⟩
        · exact Or.inl hold

end RaftReplicationTracker

end Raft
end DistributedConsensus
