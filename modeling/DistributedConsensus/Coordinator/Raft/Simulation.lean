import DistributedConsensus.Coordinator.Raft.Elections
import DistributedConsensus.Foundations.LogRuns

/-!
# Raft: the cluster follows the protocol

A state of the cluster is linked to a state of the abstract protocol of
replicated logs, which remembers votes, leads, requests and acknowledgements.
Every step of the cluster is matched by steps of the protocol, provided that a
command is appended only while the node still is the leader of the term it has
read (`AppendsAsLeader`).
-/

namespace DistributedConsensus
namespace Raft

open Foundations
open Foundations.ReplicatedLog

variable {ι : Type}

/-- The protocol state that records what has happened. -/
abbrev History (ι : Type) := State ι RaftLogEntry

section Policy

/-- A command is appended by a node that is leader in the term of its snapshot. -/
def AppendsAsLeader (w : World ι) : Label ι → Prop
  | .submitAppend i =>
      ∀ task ∈ (w.nodes i).submission,
        (w.nodes i).role = .leader ∧ (w.nodes i).currentTerm = task.term
  | _ => True

instance (w : World ι) : (l : Label ι) → Decidable (AppendsAsLeader w l)
  | .submitAppend i => inferInstanceAs (Decidable (∀ task ∈ (w.nodes i).submission,
      (w.nodes i).role = .leader ∧ (w.nodes i).currentTerm = task.term))
  | .beginElection _ | .requestVotes _ | .handleRequestVote _ _ | .finishElection _ _
  | .abandonElection _ | .submitSnapshot _ _ | .beginHeartbeat _ | .buildRequest _ _
  | .handleAppendEntries _ _ | .recordResponse _ _ _ | .finishHeartbeat _ | .abandonHeartbeat _
  | .markApplied _ | .restart _ => isTrue trivial

end Policy

/-! ## The link -/

section Link

variable [Fintype ι]

/-- A candidate's position is at least as recent as a log. -/
def Covers (lastLogIndex lastLogTerm : Nat) (l : List RaftLogEntry) : Prop :=
  lastTerm RaftLogEntry.term l < lastLogTerm ∨
    lastTerm RaftLogEntry.term l = lastLogTerm ∧ l.length ≤ lastLogIndex

/-- Term, vote, log and role of a node are those of the history. -/
structure RoleLinked (a : History ι) (i : ι) (n : Node ι) : Prop where
  stored : n.Stored
  term : a.term i = n.currentTerm
  log : a.log i = n.logStore.entries
  vote : ∀ c L, (i, n.currentTerm, c, L) ∈ a.votes → n.votedFor = some c
  candidate : n.role = .candidate →
    (i, n.currentTerm, i, n.logStore.entries) ∈ a.votes ∧ ∀ L, (i, n.currentTerm, L) ∉ a.leads
  leader : n.role = .leader → (i, n.currentTerm, n.logStore.entries) ∈ a.leads
  election : ∀ t, n.election = some t → t.term ≤ n.currentTerm
  /-- The request of an election speaks about the log the candidate still has. -/
  request : ∀ t r, n.election = some t → t.request = some r →
    r.candidateId = i ∧ r.term = t.term ∧
      (n.role = .candidate → n.currentTerm = t.term →
        r.lastLogIndex = n.logStore.entries.length ∧
        r.lastLogTerm = lastTerm RaftLogEntry.term n.logStore.entries)

/-- What a node knows of the progress of its peers and of committed entries is
backed by the history. -/
structure ProgressLinked (a : History ι) (i : ι) (n : Node ι) : Prop where
  commitStored : n.commitState.commitIndex = n.commitIndex
  heartbeat : ∀ t, n.heartbeat = some t →
    n.tracker.term = some t.term ∧ (∃ L, (i, t.term, L) ∈ a.leads) ∧
      ∀ p r, t.tasks p = .waiting r → r.term = t.term
  /-- A match index comes from an acknowledgement. -/
  tracker : ∀ T, n.tracker.term = some T → ∀ e ∈ n.tracker.states.entries,
    e.1 ≠ i ∧ (e.2.matchIndex = 0 ∨ ∃ L, (e.1, T, L) ∈ a.acks ∧ e.2.matchIndex = L.length)
  commit_le : n.commitIndex ≤ n.logStore.entries.length
  confirmed : Confirmed RaftLogEntry.term a (n.logStore.entries.take n.commitIndex)

/-- A node is in the state that the history ascribes to it. -/
structure NodeLinked (a : History ι) (i : ι) (n : Node ι) : Prop
    extends RoleLinked a i n, ProgressLinked a i n

/-- A candidate has reached the term of its request. -/
def VoteCallLinked (a : History ι) (call : VoteCall ι) : Prop :=
  call.request.term ≤ a.term call.request.candidateId

/-- A granted vote was given with a log that the request covers. -/
def VoteReplyLinked (a : History ι) (reply : VoteReply ι) : Prop :=
  reply.response.voteGranted = true →
    ∃ L, (reply.voter, reply.request.term, reply.request.candidateId, L) ∈ a.votes ∧
      Covers reply.request.lastLogIndex reply.request.lastLogTerm L

/-- A replication request describes a log that was sent. -/
structure Describes (a : History ι) (request : AppendEntriesRequest ι)
    (L : List RaftLogEntry) : Prop where
  sent : (request.leaderId, request.term, L) ∈ a.sent
  indexed : ∀ k e, L[k]? = some e → e.logIndex = k + 1
  entries : request.entries = L.drop request.prevLogIndex
  prev_le : request.prevLogIndex ≤ L.length
  prev_term : ∀ k, request.prevLogIndex = k + 1 →
    ∃ e, L[k]? = some e ∧ e.term = request.prevLogTerm
  commit_le : request.leaderCommit ≤ L.length
  confirmed : Confirmed RaftLogEntry.term a (L.take request.leaderCommit)

def AppendCallLinked (a : History ι) (call : AppendCall ι) : Prop :=
  call.receiver ≠ call.request.leaderId ∧ ∃ L, Describes a call.request L

/-- A positive response acknowledges the log of the request. -/
def AppendReplyLinked (a : History ι) (reply : AppendReply ι) : Prop :=
  reply.response.success = true →
    ∃ L, (reply.follower, reply.request.term, L) ∈ a.acks ∧
      L.length = reply.request.prevLogIndex + reply.request.entries.length

/-- The cluster is in the state that the history ascribes to it. -/
structure Linked (w : World ι) (a : History ι) : Prop where
  nodes : ∀ i, NodeLinked a i (w.nodes i)
  voteCalls : ∀ call ∈ w.voteCalls, VoteCallLinked a call
  voteReplies : ∀ reply ∈ w.voteReplies, VoteReplyLinked a reply
  appendCalls : ∀ call ∈ w.appendCalls, AppendCallLinked a call
  appendReplies : ∀ reply ∈ w.appendReplies, AppendReplyLinked a reply

/-! ## What others do -/

variable {a a' : History ι} {i j : ι} {n : Node ι}

/-- The history only grows, so it still backs what it has backed. -/
theorem ProgressLinked.mono
    (h : ProgressLinked a i n)
    (hlocal : Local j a a') :
    ProgressLinked a' i n where
  commitStored := h.commitStored
  heartbeat t ht := by
    obtain ⟨hterm, ⟨L, hL⟩, hwait⟩ := h.heartbeat t ht
    exact ⟨hterm, ⟨L, hlocal.leads hL⟩, hwait⟩
  tracker T hT e he := by
    obtain ⟨hne, hzero | ⟨L, hL, hlen⟩⟩ := h.tracker T hT e he
    · exact ⟨hne, Or.inl hzero⟩
    · exact ⟨hne, Or.inr ⟨L, hlocal.acks hL, hlen⟩⟩
  commit_le := h.commit_le
  confirmed := h.confirmed.mono hlocal

/-- A node is not affected by what another node does. -/
theorem NodeLinked.mono
    (h : NodeLinked a i n)
    (hlocal : Local j a a')
    (hij : i ≠ j) :
    NodeLinked a' i n where
  toProgressLinked := h.toProgressLinked.mono hlocal
  stored := h.stored
  term := (hlocal.term_eq i hij).trans h.term
  log := (hlocal.log_eq i hij).trans h.log
  vote c L hv := h.vote c L (hlocal.votes_eq i _ c L hij hv)
  candidate hrole := by
    obtain ⟨hvote, hnone⟩ := h.candidate hrole
    exact ⟨hlocal.votes hvote, fun L hL => hnone L (hlocal.leads_eq i _ L hij hL)⟩
  leader hrole := hlocal.leads (h.leader hrole)
  election := h.election
  request := h.request

omit [Fintype ι] in
theorem VoteCallLinked.mono
    {call : VoteCall ι}
    (h : VoteCallLinked a call)
    (hlocal : Local j a a') :
    VoteCallLinked a' call :=
  h.trans (hlocal.term_le _)

omit [Fintype ι] in
theorem VoteReplyLinked.mono
    {reply : VoteReply ι}
    (h : VoteReplyLinked a reply)
    (hlocal : Local j a a') :
    VoteReplyLinked a' reply := by
  intro hgranted
  obtain ⟨L, hL, hcovers⟩ := h hgranted
  exact ⟨L, hlocal.votes hL, hcovers⟩

theorem AppendCallLinked.mono
    {call : AppendCall ι}
    (h : AppendCallLinked a call)
    (hlocal : Local j a a') :
    AppendCallLinked a' call := by
  obtain ⟨hne, L, hL⟩ := h
  exact ⟨hne, L, { hL with sent := hlocal.sent hL.sent, confirmed := hL.confirmed.mono hlocal }⟩

omit [Fintype ι] in
theorem AppendReplyLinked.mono
    {reply : AppendReply ι}
    (h : AppendReplyLinked a reply)
    (hlocal : Local j a a') :
    AppendReplyLinked a' reply := by
  intro hsuccess
  obtain ⟨L, hL, hlen⟩ := h hsuccess
  exact ⟨L, hlocal.acks hL, hlen⟩

variable [DecidableEq ι] {w w' : World ι} {n' : Node ι}

/-- A step replaces one node and adds messages that are linked. -/
theorem Linked.put
    (h : Linked w a)
    (hlocal : Local i a a')
    (hnodes : w'.nodes = Function.update w.nodes i n')
    (hn' : NodeLinked a' i n')
    (hvc : ∀ call ∈ w'.voteCalls, call ∈ w.voteCalls ∨ VoteCallLinked a' call)
    (hvr : ∀ reply ∈ w'.voteReplies, reply ∈ w.voteReplies ∨ VoteReplyLinked a' reply)
    (hac : ∀ call ∈ w'.appendCalls, call ∈ w.appendCalls ∨ AppendCallLinked a' call)
    (har : ∀ reply ∈ w'.appendReplies, reply ∈ w.appendReplies ∨ AppendReplyLinked a' reply) :
    Linked w' a' where
  nodes j := by
    rw [hnodes]
    by_cases hj : j = i
    · subst hj
      rw [Function.update_self]
      exact hn'
    · rw [Function.update_of_ne hj]
      exact (h.nodes j).mono hlocal hj
  voteCalls call hcall := (hvc call hcall).elim (fun hold => (h.voteCalls call hold).mono hlocal) id
  voteReplies reply hr := (hvr reply hr).elim (fun hold => (h.voteReplies reply hold).mono hlocal) id
  appendCalls call hcall :=
    (hac call hcall).elim (fun hold => (h.appendCalls call hold).mono hlocal) id
  appendReplies reply hr :=
    (har reply hr).elim (fun hold => (h.appendReplies reply hold).mono hlocal) id

/-- A step of one node that sends nothing. -/
theorem Linked.put_node
    (h : Linked w a)
    (hlocal : Local i a a')
    (hn' : NodeLinked a' i n') :
    Linked (w.put i n') a' :=
  h.put hlocal rfl hn' (fun _ => Or.inl) (fun _ => Or.inl) (fun _ => Or.inl) (fun _ => Or.inl)

end Link

/-! ## The steps of an election -/

section Election

variable [Fintype ι] [DecidableEq ι] {M : Membership ι} {a : History ι} {w w' : World ι}

/-- The acting node takes steps of the protocol that lead to a linked state. -/
def Simulated (a : History ι) (w' : World ι) : Prop :=
  ∃ i a', Acts RaftLogEntry.term i a a' ∧ Linked w' a'

/-- A step of one node that the history does not see. -/
theorem Linked.silent
    {i : ι} {n' : Node ι}
    (h : Linked w a)
    (hn' : NodeLinked a i n') :
    Simulated a (w.put i n') :=
  ⟨i, a, Acts.refl a, h.put_node (Local.refl i a) hn'⟩

/-- A node that sees a later term has not acted in it. -/
theorem NodeLinked.seeTerm
    {i : ι} {n : Node ι}
    (hinv : Inv RaftLogEntry.term a)
    (h : NodeLinked a i n) (T : Nat) :
    ∃ a', Acts RaftLogEntry.term i a a' ∧ NodeLinked a' i (n.seeTerm T) := by
  unfold Node.seeTerm
  split
  case isTrue => exact ⟨a, Acts.refl a, h⟩
  case isFalse hlt =>
    push Not at hlt
    have hacts : Acts RaftLogEntry.term i a { a with term := Function.update a.term i T } :=
      (Acts.refl a).advance (by rw [h.term]; exact hlt.le)
    refine ⟨_, hacts, { h.toProgressLinked.mono hacts.isLocal with
      stored := rfl, term := ?_, log := h.log, vote := ?_, candidate := ?_, leader := ?_,
      election := ?_, request := ?_ }⟩
    · exact Function.update_self i T a.term
    · intro c L hv
      have hle := (hinv.vote_le i T c L hv).1
      rw [h.term] at hle
      omega
    · rintro ⟨⟩
    · rintro ⟨⟩
    · exact fun t ht => (h.election t ht).trans hlt.le
    · intro t r ht hr
      obtain ⟨hcand, hterm, -⟩ := h.request t r ht hr
      exact ⟨hcand, hterm, fun hrole => by cases hrole⟩

theorem Linked.beginElection
    {i : ι}
    (hinv : Inv RaftLogEntry.term a)
    (h : Linked w a)
    (hstep : worldStep M w (.beginElection i) = some w') :
    Simulated a w' := by
  cases moves_of_worldStep hstep with
  | beginElection _ n' hn' =>
      have hi := h.nodes i
      obtain rfl := Node.beginElection_eq_some hi.stored hn'
      have hfresh : ∀ c L, (i, (w.nodes i).currentTerm + 1, c, L) ∉ a.votes := by
        intro c L hv
        have hle := (hinv.vote_le i _ c L hv).1
        rw [hi.term] at hle
        omega
      have hnone : ∀ L, (i, (w.nodes i).currentTerm + 1, L) ∉ a.leads := by
        intro L hL
        have hle := hinv.lead_le i _ L hL
        rw [hi.term] at hle
        omega
      have hstart : Acts RaftLogEntry.term i a a := Acts.refl a
      have hacts := (hstart.advance (T := (w.nodes i).currentTerm + 1)
        (by rw [hi.term]; omega)).vote (c := i) (Function.update_self _ _ _) (by simp)
        (fun c' L hv => absurd hv (hfresh c' L))
      refine ⟨i, _, hacts, h.put_node hacts.isLocal
        { hi.toProgressLinked.mono hacts.isLocal with
          stored := rfl, term := ?_, log := hi.log, vote := ?_, candidate := ?_, leader := ?_,
          election := ?_, request := ?_ }⟩
      · simp
      · rintro c L (heq | hv)
        · cases heq
          rfl
        · exact absurd hv (hfresh c L)
      · intro _
        exact ⟨Or.inl (by rw [hi.log]), hnone⟩
      · rintro ⟨⟩
      · rintro t ⟨⟩
        exact le_rfl
      · rintro t r ⟨⟩ ⟨⟩

theorem Linked.requestVotes
    {i : ι}
    (h : Linked w a)
    (hstep : worldStep M w (.requestVotes i) = some w') :
    Simulated a w' := by
  cases moves_of_worldStep hstep with
  | requestVotes _ term request htask hrequest =>
      obtain rfl := hrequest
      have hi := h.nodes i
      have hle : term ≤ (w.nodes i).currentTerm := hi.election ⟨term, none⟩ htask
      refine ⟨i, a, Acts.refl a, h.put (Local.refl i a) rfl
        { hi with election := ?_, request := ?_ } ?_ (fun _ => Or.inl) (fun _ => Or.inl)
        (fun _ => Or.inl)⟩
      · rintro t ⟨⟩
        exact hle
      · rintro t r ⟨⟩ ⟨⟩
        exact ⟨rfl, rfl, fun _ _ => ⟨getLastPosition_logIndex _, getLastPosition_term _⟩⟩
      · intro call hcall
        rcases List.mem_append.mp hcall with hold | hnew
        · exact Or.inl hold
        · obtain ⟨p, -, rfl⟩ := List.mem_map.mp hnew
          refine Or.inr ?_
          unfold VoteCallLinked
          rw [hi.term]
          exact hle

omit [Fintype ι] [DecidableEq ι] in
theorem covers_of_isCandidateLogUpToDate
    {n : Node ι} {lastLogIndex lastLogTerm : Nat}
    (h : n.isCandidateLogUpToDate lastLogIndex lastLogTerm = true) :
    Covers lastLogIndex lastLogTerm n.logStore.entries := by
  unfold Node.isCandidateLogUpToDate at h
  simp only [getLastPosition_logIndex, getLastPosition_term, Bool.or_eq_true, Bool.and_eq_true,
    decide_eq_true_eq] at h
  rcases h with hlt | ⟨heq, hle⟩
  · exact Or.inl hlt
  · exact Or.inr ⟨heq.symm, hle⟩

/-- A node gives its vote in its current term. -/
theorem NodeLinked.votedTo
    {i c : ι} {n : Node ι}
    (h : NodeLinked a i n)
    (hfree : n.votedFor = none ∨ n.votedFor = some c)
    (hcand : n.currentTerm ≤ a.term c) :
    ∃ a', Acts RaftLogEntry.term i a a' ∧ NodeLinked a' i (n.votedTo c) ∧
      (i, n.currentTerm, c, n.logStore.entries) ∈ a'.votes := by
  have honce : ∀ c' L, (i, n.currentTerm, c', L) ∈ a.votes → c' = c := by
    intro c' L hvote
    rcases hfree with hnone | hsome
    · rw [h.vote c' L hvote] at hnone
      cases hnone
    · rw [h.vote c' L hvote] at hsome
      exact Option.some.inj hsome
  have hstart : Acts RaftLogEntry.term i a a := Acts.refl a
  have hacts := hstart.vote h.term hcand honce
  refine ⟨_, hacts, { h.toProgressLinked.mono hacts.isLocal with
    stored := rfl, term := h.term, log := h.log, vote := ?_, candidate := ?_,
    leader := h.leader, election := h.election, request := h.request }, ?_⟩
  · rintro c' L (hnew | hold)
    · cases hnew
      rfl
    · rw [honce c' L hold]
      rfl
  · intro hrole
    obtain ⟨hvote, hnone⟩ := h.candidate hrole
    exact ⟨Or.inr hvote, hnone⟩
  · rw [← h.log]
    exact Or.inl rfl

theorem Linked.handleRequestVote
    {v : ι} {request : RequestVoteRequest ι}
    (hinv : Inv RaftLogEntry.term a)
    (h : Linked w a)
    (hstep : worldStep M w (.handleRequestVote v request) = some w') :
    Simulated a w' := by
  obtain ⟨hcall, hw'⟩ := handleRequestVote_eq_some hstep
  have hv := h.nodes v
  rcases Node.handleRequestVote_cases hv.stored request with
    ⟨T, heq⟩ | ⟨hle, hfree, hlog, heq⟩
  · rw [hw' _ _ heq]
    obtain ⟨a', hacts, hv'⟩ := hv.seeTerm hinv T
    refine ⟨v, a', hacts, h.put hacts.isLocal rfl hv' (fun _ => Or.inl) ?_ (fun _ => Or.inl)
      (fun _ => Or.inl)⟩
    intro reply hreply
    rcases List.mem_append.mp hreply with hold | hnew
    · exact Or.inl hold
    · cases List.mem_singleton.mp hnew
      exact Or.inr (fun hgranted => by cases hgranted)
  · rw [hw' _ _ heq]
    have hterm : ((w.nodes v).seeTerm request.term).currentTerm = request.term := by
      rw [Node.seeTerm_currentTerm, max_eq_right hle]
    obtain ⟨a₁, hacts₁, hv₁⟩ := hv.seeTerm hinv request.term
    have hcand : ((w.nodes v).seeTerm request.term).currentTerm ≤
        a₁.term request.candidateId := by
      rw [hterm]
      exact (h.voteCalls _ hcall).mono hacts₁.isLocal
    obtain ⟨a₂, hacts₂, hv₂, hvote⟩ := hv₁.votedTo hfree hcand
    have hacts := hacts₁.trans hacts₂
    refine ⟨v, a₂, hacts, h.put hacts.isLocal rfl hv₂ (fun _ => Or.inl) ?_ (fun _ => Or.inl)
      (fun _ => Or.inl)⟩
    intro reply hreply
    rcases List.mem_append.mp hreply with hold | hnew
    · exact Or.inl hold
    · cases List.mem_singleton.mp hnew
      rw [hterm] at hvote
      exact Or.inr (fun _ => ⟨_, hvote, covers_of_isCandidateLogUpToDate hlog⟩)

omit [DecidableEq ι] in
theorem NodeLinked.endElection
    {i : ι} {n : Node ι}
    (h : NodeLinked a i n) :
    NodeLinked a i { n with election := none } := by
  refine { h with election := ?_, request := ?_ }
  · rintro t ⟨⟩
  · rintro t r ⟨⟩

theorem Linked.finishElection
    {i : ι} {responses : ι → Option RequestVoteResponse}
    (hinv : Inv RaftLogEntry.term a)
    (h : Linked w a)
    (hstep : worldStep M w (.finishElection i responses) = some w') :
    Simulated a w' := by
  cases moves_of_worldStep hstep with
  | finishElection _ _ term request htask hreplies =>
      have hi := h.nodes i
      rcases Node.concludeElection_cases hi.stored i (M.peers i) responses with
        ⟨T, heq⟩ | ⟨hrole, hterm, hvotes, heq⟩
      · rw [heq]
        obtain ⟨a', hacts, hi'⟩ := hi.seeTerm hinv T
        exact ⟨i, a', hacts, h.put_node hacts.isLocal hi'.endElection⟩
      · rw [heq]
        obtain ⟨hown, hfirst⟩ := hi.candidate hrole
        obtain ⟨hcand, hrterm, hposition⟩ := hi.request _ request htask rfl
        obtain ⟨hindex, hlast⟩ := hposition hrole hterm
        obtain ⟨Q, hmaj, hQ⟩ := exists_majority_of_votesGranted M hvotes
        have hsupport : ∀ v ∈ Q, ∃ L, (v, (w.nodes i).currentTerm, i, L) ∈ a.votes ∧
            UpToDate RaftLogEntry.term (a.log i) L := by
          intro v hv
          rw [hi.log]
          rcases hQ v hv with rfl | ⟨hpeer, r, hr, hgranted, -⟩
          · exact ⟨_, hown, Or.inr ⟨rfl, le_rfl⟩⟩
          · obtain ⟨L, hL, hcovers⟩ := h.voteReplies _ (hreplies v hpeer r hr) hgranted
            refine ⟨L, ?_, ?_⟩
            · simpa [hcand, hrterm, hterm] using hL
            · simpa only [Covers, UpToDate, hindex, hlast] using hcovers
        have hstart : Acts RaftLogEntry.term i a a := Acts.refl a
        have hacts := hstart.elect hi.term hmaj hsupport hfirst
        refine ⟨i, _, hacts, h.put_node hacts.isLocal
          { hi.toProgressLinked.mono hacts.isLocal with
            stored := hi.stored, term := hi.term, log := hi.log, vote := hi.vote, candidate := ?_,
            leader := ?_, election := ?_, request := ?_ }⟩
        · rintro ⟨⟩
        · exact fun _ => Or.inl (by rw [hi.log])
        · rintro t ⟨⟩
        · rintro t r ⟨⟩

end Election

end Raft
end DistributedConsensus
