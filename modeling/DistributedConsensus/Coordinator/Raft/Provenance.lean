import DistributedConsensus.Coordinator.Raft.Safety

/-!
# Raft: where entries come from

Entries are written by leaders and copied from requests, and a request carries
the log of its sender.  So a property of logs that is inherited by prefixes and
that every appended entry respects holds of all logs: `Linked.step_kept`.

Apart from submissions, applications and crashes, no step changes what a node
has applied or what it is about to append, and the commit index does not move
backwards (`worldStep_steady`); what is committed stays (`NodeLinked.take_eq`).
-/

namespace DistributedConsensus
namespace Raft

open Foundations
open Foundations.ReplicatedLog

variable {ι : Type}

/-! ## What the background services leave alone -/

/-- The commit state in memory agrees with the stored one. -/
def Node.CommitStored (n : Node ι) : Prop :=
  n.commitState = ⟨n.commitIndex, n.lastApplied⟩

/-- A node goes on without applying anything or moving its commit index back. -/
structure Node.Steady (n n' : Node ι) : Prop where
  lastApplied : n'.lastApplied = n.lastApplied
  commitIndex : n.commitIndex ≤ n'.commitIndex
  commitStored : n.CommitStored → n'.CommitStored
  submission : n'.submission = n.submission

/-- The steps of elections and heartbeats, and the handlers of their requests. -/
def Label.isInternal : Label ι → Bool
  | .submitSnapshot _ _ => false
  | .submitAppend _ => false
  | .markApplied _ => false
  | .restart _ => false
  | _ => true

namespace Node.Steady

variable {n n' n'' : Node ι}

theorem refl (n : Node ι) : n.Steady n :=
  ⟨rfl, le_rfl, id, rfl⟩

theorem trans
    (h : n.Steady n')
    (h' : n'.Steady n'') :
    n.Steady n'' where
  lastApplied := h'.lastApplied.trans h.lastApplied
  commitIndex := h.commitIndex.trans h'.commitIndex
  commitStored := fun hn => h'.commitStored (h.commitStored hn)
  submission := h'.submission.trans h.submission

theorem seeTerm (n : Node ι) (term : Nat) : n.Steady (n.seeTerm term) := by
  unfold Node.seeTerm
  split
  · exact refl n
  · exact ⟨rfl, le_rfl, id, rfl⟩

theorem handleRequestVote [DecidableEq ι]
    (h : n.Stored) (request : RequestVoteRequest ι) :
    n.Steady (n.handleRequestVote request).1 := by
  rcases Node.handleRequestVote_cases h request with ⟨T, heq⟩ | ⟨-, -, -, heq⟩
  · rw [heq]
    exact seeTerm n T
  · rw [heq]
    refine (seeTerm n request.term).trans ?_
    exact ⟨rfl, le_rfl, id, rfl⟩

theorem replicate (n : Node ι) (request : AppendEntriesRequest ι) :
    n.Steady (n.replicate request).1 := by
  obtain ⟨st, c, r, heq, hcommit, -⟩ := n.replicate_cases request
  rw [heq]
  rcases hcommit with ⟨rfl, rfl⟩ | ⟨-, rfl, hlt, -⟩
  · exact ⟨rfl, le_rfl, id, rfl⟩
  · exact ⟨rfl, hlt.le, fun _ => rfl, rfl⟩

theorem handleAppendEntries [DecidableEq ι]
    (h : n.Stored) (request : AppendEntriesRequest ι) :
    n.Steady (n.handleAppendEntries request).1 := by
  rcases Node.handleAppendEntries_cases h request with heq | ⟨-, heq⟩
  · rw [heq]
    exact refl n
  · rw [heq]
    exact (seeTerm n request.term).trans (replicate _ request)

theorem concludeElection [DecidableEq ι]
    (electionTerm : Nat)
    (h : n.Stored) (nodeId : ι) (peers : List ι) (responses : ι → Option RequestVoteResponse) :
    n.Steady (n.concludeElection nodeId peers electionTerm responses) := by
  rcases Node.concludeElection_cases h nodeId peers responses with
    ⟨T, heq⟩ | ⟨-, -, -, heq⟩
  · rw [heq]
    exact seeTerm n T
  · rw [heq]
    exact ⟨rfl, le_rfl, id, rfl⟩

theorem recordAppendResponse [DecidableEq ι]
    (term : Nat)
    (h : n.Stored) (peer : ι) (request : AppendEntriesRequest ι)
    (response : AppendEntriesResponse) :
    n.Steady (n.recordAppendResponse term peer request response) := by
  rcases Node.recordAppendResponse_cases h peer request response with
    ⟨T, heq⟩ | ⟨-, -, t, heq, -⟩
  · rw [heq]
    exact seeTerm n T
  · rw [heq]
    exact ⟨rfl, le_rfl, id, rfl⟩

theorem concludeHeartbeat
    (n : Node ι) (peers : List ι) (term : Nat) :
    n.Steady (n.concludeHeartbeat peers term) := by
  rcases Node.concludeHeartbeat_cases n peers term with heq | ⟨-, -, -, k, hk, heq⟩
  · rw [heq]
    exact refl n
  · rw [heq]
    exact ⟨rfl, (Node.committableIndex_spec hk).1.le, fun _ => rfl, rfl⟩

end Node.Steady

/-! ## The operations that leave the log alone -/

section LogStore

variable [DecidableEq ι] {n : Node ι}

theorem Node.handleRequestVote_logStore
    (h : n.Stored) (request : RequestVoteRequest ι) :
    (n.handleRequestVote request).1.logStore = n.logStore := by
  rcases Node.handleRequestVote_cases h request with ⟨T, heq⟩ | ⟨-, -, -, heq⟩
  · rw [heq]
    exact Node.seeTerm_logStore n T
  · rw [heq]
    exact Node.seeTerm_logStore n request.term

theorem Node.concludeElection_logStore
    {electionTerm : Nat}
    (h : n.Stored) (nodeId : ι) (peers : List ι) (responses : ι → Option RequestVoteResponse) :
    (n.concludeElection nodeId peers electionTerm responses).logStore = n.logStore := by
  rcases Node.concludeElection_cases h nodeId peers responses with
    ⟨T, heq⟩ | ⟨-, -, -, heq⟩
  · rw [heq]
    exact Node.seeTerm_logStore n T
  · rw [heq]

theorem Node.recordAppendResponse_logStore
    {term : Nat}
    (h : n.Stored) (peer : ι) (request : AppendEntriesRequest ι)
    (response : AppendEntriesResponse) :
    (n.recordAppendResponse term peer request response).logStore = n.logStore := by
  rcases Node.recordAppendResponse_cases h peer request response with
    ⟨T, heq⟩ | ⟨-, -, t, heq, -⟩
  · rw [heq]
    exact Node.seeTerm_logStore n T
  · rw [heq]

omit [DecidableEq ι] in
theorem Node.concludeHeartbeat_logStore
    (n : Node ι) (peers : List ι) (term : Nat) :
    (n.concludeHeartbeat peers term).logStore = n.logStore := by
  rcases Node.concludeHeartbeat_cases n peers term with heq | ⟨-, -, -, k, -, heq⟩
  · rw [heq]
  · rw [heq]

end LogStore

section Internal

variable [DecidableEq ι] {M : Membership ι} {w w' : World ι} {l : Label ι} {i : ι} {n' : Node ι}

/-- No node goes back. -/
def World.Steady (w w' : World ι) : Prop :=
  ∀ j, (w.nodes j).Steady (w'.nodes j)

/-- Logs and requests are as before. -/
structure World.SameLogs (w w' : World ι) : Prop where
  logStore : ∀ j, (w'.nodes j).logStore = (w.nodes j).logStore
  appendCalls : w'.appendCalls = w.appendCalls

theorem World.Steady.of_update
    (hnodes : w'.nodes = Function.update w.nodes i n')
    (hn' : (w.nodes i).Steady n') :
    w.Steady w' := by
  intro j
  rw [hnodes]
  by_cases hj : j = i
  · subst hj
    rw [Function.update_self]
    exact hn'
  · rw [Function.update_of_ne hj]
    exact Node.Steady.refl _

theorem World.SameLogs.of_update
    (hnodes : w'.nodes = Function.update w.nodes i n')
    (hlog : n'.logStore = (w.nodes i).logStore)
    (hcalls : w'.appendCalls = w.appendCalls) :
    w.SameLogs w' := by
  refine ⟨?_, hcalls⟩
  intro j
  rw [hnodes]
  by_cases hj : j = i
  · subst hj
    rw [Function.update_self]
    exact hlog
  · rw [Function.update_of_ne hj]

/-- What a step of an election or a heartbeat leaves alone. -/
theorem worldStep_internal
    (hstored : ∀ i, (w.nodes i).Stored)
    (hinternal : l.isInternal = true)
    (hstep : worldStep M w l = some w') :
    w.Steady w' ∧ (w.SameLogs w' ∨ (∃ i p, l = .buildRequest i p) ∨
      ∃ p request, l = .handleAppendEntries p request) := by
  cases moves_of_worldStep hstep with
  | beginElection i n hn =>
      obtain rfl := Node.beginElection_eq_some (hstored i) hn
      exact ⟨World.Steady.of_update rfl ⟨rfl, le_rfl, id, rfl⟩,
        Or.inl (World.SameLogs.of_update rfl rfl rfl)⟩
  | requestVotes i | abandonElection i | beginHeartbeat i | abandonHeartbeat i =>
      exact ⟨World.Steady.of_update rfl ⟨rfl, le_rfl, id, rfl⟩,
        Or.inl (World.SameLogs.of_update rfl rfl rfl)⟩
  | handleRequestVote v request =>
      refine ⟨World.Steady.of_update rfl (Node.Steady.handleRequestVote (hstored v) request),
        Or.inl (World.SameLogs.of_update rfl ?_ rfl)⟩
      exact Node.handleRequestVote_logStore (hstored v) request
  | finishElection i responses term =>
      have hsteady := Node.Steady.concludeElection term (hstored i) i (M.peers i) responses
      refine ⟨World.Steady.of_update rfl ⟨hsteady.lastApplied, hsteady.commitIndex,
        hsteady.commitStored, hsteady.submission⟩,
        Or.inl (World.SameLogs.of_update rfl ?_ rfl)⟩
      exact Node.concludeElection_logStore (hstored i) i (M.peers i) responses
  | submitSnapshot | submitRefused | submitAppended | markApplied | restart => cases hinternal
  | buildRequest i p =>
      refine ⟨?_, Or.inr (Or.inl ⟨i, p, rfl⟩)⟩
      exact World.Steady.of_update rfl ⟨rfl, le_rfl, id, rfl⟩
  | handleAppendEntries p request =>
      refine ⟨?_, Or.inr (Or.inr ⟨p, request, rfl⟩)⟩
      exact World.Steady.of_update rfl (Node.Steady.handleAppendEntries (hstored p) request)
  | recordResponse i p response task request =>
      have hsteady := Node.Steady.recordAppendResponse task.term (hstored i) p request response
      refine ⟨World.Steady.of_update rfl ⟨hsteady.lastApplied, hsteady.commitIndex,
        hsteady.commitStored, hsteady.submission⟩,
        Or.inl (World.SameLogs.of_update rfl ?_ rfl)⟩
      exact Node.recordAppendResponse_logStore (hstored i) p request response
  | finishHeartbeat i task =>
      have hsteady := Node.Steady.concludeHeartbeat (w.nodes i) (M.peers i) task.term
      refine ⟨World.Steady.of_update rfl ⟨hsteady.lastApplied, hsteady.commitIndex,
        hsteady.commitStored, hsteady.submission⟩,
        Or.inl (World.SameLogs.of_update rfl ?_ rfl)⟩
      exact Node.concludeHeartbeat_logStore (w.nodes i) (M.peers i) task.term

end Internal

/-! ## The steps of a submission -/

section Submission

variable [DecidableEq ι] {M : Membership ι} {w w' : World ι} {i : ι}

theorem submitSnapshot_eq_some
    {command : SerializedCommand}
    (hstep : worldStep M w (.submitSnapshot i command) = some w') :
    w' = w.put i { w.nodes i with submission := some ⟨command, (w.nodes i).currentTerm⟩ } := by
  cases moves_of_worldStep hstep
  rfl

/-- A command is appended at the end of the log, or refused. -/
theorem submitAppend_eq_some
    (hstep : worldStep M w (.submitAppend i) = some w') :
    ∃ task, (w.nodes i).submission = some task ∧
      ((∃ e, appendCommand (w.nodes i).logStore task.command task.term = .error e ∧
        w' = w.put i { w.nodes i with submission := none }) ∨
      ∃ logStore entry,
        appendCommand (w.nodes i).logStore task.command task.term = .ok (logStore, entry) ∧
        w' = w.put i { w.nodes i with logStore := logStore, submission := none }) := by
  cases moves_of_worldStep hstep with
  | submitRefused _ task e htask happend => exact ⟨task, htask, Or.inl ⟨e, happend, rfl⟩⟩
  | submitAppended _ task logStore entry htask happend =>
      exact ⟨task, htask, Or.inr ⟨logStore, entry, happend, rfl⟩⟩

theorem worldStep_markApplied
    (hstep : worldStep M w (.markApplied i) = some w') :
    ∃ n', (w.nodes i).markApplied ((w.nodes i).lastApplied + 1) = some n' ∧ w' = w.put i n' := by
  cases moves_of_worldStep hstep with
  | markApplied _ n hn => exact ⟨n, hn, rfl⟩

end Submission

/-! ## Properties of all logs -/

/-- All logs have a property, and so have the logs that requests carry. -/
structure Kept [Fintype ι] (G : List RaftLogEntry → Prop) (a : History ι) (w : World ι) :
    Prop where
  logs : ∀ i, G (w.nodes i).logStore.entries
  calls : ∀ call ∈ w.appendCalls, ∃ L, Describes a call.request L ∧ G L

section Kept

variable [Fintype ι] [DecidableEq ι] {M : Membership ι} {w w' : World ι} {l : Label ι}
  {a a' : History ι} {G : List RaftLogEntry → Prop} {i : ι}

omit [DecidableEq ι] in
theorem Describes.mono
    {request : AppendEntriesRequest ι} {L : List RaftLogEntry}
    (h : Describes a request L)
    (hlocal : Local i a a') :
    Describes a' request L :=
  { h with sent := hlocal.sent h.sent, confirmed := h.confirmed.mono hlocal }

omit [DecidableEq ι] in
theorem Kept.mono
    (h : Kept G a w)
    (hlocal : Local i a a') :
    Kept G a' w where
  logs := h.logs
  calls call hcall := by
    obtain ⟨L, hL, hG⟩ := h.calls call hcall
    exact ⟨L, hL.mono hlocal, hG⟩

omit [DecidableEq ι] in
theorem Kept.of_sameLogs
    (h : Kept G a w)
    (hsame : w.SameLogs w') :
    Kept G a w' where
  logs j := by
    rw [hsame.logStore j]
    exact h.logs j
  calls := by
    rw [hsame.appendCalls]
    exact h.calls

/-- A received log is the own log or a prefix of the log that was sent. -/
theorem Linked.handleAppendEntries_log
    {p : ι} {request : AppendEntriesRequest ι} {L : List RaftLogEntry}
    (hinv : Inv RaftLogEntry.term a)
    (h : Linked w a)
    (hL : Describes a request L) :
    ((w.nodes p).handleAppendEntries request).1.logStore.entries =
        (w.nodes p).logStore.entries ∨
      ((w.nodes p).handleAppendEntries request).1.logStore.entries <+: L := by
  have hp := h.nodes p
  rcases Node.handleAppendEntries_cases hp.stored request with hrefuse | ⟨-, hhandle⟩
  · rw [hrefuse]
    exact Or.inl rfl
  · rw [hhandle]
    obtain ⟨st, c, r, heq, -, -⟩ := ((w.nodes p).seeTerm request.term).replicate_cases request
    have hreceived : ((w.nodes p).seeTerm request.term).received request =
        (w.nodes p).received request := by
      unfold Node.received
      rw [Node.seeTerm_logStore, Node.seeTerm_commitIndex]
    rw [heq, hreceived]
    rcases (hp.received hinv hL).merged with hsame | ⟨-, hpre, -⟩
    · exact Or.inl hsame
    · exact Or.inr hpre

/-- **Inherited properties.**  A property of logs that prefixes inherit is kept by
every step, if the log after an append has it. -/
theorem Linked.step_kept
    (hinherit : ∀ l m, l <+: m → G m → G l)
    (hinv : Inv RaftLogEntry.term a)
    (h : Linked w a)
    (hkept : Kept G a w)
    (hok : AppendsAsLeader w l)
    (hstep : worldStep M w l = some w')
    (hgood : ∀ i, l = .submitAppend i → G (w'.nodes i).logStore.entries) :
    ∃ i a', Acts RaftLogEntry.term i a a' ∧ Linked w' a' ∧ Kept G a' w' := by
  have hsame : w.SameLogs w' → ∃ i a', Acts RaftLogEntry.term i a a' ∧ Linked w' a' ∧
      Kept G a' w' := by
    intro hsame
    obtain ⟨i, a', hacts, hlinked⟩ := h.step hinv hok hstep
    exact ⟨i, a', hacts, hlinked, (hkept.mono hacts.isLocal).of_sameLogs hsame⟩
  have hstored : ∀ i, (w.nodes i).Stored := fun i => (h.nodes i).stored
  by_cases hinternal : l.isInternal = true
  · obtain ⟨-, hlogs | ⟨i, p, rfl⟩ | ⟨p, request, rfl⟩⟩ :=
      worldStep_internal hstored hinternal hstep
    · exact hsame hlogs
    · obtain ⟨a', hacts, hlinked, hlogs, hcalls⟩ := h.buildRequest_describes hstep
      refine ⟨i, a', hacts, hlinked, ?_, ?_⟩
      · intro j
        rw [hlogs j]
        exact hkept.logs j
      · intro call hcall
        rcases hcalls call hcall with hold | hnew
        · exact (hkept.mono hacts.isLocal).calls call hold
        · exact ⟨_, hnew, hkept.logs i⟩
    · obtain ⟨i, a', hacts, hlinked⟩ := h.step hinv hok hstep
      refine ⟨i, a', hacts, hlinked, ?_⟩
      cases moves_of_worldStep hstep with
      | handleAppendEntries _ _ hcall =>
          obtain ⟨L, hL, hG⟩ := hkept.calls _ hcall
          refine ⟨?_, (hkept.mono hacts.isLocal).calls⟩
          intro j
          simp only [World.put, Function.update_apply]
          by_cases hj : j = p
          · rw [if_pos hj]
            rcases h.handleAppendEntries_log (p := p) hinv hL with heq | hpre
            · rw [heq]
              exact hkept.logs p
            · exact hinherit _ L hpre hG
          · rw [if_neg hj]
            exact hkept.logs j
  · cases l with
    | submitSnapshot i command =>
        refine hsame ?_
        rw [submitSnapshot_eq_some hstep]
        exact World.SameLogs.of_update rfl rfl rfl
    | submitAppend i =>
        obtain ⟨j, a', hacts, hlinked⟩ := h.step hinv hok hstep
        refine ⟨j, a', hacts, hlinked, ?_⟩
        obtain ⟨n', hnodes, hcalls⟩ : ∃ n', w'.nodes = Function.update w.nodes i n' ∧
            w'.appendCalls = w.appendCalls := by
          obtain ⟨task, -, ⟨e, -, rfl⟩ | ⟨logStore, entry, -, rfl⟩⟩ := submitAppend_eq_some hstep
          · exact ⟨_, rfl, rfl⟩
          · exact ⟨_, rfl, rfl⟩
        have hnew := hgood i rfl
        constructor
        · intro k
          by_cases hk : k = i
          · rw [hk]
            exact hnew
          · rw [hnodes, Function.update_of_ne hk]
            exact hkept.logs k
        · rw [hcalls]
          exact (hkept.mono hacts.isLocal).calls
    | markApplied i =>
        obtain ⟨n', hn', rfl⟩ := worldStep_markApplied hstep
        refine hsame ?_
        obtain rfl := Node.markApplied_eq_some hn'
        exact World.SameLogs.of_update rfl rfl rfl
    | restart i =>
        refine hsame ?_
        cases hstep
        exact World.SameLogs.of_update rfl rfl rfl
    | _ => exact absurd rfl hinternal

omit [DecidableEq ι] in
/-- What a node has committed stays in its log. -/
theorem NodeLinked.take_eq
    {n n' : Node ι} {k : Nat} {j : ι}
    (hinv : Inv RaftLogEntry.term a')
    (hperm : Permanent RaftLogEntry.term a')
    (hlocal : Local j a a')
    (h : NodeLinked a i n)
    (h' : NodeLinked a' i n')
    (hk : k ≤ n.commitIndex)
    (hk' : k ≤ n'.commitIndex) :
    n'.logStore.entries.take k = n.logStore.entries.take k := by
  have hle := h.commit_le
  have hle' := h'.commit_le
  have hpart : n.logStore.entries.take k <+: n.logStore.entries.take n.commitIndex :=
    List.take_prefix_take_left hk
  have hpart' : n'.logStore.entries.take k <+: n'.logStore.entries.take n'.commitIndex :=
    List.take_prefix_take_left hk'
  have hlength : (n'.logStore.entries.take k).length = (n.logStore.entries.take k).length := by
    rw [List.length_take, List.length_take]
    omega
  -- one of the committed parts contains the other, and both contain `k` entries
  rcases (h.confirmed.mono hlocal).comparable hinv hperm h'.confirmed with hpre | hpre
  · exact (List.prefix_of_prefix_length_le hpart' (hpart.trans hpre) hlength.le).eq_of_length
      hlength
  · exact ((List.prefix_of_prefix_length_le hpart (hpart'.trans hpre) hlength.ge).eq_of_length
      hlength.symm).symm

end Kept

end Raft
end DistributedConsensus
