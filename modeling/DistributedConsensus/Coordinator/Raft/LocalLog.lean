import DistributedConsensus.Coordinator.Raft.NodeSteps

/-!
# Raft: the log and the commit state of one node

A node takes replication requests with any content, and its own operations on the log
and the commit state in any order.  What it has committed and applied only grows, stays
within the log, and keeps its entries (`node_log_invariant`).

A request comes from the network: its numbers may be negative and its texts may be
missing.  The handler rejects that before anything else.
-/

namespace DistributedConsensus
namespace Raft

open Foundations

variable {ι : Type}

/-! ## Requests from the network -/

/-- An entry as it arrives. -/
structure WireEntry where
  logIndex : ℤ
  term : ℤ
  commandId : Guid
  commandType : Option String
  commandPayloadJson : Option String

/-- The entry that the log checks; a number below zero is as good as zero, a missing
text as good as an empty one. -/
def WireEntry.toEntry (e : WireEntry) : RaftLogEntry where
  logIndex := e.logIndex.toNat
  term := e.term.toNat
  commandId := e.commandId
  commandType := e.commandType.getD ""
  commandPayloadJson := e.commandPayloadJson.getD ""

/-- What stands for a missing entry; the log rejects it, as the source fails on one. -/
def missingEntry : RaftLogEntry := ⟨0, 0, 0, "", ""⟩

/-- The entries that the log checks. -/
def readEntries (entries : List (Option WireEntry)) : List RaftLogEntry :=
  entries.map fun e => (e.map WireEntry.toEntry).getD missingEntry

/-- A replication request as it arrives; the leader is missing when its name is blank. -/
structure WireRequest (ι : Type) where
  term : ℤ
  leaderId : Option ι
  prevLogIndex : ℤ
  prevLogTerm : ℤ
  leaderCommit : ℤ
  entries : Option (List (Option WireEntry))

namespace Node

/-- Handle a replication request from the network. -/
def handleWireRequest [DecidableEq ι] (n : Node ι) (request : WireRequest ι) :
    Node ι × Option AppendEntriesResponse :=
  if request.term < 0 then (n, none)
  else
    match request.leaderId with
    | none => (n, none)
    | some leaderId =>
        if request.prevLogIndex < 0 ∨ request.prevLogTerm < 0 ∨ request.leaderCommit < 0 then
          (n, none)
        else
          match request.entries with
          | none => (n, none)
          | some entries =>
              n.handleAppendEntries {
                term := request.term.toNat
                leaderId := leaderId
                prevLogIndex := request.prevLogIndex.toNat
                prevLogTerm := request.prevLogTerm.toNat
                leaderCommit := request.leaderCommit.toNat
                entries := readEntries entries }

end Node

/-- The operations on the log and the commit state of a node. -/
inductive LogOperation (ι : Type) where
  | handleAppendEntries (request : WireRequest ι)
  | appendCommand (command : SerializedCommand) (term : ℤ)
  | tryAdvanceLeaderCommit (currentTerm clusterSize : ℤ) (followerMatchIndexes : List ℤ)
  | markApplied (logIndex : ℤ)

/-- The node after an operation; one that throws leaves what it has written. -/
def Node.operate [DecidableEq ι] (n : Node ι) : LogOperation ι → Node ι
  | .handleAppendEntries request => (n.handleWireRequest request).1
  | .appendCommand command term =>
      match Raft.appendCommand n.logStore command term.toNat with
      | .error _ => n
      | .ok (logStore, _) => { n with logStore := logStore }
  | .tryAdvanceLeaderCommit currentTerm clusterSize followerMatchIndexes =>
      (n.tryAdvanceLeaderCommit currentTerm.toNat clusterSize.toNat
        (followerMatchIndexes.map Int.toNat)).getD n
  | .markApplied logIndex => (n.markApplied logIndex.toNat).getD n

/-- One node that starts for the first time. -/
def logNode (ι : Type) [DecidableEq ι] : System (Node ι) (LogOperation ι) where
  init := newNode
  step n operation := some (n.operate operation)

/-! ## Received entries and the committed part -/

section Received

variable {s : LogStore} {committed : Nat}

/-- An append that succeeds keeps the log and may add to it. -/
theorem isPrefix_of_append
    {s' : LogStore} {entry : RaftLogEntry}
    (h : s.append entry = .ok s') :
    s.entries <+: s'.entries := by
  rcases append_spec h with ⟨rfl, -⟩ | ⟨hentries, -⟩
  · exact List.prefix_rfl
  · rw [hentries]
    exact List.prefix_append _ _

/-- The committed part is an initial part of the log after the loop, whatever is
received and whether or not the loop throws. -/
theorem take_isPrefix_appendLoop
    (rest : List RaftLogEntry) (s : LogStore)
    (h : committed ≤ s.entries.length) :
    s.entries.take committed <+: (appendLoop committed s rest).1.entries := by
  induction rest generalizing s with
  | nil => exact List.take_prefix _ _
  | cons e rest ih =>
      -- the loop goes on with a log that contains the committed part
      have hgo : ∀ s₁ : LogStore, s.entries.take committed <+: s₁.entries →
          s.entries.take committed <+: (appendLoop committed s₁ rest).1.entries := by
        intro s₁ hpre
        have hlength := hpre.length_le
        rw [List.length_take, min_eq_left h] at hlength
        have htake : s.entries.take committed = s₁.entries.take committed := by
          rw [List.prefix_iff_eq_take.mp hpre, List.length_take, min_eq_left h]
        rw [htake]
        exact ih s₁ hlength
      unfold appendLoop
      cases hget : s.get e.logIndex with
      | none =>
          simp only
          cases happend : s.append e with
          | error error => exact List.take_prefix _ _
          | ok s₁ => exact hgo s₁ ((List.take_prefix _ _).trans (isPrefix_of_append happend))
      | some existing =>
          simp only
          split_ifs with heq hcommitted
          · exact ih s h
          · exact List.take_prefix _ _
          · have hcut : s.entries.take committed <+: (s.deleteFrom e.logIndex).entries := by
              refine List.prefix_take_iff.mpr ⟨List.take_prefix _ _, ?_⟩
              rw [List.length_take]
              omega
            cases happend : (s.deleteFrom e.logIndex).append e with
            | error error => exact hcut
            | ok s₁ => exact hgo s₁ (hcut.trans (isPrefix_of_append happend))

theorem take_isPrefix_tryAppendEntries
    (prevLogIndex prevLogTerm : Nat) (entries : List RaftLogEntry)
    (h : committed ≤ s.entries.length) :
    s.entries.take committed <+:
      (tryAppendEntries s prevLogIndex prevLogTerm entries committed).1.entries := by
  unfold tryAppendEntries
  cases validateReplicatedEntries prevLogIndex entries with
  | some error => exact List.take_prefix _ _
  | none =>
      simp only
      split_ifs
      · exact List.take_prefix _ _
      · exact take_isPrefix_appendLoop entries s h
      · cases s.get prevLogIndex with
        | none => exact List.take_prefix _ _
        | some previousEntry =>
            simp only
            split_ifs
            · exact List.take_prefix _ _
            · exact take_isPrefix_appendLoop entries s h

end Received

/-! ## What one operation does -/

namespace Node

/-- The stores agree with the memory; what has been applied is committed, and what is
committed is in the log. -/
structure Consistent (n : Node ι) : Prop where
  stored : n.Stored
  commitState : n.commitState = ⟨n.commitIndex, n.lastApplied⟩
  applied : n.lastApplied ≤ n.commitIndex
  logged : n.commitIndex ≤ n.logStore.entries.length

/-- The later node has committed and applied at least as much, and has kept what was
committed. -/
structure Retains (n n' : Node ι) : Prop where
  commitIndex : n.commitIndex ≤ n'.commitIndex
  lastApplied : n.lastApplied ≤ n'.lastApplied
  entries : n.logStore.entries.take n.commitIndex <+: n'.logStore.entries

section Retains

variable {n n' n'' : Node ι}

theorem Retains.refl (n : Node ι) : Retains n n :=
  ⟨le_refl _, le_refl _, List.take_prefix _ _⟩

theorem Retains.trans
    (h : Retains n n')
    (h' : Retains n' n'') :
    Retains n n'' where
  commitIndex := le_trans h.commitIndex h'.commitIndex
  lastApplied := le_trans h.lastApplied h'.lastApplied
  entries := by
    have hlength : (n.logStore.entries.take n.commitIndex).length ≤ n'.commitIndex := by
      rw [List.length_take]
      exact le_trans (min_le_left _ _) h.commitIndex
    exact (List.prefix_take_iff.mpr ⟨h.entries, hlength⟩).trans h'.entries

/-- What was committed can be looked up in the later log, with the same content. -/
theorem Retains.get_eq
    (h : Retains n n')
    (hn : n.commitIndex ≤ n.logStore.entries.length)
    {i : Nat}
    (hpos : 0 < i)
    (hi : i ≤ n.commitIndex) :
    ∃ e, n.logStore.get i = some e ∧ n'.logStore.get i = some e := by
  obtain ⟨k, rfl⟩ := Nat.exists_eq_succ_of_ne_zero hpos.ne'
  rw [Nat.succ_eq_add_one, get_succ, get_succ]
  have hk : k < n.logStore.entries.length := by omega
  refine ⟨n.logStore.entries[k], List.getElem?_eq_getElem hk, ?_⟩
  obtain ⟨later, hlater⟩ := h.entries
  have hlength : k < (n.logStore.entries.take n.commitIndex).length := by
    rw [List.length_take]
    omega
  rw [← hlater, List.getElem?_append_left hlength, List.getElem?_take_of_lt hi]
  exact List.getElem?_eq_getElem hk

end Retains

section Steps

variable {n n' : Node ι}

/-- A new commit index between the old one and the end of the log. -/
theorem Consistent.commit
    (h : n.Consistent)
    {c : Nat}
    (hle : n.commitIndex ≤ c)
    (hlog : c ≤ n.logStore.entries.length) :
    ({ n with commitState := ⟨c, n.lastApplied⟩, commitIndex := c } : Node ι).Consistent ∧
      Retains n { n with commitState := ⟨c, n.lastApplied⟩, commitIndex := c } :=
  ⟨⟨h.stored, rfl, le_trans h.applied hle, hlog⟩, hle, le_refl _, List.take_prefix _ _⟩

/-- A new log that keeps the committed part. -/
theorem Consistent.store
    (h : n.Consistent)
    {logStore : LogStore}
    (hretains : n.logStore.entries.take n.commitIndex <+: logStore.entries) :
    ({ n with logStore := logStore } : Node ι).Consistent ∧
      Retains n { n with logStore := logStore } := by
  have hlength := hretains.length_le
  rw [List.length_take, min_eq_left h.logged] at hlength
  exact ⟨⟨h.stored, h.commitState, h.applied, hlength⟩, le_refl _, le_refl _, hretains⟩

theorem Consistent.seeTerm
    (h : n.Consistent)
    (term : Nat) :
    (n.seeTerm term).Consistent ∧ Retains n (n.seeTerm term) := by
  unfold Node.seeTerm
  split_ifs
  · exact ⟨h, Retains.refl n⟩
  · exact ⟨⟨rfl, h.commitState, h.applied, h.logged⟩, le_refl _, le_refl _,
      List.take_prefix _ _⟩

/-- Received entries keep the committed part; the commit index only moves forward. -/
theorem Consistent.replicate
    (h : n.Consistent)
    (request : AppendEntriesRequest ι) :
    (n.replicate request).1.Consistent ∧ Retains n (n.replicate request).1 := by
  have hretains : n.logStore.entries.take n.commitIndex <+: (n.received request).1.entries :=
    take_isPrefix_tryAppendEntries _ _ _ h.logged
  have hlength := hretains.length_le
  rw [List.length_take, min_eq_left h.logged] at hlength
  obtain ⟨st, c, r, heq, hcommit, -⟩ := replicate_cases n request
  rw [heq]
  rcases hcommit with ⟨rfl, rfl⟩ | ⟨-, rfl, hlt, hc⟩
  · exact ⟨⟨h.stored, h.commitState, h.applied, hlength⟩, le_refl _, le_refl _, hretains⟩
  · have hle : c ≤ (n.received request).1.entries.length := by omega
    exact ⟨⟨h.stored, rfl, le_trans h.applied hlt.le, hle⟩, hlt.le, le_refl _, hretains⟩

variable [DecidableEq ι]

theorem Consistent.handleAppendEntries
    (h : n.Consistent)
    (request : AppendEntriesRequest ι) :
    (n.handleAppendEntries request).1.Consistent ∧
      Retains n (n.handleAppendEntries request).1 := by
  rcases handleAppendEntries_cases h.stored request with heq | ⟨-, heq⟩
  · rw [heq]
    exact ⟨h, Retains.refl n⟩
  · rw [heq]
    obtain ⟨hseen, hretains⟩ := h.seeTerm request.term
    obtain ⟨hreplicated, hretains'⟩ := hseen.replicate request
    exact ⟨hreplicated, hretains.trans hretains'⟩

/-- Whatever arrives, the request is rejected unread or handled. -/
theorem Consistent.handleWireRequest
    (h : n.Consistent)
    (request : WireRequest ι) :
    (n.handleWireRequest request).1.Consistent ∧ Retains n (n.handleWireRequest request).1 := by
  unfold Node.handleWireRequest
  split
  · exact ⟨h, Retains.refl n⟩
  · cases request.leaderId with
    | none => exact ⟨h, Retains.refl n⟩
    | some leaderId =>
        simp only
        split
        · exact ⟨h, Retains.refl n⟩
        · cases request.entries with
          | none => exact ⟨h, Retains.refl n⟩
          | some entries => exact h.handleAppendEntries _

omit [DecidableEq ι] in
theorem Consistent.tryAdvanceLeaderCommit
    (h : n.Consistent)
    {currentTerm clusterSize : Nat} {followerMatchIndexes : List Nat}
    (hstep : n.tryAdvanceLeaderCommit currentTerm clusterSize followerMatchIndexes = some n') :
    n'.Consistent ∧ Retains n n' := by
  unfold Node.tryAdvanceLeaderCommit at hstep
  split_ifs at hstep
  simp only [getLastPosition_logIndex] at hstep
  split at hstep
  case h_1 =>
    cases hstep
    exact ⟨h, Retains.refl n⟩
  case h_2 k hk =>
    obtain ⟨hlt, ⟨entry, hget, -⟩, -⟩ := committableIndex_spec hk
    have hlog : k ≤ n.logStore.entries.length := by
      obtain ⟨j, rfl⟩ := Nat.exists_eq_succ_of_ne_zero (Nat.ne_of_gt (Nat.zero_lt_of_lt hlt))
      rw [Nat.succ_eq_add_one, get_succ] at hget
      exact (List.getElem?_eq_some_iff.mp hget).1
    split at hstep
    case h_1 => cases hstep
    case h_2 st hsave =>
      rw [commitState_save_eq_some hsave] at hstep
      cases hstep
      exact h.commit hlt.le hlog

omit [DecidableEq ι] in
/-- Only the next committed entry is applied. -/
theorem Consistent.markApplied
    (h : n.Consistent)
    {logIndex : Nat}
    (hstep : n.markApplied logIndex = some n') :
    n'.Consistent ∧ Retains n n' := by
  have heq := markApplied_eq_some hstep
  have hindex : logIndex = n.lastApplied + 1 ∧ logIndex ≤ n.commitIndex := by
    unfold Node.markApplied at hstep
    split at hstep
    case h_1 => cases hstep
    case h_2 expectedIndex hexpected =>
      split_ifs at hstep with hnext hcommitted
      rw [← checkedSucc_eq_some hexpected]
      exact ⟨not_ne_iff.mp hnext, by omega⟩
  subst heq
  exact ⟨⟨h.stored, rfl, hindex.2, h.logged⟩, le_refl _, by simp only; omega,
    List.take_prefix _ _⟩

/-- Every operation keeps the node consistent and what it has committed. -/
theorem Consistent.operate
    (h : n.Consistent)
    (operation : LogOperation ι) :
    (n.operate operation).Consistent ∧ Retains n (n.operate operation) := by
  cases operation with
  | handleAppendEntries request => exact h.handleWireRequest request
  | appendCommand command term =>
      unfold Node.operate
      simp only
      cases happend : appendCommand n.logStore command term.toNat with
      | error _ => exact ⟨h, Retains.refl n⟩
      | ok result =>
          obtain ⟨logStore, entry⟩ := result
          refine h.store ?_
          rw [(appendCommand_spec happend).1]
          exact (List.take_prefix _ _).trans (List.prefix_append _ _)
  | tryAdvanceLeaderCommit currentTerm clusterSize followerMatchIndexes =>
      unfold Node.operate
      simp only
      cases hstep : n.tryAdvanceLeaderCommit currentTerm.toNat clusterSize.toNat
          (followerMatchIndexes.map Int.toNat) with
      | none => exact ⟨h, Retains.refl n⟩
      | some n' => exact h.tryAdvanceLeaderCommit hstep
  | markApplied logIndex =>
      unfold Node.operate
      simp only
      cases hstep : n.markApplied logIndex.toNat with
      | none => exact ⟨h, Retains.refl n⟩
      | some n' => exact h.markApplied hstep

end Steps

end Node

/-! ## Runs -/

section Runs

variable [DecidableEq ι] {n n' : Node ι}

/-- The indexes of a log are `1, …, k`. -/
theorem map_logIndex_eq (s : LogStore) :
    s.entries.map RaftLogEntry.logIndex = List.range' 1 s.entries.length := by
  refine List.ext_getElem (by simp) fun k hk _ => ?_
  rw [List.length_map] at hk
  rw [List.getElem_map, List.getElem_range', s.indexed k _ (List.getElem?_eq_getElem hk)]
  omega

omit [DecidableEq ι] in
theorem consistent_newNode : (newNode : Node ι).Consistent :=
  ⟨rfl, rfl, le_refl _, le_refl _⟩

theorem reachable_consistent
    (h : (logNode ι).Reachable System.anyStep n) :
    n.Consistent := by
  refine System.Reachable.invariant (I := Node.Consistent) consistent_newNode
    (fun s operation s' _ hs _ hstep => ?_) h
  rw [← Option.some.inj hstep]
  exact (hs.operate operation).1

/-- A run keeps what the node has committed. -/
theorem reaches_retains
    (h : n.Consistent)
    (hrun : (logNode ι).Reaches System.anyStep n n') :
    n'.Consistent ∧ n.Retains n' := by
  induction hrun with
  | refl => exact ⟨h, Node.Retains.refl n⟩
  | @tail s s' operation _ _ hstep ih =>
      obtain ⟨hs, hretains⟩ := ih
      obtain ⟨hs', hretains'⟩ := hs.operate operation
      rw [← Option.some.inj hstep]
      exact ⟨hs', hretains.trans hretains'⟩

/-- Whatever a node is asked to do, its log is indexed from one without a gap, what it
has applied is committed and what is committed is in the log.  In every later state the
node has committed and applied at least as much, and every committed entry is in its
place. -/
theorem node_log_invariant
    (h : (logNode ι).Reachable System.anyStep n) :
    n.logStore.entries.map RaftLogEntry.logIndex = List.range' 1 n.logStore.entries.length ∧
      n.lastApplied ≤ n.commitIndex ∧ n.commitIndex ≤ n.logStore.entries.length ∧
      ∀ n', (logNode ι).Reaches System.anyStep n n' →
        n.commitIndex ≤ n'.commitIndex ∧ n.lastApplied ≤ n'.lastApplied ∧
        ∀ i, 0 < i → i ≤ n.commitIndex →
          ∃ e, n.logStore.get i = some e ∧ n'.logStore.get i = some e := by
  have hn := reachable_consistent h
  refine ⟨map_logIndex_eq n.logStore, hn.applied, hn.logged, fun n' hrun => ?_⟩
  obtain ⟨-, hretains⟩ := reaches_retains hn hrun
  exact ⟨hretains.commitIndex, hretains.lastApplied,
    fun i hpos hi => hretains.get_eq hn.logged hpos hi⟩

/-- A node commits and applies its own command; a leader with another first entry then
asks it to overwrite the log, and again to follow its commit index. -/
def overwriteRun : List (LogOperation (Fin 2)) :=
  let entry : Option WireEntry := some ⟨1, 2, 2, some "Start", some "body"⟩
  [.appendCommand ⟨1, "Start", "body"⟩ 1, .tryAdvanceLeaderCommit 1 1 [], .markApplied 1,
    .handleAppendEntries ⟨2, some 1, 0, 0, 1, some [entry]⟩,
    .handleAppendEntries ⟨2, some 1, -1, 0, 5, some []⟩]

theorem node_log_invariant_sample :
    ∃ n : Node (Fin 2), n.currentTerm = 2 ∧ n.commitIndex = 1 ∧
      n.logStore.entries.map RaftLogEntry.logIndex = List.range' 1 n.logStore.entries.length ∧
      n.lastApplied ≤ n.commitIndex ∧ n.commitIndex ≤ n.logStore.entries.length ∧
      ∀ n', (logNode (Fin 2)).Reaches System.anyStep n n' →
        n.commitIndex ≤ n'.commitIndex ∧ n.lastApplied ≤ n'.lastApplied ∧
        ∀ i, 0 < i → i ≤ n.commitIndex →
          ∃ e, n.logStore.get i = some e ∧ n'.logStore.get i = some e := by
  obtain ⟨n, hrun, hterm, hcommit⟩ : ∃ n, (logNode (Fin 2)).Reachable System.anyStep n ∧
      n.currentTerm = 2 ∧ n.commitIndex = 1 := by
    refine System.exists_reaches_of_exec overwriteRun ?_
    decide +kernel
  exact ⟨n, hterm, hcommit, node_log_invariant hrun⟩

end Runs

end Raft
end DistributedConsensus
