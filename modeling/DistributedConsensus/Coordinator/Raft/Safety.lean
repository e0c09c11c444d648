import DistributedConsensus.Coordinator.Raft.Replication

/-!
# Raft: log matching and state machine safety

Along every run in which commands are appended by current leaders, the cluster
is linked to a run of the protocol of replicated logs.  Logs that agree on the
term at an index agree up to it, and committed entries are the same on all
nodes.

The submitter reads role and term first and appends afterwards.  A node that is
deposed in between still appends in the old term, behind the entries of the new
leader; such a run is given below.
-/

namespace DistributedConsensus
namespace Raft

open Foundations
open Foundations.ReplicatedLog

variable {ι : Type} [Fintype ι] [DecidableEq ι] {M : Membership ι} {w : World ι}

omit [DecidableEq ι] in
theorem linked_initial : Linked (initialWorld : World ι) State.initial where
  nodes i := {
    stored := rfl
    term := rfl
    log := rfl
    vote := fun c L hv => hv.elim
    candidate := by rintro ⟨⟩
    leader := by rintro ⟨⟩
    election := by rintro t ⟨⟩
    request := by rintro t r ⟨⟩
    commitStored := rfl
    heartbeat := by rintro t ⟨⟩
    tracker := by rintro T ⟨⟩
    commit_le := le_rfl
    confirmed := Or.inl rfl }
  voteCalls call hcall := by cases hcall
  voteReplies reply hreply := by cases hreply
  appendCalls call hcall := by cases hcall
  appendReplies reply hreply := by cases hreply

/-- A reachable state is linked to a state of the protocol. -/
theorem exists_linked
    (hw : (cluster M).Reachable AppendsAsLeader w) :
    ∃ a, Inv RaftLogEntry.term a ∧ Permanent RaftLogEntry.term a ∧ Linked w a := by
  refine System.Reachable.invariant
    (I := fun w => ∃ a, Inv RaftLogEntry.term a ∧ Permanent RaftLogEntry.term a ∧ Linked w a)
    ?_ ?_ hw
  · exact ⟨State.initial, inv_initial, permanent_initial, linked_initial⟩
  · rintro w l w' - ⟨a, hinv, hperm, hlinked⟩ hok hstep
    obtain ⟨i, a', hacts, hlinked'⟩ := hlinked.step hinv hok hstep
    exact ⟨a', hacts.inv hinv, hacts.permanent hinv hperm, hlinked'⟩

/-! ## Committed entries -/

/-- An entry of an initial part has the same position in the whole log. -/
theorem get_eq_of_take
    {s : LogStore} {k c : Nat}
    (hk : k < c) :
    s.get (k + 1) = (s.entries.take c)[k]? := by
  rw [get_succ, List.getElem?_take_of_lt hk]

/-- State machine safety: nodes agree on the entries that both have committed. -/
theorem committed_entries_agree
    {i j : ι} {logIndex : Nat}
    (hw : (cluster M).Reachable AppendsAsLeader w)
    (hpos : 0 < logIndex)
    (hi : logIndex ≤ (w.nodes i).commitIndex)
    (hj : logIndex ≤ (w.nodes j).commitIndex) :
    ∃ entry, (w.nodes i).logStore.get logIndex = some entry ∧
      (w.nodes j).logStore.get logIndex = some entry := by
  obtain ⟨a, hinv, hperm, hlinked⟩ := exists_linked hw
  obtain ⟨k, rfl⟩ := Nat.exists_eq_succ_of_ne_zero hpos.ne'
  have hi' := hlinked.nodes i
  have hj' := hlinked.nodes j
  have hki : k < ((w.nodes i).logStore.entries.take (w.nodes i).commitIndex).length := by
    rw [List.length_take_of_le hi'.commit_le]
    exact hi
  have hkj : k < ((w.nodes j).logStore.entries.take (w.nodes j).commitIndex).length := by
    rw [List.length_take_of_le hj'.commit_le]
    exact hj
  rw [get_eq_of_take hi, get_eq_of_take hj]
  -- One of the committed parts contains the other.
  rcases hi'.confirmed.comparable hinv hperm hj'.confirmed with hpre | hpre
  · refine ⟨_, List.getElem?_eq_getElem hki, ?_⟩
    exact List.prefix_iff_getElem?.mp hpre k hki
  · refine ⟨_, ?_, List.getElem?_eq_getElem hkj⟩
    exact List.prefix_iff_getElem?.mp hpre k hkj

/-! ## Log matching -/

/-- Entries with the same index and term are the same, and so are all entries
before them. -/
def LogMatching (w : World ι) : Prop :=
  ∀ i j logIndex e e', (w.nodes i).logStore.get logIndex = some e →
    (w.nodes j).logStore.get logIndex = some e' → e.term = e'.term →
    e = e' ∧ ∀ m, m < logIndex → (w.nodes i).logStore.get m = (w.nodes j).logStore.get m

/-- Terms do not decrease along a log. -/
def TermsAscend (w : World ι) : Prop :=
  ∀ i k m e e', k ≤ m → (w.nodes i).logStore.get k = some e →
    (w.nodes i).logStore.get m = some e' → e.term ≤ e'.term

omit [DecidableEq ι] in
theorem Linked.logMatching
    {a : History ι}
    (hinv : Inv RaftLogEntry.term a)
    (h : Linked w a) :
    LogMatching w := by
  intro i j logIndex e e' he he' hterm
  cases logIndex with
  | zero => simp [LogStore.get] at he
  | succ k =>
      rw [get_succ] at he he'
      have hi := hinv.traced_log i
      have hj := hinv.traced_log j
      rw [(h.nodes i).log] at hi
      rw [(h.nodes j).log] at hj
      have htake := hinv.take_eq_of_term_eq hi hj he he' hterm
      have hget : ∀ m, m < k + 1 →
          (w.nodes i).logStore.entries[m]? = (w.nodes j).logStore.entries[m]? := by
        intro m hm
        rw [← List.getElem?_take_of_lt hm, htake, List.getElem?_take_of_lt hm]
      constructor
      · have hsame := hget k (Nat.lt_succ_self k)
        rw [he, he'] at hsame
        exact Option.some.inj hsame
      · intro m hm
        cases m with
        | zero => rfl
        | succ m =>
            rw [get_succ, get_succ]
            exact hget m (by omega)

omit [DecidableEq ι] in
theorem Linked.termsAscend
    {a : History ι}
    (hinv : Inv RaftLogEntry.term a)
    (h : Linked w a) :
    TermsAscend w := by
  intro i k m e e' hkm he he'
  have hascending := hinv.ascending (hinv.traced_log i)
  rw [(h.nodes i).log] at hascending
  cases k with
  | zero => simp [LogStore.get] at he
  | succ k =>
      cases m with
      | zero => omega
      | succ m =>
          rw [get_succ] at he he'
          obtain ⟨hk, rfl⟩ := List.getElem?_eq_some_iff.mp he
          obtain ⟨hm, rfl⟩ := List.getElem?_eq_some_iff.mp he'
          rcases (Nat.le_of_succ_le_succ hkm).lt_or_eq with hlt | rfl
          · exact List.pairwise_iff_getElem.mp hascending k m hk hm hlt
          · exact le_rfl

/-- As long as commands are appended by current leaders, logs match and their
terms ascend. -/
theorem logMatching_of_appendsAsLeader
    (hw : (cluster M).Reachable AppendsAsLeader w) :
    LogMatching w ∧ TermsAscend w := by
  obtain ⟨a, hinv, -, hlinked⟩ := exists_linked hw
  exact ⟨hlinked.logMatching hinv, hlinked.termsAscend hinv⟩

/-! ## Runs -/

/-- A command of a client. -/
def sampleCommand (commandId : Guid) : SerializedCommand :=
  ⟨commandId, "CancelExperiment", "payload"⟩

/-- The entry of a sample command. -/
def sampleEntry (logIndex term : Nat) (commandId : Guid) : RaftLogEntry :=
  ⟨logIndex, term, commandId, "CancelExperiment", "payload"⟩

/-- The first node is elected, and a command is committed by two nodes. -/
def commitRun : List (Label (Fin 3)) :=
  firstElection ++ [.beginHeartbeat 0, .submitSnapshot 0 (sampleCommand 7), .submitAppend 0,
    .buildRequest 0 1, .buildRequest 0 2,
    .handleAppendEntries 1 ⟨1, 0, 0, 0, 0, [sampleEntry 1 1 7]⟩,
    .recordResponse 0 1 ⟨1, true⟩, .finishHeartbeat 0,
    .beginHeartbeat 0, .buildRequest 0 1, .handleAppendEntries 1 ⟨1, 0, 1, 1, 1, []⟩]

theorem committed_entries_agree_commitRun :
    ∃ w : World (Fin 3), (cluster (fullMesh 3)).Reachable AppendsAsLeader w ∧
      1 ≤ (w.nodes 0).commitIndex ∧ 1 ≤ (w.nodes 1).commitIndex ∧
      ∃ entry, (w.nodes 0).logStore.get 1 = some entry ∧
        (w.nodes 1).logStore.get 1 = some entry := by
  have hrun : ∃ w, (cluster (fullMesh 3)).Reaches AppendsAsLeader initialWorld w ∧
      1 ≤ (w.nodes 0).commitIndex ∧ 1 ≤ (w.nodes 1).commitIndex := by
    refine System.exists_reaches_of_exec commitRun ?_
    decide +kernel
  obtain ⟨w, hw, h0, h1⟩ := hrun
  exact ⟨w, hw, h0, h1, committed_entries_agree hw Nat.one_pos h0 h1⟩

theorem logMatching_commitRun :
    ∃ w : World (Fin 3), (cluster (fullMesh 3)).Reachable AppendsAsLeader w ∧
      (w.nodes 0).logStore.get 1 = some (sampleEntry 1 1 7) ∧
      (w.nodes 1).logStore.get 1 = some (sampleEntry 1 1 7) ∧ LogMatching w ∧ TermsAscend w := by
  have hrun : ∃ w, (cluster (fullMesh 3)).Reaches AppendsAsLeader initialWorld w ∧
      (w.nodes 0).logStore.get 1 = some (sampleEntry 1 1 7) ∧
      (w.nodes 1).logStore.get 1 = some (sampleEntry 1 1 7) := by
    refine System.exists_reaches_of_exec commitRun ?_
    decide +kernel
  obtain ⟨w, hw, h0, h1⟩ := hrun
  exact ⟨w, hw, h0, h1, logMatching_of_appendsAsLeader hw⟩

/-- The first node reads its role and term.  The second node is elected for the
next term and replaces the first one's log; then the first node appends. -/
def deposedRun : List (Label (Fin 3)) :=
  firstElection ++ [.submitSnapshot 0 (sampleCommand 7),
    .handleRequestVote 2 ⟨1, 0, 0, 0⟩, .beginElection 1, .requestVotes 1,
    .handleRequestVote 2 ⟨2, 1, 0, 0⟩,
    .finishElection 1 (fun p => if p = 2 then some ⟨2, true⟩ else none),
    .beginHeartbeat 1, .submitSnapshot 1 (sampleCommand 8), .submitAppend 1, .buildRequest 1 0,
    .handleAppendEntries 0 ⟨2, 1, 0, 0, 0, [sampleEntry 1 2 8]⟩, .submitAppend 0]

theorem not_termsAscend_deposedRun :
    ∃ w : World (Fin 3), (cluster (fullMesh 3)).Reachable System.anyStep w ∧
      ¬ (LogMatching w ∧ TermsAscend w) := by
  have hrun : ∃ w, (cluster (fullMesh 3)).Reaches System.anyStep initialWorld w ∧
      (w.nodes 0).logStore.get 1 = some (sampleEntry 1 2 8) ∧
      (w.nodes 0).logStore.get 2 = some (sampleEntry 2 1 7) := by
    refine System.exists_reaches_of_exec deposedRun ?_
    decide +kernel
  obtain ⟨w, hw, h1, h2⟩ := hrun
  refine ⟨w, hw, fun h => ?_⟩
  have hle := h.2 0 1 2 _ _ (by omega) h1 h2
  simp [sampleEntry] at hle

end Raft
end DistributedConsensus
