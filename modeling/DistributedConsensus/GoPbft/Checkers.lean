import DistributedConsensus.Foundations.MapOrder
import DistributedConsensus.GoPbft.InView

/-!
# PBFT: the checks on a finished run

`checkers.go`.  After a simulation the recorder holds, for each replica, what it has
executed.  The checks go over this map in an order that Go does not specify, and return
when they have found a failure.

`CheckTotalOrderAgreement` passes if and only if the replicas agree
(`checkTotalOrderAgreement_passed_iff`), in whatever order it visits them, and
`CheckNoDoubleExecution` passes after every run (`checkNoDoubleExecution_passed`): a replica
executes the sequence numbers one after the other.
-/

namespace DistributedConsensus
namespace GoPbft

open Foundations

structure CheckResult where
  property : String
  passed : Bool
  details : String

/-- What the recorder has kept of the executions. -/
abbrev Executions := Dict ℕ (List ExecutionEntry)

/-- The recorder after a run: `RecordExecution` adds the replica with its first execution. -/
def Cluster.executedLogs (D : Deployment) (w : Cluster) : Executions where
  entries := ((List.range D.n).filter fun i => (w i).rs.executions ≠ []).map
    fun i => (i, (w i).rs.executions)
  nodup := by
    rw [List.map_map]
    exact (List.map_id _).symm ▸ List.nodup_range.filter _

section Checks

variable (processID : ℕ → String)

/-- The loops over the replicas and their logs; an error is the early return. -/
def agreeOnLogs :
    List (ℕ × ExecutionEntry) → Dict ℤ String → Except CheckResult (Dict ℤ String)
  | [], perSeq => .ok perSeq
  | (replica, e) :: logs, perSeq =>
      match perSeq.get? e.seq with
      | some existing =>
          if existing ≠ e.digest then
            .error ⟨"Agreement (total order)", false,
              s!"replica {processID replica} executed digest {e.digest} at seq {e.seq}, " ++
                s!"but another replica executed {existing}"⟩
          else agreeOnLogs logs perSeq
      | none => agreeOnLogs logs (perSeq.set e.seq e.digest)

def checkTotalOrderAgreement (o : MapOrder ℕ) (s : Executions) : CheckResult :=
  match agreeOnLogs processID ((s.inOrder o).flatMap fun log => log.2.map (Prod.mk log.1))
      Dict.empty with
  | .error result => result
  | .ok perSeq => ⟨"Agreement (total order)", true,
      s!"all replicas agree on the executed digest for every sequence number ({perSeq.size} checked)"⟩

/-- The loop over the log of a replica, with the sequence numbers seen; the failure that it
returns. -/
def doubleExecution (replica : ℕ) : List ExecutionEntry → Finset ℤ → Option CheckResult
  | [], _ => none
  | e :: log, seen =>
      if e.seq ∈ seen then
        some ⟨"No double execution", false,
          s!"replica {processID replica} executed sequence {e.seq} more than once"⟩
      else doubleExecution replica log (insert e.seq seen)

def checkNoDoubleExecution (o : MapOrder ℕ) (s : Executions) : CheckResult :=
  match (s.inOrder o).findSome? fun log => doubleExecution processID log.1 log.2 ∅ with
  | some result => result
  | none => ⟨"No double execution", true,
      "every replica executed each sequence number at most once"⟩

end Checks

/-! ## Agreement -/

section Agreement

variable {processID : ℕ → String} {seen : List ExecutionEntry} {perSeq perSeq' : Dict ℤ String}

/-- Two executions of one sequence number have different digests. -/
def Disagree (seen : List ExecutionEntry) : Prop :=
  ∃ e ∈ seen, ∃ e' ∈ seen, e.seq = e'.seq ∧ e.digest ≠ e'.digest

/-- The map holds the digests of the entries that the loop has seen. -/
def Holds (perSeq : Dict ℤ String) (seen : List ExecutionEntry) : Prop :=
  ∀ seq digest, perSeq.get? seq = some digest ↔ ∃ e ∈ seen, e.seq = seq ∧ e.digest = digest

theorem Holds.not_disagree
    (h : Holds perSeq seen) :
    ¬ Disagree seen := by
  rintro ⟨e, he, e', he', hseq, hne⟩
  have hget := (h e.seq e.digest).mpr ⟨e, he, rfl, rfl⟩
  have hget' := (h e.seq e'.digest).mpr ⟨e', he', hseq.symm, rfl⟩
  exact hne (Option.some.inj (hget.symm.trans hget'))

/-- An entry that agrees with the map is seen. -/
theorem Holds.concat
    {e : ExecutionEntry}
    (h : Holds perSeq seen)
    (hagrees : ∀ existing, perSeq.get? e.seq = some existing → existing = e.digest)
    (hset : ∀ seq, perSeq'.get? seq = if seq = e.seq then some e.digest else perSeq.get? seq) :
    Holds perSeq' (seen ++ [e]) := by
  intro seq digest
  simp only [hset, List.mem_append, List.mem_singleton, or_and_right, exists_or, exists_eq_left]
  split
  case isTrue hseq =>
    subst hseq
    constructor
    · exact fun heq => Or.inr ⟨rfl, Option.some.inj heq⟩
    · rintro (hold | ⟨-, rfl⟩)
      · rw [hagrees digest ((h e.seq digest).mpr hold)]
      · rfl
  case isFalse hseq =>
    rw [h, or_iff_left]
    exact fun hnew => hseq hnew.1.symm

theorem agreeOnLogs_spec
    {logs : List (ℕ × ExecutionEntry)}
    (h : Holds perSeq seen) :
    (∃ perSeq', agreeOnLogs processID logs perSeq = .ok perSeq' ∧
        Holds perSeq' (seen ++ logs.map Prod.snd)) ∨
      ∃ result, agreeOnLogs processID logs perSeq = .error result ∧
        result.passed = false ∧ Disagree (seen ++ logs.map Prod.snd) := by
  induction logs generalizing perSeq seen with
  | nil =>
      rw [List.map_nil, List.append_nil]
      exact Or.inl ⟨perSeq, rfl, h⟩
  | cons entry logs ih =>
      obtain ⟨replica, e⟩ := entry
      rw [agreeOnLogs, List.map_cons, List.append_cons]
      split
      case h_1 existing hget =>
        split
        case isTrue hne =>
          obtain ⟨e', he', hseq, rfl⟩ := (h e.seq existing).mp hget
          exact Or.inr ⟨_, rfl, rfl, e, by simp, e', by simp [he'], hseq.symm, hne.symm⟩
        case isFalse hsame =>
          obtain rfl := not_not.mp hsame
          refine ih (h.concat (fun x hx => Option.some.inj (hx.symm.trans hget)) fun seq => ?_)
          split
          case isTrue hseq => rw [hseq, hget]
          case isFalse => rfl
      case h_2 hget =>
        refine ih (h.concat (fun x hx => ?_) fun seq => Dict.get?_set _ _ _ _)
        rw [hget] at hx
        cases hx

/-- **The check of total order is exact.**  In whatever order it visits the replicas, it
passes if and only if no two of them have executed different digests at one sequence
number. -/
theorem checkTotalOrderAgreement_passed_iff
    (processID : ℕ → String) (o : MapOrder ℕ) (s : Executions) :
    (checkTotalOrderAgreement processID o s).passed = true ↔
      ∀ i log, s.get? i = some log → ∀ j log', s.get? j = some log' →
        ∀ e ∈ log, ∀ e' ∈ log', e.seq = e'.seq → e.digest = e'.digest := by
  let seen := ((s.inOrder o).flatMap fun log => log.2.map (Prod.mk log.1)).map Prod.snd
  have hmem : ∀ e, e ∈ seen ↔ ∃ i log, s.get? i = some log ∧ e ∈ log := by
    intro e
    simp only [seen, List.map_flatMap, List.mem_flatMap, Prod.exists, Dict.mem_inOrder,
      List.map_map, Function.comp_def, List.map_id']
  have hstart : Holds Dict.empty [] := fun seq digest => by simp [Dict.get?, Dict.empty]
  rw [checkTotalOrderAgreement]
  rcases @agreeOnLogs_spec processID [] Dict.empty
      ((s.inOrder o).flatMap fun log => log.2.map (Prod.mk log.1)) hstart with
    ⟨perSeq, heq, hholds⟩ | ⟨result, heq, hfailed, hdisagree⟩
  · simp only [heq, true_iff]
    intro i log hi j log' hj e he e' he' hseq
    by_contra hne
    exact hholds.not_disagree
      ⟨e, (hmem e).mpr ⟨i, log, hi, he⟩, e', (hmem e').mpr ⟨j, log', hj, he'⟩, hseq, hne⟩
  · simp only [heq, hfailed, Bool.false_eq_true, false_iff]
    intro hagree
    obtain ⟨e, he, e', he', hseq, hne⟩ := hdisagree
    obtain ⟨i, log, hi, hlog⟩ := (hmem e).mp he
    obtain ⟨j, log', hj, hlog'⟩ := (hmem e').mp he'
    exact hne (hagree i log hi j log' hj e hlog e' hlog' hseq)

end Agreement

/-! ## Executions are numbered -/

section Numbered

variable {D : Deployment} {w : Cluster} {n : ℕ} {digestOf : ClientRequest → String}
  {P : PBFTMessage → Prop} {R : LogEntry → Prop} {Q : ℤ → ℤ → String → Prop} {rs rs' : RunState}

/-- The replica has executed the sequence numbers up to the last one, in this order. -/
structure RunState.Numbered (rs : RunState) : Prop where
  last : rs.lastExecuted = rs.executions.length
  seqs : rs.executions.map (·.seq) = (List.range rs.executions.length).map fun k : ℕ => (k : ℤ) + 1

theorem RunState.Acts.numbered
    (hact : Acts n digestOf P R Q rs rs')
    (h : rs.Numbered) :
    rs'.Numbered := by
  cases hact with
  | quiet hq =>
      constructor
      · rw [hq.lastExecuted, hq.executions]
        exact h.last
      · rw [hq.executions]
        exact h.seqs
  | execute =>
      constructor
      · simp [RunState.execute, h.last]
      · simp [RunState.execute, h.last, h.seqs, List.range_succ]
  | _ => exact ⟨h.last, h.seqs⟩

theorem RunState.Runs.numbered
    (hruns : Runs n digestOf P R Q rs rs')
    (h : rs.Numbered) :
    rs'.Numbered := by
  induction hruns with
  | refl => exact h
  | tail _ hact ih => exact hact.numbered ih

/-- Every replica executes the sequence numbers one after the other. -/
theorem reachable_numbered
    {ok : Cluster → ℕ × Event → Prop}
    (h : (cluster D).Reachable ok w) :
    ∀ i, (w i).rs.Numbered := by
  refine Nodes.reachable_invariant (N := nodes D) (R := fun _ _ => True)
    (I := fun w i => (w i).rs.Numbered) (fun _ => trivial) ?_ ?_ ?_ h
  · exact fun i => ⟨rfl, rfl⟩
  · intro w i e hreach hw _ henabled
    refine ⟨trivial, fun _ => ?_⟩
    rw [Function.update_self]
    exact (Replica.handle_runs (R := fun _ => True) (Q := fun _ _ _ => True)
      (Cluster.sound hreach) henabled (fun _ _ _ _ => trivial)
      fun _ _ _ _ _ _ => trivial).numbered (hw i)
  · intro w w' i _ heq hi
    rw [heq]
    exact hi

theorem doubleExecution_eq_none
    {processID : ℕ → String} {replica : ℕ} {log : List ExecutionEntry} {seen : Finset ℤ}
    (hnodup : (log.map (·.seq)).Nodup)
    (hseen : ∀ e ∈ log, e.seq ∉ seen) :
    doubleExecution processID replica log seen = none := by
  induction log generalizing seen with
  | nil => rfl
  | cons e log ih =>
      rw [List.map_cons, List.nodup_cons] at hnodup
      rw [doubleExecution, if_neg (hseen e List.mem_cons_self)]
      refine ih hnodup.2 fun e' he' hmem => ?_
      rcases Finset.mem_insert.mp hmem with heq | hold
      · exact hnodup.1 (List.mem_map.mpr ⟨e', he', heq⟩)
      · exact hseen e' (List.mem_cons_of_mem _ he') hold

/-- **No double execution.**  After every run, with faulty replicas and view changes, the
check passes on the logs of the others in whatever order it visits them: each of them has
executed the sequence numbers from 1 on, one after the other. -/
theorem checkNoDoubleExecution_passed
    (h : (cluster D).Reachable System.anyStep w) :
    (∀ i, (w i).rs.executions.map (·.seq) =
        (List.range (w i).rs.executions.length).map fun k : ℕ => (k : ℤ) + 1) ∧
      ∀ processID o, (checkNoDoubleExecution processID o (w.executedLogs D)).passed = true := by
  refine ⟨fun i => (reachable_numbered h i).seqs, fun processID o => ?_⟩
  have hnone : ((w.executedLogs D).inOrder o).findSome?
      (fun log => doubleExecution processID log.1 log.2 ∅) = none := by
    rw [List.findSome?_eq_none_iff]
    rintro ⟨i, log⟩ hlog
    have hentry := Dict.mem_entries_iff.mpr (Dict.mem_inOrder.mp hlog)
    obtain ⟨j, -, heq⟩ := List.mem_map.mp hentry
    obtain ⟨rfl, rfl⟩ := Prod.mk.inj heq
    refine doubleExecution_eq_none ?_ fun e _ => Finset.notMem_empty e.seq
    rw [(reachable_numbered h _).seqs]
    exact List.nodup_range.map fun k k' (hk : (k : ℤ) + 1 = (k' : ℤ) + 1) => by omega
  rw [checkNoDoubleExecution, hnone]

/-- The check on a run in which a request is executed. -/
theorem checkNoDoubleExecution_passed_faultyPrimary :
    ∃ w, (cluster Cluster.faultyPrimary).Reachable System.anyStep w ∧
      ⟨1, "B", "B"⟩ ∈ (w 1).rs.executions ∧ ∀ processID o,
        (checkNoDoubleExecution processID o (w.executedLogs Cluster.faultyPrimary)).passed = true := by
  obtain ⟨w, hreach, hexecuted⟩ : ∃ w, (cluster Cluster.faultyPrimary).Reachable System.anyStep w ∧
      ⟨1, "B", "B"⟩ ∈ (w 1).rs.executions := by
    refine System.exists_reaches_of_exec Cluster.executeRun ?_
    decide +kernel
  exact ⟨w, hreach, hexecuted, (checkNoDoubleExecution_passed hreach).2⟩

end Numbered

end GoPbft
end DistributedConsensus
