import DistributedConsensus.Coordinator.Lifecycle
import Mathlib.Data.List.Sort

/-!
# Coordinator: the experiment registry

The queries by which the scheduler and the workers choose experiments, and the
reports of progress, which change a row without a command.  Where the source
sorts and takes the first row, the rows stand in the order of their insertion
and the sort is stable.
-/

namespace DistributedConsensus
namespace Coordinator

open Foundations
open Raft (Guid)

/-- The experiment waits for a worker. -/
def ExperimentEntity.isPending (experiment : ExperimentEntity) : Bool :=
  decide (experiment.status = .pending)

/-- The experiment runs on a worker. -/
def ExperimentEntity.isRunningOn (experiment : ExperimentEntity) (workerId : String) : Bool :=
  decide (experiment.status = .running) && decide (experiment.assignedWorkerId = some workerId)

/-- The order of the creation of experiments. -/
def createdBefore (a b : Guid × ExperimentEntity) : Bool :=
  decide (a.2.createdAtUtc ≤ b.2.createdAtUtc)

/-- The order by descending priority, then by creation. -/
def urgentBefore (a b : Guid × ExperimentEntity) : Bool :=
  decide (b.2.priority < a.2.priority) ||
    (decide (a.2.priority = b.2.priority) && createdBefore a b)

namespace Database

/-- The experiment with an identity. -/
def getById (db : Database) (id : Guid) : Option ExperimentEntity :=
  db.experiments.get? id

/-- The oldest experiment that runs on a worker and whose cancellation has not
been requested. -/
def getNextAssignedToWorker (db : Database) (workerId : String) :
    Option (Guid × ExperimentEntity) :=
  ((db.experiments.entries.filter
    (fun e => e.2.isRunningOn workerId && !e.2.cancellationRequested)).insertionSort
    (fun a b => createdBefore a b = true)).head?

/-- The pending experiment of the highest priority, the oldest of these. -/
def getNextPending (db : Database) : Option (Guid × ExperimentEntity) :=
  ((db.experiments.entries.filter (fun e => e.2.isPending)).insertionSort
    (fun a b => urgentBefore a b = true)).head?

/-- Whether an experiment runs on a worker. -/
def hasRunningExperiment (db : Database) (workerId : String) : Bool :=
  db.experiments.values.any (fun e => e.isRunningOn workerId)

/-- Record the progress that a worker reports; the number of updated rows is
returned with the tables. -/
def tryReportProgress (db : Database) (id : Guid) (workerId : String) (attempt : Int32)
    (currentStep : Int32) (progressMetricsJson : Option String)
    (lastProgressAtUtc : DateTimeOffset) : Database × Nat :=
  db.executeUpdate id
    (fun experiment => experiment.isRunningOn workerId &&
      decide (experiment.attempt = attempt) &&
      !experiment.cancellationRequested &&
      experiment.currentStep.all (fun step => decide (step ≤ currentStep)))
    (fun experiment => { experiment with
      currentStep := some currentStep
      progressMetricsJson := progressMetricsJson
      lastProgressAtUtc := some lastProgressAtUtc })

end Database

/-! ## What the queries return -/

section Queries

variable {db : Database} {id : Guid} {row : ExperimentEntity} {workerId : String}

theorem isRunningOn_iff :
    row.isRunningOn workerId = true ↔
      row.status = .running ∧ row.assignedWorkerId = some workerId := by
  simp [ExperimentEntity.isRunningOn]

/-- The next pending experiment is pending. -/
theorem getNextPending_spec
    (h : db.getNextPending = some (id, row)) :
    db.experiments.get? id = some row ∧ row.status = .pending := by
  have hmem := List.mem_of_head? h
  rw [List.mem_insertionSort, List.mem_filter] at hmem
  obtain ⟨hentry, hpending⟩ := hmem
  exact ⟨Dict.get?_of_mem_entries hentry, of_decide_eq_true hpending⟩

/-- A worker has no running experiment exactly if no row says so. -/
theorem hasRunningExperiment_eq_false_iff :
    db.hasRunningExperiment workerId = false ↔
      ∀ id row, db.experiments.get? id = some row → row.isRunningOn workerId = false := by
  unfold Database.hasRunningExperiment
  rw [List.any_eq_false]
  constructor
  · intro hnone id row hrow
    exact Bool.eq_false_iff.mpr (hnone row (Dict.mem_values_of_get? hrow))
  · intro hnone row hrow
    obtain ⟨⟨id, row'⟩, hentry, rfl⟩ := List.mem_map.mp hrow
    rw [hnone id row' (Dict.get?_of_mem_entries hentry)]
    exact Bool.false_ne_true

/-- The experiment that a worker is given runs on it. -/
theorem getNextAssignedToWorker_spec
    (h : db.getNextAssignedToWorker workerId = some (id, row)) :
    db.experiments.get? id = some row ∧ row.isRunningOn workerId = true ∧
      row.cancellationRequested = false := by
  have hmem := List.mem_of_head? h
  rw [List.mem_insertionSort, List.mem_filter, Bool.and_eq_true, Bool.not_eq_true'] at hmem
  obtain ⟨hentry, hrunning, hclear⟩ := hmem
  exact ⟨Dict.get?_of_mem_entries hentry, hrunning, hclear⟩

/-- The only experiment that runs on a worker is given to it, unless its
cancellation has been requested. -/
theorem getNextAssignedToWorker_of_unique
    (hrow : db.experiments.get? id = some row)
    (hrunning : row.isRunningOn workerId = true)
    (hclear : row.cancellationRequested = false)
    (hunique : ∀ id' row', db.experiments.get? id' = some row' →
      row'.isRunningOn workerId = true → id' = id) :
    db.getNextAssignedToWorker workerId = some (id, row) := by
  cases hnext : db.getNextAssignedToWorker workerId with
  | none =>
      have hsorted := List.head?_eq_none_iff.mp hnext
      have hlength := congrArg List.length hsorted
      rw [List.length_insertionSort, List.length_nil, List.length_eq_zero_iff] at hlength
      have hempty := List.filter_eq_nil_iff.mp hlength
      exact absurd (by simp [hrunning, hclear]) (hempty _ (Dict.mem_entries_of_get? hrow))
  | some e =>
      obtain ⟨id', row'⟩ := e
      obtain ⟨hrow', hrunning', -⟩ := getNextAssignedToWorker_spec hnext
      obtain rfl := hunique id' row' hrow' hrunning'
      rw [hrow] at hrow'
      rw [Option.some.inj hrow']

/-- Progress leaves the lifecycles, the events and the applied commands alone. -/
theorem tryReportProgress_frame
    {db' : Database} {attempt currentStep : Int32} {metrics : Option String}
    {now : DateTimeOffset} {updated : Nat}
    (h : db.tryReportProgress id workerId attempt currentStep metrics now = (db', updated)) :
    (∀ id', (db'.experiments.get? id').map lifecycleOf =
      (db.experiments.get? id').map lifecycleOf) ∧
      db'.experimentEvents = db.experimentEvents ∧
      db'.appliedCommands = db.appliedCommands := by
  unfold Database.tryReportProgress Database.executeUpdate at h
  split at h
  case h_1 =>
    cases h
    exact ⟨fun _ => rfl, rfl, rfl⟩
  case h_2 row hrow =>
    split at h
    case isTrue =>
      cases h
      refine ⟨?_, rfl, rfl⟩
      intro id'
      rw [Dict.get?_set]
      by_cases hid : id' = id
      · rw [if_pos hid, hid, hrow]
        rfl
      · rw [if_neg hid]
    case isFalse =>
      cases h
      exact ⟨fun _ => rfl, rfl, rfl⟩

end Queries

end Coordinator
end DistributedConsensus
