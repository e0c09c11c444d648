import DistributedConsensus.Coordinator.Registry
import DistributedConsensus.Coordinator.History

/-!
# Coordinator: progress reports and replication

A progress report changes a row without a command, so it happens at one coordinator
only.  No command reads what it changes: a command that is applied with and without
the reported progress is accepted or rejected alike, and leaves the same tables up to
the progress (`apply_withoutProgress`).  So coordinators that apply the same commands
agree up to progress, whatever is reported to each of them (`progress_not_observed`).
-/

namespace DistributedConsensus
namespace Coordinator

open Foundations
open Raft (Guid)

/-- The row without the columns that a progress report sets. -/
def ExperimentEntity.withoutProgress (experiment : ExperimentEntity) : ExperimentEntity :=
  { experiment with
    currentStep := none
    progressMetricsJson := none
    lastProgressAtUtc := none }

/-- The tables without progress. -/
def Database.withoutProgress (db : Database) : Database :=
  { db with experiments := db.experiments.mapValues ExperimentEntity.withoutProgress }

/-- The tables and the result of a command without progress. -/
def outcomeWithoutProgress :
    Database × CommandApplicationResult → Database × CommandApplicationResult
  | (db, r) => (db.withoutProgress, ⟨r.value.withoutProgress, r.wasAlreadyApplied⟩)

/-! ## Commands do not read progress -/

section Commands

variable {generate : ValueGenerator} {db : Database}

@[simp] theorem experimentEvents_withoutProgress :
    db.withoutProgress.experimentEvents = db.experimentEvents := rfl

@[simp] theorem appliedCommands_withoutProgress :
    db.withoutProgress.appliedCommands = db.appliedCommands := rfl

@[simp] theorem get?_withoutProgress (id : Guid) :
    db.withoutProgress.experiments.get? id =
      (db.experiments.get? id).map ExperimentEntity.withoutProgress := by
  simp [Database.withoutProgress]

@[simp] theorem contains_withoutProgress (id : Guid) :
    db.withoutProgress.experiments.contains id = db.experiments.contains id := by
  simp [Database.withoutProgress]

/-- A row is stored with or without its progress. -/
theorem withoutProgress_set (id : Guid) (row : ExperimentEntity) :
    ({ db with experiments := db.experiments.set id row } : Database).withoutProgress =
      { db.withoutProgress with
        experiments := db.withoutProgress.experiments.set id row.withoutProgress } := by
  simp [Database.withoutProgress, Dict.mapValues_set]

theorem addExperiment_withoutProgress
    (generate : ValueGenerator) (db : Database) (id : Guid) (row : ExperimentEntity) :
    db.withoutProgress.addExperiment generate id row.withoutProgress =
      (db.addExperiment generate id row).map Database.withoutProgress := by
  have hkeys : db.withoutProgress.experiments.keys = db.experiments.keys := by
    simp [Database.withoutProgress]
  unfold Database.addExperiment
  simp only [hkeys, contains_withoutProgress]
  by_cases htaken : db.experiments.contains (keyOnAdd generate db.experiments.keys id) = true
  · rw [if_pos htaken, if_pos htaken]
    rfl
  · rw [if_neg htaken, if_neg htaken, ← withoutProgress_set]
    rfl

theorem addCommandEvent_withoutProgress
    (c : CoordinatorCommand) (event : Option ExperimentEventEntity) :
    db.withoutProgress.addCommandEvent generate c event =
      (db.addCommandEvent generate c event).map Database.withoutProgress := by
  cases event with
  | none => rfl
  | some e =>
      unfold Database.addCommandEvent Database.addExperimentEvent
      simp only [experimentEvents_withoutProgress, contains_withoutProgress]
      by_cases htaken : db.experimentEvents.contains
          (keyOnAdd generate db.experimentEvents.keys c.eventId) = true
      · rw [if_pos htaken, if_pos htaken]
        rfl
      · rw [if_neg htaken, if_neg htaken]
        by_cases hmissing : (!db.experiments.contains e.experimentId) = true
        · rw [if_pos hmissing, if_pos hmissing]
          rfl
        · rw [if_neg hmissing, if_neg hmissing]
          rfl

theorem addAppliedCommand_withoutProgress (c : CoordinatorCommand) (id : Guid) :
    db.withoutProgress.addAppliedCommand generate c id =
      (db.addAppliedCommand generate c id).map Database.withoutProgress := by
  unfold Database.addAppliedCommand
  by_cases htaken : db.appliedCommands.contains
      (keyOnAdd generate db.appliedCommands.keys c.commandId) = true
  · rw [if_pos htaken]
    exact if_pos htaken
  · rw [if_neg htaken]
    exact if_neg htaken

theorem saveChanges_withoutProgress
    (c : CoordinatorCommand) (event : Option ExperimentEventEntity) :
    db.withoutProgress.saveChanges generate c event =
      (db.saveChanges generate c event).map outcomeWithoutProgress := by
  unfold Database.saveChanges
  rw [addCommandEvent_withoutProgress]
  cases db.addCommandEvent generate c event with
  | error e => rfl
  | ok db₁ =>
      simp only [Except.map]
      rw [addAppliedCommand_withoutProgress]
      cases db₁.addAppliedCommand generate c c.experimentId with
      | error e => rfl
      | ok db₂ =>
          simp only [Except.map, get?_withoutProgress]
          cases db₂.experiments.get? c.experimentId with
          | none => rfl
          | some row => rfl

/-- An update that neither tests nor keeps progress, or keeps all of it. -/
theorem executeUpdate_withoutProgress
    {condition : ExperimentEntity → Bool} {setters : ExperimentEntity → ExperimentEntity}
    (id : Guid)
    (hcondition : ∀ row, condition row.withoutProgress = condition row)
    (hsetters : ∀ row, setters row.withoutProgress = (setters row).withoutProgress) :
    db.withoutProgress.executeUpdate id condition setters =
      ((db.executeUpdate id condition setters).1.withoutProgress,
        (db.executeUpdate id condition setters).2) := by
  unfold Database.executeUpdate
  rw [get?_withoutProgress]
  cases db.experiments.get? id with
  | none => rfl
  | some row =>
      simp only [Option.map_some, hcondition, hsetters, ← withoutProgress_set]
      cases condition row with
      | false => rfl
      | true => rfl

theorem updateAndSave_withoutProgress
    {c : CoordinatorCommand} {condition : ExperimentEntity → Bool}
    {setters : ExperimentEntity → ExperimentEntity} {failure : ApplyError}
    {event : ExperimentEventEntity}
    (hcondition : ∀ row, condition row.withoutProgress = condition row)
    (hsetters : ∀ row, setters row.withoutProgress = (setters row).withoutProgress) :
    db.withoutProgress.updateAndSave generate c condition setters failure event =
      (db.updateAndSave generate c condition setters failure event).map
        outcomeWithoutProgress := by
  unfold Database.updateAndSave
  rw [executeUpdate_withoutProgress _ hcondition hsetters]
  simp only
  by_cases hmissed : (db.executeUpdate c.experimentId condition setters).2 ≠ 1
  · rw [if_pos hmissed, if_pos hmissed]
    rfl
  · rw [if_neg hmissed, if_neg hmissed]
    exact saveChanges_withoutProgress _ _

theorem unlessApplied_withoutProgress
    {c : CoordinatorCommand}
    {result result' : Except ApplyError (Database × CommandApplicationResult)}
    (h : result' = result.map outcomeWithoutProgress) :
    db.withoutProgress.unlessApplied c result' =
      (db.unlessApplied c result).map outcomeWithoutProgress := by
  unfold Database.unlessApplied Database.getPreviouslyAppliedResult
  rw [appliedCommands_withoutProgress]
  cases db.appliedCommands.get? c.commandId with
  | none => exact h
  | some record =>
      simp only [get?_withoutProgress]
      by_cases hreused : record.commandType ≠ c.commandType ∨ record.experimentId ≠ c.experimentId
      · simp only [if_pos hreused]
        rfl
      · simp only [if_neg hreused]
        cases db.experiments.get? record.experimentId with
        | none => rfl
        | some row => rfl

/-- A row without progress is added and saved. -/
theorem addAndSave_withoutProgress
    {c : CoordinatorCommand} {id : Guid} {row : ExperimentEntity}
    {event : Option ExperimentEventEntity}
    (hrow : row.withoutProgress = row) :
    (match db.withoutProgress.addExperiment generate id row with
      | .error e => .error e
      | .ok db₁ => db₁.saveChanges generate c event) =
    Except.map outcomeWithoutProgress
      (match db.addExperiment generate id row with
        | .error e => .error e
        | .ok db₁ => db₁.saveChanges generate c event) := by
  have hadd := addExperiment_withoutProgress generate db id row
  rw [hrow] at hadd
  rw [hadd]
  cases db.addExperiment generate id row with
  | error e => rfl
  | ok db₁ => exact saveChanges_withoutProgress c event

theorem applyCreateExperiment_withoutProgress (command : CreateExperimentCommand) :
    db.withoutProgress.applyCreateExperiment generate command =
      (db.applyCreateExperiment generate command).map outcomeWithoutProgress := by
  unfold Database.applyCreateExperiment
  rw [appliedCommands_withoutProgress, contains_withoutProgress]
  cases db.appliedCommands.get? command.commandId with
  | some record =>
      simp only [get?_withoutProgress]
      cases db.experiments.get? record.experimentId with
      | none => rfl
      | some row => rfl
  | none =>
      simp only
      by_cases htaken : db.experiments.contains command.experimentId = true
      · rw [if_pos htaken, if_pos htaken]
        rfl
      · rw [if_neg htaken, if_neg htaken]
        -- the new row has no progress
        exact addAndSave_withoutProgress rfl

theorem applyRequestExperimentCancellation_withoutProgress
    (command : RequestExperimentCancellationCommand) :
    db.withoutProgress.applyRequestExperimentCancellation generate command =
      (db.applyRequestExperimentCancellation generate command).map outcomeWithoutProgress := by
  refine unlessApplied_withoutProgress ?_
  rw [get?_withoutProgress]
  cases db.experiments.get? command.experimentId with
  | none => rfl
  | some row =>
      simp only [Option.map_some]
      rw [show row.withoutProgress.status = row.status from rfl]
      cases row.status with
      | pending => exact updateAndSave_withoutProgress (fun _ => rfl) (fun _ => rfl)
      | running =>
          simp only
          rw [show row.withoutProgress.cancellationRequested = row.cancellationRequested from rfl]
          cases row.cancellationRequested with
          | true =>
              simp only [if_true]
              exact saveChanges_withoutProgress _ _
          | false =>
              simp only [Bool.false_eq_true, if_false]
              exact updateAndSave_withoutProgress (fun _ => rfl) (fun _ => rfl)
      | completed => rfl
      | failed => rfl
      | cancelled => rfl

theorem applyRequeueExperiment_withoutProgress (command : RequeueExperimentCommand) :
    db.withoutProgress.applyRequeueExperiment generate command =
      (db.applyRequeueExperiment generate command).map outcomeWithoutProgress := by
  refine unlessApplied_withoutProgress ?_
  rw [get?_withoutProgress]
  cases db.experiments.get? command.experimentId with
  | none => rfl
  | some row =>
      simp only [Option.map_some]
      by_cases hother : row.status ≠ .running ∨ row.assignedWorkerId ≠ some command.workerId ∨
          row.attempt ≠ command.attempt
      · rw [if_pos hother]
        exact if_pos hother
      · rw [if_neg hother]
        refine (if_neg hother).trans ?_
        by_cases hmismatch : row.cancellationRequested ≠ command.cancelInsteadOfRequeue
        · rw [if_pos hmismatch]
          exact if_pos hmismatch
        · rw [if_neg hmismatch]
          refine (if_neg hmismatch).trans ?_
          cases command.cancelInsteadOfRequeue with
          | true => exact updateAndSave_withoutProgress (fun _ => rfl) (fun _ => rfl)
          | false => exact updateAndSave_withoutProgress (fun _ => rfl) (fun _ => rfl)

/-- **Commands do not read progress.** -/
theorem apply_withoutProgress (c : CoordinatorCommand) :
    db.withoutProgress.apply generate c =
      (db.apply generate c).map outcomeWithoutProgress := by
  cases c with
  | createExperiment command => exact applyCreateExperiment_withoutProgress command
  | assignExperiment command =>
      exact unlessApplied_withoutProgress
        (updateAndSave_withoutProgress (fun _ => rfl) (fun _ => rfl))
  | completeExperiment command =>
      exact unlessApplied_withoutProgress
        (updateAndSave_withoutProgress (fun _ => rfl) (fun _ => rfl))
  | requestExperimentCancellation command =>
      exact applyRequestExperimentCancellation_withoutProgress command
  | requeueExperiment command => exact applyRequeueExperiment_withoutProgress command
  | recoverExperimentOnStartup command =>
      exact unlessApplied_withoutProgress
        (updateAndSave_withoutProgress (fun _ => rfl) (fun _ => rfl))

/-- A command is processed alike with and without progress. -/
theorem process_withoutProgress (generate : ValueGenerator) (db : Database)
    (c : CoordinatorCommand) :
    db.withoutProgress.process generate c = (db.process generate c).withoutProgress := by
  unfold Database.process
  rw [apply_withoutProgress]
  cases db.apply generate c with
  | error e => rfl
  | ok outcome => rfl

end Commands

/-! ## Commands that bring their keys -/

section Generators

variable {generate generate' : ValueGenerator} {db : Database} {c : CoordinatorCommand}

/-- The command brings the keys of all the rows that it adds. -/
structure CoordinatorCommand.Identified (c : CoordinatorCommand) : Prop where
  command : c.commandId ≠ 0
  event : c.eventId ≠ 0
  experiment : c.experimentId ≠ 0

theorem addCommandEvent_generate
    (h : c.Identified)
    (event : Option ExperimentEventEntity) :
    db.addCommandEvent generate c event = db.addCommandEvent generate' c event := by
  cases event with
  | none => rfl
  | some e =>
      simp only [Database.addCommandEvent, Database.addExperimentEvent,
        keyOnAdd_of_ne_zero h.event]

theorem saveChanges_generate
    (h : c.Identified)
    (event : Option ExperimentEventEntity) :
    db.saveChanges generate c event = db.saveChanges generate' c event := by
  have hevent : db.addCommandEvent generate c event = db.addCommandEvent generate' c event :=
    addCommandEvent_generate h event
  have happlied : ∀ db₁ : Database, db₁.addAppliedCommand generate c c.experimentId =
      db₁.addAppliedCommand generate' c c.experimentId := by
    intro db₁
    simp only [Database.addAppliedCommand, keyOnAdd_of_ne_zero h.command]
  simp only [Database.saveChanges, hevent, happlied]

theorem updateAndSave_generate
    {condition : ExperimentEntity → Bool} {setters : ExperimentEntity → ExperimentEntity}
    {failure : ApplyError} {event : ExperimentEventEntity}
    (h : c.Identified) :
    db.updateAndSave generate c condition setters failure event =
      db.updateAndSave generate' c condition setters failure event := by
  have hsave : ∀ db₁ : Database, db₁.saveChanges generate c (some event) =
      db₁.saveChanges generate' c (some event) :=
    fun _ => saveChanges_generate h (some event)
  simp only [Database.updateAndSave, hsave]

theorem apply_generate
    (h : c.Identified) :
    db.apply generate c = db.apply generate' c := by
  have hsave : ∀ (db₁ : Database) event,
      db₁.saveChanges generate c event = db₁.saveChanges generate' c event :=
    fun _ event => saveChanges_generate h event
  have hupdate : ∀ (db₁ : Database) condition setters failure event,
      db₁.updateAndSave generate c condition setters failure event =
        db₁.updateAndSave generate' c condition setters failure event :=
    fun _ _ _ _ _ => updateAndSave_generate h
  cases c with
  | createExperiment command =>
      have hadd : ∀ row, db.addExperiment generate command.experimentId row =
          db.addExperiment generate' command.experimentId row := by
        intro row
        have hid : command.experimentId ≠ 0 := h.experiment
        simp only [Database.addExperiment, keyOnAdd_of_ne_zero hid]
      simp only [Database.apply, Database.applyCreateExperiment, hadd, hsave]
  | assignExperiment command =>
      simp only [Database.apply, Database.applyAssignExperiment, hupdate]
  | completeExperiment command =>
      simp only [Database.apply, Database.applyCompleteExperiment, hupdate]
  | requestExperimentCancellation command =>
      simp only [Database.apply, Database.applyRequestExperimentCancellation, hupdate, hsave]
  | requeueExperiment command =>
      simp only [Database.apply, Database.applyRequeueExperiment, hupdate]
  | recoverExperimentOnStartup command =>
      simp only [Database.apply, Database.applyRecoverExperimentOnStartup, hupdate]

end Generators

/-! ## Progress at one coordinator -/

/-- What changes the tables of a coordinator: the commands of the log, with the keys
generated for them, and the progress that its own workers report. -/
inductive Operation where
  | command (generate : ValueGenerator) (c : CoordinatorCommand)
  | progress (id : Guid) (workerId : String) (attempt currentStep : Int32)
      (progressMetricsJson : Option String) (lastProgressAtUtc : DateTimeOffset)

/-- The tables after one operation. -/
def Database.perform (db : Database) : Operation → Database
  | .command generate c => db.process generate c
  | .progress id workerId attempt currentStep metrics now =>
      (db.tryReportProgress id workerId attempt currentStep metrics now).1

/-- The tables after some operations. -/
def Database.performAll (db : Database) (operations : List Operation) : Database :=
  operations.foldl Database.perform db

/-- The tables after some commands. -/
def Database.processAll (db : Database) (requests : List (ValueGenerator × CoordinatorCommand)) :
    Database :=
  requests.foldl (fun db request => db.process request.1 request.2) db

/-- The commands among the operations. -/
def commandsOf : List Operation → List (ValueGenerator × CoordinatorCommand)
  | [] => []
  | .command generate c :: operations => (generate, c) :: commandsOf operations
  | .progress .. :: operations => commandsOf operations

/-- The same command at two coordinators.  The keys that it brings are used at both;
those that it does not bring have to be generated alike. -/
def SameCommand (request request' : ValueGenerator × CoordinatorCommand) : Prop :=
  request.2 = request'.2 ∧ (request.1 = request'.1 ∨ request.2.Identified)

section Coordinators

variable {db : Database} {request request' : ValueGenerator × CoordinatorCommand}

/-- A report changes nothing but progress. -/
theorem tryReportProgress_withoutProgress
    (id : Guid) (workerId : String) (attempt currentStep : Int32) (metrics : Option String)
    (now : DateTimeOffset) :
    (db.tryReportProgress id workerId attempt currentStep metrics now).1.withoutProgress =
      db.withoutProgress := by
  unfold Database.tryReportProgress Database.executeUpdate
  cases hrow : db.experiments.get? id with
  | none => rfl
  | some row =>
      simp only
      split
      case isTrue =>
        -- the stored row is the old one up to progress
        rw [withoutProgress_set]
        have hsame : db.withoutProgress.experiments.get? id = some row.withoutProgress := by
          simp [hrow]
        exact congrArg (fun experiments => { db.withoutProgress with experiments := experiments })
          (Dict.set_of_get?_eq_some hsame)
      case isFalse => rfl

/-- Operations act on the tables without progress as their commands do. -/
theorem performAll_withoutProgress (operations : List Operation) (db : Database) :
    (db.performAll operations).withoutProgress =
      db.withoutProgress.processAll (commandsOf operations) := by
  induction operations generalizing db with
  | nil => rfl
  | cons operation operations ih =>
      refine (ih (db.perform operation)).trans ?_
      cases operation with
      | command generate c =>
          exact congrArg (fun db₁ => Database.processAll db₁ (commandsOf operations))
            (process_withoutProgress generate db c).symm
      | progress id workerId attempt currentStep metrics now =>
          exact congrArg (fun db₁ => Database.processAll db₁ (commandsOf operations))
            (tryReportProgress_withoutProgress id workerId attempt currentStep metrics now)

/-- The same command has the same outcome on the same tables. -/
theorem SameCommand.apply_eq
    (h : SameCommand request request') :
    db.apply request.1 request.2 = db.apply request'.1 request'.2 := by
  obtain ⟨hcommand, hgenerate | hidentified⟩ := h
  · rw [hcommand, hgenerate]
  · rw [← hcommand]
    exact apply_generate hidentified

theorem processAll_congr
    {requests requests' : List (ValueGenerator × CoordinatorCommand)}
    (h : List.Forall₂ SameCommand requests requests')
    (db : Database) :
    db.processAll requests = db.processAll requests' := by
  induction h generalizing db with
  | nil => rfl
  | cons hsame _ ih =>
      refine (ih _).trans ?_
      simp only [Database.processAll, List.foldl_cons]
      unfold Database.process
      rw [hsame.apply_eq]

/-- **Progress is not observed.**  Coordinators that have applied the same commands
agree up to progress, whatever progress has been reported to each of them in between,
and go on to accept and reject the same commands with the same outcome. -/
theorem progress_not_observed
    {operations operations' : List Operation}
    (h : List.Forall₂ SameCommand (commandsOf operations) (commandsOf operations')) :
    (Database.empty.performAll operations).withoutProgress =
        (Database.empty.performAll operations').withoutProgress ∧
      ∀ request request', SameCommand request request' →
        ((Database.empty.performAll operations).apply request.1 request.2).map
            outcomeWithoutProgress =
          ((Database.empty.performAll operations').apply request'.1 request'.2).map
            outcomeWithoutProgress := by
  have hagree : (Database.empty.performAll operations).withoutProgress =
      (Database.empty.performAll operations').withoutProgress := by
    rw [performAll_withoutProgress, performAll_withoutProgress]
    exact processAll_congr h _
  refine ⟨hagree, ?_⟩
  intro request request' hsame
  rw [← apply_withoutProgress, ← apply_withoutProgress, hagree, hsame.apply_eq]

end Coordinators

/-- An experiment that runs. -/
def runningOperations : List Operation :=
  [.command unusedGenerator (.createExperiment ⟨1, 0, 1, 1, "", "", "", 0, 0, 0, 0, false⟩),
    .command unusedGenerator (.assignExperiment ⟨2, 0, 1, 2, "worker", 1⟩)]

/-- One coordinator hears of the first step of the experiment, the other does not. -/
theorem progress_not_observed_sample :
    ((Database.empty.performAll
        (runningOperations ++ [.progress 1 "worker" 1 1 none 0])).experiments.get? 1).bind
      ExperimentEntity.currentStep = some 1 ∧
    (Database.empty.performAll
        (runningOperations ++ [.progress 1 "worker" 1 1 none 0])).withoutProgress =
      (Database.empty.performAll runningOperations).withoutProgress := by
  refine ⟨by decide +kernel, (progress_not_observed ?_).1⟩
  exact .cons ⟨rfl, Or.inl rfl⟩ (.cons ⟨rfl, Or.inl rfl⟩ .nil)

end Coordinator
end DistributedConsensus
