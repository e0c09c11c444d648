import DistributedConsensus.Coordinator.Commands

/-!
# Coordinator: the command processor

Every command is applied in a transaction: it either changes the tables as a
whole or throws and changes nothing.  A command that was applied before is not
applied again.
-/

namespace DistributedConsensus
namespace Coordinator

open Foundations
open Raft (Guid)

/-- The reasons for which a command is not applied. -/
inductive ApplyError where
  | experimentExists (experimentId : Guid)
  | notAssigned (experimentId : Guid)
  | notCompleted (experimentId : Guid)
  | experimentMissing (experimentId : Guid)
  | notCancelled (experimentId : Guid)
  | cancellationNotRequested (experimentId : Guid)
  | notCancellable (experimentId : Guid) (status : ExperimentStatus)
  | notRecoverable (experimentId : Guid)
  | cancellationMismatch
  | notRecovered (experimentId : Guid)
  | notRecoveredOnStartup (experimentId : Guid)
  | commandReused (commandId : Guid)
  | danglingCommand (commandId : Guid)
  | duplicateKey (key : Guid)
  | foreignKeyViolated (experimentId : Guid)
deriving DecidableEq

/-- The outcome of a command: the experiment and whether the command had been
applied before. -/
structure CommandApplicationResult where
  value : ExperimentEntity
  wasAlreadyApplied : Bool

namespace Database

/-- Update the experiment with a key, if it meets a condition; the number of
updated rows is returned with the tables. -/
def executeUpdate (db : Database) (experimentId : Guid) (condition : ExperimentEntity → Bool)
    (setters : ExperimentEntity → ExperimentEntity) : Database × Nat :=
  match db.experiments.get? experimentId with
  | none => (db, 0)
  | some experiment =>
      if condition experiment then
        ({ db with experiments := db.experiments.set experimentId (setters experiment) }, 1)
      else (db, 0)

/-- Add an experiment. -/
def addExperiment (generate : ValueGenerator) (db : Database) (id : Guid)
    (experiment : ExperimentEntity) : Except ApplyError Database :=
  let key := keyOnAdd generate db.experiments.keys id
  if db.experiments.contains key then .error (.duplicateKey key)
  else .ok { db with experiments := db.experiments.set key experiment }

/-- Add an event; its experiment must exist. -/
def addExperimentEvent (generate : ValueGenerator) (db : Database) (id : Guid)
    (event : ExperimentEventEntity) : Except ApplyError Database :=
  let key := keyOnAdd generate db.experimentEvents.keys id
  if db.experimentEvents.contains key then .error (.duplicateKey key)
  else if !db.experiments.contains event.experimentId then
    .error (.foreignKeyViolated event.experimentId)
  else .ok { db with experimentEvents := db.experimentEvents.set key event }

/-- Remember that a command has been applied. -/
def addAppliedCommand (generate : ValueGenerator) (db : Database) (command : CoordinatorCommand)
    (experimentId : Guid) : Except ApplyError Database :=
  let key := keyOnAdd generate db.appliedCommands.keys command.commandId
  if db.appliedCommands.contains key then .error (.duplicateKey key)
  else .ok { db with
    appliedCommands := db.appliedCommands.set key
      ⟨command.commandType, experimentId, command.occurredAtUtc⟩ }

/-- The experiment of a command that has been applied before. -/
def getPreviouslyAppliedResult (db : Database) (command : CoordinatorCommand)
    (experimentId : Guid) : Except ApplyError (Option ExperimentEntity) :=
  match db.appliedCommands.get? command.commandId with
  | none => .ok none
  | some appliedCommand =>
      if appliedCommand.commandType ≠ command.commandType ∨
          appliedCommand.experimentId ≠ experimentId then
        .error (.commandReused command.commandId)
      else
        match db.experiments.get? appliedCommand.experimentId with
        | none => .error (.danglingCommand command.commandId)
        | some experiment => .ok (some experiment)

/-- Add the event of a command, if it has one. -/
def addCommandEvent (generate : ValueGenerator) (db : Database) (command : CoordinatorCommand) :
    Option ExperimentEventEntity → Except ApplyError Database
  | none => .ok db
  | some event => db.addExperimentEvent generate command.eventId event

/-- Save the event and the command and return the experiment. -/
def saveChanges (generate : ValueGenerator) (db : Database) (command : CoordinatorCommand)
    (event : Option ExperimentEventEntity) :
    Except ApplyError (Database × CommandApplicationResult) :=
  match db.addCommandEvent generate command event with
  | .error e => .error e
  | .ok db =>
      match db.addAppliedCommand generate command command.experimentId with
      | .error e => .error e
      | .ok db =>
          match db.experiments.get? command.experimentId with
          | none => .error (.experimentMissing command.experimentId)
          | some experiment => .ok (db, ⟨experiment, false⟩)

/-- Update the experiment of a command and save the changes; exactly one row must
have been updated. -/
def updateAndSave (generate : ValueGenerator) (db : Database) (command : CoordinatorCommand)
    (condition : ExperimentEntity → Bool) (setters : ExperimentEntity → ExperimentEntity)
    (failure : ApplyError) (event : ExperimentEventEntity) :
    Except ApplyError (Database × CommandApplicationResult) :=
  let (db, updatedRows) := db.executeUpdate command.experimentId condition setters
  if updatedRows ≠ 1 then .error failure
  else db.saveChanges generate command (some event)

/-- Apply a command unless it has been applied before. -/
def unlessApplied (db : Database) (command : CoordinatorCommand)
    (apply : Except ApplyError (Database × CommandApplicationResult)) :
    Except ApplyError (Database × CommandApplicationResult) :=
  match db.getPreviouslyAppliedResult command command.experimentId with
  | .error e => .error e
  | .ok (some previousResult) => .ok (db, ⟨previousResult, true⟩)
  | .ok none => apply

/-! ## The six commands -/

section Apply

variable (generate : ValueGenerator) (db : Database)

/-- Create an experiment.  A command that was applied before is recognised by
its identity alone. -/
def applyCreateExperiment (command : CreateExperimentCommand) :
    Except ApplyError (Database × CommandApplicationResult) :=
  match db.appliedCommands.get? command.commandId with
  | some appliedCommand =>
      match db.experiments.get? appliedCommand.experimentId with
      | none => .error (.danglingCommand command.commandId)
      | some existingExperiment => .ok (db, ⟨existingExperiment, true⟩)
  | none =>
      if db.experiments.contains command.experimentId then
        .error (.experimentExists command.experimentId)
      else
        let experiment : ExperimentEntity := {
          name := command.name
          algorithm := command.algorithm
          environment := command.environment
          seed := command.seed
          maxSteps := command.maxSteps
          priority := command.priority
          timeoutSeconds := command.timeoutSeconds
          simulateFailure := command.simulateFailure
          status := .pending
          createdAtUtc := command.occurredAtUtc
          assignedWorkerId := none
          finishedAtUtc := none
          resultMessage := none
          metricsJson := none
          executionDurationMs := none
          currentStep := none
          progressMetricsJson := none
          lastProgressAtUtc := none
          cancellationRequested := false
          attempt := 0 }
        let createdEvent : ExperimentEventEntity := {
          experimentId := command.experimentId
          type := .created
          occurredAtUtc := command.occurredAtUtc
          workerId := none
          attempt := 0
          details := "Experiment '" ++ experiment.name ++ "' was created for algorithm '" ++
            experiment.algorithm ++ "' and environment '" ++ experiment.environment ++ "'." }
        match db.addExperiment generate command.experimentId experiment with
        | .error e => .error e
        | .ok db => db.saveChanges generate (.createExperiment command) (some createdEvent)

/-- Assign an experiment to a worker. -/
def applyAssignExperiment (command : AssignExperimentCommand) :
    Except ApplyError (Database × CommandApplicationResult) :=
  db.unlessApplied (.assignExperiment command) <|
    db.updateAndSave generate (.assignExperiment command)
      (fun experiment => decide (experiment.status = .pending) &&
        decide (experiment.attempt = command.attempt - 1))
      (fun experiment => { experiment with
        status := .running
        assignedWorkerId := some command.workerId
        attempt := command.attempt
        finishedAtUtc := none
        resultMessage := none
        metricsJson := none
        executionDurationMs := none
        currentStep := none
        progressMetricsJson := none
        lastProgressAtUtc := none
        cancellationRequested := false })
      (.notAssigned command.experimentId)
      { experimentId := command.experimentId
        type := .assigned
        occurredAtUtc := command.occurredAtUtc
        workerId := some command.workerId
        attempt := command.attempt
        details := "Experiment was assigned to worker '" ++ command.workerId ++ "'." }

/-- The status in which a completed experiment ends. -/
def finalStatus (command : CompleteExperimentCommand) : ExperimentStatus :=
  if command.wasCancelled then .cancelled
  else if command.succeeded then .completed
  else .failed

/-- Complete an experiment. -/
def applyCompleteExperiment (command : CompleteExperimentCommand) :
    Except ApplyError (Database × CommandApplicationResult) :=
  db.unlessApplied (.completeExperiment command) <|
    db.updateAndSave generate (.completeExperiment command)
      (fun experiment => decide (experiment.status = .running) &&
        decide (experiment.assignedWorkerId = some command.workerId) &&
        decide (experiment.attempt = command.attempt) &&
        decide (experiment.cancellationRequested = command.wasCancelled))
      (fun experiment => { experiment with
        status := finalStatus command
        finishedAtUtc := some command.occurredAtUtc
        resultMessage := command.resultMessage
        metricsJson := command.metricsJson
        executionDurationMs := command.executionDurationMs
        cancellationRequested := command.wasCancelled })
      (.notCompleted command.experimentId)
      { experimentId := command.experimentId
        type :=
          if command.wasCancelled then .cancelled
          else if command.succeeded then .completed
          else .failed
        occurredAtUtc := command.occurredAtUtc
        workerId := some command.workerId
        attempt := command.attempt
        details :=
          if command.wasCancelled then "Experiment execution was cancelled."
          else if command.succeeded then "Experiment completed successfully."
          else "Experiment failed. " ++ command.resultMessage.getD "" }

/-- Request the cancellation of an experiment. -/
def applyRequestExperimentCancellation (command : RequestExperimentCancellationCommand) :
    Except ApplyError (Database × CommandApplicationResult) :=
  db.unlessApplied (.requestExperimentCancellation command) <|
    match db.experiments.get? command.experimentId with
    | none => .error (.experimentMissing command.experimentId)
    | some existingExperiment =>
        match existingExperiment.status with
        | .pending =>
            db.updateAndSave generate (.requestExperimentCancellation command)
              (fun experiment => decide (experiment.status = .pending))
              (fun experiment => { experiment with
                status := .cancelled
                cancellationRequested := true
                finishedAtUtc := some command.occurredAtUtc
                resultMessage := some "Experiment was cancelled before execution." })
              (.notCancelled command.experimentId)
              { experimentId := command.experimentId
                type := .cancelled
                occurredAtUtc := command.occurredAtUtc
                workerId := none
                attempt := existingExperiment.attempt
                details := "Experiment was cancelled before execution." }
        | .running =>
            if existingExperiment.cancellationRequested then
              -- The request was made before: only the command is recorded.
              db.saveChanges generate (.requestExperimentCancellation command) none
            else
              db.updateAndSave generate (.requestExperimentCancellation command)
                (fun experiment => decide (experiment.status = .running) &&
                  !experiment.cancellationRequested)
                (fun experiment => { experiment with cancellationRequested := true })
                (.cancellationNotRequested command.experimentId)
                { experimentId := command.experimentId
                  type := .cancelRequested
                  occurredAtUtc := command.occurredAtUtc
                  workerId := existingExperiment.assignedWorkerId
                  attempt := existingExperiment.attempt
                  details := "Cancellation was requested for the running experiment." }
        | status => .error (.notCancellable command.experimentId status)

/-- Return an experiment after the failure of its worker. -/
def applyRequeueExperiment (command : RequeueExperimentCommand) :
    Except ApplyError (Database × CommandApplicationResult) :=
  db.unlessApplied (.requeueExperiment command) <|
    match db.experiments.get? command.experimentId with
    | none => .error (.experimentMissing command.experimentId)
    | some existingExperiment =>
        if existingExperiment.status ≠ .running ∨
            existingExperiment.assignedWorkerId ≠ some command.workerId ∨
            existingExperiment.attempt ≠ command.attempt then
          .error (.notRecoverable command.experimentId)
        else if existingExperiment.cancellationRequested ≠ command.cancelInsteadOfRequeue then
          .error .cancellationMismatch
        else if command.cancelInsteadOfRequeue then
          db.updateAndSave generate (.requeueExperiment command)
            (fun experiment => decide (experiment.status = .running) &&
              decide (experiment.assignedWorkerId = some command.workerId) &&
              decide (experiment.attempt = command.attempt) &&
              experiment.cancellationRequested)
            (fun experiment => { experiment with
              status := .cancelled
              assignedWorkerId := none
              finishedAtUtc := some command.occurredAtUtc
              resultMessage :=
                some "Experiment was cancelled after the worker became unavailable."
              metricsJson := none
              executionDurationMs := none
              currentStep := none
              progressMetricsJson := none
              lastProgressAtUtc := none
              cancellationRequested := true })
            (.notRecovered command.experimentId)
            { experimentId := command.experimentId
              type := .cancelled
              occurredAtUtc := command.occurredAtUtc
              workerId := some command.workerId
              attempt := command.attempt
              details := "Experiment was cancelled after worker '" ++ command.workerId ++
                "' became unavailable." }
        else
          db.updateAndSave generate (.requeueExperiment command)
            (fun experiment => decide (experiment.status = .running) &&
              decide (experiment.assignedWorkerId = some command.workerId) &&
              decide (experiment.attempt = command.attempt) &&
              !experiment.cancellationRequested)
            (fun experiment => { experiment with
              status := .pending
              assignedWorkerId := none
              finishedAtUtc := none
              resultMessage := none
              metricsJson := none
              executionDurationMs := none
              currentStep := none
              progressMetricsJson := none
              lastProgressAtUtc := none
              cancellationRequested := false })
            (.notRecovered command.experimentId)
            { experimentId := command.experimentId
              type := .requeued
              occurredAtUtc := command.occurredAtUtc
              workerId := some command.workerId
              attempt := command.attempt
              details := "Experiment was returned to Pending because worker '" ++
                command.workerId ++ "' became unavailable." }

/-- Return a running experiment after a restart of the coordinator. -/
def applyRecoverExperimentOnStartup (command : RecoverExperimentOnStartupCommand) :
    Except ApplyError (Database × CommandApplicationResult) :=
  db.unlessApplied (.recoverExperimentOnStartup command) <|
    db.updateAndSave generate (.recoverExperimentOnStartup command)
      (fun experiment => decide (experiment.status = .running) &&
        decide (experiment.assignedWorkerId = command.previousWorkerId) &&
        decide (experiment.attempt = command.attempt))
      (fun experiment => { experiment with
        status := .pending
        assignedWorkerId := none
        finishedAtUtc := none
        resultMessage := none
        currentStep := none
        progressMetricsJson := none
        lastProgressAtUtc := none })
      (.notRecoveredOnStartup command.experimentId)
      { experimentId := command.experimentId
        type := .recoveredOnStartup
        occurredAtUtc := command.occurredAtUtc
        workerId := command.previousWorkerId
        attempt := command.attempt
        details := "Experiment was returned to Pending after Coordinator restart." }

/-- Apply a command. -/
def apply : CoordinatorCommand → Except ApplyError (Database × CommandApplicationResult)
  | .createExperiment command => db.applyCreateExperiment generate command
  | .assignExperiment command => db.applyAssignExperiment generate command
  | .completeExperiment command => db.applyCompleteExperiment generate command
  | .requestExperimentCancellation command =>
      db.applyRequestExperimentCancellation generate command
  | .requeueExperiment command => db.applyRequeueExperiment generate command
  | .recoverExperimentOnStartup command => db.applyRecoverExperimentOnStartup generate command

end Apply

end Database

end Coordinator
end DistributedConsensus
