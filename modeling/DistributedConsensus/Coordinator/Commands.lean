import DistributedConsensus.Coordinator.Raft.Log
import DistributedConsensus.Foundations.Dict

/-!
# Coordinator: commands and tables

The six commands that change experiments, and the tables they act on.  A table
maps primary keys to the rest of the row, so keys are unique by construction.

A key that is empty when a row is added is replaced by a generated one; the
generator belongs to the database library and is a parameter.
-/

namespace DistributedConsensus
namespace Coordinator

open Foundations
open Raft (Guid)

/-- A point in time. -/
abbrev DateTimeOffset := Int

inductive ExperimentStatus where
  | pending
  | running
  | completed
  | failed
  | cancelled
deriving DecidableEq, Repr

inductive ExperimentEventType where
  | created
  | assigned
  | completed
  | failed
  | requeued
  | recoveredOnStartup
  | cancelRequested
  | cancelled
deriving DecidableEq

/-! ## Commands -/

structure CreateExperimentCommand where
  commandId : Guid
  occurredAtUtc : DateTimeOffset
  experimentId : Guid
  eventId : Guid
  name : String
  algorithm : String
  environment : String
  seed : Int32
  maxSteps : Int32
  priority : Int32
  timeoutSeconds : Int32
  simulateFailure : Bool
deriving DecidableEq

structure AssignExperimentCommand where
  commandId : Guid
  occurredAtUtc : DateTimeOffset
  experimentId : Guid
  eventId : Guid
  workerId : String
  attempt : Int32
deriving DecidableEq

structure CompleteExperimentCommand where
  commandId : Guid
  occurredAtUtc : DateTimeOffset
  experimentId : Guid
  eventId : Guid
  workerId : String
  attempt : Int32
  succeeded : Bool
  wasCancelled : Bool
  resultMessage : Option String
  metricsJson : Option String
  executionDurationMs : Option Int64
deriving DecidableEq

structure RequestExperimentCancellationCommand where
  commandId : Guid
  occurredAtUtc : DateTimeOffset
  experimentId : Guid
  eventId : Guid
deriving DecidableEq

structure RequeueExperimentCommand where
  commandId : Guid
  occurredAtUtc : DateTimeOffset
  experimentId : Guid
  eventId : Guid
  workerId : String
  attempt : Int32
  cancelInsteadOfRequeue : Bool
deriving DecidableEq

structure RecoverExperimentOnStartupCommand where
  commandId : Guid
  occurredAtUtc : DateTimeOffset
  experimentId : Guid
  eventId : Guid
  previousWorkerId : Option String
  attempt : Int32
deriving DecidableEq

/-- A command of the coordinator. -/
inductive CoordinatorCommand where
  | createExperiment (command : CreateExperimentCommand)
  | assignExperiment (command : AssignExperimentCommand)
  | completeExperiment (command : CompleteExperimentCommand)
  | requestExperimentCancellation (command : RequestExperimentCancellationCommand)
  | requeueExperiment (command : RequeueExperimentCommand)
  | recoverExperimentOnStartup (command : RecoverExperimentOnStartupCommand)
deriving DecidableEq

namespace CoordinatorCommand

def commandId : CoordinatorCommand → Guid
  | createExperiment c => c.commandId
  | assignExperiment c => c.commandId
  | completeExperiment c => c.commandId
  | requestExperimentCancellation c => c.commandId
  | requeueExperiment c => c.commandId
  | recoverExperimentOnStartup c => c.commandId

def occurredAtUtc : CoordinatorCommand → DateTimeOffset
  | createExperiment c => c.occurredAtUtc
  | assignExperiment c => c.occurredAtUtc
  | completeExperiment c => c.occurredAtUtc
  | requestExperimentCancellation c => c.occurredAtUtc
  | requeueExperiment c => c.occurredAtUtc
  | recoverExperimentOnStartup c => c.occurredAtUtc

def experimentId : CoordinatorCommand → Guid
  | createExperiment c => c.experimentId
  | assignExperiment c => c.experimentId
  | completeExperiment c => c.experimentId
  | requestExperimentCancellation c => c.experimentId
  | requeueExperiment c => c.experimentId
  | recoverExperimentOnStartup c => c.experimentId

def eventId : CoordinatorCommand → Guid
  | createExperiment c => c.eventId
  | assignExperiment c => c.eventId
  | completeExperiment c => c.eventId
  | requestExperimentCancellation c => c.eventId
  | requeueExperiment c => c.eventId
  | recoverExperimentOnStartup c => c.eventId

/-- The name of the command's type, which is stored with it. -/
def commandType : CoordinatorCommand → String
  | createExperiment _ => "CreateExperimentCommand"
  | assignExperiment _ => "AssignExperimentCommand"
  | completeExperiment _ => "CompleteExperimentCommand"
  | requestExperimentCancellation _ => "RequestExperimentCancellationCommand"
  | requeueExperiment _ => "RequeueExperimentCommand"
  | recoverExperimentOnStartup _ => "RecoverExperimentOnStartupCommand"

end CoordinatorCommand

/-! ## Tables -/

/-- A row of the experiments without its key. -/
structure ExperimentEntity where
  name : String
  status : ExperimentStatus
  createdAtUtc : DateTimeOffset
  assignedWorkerId : Option String
  finishedAtUtc : Option DateTimeOffset
  resultMessage : Option String
  simulateFailure : Bool
  attempt : Int32
  algorithm : String
  environment : String
  seed : Int32
  maxSteps : Int32
  priority : Int32
  metricsJson : Option String
  currentStep : Option Int32
  progressMetricsJson : Option String
  lastProgressAtUtc : Option DateTimeOffset
  executionDurationMs : Option Int64
  cancellationRequested : Bool
  timeoutSeconds : Int32
deriving DecidableEq

/-- A row of the experiment events without its key. -/
structure ExperimentEventEntity where
  experimentId : Guid
  type : ExperimentEventType
  occurredAtUtc : DateTimeOffset
  workerId : Option String
  attempt : Int32
  details : String
deriving DecidableEq

/-- A row of the applied commands without its key. -/
structure AppliedCommandEntity where
  commandType : String
  experimentId : Guid
  occurredAtUtc : DateTimeOffset
deriving DecidableEq

/-- The tables that the commands act on. -/
structure Database where
  experiments : Dict Guid ExperimentEntity
  experimentEvents : Dict Guid ExperimentEventEntity
  appliedCommands : Dict Guid AppliedCommandEntity

/-- The tables of a new coordinator. -/
def Database.empty : Database := ⟨Dict.empty, Dict.empty, Dict.empty⟩

/-- The generator of keys: it sees the keys of the table and never returns the
empty one. -/
abbrev ValueGenerator := List Guid → { key : Guid // key ≠ 0 }

/-- The key under which a row is added. -/
def keyOnAdd (generate : ValueGenerator) (keys : List Guid) (id : Guid) : Guid :=
  if id = 0 then (generate keys).val else id

theorem keyOnAdd_of_ne_zero
    {generate : ValueGenerator} {keys : List Guid} {id : Guid}
    (h : id ≠ 0) :
    keyOnAdd generate keys id = id :=
  if_neg h

theorem keyOnAdd_ne_zero (generate : ValueGenerator) (keys : List Guid) (id : Guid) :
    keyOnAdd generate keys id ≠ 0 := by
  unfold keyOnAdd
  split
  · exact (generate keys).property
  · assumption

end Coordinator
end DistributedConsensus
