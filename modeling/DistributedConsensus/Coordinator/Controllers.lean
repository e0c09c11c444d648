import DistributedConsensus.Coordinator.Registry
import DistributedConsensus.Coordinator.Effects

/-!
# Coordinator: requests without replication

The handlers of the experiment requests and the scheduling cycle of a single
coordinator that does not replicate its commands.  A handler checks its request
against the tables, builds a command and applies it at once; what is refused
changes nothing.

The identities of new commands and events come from the platform, which never
returns one twice.
-/

namespace DistributedConsensus
namespace Coordinator

open Foundations
open Raft (Guid isNullOrWhiteSpace)

/-- What a new command draws from the platform. -/
structure Stamp where
  commandId : Guid
  eventId : Guid
  occurredAtUtc : DateTimeOffset
deriving DecidableEq

/-- The reasons for which a request is refused. -/
inductive Refusal where
  | required (field : String)
  | maxStepsNotPositive
  | priorityOutOfRange
  | timeoutOutOfRange
  | invalidAttempt
  | negativeStep
  | notFound (id : Guid)
  | notRunning (id : Guid)
  | notAssignedTo (id : Guid) (workerId : String)
  | otherAttempt (id : Guid) (current received : Int32)
  | cancellationMismatch
  | afterCancellation
  | stepBeyond (maxSteps : Int32)
  | stepBackwards
  | notRecorded (id : Guid)
  | notCancellable (id : Guid) (status : ExperimentStatus)
  | notApplied (error : ApplyError)

structure CreateExperimentRequest where
  name : String
  algorithm : String
  environment : String
  seed : Int32
  maxSteps : Int32
  priority : Int32
  timeoutSeconds : Int32
  simulateFailure : Bool

structure ReportExperimentProgressRequest where
  workerId : String
  attempt : Int32
  currentStep : Int32
  progressMetricsJson : Option String

structure CompleteExperimentRequest where
  workerId : String
  attempt : Int32
  succeeded : Bool
  wasCancelled : Bool
  resultMessage : Option String
  metricsJson : Option String
  executionDurationMs : Option Int64

/-- An exception that stands for a refused command; the other ones come from the
database. -/
def ApplyError.isInvalidOperation : ApplyError → Bool
  | .duplicateKey _ => false
  | .foreignKeyViolated _ => false
  | _ => true

namespace Database

/-- The identities of a stamp have not been used. -/
def isFresh (db : Database) (stamp : Stamp) : Bool :=
  decide (stamp.commandId ≠ 0) && decide (stamp.eventId ≠ 0) &&
    decide (stamp.commandId ∉ db.appliedCommands.keys) &&
    decide (stamp.eventId ∉ db.experimentEvents.keys)

section Handlers

variable (generate : ValueGenerator) (db : Database)

/-- Apply a command for a request. -/
def applyRequest (command : CoordinatorCommand) : Except Refusal (Database × ExperimentEntity) :=
  match db.apply generate command with
  | .error e => .error (.notApplied e)
  | .ok (db', result) => .ok (db', result.value)

/-- Create an experiment. -/
def create (stamp : Stamp) (experimentId : Guid) (request : CreateExperimentRequest) :
    Except Refusal (Database × ExperimentEntity) :=
  if isNullOrWhiteSpace request.name then .error (.required "Experiment name")
  else if isNullOrWhiteSpace request.algorithm then .error (.required "Algorithm")
  else if isNullOrWhiteSpace request.environment then .error (.required "Environment")
  else if request.maxSteps ≤ 0 then .error .maxStepsNotPositive
  else if request.priority < 0 ∨ 10 < request.priority then .error .priorityOutOfRange
  else if request.timeoutSeconds < 1 ∨ 86400 < request.timeoutSeconds then
    .error .timeoutOutOfRange
  else
    db.applyRequest generate (.createExperiment {
      commandId := stamp.commandId
      occurredAtUtc := stamp.occurredAtUtc
      experimentId := experimentId
      eventId := stamp.eventId
      name := request.name
      algorithm := request.algorithm
      environment := request.environment
      seed := request.seed
      maxSteps := request.maxSteps
      priority := request.priority
      timeoutSeconds := request.timeoutSeconds
      simulateFailure := request.simulateFailure })

/-- Request the cancellation of an experiment. -/
def cancel (stamp : Stamp) (id : Guid) : Except Refusal (Database × ExperimentEntity) :=
  match db.getById id with
  | none => .error (.notFound id)
  | some existingExperiment =>
      if existingExperiment.status = .cancelled then .ok (db, existingExperiment)
      else if existingExperiment.status = .completed ∨ existingExperiment.status = .failed then
        .error (.notCancellable id existingExperiment.status)
      else
        db.applyRequest generate (.requestExperimentCancellation {
          commandId := stamp.commandId
          occurredAtUtc := stamp.occurredAtUtc
          experimentId := id
          eventId := stamp.eventId })

/-- Report the progress of an experiment. -/
def reportProgress (now : DateTimeOffset) (id : Guid) (request : ReportExperimentProgressRequest) :
    Except Refusal (Database × ExperimentEntity) :=
  if isNullOrWhiteSpace request.workerId then .error (.required "WorkerId")
  else if request.attempt ≤ 0 then .error .invalidAttempt
  else if request.currentStep < 0 then .error .negativeStep
  else
    match db.getById id with
    | none => .error (.notFound id)
    | some existingExperiment =>
        if existingExperiment.status ≠ .running then .error (.notRunning id)
        else if existingExperiment.assignedWorkerId ≠ some request.workerId then
          .error (.notAssignedTo id request.workerId)
        else if existingExperiment.attempt ≠ request.attempt then
          .error (.otherAttempt id existingExperiment.attempt request.attempt)
        else if existingExperiment.cancellationRequested then .error .afterCancellation
        else if existingExperiment.maxSteps < request.currentStep then
          .error (.stepBeyond existingExperiment.maxSteps)
        else if existingExperiment.currentStep.any
            (fun step => decide (request.currentStep < step)) then
          .error .stepBackwards
        else
          let (db', updatedRows) := db.tryReportProgress id request.workerId request.attempt
            request.currentStep request.progressMetricsJson now
          match db'.getById id with
          | none => .error (.notRecorded id)
          | some updatedExperiment =>
              if updatedRows = 1 then .ok (db', updatedExperiment) else .error (.notRecorded id)

/-- The command that completes an experiment. -/
def completeCommand (stamp : Stamp) (id : Guid) (request : CompleteExperimentRequest) :
    CompleteExperimentCommand where
  commandId := stamp.commandId
  occurredAtUtc := stamp.occurredAtUtc
  experimentId := id
  eventId := stamp.eventId
  workerId := request.workerId
  attempt := request.attempt
  succeeded := request.succeeded
  wasCancelled := request.wasCancelled
  resultMessage := request.resultMessage
  metricsJson := request.metricsJson
  executionDurationMs := request.executionDurationMs

/-- Complete an experiment. -/
def complete (stamp : Stamp) (id : Guid) (request : CompleteExperimentRequest) :
    Except Refusal (Database × ExperimentEntity) :=
  if isNullOrWhiteSpace request.workerId then .error (.required "WorkerId")
  else if request.attempt ≤ 0 then .error .invalidAttempt
  else
    match db.getById id with
    | none => .error (.notFound id)
    | some existingExperiment =>
        if existingExperiment.status ≠ .running then .error (.notRunning id)
        else if existingExperiment.assignedWorkerId ≠ some request.workerId then
          .error (.notAssignedTo id request.workerId)
        else if existingExperiment.attempt ≠ request.attempt then
          .error (.otherAttempt id existingExperiment.attempt request.attempt)
        else if existingExperiment.cancellationRequested ≠ request.wasCancelled then
          .error .cancellationMismatch
        else
          db.applyRequest generate (.completeExperiment (completeCommand stamp id request))

end Handlers

/-! ## The scheduling cycle -/

section Scheduling

variable (generate : ValueGenerator)

/-- The command that assigns an experiment to a worker. -/
def assignCommand (stamp : Stamp) (workerId : String) (pending : Guid × ExperimentEntity) :
    AssignExperimentCommand where
  commandId := stamp.commandId
  occurredAtUtc := stamp.occurredAtUtc
  experimentId := pending.1
  eventId := stamp.eventId
  workerId := workerId
  attempt := pending.2.attempt + 1

/-- Assign the next pending experiment to a worker, trying again after a refused
assignment.  Every try draws a stamp; the stamps that are left are returned, and
nothing is returned if they do not suffice or the database throws. -/
def assignNextPending (workerId : String) :
    List Stamp → Database → Option (Database × List Stamp)
  | [], db =>
      match db.getNextPending with
      | none => some (db, [])
      | some _ => none
  | stamp :: supply, db =>
      match db.getNextPending with
      | none => some (db, stamp :: supply)
      | some pending =>
          if db.isFresh stamp then
            match db.apply generate (.assignExperiment (assignCommand stamp workerId pending)) with
            | .ok (db', _) => some (db', supply)
            | .error e =>
                if e.isInvalidOperation then assignNextPending workerId supply db else none
          else none

/-- One cycle of the scheduler over the online workers. -/
def runSchedulingCycle : List String → List Stamp → Database → Option Database
  | [], _, db => some db
  | workerId :: onlineWorkers, supply, db =>
      if db.hasRunningExperiment workerId then runSchedulingCycle onlineWorkers supply db
      else
        match assignNextPending generate workerId supply db with
        | none => none
        | some (db', supply') => runSchedulingCycle onlineWorkers supply' db'

end Scheduling

end Database

/-! ## What the handlers change -/

/-- The lifecycles of the experiments in the tables. -/
def Database.lifecycle (db : Database) (id : Guid) : Option Lifecycle :=
  (db.experiments.get? id).map lifecycleOf

/-- The tables are as before, or one experiment has taken a transition. -/
def Moves (db : Database) (c : CoordinatorCommand) (db' : Database) : Prop :=
  db' = db ∨ ∃ l, Lifecycle.next (db.lifecycle c.experimentId) c = some l ∧
    db'.lifecycle = Function.update db.lifecycle c.experimentId (some l)

section Effects

variable {generate : ValueGenerator} {db db' : Database} {c : CoordinatorCommand}
variable {stamp : Stamp} {id : Guid} {row : ExperimentEntity}

theorem lifecycle_eq_some_iff
    {l : Lifecycle} :
    db.lifecycle id = some l ↔
      ∃ row, db.experiments.get? id = some row ∧ lifecycleOf row = l := by
  unfold Database.lifecycle
  rw [Option.map_eq_some_iff]

/-- A command that succeeds moves at most its own experiment. -/
theorem moves_of_apply
    {r : CommandApplicationResult}
    (hkeyed : db.experiments.get? 0 = none)
    (h : db.apply generate c = .ok (db', r)) :
    Moves db c db' := by
  rcases apply_cases hkeyed h with ⟨heq, -⟩ | ⟨-, row, event, happlies⟩
  · exact Or.inl heq
  · refine Or.inr ⟨lifecycleOf row, happlies.next, ?_⟩
    funext id
    rw [Function.update_apply]
    unfold Database.lifecycle
    rw [happlies.experiments]
    split <;> rfl

theorem applyRequest_ok
    (h : db.applyRequest generate c = .ok (db', row)) :
    ∃ r, db.apply generate c = .ok (db', r) := by
  unfold Database.applyRequest at h
  split at h
  case h_1 => cases h
  case h_2 db₁ r happly =>
    cases h
    exact ⟨r, happly⟩

/-- A check that refuses a request has not done so where the request succeeds. -/
theorem ok_of_check
    {ε α : Type} {p : Prop} [Decidable p] {e : ε} {x : Except ε α} {a : α}
    (h : (if p then .error e else x) = .ok a) :
    ¬ p ∧ x = .ok a := by
  by_cases hp : p
  · rw [if_pos hp] at h
    cases h
  · rw [if_neg hp] at h
    exact ⟨hp, h⟩

/-- A request to create an experiment builds a command for the new identity. -/
theorem create_ok
    {request : CreateExperimentRequest}
    (h : db.create generate stamp id request = .ok (db', row)) :
    ∃ command r, command.experimentId = id ∧
      db.apply generate (.createExperiment command) = .ok (db', r) := by
  unfold Database.create at h
  obtain ⟨-, h⟩ := ok_of_check h
  obtain ⟨-, h⟩ := ok_of_check h
  obtain ⟨-, h⟩ := ok_of_check h
  obtain ⟨-, h⟩ := ok_of_check h
  obtain ⟨-, h⟩ := ok_of_check h
  obtain ⟨-, h⟩ := ok_of_check h
  obtain ⟨r, happly⟩ := applyRequest_ok h
  exact ⟨_, r, rfl, happly⟩

/-- A request to cancel an experiment finds it cancelled or builds a command. -/
theorem cancel_ok
    (h : db.cancel generate stamp id = .ok (db', row)) :
    db' = db ∨ ∃ command r, command.experimentId = id ∧
      db.apply generate (.requestExperimentCancellation command) = .ok (db', r) := by
  unfold Database.cancel at h
  split at h
  case h_1 => cases h
  case h_2 =>
    split at h
    case isTrue =>
      cases h
      exact Or.inl rfl
    case isFalse =>
      obtain ⟨-, h⟩ := ok_of_check h
      obtain ⟨r, happly⟩ := applyRequest_ok h
      exact Or.inr ⟨_, r, rfl, happly⟩

/-- A report of progress leaves the lifecycles and the applied commands alone. -/
theorem reportProgress_ok
    {now : DateTimeOffset} {request : ReportExperimentProgressRequest}
    (h : db.reportProgress now id request = .ok (db', row)) :
    db'.lifecycle = db.lifecycle ∧ db'.appliedCommands = db.appliedCommands := by
  unfold Database.reportProgress at h
  obtain ⟨-, h⟩ := ok_of_check h
  obtain ⟨-, h⟩ := ok_of_check h
  obtain ⟨-, h⟩ := ok_of_check h
  split at h
  case h_1 => cases h
  case h_2 =>
    obtain ⟨-, h⟩ := ok_of_check h
    obtain ⟨-, h⟩ := ok_of_check h
    obtain ⟨-, h⟩ := ok_of_check h
    obtain ⟨-, h⟩ := ok_of_check h
    obtain ⟨-, h⟩ := ok_of_check h
    obtain ⟨-, h⟩ := ok_of_check h
    generalize hreport : db.tryReportProgress id _ _ _ _ now = result at h
    obtain ⟨db₁, updated⟩ := result
    simp only at h
    split at h
    case h_1 => cases h
    case h_2 =>
      split at h
      case isTrue =>
        cases h
        obtain ⟨hlifecycles, -, happlied⟩ := tryReportProgress_frame hreport
        exact ⟨funext hlifecycles, happlied⟩
      case isFalse => cases h

variable (generate) in
/-- A command with a fresh stamp is applied if its experiment has a transition. -/
theorem applies_of_fresh
    {l : Lifecycle}
    (hkeyed : db.experiments.get? 0 = none)
    (hfresh : db.isFresh stamp = true)
    (hcommand : c.commandId = stamp.commandId)
    (hevent : c.eventId = stamp.eventId)
    (hnext : Lifecycle.next (db.lifecycle c.experimentId) c = some l) :
    ∃ db' r, db.apply generate c = .ok (db', r) ∧ db'.experiments.get? 0 = none ∧
      db'.lifecycle = Function.update db.lifecycle c.experimentId (some l) := by
  simp only [Database.isFresh, Bool.and_eq_true, decide_eq_true_eq] at hfresh
  obtain ⟨⟨⟨hid, heventId⟩, hnew⟩, hnewEvent⟩ := hfresh
  rw [← hcommand] at hid hnew
  have hr : Reflects db ⟨db.lifecycle, db.experimentEvents.keys⟩ db.appliedCommands.keys :=
    ⟨fun _ => rfl, hkeyed, rfl, rfl⟩
  have hmatches := apply_matches generate hr hid hnew
  have hrecord : ∃ events, Lifecycles.next generate ⟨db.lifecycle, db.experimentEvents.keys⟩ c =
      some ⟨Function.update db.lifecycle c.experimentId (some l), events⟩ := by
    have hkey : keyOnAdd generate db.experimentEvents.keys c.eventId = stamp.eventId := by
      rw [hevent, keyOnAdd_of_ne_zero heventId]
    unfold Lifecycles.next Lifecycles.record
    simp only [hnext, hkey, if_neg hnewEvent]
    split
    · exact ⟨_, rfl⟩
    · exact ⟨_, rfl⟩
  obtain ⟨events, hrecord⟩ := hrecord
  rw [hrecord] at hmatches
  obtain ⟨db', r, happly, hr'⟩ := hmatches
  exact ⟨db', r, happly, hr'.keyed, funext hr'.experiments⟩

variable (generate) in
/-- A completion that names the worker, the attempt and the state of the
cancellation is accepted. -/
theorem complete_accepts
    {request : CompleteExperimentRequest}
    (hkeyed : db.experiments.get? 0 = none)
    (hfresh : db.isFresh stamp = true)
    (hworker : isNullOrWhiteSpace request.workerId = false)
    (hattempt : ¬ request.attempt ≤ 0)
    (hrow : db.lifecycle id =
      some ⟨.running, some request.workerId, request.attempt, request.wasCancelled⟩) :
    ∃ db' row l, db.complete generate stamp id request = .ok (db', row) ∧
      db'.experiments.get? 0 = none ∧ l.status ≠ .pending ∧ l.status ≠ .running ∧
      db'.lifecycle = Function.update db.lifecycle id (some l) := by
  obtain ⟨existing, hget, hlifecycle⟩ := lifecycle_eq_some_iff.mp hrow
  obtain ⟨hstatus, hassigned, hcurrent, hrequested⟩ := Lifecycle.mk.inj hlifecycle
  have hnext : Lifecycle.next (db.lifecycle id)
      (.completeExperiment (Database.completeCommand stamp id request)) = some
        ⟨Database.finalStatus (Database.completeCommand stamp id request),
          some request.workerId, request.attempt, request.wasCancelled⟩ := by
    rw [hrow]
    exact if_pos rfl
  obtain ⟨db', r, happly, hkeyed', hlife⟩ := applies_of_fresh generate
    (c := .completeExperiment (Database.completeCommand stamp id request)) hkeyed hfresh rfl rfl
    hnext
  have hend : ∀ command, Database.finalStatus command ≠ .pending ∧
      Database.finalStatus command ≠ .running := by
    intro command
    unfold Database.finalStatus
    cases command.wasCancelled <;> cases command.succeeded <;> simp
  unfold Database.complete Database.applyRequest Database.getById
  simp only [hworker, Bool.false_eq_true, if_false, if_neg hattempt, hget, hstatus, hassigned,
    hcurrent, hrequested, ne_eq, not_true_eq_false, happly]
  exact ⟨db', r.value, _, rfl, hkeyed', (hend _).1, (hend _).2, hlife⟩

/-- Assigning the next pending experiment moves at most that one. -/
theorem assignNextPending_some
    {workerId : String} {supply supply' : List Stamp}
    (hkeyed : db.experiments.get? 0 = none)
    (h : db.assignNextPending generate workerId supply = some (db', supply')) :
    db'.experiments.get? 0 = none ∧ (db' = db ∨ ∃ id l, db.lifecycle id = some l ∧
      l.status = .pending ∧ db'.lifecycle =
        Function.update db.lifecycle id (some ⟨.running, some workerId, l.attempt + 1, false⟩)) := by
  induction supply with
  | nil =>
      unfold Database.assignNextPending at h
      split at h
      case h_1 =>
        cases h
        exact ⟨hkeyed, Or.inl rfl⟩
      case h_2 => cases h
  | cons stamp supply ih =>
      unfold Database.assignNextPending at h
      split at h
      case h_1 =>
        cases h
        exact ⟨hkeyed, Or.inl rfl⟩
      case h_2 pending hnext =>
        split at h
        case isFalse => cases h
        case isTrue =>
          split at h
          case h_1 db₁ r happly =>
            cases h
            refine ⟨keyed_of_apply hkeyed happly, ?_⟩
            rcases moves_of_apply hkeyed happly with heq | ⟨l, hl, hlife⟩
            · exact Or.inl heq
            · right
              have hpair : db.getNextPending = some (pending.1, pending.2) := hnext
              obtain ⟨hrow, hpending⟩ := getNextPending_spec hpair
              have hlifecycle : db.lifecycle pending.1 = some (lifecycleOf pending.2) :=
                lifecycle_eq_some_iff.mpr ⟨_, hrow, rfl⟩
              refine ⟨pending.1, lifecycleOf pending.2, hlifecycle, hpending, ?_⟩
              simp only [CoordinatorCommand.experimentId, Database.assignCommand, hlifecycle,
                Lifecycle.next] at hl
              split at hl
              case isTrue =>
                cases hl
                exact hlife
              case isFalse => cases hl
          case h_2 =>
            split at h
            case isTrue => exact ih h
            case isFalse => cases h

end Effects

end Coordinator
end DistributedConsensus
