import DistributedConsensus.Coordinator.Lifecycle

/-!
# Coordinator: the effect of a command

What a command that is applied leaves in the three tables: a row that follows
the lifecycle of its experiment, at most one event of the type that belongs to
the transition, and a row of the applied commands.  Everything else about the
processor follows from this (`apply_cases`).
-/

namespace DistributedConsensus
namespace Coordinator

open Foundations
open Raft (Guid)

/-- The type of the event that belongs to a transition. -/
def Lifecycle.eventType : Option Lifecycle → CoordinatorCommand → Option ExperimentEventType
  | _, .createExperiment _ => some .created
  | _, .assignExperiment _ => some .assigned
  | _, .completeExperiment c =>
      some (if c.wasCancelled then .cancelled else if c.succeeded then .completed else .failed)
  | some l, .requestExperimentCancellation _ =>
      if l.status = .pending then some .cancelled
      else if l.cancellationRequested then none
      else some .cancelRequested
  | none, .requestExperimentCancellation _ => none
  | _, .requeueExperiment c => some (if c.cancelInsteadOfRequeue then .cancelled else .requeued)
  | _, .recoverExperimentOnStartup _ => some .recoveredOnStartup

/-- What is left of a command: its row, its event and its record. -/
structure Applies (generate : ValueGenerator) (db : Database) (c : CoordinatorCommand)
    (row : ExperimentEntity) (event : Option ExperimentEventEntity) (db' : Database) :
    Prop where
  experiments : ∀ id, db'.experiments.get? id =
    if id = c.experimentId then some row else db.experiments.get? id
  next : Lifecycle.next ((db.experiments.get? c.experimentId).map lifecycleOf) c =
    some (lifecycleOf row)
  events : db'.experimentEvents.entries = db.experimentEvents.entries ++
    event.toList.map (fun e => (keyOnAdd generate db.experimentEvents.keys c.eventId, e))
  eventType : event.map (fun e => e.type) =
    Lifecycle.eventType ((db.experiments.get? c.experimentId).map lifecycleOf) c
  eventExperiment : ∀ e ∈ event, e.experimentId = c.experimentId
  fresh : db.appliedCommands.get? c.commandId = none
  applied : db'.appliedCommands = db.appliedCommands.set
    (keyOnAdd generate db.appliedCommands.keys c.commandId)
    ⟨c.commandType, c.experimentId, c.occurredAtUtc⟩

/-- The command is recorded, and its experiment exists. -/
def Recorded (db : Database) (c : CoordinatorCommand) : Prop :=
  ∃ record row, db.appliedCommands.get? c.commandId = some record ∧
    db.experiments.get? record.experimentId = some row ∧
    ((∃ command, c = .createExperiment command) ∨
      record.commandType = c.commandType ∧ record.experimentId = c.experimentId)

section

variable {generate : ValueGenerator} {db db' : Database} {c : CoordinatorCommand}
variable {r : CommandApplicationResult}

/-- Recording a command changes nothing else. -/
theorem addAppliedCommand_ok
    {experimentId : Guid}
    (h : db.addAppliedCommand generate c experimentId = .ok db') :
    db' = { db with
      appliedCommands := db.appliedCommands.set
        (keyOnAdd generate db.appliedCommands.keys c.commandId)
        ⟨c.commandType, experimentId, c.occurredAtUtc⟩ } := by
  unfold Database.addAppliedCommand at h
  simp only at h
  split at h
  case isTrue => cases h
  case isFalse =>
    cases h
    rfl

/-- An event comes last and belongs to an experiment. -/
theorem addCommandEvent_ok
    {event : Option ExperimentEventEntity}
    (h : db.addCommandEvent generate c event = .ok db') :
    db'.experiments = db.experiments ∧ db'.appliedCommands = db.appliedCommands ∧
      db'.experimentEvents.entries = db.experimentEvents.entries ++
        event.toList.map (fun e => (keyOnAdd generate db.experimentEvents.keys c.eventId, e)) ∧
      ∀ e ∈ event, db.experiments.contains e.experimentId = true := by
  cases event with
  | none =>
      cases h
      refine ⟨rfl, rfl, by simp, ?_⟩
      rintro e ⟨⟩
  | some event =>
      simp only [Database.addCommandEvent, Database.addExperimentEvent] at h
      split at h
      case isTrue => cases h
      case isFalse hfree =>
        split at h
        case isTrue => cases h
        case isFalse hexists =>
          cases h
          have hnone : db.experimentEvents.get?
              (keyOnAdd generate db.experimentEvents.keys c.eventId) = none := by
            simpa [Dict.contains] using hfree
          refine ⟨rfl, rfl, Dict.entries_set_of_get?_eq_none hnone event, ?_⟩
          rintro e ⟨⟩
          simpa using hexists

/-- Saving adds the event and the record and keeps the experiments. -/
theorem saveChanges_ok
    {event : Option ExperimentEventEntity}
    (h : db.saveChanges generate c event = .ok (db', r)) :
    db'.experiments = db.experiments ∧ r.wasAlreadyApplied = false ∧
      (∃ row, db.experiments.get? c.experimentId = some row) ∧
      (∀ e ∈ event, db.experiments.contains e.experimentId = true) ∧
      db'.experimentEvents.entries = db.experimentEvents.entries ++
        event.toList.map (fun e => (keyOnAdd generate db.experimentEvents.keys c.eventId, e)) ∧
      db'.appliedCommands = db.appliedCommands.set
        (keyOnAdd generate db.appliedCommands.keys c.commandId)
        ⟨c.commandType, c.experimentId, c.occurredAtUtc⟩ := by
  unfold Database.saveChanges at h
  split at h
  case h_1 => cases h
  case h_2 db₁ hevent =>
    obtain ⟨hexperiments, happlied, hevents, hexists⟩ := addCommandEvent_ok hevent
    split at h
    case h_1 => cases h
    case h_2 db₂ hcommand =>
      obtain rfl := addAppliedCommand_ok hcommand
      split at h
      case h_1 => cases h
      case h_2 row hrow =>
        cases h
        simp only [hexperiments] at hrow
        simp only [hexperiments, happlied]
        exact ⟨trivial, trivial, ⟨row, hrow⟩, hexists, hevents, trivial⟩

/-- An update that succeeds has found its row. -/
theorem updateAndSave_ok
    {condition : ExperimentEntity → Bool} {setters : ExperimentEntity → ExperimentEntity}
    {failure : ApplyError} {event : ExperimentEventEntity}
    (hfresh : db.appliedCommands.get? c.commandId = none)
    (hevent : event.experimentId = c.experimentId)
    (htype : ∀ row, db.experiments.get? c.experimentId = some row → condition row = true →
      some event.type = Lifecycle.eventType (some (lifecycleOf row)) c)
    (hnext : ∀ row, db.experiments.get? c.experimentId = some row → condition row = true →
      Lifecycle.next (some (lifecycleOf row)) c = some (lifecycleOf (setters row)))
    (h : db.updateAndSave generate c condition setters failure event = .ok (db', r)) :
    r.wasAlreadyApplied = false ∧ ∃ row event, Applies generate db c row event db' := by
  unfold Database.updateAndSave Database.executeUpdate at h
  cases hget : db.experiments.get? c.experimentId with
  | none => simp [hget] at h
  | some row =>
      simp only [hget] at h
      by_cases hcond : condition row = true
      swap
      · simp [hcond] at h
      simp only [hcond, if_true, ne_eq, not_true_eq_false, if_false] at h
      obtain ⟨hexperiments, hresult, -, -, hevents, happlied⟩ := saveChanges_ok h
      refine ⟨hresult, setters row, some event, ?_, ?_, hevents, ?_, ?_, hfresh, happlied⟩
      · intro id
        rw [hexperiments, Dict.get?_set]
      · rw [hget]
        exact hnext row hget hcond
      · rw [hget]
        exact htype row hget hcond
      · rintro e ⟨⟩
        exact hevent

/-- A command that was applied before changes nothing. -/
theorem unlessApplied_ok
    {result : Except ApplyError (Database × CommandApplicationResult)}
    (h : db.unlessApplied c result = .ok (db', r)) :
    (db' = db ∧ r.wasAlreadyApplied = true ∧ Recorded db c) ∨
      (db.appliedCommands.get? c.commandId = none ∧ result = .ok (db', r)) := by
  unfold Database.unlessApplied Database.getPreviouslyAppliedResult at h
  cases hget : db.appliedCommands.get? c.commandId with
  | none =>
      simp only [hget] at h
      exact Or.inr ⟨rfl, h⟩
  | some record =>
      left
      simp only [hget] at h
      by_cases hreused : record.commandType ≠ c.commandType ∨ record.experimentId ≠ c.experimentId
      · simp [hreused] at h
      · rw [if_neg hreused] at h
        push Not at hreused
        cases hrow : db.experiments.get? record.experimentId with
        | none => simp [hrow] at h
        | some row =>
            simp only [hrow] at h
            cases h
            exact ⟨rfl, rfl, record, row, hget, hrow, Or.inr hreused⟩

/-! ## The six commands -/

/-- A successful command changes nothing, or leaves its row, event and record. -/
def Outcome (generate : ValueGenerator) (db : Database) (c : CoordinatorCommand) (db' : Database)
    (r : CommandApplicationResult) : Prop :=
  (db' = db ∧ r.wasAlreadyApplied = true ∧ Recorded db c) ∨
    (r.wasAlreadyApplied = false ∧ ∃ row event, Applies generate db c row event db')

/-- The commands that update one row. -/
theorem unlessApplied_updateAndSave_ok
    {condition : ExperimentEntity → Bool} {setters : ExperimentEntity → ExperimentEntity}
    {failure : ApplyError} {event : ExperimentEventEntity}
    (hevent : event.experimentId = c.experimentId)
    (htype : ∀ row, condition row = true →
      some event.type = Lifecycle.eventType (some (lifecycleOf row)) c)
    (hnext : ∀ row, condition row = true →
      Lifecycle.next (some (lifecycleOf row)) c = some (lifecycleOf (setters row)))
    (h : db.unlessApplied c (db.updateAndSave generate c condition setters failure event) =
      .ok (db', r)) :
    Outcome generate db c db' r := by
  rcases unlessApplied_ok h with hbefore | ⟨hfresh, hupdate⟩
  · exact Or.inl hbefore
  · exact Or.inr (updateAndSave_ok hfresh hevent (fun row _ => htype row)
      (fun row _ => hnext row) hupdate)

theorem applyCreateExperiment_ok
    {command : CreateExperimentCommand}
    (hkeyed : db.experiments.get? 0 = none)
    (h : db.applyCreateExperiment generate command = .ok (db', r)) :
    Outcome generate db (.createExperiment command) db' r := by
  unfold Database.applyCreateExperiment at h
  cases hget : db.appliedCommands.get? command.commandId with
  | some record =>
      simp only [hget] at h
      cases hrow : db.experiments.get? record.experimentId with
      | none => simp [hrow] at h
      | some row =>
          simp only [hrow] at h
          cases h
          exact Or.inl ⟨rfl, rfl, record, row, hget, hrow, Or.inl ⟨command, rfl⟩⟩
  | none =>
      right
      simp only [hget] at h
      split at h
      case isTrue => cases h
      case isFalse hmissing =>
        split at h
        case h_1 => cases h
        case h_2 db₁ hadd =>
          unfold Database.addExperiment at hadd
          simp only at hadd
          split at hadd
          case isTrue => cases hadd
          case isFalse =>
            cases hadd
            obtain ⟨hexperiments, hresult, ⟨row, hrow⟩, -, hevents, happlied⟩ := saveChanges_ok h
            have hid : command.experimentId ≠ 0 := by
              -- a generated key does not belong to the experiment of the event
              intro hzero
              have hkey := keyOnAdd_ne_zero generate db.experiments.keys command.experimentId
              simp only [CoordinatorCommand.experimentId, hzero, Dict.get?_set] at hrow
              rw [hzero] at hkey
              rw [if_neg (Ne.symm hkey), hkeyed] at hrow
              cases hrow
            have hkey : keyOnAdd generate db.experiments.keys command.experimentId =
                command.experimentId := keyOnAdd_of_ne_zero hid
            have hnone : db.experiments.get? command.experimentId = none := by
              simpa [Dict.contains] using hmissing
            simp only [CoordinatorCommand.experimentId, hkey, Dict.get?_set, if_true] at hrow
            refine ⟨hresult, row, _, ?_, ?_, hevents, ?_, ?_, hget, happlied⟩
            · intro id
              rw [hexperiments]
              simp only [hkey, Dict.get?_set, hrow]
              rfl
            · simp only [CoordinatorCommand.experimentId, hnone, Option.map_none, Lifecycle.next,
                if_neg hid]
              rw [← Option.some.inj hrow]
              rfl
            · rfl
            · rintro e ⟨⟩
              rfl

theorem applyRequestExperimentCancellation_ok
    {command : RequestExperimentCancellationCommand}
    (h : db.applyRequestExperimentCancellation generate command = .ok (db', r)) :
    Outcome generate db (.requestExperimentCancellation command) db' r := by
  unfold Database.applyRequestExperimentCancellation at h
  rcases unlessApplied_ok h with hbefore | ⟨hfresh, happly⟩
  · exact Or.inl hbefore
  right
  cases hget : db.experiments.get? command.experimentId with
  | none => simp [hget] at happly
  | some experiment =>
      simp only [hget] at happly
      have hsame : ∀ e, db.experiments.get? command.experimentId = some e → e = experiment :=
        fun e he => Option.some.inj (he.symm.trans hget)
      cases hstatus : experiment.status with
      | pending =>
          simp only [hstatus] at happly
          refine updateAndSave_ok hfresh rfl ?_ ?_ happly
          · intro row hrow _
            rw [hsame row hrow]
            simp [Lifecycle.eventType, lifecycleOf, hstatus]
          · intro row hrow _
            rw [hsame row hrow]
            simp [Lifecycle.next, lifecycleOf, hstatus]
      | running =>
          simp only [hstatus] at happly
          by_cases hrequested : experiment.cancellationRequested = true
          · rw [if_pos hrequested] at happly
            obtain ⟨hexperiments, hresult, -, -, hevents, happlied⟩ := saveChanges_ok happly
            refine ⟨hresult, experiment, none, ?_, ?_, hevents, ?_, ?_, hfresh, happlied⟩
            · intro id
              rw [hexperiments]
              by_cases hid : id = command.experimentId
              · rw [hid, hget]
                exact (if_pos rfl).symm
              · exact (if_neg hid).symm
            · simp [CoordinatorCommand.experimentId, hget, Lifecycle.next, lifecycleOf, hstatus,
                hrequested]
            · simp [CoordinatorCommand.experimentId, hget, Lifecycle.eventType, lifecycleOf,
                hstatus, hrequested]
            · rintro e ⟨⟩
          · rw [if_neg hrequested] at happly
            refine updateAndSave_ok hfresh rfl ?_ ?_ happly
            · intro row hrow _
              rw [hsame row hrow]
              simp [Lifecycle.eventType, lifecycleOf, hstatus, hrequested]
            · intro row hrow _
              rw [hsame row hrow]
              simp [Lifecycle.next, lifecycleOf, hstatus]
      | completed => simp [hstatus] at happly
      | failed => simp [hstatus] at happly
      | cancelled => simp [hstatus] at happly

theorem applyRequeueExperiment_ok
    {command : RequeueExperimentCommand}
    (h : db.applyRequeueExperiment generate command = .ok (db', r)) :
    Outcome generate db (.requeueExperiment command) db' r := by
  unfold Database.applyRequeueExperiment at h
  rcases unlessApplied_ok h with hbefore | ⟨hfresh, happly⟩
  · exact Or.inl hbefore
  right
  split at happly
  case h_1 => cases happly
  case h_2 =>
    split at happly
    case isTrue => cases happly
    case isFalse =>
      split at happly
      case isTrue => cases happly
      case isFalse =>
        split at happly
        case isTrue hflag =>
          refine updateAndSave_ok hfresh rfl ?_ ?_ happly
          · intro row _ _
            simp [Lifecycle.eventType, hflag]
          · intro row _ hcond
            simp only [Bool.and_eq_true, decide_eq_true_eq] at hcond
            simp [Lifecycle.next, lifecycleOf, hcond, hflag]
        case isFalse hflag =>
          refine updateAndSave_ok hfresh rfl ?_ ?_ happly
          · intro row _ _
            simp [Lifecycle.eventType, hflag]
          · intro row _ hcond
            simp only [Bool.and_eq_true, decide_eq_true_eq, Bool.not_eq_true'] at hcond
            simp [Lifecycle.next, lifecycleOf, hcond, hflag]

/-- **The effect of a command.**  A command that succeeds was applied before and
changes nothing, or leaves its row, its event and its record. -/
theorem apply_cases
    (hkeyed : db.experiments.get? 0 = none)
    (h : db.apply generate c = .ok (db', r)) :
    Outcome generate db c db' r := by
  cases c with
  | createExperiment command => exact applyCreateExperiment_ok hkeyed h
  | assignExperiment command =>
      refine unlessApplied_updateAndSave_ok rfl (fun _ _ => rfl) ?_ h
      intro row hcond
      simp only [Bool.and_eq_true, decide_eq_true_eq] at hcond
      simp [Lifecycle.next, lifecycleOf, hcond]
  | completeExperiment command =>
      refine unlessApplied_updateAndSave_ok rfl (fun _ _ => rfl) ?_ h
      intro row hcond
      simp only [Bool.and_eq_true, decide_eq_true_eq] at hcond
      simp [Lifecycle.next, lifecycleOf, hcond]
  | requestExperimentCancellation command => exact applyRequestExperimentCancellation_ok h
  | requeueExperiment command => exact applyRequeueExperiment_ok h
  | recoverExperimentOnStartup command =>
      refine unlessApplied_updateAndSave_ok rfl (fun _ _ => rfl) ?_ h
      intro row hcond
      simp only [Bool.and_eq_true, decide_eq_true_eq] at hcond
      simp [Lifecycle.next, lifecycleOf, hcond]

/-! ## Applying a command again -/

/-- A recorded command is not applied again. -/
theorem unlessApplied_of_recorded
    {result : Except ApplyError (Database × CommandApplicationResult)}
    (hc : ∀ command, c ≠ .createExperiment command)
    (h : Recorded db c) :
    ∃ row, db.unlessApplied c result = .ok (db, ⟨row, true⟩) := by
  obtain ⟨record, row, hget, hrow, ⟨command, hcreate⟩ | ⟨htype, hid⟩⟩ := h
  · exact absurd hcreate (hc command)
  · refine ⟨row, ?_⟩
    unfold Database.unlessApplied Database.getPreviouslyAppliedResult
    simp only [hget, htype, hid, ne_eq, not_true_eq_false, or_self, if_false]
    rw [hid] at hrow
    simp only [hrow]

theorem apply_of_recorded
    (generate : ValueGenerator)
    (h : Recorded db c) :
    ∃ row, db.apply generate c = .ok (db, ⟨row, true⟩) := by
  cases c with
  | createExperiment command =>
      obtain ⟨record, row, hget, hrow, -⟩ := h
      refine ⟨row, ?_⟩
      simp only [CoordinatorCommand.commandId] at hget
      simp only [Database.apply, Database.applyCreateExperiment, hget, hrow]
  | assignExperiment command => exact unlessApplied_of_recorded (by rintro _ ⟨⟩) h
  | completeExperiment command => exact unlessApplied_of_recorded (by rintro _ ⟨⟩) h
  | requestExperimentCancellation command => exact unlessApplied_of_recorded (by rintro _ ⟨⟩) h
  | requeueExperiment command => exact unlessApplied_of_recorded (by rintro _ ⟨⟩) h
  | recoverExperimentOnStartup command => exact unlessApplied_of_recorded (by rintro _ ⟨⟩) h

/-- A command with an identity is recorded when it is applied. -/
theorem Applies.recorded
    {row : ExperimentEntity} {event : Option ExperimentEventEntity}
    (h : Applies generate db c row event db')
    (hid : c.commandId ≠ 0) :
    Recorded db' c := by
  have hkey : keyOnAdd generate db.appliedCommands.keys c.commandId = c.commandId :=
    keyOnAdd_of_ne_zero hid
  refine ⟨⟨c.commandType, c.experimentId, c.occurredAtUtc⟩, row, ?_, ?_, Or.inr ⟨rfl, rfl⟩⟩
  · rw [h.applied, hkey, Dict.get?_set, if_pos rfl]
  · rw [h.experiments, if_pos rfl]

/-- **Idempotence.**  Applying a command again changes nothing. -/
theorem apply_idempotent
    (hkeyed : db.experiments.get? 0 = none)
    (hid : c.commandId ≠ 0)
    (h : db.apply generate c = .ok (db', r)) :
    ∃ row, db'.apply generate c = .ok (db', ⟨row, true⟩) := by
  rcases apply_cases hkeyed h with ⟨rfl, -, hrecorded⟩ | ⟨-, row, event, happlies⟩
  · exact apply_of_recorded generate hrecorded
  · exact apply_of_recorded generate (happlies.recorded hid)

/-- The experiment of an applied command has a key. -/
theorem Applies.experimentId_ne_zero
    {row : ExperimentEntity} {event : Option ExperimentEventEntity}
    (hkeyed : db.experiments.get? 0 = none)
    (h : Applies generate db c row event db') :
    c.experimentId ≠ 0 := by
  intro hzero
  have hnext := h.next
  rw [hzero, hkeyed] at hnext
  cases c with
  | createExperiment command =>
      have hcommand : command.experimentId = 0 := hzero
      simp [Lifecycle.next, hcommand] at hnext
  | _ => simp [Lifecycle.next] at hnext

/-- No experiment is stored under the empty key. -/
theorem keyed_of_apply
    (hkeyed : db.experiments.get? 0 = none)
    (h : db.apply generate c = .ok (db', r)) :
    db'.experiments.get? 0 = none := by
  rcases apply_cases hkeyed h with ⟨rfl, -⟩ | ⟨-, row, event, happlies⟩
  · exact hkeyed
  · rw [happlies.experiments, if_neg (Ne.symm (happlies.experimentId_ne_zero hkeyed))]
    exact hkeyed

end

end Coordinator
end DistributedConsensus
