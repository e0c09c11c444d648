import DistributedConsensus.Coordinator.History

/-!
# Coordinator: reused command identities

A command whose identity is recorded is not applied again.  If the record belongs to a
command of another type or of another experiment, five of the six commands are
rejected; the creation of an experiment looks at the identity alone and reports that
it was applied: `reuseRejected_iff`.
-/

namespace DistributedConsensus
namespace Coordinator

open Foundations
open Raft (Guid)

/-- The identity of the command is recorded for another type or experiment. -/
def RecordedElsewhere (db : Database) (c : CoordinatorCommand) : Prop :=
  ∃ record, db.appliedCommands.get? c.commandId = some record ∧
    (record.commandType ≠ c.commandType ∨ record.experimentId ≠ c.experimentId)

/-- The identity of the command is recorded for its type and experiment. -/
def RecordedAlike (db : Database) (c : CoordinatorCommand) : Prop :=
  ∃ record, db.appliedCommands.get? c.commandId = some record ∧
    record.commandType = c.commandType ∧ record.experimentId = c.experimentId

/-- A reused identity is rejected, and a repeated command is reported; the tables
stay. -/
structure ReuseRejected (generate : ValueGenerator) (db : Database) (c : CoordinatorCommand) :
    Prop where
  elsewhere : RecordedElsewhere db c →
    (∃ e, db.apply generate c = .error e) ∧ db.process generate c = db
  alike : RecordedAlike db c → ∃ row, db.experiments.get? c.experimentId = some row ∧
    db.apply generate c = .ok (db, ⟨row, true⟩) ∧ db.process generate c = db

/-- The experiments of the recorded commands exist. -/
structure Referenced (db : Database) : Prop where
  keyed : db.experiments.get? 0 = none
  exists_row : ∀ id record, db.appliedCommands.get? id = some record →
    ∃ row, db.experiments.get? record.experimentId = some row

section

variable {generate : ValueGenerator} {db : Database} {c : CoordinatorCommand}

theorem referenced_empty : Referenced Database.empty where
  keyed := rfl
  exists_row _ _ h := nomatch h

/-- Every command keeps the references. -/
theorem Referenced.process
    (h : Referenced db) :
    Referenced (db.process generate c) := by
  rcases process_cases generate c h.keyed with heq | ⟨row, event, happlies⟩
  · rw [heq]
    exact h
  · constructor
    · rw [happlies.experiments, if_neg (Ne.symm (happlies.experimentId_ne_zero h.keyed))]
      exact h.keyed
    · intro id record hrecord
      rw [happlies.applied, Dict.get?_set] at hrecord
      rw [happlies.experiments]
      by_cases hid : record.experimentId = c.experimentId
      · exact ⟨row, if_pos hid⟩
      · rw [if_neg hid]
        split at hrecord
        case isTrue =>
          cases hrecord
          exact absurd rfl hid
        case isFalse => exact h.exists_row id record hrecord

theorem referenced_of_reachable
    (h : processor.Reachable System.anyStep db) :
    Referenced db := by
  refine System.Reachable.invariant referenced_empty ?_ h
  intro db request db' _ hinv _ hstep
  cases hstep
  exact hinv.process

/-- A rejected command leaves the tables. -/
theorem process_of_error
    {e : ApplyError}
    (h : db.apply generate c = .error e) :
    db.process generate c = db := by
  unfold Database.process
  rw [h]

/-- A command that was applied before leaves the tables. -/
theorem process_of_ok_self
    {r : CommandApplicationResult}
    (h : db.apply generate c = .ok (db, r)) :
    db.process generate c = db := by
  unfold Database.process
  rw [h]

/-- The shared check rejects a reused identity. -/
theorem unlessApplied_of_recordedElsewhere
    {result : Except ApplyError (Database × CommandApplicationResult)}
    (h : RecordedElsewhere db c) :
    db.unlessApplied c result = .error (.commandReused c.commandId) := by
  obtain ⟨record, hget, hdiffers⟩ := h
  unfold Database.unlessApplied Database.getPreviouslyAppliedResult
  simp only [hget, ne_eq, if_pos hdiffers]

/-- The commands other than the creation of an experiment use the shared check. -/
theorem apply_of_recordedElsewhere
    (generate : ValueGenerator)
    (hc : ∀ command, c ≠ .createExperiment command)
    (h : RecordedElsewhere db c) :
    db.apply generate c = .error (.commandReused c.commandId) := by
  cases c with
  | createExperiment command => exact absurd rfl (hc command)
  | assignExperiment command => exact unlessApplied_of_recordedElsewhere h
  | completeExperiment command => exact unlessApplied_of_recordedElsewhere h
  | requestExperimentCancellation command => exact unlessApplied_of_recordedElsewhere h
  | requeueExperiment command => exact unlessApplied_of_recordedElsewhere h
  | recoverExperimentOnStartup command => exact unlessApplied_of_recordedElsewhere h

/-- A repeated command finds its experiment. -/
theorem Referenced.apply_of_recordedAlike
    (generate : ValueGenerator)
    (hdb : Referenced db)
    (h : RecordedAlike db c) :
    ∃ row, db.experiments.get? c.experimentId = some row ∧
      db.apply generate c = .ok (db, ⟨row, true⟩) := by
  obtain ⟨record, hget, htype, hid⟩ := h
  obtain ⟨row, hrow⟩ := hdb.exists_row _ record hget
  rw [hid] at hrow
  refine ⟨row, hrow, ?_⟩
  have hshared : ∀ result, db.unlessApplied c result = .ok (db, ⟨row, true⟩) := by
    intro result
    unfold Database.unlessApplied Database.getPreviouslyAppliedResult
    simp only [hget, htype, hid, ne_eq, not_true_eq_false, or_self, if_false, hrow]
  cases c with
  | createExperiment command =>
      simp only [CoordinatorCommand.commandId] at hget
      simp only [CoordinatorCommand.experimentId] at hid hrow
      simp only [Database.apply, Database.applyCreateExperiment, hget, hid, hrow]
  | assignExperiment command => exact hshared _
  | completeExperiment command => exact hshared _
  | requestExperimentCancellation command => exact hshared _
  | requeueExperiment command => exact hshared _
  | recoverExperimentOnStartup command => exact hshared _

/-- The creation of an experiment takes over any recorded identity. -/
theorem Referenced.applyCreateExperiment_of_recorded
    (generate : ValueGenerator)
    {command : CreateExperimentCommand}
    (hdb : Referenced db)
    (h : RecordedElsewhere db (.createExperiment command)) :
    ∃ row, db.apply generate (.createExperiment command) = .ok (db, ⟨row, true⟩) := by
  obtain ⟨record, hget, -⟩ := h
  obtain ⟨row, hrow⟩ := hdb.exists_row _ record hget
  refine ⟨row, ?_⟩
  simp only [CoordinatorCommand.commandId] at hget
  simp only [Database.apply, Database.applyCreateExperiment, hget, hrow]

/-- **Reused identities.**  In every reachable state the reuse of an identity is
rejected, unless the command creates an experiment. -/
theorem reuseRejected_iff
    (hreach : processor.Reachable System.anyStep db) :
    ReuseRejected generate db c ↔
      ¬ ((∃ command, c = .createExperiment command) ∧ RecordedElsewhere db c) := by
  have hdb := referenced_of_reachable hreach
  constructor
  · rintro hrejected ⟨⟨command, rfl⟩, helsewhere⟩
    obtain ⟨⟨e, herror⟩, -⟩ := hrejected.elsewhere helsewhere
    obtain ⟨row, hok⟩ := hdb.applyCreateExperiment_of_recorded generate helsewhere
    rw [herror] at hok
    cases hok
  · intro hsafe
    constructor
    · intro helsewhere
      have herror := apply_of_recordedElsewhere generate
        (fun command heq => hsafe ⟨⟨command, heq⟩, helsewhere⟩) helsewhere
      exact ⟨⟨_, herror⟩, process_of_error herror⟩
    · intro halike
      obtain ⟨row, hrow, hok⟩ := hdb.apply_of_recordedAlike generate halike
      exact ⟨row, hrow, hok, process_of_ok_self hok⟩

end

/-- An assignment with the identity of the creation. -/
def reusedAssign : CoordinatorCommand := .assignExperiment ⟨1, 0, 1, 2, "worker", 1⟩

/-- The assignment is rejected. -/
theorem reuseRejected_sample :
    ∃ db, processor.Reachable System.anyStep db ∧ RecordedElsewhere db reusedAssign ∧
      ReuseRejected unusedGenerator db reusedAssign := by
  obtain ⟨db, hreach, hrecord⟩ : ∃ db, processor.Reaches System.anyStep Database.empty db ∧
      db.appliedCommands.get? 1 = some ⟨"CreateExperimentCommand", 1, 0⟩ := by
    refine System.exists_reaches_of_exec
      [(unusedGenerator, .createExperiment ⟨1, 0, 1, 1, "", "", "", 0, 0, 0, 0, false⟩)] ?_
    decide +kernel
  refine ⟨db, hreach, ⟨_, hrecord, Or.inl (by decide)⟩, (reuseRejected_iff hreach).mpr ?_⟩
  rintro ⟨⟨command, heq⟩, -⟩
  cases heq

/-- The identity of an assignment is taken over by the creation of another
experiment. -/
theorem reuse_not_rejected :
    ∃ db c, processor.Reachable System.anyStep db ∧ RecordedElsewhere db c ∧
      ¬ ReuseRejected unusedGenerator db c := by
  obtain ⟨db, hreach, hrecord⟩ : ∃ db, processor.Reaches System.anyStep Database.empty db ∧
      db.appliedCommands.get? 2 = some ⟨"AssignExperimentCommand", 1, 0⟩ := by
    refine System.exists_reaches_of_exec
      [(unusedGenerator, .createExperiment ⟨1, 0, 1, 1, "", "", "", 0, 0, 0, 0, false⟩),
        (unusedGenerator, .assignExperiment ⟨2, 0, 1, 2, "worker", 1⟩)] ?_
    decide +kernel
  have helsewhere : RecordedElsewhere db
      (.createExperiment ⟨2, 0, 7, 7, "", "", "", 0, 0, 0, 0, false⟩) :=
    ⟨_, hrecord, Or.inl (by decide)⟩
  obtain ⟨row, hok⟩ := (referenced_of_reachable hreach).applyCreateExperiment_of_recorded
    unusedGenerator helsewhere
  refine ⟨db, _, hreach, helsewhere, fun hrejected => ?_⟩
  obtain ⟨⟨e, herror⟩, -⟩ := hrejected.elsewhere helsewhere
  rw [herror] at hok
  cases hok

end Coordinator
end DistributedConsensus
