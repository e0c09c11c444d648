import DistributedConsensus.Coordinator.History

/-!
# Coordinator: requested cancellations

A request for cancellation ends a waiting experiment and marks a running one.
Completion and requeue respect the mark.  The recovery after a restart of the
coordinator returns every running experiment to the queue, keeps the mark of a
waiting experiment, which nothing reads, and the next assignment erases it.

In runs in which no marked experiment is recovered on startup a cancellation is
never lost: `never_lost`.
-/

namespace DistributedConsensus
namespace Coordinator

open Foundations
open Raft (Guid)

/-- The recovery of a running experiment after a restart, as the recovery service
submits it. -/
def startupRecovery (commandId eventId : Guid) (occurredAtUtc : DateTimeOffset)
    (experimentId : Guid) (experiment : ExperimentEntity) : CoordinatorCommand :=
  .recoverExperimentOnStartup {
    commandId := commandId
    occurredAtUtc := occurredAtUtc
    experimentId := experimentId
    eventId := eventId
    previousWorkerId := experiment.assignedWorkerId
    attempt := experiment.attempt }

/-- The command is no recovery on startup of an experiment whose cancellation was
requested. -/
def RespectsRequests (db : Database) (request : ValueGenerator × CoordinatorCommand) : Prop :=
  ∀ command, request.2 = .recoverExperimentOnStartup command →
    ∀ row, db.experiments.get? command.experimentId = some row → row.cancellationRequested = false

/-- The experiment is cancelled, or is running with its cancellation requested. -/
def Cancelling (db : Database) (id : Guid) : Prop :=
  ∃ row, db.experiments.get? id = some row ∧
    (row.status = .cancelled ∨ row.status = .running ∧ row.cancellationRequested = true)

/-- No assignment of the experiment changes anything, and it can only end cancelled. -/
structure NeverLost (db : Database) (id : Guid) : Prop where
  notAssigned : ∀ generate c db' r, c.experimentId = id →
    db.apply generate (.assignExperiment c) = .ok (db', r) →
    r.wasAlreadyApplied = true ∧ db' = db
  ends : ∀ row, db.experiments.get? id = some row → row.status.Terminal → row.status = .cancelled

/-! ## What keeps a request -/

section Steps

variable {generate : ValueGenerator} {db db' : Database} {c : CoordinatorCommand} {id : Guid}

/-- A transition of a marked running experiment keeps it marked or cancels it,
unless it is a recovery on startup. -/
theorem Lifecycle.next_requested
    {l l' : Lifecycle}
    (hrunning : l.status = .running)
    (hrequested : l.cancellationRequested = true)
    (hrecovery : ∀ command, c ≠ .recoverExperimentOnStartup command)
    (h : Lifecycle.next (some l) c = some l') :
    l'.status = .cancelled ∨ l'.status = .running ∧ l'.cancellationRequested = true := by
  cases c with
  | createExperiment command => simp [Lifecycle.next] at h
  | assignExperiment command => simp [Lifecycle.next, hrunning] at h
  | completeExperiment command =>
      simp only [Lifecycle.next] at h
      split at h
      case isTrue hcond =>
        cases h
        left
        have hflag : command.wasCancelled = true := by
          rw [← hrequested, hcond]
        simp [Database.finalStatus, hflag]
      case isFalse => cases h
  | requestExperimentCancellation command =>
      simp only [Lifecycle.next, hrunning, Option.some.injEq] at h
      subst h
      exact Or.inr ⟨rfl, rfl⟩
  | requeueExperiment command =>
      simp only [Lifecycle.next] at h
      split at h
      case isTrue hcond =>
        cases h
        left
        have hflag : command.cancelInsteadOfRequeue = true := by
          rw [← hrequested, hcond]
        simp [hflag]
      case isFalse => cases h
  | recoverExperimentOnStartup command => exact absurd rfl (hrecovery command)

/-- A request marks or cancels its experiment. -/
theorem Lifecycle.next_request
    {l : Option Lifecycle} {l' : Lifecycle} {command : RequestExperimentCancellationCommand}
    (h : Lifecycle.next l (.requestExperimentCancellation command) = some l') :
    l'.status = .cancelled ∨ l'.status = .running ∧ l'.cancellationRequested = true := by
  cases l with
  | none => simp [Lifecycle.next] at h
  | some l =>
      cases hstatus : l.status with
      | pending =>
          simp only [Lifecycle.next, hstatus, Option.some.injEq] at h
          subst h
          exact Or.inl rfl
      | running =>
          simp only [Lifecycle.next, hstatus, Option.some.injEq] at h
          subst h
          exact Or.inr ⟨rfl, rfl⟩
      | completed => simp [Lifecycle.next, hstatus] at h
      | failed => simp [Lifecycle.next, hstatus] at h
      | cancelled => simp [Lifecycle.next, hstatus] at h

/-- A command that respects requests keeps them. -/
theorem Cancelling.process
    (hkeyed : db.experiments.get? 0 = none)
    (hrespects : RespectsRequests db (generate, c))
    (h : Cancelling db id) :
    Cancelling (db.process generate c) id := by
  obtain ⟨row, hrow, hstate⟩ := h
  rcases process_cases generate c hkeyed with heq | ⟨row', event, happlies⟩
  · rw [heq]
    exact ⟨row, hrow, hstate⟩
  · by_cases hid : id = c.experimentId
    · refine ⟨row', ?_, ?_⟩
      · rw [happlies.experiments, if_pos hid]
      · have hnext := happlies.next
        rw [← hid, hrow, Option.map_some] at hnext
        rcases hstate with hcancelled | ⟨hrunning, hrequested⟩
        · have hterminal : (lifecycleOf row).status.Terminal := Or.inr (Or.inr hcancelled)
          rw [Lifecycle.next_of_terminal hterminal] at hnext
          cases hnext
        · refine Lifecycle.next_requested (l := lifecycleOf row) hrunning hrequested ?_ hnext
          rintro command rfl
          rw [hid] at hrow
          have hclear := hrespects command rfl row hrow
          rw [hrequested] at hclear
          cases hclear
    · refine ⟨row, ?_, hstate⟩
      rw [happlies.experiments, if_neg hid]
      exact hrow

/-- While the experiment is cancelled or marked, nothing is lost. -/
theorem Cancelling.neverLost
    (hkeyed : db.experiments.get? 0 = none)
    (h : Cancelling db id) :
    NeverLost db id := by
  obtain ⟨row, hrow, hstate⟩ := h
  constructor
  · intro generate c db' r hid happly
    rcases apply_cases hkeyed happly with ⟨heq, halready, -⟩ | ⟨-, row', event, happlies⟩
    · exact ⟨halready, heq⟩
    · have hnext := happlies.next
      simp only [CoordinatorCommand.experimentId, hid, hrow, Option.map_some, Lifecycle.next]
        at hnext
      rw [if_neg] at hnext
      · cases hnext
      · rintro ⟨hpending, -⟩
        rcases hstate with hcancelled | ⟨hrunning, -⟩
        · exact absurd (hpending.symm.trans hcancelled) (by decide)
        · exact absurd (hpending.symm.trans hrunning) (by decide)
  · intro row' hrow' hterminal
    obtain rfl := Option.some.inj (hrow.symm.trans hrow')
    rcases hstate with hcancelled | ⟨hrunning, -⟩
    · exact hcancelled
    · rcases hterminal with hend | hend | hend <;> rw [hrunning] at hend <;> cases hend

end Steps

/-! ## Runs -/

/-- Every request that was applied is kept. -/
structure Keeping (db : Database) : Prop where
  keyed : db.experiments.get? 0 = none
  requests : ∀ key record, db.appliedCommands.get? key = some record →
    record.commandType = "RequestExperimentCancellationCommand" → Cancelling db record.experimentId

section Runs

variable {generate : ValueGenerator} {db db' : Database} {c : CoordinatorCommand}

theorem keeping_empty : Keeping Database.empty where
  keyed := rfl
  requests _ _ hrecord := nomatch hrecord

/-- The type of a command tells a request. -/
theorem eq_request_of_commandType
    (h : c.commandType = "RequestExperimentCancellationCommand") :
    ∃ command, c = .requestExperimentCancellation command := by
  cases c with
  | requestExperimentCancellation command => exact ⟨command, rfl⟩
  | _ => simp [CoordinatorCommand.commandType] at h

/-- A request that is applied marks or cancels its experiment. -/
theorem Applies.cancelling
    {row : ExperimentEntity} {event : Option ExperimentEventEntity}
    {command : RequestExperimentCancellationCommand}
    (h : Applies generate db (.requestExperimentCancellation command) row event db') :
    Cancelling db' command.experimentId := by
  refine ⟨row, ?_, Lifecycle.next_request h.next⟩
  rw [h.experiments]
  exact if_pos rfl

theorem Keeping.process
    (h : Keeping db)
    (hrespects : RespectsRequests db (generate, c)) :
    Keeping (db.process generate c) := by
  have hkept : ∀ id, Cancelling db id → Cancelling (db.process generate c) id :=
    fun id hid => hid.process h.keyed hrespects
  rcases process_cases generate c h.keyed with heq | ⟨row, event, happlies⟩
  · rw [heq]
    exact h
  constructor
  · rw [happlies.experiments, if_neg (Ne.symm (happlies.experimentId_ne_zero h.keyed))]
    exact h.keyed
  · intro key record hrecord htype
    rw [happlies.applied, Dict.get?_set] at hrecord
    split at hrecord
    case isTrue =>
      obtain rfl := Option.some.inj hrecord
      obtain ⟨command, rfl⟩ := eq_request_of_commandType htype
      exact happlies.cancelling
    case isFalse => exact hkept _ (h.requests key record hrecord htype)

/-- A run that respects requests keeps what earlier states have fixed. -/
theorem Keeping.run
    (id : Guid)
    (h : Keeping db)
    (hrun : processor.Reaches RespectsRequests db db') :
    Keeping db' ∧ (Cancelling db id → Cancelling db' id) := by
  induction hrun with
  | refl => exact ⟨h, fun hid => hid⟩
  | tail _ hrespects hstep ih =>
      cases hstep
      exact ⟨ih.1.process hrespects, fun hid => (ih.2 hid).process ih.1.keyed hrespects⟩

end Runs

/-- **A cancellation is never lost**, as long as no experiment whose cancellation
was requested is recovered on startup. -/
theorem never_lost
    {generate : ValueGenerator} {db db₁ db₂ : Database} {r : CommandApplicationResult}
    {command : RequestExperimentCancellationCommand}
    (h : processor.Reachable RespectsRequests db)
    (happly : db.apply generate (.requestExperimentCancellation command) = .ok (db₁, r))
    (hrun : processor.Reaches RespectsRequests db₁ db₂) :
    NeverLost db₂ command.experimentId := by
  obtain ⟨hkeeping, -⟩ := keeping_empty.run 0 h
  have hprocess : db.process generate (.requestExperimentCancellation command) = db₁ := by
    simp only [Database.process, happly]
  have hcancelling : Cancelling db₁ command.experimentId := by
    rcases apply_cases hkeeping.keyed happly with ⟨rfl, -, hrecorded⟩ | ⟨-, row, event, happlies⟩
    · -- the request had been applied before, and the run has kept it
      obtain ⟨record, row, hrecord, -, ⟨create, hcreate⟩ | ⟨htype, hid⟩⟩ := hrecorded
      · cases hcreate
      · rw [show command.experimentId = record.experimentId from hid.symm]
        exact hkeeping.requests _ record hrecord htype
    · exact happlies.cancelling
  have hkeeping₁ : Keeping db₁ := by
    rw [← hprocess]
    refine hkeeping.process ?_
    rintro recovery ⟨⟩
  obtain ⟨hkeeping₂, hkept⟩ := hkeeping₁.run command.experimentId hrun
  exact (hkept hcancelling).neverLost hkeeping₂.keyed

/-! ## A restart while a cancellation is pending -/

def sampleExperiment : CoordinatorCommand :=
  .createExperiment ⟨1, 0, 1, 1, "", "", "", 0, 0, 0, 0, false⟩

def sampleAssignment (commandId eventId : Guid) (attempt : Int32) : AssignExperimentCommand :=
  ⟨commandId, 0, 1, eventId, "worker", attempt⟩

def sampleRequest : RequestExperimentCancellationCommand := ⟨3, 0, 1, 3⟩

def sampleCompletion (attempt : Int32) (wasCancelled : Bool) : CoordinatorCommand :=
  .completeExperiment ⟨6, 0, 1, 6, "worker", attempt, true, wasCancelled, none, none, none⟩

/-- The experiment is created and assigned. -/
def assignedRun : List (ValueGenerator × CoordinatorCommand) :=
  [(unusedGenerator, sampleExperiment), (unusedGenerator, .assignExperiment (sampleAssignment 2 2 1))]

instance (db : Database) (request : ValueGenerator × CoordinatorCommand) :
    Decidable (RespectsRequests db request) :=
  match request with
  | (_, .recoverExperimentOnStartup command) =>
      decidable_of_iff (∀ row ∈ db.experiments.get? command.experimentId,
        row.cancellationRequested = false) (by simp [RespectsRequests])
  | (_, .createExperiment _) => isTrue (by simp [RespectsRequests])
  | (_, .assignExperiment _) => isTrue (by simp [RespectsRequests])
  | (_, .completeExperiment _) => isTrue (by simp [RespectsRequests])
  | (_, .requestExperimentCancellation _) => isTrue (by simp [RespectsRequests])
  | (_, .requeueExperiment _) => isTrue (by simp [RespectsRequests])

/-- The worker reports the cancellation. -/
theorem never_lost_sample :
    ∃ db db₁ r, processor.Reachable RespectsRequests db ∧
      db.apply unusedGenerator (.requestExperimentCancellation sampleRequest) = .ok (db₁, r) ∧
      NeverLost (db₁.process unusedGenerator (sampleCompletion 1 true)) 1 := by
  have hrun : ∃ db : Database, processor.Reaches RespectsRequests Database.empty db ∧
      (db.apply unusedGenerator
        (.requestExperimentCancellation sampleRequest)).toOption.isSome = true := by
    refine System.exists_reaches_of_exec assignedRun ?_
    decide +kernel
  obtain ⟨db, hreach, hsome⟩ := hrun
  cases happly : db.apply unusedGenerator (.requestExperimentCancellation sampleRequest) with
  | error e =>
      rw [happly] at hsome
      cases hsome
  | ok result =>
      obtain ⟨db₁, r⟩ := result
      refine ⟨db, db₁, r, hreach, happly, never_lost hreach happly ?_⟩
      refine System.Reaches.tail (l := (unusedGenerator, sampleCompletion 1 true))
        (System.Reaches.refl db₁) ?_ rfl
      rintro recovery ⟨⟩

/-- Whether a request, a recovery and an assignment succeed and the experiment
completes. -/
def losesCancellation (db : Database) : Bool :=
  (db.apply unusedGenerator (.requestExperimentCancellation sampleRequest)).toOption.any
    fun requested =>
  !requested.2.wasAlreadyApplied && (requested.1.experiments.get? 1).any fun row =>
  (requested.1.apply unusedGenerator (startupRecovery 4 4 0 1 row)).toOption.any fun recovered =>
  (recovered.1.apply unusedGenerator (.assignExperiment (sampleAssignment 5 5 2))).toOption.any
    fun assigned =>
  !assigned.2.wasAlreadyApplied &&
    ((assigned.1.process unusedGenerator (sampleCompletion 2 false)).experiments.get? 1).any
      fun row => decide (row.status = .completed)

theorem ok_of_toOption
    {ε α : Type} {result : Except ε α} {a : α}
    (h : result.toOption = some a) :
    result = .ok a := by
  cases result with
  | error e => cases h
  | ok b =>
      cases h
      rfl

/-- **A lost cancellation.**  The recovery on startup returns the marked experiment
to the queue; it is assigned again and completes. -/
theorem exists_lost_cancellation :
    ∃ (db db₁ db₂ db₃ : Database) (r₁ r₂ r₃ : CommandApplicationResult) (row : ExperimentEntity),
      processor.Reachable System.anyStep db ∧
      db.apply unusedGenerator (.requestExperimentCancellation sampleRequest) = .ok (db₁, r₁) ∧
      r₁.wasAlreadyApplied = false ∧
      db₁.experiments.get? 1 = some row ∧
      db₁.apply unusedGenerator (startupRecovery 4 4 0 1 row) = .ok (db₂, r₂) ∧
      db₂.apply unusedGenerator (.assignExperiment (sampleAssignment 5 5 2)) = .ok (db₃, r₃) ∧
      r₃.wasAlreadyApplied = false ∧
      (∃ row', (db₃.process unusedGenerator (sampleCompletion 2 false)).experiments.get? 1 =
        some row' ∧ row'.status = .completed) ∧
      ¬ NeverLost db₂ 1 := by
  have hrun : ∃ db : Database, processor.Reaches System.anyStep Database.empty db ∧
      losesCancellation db = true := by
    refine System.exists_reaches_of_exec assignedRun ?_
    decide +kernel
  obtain ⟨db, hreach, hloses⟩ := hrun
  simp only [losesCancellation, Option.any_eq_true, Bool.and_eq_true, Bool.not_eq_true',
    decide_eq_true_eq] at hloses
  obtain ⟨⟨db₁, r₁⟩, hrequest, hnew, row, hrow, ⟨db₂, r₂⟩, hrecovery, ⟨db₃, r₃⟩, hassign,
    hfresh, hcompleted⟩ := hloses
  refine ⟨db, db₁, db₂, db₃, r₁, r₂, r₃, row, hreach, ok_of_toOption hrequest, hnew, hrow,
    ok_of_toOption hrecovery, ok_of_toOption hassign, hfresh, hcompleted, ?_⟩
  intro hkept
  have halready := (hkept.notAssigned _ _ _ _ rfl (ok_of_toOption hassign)).1
  rw [hfresh] at halready
  cases halready

end Coordinator
end DistributedConsensus
