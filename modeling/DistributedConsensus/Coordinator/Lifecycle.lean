import DistributedConsensus.Coordinator.Processor

/-!
# Coordinator: the lifecycle of an experiment

What the commands depend on of an experiment is a small automaton: its status,
its worker, its attempt and whether its cancellation was requested.  A command
is admissible when the automaton of its experiment has a transition for it and
its event gets a new key.

The command processor applies exactly the admissible commands
(`apply_matches`).
-/

namespace DistributedConsensus
namespace Coordinator

open Foundations
open Raft (Guid)

/-- What the commands depend on of an experiment. -/
structure Lifecycle where
  status : ExperimentStatus
  worker : Option String
  attempt : Int32
  cancellationRequested : Bool
deriving DecidableEq

namespace Lifecycle

/-- The transition of an experiment, which may not exist yet, under a command. -/
def next : Option Lifecycle → CoordinatorCommand → Option Lifecycle
  | none, .createExperiment c =>
      if c.experimentId = 0 then none else some ⟨.pending, none, 0, false⟩
  | none, _ => none
  | some _, .createExperiment _ => none
  | some l, .assignExperiment c =>
      if l.status = .pending ∧ l.attempt = c.attempt - 1 then
        some ⟨.running, some c.workerId, c.attempt, false⟩
      else none
  | some l, .completeExperiment c =>
      if l = ⟨.running, some c.workerId, c.attempt, c.wasCancelled⟩ then
        some { l with status := Database.finalStatus c }
      else none
  | some l, .requestExperimentCancellation _ =>
      match l.status with
      | .pending => some { l with status := .cancelled, cancellationRequested := true }
      | .running => some { l with cancellationRequested := true }
      | _ => none
  | some l, .requeueExperiment c =>
      if l = ⟨.running, some c.workerId, c.attempt, c.cancelInsteadOfRequeue⟩ then
        some { l with
          status := if c.cancelInsteadOfRequeue then .cancelled else .pending
          worker := none }
      else none
  | some l, .recoverExperimentOnStartup c =>
      if l.status = .running ∧ l.worker = c.previousWorkerId ∧ l.attempt = c.attempt then
        some { l with status := .pending, worker := none }
      else none

/-- Whether a command leaves an event: a repeated request for cancellation does not. -/
def recordsEvent : Option Lifecycle → CoordinatorCommand → Bool
  | some l, .requestExperimentCancellation _ =>
      !(decide (l.status = .running) && l.cancellationRequested)
  | _, _ => true

/-- All other commands leave an event. -/
theorem recordsEvent_eq_true
    {l : Option Lifecycle} {c : CoordinatorCommand}
    (hc : ∀ command, c ≠ .requestExperimentCancellation command) :
    recordsEvent l c = true := by
  cases c with
  | requestExperimentCancellation command => exact absurd rfl (hc command)
  | _ => cases l <;> rfl

end Lifecycle

/-- The lifecycles of all experiments and the keys of the events. -/
structure Lifecycles where
  experiments : Guid → Option Lifecycle
  events : List Guid

namespace Lifecycles

/-- Nothing has happened. -/
def empty : Lifecycles := ⟨fun _ => none, []⟩

/-- An experiment moves on and leaves an event, unless its key is taken. -/
def record (generate : ValueGenerator) (h : Lifecycles) (c : CoordinatorCommand)
    (l : Lifecycle) (withEvent : Bool) : Option Lifecycles :=
  let experiments := Function.update h.experiments c.experimentId (some l)
  if withEvent then
    let key := keyOnAdd generate h.events c.eventId
    if key ∈ h.events then none else some ⟨experiments, h.events ++ [key]⟩
  else some ⟨experiments, h.events⟩

/-- The transition under a command. -/
def next (generate : ValueGenerator) (h : Lifecycles) (c : CoordinatorCommand) :
    Option Lifecycles :=
  match Lifecycle.next (h.experiments c.experimentId) c with
  | none => none
  | some l => h.record generate c l (Lifecycle.recordsEvent (h.experiments c.experimentId) c)

end Lifecycles

/-- Every command finds its experiment in a state that has a transition for it,
and its event gets a new key. -/
def Admissible (generate : ValueGenerator) (commands : List CoordinatorCommand) : Prop :=
  (commands.foldlM (Lifecycles.next generate) Lifecycles.empty).isSome

instance (generate : ValueGenerator) (commands : List CoordinatorCommand) :
    Decidable (Admissible generate commands) :=
  inferInstanceAs (Decidable (_ = true))

/-! ## The tables reflect the lifecycles -/

/-- The lifecycle of a row. -/
def lifecycleOf (experiment : ExperimentEntity) : Lifecycle where
  status := experiment.status
  worker := experiment.assignedWorkerId
  attempt := experiment.attempt
  cancellationRequested := experiment.cancellationRequested

/-- The tables hold the lifecycles, and the commands that were applied. -/
structure Reflects (db : Database) (h : Lifecycles) (applied : List Guid) : Prop where
  experiments : ∀ id, (db.experiments.get? id).map lifecycleOf = h.experiments id
  keyed : db.experiments.get? 0 = none
  events : db.experimentEvents.keys = h.events
  applied : db.appliedCommands.keys = applied

/-- The outcome of a command agrees with the transition of the lifecycles. -/
def Matches (c : CoordinatorCommand) (applied : List Guid)
    (result : Except ApplyError (Database × CommandApplicationResult)) :
    Option Lifecycles → Prop
  | none => ∃ e, result = .error e
  | some h => ∃ db r, result = .ok (db, r) ∧ Reflects db h (applied ++ [c.commandId])

theorem reflects_empty : Reflects Database.empty Lifecycles.empty [] :=
  ⟨fun _ => rfl, rfl, rfl, rfl⟩

section Save

variable {generate : ValueGenerator} {db : Database} {h : Lifecycles} {applied : List Guid}
  {c : CoordinatorCommand}

theorem contains_iff
    {V : Type} {d : Dict Guid V} {k : Guid} :
    d.contains k = true ↔ k ∈ d.keys := by
  unfold Dict.contains
  rw [Option.isSome_iff_ne_none, ne_eq, Dict.get?_eq_none_iff, not_not]

variable (generate) in
/-- The command is recorded last. -/
theorem Reflects.addAppliedCommand
    (hr : Reflects db h applied)
    (hid : c.commandId ≠ 0)
    (hnew : c.commandId ∉ applied) (experimentId : Guid) :
    ∃ db', db.addAppliedCommand generate c experimentId = .ok db' ∧
      db'.experiments = db.experiments ∧ Reflects db' h (applied ++ [c.commandId]) := by
  have hkey : keyOnAdd generate db.appliedCommands.keys c.commandId = c.commandId :=
    keyOnAdd_of_ne_zero hid
  have hfree : c.commandId ∉ db.appliedCommands.keys := by
    rw [hr.applied]
    exact hnew
  unfold Database.addAppliedCommand
  simp only
  rw [hkey, if_neg (by rw [contains_iff]; exact hfree)]
  refine ⟨_, rfl, rfl, { hr with applied := ?_ }⟩
  rw [← hr.applied]
  exact Dict.keys_set_of_get?_eq_none ((Dict.get?_eq_none_iff _ _).mpr hfree) _

/-- Saving succeeds unless the key of the event is taken. -/
theorem saveChanges_matches
    {l : Lifecycle} {event : Option ExperimentEventEntity}
    (hr : Reflects db ⟨Function.update h.experiments c.experimentId (some l), h.events⟩ applied)
    (hid : c.commandId ≠ 0)
    (hnew : c.commandId ∉ applied)
    (hevent : ∀ e ∈ event, e.experimentId = c.experimentId) :
    Matches c applied (db.saveChanges generate c event)
      (h.record generate c l event.isSome) := by
  obtain ⟨experiment, hexperiment⟩ : ∃ e, db.experiments.get? c.experimentId = some e := by
    have hrow := hr.experiments c.experimentId
    simp only [Function.update_self, Option.map_eq_some_iff] at hrow
    obtain ⟨e, he, -⟩ := hrow
    exact ⟨e, he⟩
  unfold Database.saveChanges Lifecycles.record
  cases event with
  | none =>
      obtain ⟨db', heq, hsame, hr'⟩ := hr.addAppliedCommand generate hid hnew c.experimentId
      simp only [Database.addCommandEvent]
      rw [heq]
      simp only
      rw [hsame, hexperiment]
      exact ⟨db', _, rfl, hr'⟩
  | some event =>
      have hevents : db.experimentEvents.keys = h.events := hr.events
      simp only [Database.addCommandEvent, Database.addExperimentEvent, Option.isSome_some,
        if_true]
      rw [hevents]
      by_cases htaken : keyOnAdd generate h.events c.eventId ∈ h.events
      · rw [if_pos (by rw [contains_iff, hevents]; exact htaken), if_pos htaken]
        exact ⟨_, rfl⟩
      · have hfk : db.experiments.contains event.experimentId = true := by
          rw [hevent event rfl]
          unfold Dict.contains
          rw [hexperiment]
          rfl
        have hfree : keyOnAdd generate h.events c.eventId ∉ db.experimentEvents.keys := by
          rw [hevents]
          exact htaken
        rw [if_neg (by rw [contains_iff]; exact hfree), if_neg htaken, hfk]
        simp only [Bool.not_true, Bool.false_eq_true, if_false]
        have hr₁ : Reflects { db with
            experimentEvents :=
              db.experimentEvents.set (keyOnAdd generate h.events c.eventId) event }
            ⟨Function.update h.experiments c.experimentId (some l),
              h.events ++ [keyOnAdd generate h.events c.eventId]⟩ applied := by
          refine { hr with events := ?_ }
          rw [← hevents] at hfree ⊢
          exact Dict.keys_set_of_get?_eq_none ((Dict.get?_eq_none_iff _ _).mpr hfree) _
        obtain ⟨db', heq, hsame, hr'⟩ := hr₁.addAppliedCommand generate hid hnew c.experimentId
        rw [heq]
        simp only
        rw [hsame, hexperiment]
        exact ⟨db', _, rfl, hr'⟩

/-- Replacing the row of an experiment moves its lifecycle. -/
theorem Reflects.setExperiment
    {experiment : ExperimentEntity} {id : Guid}
    (hr : Reflects db h applied)
    (hne : id ≠ 0) :
    Reflects { db with experiments := db.experiments.set id experiment }
      ⟨Function.update h.experiments id (some (lifecycleOf experiment)), h.events⟩ applied where
  experiments id' := by
    simp only [Dict.get?_set]
    by_cases hid : id' = id
    · subst hid
      rw [if_pos rfl, Function.update_self]
      rfl
    · rw [if_neg hid, Function.update_of_ne hid]
      exact hr.experiments id'
  keyed := by
    simp only [Dict.get?_set]
    rw [if_neg (Ne.symm hne)]
    exact hr.keyed
  events := hr.events
  applied := hr.applied

theorem Reflects.ne_zero
    {experiment : ExperimentEntity} {id : Guid}
    (hr : Reflects db h applied)
    (hget : db.experiments.get? id = some experiment) :
    id ≠ 0 := by
  rintro rfl
  rw [hr.keyed] at hget
  cases hget

/-- An update succeeds where its condition is that of the transition. -/
theorem updateAndSave_matches
    {condition : ExperimentEntity → Bool} {setters : ExperimentEntity → ExperimentEntity}
    {failure : ApplyError} {event : ExperimentEventEntity}
    (hr : Reflects db h applied)
    (hid : c.commandId ≠ 0)
    (hnew : c.commandId ∉ applied)
    (hevent : event.experimentId = c.experimentId)
    (hrecords : Lifecycle.recordsEvent (h.experiments c.experimentId) c = true)
    (hnone : Lifecycle.next none c = none)
    (hsome : ∀ experiment, db.experiments.get? c.experimentId = some experiment →
      Lifecycle.next (some (lifecycleOf experiment)) c =
        if condition experiment then some (lifecycleOf (setters experiment)) else none) :
    Matches c applied (db.updateAndSave generate c condition setters failure event)
      (h.next generate c) := by
  have hrow := hr.experiments c.experimentId
  unfold Database.updateAndSave Database.executeUpdate Lifecycles.next
  rw [hrecords, ← hrow]
  cases hget : db.experiments.get? c.experimentId with
  | none =>
      rw [Option.map_none, hnone]
      exact ⟨failure, rfl⟩
  | some experiment =>
      rw [Option.map_some, hsome experiment hget]
      by_cases hcond : condition experiment = true
      · simp only [hcond, if_true]
        have hevent' : ∀ e ∈ some event, e.experimentId = c.experimentId := by
          rintro e ⟨⟩
          exact hevent
        exact saveChanges_matches (hr.setExperiment (hr.ne_zero hget)) hid hnew hevent'
      · simp only [hcond]
        exact ⟨failure, rfl⟩

end Save

/-! ## The six commands -/

section Apply

variable {generate : ValueGenerator} {db : Database} {h : Lifecycles} {applied : List Guid}

theorem Reflects.get?_appliedCommands
    {commandId : Guid}
    (hr : Reflects db h applied)
    (hnew : commandId ∉ applied) :
    db.appliedCommands.get? commandId = none := by
  rw [Dict.get?_eq_none_iff, hr.applied]
  exact hnew

/-- A new command is applied. -/
theorem unlessApplied_of_new
    {c : CoordinatorCommand} {result : Except ApplyError (Database × CommandApplicationResult)}
    (hnew : db.appliedCommands.get? c.commandId = none) :
    db.unlessApplied c result = result := by
  unfold Database.unlessApplied Database.getPreviouslyAppliedResult
  rw [hnew]

/-- Where the lifecycle has no transition, an error is right. -/
theorem matches_error
    {c : CoordinatorCommand}
    (hnext : Lifecycle.next (h.experiments c.experimentId) c = none) (e : ApplyError) :
    Matches c applied (.error e) (h.next generate c) := by
  unfold Lifecycles.next
  rw [hnext]
  exact ⟨e, rfl⟩

/-- An event needs its experiment. -/
theorem saveChanges_error
    {c : CoordinatorCommand} {event : ExperimentEventEntity}
    (hmissing : db.experiments.get? event.experimentId = none) :
    ∃ e, db.saveChanges generate c (some event) = .error e := by
  have hfk : db.experiments.contains event.experimentId = false := by
    unfold Dict.contains
    rw [hmissing]
    rfl
  unfold Database.saveChanges Database.addCommandEvent Database.addExperimentEvent
  simp only [hfk, Bool.not_false, if_true]
  by_cases htaken : db.experimentEvents.contains
      (keyOnAdd generate db.experimentEvents.keys c.eventId) = true
  · rw [if_pos htaken]
    exact ⟨_, rfl⟩
  · rw [if_neg htaken]
    exact ⟨_, rfl⟩

theorem applyCreateExperiment_matches
    {command : CreateExperimentCommand}
    (hr : Reflects db h applied)
    (hid : command.commandId ≠ 0)
    (hnew : command.commandId ∉ applied) :
    Matches (.createExperiment command) applied (db.applyCreateExperiment generate command)
      (h.next generate (.createExperiment command)) := by
  have hrow := hr.experiments command.experimentId
  unfold Database.applyCreateExperiment Lifecycles.next
  rw [hr.get?_appliedCommands hnew]
  simp only [CoordinatorCommand.experimentId, ← hrow]
  cases hget : db.experiments.get? command.experimentId with
  | some experiment =>
      have hcontains : db.experiments.contains command.experimentId = true := by
        unfold Dict.contains
        rw [hget]
        rfl
      rw [if_pos hcontains]
      exact ⟨_, rfl⟩
  | none =>
      have hcontains : ¬ db.experiments.contains command.experimentId = true := by
        unfold Dict.contains
        rw [hget]
        simp
      rw [if_neg hcontains]
      unfold Database.addExperiment
      simp only [Option.map_none, Lifecycle.next]
      by_cases hzero : command.experimentId = 0
      · -- The row gets a generated key, so the event has no experiment.
        rw [if_pos hzero]
        have hkey := keyOnAdd_ne_zero generate db.experiments.keys command.experimentId
        by_cases htaken : db.experiments.contains
            (keyOnAdd generate db.experiments.keys command.experimentId) = true
        · rw [if_pos htaken]
          exact ⟨_, rfl⟩
        · rw [if_neg htaken]
          refine saveChanges_error ?_
          simp only [Dict.get?_set, hzero]
          rw [hzero] at hkey
          rw [if_neg (Ne.symm hkey)]
          exact hr.keyed
      · have hkey : keyOnAdd generate db.experiments.keys command.experimentId =
            command.experimentId := keyOnAdd_of_ne_zero hzero
        rw [hkey, if_neg hcontains, if_neg hzero]
        refine saveChanges_matches (hr.setExperiment hzero) hid hnew ?_
        rintro e ⟨⟩
        rfl

theorem applyRequestExperimentCancellation_matches
    {command : RequestExperimentCancellationCommand}
    (hr : Reflects db h applied)
    (hid : command.commandId ≠ 0)
    (hnew : command.commandId ∉ applied) :
    Matches (.requestExperimentCancellation command) applied
      (db.applyRequestExperimentCancellation generate command)
      (h.next generate (.requestExperimentCancellation command)) := by
  have hrow := hr.experiments command.experimentId
  unfold Database.applyRequestExperimentCancellation
  rw [unlessApplied_of_new (c := .requestExperimentCancellation command)
    (hr.get?_appliedCommands hnew)]
  cases hget : db.experiments.get? command.experimentId with
  | none =>
      rw [hget] at hrow
      refine matches_error ?_ _
      simp only [CoordinatorCommand.experimentId, ← hrow]
      rfl
  | some experiment =>
      rw [hget, Option.map_some] at hrow
      have hsame : ∀ e, db.experiments.get? command.experimentId = some e → e = experiment :=
        fun e he => Option.some.inj (he.symm.trans hget)
      have hlifecycle : Lifecycle.next (h.experiments command.experimentId)
          (.requestExperimentCancellation command) =
          match experiment.status with
          | .pending => some { lifecycleOf experiment with
              status := .cancelled, cancellationRequested := true }
          | .running => some { lifecycleOf experiment with cancellationRequested := true }
          | _ => none := by
        rw [← hrow]
        rfl
      simp only
      cases hstatus : experiment.status with
      | pending =>
          refine updateAndSave_matches hr hid hnew rfl ?_ rfl ?_
          · simp [CoordinatorCommand.experimentId, ← hrow, Lifecycle.recordsEvent,
              lifecycleOf, hstatus]
          · intro e he
            rw [hsame e he]
            simp [Lifecycle.next, lifecycleOf, hstatus]
      | running =>
          simp only
          by_cases hrequested : experiment.cancellationRequested = true
          · rw [if_pos hrequested]
            have hstay : Function.update h.experiments command.experimentId
                (some (lifecycleOf experiment)) = h.experiments := by
              rw [hrow]
              exact Function.update_eq_self _ _
            have hr' : Reflects db ⟨Function.update h.experiments command.experimentId
                (some (lifecycleOf experiment)), h.events⟩ applied := by
              rw [hstay]
              exact hr
            have hnext : h.next generate (.requestExperimentCancellation command) =
                h.record generate (.requestExperimentCancellation command)
                  (lifecycleOf experiment) false := by
              unfold Lifecycles.next
              simp [CoordinatorCommand.experimentId, ← hrow, Lifecycle.next,
                Lifecycle.recordsEvent, lifecycleOf, hstatus, hrequested]
            rw [hnext]
            exact saveChanges_matches (c := .requestExperimentCancellation command) hr' hid hnew
              (by rintro e ⟨⟩)
          · rw [if_neg hrequested]
            refine updateAndSave_matches hr hid hnew rfl ?_ rfl ?_
            · simp [CoordinatorCommand.experimentId, ← hrow, Lifecycle.recordsEvent,
                lifecycleOf, hrequested]
            · intro e he
              rw [hsame e he]
              simp [Lifecycle.next, lifecycleOf, hstatus, hrequested]
      | completed =>
          rw [hstatus] at hlifecycle
          exact matches_error hlifecycle _
      | failed =>
          rw [hstatus] at hlifecycle
          exact matches_error hlifecycle _
      | cancelled =>
          rw [hstatus] at hlifecycle
          exact matches_error hlifecycle _

theorem applyRequeueExperiment_matches
    {command : RequeueExperimentCommand}
    (hr : Reflects db h applied)
    (hid : command.commandId ≠ 0)
    (hnew : command.commandId ∉ applied) :
    Matches (.requeueExperiment command) applied (db.applyRequeueExperiment generate command)
      (h.next generate (.requeueExperiment command)) := by
  have hrow := hr.experiments command.experimentId
  unfold Database.applyRequeueExperiment
  rw [unlessApplied_of_new (c := .requeueExperiment command) (hr.get?_appliedCommands hnew)]
  cases hget : db.experiments.get? command.experimentId with
  | none =>
      rw [hget] at hrow
      refine matches_error ?_ _
      simp only [CoordinatorCommand.experimentId, ← hrow]
      rfl
  | some experiment =>
      rw [hget, Option.map_some] at hrow
      have hsame : ∀ e, db.experiments.get? command.experimentId = some e → e = experiment :=
        fun e he => Option.some.inj (he.symm.trans hget)
      -- The transition exists exactly if all checks of the processor pass.
      have hlifecycle : lifecycleOf experiment ≠ ⟨.running, some command.workerId,
          command.attempt, command.cancelInsteadOfRequeue⟩ →
          Lifecycle.next (h.experiments command.experimentId) (.requeueExperiment command) =
            none := by
        intro hne
        rw [← hrow]
        exact if_neg hne
      simp only
      by_cases hrunning : experiment.status ≠ .running ∨
          experiment.assignedWorkerId ≠ some command.workerId ∨
          experiment.attempt ≠ command.attempt
      · rw [if_pos hrunning]
        refine matches_error (hlifecycle fun heq => ?_) _
        rw [Lifecycle.mk.injEq] at heq
        rcases hrunning with hne | hne | hne
        · exact hne heq.1
        · exact hne heq.2.1
        · exact hne heq.2.2.1
      · rw [if_neg hrunning]
        push Not at hrunning
        obtain ⟨hstatus, hworker, hattempt⟩ := hrunning
        by_cases hcancel : experiment.cancellationRequested ≠ command.cancelInsteadOfRequeue
        · rw [if_pos hcancel]
          refine matches_error (hlifecycle fun heq => ?_) _
          rw [Lifecycle.mk.injEq] at heq
          exact hcancel heq.2.2.2
        · rw [if_neg hcancel]
          push Not at hcancel
          by_cases hflag : command.cancelInsteadOfRequeue = true
          · rw [if_pos hflag]
            refine updateAndSave_matches hr hid hnew rfl
              (Lifecycle.recordsEvent_eq_true (by rintro _ ⟨⟩)) rfl ?_
            intro e he
            rw [hsame e he]
            simp [Lifecycle.next, lifecycleOf, hstatus, hworker, hattempt, hcancel, hflag]
          · rw [if_neg hflag]
            refine updateAndSave_matches hr hid hnew rfl
              (Lifecycle.recordsEvent_eq_true (by rintro _ ⟨⟩)) rfl ?_
            intro e he
            rw [hsame e he]
            simp [Lifecycle.next, lifecycleOf, hstatus, hworker, hattempt, hcancel, hflag]

variable (generate) in
/-- The processor applies exactly the commands that the lifecycles admit. -/
theorem apply_matches
    {c : CoordinatorCommand}
    (hr : Reflects db h applied)
    (hid : c.commandId ≠ 0)
    (hnew : c.commandId ∉ applied) :
    Matches c applied (db.apply generate c) (h.next generate c) := by
  have hfresh := hr.get?_appliedCommands hnew
  cases c with
  | createExperiment command => exact applyCreateExperiment_matches hr hid hnew
  | assignExperiment command =>
      unfold Database.apply Database.applyAssignExperiment
      simp only
      rw [unlessApplied_of_new hfresh]
      refine updateAndSave_matches hr hid hnew rfl
        (Lifecycle.recordsEvent_eq_true (by rintro _ ⟨⟩)) rfl ?_
      intro e _
      by_cases hcond : e.status = .pending ∧ e.attempt = command.attempt - 1
      · simp [Lifecycle.next, lifecycleOf, hcond]
      · simp [Lifecycle.next, lifecycleOf, hcond]
  | completeExperiment command =>
      unfold Database.apply Database.applyCompleteExperiment
      simp only
      rw [unlessApplied_of_new hfresh]
      refine updateAndSave_matches hr hid hnew rfl
        (Lifecycle.recordsEvent_eq_true (by rintro _ ⟨⟩)) rfl ?_
      intro e _
      by_cases hcond : lifecycleOf e =
          ⟨.running, some command.workerId, command.attempt, command.wasCancelled⟩
      · have hfields := Lifecycle.mk.inj hcond
        simp [Lifecycle.next, lifecycleOf, hfields]
      · have hnot : ¬ (e.status = .running ∧ e.assignedWorkerId = some command.workerId ∧
            e.attempt = command.attempt ∧ e.cancellationRequested = command.wasCancelled) := by
          rintro ⟨h₁, h₂, h₃, h₄⟩
          exact hcond (by simp [lifecycleOf, h₁, h₂, h₃, h₄])
        simp [Lifecycle.next, hcond, and_assoc, hnot]
  | requestExperimentCancellation command =>
      exact applyRequestExperimentCancellation_matches hr hid hnew
  | requeueExperiment command => exact applyRequeueExperiment_matches hr hid hnew
  | recoverExperimentOnStartup command =>
      unfold Database.apply Database.applyRecoverExperimentOnStartup
      simp only
      rw [unlessApplied_of_new hfresh]
      refine updateAndSave_matches hr hid hnew rfl
        (Lifecycle.recordsEvent_eq_true (by rintro _ ⟨⟩)) rfl ?_
      intro e _
      by_cases hcond : e.status = .running ∧ e.assignedWorkerId = command.previousWorkerId ∧
          e.attempt = command.attempt
      · simp [Lifecycle.next, lifecycleOf, hcond]
      · simp [Lifecycle.next, lifecycleOf, and_assoc, hcond]

end Apply

end Coordinator
end DistributedConsensus
