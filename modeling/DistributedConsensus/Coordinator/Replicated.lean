import DistributedConsensus.Coordinator.Scheduling
import DistributedConsensus.Coordinator.Raft.Provenance

/-!
# Coordinator: the replicated cluster

Coordinators that replicate their commands.  Requests and recoveries submit
commands to the log of the leader, the applier of a node fills its tables from
the committed entries, and the scheduler of the leader assigns experiments.  All
services of a node and all nodes interleave between any two of their steps.

The scheduler decides on the applied tables, and an assignment of its own that
timed out, or one of an earlier leader, may still wait in the log behind them.
As long as no such assignment to the same worker is there when the next one is
appended, and commands are appended by current leaders, no worker ever has two
running experiments: `onePerWorker_of_covered`.
-/

namespace DistributedConsensus
namespace Coordinator

open Foundations
open Foundations.ReplicatedLog
open Raft (Guid Node World Label Membership worldStep initialWorld AppendsAsLeader appendCommand
  checkedSucc RaftLogEntry RaftNodeRole LogStore)

/-! ## The services of a node -/

/-- Where the scheduling cycle of a node stands.  The number of marked entries at
the time at which the tables were read for running experiments is remembered. -/
inductive SchedulerState where
  | idle
  | checking (onlineWorkers : List String)
  | choosing (seen : Nat) (workerId : String) (onlineWorkers : List String)
  | submitting (seen : Nat) (command : AssignExperimentCommand) (onlineWorkers : List String)
  | appending (seen : Nat) (command : AssignExperimentCommand) (onlineWorkers : List String)
  | waiting (onlineWorkers : List String)
  | stopped
deriving DecidableEq

namespace SchedulerState

/-- What the scheduler has found: up to which entry, and which worker is idle. -/
def decision : SchedulerState → Option (Nat × String)
  | choosing seen workerId _ => some (seen, workerId)
  | submitting seen command _ => some (seen, command.workerId)
  | appending seen command _ => some (seen, command.workerId)
  | _ => none

/-- The assignment that waits for the submitter. -/
def submitted : SchedulerState → Option AssignExperimentCommand
  | submitting _ command _ => some command
  | _ => none

/-- The assignment that is being appended, and up to which entry the tables were
read for it. -/
def appended : SchedulerState → Option (Nat × AssignExperimentCommand)
  | appending seen command _ => some (seen, command)
  | _ => none

/-- The assignment has been appended. -/
def onAppended : SchedulerState → SchedulerState
  | appending _ _ onlineWorkers => waiting onlineWorkers
  | state => state

/-- The submission has ended: the cycle goes on with the next worker. -/
def onSubmitted : SchedulerState → SchedulerState
  | waiting onlineWorkers => checking onlineWorkers
  | state => state

/-- The submission has thrown: the service ends. -/
def onThrown : SchedulerState → SchedulerState
  | appending _ _ _ => stopped
  | waiting _ => stopped
  | state => state

end SchedulerState

/-- The tables and the services of a node: whether an entry has been applied and
not been marked, whether the lock of the submitter is taken, and the scheduler. -/
structure Services where
  database : Database
  unmarked : Bool
  submitting : Bool
  scheduler : SchedulerState

/-- The services of a coordinator that starts. -/
def Services.start (database : Database) : Services :=
  ⟨database, false, false, .idle⟩

/-- A cluster of coordinators. -/
structure Replicas (ι : Type) where
  world : World ι
  services : ι → Services

/-- The steps of a cluster of coordinators. -/
inductive ReplicaLabel (ι : Type) where
  | raft (label : Label ι)
  | crash (i : ι)
  | submit (i : ι) (command : CoordinatorCommand)
  | append (i : ι)
  | endSubmission (i : ι) (throws : Bool)
  | apply (i : ι) (generate : ValueGenerator)
  | markApplied (i : ι)
  | reportProgress (i : ι) (now : DateTimeOffset) (id : Guid)
      (request : ReportExperimentProgressRequest)
  | beginCycle (i : ι) (onlineWorkers : List String)
  | checkWorker (i : ι)
  | choosePending (i : ι) (stamp : Stamp)
  | beginSubmission (i : ι)

section Step

variable {ι : Type} [DecidableEq ι] (json : JsonSerializer) (M : Membership ι)

/-- Replace the cluster and the services of a node. -/
def Replicas.put (s : Replicas ι) (world : World ι) (i : ι) (services : Services) : Replicas ι :=
  ⟨world, Function.update s.services i services⟩

omit [DecidableEq ι] in
/-- Appending the command of the submission throws. -/
def appendThrows (n : Node ι) : Bool :=
  match n.submission with
  | none => false
  | some task =>
      match appendCommand n.logStore task.command task.term with
      | .error _ => true
      | .ok _ => false

omit [DecidableEq ι] in
/-- Apply the next committed entry, unless there is none or an exception is thrown. -/
def applyEntry (generate : ValueGenerator) (n : Node ι) (database : Database) :
    Option Database :=
  if n.lastApplied ≥ n.commitIndex then none
  else
    match checkedSucc n.lastApplied with
    | none => none
    | some nextIndex =>
        match n.logStore.get nextIndex with
        | none => none
        | some entry =>
            match deserializeCommand json entry with
            | .error _ => none
            | .ok command =>
                match database.apply generate command with
                | .error _ => none
                | .ok (database, _) => some database

/-- One step of the scheduling cycle of a node with a given log and tables. -/
def Services.checkWorker (c : Services) (lastApplied : Nat) : Option Services :=
  match c.scheduler with
  | .checking [] => some { c with scheduler := .idle }
  | .checking (workerId :: onlineWorkers) =>
      if c.database.hasRunningExperiment workerId then
        some { c with scheduler := .checking onlineWorkers }
      else some { c with scheduler := .choosing lastApplied workerId onlineWorkers }
  | _ => none

/-- The next pending experiment is chosen, and a command is built. -/
def Services.choosePending (c : Services) (stamp : Stamp) : Option Services :=
  match c.scheduler with
  | .choosing seen workerId onlineWorkers =>
      match c.database.getNextPending with
      | none => some { c with scheduler := .checking onlineWorkers }
      | some pending =>
          some { c with
            scheduler := .submitting seen (Database.assignCommand stamp workerId pending)
              onlineWorkers }
  | _ => none

/-- A step of a cluster of coordinators; a step that is not possible has no result. -/
def replicatedStep (s : Replicas ι) : ReplicaLabel ι → Option (Replicas ι)
  | .raft label =>
      if label.isInternal then
        match worldStep M s.world label with
        | none => none
        | some world => some { s with world := world }
      else none
  | .crash i =>
      match worldStep M s.world (.restart i) with
      | none => none
      | some world => some (s.put world i (.start (s.services i).database))
  | .submit i command =>
      if (s.services i).submitting ∨ command.assignedWorker.isSome then none
      else if (s.world.nodes i).role ≠ .leader then some s
      else
        match worldStep M s.world (.submitSnapshot i (serialize json command)) with
        | none => none
        | some world => some (s.put world i { s.services i with submitting := true })
  | .append i =>
      match worldStep M s.world (.submitAppend i) with
      | none => none
      | some world =>
          if appendThrows (s.world.nodes i) then
            some (s.put world i { s.services i with
              submitting := false
              scheduler := (s.services i).scheduler.onThrown })
          else
            some (s.put world i { s.services i with
              scheduler := (s.services i).scheduler.onAppended })
  | .endSubmission i throws =>
      if (s.services i).submitting = false ∨ (s.world.nodes i).submission.isSome then none
      else
        some (s.put s.world i { s.services i with
          submitting := false
          scheduler :=
            if throws then (s.services i).scheduler.onThrown
            else (s.services i).scheduler.onSubmitted })
  | .apply i generate =>
      if (s.services i).unmarked then none
      else
        match applyEntry json generate (s.world.nodes i) (s.services i).database with
        | none => none
        | some database =>
            some (s.put s.world i { s.services i with database := database, unmarked := true })
  | .markApplied i =>
      if (s.services i).unmarked then
        match worldStep M s.world (.markApplied i) with
        | none => some (s.put s.world i { s.services i with unmarked := false })
        | some world => some (s.put world i { s.services i with unmarked := false })
      else none
  | .reportProgress i now id request =>
      match (s.services i).database.reportProgress now id request with
      | .error _ => some s
      | .ok (database, _) => some (s.put s.world i { s.services i with database := database })
  | .beginCycle i onlineWorkers =>
      if (s.services i).scheduler ≠ .idle then none
      else if (s.world.nodes i).role ≠ .leader then some s
      else some (s.put s.world i { s.services i with scheduler := .checking onlineWorkers })
  | .checkWorker i =>
      match (s.services i).checkWorker (s.world.nodes i).lastApplied with
      | none => none
      | some services => some (s.put s.world i services)
  | .choosePending i stamp =>
      match (s.services i).choosePending stamp with
      | none => none
      | some services => some (s.put s.world i services)
  | .beginSubmission i =>
      match (s.services i).scheduler with
      | .submitting seen command onlineWorkers =>
          if (s.services i).submitting then none
          else if (s.world.nodes i).role ≠ .leader then
            some (s.put s.world i { s.services i with scheduler := .checking onlineWorkers })
          else
            match worldStep M s.world
                (.submitSnapshot i (serialize json (.assignExperiment command))) with
            | none => none
            | some world =>
                some (s.put world i { s.services i with
                  submitting := true
                  scheduler := .appending seen command onlineWorkers })
      | _ => none

/-- A cluster of coordinators as a transition system. -/
def replicated : System (Replicas ι) (ReplicaLabel ι) where
  init := ⟨initialWorld, fun _ => .start Database.empty⟩
  step := replicatedStep json M

end Step

/-! ## Conditions on the steps -/

section Policies

variable {ι : Type} (json : JsonSerializer)

/-- The library restores a command from what it has written. -/
def Restores (command : CoordinatorCommand) : Prop :=
  json.deserialize command.commandType (json.serialize command) = some command

/-- The commands that are submitted can be restored. -/
def SubmitsRestorable (s : Replicas ι) : ReplicaLabel ι → Prop
  | .submit _ command => Restores json command
  | .beginSubmission i =>
      ∀ command ∈ (s.services i).scheduler.submitted, Restores json (.assignExperiment command)
  | _ => True

/-- A command is appended by a node that is leader in the term of its snapshot. -/
def AppendsInTerm (s : Replicas ι) : ReplicaLabel ι → Prop
  | .append i => AppendsAsLeader s.world (.submitAppend i)
  | _ => True

/-- When an assignment is appended, the log holds no assignment to the same worker
behind the entries that the tables reflected. -/
def AssignsCovered (s : Replicas ι) : ReplicaLabel ι → Prop
  | .append i =>
      ∀ assignment ∈ (s.services i).scheduler.appended,
        ∀ entry ∈ (s.world.nodes i).logStore.entries.drop assignment.1,
          assignedWorker json entry ≠ some assignment.2.workerId
  | _ => True

instance (s : Replicas ι) :
    (label : ReplicaLabel ι) → Decidable (SubmitsRestorable json s label)
  | .submit _ command => inferInstanceAs
      (Decidable (json.deserialize command.commandType (json.serialize command) = some command))
  | .beginSubmission i => inferInstanceAs (Decidable
      (∀ command ∈ (s.services i).scheduler.submitted,
        json.deserialize (CoordinatorCommand.assignExperiment command).commandType
          (json.serialize (.assignExperiment command)) = some (.assignExperiment command)))
  | .raft _ | .crash _ | .append _ | .endSubmission _ _ | .apply _ _ | .markApplied _
  | .reportProgress _ _ _ _ | .beginCycle _ _ | .checkWorker _ | .choosePending _ _ =>
      isTrue trivial

instance (s : Replicas ι) : (label : ReplicaLabel ι) → Decidable (AppendsInTerm s label)
  | .append i => inferInstanceAs (Decidable (AppendsAsLeader s.world (.submitAppend i)))
  | .raft _ | .crash _ | .submit _ _ | .endSubmission _ _ | .apply _ _ | .markApplied _
  | .reportProgress _ _ _ _ | .beginCycle _ _ | .checkWorker _ | .choosePending _ _
  | .beginSubmission _ => isTrue trivial

instance (s : Replicas ι) : (label : ReplicaLabel ι) → Decidable (AssignsCovered json s label)
  | .append i => inferInstanceAs (Decidable
      (∀ assignment ∈ (s.services i).scheduler.appended,
        ∀ entry ∈ (s.world.nodes i).logStore.entries.drop assignment.1,
          assignedWorker json entry ≠ some assignment.2.workerId))
  | .raft _ | .crash _ | .submit _ _ | .endSubmission _ _ | .apply _ _ | .markApplied _
  | .reportProgress _ _ _ _ | .beginCycle _ _ | .checkWorker _ | .choosePending _ _
  | .beginSubmission _ => isTrue trivial

end Policies

/-! ## The invariant -/

/-- The tables of a node are those of a committed prefix of its log, the scheduler
has found its worker idle at such a prefix, and the pending submission is the
assignment of the scheduler or no assignment. -/
structure Coordinated {ι : Type} (json : JsonSerializer) (n : Node ι) (c : Services) : Prop where
  commitStored : n.CommitStored
  applied : ∃ k, Applied json n.logStore.entries k c.database ∧ n.lastApplied ≤ k ∧
    k ≤ n.lastApplied + 1 ∧ k ≤ n.commitIndex ∧ (c.unmarked = true → k = n.lastApplied + 1)
  decided : ∀ seen workerId, c.scheduler.decision = some (seen, workerId) →
    ∃ k db, Applied json n.logStore.entries k db ∧ seen ≤ k ∧ k ≤ n.commitIndex ∧
      db.hasRunningExperiment workerId = false
  locked : n.submission.isSome = true → c.submitting = true
  appending : c.scheduler.appended.isSome = true → n.submission.isSome = true
  submission : ∀ task, n.submission = some task → ∃ command,
    task.command = serialize json command ∧ Restores json command ∧
      ∀ workerId, command.assignedWorker = some workerId → ∃ assignment,
        c.scheduler.appended = some assignment ∧ assignment.2.workerId = workerId

/-- The cluster follows the protocol, and all logs keep one experiment per worker. -/
structure Backed {ι : Type} [Fintype ι] (json : JsonSerializer) (w : World ι)
    (a : Raft.History ι) : Prop where
  inv : Inv RaftLogEntry.term a
  permanent : Permanent RaftLogEntry.term a
  linked : Raft.Linked w a
  kept : Raft.Kept (KeepsOnePerWorker json) a w

section Invariant

variable {ι : Type} {json : JsonSerializer} {n n' : Node ι} {c : Services}

/-- The services of a node go on while its background services take steps. -/
theorem Coordinated.steady
    (h : Coordinated json n c)
    (hsteady : n.Steady n')
    (htake : ∀ k ≤ n.commitIndex, n'.logStore.entries.take k = n.logStore.entries.take k) :
    Coordinated json n' c where
  commitStored := hsteady.commitStored h.commitStored
  applied := by
    obtain ⟨k, hk, hle, hle', hcommit, hunmarked⟩ := h.applied
    rw [hsteady.lastApplied]
    exact ⟨k, hk.of_take (htake k hcommit), hle, hle', hcommit.trans hsteady.commitIndex,
      hunmarked⟩
  decided seen workerId hdecision := by
    obtain ⟨k, db, hk, hseen, hcommit, hidle⟩ := h.decided seen workerId hdecision
    exact ⟨k, db, hk.of_take (htake k hcommit), hseen, hcommit.trans hsteady.commitIndex, hidle⟩
  locked := by
    rw [hsteady.submission]
    exact h.locked
  appending := by
    rw [hsteady.submission]
    exact h.appending
  submission := by
    rw [hsteady.submission]
    exact h.submission

/-- A crash keeps what is stored. -/
theorem Coordinated.restart
    (h : Coordinated json n c) :
    Coordinated json n.restart (.start c.database) where
  commitStored := rfl
  applied := by
    obtain ⟨k, hk, hle, hle', hcommit, -⟩ := h.applied
    have hcommitIndex : n.restart.commitIndex = n.commitIndex :=
      congrArg (fun st => st.commitIndex) h.commitStored
    have hlastApplied : n.restart.lastApplied = n.lastApplied :=
      congrArg (fun st => st.lastApplied) h.commitStored
    rw [hcommitIndex, hlastApplied]
    refine ⟨k, hk, hle, hle', hcommit, ?_⟩
    rintro ⟨⟩
  decided := by rintro seen workerId ⟨⟩
  locked := by rintro ⟨⟩
  appending := by rintro ⟨⟩
  submission := by rintro task ⟨⟩

/-- Tables that were filled from the log or that agree with these stand for the
same prefix. -/
theorem Coordinated.setDatabase
    {db : Database}
    (h : Coordinated json n c)
    (hagree : Agree c.database db) :
    Coordinated json n { c with database := db } :=
  { h with
    applied := by
      obtain ⟨k, hk, hrest⟩ := h.applied
      exact ⟨k, hk.of_agree hagree, hrest⟩ }

/-- The next entry is applied, perhaps once more. -/
theorem Coordinated.applyEntry
    {generate : ValueGenerator} {db : Database}
    (h : Coordinated json n c)
    (hidentified : ∀ e ∈ n.logStore.entries, e.commandId ≠ 0)
    (happly : Coordinator.applyEntry json generate n c.database = some db) :
    Coordinated json n { c with database := db, unmarked := true } := by
  obtain ⟨k, hk, hle, hle', hcommit, -⟩ := h.applied
  unfold Coordinator.applyEntry at happly
  split at happly
  case isTrue => cases happly
  case isFalse hlt =>
    split at happly
    case h_1 => cases happly
    case h_2 nextIndex hnext =>
      obtain rfl := Raft.checkedSucc_eq_some hnext
      split at happly
      case h_1 => cases happly
      case h_2 entry hentry =>
        rw [Raft.get_succ] at hentry
        split at happly
        case h_1 => cases happly
        case h_2 command hcommand =>
          split at happly
          case h_1 => cases happly
          case h_2 db' r hdb =>
            cases happly
            have happlied : Applied json n.logStore.entries (n.lastApplied + 1) db := by
              -- the entry has been applied before if the coordinator crashed in between
              rcases hle.lt_or_eq with hbefore | heq
              · obtain rfl : n.lastApplied + 1 = k := by omega
                rw [hk.applyAgain hentry hcommand hdb]
                exact hk
              · rw [← heq] at hk
                exact hk.apply hentry (hidentified entry (List.mem_of_getElem? hentry)) hcommand
                  hdb
            exact { h with
              applied := ⟨n.lastApplied + 1, happlied, by omega, le_rfl, by omega, fun _ => rfl⟩ }

/-- The entry that was applied is marked. -/
theorem Coordinated.markApplied
    (h : Coordinated json n c)
    (hunmarked : c.unmarked = true)
    (hmark : n.markApplied (n.lastApplied + 1) = some n') :
    Coordinated json n' { c with unmarked := false } := by
  obtain rfl := Node.markApplied_eq_some hmark
  obtain ⟨k, hk, hle, hle', hcommit, hmarks⟩ := h.applied
  obtain rfl := hmarks hunmarked
  exact {
    commitStored := rfl
    applied := by
      refine ⟨n.lastApplied + 1, hk, le_rfl, Nat.le_succ _, hcommit, ?_⟩
      rintro ⟨⟩
    decided := h.decided
    locked := h.locked
    appending := h.appending
    submission := h.submission }

/-- A request or a recovery begins its submission. -/
theorem Coordinated.submit
    {command : CoordinatorCommand} {term : Nat}
    (h : Coordinated json n c)
    (hother : command.assignedWorker = none)
    (hjson : Restores json command) :
    Coordinated json { n with submission := some ⟨serialize json command, term⟩ }
      { c with submitting := true } where
  commitStored := h.commitStored
  applied := h.applied
  decided := h.decided
  locked := fun _ => rfl
  appending := fun _ => rfl
  submission := by
    rintro task ⟨⟩
    refine ⟨command, rfl, hjson, ?_⟩
    intro workerId hassigned
    rw [hother] at hassigned
    cases hassigned

/-- The scheduler begins its submission. -/
theorem Coordinated.beginSubmission
    {seen term : Nat} {command : AssignExperimentCommand} {onlineWorkers : List String}
    (h : Coordinated json n c)
    (hscheduler : c.scheduler = .submitting seen command onlineWorkers)
    (hjson : Restores json (.assignExperiment command)) :
    Coordinated json
      { n with submission := some ⟨serialize json (.assignExperiment command), term⟩ }
      { c with submitting := true, scheduler := .appending seen command onlineWorkers } where
  commitStored := h.commitStored
  applied := h.applied
  decided := by
    rintro seen' workerId hdecision
    exact h.decided seen' workerId (by rw [hscheduler]; exact hdecision)
  locked := fun _ => rfl
  appending := fun _ => rfl
  submission := by
    rintro task ⟨⟩
    refine ⟨_, rfl, hjson, ?_⟩
    rintro workerId ⟨⟩
    exact ⟨(seen, command), rfl, rfl⟩

/-- A command has been appended or refused. -/
theorem Coordinated.append
    {logStore : Raft.LogStore} {submitting : Bool} {scheduler : SchedulerState}
    (h : Coordinated json n c)
    (hlog : n.logStore.entries <+: logStore.entries)
    (hdecision : ∀ d, scheduler.decision = some d → c.scheduler.decision = some d)
    (happended : scheduler.appended = none) :
    Coordinated json { n with logStore := logStore, submission := none }
      { c with submitting := submitting, scheduler := scheduler } where
  commitStored := h.commitStored
  applied := by
    obtain ⟨k, hk, hrest⟩ := h.applied
    exact ⟨k, hk.of_take (Raft.take_eq_of_isPrefix hlog hk.length_le), hrest⟩
  decided seen workerId hdecided := by
    obtain ⟨k, db, hk, hrest⟩ := h.decided seen workerId (hdecision _ hdecided)
    exact ⟨k, db, hk.of_take (Raft.take_eq_of_isPrefix hlog hk.length_le), hrest⟩
  locked := by rintro ⟨⟩
  appending hsome := by
    rw [happended] at hsome
    cases hsome
  submission := by rintro task ⟨⟩

/-- The scheduler goes on with a decision that the tables support. -/
theorem Coordinated.schedule
    {scheduler : SchedulerState}
    (h : Coordinated json n c)
    (hdecided : ∀ seen workerId, scheduler.decision = some (seen, workerId) →
      ∃ k db, Applied json n.logStore.entries k db ∧ seen ≤ k ∧ k ≤ n.commitIndex ∧
        db.hasRunningExperiment workerId = false)
    (happended : scheduler.appended = c.scheduler.appended) :
    Coordinated json n { c with scheduler := scheduler } where
  commitStored := h.commitStored
  applied := h.applied
  decided := hdecided
  locked := h.locked
  appending := by
    rw [happended]
    exact h.appending
  submission := by
    rw [happended]
    exact h.submission

/-- The scheduler looks at the next worker. -/
theorem Coordinated.checkWorker
    {c' : Services}
    (h : Coordinated json n c)
    (hcheck : c.checkWorker n.lastApplied = some c') :
    Coordinated json n c' := by
  unfold Services.checkWorker at hcheck
  split at hcheck
  case h_1 hscheduler =>
    cases hcheck
    refine h.schedule ?_ (by rw [hscheduler]; rfl)
    rintro seen workerId ⟨⟩
  case h_2 workerId onlineWorkers hscheduler =>
    split at hcheck
    case isTrue =>
      cases hcheck
      refine h.schedule ?_ (by rw [hscheduler]; rfl)
      rintro seen workerId' ⟨⟩
    case isFalse hidle =>
      cases hcheck
      refine h.schedule ?_ (by rw [hscheduler]; rfl)
      rintro seen workerId' ⟨⟩
      obtain ⟨k, hk, hle, -, hcommit, -⟩ := h.applied
      exact ⟨k, c.database, hk, hle, hcommit, Bool.eq_false_iff.mpr hidle⟩
  case h_3 => cases hcheck

/-- The scheduler chooses an experiment. -/
theorem Coordinated.choosePending
    {c' : Services} {stamp : Stamp}
    (h : Coordinated json n c)
    (hchoose : c.choosePending stamp = some c') :
    Coordinated json n c' := by
  unfold Services.choosePending at hchoose
  split at hchoose
  case h_1 seen workerId onlineWorkers hscheduler =>
    split at hchoose
    case h_1 =>
      cases hchoose
      refine h.schedule ?_ (by rw [hscheduler]; rfl)
      rintro seen' workerId' ⟨⟩
    case h_2 pending hpending =>
      cases hchoose
      refine h.schedule ?_ (by rw [hscheduler]; rfl)
      rintro seen' workerId' ⟨⟩
      exact h.decided seen workerId (by rw [hscheduler]; rfl)
  case h_2 => cases hchoose

/-- The assignment that is appended rests on a decision. -/
theorem SchedulerState.decision_eq
    {state : SchedulerState} {assignment : Nat × AssignExperimentCommand}
    (h : state.appended = some assignment) :
    state.decision = some (assignment.1, assignment.2.workerId) := by
  cases state with
  | appending seen command onlineWorkers =>
      cases h
      rfl
  | _ => cases h

theorem SchedulerState.onAppended_spec (state : SchedulerState) :
    (∀ d, state.onAppended.decision = some d → state.decision = some d) ∧
      state.onAppended.appended = none := by
  cases state with
  | appending seen command onlineWorkers =>
      refine ⟨?_, rfl⟩
      rintro d ⟨⟩
  | _ => exact ⟨fun _ hd => hd, rfl⟩

theorem SchedulerState.onThrown_spec (state : SchedulerState) :
    (∀ d, state.onThrown.decision = some d → state.decision = some d) ∧
      state.onThrown.appended = none := by
  cases state with
  | appending seen command onlineWorkers =>
      refine ⟨?_, rfl⟩
      rintro d ⟨⟩
  | waiting onlineWorkers =>
      refine ⟨?_, rfl⟩
      rintro d ⟨⟩
  | _ => exact ⟨fun _ hd => hd, rfl⟩

theorem SchedulerState.onSubmitted_spec (state : SchedulerState) :
    (∀ d, state.onSubmitted.decision = some d → state.decision = some d) ∧
      state.onSubmitted.appended = state.appended := by
  cases state with
  | waiting onlineWorkers =>
      refine ⟨?_, rfl⟩
      rintro d ⟨⟩
  | _ => exact ⟨fun _ hd => hd, rfl⟩

/-- A submission ends. -/
theorem Coordinated.endSubmission
    {scheduler : SchedulerState}
    (h : Coordinated json n c)
    (hnone : n.submission = none)
    (hdecision : ∀ d, scheduler.decision = some d → c.scheduler.decision = some d)
    (happended : scheduler.appended = none ∨ scheduler.appended = c.scheduler.appended) :
    Coordinated json n { c with submitting := false, scheduler := scheduler } where
  commitStored := h.commitStored
  applied := h.applied
  decided seen workerId hdecided := h.decided seen workerId (hdecision _ hdecided)
  locked := by
    rw [hnone]
    rintro ⟨⟩
  appending hsome := by
    rcases happended with heq | heq
    · rw [heq] at hsome
      cases hsome
    · rw [heq] at hsome
      exact h.appending hsome
  submission := by
    rw [hnone]
    rintro task ⟨⟩

/-- What is appended keeps one experiment per worker, if an assignment is covered. -/
theorem Coordinated.keeps_append
    {task : Raft.SubmissionTask} {logStore : Raft.LogStore} {entry : RaftLogEntry}
    (h : Coordinated json n c)
    (hkept : KeepsOnePerWorker json n.logStore.entries)
    (htask : n.submission = some task)
    (hcovered : ∀ assignment ∈ c.scheduler.appended,
      ∀ entry ∈ n.logStore.entries.drop assignment.1,
        assignedWorker json entry ≠ some assignment.2.workerId)
    (happend : appendCommand n.logStore task.command task.term = .ok (logStore, entry)) :
    KeepsOnePerWorker json logStore.entries := by
  obtain ⟨command, hcommand, hjson, hassigned⟩ := h.submission task htask
  obtain ⟨hid, htype, hpayload, hne, -⟩ := Raft.appendCommand_accepted happend
  rw [(Raft.appendCommand_spec happend).1]
  refine hkept.append (by rw [hid]; exact hne) ?_
  intro workerId hworker db hdb
  have hsame : command.assignedWorker = some workerId := by
    unfold assignedWorker at hworker
    split at hworker
    case h_1 => cases hworker
    case h_2 restored hrestored =>
      rw [hcommand] at htype hpayload
      rw [← eq_of_deserializeCommand hjson htype hpayload hrestored]
      exact hworker
  obtain ⟨assignment, happended, rfl⟩ := hassigned workerId hsame
  obtain ⟨k, before, hk, hseen, -, hidle⟩ := h.decided _ _ (SchedulerState.decision_eq happended)
  refine hk.idle_of_covered hidle hk.length_le ?_ hdb
  intro j e hj he
  refine hcovered assignment happended e ?_
  rw [List.mem_iff_getElem?]
  refine ⟨j - assignment.1, ?_⟩
  rw [List.getElem?_drop, Nat.add_sub_cancel' (hseen.trans hj)]
  exact he

end Invariant

/-! ## Every step keeps the invariant -/

/-- The invariant of a cluster of coordinators. -/
def Guarded {ι : Type} [Fintype ι] (json : JsonSerializer) (s : Replicas ι) : Prop :=
  ∃ a, Backed json s.world a ∧ ∀ i, Coordinated json (s.world.nodes i) (s.services i)

section Steps

variable {ι : Type} [Fintype ι] [DecidableEq ι] {json : JsonSerializer} {M : Membership ι}
  {s s' : Replicas ι} {w w' : World ι} {a : Raft.History ι} {l : Label ι} {i : ι}
  {n' : Node ι} {c : Services}

/-- A step of the cluster keeps what all logs have in common and what is committed. -/
theorem Backed.step
    (h : Backed json w a)
    (hok : AppendsAsLeader w l)
    (hstep : worldStep M w l = some w')
    (hgood : ∀ i, l = .submitAppend i →
      KeepsOnePerWorker json (w'.nodes i).logStore.entries) :
    ∃ a', Backed json w' a' ∧ ∀ j k, k ≤ (w.nodes j).commitIndex → k ≤ (w'.nodes j).commitIndex →
      (w'.nodes j).logStore.entries.take k = (w.nodes j).logStore.entries.take k := by
  obtain ⟨i, a', hacts, hlinked, hkept⟩ := h.linked.step_kept
    (fun _ _ hpre hlog => hlog.of_isPrefix hpre) h.inv h.kept hok hstep hgood
  have hinv := hacts.inv h.inv
  have hperm := hacts.permanent h.inv h.permanent
  refine ⟨a', ⟨hinv, hperm, hlinked, hkept⟩, ?_⟩
  intro j k hk hk'
  exact Raft.NodeLinked.take_eq hinv hperm hacts.isLocal (h.linked.nodes j) (hlinked.nodes j) hk hk'

omit [Fintype ι] in
/-- The other nodes are as before. -/
theorem coordinated_put
    (h : ∀ j, Coordinated json (s.world.nodes j) (s.services j))
    (hnodes : w'.nodes = Function.update s.world.nodes i n')
    (hi : Coordinated json n' c) (j : ι) :
    Coordinated json ((s.put w' i c).world.nodes j) ((s.put w' i c).services j) := by
  simp only [Replicas.put, hnodes]
  by_cases hj : j = i
  · subst hj
    rw [Function.update_self, Function.update_self]
    exact hi
  · rw [Function.update_of_ne hj, Function.update_of_ne hj]
    exact h j

/-- Only the services of a node have changed. -/
theorem Guarded.setServices
    (h : Guarded json s)
    (hi : Coordinated json (s.world.nodes i) c) :
    Guarded json (s.put s.world i c) := by
  obtain ⟨a, hbacked, hnodes⟩ := h
  exact ⟨a, hbacked, coordinated_put hnodes (Function.update_eq_self i _).symm hi⟩

/-- A node and its services have changed without an append. -/
theorem Guarded.setNode
    (h : Guarded json s)
    (hok : AppendsAsLeader s.world l)
    (hl : ∀ i, l ≠ .submitAppend i)
    (hstep : worldStep M s.world l = some w')
    (hnodes : w'.nodes = Function.update s.world.nodes i n')
    (hi : Coordinated json n' c) :
    Guarded json (s.put w' i c) := by
  obtain ⟨a, hbacked, hall⟩ := h
  obtain ⟨a', hbacked', -⟩ := hbacked.step hok hstep (fun j hj => absurd hj (hl j))
  exact ⟨a', hbacked', coordinated_put hall hnodes hi⟩

/-- Elections and heartbeats keep the invariant. -/
theorem Guarded.raft
    (h : Guarded json s)
    (hinternal : l.isInternal = true)
    (hstep : worldStep M s.world l = some w') :
    Guarded json { s with world := w' } := by
  obtain ⟨a, hbacked, hall⟩ := h
  have hok : AppendsAsLeader s.world l := by
    cases l with
    | submitAppend i => cases hinternal
    | _ => trivial
  have hnot : ∀ i, l ≠ .submitAppend i := by
    rintro i rfl
    cases hinternal
  obtain ⟨a', hbacked', htake⟩ := hbacked.step hok hstep (fun j hj => absurd hj (hnot j))
  obtain ⟨hsteady, -⟩ := Raft.worldStep_internal (fun j => (hbacked.linked.nodes j).stored)
    hinternal hstep
  refine ⟨a', hbacked', ?_⟩
  intro j
  exact (hall j).steady (hsteady j)
    (fun k hk => htake j k hk (hk.trans (hsteady j).commitIndex))

/-- Appending keeps the invariant, if an assignment is covered. -/
theorem Guarded.append
    {submitting : Bool} {scheduler : SchedulerState}
    (h : Guarded json s)
    (hterm : AppendsAsLeader s.world (.submitAppend i))
    (hcovered : AssignsCovered json s (.append i))
    (hstep : worldStep M s.world (.submitAppend i) = some w')
    (hdecision : ∀ d, scheduler.decision = some d → (s.services i).scheduler.decision = some d)
    (happended : scheduler.appended = none) :
    Guarded json (s.put w' i { s.services i with
      submitting := submitting, scheduler := scheduler }) := by
  obtain ⟨a, hbacked, hall⟩ := h
  have hlog : KeepsOnePerWorker json (w'.nodes i).logStore.entries ∧ ∃ logStore,
      (s.world.nodes i).logStore.entries <+: logStore.entries ∧ w' = s.world.put i
        { s.world.nodes i with logStore := logStore, submission := none } := by
    obtain ⟨task, htask, ⟨e, -, rfl⟩ | ⟨logStore, entry, happend, rfl⟩⟩ :=
      Raft.submitAppend_eq_some hstep
    · simp only [World.put, Function.update_self]
      exact ⟨hbacked.kept.logs i, _, List.prefix_rfl, rfl⟩
    · simp only [World.put, Function.update_self]
      refine ⟨(hall i).keeps_append (hbacked.kept.logs i) htask hcovered happend, logStore, ?_,
        rfl⟩
      rw [(Raft.appendCommand_spec happend).1]
      exact List.prefix_append _ _
  obtain ⟨hkeeps, logStore, hpre, rfl⟩ := hlog
  obtain ⟨a', hbacked', -⟩ := hbacked.step hterm hstep (fun j hj => by cases hj; exact hkeeps)
  exact ⟨a', hbacked', coordinated_put hall rfl ((hall i).append hpre hdecision happended)⟩

/-- The invariant is kept by every step under the conditions. -/
theorem Guarded.step
    {label : ReplicaLabel ι}
    (h : Guarded json s)
    (hrestorable : SubmitsRestorable json s label)
    (hterm : AppendsInTerm s label)
    (hcovered : AssignsCovered json s label)
    (hstep : replicatedStep json M s label = some s') :
    Guarded json s' := by
  have hnode : ∀ j, Coordinated json (s.world.nodes j) (s.services j) := h.elim fun _ ha => ha.2
  cases label with
  | raft l =>
      simp only [replicatedStep] at hstep
      split at hstep
      case isFalse => cases hstep
      case isTrue hinternal =>
        split at hstep
        case h_1 => cases hstep
        case h_2 w' hw' =>
          cases hstep
          exact h.raft hinternal hw'
  | crash i =>
      simp only [replicatedStep] at hstep
      split at hstep
      case h_1 => cases hstep
      case h_2 w' hw' =>
        cases hstep
        refine h.setNode (l := .restart i) trivial (by rintro j ⟨⟩) hw' ?_ (hnode i).restart
        cases hw'
        rfl
  | submit i command =>
      simp only [replicatedStep] at hstep
      split at hstep
      case isTrue => cases hstep
      case isFalse hfree =>
        push Not at hfree
        split at hstep
        case isTrue =>
          cases hstep
          exact h
        case isFalse =>
          split at hstep
          case h_1 => cases hstep
          case h_2 w' hw' =>
            cases hstep
            have hput := Raft.submitSnapshot_eq_some hw'
            refine h.setNode (l := .submitSnapshot i _) trivial (by rintro j ⟨⟩) hw'
              (congrArg World.nodes hput) ((hnode i).submit ?_ hrestorable)
            simpa using hfree.2
  | append i =>
      simp only [replicatedStep] at hstep
      split at hstep
      case h_1 => cases hstep
      case h_2 w' hw' =>
        split at hstep
        case isTrue =>
          cases hstep
          obtain ⟨hdecision, happended⟩ := (s.services i).scheduler.onThrown_spec
          exact h.append hterm hcovered hw' hdecision happended
        case isFalse =>
          cases hstep
          obtain ⟨hdecision, happended⟩ := (s.services i).scheduler.onAppended_spec
          exact h.append hterm hcovered hw' hdecision happended
  | endSubmission i throws =>
      simp only [replicatedStep] at hstep
      split at hstep
      case isTrue => cases hstep
      case isFalse hended =>
        push Not at hended
        cases hstep
        refine h.setServices ((hnode i).endSubmission ?_ ?_ ?_)
        · simpa using hended.2
        · cases throws with
          | true => exact (s.services i).scheduler.onThrown_spec.1
          | false => exact (s.services i).scheduler.onSubmitted_spec.1
        · cases throws with
          | true => exact Or.inl (s.services i).scheduler.onThrown_spec.2
          | false => exact Or.inr (s.services i).scheduler.onSubmitted_spec.2
  | apply i generate =>
      simp only [replicatedStep] at hstep
      split at hstep
      case isTrue => cases hstep
      case isFalse =>
        split at hstep
        case h_1 => cases hstep
        case h_2 db hdb =>
          cases hstep
          obtain ⟨a, hbacked, -⟩ := id h
          exact h.setServices ((hnode i).applyEntry (hbacked.kept.logs i).identified hdb)
  | markApplied i =>
      simp only [replicatedStep] at hstep
      split at hstep
      case isFalse => cases hstep
      case isTrue hunmarked =>
        split at hstep
        case h_1 =>
          cases hstep
          refine h.setServices { hnode i with applied := ?_ }
          obtain ⟨k, hk, hle, hle', hcommit, -⟩ := (hnode i).applied
          refine ⟨k, hk, hle, hle', hcommit, ?_⟩
          rintro ⟨⟩
        case h_2 w' hw' =>
          cases hstep
          obtain ⟨n', hn', rfl⟩ := Raft.worldStep_markApplied hw'
          exact h.setNode (l := .markApplied i) trivial (by rintro j ⟨⟩) hw' rfl
            ((hnode i).markApplied hunmarked hn')
  | reportProgress i now id request =>
      simp only [replicatedStep] at hstep
      split at hstep
      case h_1 =>
        cases hstep
        exact h
      case h_2 db row hdb =>
        cases hstep
        exact h.setServices ((hnode i).setDatabase (agree_of_reportProgress hdb))
  | beginCycle i onlineWorkers =>
      simp only [replicatedStep] at hstep
      split at hstep
      case isTrue => cases hstep
      case isFalse hidle =>
        push Not at hidle
        split at hstep
        case isTrue =>
          cases hstep
          exact h
        case isFalse =>
          cases hstep
          refine h.setServices ((hnode i).schedule ?_ (by rw [hidle]; rfl))
          rintro seen workerId ⟨⟩
  | checkWorker i =>
      simp only [replicatedStep] at hstep
      split at hstep
      case h_1 => cases hstep
      case h_2 c' hc' =>
        cases hstep
        exact h.setServices ((hnode i).checkWorker hc')
  | choosePending i stamp =>
      simp only [replicatedStep] at hstep
      split at hstep
      case h_1 => cases hstep
      case h_2 c' hc' =>
        cases hstep
        exact h.setServices ((hnode i).choosePending hc')
  | beginSubmission i =>
      simp only [replicatedStep] at hstep
      split at hstep
      case h_2 => cases hstep
      case h_1 seen command onlineWorkers hscheduler =>
        have hjson := hrestorable command (by rw [hscheduler]; rfl)
        split at hstep
        case isTrue => cases hstep
        case isFalse =>
          split at hstep
          case isTrue =>
            cases hstep
            refine h.setServices ((hnode i).schedule ?_ (by rw [hscheduler]; rfl))
            rintro seen' workerId ⟨⟩
          case isFalse =>
            split at hstep
            case h_1 => cases hstep
            case h_2 w' hw' =>
              cases hstep
              have hput := Raft.submitSnapshot_eq_some hw'
              exact h.setNode (l := .submitSnapshot i _) trivial (by rintro j ⟨⟩) hw'
                (congrArg World.nodes hput) ((hnode i).beginSubmission hscheduler hjson)

theorem guarded_initial (json : JsonSerializer) (M : Membership ι) :
    Guarded json (replicated json M).init := by
  refine ⟨State.initial, ⟨inv_initial, permanent_initial, Raft.linked_initial, ?_⟩, ?_⟩
  · constructor
    · intro j
      exact keepsOnePerWorker_nil json
    · rintro call ⟨⟩
  · intro j
    exact {
      commitStored := rfl
      applied := by
        refine ⟨0, .start (Agree.refl _), le_rfl, Nat.le_succ _, le_rfl, ?_⟩
        rintro ⟨⟩
      decided := by rintro seen workerId ⟨⟩
      locked := by rintro ⟨⟩
      appending := by rintro ⟨⟩
      submission := by rintro task ⟨⟩ }

end Steps

/-- **One running experiment per worker.**  In every run in which commands are
appended in the term of their leader and no assignment is appended while the log
holds another one to the same worker that the tables did not reflect, no
coordinator ever has two running experiments of one worker. -/
theorem onePerWorker_of_covered
    {ι : Type} [Fintype ι] [DecidableEq ι] (json : JsonSerializer) (M : Membership ι)
    (s : Replicas ι)
    (hs : (replicated json M).Reachable (fun s label => SubmitsRestorable json s label ∧
      AppendsInTerm s label ∧ AssignsCovered json s label) s) (i : ι) :
    OnePerWorker (s.services i).database := by
  have hguarded : Guarded json s := by
    refine System.Reachable.invariant (I := Guarded json) (guarded_initial json M) ?_ hs
    rintro s label s' - h ⟨hrestorable, hterm, hcovered⟩ hstep
    exact h.step hrestorable hterm hcovered hstep
  obtain ⟨a, hbacked, hall⟩ := hguarded
  obtain ⟨k, hk, -⟩ := (hall i).applied
  exact (hbacked.kept.logs i).one k _ hk

/-! ## An assignment that times out -/

/-- A later experiment of a higher priority. -/
def urgentCreate : CoordinatorCommand :=
  .createExperiment ⟨4, 0, 11, 104, "Urgent", "qlearning", "gridworld", 1, 100, 5, 300, false⟩

def urgentAssign : CoordinatorCommand :=
  .assignExperiment ⟨5, 0, 11, 105, "worker-1", 1⟩

def schedulingJson : JsonSerializer :=
  tableJson [
    (sampleCreate,
      "\x7b\"experimentId\":\"00000000-0000-0000-0000-00000000000a\",\"eventId\":\"00000000-0000-0000-0000-000000000065\",\"name\":\"Sample\",\"algorithm\":\"qlearning\",\"environment\":\"gridworld\",\"seed\":1,\"maxSteps\":100,\"priority\":0,\"timeoutSeconds\":300,\"simulateFailure\":false,\"commandId\":\"00000000-0000-0000-0000-000000000001\",\"occurredAtUtc\":\"0001-01-01T00:00:00+00:00\"\x7d"),
    (urgentCreate,
      "\x7b\"experimentId\":\"00000000-0000-0000-0000-00000000000b\",\"eventId\":\"00000000-0000-0000-0000-000000000068\",\"name\":\"Urgent\",\"algorithm\":\"qlearning\",\"environment\":\"gridworld\",\"seed\":1,\"maxSteps\":100,\"priority\":5,\"timeoutSeconds\":300,\"simulateFailure\":false,\"commandId\":\"00000000-0000-0000-0000-000000000004\",\"occurredAtUtc\":\"0001-01-01T00:00:00+00:00\"\x7d"),
    (sampleAssign 2 102 "worker-1",
      "\x7b\"experimentId\":\"00000000-0000-0000-0000-00000000000a\",\"eventId\":\"00000000-0000-0000-0000-000000000066\",\"workerId\":\"worker-1\",\"attempt\":1,\"commandId\":\"00000000-0000-0000-0000-000000000002\",\"occurredAtUtc\":\"0001-01-01T00:00:00+00:00\"\x7d"),
    (urgentAssign,
      "\x7b\"experimentId\":\"00000000-0000-0000-0000-00000000000b\",\"eventId\":\"00000000-0000-0000-0000-000000000069\",\"workerId\":\"worker-1\",\"attempt\":1,\"commandId\":\"00000000-0000-0000-0000-000000000005\",\"occurredAtUtc\":\"0001-01-01T00:00:00+00:00\"\x7d")]

/-- The entry of a command in the first term. -/
def schedulingEntry (logIndex : Nat) (command : CoordinatorCommand) : RaftLogEntry :=
  ⟨logIndex, 1, command.commandId, command.commandType, schedulingJson.serialize command⟩

/-- The requests of a heartbeat of the first node. -/
def sendHeartbeat : List (ReplicaLabel (Fin 3)) :=
  [.raft (.beginHeartbeat 0), .raft (.buildRequest 0 1), .raft (.buildRequest 0 2)]

/-- The second node accepts its request, and the heartbeat ends. -/
def acceptHeartbeat (request : Raft.AppendEntriesRequest (Fin 3)) : List (ReplicaLabel (Fin 3)) :=
  [.raft (.handleAppendEntries 1 request), .raft (.recordResponse 0 1 ⟨1, true⟩),
    .raft (.finishHeartbeat 0)]

/-- A scheduling cycle of the first node whose submission times out. -/
def timedOutCycle (stamp : Stamp) : List (ReplicaLabel (Fin 3)) :=
  [.beginCycle 0 ["worker-1"], .checkWorker 0, .choosePending 0 stamp, .beginSubmission 0,
    .append 0, .endSubmission 0 false, .checkWorker 0]

/-- The first node applies and marks an entry. -/
def applyAndMark : List (ReplicaLabel (Fin 3)) :=
  [.apply 0 constantGenerator, .markApplied 0]

/-- The first experiment is applied.  The urgent one is in the log when the first
one is assigned, and the assignment times out.  Then the urgent one is applied. -/
def timedOutRun : List (ReplicaLabel (Fin 3)) :=
  Raft.firstElection.map .raft ++
  [.raft (.beginHeartbeat 0), .submit 0 sampleCreate, .append 0, .raft (.buildRequest 0 1),
    .raft (.buildRequest 0 2)] ++
  acceptHeartbeat ⟨1, 0, 0, 0, 0, [schedulingEntry 1 sampleCreate]⟩ ++
  [.endSubmission 0 false] ++ applyAndMark ++
  [.submit 0 urgentCreate, .append 0, .endSubmission 0 false] ++ sendHeartbeat ++
  timedOutCycle ⟨2, 102, 0⟩ ++
  acceptHeartbeat ⟨1, 0, 1, 1, 1, [schedulingEntry 2 urgentCreate]⟩ ++ applyAndMark

/-- The assignment is committed and applied before the next cycle. -/
def coveredRun : List (ReplicaLabel (Fin 3)) :=
  sendHeartbeat ++
  acceptHeartbeat ⟨1, 0, 2, 1, 2, [schedulingEntry 3 (sampleAssign 2 102 "worker-1")]⟩ ++
  applyAndMark

/-- The next cycle finds the worker idle and assigns the urgent experiment to it
as well; both assignments are committed and applied. -/
def uncoveredRun : List (ReplicaLabel (Fin 3)) :=
  timedOutCycle ⟨5, 105, 0⟩ ++ sendHeartbeat ++
  acceptHeartbeat ⟨1, 0, 2, 1, 2, [schedulingEntry 3 (sampleAssign 2 102 "worker-1"),
    schedulingEntry 4 urgentAssign]⟩ ++ applyAndMark ++ applyAndMark

/-- The experiment runs on the worker of the runs. -/
def runsOnSampleWorker (id : Guid) (s : Replicas (Fin 3)) : Bool :=
  decide ((s.services 0).database.lifecycle id = some ⟨.running, some "worker-1", 1, false⟩)

/-! The run is evaluated in parts: the states that are reached once the first
experiment, and once the urgent one, is applied are written out. -/

section Equality

variable {ι : Type} [DecidableEq ι]

deriving instance DecidableEq for Foundations.Dict, Raft.RaftReplicationTracker, Raft.ElectionTask,
  Raft.PeerTask, Raft.SubmissionTask, Database, Services

variable [Fintype ι]

instance : DecidableEq (Raft.HeartbeatTask ι) := fun a b =>
  decidable_of_iff (a.term = b.term ∧ a.tasks = b.tasks) (by
    cases a
    cases b
    simp)

instance : DecidableEq (Node ι) := fun a b =>
  decidable_of_iff
    ((a.persistentState = b.persistentState ∧ a.logStore.entries = b.logStore.entries ∧
        a.commitState = b.commitState) ∧
      (a.role = b.role ∧ a.currentTerm = b.currentTerm ∧ a.votedFor = b.votedFor ∧
        a.leaderId = b.leaderId ∧ a.commitIndex = b.commitIndex ∧
        a.lastApplied = b.lastApplied ∧ a.tracker = b.tracker) ∧
      a.election = b.election ∧ a.heartbeat = b.heartbeat ∧ a.submission = b.submission) (by
    obtain ⟨_, ⟨_, _⟩, _⟩ := a
    obtain ⟨_, ⟨_, _⟩, _⟩ := b
    simp [and_assoc])

instance : DecidableEq (World ι) := fun a b =>
  decidable_of_iff
    (a.nodes = b.nodes ∧ a.voteCalls = b.voteCalls ∧ a.voteReplies = b.voteReplies ∧
      a.appendCalls = b.appendCalls ∧ a.appendReplies = b.appendReplies) (by
    cases a
    cases b
    simp)

instance : DecidableEq (Replicas ι) := fun a b =>
  decidable_of_iff (a.world = b.world ∧ a.services = b.services) (by
    cases a
    cases b
    simp)

end Equality

/-- The tables after a command of the runs. -/
def appliedTo (database : Database) (command : CoordinatorCommand) : Database :=
  match database.apply constantGenerator command with
  | .ok (database, _) => database
  | .error _ => database

/-- The first node, of which the second one has stored some entries. -/
def leaderNode (logStore : LogStore) (committed : Nat) : Node (Fin 3) :=
  { Raft.loadNode ⟨1, some 0⟩ logStore ⟨committed, committed⟩ with
    role := .leader
    leaderId := some 0
    tracker := ⟨some 1, (Dict.empty.set 1 ⟨committed + 1, committed⟩).set 2 ⟨1, 0⟩⟩ }

/-- The second node, which applies nothing in the runs. -/
def followerNode (logStore : LogStore) (committed : Nat) : Node (Fin 3) :=
  { Raft.loadNode ⟨1, some 0⟩ logStore ⟨committed, 0⟩ with leaderId := some 0 }

def firstLog : LogStore := LogStore.empty.push (schedulingEntry 1 sampleCreate) rfl

def urgentLog : LogStore := firstLog.push (schedulingEntry 2 urgentCreate) rfl

def assignedLog : LogStore := urgentLog.push (schedulingEntry 3 (sampleAssign 2 102 "worker-1")) rfl

def electionRequest : Raft.RequestVoteRequest (Fin 3) := ⟨1, 0, 0, 0⟩

def firstRequest : Raft.AppendEntriesRequest (Fin 3) :=
  ⟨1, 0, 0, 0, 0, [schedulingEntry 1 sampleCreate]⟩

def urgentRequest : Raft.AppendEntriesRequest (Fin 3) :=
  ⟨1, 0, 1, 1, 1, [schedulingEntry 2 urgentCreate]⟩

/-- The third node has stored nothing yet. -/
def laggingRequest : Raft.AppendEntriesRequest (Fin 3) :=
  ⟨1, 0, 0, 0, 1, [schedulingEntry 1 sampleCreate, schedulingEntry 2 urgentCreate]⟩

/-- The first experiment is applied by the first node. -/
def firstApplied : Replicas (Fin 3) where
  world := {
    nodes := fun i =>
      if i = 0 then leaderNode firstLog 1
      else if i = 1 then followerNode firstLog 0
      else Raft.newNode
    voteCalls := [⟨1, electionRequest⟩, ⟨2, electionRequest⟩]
    voteReplies := [⟨1, electionRequest, ⟨1, true⟩⟩]
    appendCalls := [⟨1, firstRequest⟩, ⟨2, firstRequest⟩]
    appendReplies := [⟨1, firstRequest, ⟨1, true⟩⟩] }
  services := fun i => .start (if i = 0 then appliedTo .empty sampleCreate else .empty)

/-- The urgent experiment is applied as well; the assignment of the first one is
in the log of the first node. -/
def urgentApplied : Replicas (Fin 3) where
  world := {
    nodes := fun i =>
      if i = 0 then leaderNode assignedLog 2
      else if i = 1 then followerNode urgentLog 1
      else Raft.newNode
    voteCalls := [⟨1, electionRequest⟩, ⟨2, electionRequest⟩]
    voteReplies := [⟨1, electionRequest, ⟨1, true⟩⟩]
    appendCalls := [⟨1, firstRequest⟩, ⟨2, firstRequest⟩, ⟨1, urgentRequest⟩,
      ⟨2, laggingRequest⟩]
    appendReplies := [⟨1, firstRequest, ⟨1, true⟩⟩, ⟨1, urgentRequest, ⟨1, true⟩⟩] }
  services := fun i =>
    .start (if i = 0 then appliedTo (appliedTo .empty sampleCreate) urgentCreate else .empty)

theorem reachable_urgentApplied :
    (replicated schedulingJson (Raft.fullMesh 3)).Reachable (fun s label =>
      SubmitsRestorable schedulingJson s label ∧ AppendsInTerm s label ∧
        AssignsCovered schedulingJson s label) urgentApplied := by
  have hfirst : (replicated schedulingJson (Raft.fullMesh 3)).exec (fun s label =>
      SubmitsRestorable schedulingJson s label ∧ AppendsInTerm s label ∧
        AssignsCovered schedulingJson s label)
      (replicated schedulingJson (Raft.fullMesh 3)).init (timedOutRun.take 15) =
        some firstApplied := by
    decide +kernel
  have hurgent : (replicated schedulingJson (Raft.fullMesh 3)).exec (fun s label =>
      SubmitsRestorable schedulingJson s label ∧ AppendsInTerm s label ∧
        AssignsCovered schedulingJson s label) firstApplied (timedOutRun.drop 15) =
        some urgentApplied := by
    decide +kernel
  exact (System.reaches_of_exec hfirst).trans (System.reaches_of_exec hurgent)

theorem exists_timedOutRun :
    ∃ s, (replicated schedulingJson (Raft.fullMesh 3)).Reachable (fun s label =>
        SubmitsRestorable schedulingJson s label ∧ AppendsInTerm s label ∧
          AssignsCovered schedulingJson s label) s ∧
      ((replicated schedulingJson (Raft.fullMesh 3)).exec (fun s label =>
        SubmitsRestorable schedulingJson s label ∧ AppendsInTerm s label ∧
          AssignsCovered schedulingJson s label) s coveredRun).any (runsOnSampleWorker 10) = true ∧
      ((replicated schedulingJson (Raft.fullMesh 3)).exec (fun s label =>
        SubmitsRestorable schedulingJson s label ∧ AppendsInTerm s label) s uncoveredRun).any
        (fun s => runsOnSampleWorker 10 s && runsOnSampleWorker 11 s) = true := by
  refine ⟨urgentApplied, reachable_urgentApplied, ?_⟩
  decide +kernel

theorem onePerWorker_of_covered_sample :
    ∃ s : Replicas (Fin 3), (replicated schedulingJson (Raft.fullMesh 3)).Reachable (fun s label =>
        SubmitsRestorable schedulingJson s label ∧ AppendsInTerm s label ∧
          AssignsCovered schedulingJson s label) s ∧
      runsOnSampleWorker 10 s = true ∧ OnePerWorker (s.services 0).database := by
  obtain ⟨s, hs, hcovered, -⟩ := exists_timedOutRun
  rw [Option.any_eq_true] at hcovered
  obtain ⟨s', hs', hruns⟩ := hcovered
  have hreach := hs.trans (System.reaches_of_exec hs')
  exact ⟨s', hreach, hruns,
    onePerWorker_of_covered schedulingJson (Raft.fullMesh 3) s' hreach 0⟩

/-- Without the last condition, a worker has two running experiments. -/
theorem not_onePerWorker_sample :
    ∃ s : Replicas (Fin 3), (replicated schedulingJson (Raft.fullMesh 3)).Reachable (fun s label =>
        SubmitsRestorable schedulingJson s label ∧ AppendsInTerm s label) s ∧
      ¬ OnePerWorker (s.services 0).database := by
  obtain ⟨s, hs, -, huncovered⟩ := exists_timedOutRun
  rw [Option.any_eq_true] at huncovered
  obtain ⟨s', hs', hruns⟩ := huncovered
  rw [Bool.and_eq_true] at hruns
  have hreach := (hs.mono (fun _ _ hok => ⟨hok.1, hok.2.1⟩)).trans (System.reaches_of_exec hs')
  refine ⟨s', hreach, ?_⟩
  intro hone
  rw [onePerWorker_iff] at hone
  have hsame := hone 10 11 _ _ (of_decide_eq_true hruns.1) (of_decide_eq_true hruns.2) rfl rfl rfl
  exact absurd hsame (by decide)

end Coordinator
end DistributedConsensus
