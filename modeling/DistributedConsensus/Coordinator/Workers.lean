import DistributedConsensus.Coordinator.Controllers
import DistributedConsensus.Coordinator.History

/-!
# Coordinator: workers of a single coordinator

One coordinator without replication and its workers.  A worker asks for its next
experiment, executes it while a monitor watches for a cancellation, and reports
the result once; whatever the answer, it then asks again.  Every request, every
cycle of the scheduler and every step of a worker is atomic, and they interleave
freely.

An idle worker should be able to get every experiment that runs on it.  A
cancellation that arrives while the worker does not execute the experiment, and
a cancellation that the execution does not observe, break this: the experiment
is withheld from the worker, and its completion was or will be refused.  As long
as neither happens, no experiment is stranded: `none_stranded`.
-/

namespace DistributedConsensus
namespace Coordinator

open Foundations
open Raft (Guid isNullOrWhiteSpace)

/-- The result of an execution. -/
structure ExperimentExecutionResult where
  succeeded : Bool
  resultMessage : Option String
  metricsJson : Option String
  executionDurationMs : Int64

/-- How an execution ends. -/
inductive ExecutionOutcome where
  | returned (result : ExperimentExecutionResult)
  | operationCanceled (timedOut : Bool) (elapsedMilliseconds : Int64)
  | threw

/-- What a worker does. -/
inductive WorkerState where
  | idle
  | executing (id : Guid) (experiment : ExperimentEntity) (manualCancellation : Bool)
  | completing (id : Guid) (request : CompleteExperimentRequest)

namespace WorkerState

/-- The experiment of a worker. -/
def experimentId : WorkerState → Option Guid
  | idle => none
  | executing id _ _ => some id
  | completing id _ => some id

/-- Whether a worker executes an experiment. -/
def executes (id : Guid) : WorkerState → Bool
  | executing id' _ _ => decide (id' = id)
  | _ => false

/-- Whether an execution ends because the worker has seen the cancellation. -/
def observes (outcome : ExecutionOutcome) : WorkerState → Bool
  | executing _ _ manualCancellation =>
      match outcome with
      | .operationCanceled _ _ => manualCancellation
      | _ => false
  | _ => false

end WorkerState

/-- The state of a worker after an execution. -/
def endExecution (workerId : String) (id : Guid) (experiment : ExperimentEntity)
    (manualCancellation : Bool) : ExecutionOutcome → WorkerState
  | .returned result => .completing id {
      workerId := workerId
      attempt := experiment.attempt
      succeeded := result.succeeded
      wasCancelled := false
      resultMessage := result.resultMessage
      metricsJson := result.metricsJson
      executionDurationMs := some result.executionDurationMs }
  | .operationCanceled timedOut elapsedMilliseconds =>
      if manualCancellation then .completing id {
        workerId := workerId
        attempt := experiment.attempt
        succeeded := false
        wasCancelled := true
        resultMessage := some "Experiment was cancelled by request."
        metricsJson := none
        executionDurationMs := some elapsedMilliseconds }
      else if timedOut then .completing id {
        workerId := workerId
        attempt := experiment.attempt
        succeeded := false
        wasCancelled := false
        resultMessage := some ("Execution timed out after " ++
          toString experiment.timeoutSeconds ++ " second(s).")
        metricsJson := none
        executionDurationMs := some elapsedMilliseconds }
      else .idle
  | .threw => .idle

/-- A coordinator without replication and its workers. -/
structure Deployment where
  db : Database
  registered : List String
  workers : String → WorkerState

/-- The steps of a deployment. -/
inductive DeploymentStep where
  | register (workerId : String)
  | create (stamp : Stamp) (experimentId : Guid) (request : CreateExperimentRequest)
  | cancel (stamp : Stamp) (id : Guid)
  | schedule (onlineWorkers : List String) (supply : List Stamp)
  | poll (workerId : String)
  | monitor (workerId : String)
  | reportProgress (workerId : String) (now : DateTimeOffset) (currentStep : Int32)
      (progressMetricsJson : Option String)
  | finish (workerId : String) (outcome : ExecutionOutcome)
  | complete (workerId : String) (stamp : Stamp)

namespace Deployment

/-- The tables after a request: what is refused changes nothing. -/
def answer (s : Deployment) (result : Except Refusal (Database × ExperimentEntity)) : Deployment :=
  match result with
  | .error _ => s
  | .ok (db, _) => { s with db := db }

def setWorker (s : Deployment) (workerId : String) (state : WorkerState) : Deployment :=
  { s with workers := Function.update s.workers workerId state }

/-- The state after a step, if the step is possible. -/
def step (generate : ValueGenerator) (s : Deployment) : DeploymentStep → Option Deployment
  | .register workerId =>
      if isNullOrWhiteSpace workerId || decide (workerId ∈ s.registered) then some s
      else some { s with registered := s.registered ++ [workerId] }
  | .create stamp experimentId request =>
      if s.db.isFresh stamp then
        some (s.answer (s.db.create generate stamp experimentId request))
      else none
  | .cancel stamp id =>
      if s.db.isFresh stamp then some (s.answer (s.db.cancel generate stamp id)) else none
  | .schedule onlineWorkers supply =>
      if ∀ workerId ∈ onlineWorkers, workerId ∈ s.registered then
        (s.db.runSchedulingCycle generate onlineWorkers supply).map (fun db => { s with db := db })
      else none
  | .poll workerId =>
      match s.workers workerId with
      | .idle =>
          match s.db.getNextAssignedToWorker workerId with
          | none => some s
          | some (id, experiment) => some (s.setWorker workerId (.executing id experiment false))
      | _ => none
  | .monitor workerId =>
      match s.workers workerId with
      | .executing id experiment manualCancellation =>
          some (s.setWorker workerId (.executing id experiment
            (manualCancellation || (s.db.getById id).any (fun e => e.cancellationRequested))))
      | _ => none
  | .reportProgress workerId now currentStep progressMetricsJson =>
      match s.workers workerId with
      | .executing id experiment _ =>
          some (s.answer (s.db.reportProgress now id {
            workerId := workerId
            attempt := experiment.attempt
            currentStep := currentStep
            progressMetricsJson := progressMetricsJson }))
      | _ => none
  | .finish workerId outcome =>
      match s.workers workerId with
      | .executing id experiment manualCancellation =>
          some (s.setWorker workerId
            (endExecution workerId id experiment manualCancellation outcome))
      | _ => none
  | .complete workerId stamp =>
      match s.workers workerId with
      | .completing id request =>
          if s.db.isFresh stamp then
            some ((s.answer (s.db.complete generate stamp id request)).setWorker workerId .idle)
          else none
      | _ => none

end Deployment

/-- The runs of a deployment. -/
def deployment (generate : ValueGenerator) : System Deployment DeploymentStep where
  init := ⟨Database.empty, [], fun _ => .idle⟩
  step := Deployment.step generate

namespace WorkerState

theorem experimentId_of_executes
    {id : Guid} {state : WorkerState}
    (h : state.executes id = true) :
    state.experimentId = some id := by
  cases state with
  | executing id' experiment manualCancellation =>
      rw [← of_decide_eq_true h]
      rfl
  | idle => cases h
  | completing id' request => cases h

end WorkerState

/-- Every experiment that runs on an idle worker is the next one it is given. -/
def NoneStranded (s : Deployment) : Prop :=
  ∀ workerId, s.workers workerId = .idle → ∀ id row, s.db.experiments.get? id = some row →
    row.isRunningOn workerId = true → s.db.getNextAssignedToWorker workerId = some (id, row)

/-- The cancellation of a running experiment is requested while its worker
executes it, and the execution does not end without having seen it. -/
def Attentive (s : Deployment) : DeploymentStep → Prop
  | .cancel _ id => ∀ row, s.db.experiments.get? id = some row → row.status = .running →
      row.cancellationRequested = false →
      ∀ workerId, row.assignedWorkerId = some workerId →
        (s.workers workerId).executes id = true
  | .finish workerId outcome => ∀ id, (s.workers workerId).experimentId = some id →
      (s.workers workerId).observes outcome = true ∨
        ∀ row, s.db.experiments.get? id = some row → row.cancellationRequested = false
  | _ => True

/-- An attentive request finds the worker executing. -/
theorem Attentive.executes
    {s : Deployment} {stamp : Stamp} {id : Guid} {l : Lifecycle} {workerId : String}
    (h : Attentive s (.cancel stamp id))
    (hlife : s.db.lifecycle id = some l)
    (hstatus : l.status = .running)
    (hclear : l.cancellationRequested = false)
    (hworker : l.worker = some workerId) :
    (s.workers workerId).executes id = true := by
  obtain ⟨row, hrow, rfl⟩ := lifecycle_eq_some_iff.mp hlife
  exact h row hrow hstatus hclear workerId hworker

/-! ## The invariant -/

/-- The experiment runs on the worker. -/
def Lifecycle.RunsOn (l : Lifecycle) (workerId : String) : Prop :=
  l.status = .running ∧ l.worker = some workerId

/-- A running experiment is in its first attempt, and its worker handles it if
its cancellation has been requested. -/
def Sound (workers : String → WorkerState) (id : Guid) (l : Lifecycle) : Prop :=
  (l.status = .pending → l.attempt = 0) ∧
    (l.status = .running → l.attempt = 1 ∧ ∃ workerId, l.worker = some workerId ∧
      isNullOrWhiteSpace workerId = false ∧
      (l.cancellationRequested = true → (workers workerId).experimentId = some id))

/-- The experiment of a worker runs on it, and the worker knows of the
cancellation what it has to. -/
def Serves (lifecycle : Guid → Option Lifecycle) (workerId : String) : WorkerState → Prop
  | .idle => True
  | .executing id experiment manualCancellation => ∃ requested,
      lifecycle id = some ⟨.running, some workerId, experiment.attempt, requested⟩ ∧
        (manualCancellation = true → requested = true)
  | .completing id request => request.workerId = workerId ∧
      lifecycle id = some ⟨.running, some workerId, request.attempt, request.wasCancelled⟩

/-- The invariant of the attentive runs. -/
structure Attended (s : Deployment) : Prop where
  keyed : s.db.experiments.get? 0 = none
  registered : ∀ workerId ∈ s.registered, isNullOrWhiteSpace workerId = false
  rows : ∀ id l, s.db.lifecycle id = some l → Sound s.workers id l
  unique : ∀ id id' l l' workerId, s.db.lifecycle id = some l → s.db.lifecycle id' = some l' →
    l.RunsOn workerId → l'.RunsOn workerId → id = id'
  workers : ∀ workerId, Serves s.db.lifecycle workerId (s.workers workerId)

section Invariant

variable {generate : ValueGenerator} {s : Deployment} {db' : Database} {id : Guid}
variable {l : Lifecycle} {workerId : String}

/-- The experiment of a worker runs on it. -/
theorem Serves.lifecycle_eq
    {lifecycle : Guid → Option Lifecycle} {state : WorkerState}
    (h : Serves lifecycle workerId state)
    (hid : state.experimentId = some id) :
    ∃ l, lifecycle id = some l ∧ l.RunsOn workerId := by
  cases state with
  | idle => cases hid
  | executing id' experiment manualCancellation =>
      cases hid
      obtain ⟨requested, hlife, -⟩ := h
      exact ⟨_, hlife, rfl, rfl⟩
  | completing id' request =>
      cases hid
      exact ⟨_, h.2, rfl, rfl⟩

/-- A worker depends on its own experiment only. -/
theorem Serves.of_eq
    {lifecycle lifecycle' : Guid → Option Lifecycle} {state : WorkerState}
    (h : Serves lifecycle workerId state)
    (hsame : ∀ id, state.experimentId = some id → lifecycle' id = lifecycle id) :
    Serves lifecycle' workerId state := by
  cases state with
  | idle => trivial
  | executing id experiment manualCancellation =>
      obtain ⟨requested, hlife, hknown⟩ := h
      exact ⟨requested, (hsame id rfl).trans hlife, hknown⟩
  | completing id request => exact ⟨h.1, (hsame id rfl).trans h.2⟩

/-- One experiment takes a transition; its worker has to stay faithful to it. -/
theorem Attended.move
    (h : Attended s)
    (hkeyed : db'.experiments.get? 0 = none)
    (hlife : db'.lifecycle = Function.update s.db.lifecycle id (some l))
    (hsound : Sound s.workers id l)
    (hunique : ∀ workerId, l.RunsOn workerId → ∀ id' l', s.db.lifecycle id' = some l' →
      l'.RunsOn workerId → id' = id)
    (hserves : ∀ workerId, (s.workers workerId).experimentId = some id →
      Serves db'.lifecycle workerId (s.workers workerId)) :
    Attended { s with db := db' } := by
  have hother : ∀ id', id' ≠ id → db'.lifecycle id' = s.db.lifecycle id' := by
    intro id' hne
    rw [hlife, Function.update_of_ne hne]
  have hself : ∀ l', db'.lifecycle id = some l' → l' = l := by
    intro l' hl'
    rw [hlife, Function.update_self] at hl'
    exact (Option.some.inj hl').symm
  refine ⟨hkeyed, h.registered, ?_, ?_, ?_⟩
  · intro id' l' hl'
    by_cases hid : id' = id
    · subst hid
      rw [hself l' hl']
      exact hsound
    · exact h.rows id' l' ((hother id' hid).symm.trans hl')
  · intro id₁ id₂ l₁ l₂ workerId hl₁ hl₂ hruns₁ hruns₂
    by_cases hid₁ : id₁ = id
    · by_cases hid₂ : id₂ = id
      · rw [hid₁, hid₂]
      · subst hid₁
        rw [hself l₁ hl₁] at hruns₁
        exact (hunique workerId hruns₁ id₂ l₂ ((hother id₂ hid₂).symm.trans hl₂) hruns₂).symm
    · by_cases hid₂ : id₂ = id
      · subst hid₂
        rw [hself l₂ hl₂] at hruns₂
        exact hunique workerId hruns₂ id₁ l₁ ((hother id₁ hid₁).symm.trans hl₁) hruns₁
      · exact h.unique id₁ id₂ l₁ l₂ workerId ((hother id₁ hid₁).symm.trans hl₁)
          ((hother id₂ hid₂).symm.trans hl₂) hruns₁ hruns₂
  · intro workerId
    by_cases hid : (s.workers workerId).experimentId = some id
    · exact hserves workerId hid
    · refine (h.workers workerId).of_eq ?_
      intro id' hid'
      refine hother id' ?_
      rintro rfl
      exact hid hid'

/-- A worker changes its state. -/
theorem Attended.setWorker
    {state : WorkerState}
    (h : Attended s)
    (hserves : Serves s.db.lifecycle workerId state)
    (hstays : state.experimentId = (s.workers workerId).experimentId ∨
      ∀ id l, s.db.lifecycle id = some l → l.RunsOn workerId → l.cancellationRequested = false) :
    Attended (s.setWorker workerId state) := by
  refine ⟨h.keyed, h.registered, ?_, h.unique, ?_⟩
  · intro id l hl
    obtain ⟨hpending, hrunning⟩ := h.rows id l hl
    refine ⟨hpending, ?_⟩
    intro hstatus
    obtain ⟨hattempt, workerId', hworker, hblank, hattended⟩ := hrunning hstatus
    refine ⟨hattempt, workerId', hworker, hblank, ?_⟩
    intro hrequested
    unfold Deployment.setWorker
    simp only [Function.update_apply]
    by_cases hw : workerId' = workerId
    · subst hw
      rw [if_pos rfl]
      rcases hstays with hsame | hclear
      · rw [hsame]
        exact hattended hrequested
      · have hfalse := hclear id l hl ⟨hstatus, hworker⟩
        rw [hrequested] at hfalse
        cases hfalse
    · rw [if_neg hw]
      exact hattended hrequested
  · intro workerId'
    unfold Deployment.setWorker
    simp only [Function.update_apply]
    by_cases hw : workerId' = workerId
    · subst hw
      rw [if_pos rfl]
      exact hserves
    · rw [if_neg hw]
      exact h.workers workerId'

/-- No worker handles an experiment that does not run. -/
theorem Attended.not_handled
    (h : Attended s)
    (hrunning : ∀ l, s.db.lifecycle id = some l → l.status ≠ .running) (workerId : String) :
    (s.workers workerId).experimentId ≠ some id := by
  intro hid
  obtain ⟨l, hl, hruns⟩ := (h.workers workerId).lifecycle_eq hid
  exact hrunning l hl hruns.1

/-- An experiment is created, or moves between states in which it does not run. -/
theorem Attended.rest
    (h : Attended s)
    (hkeyed : db'.experiments.get? 0 = none)
    (hlife : db'.lifecycle = Function.update s.db.lifecycle id (some l))
    (hbefore : ∀ l, s.db.lifecycle id = some l → l.status ≠ .running)
    (hstatus : l.status ≠ .running)
    (hattempt : l.status = .pending → l.attempt = 0) :
    Attended { s with db := db' } := by
  refine h.move hkeyed hlife ⟨hattempt, fun hl => absurd hl hstatus⟩ ?_ ?_
  · intro workerId hruns
    exact absurd hruns.1 hstatus
  · intro workerId hid
    exact absurd hid (h.not_handled hbefore workerId)

/-! ## Requests and scheduling -/

theorem attended_init : Attended (deployment generate).init where
  keyed := rfl
  registered _ hmem := nomatch hmem
  rows _ _ hl := nomatch hl
  unique _ _ _ _ _ hl := nomatch hl
  workers _ := trivial

theorem Attended.create
    {stamp : Stamp} {request : CreateExperimentRequest}
    (h : Attended s) :
    Attended (s.answer (s.db.create generate stamp id request)) := by
  cases hcreate : s.db.create generate stamp id request with
  | error e => exact h
  | ok result =>
      obtain ⟨db', row⟩ := result
      obtain ⟨command, r, rfl, happly⟩ := create_ok hcreate
      rcases moves_of_apply h.keyed happly with rfl | ⟨l, hnext, hlife⟩
      · exact h
      · have hkeyed := keyed_of_apply h.keyed happly
        simp only [CoordinatorCommand.experimentId] at hnext hlife
        cases hbefore : s.db.lifecycle command.experimentId with
        | some l => simp [hbefore, Lifecycle.next] at hnext
        | none =>
            rw [hbefore, Lifecycle.next] at hnext
            obtain ⟨-, hnext⟩ : ¬ command.experimentId = 0 ∧
                (⟨.pending, none, 0, false⟩ : Lifecycle) = l := by
              simpa using hnext
            subst hnext
            refine h.rest hkeyed hlife ?_ (by simp) (fun _ => rfl)
            rintro l hl
            rw [hbefore] at hl
            cases hl

/-- A running experiment is marked while its worker executes it, or again. -/
theorem Attended.request
    (h : Attended s)
    (hkeyed : db'.experiments.get? 0 = none)
    (hbefore : s.db.lifecycle id = some l)
    (hstatus : l.status = .running)
    (hexecutes : l.cancellationRequested = false → ∀ workerId, l.worker = some workerId →
      (s.workers workerId).executes id = true)
    (hlife : db'.lifecycle =
      Function.update s.db.lifecycle id (some { l with cancellationRequested := true })) :
    Attended { s with db := db' } := by
  obtain ⟨hattempt, workerId, hworker, hblank, hattended⟩ := (h.rows id l hbefore).2 hstatus
  refine h.move hkeyed hlife ⟨?_, ?_⟩ ?_ ?_
  · intro hpending
    exact absurd (hpending.symm.trans hstatus) (by simp)
  · rintro -
    refine ⟨hattempt, workerId, hworker, hblank, fun _ => ?_⟩
    cases hrequested : l.cancellationRequested with
    | true => exact hattended hrequested
    | false => exact WorkerState.experimentId_of_executes (hexecutes hrequested workerId hworker)
  · intro workerId' hruns id' l' hl' hruns'
    exact h.unique id' id l' l workerId' hl' hbefore hruns' hruns
  · intro workerId' hid
    have hserves := h.workers workerId'
    rw [hlife]
    cases hstate : s.workers workerId' with
    | idle => trivial
    | executing id' experiment manualCancellation =>
        rw [hstate] at hserves hid
        cases hid
        obtain ⟨requested, hl, -⟩ := hserves
        rw [hbefore] at hl
        obtain rfl := Option.some.inj hl
        exact ⟨true, Function.update_self _ _ _, fun _ => rfl⟩
    | completing id' request =>
        rw [hstate] at hserves hid
        cases hid
        obtain ⟨hname, hl⟩ := hserves
        rw [hbefore] at hl
        obtain rfl := Option.some.inj hl
        refine ⟨hname, ?_⟩
        rw [Function.update_self]
        cases hcancelled : request.wasCancelled with
        | true => rfl
        | false =>
            -- the worker has stopped executing, so the request is not attentive
            have hexecuting := hexecutes hcancelled workerId' rfl
            rw [hstate] at hexecuting
            cases hexecuting

/-- A cancellation that reaches an executing worker keeps the invariant. -/
theorem Attended.cancel
    {stamp : Stamp}
    (h : Attended s)
    (hattentive : Attentive s (.cancel stamp id)) :
    Attended (s.answer (s.db.cancel generate stamp id)) := by
  cases hcancel : s.db.cancel generate stamp id with
  | error e => exact h
  | ok result =>
      obtain ⟨db', row⟩ := result
      rcases cancel_ok hcancel with rfl | ⟨command, r, rfl, happly⟩
      · exact h
      rcases moves_of_apply h.keyed happly with rfl | ⟨l', hnext, hlife⟩
      · exact h
      have hkeyed := keyed_of_apply h.keyed happly
      simp only [CoordinatorCommand.experimentId] at hnext hlife
      cases hbefore : s.db.lifecycle command.experimentId with
      | none => simp [hbefore, Lifecycle.next] at hnext
      | some l =>
          rw [hbefore] at hnext
          cases hstatus : l.status with
          | pending =>
              simp only [Lifecycle.next, hstatus, Option.some.injEq] at hnext
              subst hnext
              refine h.rest hkeyed hlife ?_ (by simp) (by simp)
              rintro l₁ hl₁
              rw [hbefore] at hl₁
              obtain rfl := Option.some.inj hl₁
              rw [hstatus]
              simp
          | running =>
              simp only [Lifecycle.next, hstatus, Option.some.injEq] at hnext
              subst hnext
              rw [← hstatus] at hlife
              exact h.request hkeyed hbefore hstatus
                (fun hclear w hw => hattentive.executes hbefore hstatus hclear hw) hlife
          | completed => simp [Lifecycle.next, hstatus] at hnext
          | failed => simp [Lifecycle.next, hstatus] at hnext
          | cancelled => simp [Lifecycle.next, hstatus] at hnext

/-- An assignment to a worker without running experiment keeps the invariant. -/
theorem Attended.assign
    (h : Attended s)
    (hkeyed : db'.experiments.get? 0 = none)
    (hworker : isNullOrWhiteSpace workerId = false)
    (hfree : s.db.hasRunningExperiment workerId = false)
    (hbefore : s.db.lifecycle id = some l)
    (hpending : l.status = .pending)
    (hlife : db'.lifecycle =
      Function.update s.db.lifecycle id (some ⟨.running, some workerId, l.attempt + 1, false⟩)) :
    Attended { s with db := db' } := by
  have hnotRunning : ∀ l', s.db.lifecycle id = some l' → l'.status ≠ .running := by
    intro l' hl'
    rw [hbefore] at hl'
    rw [← Option.some.inj hl', hpending]
    simp
  refine h.move hkeyed hlife ⟨?_, ?_⟩ ?_ ?_
  · rintro ⟨⟩
  · rintro -
    refine ⟨?_, workerId, rfl, hworker, ?_⟩
    · rw [(h.rows id l hbefore).1 hpending]
      rfl
    · rintro ⟨⟩
  · rintro workerId' ⟨-, hsame⟩ id' l' hl' hruns
    obtain rfl := Option.some.inj hsame
    obtain ⟨row, hrow, rfl⟩ := lifecycle_eq_some_iff.mp hl'
    have hnone := hasRunningExperiment_eq_false_iff.mp hfree id' row hrow
    rw [isRunningOn_iff.mpr hruns] at hnone
    cases hnone
  · intro workerId' hid
    exact absurd hid (h.not_handled hnotRunning workerId')

/-- A cycle of the scheduler keeps the invariant. -/
theorem Attended.schedule
    {onlineWorkers : List String} {supply : List Stamp} {db : Database}
    (h : Attended { s with db := db })
    (honline : ∀ workerId ∈ onlineWorkers, isNullOrWhiteSpace workerId = false)
    (hcycle : db.runSchedulingCycle generate onlineWorkers supply = some db') :
    Attended { s with db := db' } := by
  induction onlineWorkers generalizing db supply with
  | nil =>
      cases hcycle
      exact h
  | cons workerId onlineWorkers ih =>
      have hrest : ∀ workerId ∈ onlineWorkers, isNullOrWhiteSpace workerId = false :=
        fun w hw => honline w (List.mem_cons_of_mem _ hw)
      unfold Database.runSchedulingCycle at hcycle
      by_cases hbusy : db.hasRunningExperiment workerId = true
      · rw [if_pos hbusy] at hcycle
        exact ih h hrest hcycle
      · rw [if_neg hbusy] at hcycle
        split at hcycle
        case h_1 => cases hcycle
        case h_2 db₁ supply₁ hassign =>
          refine ih ?_ hrest hcycle
          obtain ⟨hkeyed, rfl | ⟨id, l, hl, hpending, hlife⟩⟩ := assignNextPending_some h.keyed hassign
          · exact h
          · exact h.assign hkeyed (honline workerId List.mem_cons_self)
              (Bool.eq_false_iff.mpr hbusy) hl hpending hlife

/-- A report of progress keeps the invariant. -/
theorem Attended.reportProgress
    {now : DateTimeOffset} {request : ReportExperimentProgressRequest}
    (h : Attended s) :
    Attended (s.answer (s.db.reportProgress now id request)) := by
  cases hreport : s.db.reportProgress now id request with
  | error e => exact h
  | ok result =>
      obtain ⟨db', row⟩ := result
      obtain ⟨hlife, -⟩ := reportProgress_ok hreport
      have hkeyed : db'.experiments.get? 0 = none := by
        have hzero := congrFun hlife 0
        unfold Database.lifecycle at hzero
        rw [h.keyed, Option.map_none, Option.map_eq_none_iff] at hzero
        exact hzero
      refine ⟨hkeyed, h.registered, ?_, ?_, ?_⟩
      · intro id l hl
        exact h.rows id l ((congrFun hlife id).symm.trans hl)
      · intro id id' l l' workerId hl hl'
        exact h.unique id id' l l' workerId ((congrFun hlife id).symm.trans hl)
          ((congrFun hlife id').symm.trans hl')
      · intro workerId
        exact (h.workers workerId).of_eq (fun id _ => congrFun hlife id)

/-! ## Steps of the workers -/

/-- A worker takes up an experiment that runs on it. -/
theorem Attended.poll
    {row : ExperimentEntity}
    (h : Attended s)
    (hidle : s.workers workerId = .idle)
    (hnext : s.db.getNextAssignedToWorker workerId = some (id, row)) :
    Attended (s.setWorker workerId (.executing id row false)) := by
  obtain ⟨hrow, hrunning, -⟩ := getNextAssignedToWorker_spec hnext
  obtain ⟨hstatus, hworker⟩ := isRunningOn_iff.mp hrunning
  refine h.setWorker ⟨row.cancellationRequested, ?_, ?_⟩ (Or.inr ?_)
  · rw [lifecycle_eq_some_iff]
    exact ⟨row, hrow, by simp [lifecycleOf, hstatus, hworker]⟩
  · rintro ⟨⟩
  · intro id' l hl hruns
    obtain ⟨-, workerId', hworker', -, hattended⟩ := (h.rows id' l hl).2 hruns.1
    rw [hruns.2] at hworker'
    obtain rfl := Option.some.inj hworker'
    rw [hidle] at hattended
    exact Bool.eq_false_iff.mpr fun hrequested => by cases hattended hrequested

/-- The monitor tells the worker what the row says. -/
theorem Attended.monitor
    {experiment : ExperimentEntity} {manualCancellation : Bool}
    (h : Attended s)
    (hstate : s.workers workerId = .executing id experiment manualCancellation) :
    Attended (s.setWorker workerId (.executing id experiment
      (manualCancellation || (s.db.getById id).any (fun e => e.cancellationRequested)))) := by
  have hserves := h.workers workerId
  rw [hstate] at hserves
  obtain ⟨requested, hlife, hknown⟩ := hserves
  refine h.setWorker ⟨requested, hlife, ?_⟩ (Or.inl (by rw [hstate]; rfl))
  intro hseen
  rw [Bool.or_eq_true] at hseen
  rcases hseen with hseen | hseen
  · exact hknown hseen
  · obtain ⟨row, hrow, hrow'⟩ := lifecycle_eq_some_iff.mp hlife
    unfold Database.getById at hseen
    rw [hrow, Option.any_some] at hseen
    rw [← hseen]
    exact (Lifecycle.mk.inj hrow').2.2.2.symm

/-- An execution that ends in the knowledge of the cancellation keeps the
invariant. -/
theorem Attended.finish
    {experiment : ExperimentEntity} {manualCancellation : Bool} {outcome : ExecutionOutcome}
    (h : Attended s)
    (hstate : s.workers workerId = .executing id experiment manualCancellation)
    (hattentive : Attentive s (.finish workerId outcome)) :
    Attended (s.setWorker workerId
      (endExecution workerId id experiment manualCancellation outcome)) := by
  have hserves := h.workers workerId
  rw [hstate] at hserves
  obtain ⟨requested, hlife, hknown⟩ := hserves
  have hsame : ∀ request, (WorkerState.completing id request).experimentId =
      (s.workers workerId).experimentId := by
    rw [hstate]
    exact fun _ => rfl
  rcases hattentive id (by rw [hstate]; rfl) with hobserved | hclear
  · -- the worker has seen the cancellation and reports it
    rw [hstate] at hobserved
    cases outcome with
    | operationCanceled timedOut elapsedMilliseconds =>
        have hmanual : manualCancellation = true := hobserved
        have htrue := hknown hmanual
        subst htrue
        subst hmanual
        exact h.setWorker ⟨rfl, hlife⟩ (Or.inl (hsame _))
    | returned result => cases hobserved
    | threw => cases hobserved
  · obtain ⟨row, hrow, hrow'⟩ := lifecycle_eq_some_iff.mp hlife
    have hrequested : requested = false := by
      rw [← hclear row hrow]
      exact (Lifecycle.mk.inj hrow').2.2.2.symm
    subst hrequested
    have hmanual : manualCancellation = false :=
      Bool.eq_false_iff.mpr (fun hmanual => nomatch hknown hmanual)
    subst hmanual
    have hidle : Attended (s.setWorker workerId .idle) := by
      refine h.setWorker trivial (Or.inr ?_)
      intro id' l hl hruns
      obtain rfl := h.unique id' id l _ workerId hl hlife hruns ⟨rfl, rfl⟩
      rw [hlife] at hl
      rw [← Option.some.inj hl]
    cases outcome with
    | returned result => exact h.setWorker ⟨rfl, hlife⟩ (Or.inl (hsame _))
    | operationCanceled timedOut elapsedMilliseconds =>
        cases timedOut with
        | true => exact h.setWorker ⟨rfl, hlife⟩ (Or.inl (hsame _))
        | false => exact hidle
    | threw => exact hidle

/-- A completion is accepted, and the worker is idle again. -/
theorem Attended.complete
    {stamp : Stamp} {request : CompleteExperimentRequest}
    (h : Attended s)
    (hfresh : s.db.isFresh stamp = true)
    (hstate : s.workers workerId = .completing id request) :
    Attended ((s.answer (s.db.complete generate stamp id request)).setWorker workerId .idle) := by
  obtain ⟨hname, hlife⟩ : request.workerId = workerId ∧ s.db.lifecycle id =
      some ⟨.running, some workerId, request.attempt, request.wasCancelled⟩ := by
    have hserves := h.workers workerId
    rwa [hstate] at hserves
  obtain ⟨hattempt, workerId', hworker, hblank, -⟩ := (h.rows id _ hlife).2 rfl
  obtain rfl := Option.some.inj hworker
  have hpositive : ¬ request.attempt ≤ 0 := by
    have hone : request.attempt = 1 := hattempt
    rw [hone]
    decide
  subst hname
  obtain ⟨db', row, l, haccepts, hkeyed, hpending, hrunning, hlife'⟩ :=
    complete_accepts generate h.keyed hfresh hblank hpositive hlife
  rw [haccepts]
  have hother : ∀ id', id' ≠ id → db'.lifecycle id' = s.db.lifecycle id' := by
    intro id' hne
    rw [hlife', Function.update_of_ne hne]
  have hended : ∀ id' l', db'.lifecycle id' = some l' →
      (l'.status = .pending ∨ l'.status = .running) → id' ≠ id := by
    rintro id' l' hl' hstatus rfl
    rw [hlife', Function.update_self] at hl'
    obtain rfl := Option.some.inj hl'
    rcases hstatus with hstatus | hstatus
    · exact hpending hstatus
    · exact hrunning hstatus
  refine ⟨hkeyed, h.registered, ?_, ?_, ?_⟩
  · intro id' l' hl'
    refine ⟨?_, ?_⟩
    · intro hstatus
      have hne := hended id' l' hl' (Or.inl hstatus)
      exact (h.rows id' l' ((hother id' hne).symm.trans hl')).1 hstatus
    · intro hstatus
      have hne := hended id' l' hl' (Or.inr hstatus)
      obtain ⟨hattempt', worker, hworker', hblank', hattended⟩ :=
        (h.rows id' l' ((hother id' hne).symm.trans hl')).2 hstatus
      refine ⟨hattempt', worker, hworker', hblank', ?_⟩
      intro hrequested
      have hid := hattended hrequested
      have hw : worker ≠ request.workerId := by
        rintro rfl
        rw [hstate] at hid
        exact hne (Option.some.inj hid).symm
      simpa only [Deployment.setWorker, Deployment.answer, Function.update_of_ne hw] using hid
  · intro id₁ id₂ l₁ l₂ workerId hl₁ hl₂ hruns₁ hruns₂
    exact h.unique id₁ id₂ l₁ l₂ workerId
      ((hother id₁ (hended id₁ l₁ hl₁ (Or.inr hruns₁.1))).symm.trans hl₁)
      ((hother id₂ (hended id₂ l₂ hl₂ (Or.inr hruns₂.1))).symm.trans hl₂) hruns₁ hruns₂
  · intro worker
    by_cases hw : worker = request.workerId
    · subst hw
      simp only [Deployment.setWorker, Deployment.answer, Function.update_self]
      trivial
    · simp only [Deployment.setWorker, Deployment.answer, Function.update_of_ne hw]
      refine (h.workers worker).of_eq ?_
      intro id' hid'
      refine hother id' ?_
      rintro rfl
      obtain ⟨l', hl', hruns⟩ := (h.workers worker).lifecycle_eq hid'
      rw [hlife] at hl'
      obtain rfl := Option.some.inj hl'
      exact hw (Option.some.inj hruns.2).symm

end Invariant

/-! ## Runs -/

/-- Every attentive step keeps the invariant. -/
theorem Attended.step
    {generate : ValueGenerator} {s s' : Deployment} {l : DeploymentStep}
    (h : Attended s)
    (hattentive : Attentive s l)
    (hstep : s.step generate l = some s') :
    Attended s' := by
  cases l with
  | register workerId =>
      simp only [Deployment.step] at hstep
      split at hstep
      case isTrue =>
        cases hstep
        exact h
      case isFalse hnew =>
        cases hstep
        simp only [Bool.or_eq_true, not_or, Bool.not_eq_true] at hnew
        refine ⟨h.keyed, ?_, h.rows, h.unique, h.workers⟩
        intro w hw
        rcases List.mem_append.mp hw with hold | hlast
        · exact h.registered w hold
        · rw [List.mem_singleton.mp hlast]
          exact hnew.1
  | create stamp id request =>
      simp only [Deployment.step] at hstep
      split at hstep
      case isTrue =>
        cases hstep
        exact h.create
      case isFalse => cases hstep
  | cancel stamp id =>
      simp only [Deployment.step] at hstep
      split at hstep
      case isTrue =>
        cases hstep
        exact h.cancel hattentive
      case isFalse => cases hstep
  | schedule onlineWorkers supply =>
      simp only [Deployment.step] at hstep
      split at hstep
      case isTrue honline =>
        rw [Option.map_eq_some_iff] at hstep
        obtain ⟨db', hcycle, rfl⟩ := hstep
        exact h.schedule (fun w hw => h.registered w (honline w hw)) hcycle
      case isFalse => cases hstep
  | poll workerId =>
      simp only [Deployment.step] at hstep
      split at hstep
      case h_1 hidle =>
        split at hstep
        case h_1 =>
          cases hstep
          exact h
        case h_2 id row hnext =>
          cases hstep
          exact h.poll hidle hnext
      case h_2 => cases hstep
  | monitor workerId =>
      simp only [Deployment.step] at hstep
      split at hstep
      case h_1 id experiment manualCancellation hstate =>
        cases hstep
        exact h.monitor hstate
      case h_2 => cases hstep
  | reportProgress workerId now currentStep progressMetricsJson =>
      simp only [Deployment.step] at hstep
      split at hstep
      case h_1 =>
        cases hstep
        exact h.reportProgress
      case h_2 => cases hstep
  | finish workerId outcome =>
      simp only [Deployment.step] at hstep
      split at hstep
      case h_1 id experiment manualCancellation hstate =>
        cases hstep
        exact h.finish hstate hattentive
      case h_2 => cases hstep
  | complete workerId stamp =>
      simp only [Deployment.step] at hstep
      split at hstep
      case h_1 id request hstate =>
        split at hstep
        case isTrue hfresh =>
          cases hstep
          exact h.complete hfresh hstate
        case isFalse => cases hstep
      case h_2 => cases hstep

/-- What runs on an idle worker is the next experiment it is given. -/
theorem Attended.noneStranded
    {s : Deployment}
    (h : Attended s) :
    NoneStranded s := by
  intro workerId hidle id row hrow hrunning
  have hlife : s.db.lifecycle id = some (lifecycleOf row) :=
    lifecycle_eq_some_iff.mpr ⟨row, hrow, rfl⟩
  have hruns : (lifecycleOf row).RunsOn workerId := isRunningOn_iff.mp hrunning
  refine getNextAssignedToWorker_of_unique hrow hrunning ?_ ?_
  · obtain ⟨-, workerId', hworker, -, hattended⟩ := (h.rows id _ hlife).2 hruns.1
    rw [hruns.2] at hworker
    obtain rfl := Option.some.inj hworker
    rw [hidle] at hattended
    exact Bool.eq_false_iff.mpr (fun hrequested => nomatch hattended hrequested)
  · intro id' row' hrow' hrunning'
    have hlife' : s.db.lifecycle id' = some (lifecycleOf row') :=
      lifecycle_eq_some_iff.mpr ⟨row', hrow', rfl⟩
    exact h.unique id' id _ _ workerId hlife' hlife (isRunningOn_iff.mp hrunning') hruns

/-- **No experiment is stranded** in a run in which every cancellation of a
running experiment reaches a worker that executes it and observes it. -/
theorem none_stranded
    {generate : ValueGenerator} {s : Deployment}
    (h : (deployment generate).Reachable Attentive s) :
    NoneStranded s := by
  refine Attended.noneStranded (System.Reachable.invariant attended_init ?_ h)
  intro s l s' _ hs hattentive hstep
  exact hs.step hattentive hstep

/-! ## A cancellation before the worker asks -/

instance (s : Deployment) (l : DeploymentStep) : Decidable (Attentive s l) :=
  match l with
  | .cancel _ id => decidable_of_iff (∀ row ∈ s.db.experiments.get? id,
      row.status = .running → row.cancellationRequested = false →
        ∀ workerId ∈ row.assignedWorkerId, (s.workers workerId).executes id = true)
      (by simp [Attentive])
  | .finish workerId outcome => decidable_of_iff
      ((s.workers workerId).experimentId.all (fun id =>
        (s.workers workerId).observes outcome ||
          (s.db.experiments.get? id).all (fun row => !row.cancellationRequested)) = true)
      (by simp [Attentive, Option.all_eq_true])
  | .register _ => isTrue trivial
  | .create _ _ _ => isTrue trivial
  | .schedule _ _ => isTrue trivial
  | .poll _ => isTrue trivial
  | .monitor _ => isTrue trivial
  | .reportProgress _ _ _ _ => isTrue trivial
  | .complete _ _ => isTrue trivial

def sampleStamp (id : Guid) : Stamp := ⟨id, id, 0⟩

def sampleRequestBody : CreateExperimentRequest := ⟨"e", "a", "v", 0, 1, 0, 1, false⟩

/-- An experiment is created and assigned to the worker. -/
def assignment (id : Guid) : List DeploymentStep :=
  [.create (sampleStamp id) id sampleRequestBody, .schedule ["w"] [sampleStamp (id + 1)]]

/-- The worker executes an experiment whose cancellation it sees. -/
def cancelledExecution : List DeploymentStep :=
  [.poll "w", .cancel (sampleStamp 10) 1, .monitor "w",
    .finish "w" (.operationCanceled false 0), .complete "w" (sampleStamp 11)]

/-- The worker is idle, and the experiment runs on it. -/
def WaitsFor (s : Deployment) (id : Guid) : Prop :=
  (s.workers "w").experimentId = none ∧
    (s.db.experiments.get? id).any (fun row => row.isRunningOn "w") = true

instance (s : Deployment) (id : Guid) : Decidable (WaitsFor s id) :=
  inferInstanceAs (Decidable (_ ∧ _))

theorem WaitsFor.idle
    {s : Deployment} {id : Guid}
    (h : WaitsFor s id) :
    s.workers "w" = .idle := by
  have hnone := h.1
  cases hstate : s.workers "w" with
  | idle => rfl
  | executing id' experiment manualCancellation =>
      rw [hstate] at hnone
      cases hnone
  | completing id' request =>
      rw [hstate] at hnone
      cases hnone

/-- After a cancelled execution the worker is given its next experiment. -/
theorem none_stranded_sample :
    ∃ s row, (deployment unusedGenerator).Reachable Attentive s ∧ s.workers "w" = .idle ∧
      s.db.getNextAssignedToWorker "w" = some (3, row) := by
  have hrun : ∃ s, (deployment unusedGenerator).Reachable Attentive s ∧ WaitsFor s 3 := by
    refine System.exists_reaches_of_exec
      (.register "w" :: assignment 1 ++ cancelledExecution ++ assignment 3) ?_
    decide +kernel
  obtain ⟨s, hreach, hwaits⟩ := hrun
  obtain ⟨row, hrow, hrunning⟩ := (Option.any_eq_true _ _).mp hwaits.2
  exact ⟨s, row, hreach, hwaits.idle, none_stranded hreach "w" hwaits.idle 3 row hrow hrunning⟩

/-- **A stranded experiment.**  The cancellation is requested before the worker
asks for the experiment; the worker is idle and is given nothing. -/
theorem exists_stranded :
    ∃ s row, (deployment unusedGenerator).Reachable System.anyStep s ∧ s.workers "w" = .idle ∧
      s.db.experiments.get? 1 = some row ∧ row.isRunningOn "w" = true ∧
      s.db.getNextAssignedToWorker "w" = none ∧ ¬ NoneStranded s := by
  have hrun : ∃ s, (deployment unusedGenerator).Reachable System.anyStep s ∧
      (WaitsFor s 1 ∧ s.db.getNextAssignedToWorker "w" = none) := by
    refine System.exists_reaches_of_exec
      (.register "w" :: assignment 1 ++ [.cancel (sampleStamp 10) 1]) ?_
    decide +kernel
  obtain ⟨s, hreach, hwaits, hnext⟩ := hrun
  obtain ⟨row, hrow, hrunning⟩ := (Option.any_eq_true _ _).mp hwaits.2
  refine ⟨s, row, hreach, hwaits.idle, hrow, hrunning, hnext, ?_⟩
  intro hgiven
  have hsome := hgiven "w" hwaits.idle 1 row hrow hrunning
  rw [hnext] at hsome
  cases hsome

end Coordinator
end DistributedConsensus
