import DistributedConsensus.RosPbft.Replica
import DistributedConsensus.Foundations.Runs
import Mathlib.Data.List.Dedup

/-!
# RosPbft: the safety supervisor

The supervisor turns decisions of the replicas into the emergency-stop command of the
vehicle.  It stops the vehicle at the start, while a decision is pending and after every
fault; a fault is latched.  The vehicle is released only by a decision that confirms a
request for release (`fail_safe_latch`).
-/

namespace DistributedConsensus
namespace RosPbft

open Foundations

/-- `Time.from_msg`, in nanoseconds; it raises on negative seconds. -/
def timeFromMsg (sec : ℤ) (nanosec : ℕ) : Option ℤ :=
  if sec < 0 then none else some (sec * 1000000000 + nanosec)

structure ActiveRequest where
  requestId : String
  requestDigest : String
  emergencyStop : Bool
  initialView : ℕ
  receivedTimeNs : ℤ
deriving DecidableEq

structure PBFTDecision where
  stampSec : ℤ
  stampNanosec : ℕ
  view : ℕ
  sequenceNumber : ℕ
  requestId : String
  requestDigest : String
  emergencyStop : Bool
  committed : Bool
  confirmationCount : ℕ
  requiredConfirmations : ℕ
  confirmingReplicas : List ℤ
deriving DecidableEq

/-- The state that the supervisor announces. -/
inductive SafetyState where
  | safeInitialStop
  | waitingForDecision
  | confirmedStop
  | releaseBlocked
  | confirmedRelease
  | failSafeStop
deriving DecidableEq

/-- The parameters of the supervisor that `_validate_configuration` accepts. -/
structure SupervisorParameters where
  replicaCount : ℤ
  maxFaulty : ℤ
  allowConfirmedRelease : Bool
  valid : replicaCount = 3 * maxFaulty + 1

/-- The number of replicas that have to confirm a decision. -/
def SupervisorParameters.requiredConfirmations (parameters : SupervisorParameters) : ℤ :=
  2 * parameters.maxFaulty + 1

/-- The supervisor, with what it has published. -/
structure SafetySupervisor where
  activeRequest : Option ActiveRequest
  timeoutTimer : Bool
  decisionProcessed : Bool
  failSafeLatched : Bool
  currentCommand : Bool
  currentState : SafetyState
  commands : List Bool
  states : List SafetyState
deriving DecidableEq

namespace SafetySupervisor

/-- The supervisor after its start. -/
def init : SafetySupervisor where
  activeRequest := none
  timeoutTimer := false
  decisionProcessed := false
  failSafeLatched := false
  currentCommand := true
  currentState := .safeInitialStop
  commands := [true]
  states := [.safeInitialStop]

def publishOutput (supervisor : SafetySupervisor) (enabled : Bool) : SafetySupervisor :=
  { supervisor with
    currentCommand := enabled
    commands := supervisor.commands ++ [enabled] }

def setState (supervisor : SafetySupervisor) (state : SafetyState) : SafetySupervisor :=
  { supervisor with
    currentState := state
    states := supervisor.states ++ [state] }

def cancelTimeout (supervisor : SafetySupervisor) : SafetySupervisor :=
  { supervisor with timeoutTimer := false }

def activateFailSafe (supervisor : SafetySupervisor) : SafetySupervisor :=
  ({ supervisor with failSafeLatched := true }.publishOutput true).setState .failSafeStop

section Callbacks

variable (parameters : SupervisorParameters) (digestOf : String → Bool → String)

/-- The first error of a request. -/
def validateRequest (m : PBFTMessage) : Option String :=
  if m.senderId ≠ -1 then some "sender_id must be -1"
  else if ¬ (0 ≤ m.recipientId ∧ m.recipientId < parameters.replicaCount) then
    some "invalid recipient_id"
  else if m.sequenceNumber ≠ 0 then some "client sequence_number must be zero"
  else if m.requestId = "" then some "empty request_id"
  else if m.requestDigest ≠ digestOf m.requestId m.emergencyStop then some "digest mismatch"
  else none

/-- A request arrives at the time `now`. -/
def requestCallback (supervisor : SafetySupervisor) (m : PBFTMessage) (now : ℤ) :
    SafetySupervisor :=
  if m.messageType ≠ PBFTMessage.request then supervisor
  else
    match validateRequest parameters digestOf m with
    | some _ => supervisor.activateFailSafe
    | none =>
        let candidate : ActiveRequest :=
          ⟨m.requestId, m.requestDigest, m.emergencyStop, m.view, now⟩
        let accepted : SafetySupervisor :=
          { ((({ supervisor with
                activeRequest := some candidate
                decisionProcessed := false }.cancelTimeout).publishOutput true).setState
              .waitingForDecision) with timeoutTimer := true }
        match supervisor.activeRequest with
        | none => accepted
        | some active =>
            if supervisor.decisionProcessed then accepted
            else if candidate.requestId = active.requestId ∧
                candidate.requestDigest = active.requestDigest ∧
                candidate.emergencyStop = active.emergencyStop ∧
                candidate.initialView = active.initialView then supervisor
            else supervisor.activateFailSafe

/-- The first error of a decision on the active request. -/
def validateDecision (m : PBFTDecision) (request : ActiveRequest) : Option String :=
  let unique := m.confirmingReplicas.dedup
  if m.committed = false then some "decision is not committed"
  else if m.view < request.initialView then some "decision view is stale"
  else if m.sequenceNumber ≤ 0 then some "invalid sequence number"
  else if m.requestDigest ≠ request.requestDigest then
    some "digest differs from active request"
  else if m.emergencyStop ≠ request.emergencyStop then
    some "decision value differs from request"
  else if unique.length ≠ m.confirmingReplicas.length then
    some "duplicate confirming replicas"
  else if ∃ nodeId ∈ unique, nodeId < 0 ∨ parameters.replicaCount ≤ nodeId then
    some "invalid confirming replica"
  else if m.confirmationCount ≠ unique.length then some "confirmation_count mismatch"
  else if (m.requiredConfirmations : ℤ) ≠ parameters.requiredConfirmations then
    some "required_confirmations mismatch"
  else if (unique.length : ℤ) < parameters.requiredConfirmations then
    some "insufficient confirmation quorum"
  else none

/-- A decision arrives; `none` when its stamp raises. -/
def decisionCallback (supervisor : SafetySupervisor) (m : PBFTDecision) :
    Option SafetySupervisor :=
  match supervisor.activeRequest with
  | none => some supervisor
  | some request =>
      if m.requestId ≠ request.requestId then some supervisor
      else
        match timeFromMsg m.stampSec m.stampNanosec with
        | none => none
        | some stamp =>
            if stamp < request.receivedTimeNs then some supervisor
            else
              match validateDecision parameters m request with
              | some _ => some supervisor.activateFailSafe
              | none =>
                  if supervisor.decisionProcessed then some supervisor
                  else
                    let processed := { supervisor with decisionProcessed := true }.cancelTimeout
                    if m.emergencyStop then
                      some ((processed.publishOutput true).setState .confirmedStop)
                    else if supervisor.failSafeLatched || !parameters.allowConfirmedRelease then
                      some ((processed.publishOutput true).setState .releaseBlocked)
                    else some ((processed.publishOutput false).setState .confirmedRelease)

/-- The deadline of a decision passes. -/
def decisionTimeoutCallback (supervisor : SafetySupervisor) : SafetySupervisor :=
  if supervisor.activeRequest = none ∨ supervisor.decisionProcessed then supervisor.cancelTimeout
  else supervisor.cancelTimeout.activateFailSafe

/-- The command and the state are announced again. -/
def heartbeatCallback (supervisor : SafetySupervisor) : SafetySupervisor :=
  { supervisor with
    commands := supervisor.commands ++ [supervisor.currentCommand]
    states := supervisor.states ++ [supervisor.currentState] }

end Callbacks

end SafetySupervisor

/-- The callbacks of the supervisor. -/
inductive Callback where
  | request (m : PBFTMessage) (now : ℤ)
  | decision (m : PBFTDecision)
  | timeout
  | heartbeat

/-- The supervisor takes callbacks in any order; one that raises changes nothing. -/
def safetySupervisor (parameters : SupervisorParameters) (digestOf : String → Bool → String) :
    System SafetySupervisor Callback where
  init := SafetySupervisor.init
  step supervisor
    | .request m now => some (supervisor.requestCallback parameters digestOf m now)
    | .decision m => some ((supervisor.decisionCallback parameters m).getD supervisor)
    | .timeout => some supervisor.decisionTimeoutCallback
    | .heartbeat => some supervisor.heartbeatCallback

/-- A quorum of replicas confirms the request. -/
structure PBFTDecision.Confirms (parameters : SupervisorParameters) (request : ActiveRequest)
    (m : PBFTDecision) : Prop where
  committed : m.committed = true
  requestId : m.requestId = request.requestId
  digest : m.requestDigest = request.requestDigest
  value : m.emergencyStop = request.emergencyStop
  distinct : m.confirmingReplicas.Nodup
  inRange : ∀ nodeId ∈ m.confirmingReplicas, 0 ≤ nodeId ∧ nodeId < parameters.replicaCount
  quorum : 2 * parameters.maxFaulty + 1 ≤ m.confirmingReplicas.length

namespace SafetySupervisor

section Effects

variable {parameters : SupervisorParameters} {digestOf : String → Bool → String}
  {supervisor supervisor' : SafetySupervisor} {callback : Callback}

@[simp] theorem publishOutput_activeRequest (enabled : Bool) :
    (supervisor.publishOutput enabled).activeRequest = supervisor.activeRequest := rfl

@[simp] theorem publishOutput_decisionProcessed (enabled : Bool) :
    (supervisor.publishOutput enabled).decisionProcessed = supervisor.decisionProcessed := rfl

@[simp] theorem publishOutput_failSafeLatched (enabled : Bool) :
    (supervisor.publishOutput enabled).failSafeLatched = supervisor.failSafeLatched := rfl

@[simp] theorem publishOutput_currentCommand (enabled : Bool) :
    (supervisor.publishOutput enabled).currentCommand = enabled := rfl

@[simp] theorem publishOutput_commands (enabled : Bool) :
    (supervisor.publishOutput enabled).commands = supervisor.commands ++ [enabled] := rfl

@[simp] theorem setState_activeRequest (state : SafetyState) :
    (supervisor.setState state).activeRequest = supervisor.activeRequest := rfl

@[simp] theorem setState_decisionProcessed (state : SafetyState) :
    (supervisor.setState state).decisionProcessed = supervisor.decisionProcessed := rfl

@[simp] theorem setState_failSafeLatched (state : SafetyState) :
    (supervisor.setState state).failSafeLatched = supervisor.failSafeLatched := rfl

/-- What one callback does to the output: it leaves the output alone, stops the vehicle,
or releases it on a decision that confirms the active request. -/
inductive Outcome (parameters : SupervisorParameters) (callback : Callback)
    (supervisor supervisor' : SafetySupervisor) : Prop
  | quiet
      (active : supervisor'.activeRequest = supervisor.activeRequest)
      (processed : supervisor'.decisionProcessed = supervisor.decisionProcessed)
      (latch : supervisor'.failSafeLatched = supervisor.failSafeLatched)
      (command : supervisor'.currentCommand = supervisor.currentCommand)
      (published : ∃ later, supervisor'.commands = supervisor.commands ++ later ∧
        ∀ c ∈ later, c = supervisor.currentCommand)
  | stops
      (latch : supervisor.failSafeLatched = true → supervisor'.failSafeLatched = true)
      (command : supervisor'.currentCommand = true)
      (published : supervisor'.commands = supervisor.commands ++ [true])
  | releases (request : ActiveRequest) (m : PBFTDecision)
      (decided : callback = .decision m)
      (allowed : parameters.allowConfirmedRelease = true)
      (unlatched : supervisor.failSafeLatched = false)
      (latch : supervisor'.failSafeLatched = false)
      (before : supervisor.activeRequest = some request)
      (active : supervisor'.activeRequest = some request)
      (processed : supervisor'.decisionProcessed = true)
      (release : request.emergencyStop = false)
      (confirms : m.Confirms parameters request)
      (command : supervisor'.currentCommand = false)
      (published : supervisor'.commands = supervisor.commands ++ [false])

theorem Outcome.refl : Outcome parameters callback supervisor supervisor :=
  .quiet rfl rfl rfl rfl ⟨[], by simp, by simp⟩

theorem outcome_activateFailSafe :
    Outcome parameters callback supervisor supervisor.activateFailSafe :=
  .stops (fun _ => rfl) rfl rfl

/-- A decision without an error confirms the request. -/
theorem confirms_of_validateDecision
    {m : PBFTDecision} {request : ActiveRequest}
    (hid : m.requestId = request.requestId)
    (h : validateDecision parameters m request = none) :
    m.Confirms parameters request := by
  simp only [validateDecision] at h
  split_ifs at h with hcommitted hview hsequence hdigest hvalue hlength hrange hcount hrequired
    hquorum
  have hnodup : m.confirmingReplicas.Nodup := by
    rw [← List.dedup_eq_self]
    exact (List.dedup_sublist _).eq_of_length (not_not.mp hlength)
  rw [hnodup.dedup] at hquorum hrange
  unfold SupervisorParameters.requiredConfirmations at hquorum
  refine ⟨by simpa using hcommitted, hid, not_not.mp hdigest, not_not.mp hvalue, hnodup, ?_,
    by omega⟩
  intro nodeId hmem
  by_contra hout
  exact hrange ⟨nodeId, hmem, by omega⟩

theorem outcome_requestCallback (m : PBFTMessage) (now : ℤ) :
    Outcome parameters callback supervisor
      (supervisor.requestCallback parameters digestOf m now) := by
  unfold requestCallback
  by_cases htype : m.messageType ≠ PBFTMessage.request
  · rw [if_pos htype]
    exact .refl
  · rw [if_neg htype]
    cases validateRequest parameters digestOf m with
    | some error => exact outcome_activateFailSafe
    | none =>
        cases supervisor.activeRequest with
        | none => exact .stops id rfl rfl
        | some active =>
            simp only
            split_ifs with hprocessed hsame
            · exact .stops id rfl rfl
            · exact .refl
            · exact outcome_activateFailSafe

theorem outcome_decisionCallback
    {m : PBFTDecision}
    (h : supervisor.decisionCallback parameters m = some supervisor') :
    Outcome parameters (.decision m) supervisor supervisor' := by
  unfold decisionCallback at h
  cases hactive : supervisor.activeRequest with
  | none =>
      simp only [hactive, Option.some.injEq] at h
      subst h
      exact .refl
  | some request =>
      simp only [hactive] at h
      by_cases hid : m.requestId = request.requestId
      · rw [if_neg (not_not.mpr hid)] at h
        cases hstamp : timeFromMsg m.stampSec m.stampNanosec with
        | none => simp [hstamp] at h
        | some stamp =>
            simp only [hstamp] at h
            cases herror : validateDecision parameters m request with
            | some error =>
                simp only [herror] at h
                split_ifs at h <;> cases h
                · exact .refl
                · exact outcome_activateFailSafe
            | none =>
                have hconfirms := confirms_of_validateDecision hid herror
                simp only [herror] at h
                split_ifs at h with hlate hprocessed hstop hblocked <;> cases h
                · exact .refl
                · exact .refl
                · exact .stops id rfl rfl
                · exact .stops id rfl rfl
                · -- the only branch that releases the vehicle
                  simp only [Bool.or_eq_true, Bool.not_eq_true', not_or,
                    Bool.not_eq_true, Bool.not_eq_false] at hblocked
                  have hrelease : request.emergencyStop = false := by
                    rw [← hconfirms.value]
                    simpa using hstop
                  exact .releases request m rfl hblocked.2 hblocked.1 hblocked.1 hactive rfl
                    rfl hrelease hconfirms rfl rfl
      · rw [if_pos hid] at h
        cases h
        exact .refl

theorem outcome_decisionTimeoutCallback :
    Outcome parameters callback supervisor supervisor.decisionTimeoutCallback := by
  unfold decisionTimeoutCallback
  split
  case isTrue => exact .quiet rfl rfl rfl rfl ⟨[], by simp [cancelTimeout], by simp⟩
  case isFalse => exact .stops (fun _ => rfl) rfl rfl

/-- Every callback has an outcome. -/
theorem step_outcome
    (h : (safetySupervisor parameters digestOf).step supervisor callback = some supervisor') :
    Outcome parameters callback supervisor supervisor' := by
  cases callback with
  | request m now =>
      cases h
      exact outcome_requestCallback m now
  | decision m =>
      cases h
      cases hdecision : supervisor.decisionCallback parameters m with
      | none => exact .refl
      | some result => exact outcome_decisionCallback hdecision
  | timeout =>
      cases h
      exact outcome_decisionTimeoutCallback
  | heartbeat =>
      cases h
      exact .quiet rfl rfl rfl rfl ⟨[supervisor.currentCommand], rfl, by simp⟩

end Effects

/-! ## Runs of the supervisor -/

section Runs

variable {parameters : SupervisorParameters} {digestOf : String → Bool → String}
  {supervisor supervisor' : SafetySupervisor} {callback : Callback}

/-- A latched fault stays, with a stopped vehicle. -/
structure Stopped (supervisor : SafetySupervisor) : Prop where
  latched : supervisor.failSafeLatched = true
  command : supervisor.currentCommand = true

/-- A fault stops the vehicle. -/
def Latching (supervisor : SafetySupervisor) : Prop :=
  supervisor.failSafeLatched = true → supervisor.currentCommand = true

theorem Outcome.latching
    (h : Outcome parameters callback supervisor supervisor')
    (hinv : supervisor.Latching) :
    supervisor'.Latching := by
  intro hlatched
  cases h with
  | quiet _ _ latch command _ =>
      rw [command]
      exact hinv (latch ▸ hlatched)
  | stops _ command _ => exact command
  | releases request m _ _ _ latch _ _ _ _ _ _ _ =>
      rw [latch] at hlatched
      cases hlatched

/-- A callback that follows a fault publishes nothing but stops. -/
theorem Outcome.stopped
    (h : Outcome parameters callback supervisor supervisor')
    (hstopped : supervisor.Stopped) :
    supervisor'.Stopped ∧ ∃ later, supervisor'.commands = supervisor.commands ++ later ∧
      ∀ c ∈ later, c = true := by
  cases h with
  | quiet _ _ latch command published =>
      rw [hstopped.command] at published command
      exact ⟨⟨latch.trans hstopped.latched, command⟩, published⟩
  | stops latch command published =>
      exact ⟨⟨latch hstopped.latched, command⟩, [true], published, by simp⟩
  | releases request m _ _ unlatched _ _ _ _ _ _ _ _ =>
      rw [hstopped.latched] at unlatched
      cases unlatched

theorem Stopped.reaches
    (hstopped : supervisor.Stopped)
    (h : (safetySupervisor parameters digestOf).Reaches System.anyStep supervisor supervisor') :
    supervisor'.Stopped ∧ ∃ later, supervisor'.commands = supervisor.commands ++ later ∧
      ∀ c ∈ later, c = true := by
  induction h with
  | refl => exact ⟨hstopped, [], by simp, by simp⟩
  | tail _ _ hstep ih =>
      obtain ⟨hmiddle, later, hlater, hall⟩ := ih
      obtain ⟨hend, last, hlast, hall'⟩ := (step_outcome hstep).stopped hmiddle
      refine ⟨hend, later ++ last, ?_, ?_⟩
      · rw [hlast, hlater, List.append_assoc]
      · intro c hc
        rcases List.mem_append.mp hc with hc | hc
        · exact hall c hc
        · exact hall' c hc

/-- The active request asked for release, and a decision that arrived confirmed it. -/
structure Released (parameters : SupervisorParameters) (digestOf : String → Bool → String)
    (supervisor : SafetySupervisor) : Prop where
  allowed : parameters.allowConfirmedRelease = true
  unlatched : ∀ earlier,
    (safetySupervisor parameters digestOf).Reachable System.anyStep earlier →
    (safetySupervisor parameters digestOf).Reaches System.anyStep earlier supervisor →
    earlier.failSafeLatched = false
  processed : supervisor.decisionProcessed = true
  confirmed : ∃ request m before after,
    supervisor.activeRequest = some request ∧ request.emergencyStop = false ∧
    (safetySupervisor parameters digestOf).Reachable System.anyStep before ∧
    before.activeRequest = some request ∧
    (safetySupervisor parameters digestOf).step before (.decision m) = some after ∧
    (safetySupervisor parameters digestOf).Reaches System.anyStep after supervisor ∧
    m.Confirms parameters request

/-- A reachable state is safe: a fault stops the vehicle for ever, every command that is
published is the current one, and the vehicle is released only as it should be. -/
structure FailSafe (parameters : SupervisorParameters) (digestOf : String → Bool → String)
    (supervisor : SafetySupervisor) : Prop where
  latch : supervisor.failSafeLatched = true → supervisor.currentCommand = true ∧
    ∀ later, (safetySupervisor parameters digestOf).Reaches System.anyStep supervisor later →
      later.failSafeLatched = true ∧ later.currentCommand = true ∧
      ∃ published, later.commands = supervisor.commands ++ published ∧ ∀ c ∈ published, c = true
  publishes : ∀ callback next,
    (safetySupervisor parameters digestOf).step supervisor callback = some next →
    ∃ published, next.commands = supervisor.commands ++ published ∧
      ∀ c ∈ published, c = next.currentCommand
  last : supervisor.commands.getLast? = some supervisor.currentCommand
  release : supervisor.currentCommand = false → Released parameters digestOf supervisor

/-- Every published command is the current one. -/
theorem Outcome.published
    (h : Outcome parameters callback supervisor supervisor') :
    ∃ published, supervisor'.commands = supervisor.commands ++ published ∧
      ∀ c ∈ published, c = supervisor'.currentCommand := by
  cases h with
  | quiet _ _ _ command published =>
      rw [command]
      exact published
  | stops _ command published => exact ⟨[true], published, by simp [command]⟩
  | releases request m _ _ _ _ _ _ _ _ _ command published =>
      exact ⟨[false], published, by simp [command]⟩

theorem Released.of_reaches
    (h : Released parameters digestOf supervisor)
    (hstep : (safetySupervisor parameters digestOf).Reaches System.anyStep supervisor supervisor')
    (hactive : supervisor'.activeRequest = supervisor.activeRequest)
    (hprocessed : supervisor'.decisionProcessed = supervisor.decisionProcessed)
    (hunlatched : ∀ earlier,
      (safetySupervisor parameters digestOf).Reachable System.anyStep earlier →
      (safetySupervisor parameters digestOf).Reaches System.anyStep earlier supervisor' →
      earlier.failSafeLatched = false) :
    Released parameters digestOf supervisor' := by
  obtain ⟨request, m, before, after, hrequest, hrelease, hreach, hbefore, hdecision, hafter,
    hconfirms⟩ := h.confirmed
  exact ⟨h.allowed, hunlatched, hprocessed.trans h.processed, request, m, before, after,
    hactive.trans hrequest, hrelease, hreach, hbefore, hdecision, hafter.trans hstep, hconfirms⟩

/-- A fault in the past shows. -/
theorem unlatched_of_reaches
    {earlier : SafetySupervisor}
    (hlatching : earlier.Latching)
    (h : (safetySupervisor parameters digestOf).Reaches System.anyStep earlier supervisor)
    (hcommand : supervisor.currentCommand = false) :
    earlier.failSafeLatched = false := by
  by_contra hlatched
  rw [Bool.not_eq_false] at hlatched
  have hstopped : earlier.Stopped := ⟨hlatched, hlatching hlatched⟩
  have hend := (hstopped.reaches h).1.command
  rw [hcommand] at hend
  cases hend

theorem latching_of_reachable
    (h : (safetySupervisor parameters digestOf).Reachable System.anyStep supervisor) :
    supervisor.Latching := by
  refine System.Reachable.invariant ?_ ?_ h
  · intro _
    rfl
  · intro supervisor callback supervisor' _ hinv _ hstep
    exact (step_outcome hstep).latching hinv

/-- The current command is the last one that was published. -/
def Announced (supervisor : SafetySupervisor) : Prop :=
  supervisor.commands.getLast? = some supervisor.currentCommand

theorem announced_of_reachable
    (h : (safetySupervisor parameters digestOf).Reachable System.anyStep supervisor) :
    supervisor.Announced := by
  refine System.Reachable.invariant ?_ ?_ h
  · rfl
  · unfold Announced
    intro supervisor callback supervisor' _ hinv _ hstep
    cases step_outcome hstep with
    | quiet _ _ _ command published =>
        obtain ⟨later, hlater, hall⟩ := published
        rw [hlater, command, List.getLast?_append, hinv]
        cases hlast : later.getLast? with
        | none => rfl
        | some c => rw [hall c (List.mem_of_getLast? hlast)]; rfl
    | stops _ command published => simp [published, command]
    | releases request m _ _ _ _ _ _ _ _ _ command published => simp [published, command]

theorem released_of_reachable
    (h : (safetySupervisor parameters digestOf).Reachable System.anyStep supervisor) :
    supervisor.currentCommand = false → Released parameters digestOf supervisor := by
  unfold System.Reachable at h
  induction h with
  | refl =>
    intro hcommand
    cases hcommand
  | @tail supervisor supervisor' callback hreach hok hstep hinv =>
    intro hcommand
    have hone : (safetySupervisor parameters digestOf).Reaches System.anyStep supervisor
        supervisor' := .tail (.refl _) hok hstep
    have hunlatched : ∀ earlier,
        (safetySupervisor parameters digestOf).Reachable System.anyStep earlier →
        (safetySupervisor parameters digestOf).Reaches System.anyStep earlier supervisor' →
        earlier.failSafeLatched = false :=
      fun earlier hearlier hto => unlatched_of_reaches (latching_of_reachable hearlier) hto hcommand
    cases step_outcome hstep with
    | quiet active processed _ command _ =>
        rw [command] at hcommand
        exact (hinv hcommand).of_reaches hone active processed hunlatched
    | stops _ command _ =>
        rw [command] at hcommand
        cases hcommand
    | releases request m decided allowed _ _ before active processed release confirms _ _ =>
        subst decided
        exact ⟨allowed, hunlatched, processed, request, m, supervisor, supervisor', active,
          release, hreach, before, hstep, .refl _, confirms⟩

/-- **The fail-safe latch.**  Every reachable state of the supervisor is safe. -/
theorem fail_safe_latch
    (h : (safetySupervisor parameters digestOf).Reachable System.anyStep supervisor) :
    FailSafe parameters digestOf supervisor where
  latch hlatched := by
    have hcommand := latching_of_reachable h hlatched
    refine ⟨hcommand, fun later hlater => ?_⟩
    obtain ⟨hend, hpublished⟩ := Stopped.reaches ⟨hlatched, hcommand⟩ hlater
    exact ⟨hend.latched, hend.command, hpublished⟩
  publishes _ _ hstep := (step_outcome hstep).published
  last := announced_of_reachable h
  release := released_of_reachable h

end Runs

/-- Four replicas, one of them faulty, and a vehicle that may be released. -/
def releasable : SupervisorParameters := ⟨4, 1, true, rfl⟩

/-- A release that replicas 0, 1 and 3 confirm. -/
def releaseDecision : PBFTDecision :=
  ⟨1, 0, 0, 1, "A", "digest", false, true, 3, 3, [0, 1, 3]⟩

/-- The vehicle is released, and stays stopped after a request that is not valid. -/
theorem fail_safe_latch_sample :
    ∃ released stopped,
      Released releasable (fun _ _ => "digest") released ∧
      (safetySupervisor releasable (fun _ _ => "digest")).Reaches System.anyStep released
        stopped ∧
      stopped.failSafeLatched = true ∧
      FailSafe releasable (fun _ _ => "digest") stopped := by
  obtain ⟨released, hreach, hcommand⟩ : ∃ released,
      (safetySupervisor releasable (fun _ _ => "digest")).Reaches System.anyStep init released ∧
      released.currentCommand = false := by
    refine System.exists_reaches_of_exec
      [.request ⟨0, -1, 0, 0, 0, "A", "digest", false⟩ 5, .decision releaseDecision] ?_
    decide +kernel
  have hstep : (safetySupervisor releasable (fun _ _ => "digest")).step released
      (.request ⟨0, 2, 0, 0, 0, "B", "digest", false⟩ 7) = some released.activateFailSafe := rfl
  have hfault : (safetySupervisor releasable (fun _ _ => "digest")).Reaches System.anyStep
      released released.activateFailSafe := .tail (.refl released) trivial hstep
  exact ⟨released, released.activateFailSafe, (fail_safe_latch hreach).release hcommand, hfault,
    rfl, fail_safe_latch (hreach.trans hfault)⟩

end SafetySupervisor

end RosPbft
end DistributedConsensus
