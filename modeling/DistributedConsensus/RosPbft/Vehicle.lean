import DistributedConsensus.RosPbft.Monitor

/-!
# Emergency-stop PBFT: from the replicas to the vehicle

The whole simulator: the replicas, the monitor, the clients of `client_node.py` and the
safety supervisor.  Any message may be lost, delayed, repeated and reordered between them,
and faulty replicas may send anything under their own ids, statuses included.  A status of
a correct replica may be published between any two of its callbacks; one that is published
in the middle of a callback and names a committed request is the one before or after it.

What the clients and the supervisor act on has been committed by correct replicas
(`confirmed_requests_committed`).  As the replicas commit emergency stops only, the vehicle
stays stopped in every run (`vehicle_stays_stopped`).  The monitor accuses faulty replicas
only (`monitor_accuses_faulty`).
-/

namespace DistributedConsensus
namespace RosPbft

open Foundations

/-! ## The client -/

/-- What a client is started with. -/
structure ClientParameters where
  primaryId : ℤ
  currentView : ℕ
  requestId : String
  emergencyStop : Bool

structure PBFTClient where
  parameters : ClientParameters
  requestDigest : String
  requestSentTimeNs : Option ℤ
  requestSent : Bool
  decisionReceived : Bool
  decisionTimeoutTimer : Bool
  shutdownTimer : Bool

namespace PBFTClient

/-- The client after its start. -/
def init (digestOf : String → Bool → String) (parameters : ClientParameters) : PBFTClient where
  parameters := parameters
  requestDigest := digestOf parameters.requestId parameters.emergencyStop
  requestSentTimeNs := none
  requestSent := false
  decisionReceived := false
  decisionTimeoutTimer := false
  shutdownTimer := false

/-- The request of the client. -/
def content (client : PBFTClient) : PBFTInstance :=
  ⟨client.parameters.requestId, client.requestDigest, client.parameters.emergencyStop⟩

/-- The message that `publish_request` sends. -/
def requestMessage (client : PBFTClient) : PBFTMessage where
  messageType := PBFTMessage.request
  senderId := -1
  recipientId := client.parameters.primaryId
  view := client.parameters.currentView
  sequenceNumber := 0
  requestId := client.parameters.requestId
  requestDigest := client.requestDigest
  emergencyStop := client.parameters.emergencyStop

/-- `publish_request` at the time `now`; the message itself is `requestMessage`. -/
def publishRequest (client : PBFTClient) (now : ℤ) : PBFTClient :=
  if client.requestSent then client
  else { client with
    requestSent := true
    requestSentTimeNs := some now
    decisionTimeoutTimer := true }

/-- The checks of `decision_callback` on a decision for the own request. -/
def validDecision (client : PBFTClient) (m : PBFTDecision) : Bool :=
  let unique := m.confirmingReplicas.dedup
  decide (m.committed = true ∧ m.sequenceNumber ≠ 0 ∧ m.requestDigest = client.requestDigest ∧
    m.emergencyStop = client.parameters.emergencyStop ∧
    unique.length = m.confirmingReplicas.length ∧ m.confirmationCount = unique.length ∧
    m.requiredConfirmations ≠ 0 ∧ m.requiredConfirmations ≤ m.confirmationCount)

/-- The decision is older than the request; `none` when its stamp raises. -/
def stale (client : PBFTClient) (m : PBFTDecision) : Option Bool :=
  match client.requestSentTimeNs with
  | none => some false
  | some sent => (timeFromMsg m.stampSec m.stampNanosec).map fun stamp => decide (stamp < sent)

/-- `decision_callback`; `none` when it raises. -/
def decisionCallback (client : PBFTClient) (m : PBFTDecision) : Option PBFTClient :=
  if client.decisionReceived then some client
  else if client.requestSent = false then some client
  else if m.requestId ≠ client.parameters.requestId then some client
  else
    match client.stale m with
    | none => none
    | some true => some client
    | some false =>
        if client.validDecision m then some { client with
          decisionReceived := true
          decisionTimeoutTimer := false
          shutdownTimer := true }
        else some client

/-- `decision_timeout_callback`. -/
def decisionTimeoutCallback (client : PBFTClient) : PBFTClient :=
  if client.decisionReceived then client
  else { client with decisionTimeoutTimer := false, shutdownTimer := true }

end PBFTClient

/-! ## The whole simulator -/

/-- The parts of the simulator.  `statuses` are the statuses that correct replicas have
published, `heard` are the callbacks of the monitor. -/
structure Plant (κ : Type*) where
  world : Cluster
  statuses : List ReplicaStatus
  heard : List MonitorCallback
  monitor : PBFTMonitor
  supervisor : SafetySupervisor
  clients : κ → PBFTClient

inductive PlantLabel (κ : Type*) where
  | replica (i : ℤ) (e : Event)
  | publishStatus (i : ℤ)
  | monitor (c : MonitorCallback)
  | supervisor (c : Callback)
  | publishRequest (k : κ) (now : ℤ)
  | clientDecision (k : κ) (m : PBFTDecision)
  | clientTimeout (k : κ)

section System

variable {κ : Type*} [DecidableEq κ] (D : Deployment) (parameters : SupervisorParameters)
  (requests : κ → ClientParameters)

/-- What the monitor may hear: nobody else sends under the id of a correct replica. -/
def Plant.MayHear (p : Plant κ) : MonitorCallback → Prop
  | .status status _ _ => D.IsCorrect status.nodeId → status ∈ p.statuses
  | .protocolMessage m => D.IsCorrect m.senderId →
      .prepare m ∈ (p.world m.senderId).sent ∨ .commit m ∈ (p.world m.senderId).sent

instance decidableMayHear (p : Plant κ) : (c : MonitorCallback) → Decidable (p.MayHear D c)
  | .status _ _ _ => inferInstanceAs (Decidable (_ → _))
  | .protocolMessage _ => inferInstanceAs (Decidable (_ → _))

/-- The decisions on the topic are those of the monitor. -/
def Plant.MayCall (p : Plant κ) : Callback → Prop
  | .decision m => m ∈ p.monitor.decisions
  | _ => True

instance decidableMayCall (p : Plant κ) : (c : Callback) → Decidable (p.MayCall c)
  | .decision _ => inferInstanceAs (Decidable (_ ∈ _))
  | .request _ _ | .timeout | .heartbeat => isTrue trivial

/-- The runs of the simulator. -/
def plant : System (Plant κ) (PlantLabel κ) where
  init := {
    world := (cluster D).init
    statuses := []
    heard := []
    monitor := PBFTMonitor.init
    supervisor := SafetySupervisor.init
    clients := fun k => PBFTClient.init D.digestOf (requests k) }
  step p
    | .replica i e => ((cluster D).step p.world (i, e)).map fun world => { p with world := world }
    | .publishStatus i =>
        if D.IsCorrect i then some { p with statuses := p.statuses ++ [(p.world i).status] }
        else none
    | .monitor c =>
        if p.MayHear D c then some { p with
          heard := p.heard ++ [c]
          monitor := p.monitor.callback D.f c }
        else none
    | .supervisor c =>
        if p.MayCall c then
          ((safetySupervisor parameters D.digestOf).step p.supervisor c).map
            fun supervisor => { p with supervisor := supervisor }
        else none
    | .publishRequest k now => some { p with
        clients := Function.update p.clients k ((p.clients k).publishRequest now) }
    | .clientDecision k m =>
        if m ∈ p.monitor.decisions then
          ((p.clients k).decisionCallback m).map
            fun client => { p with clients := Function.update p.clients k client }
        else none
    | .clientTimeout k =>
        if (p.clients k).decisionTimeoutTimer then some { p with
          clients := Function.update p.clients k (p.clients k).decisionTimeoutCallback }
        else none

end System

/-! ## Commits -/

namespace Cluster

variable {D : Deployment} {w w' : Cluster} {ok : Cluster → ℤ × Event → Prop}
  {key : MessageKey} {content content' : PBFTInstance}

/-- More than `f` correct replicas have committed the request under the key. -/
def CommittedWidely (D : Deployment) (w : Cluster) (key : MessageKey) (content : PBFTInstance) :
    Prop :=
  ∃ Q : Finset ℤ, D.f + 1 ≤ Q.card ∧ ∀ j ∈ Q, D.IsCorrect j ∧ (w j).Committed key content

theorem committed_mono
    {j : ℤ}
    (hext : Nodes.Extends PBFTReplica.Grows w w')
    (h : (w j).Committed key content) :
    (w' j).Committed key content :=
  ⟨(hext j).committedInstances h.1, (hext j).instances _ _ h.2⟩

/-- One request is committed under a key. -/
theorem committed_unique
    (hw : ∀ i, w.Orderly D i)
    {i j : ℤ}
    (hi : (w i).Committed key content)
    (hj : (w j).Committed key content') :
    content = content' := by
  obtain ⟨A, hcardA, hvalidA, hvotesA⟩ := exists_quorum (hw i) hi
  obtain ⟨B, hcardB, hvalidB, hvotesB⟩ := exists_quorum (hw j) hj
  obtain ⟨k, hkA, hkB, hk⟩ := D.exists_correct_inter hvalidA hvalidB hcardA hcardB
  exact Option.some.inj ((hvotesA k hkA hk).2.symm.trans (hvotesB k hkB hk).2)

theorem CommittedWidely.exists_committed
    (h : w.CommittedWidely D key content) :
    ∃ j, (w j).Committed key content := by
  obtain ⟨Q, hcard, hQ⟩ := h
  obtain ⟨j, hj⟩ := Finset.card_pos.mp (Nat.lt_of_lt_of_le (Nat.succ_pos _) hcard)
  exact ⟨j, (hQ j hj).2⟩

/-- The status of a correct replica names a committed request only when it is one. -/
theorem Shown.status
    {i : ℤ}
    (h : w.Shown D i)
    (hcommitted : (w i).status.committed = true) :
    (w i).Committed (w i).status.key (w i).status.content ∧
      (w i).status.emergencyStop = true := by
  unfold PBFTReplica.status at hcommitted ⊢
  cases hkey : (w i).currentKey with
  | none =>
      rw [hkey] at hcommitted
      cases hcommitted
  | some key =>
      simp only [hkey, decide_eq_true_eq] at hcommitted ⊢
      obtain ⟨content, hcontent, hstop⟩ := h.exists_committed hcommitted
      have hexecuted : (w i).emergencyStop = true :=
        h.faithful.executed (List.ne_nil_of_mem hcommitted)
      have hview : key.1 = (w i).currentView := h.faithful.currentKey key hkey
      refine ⟨?_, hexecuted⟩
      simp only [ReplicaStatus.key, ReplicaStatus.content, hcontent.2, Option.map_some,
        Option.getD_some, hexecuted, ← hview]
      rw [← hstop]
      exact hcontent

end Cluster

/-- A replica that confirms a decision is correct unless it is faulty. -/
theorem PBFTMonitor.Confirms.isCorrect
    {D : Deployment} {heard : List MonitorCallback} {decision : MessageKey × PBFTInstance} {j : ℤ}
    (h : Confirms D.f heard decision j)
    (hj : j ∉ D.faulty) :
    D.IsCorrect j := by
  obtain ⟨-, -, -, -, hvalid, -⟩ := h
  rw [PBFTReplica.validSender, decide_eq_true_iff] at hvalid
  exact ⟨hvalid, hj⟩

/-! ## What stops the vehicle -/

namespace SafetySupervisor

variable {parameters : SupervisorParameters} {digestOf : String → Bool → String}
  {supervisor supervisor' : SafetySupervisor} {callback : Callback}

/-- A confirmed stop: a decision on the active request has arrived. -/
def ConfirmedBy (supervisor : SafetySupervisor) (m : PBFTDecision) : Prop :=
  ∃ request, supervisor.activeRequest = some request ∧
    m.content = ⟨request.requestId, request.requestDigest, request.emergencyStop⟩

/-- No request leads to a confirmed stop. -/
theorem requestCallback_state (m : PBFTMessage) (now : ℤ) :
    supervisor.requestCallback parameters digestOf m now = supervisor ∨
      (supervisor.requestCallback parameters digestOf m now).currentState ≠ .confirmedStop := by
  unfold requestCallback
  split
  case isTrue => exact Or.inl rfl
  case isFalse =>
    split
    case h_1 => exact Or.inr nofun
    case h_2 =>
      split
      case h_1 => exact Or.inr nofun
      case h_2 =>
        simp only
        split_ifs
        · exact Or.inr nofun
        · exact Or.inl rfl
        · exact Or.inr nofun

/-- A callback that announces a confirmed stop is a decision on the active request, or
leaves the state and the request as they were. -/
theorem confirmedStop_cases
    (h : (safetySupervisor parameters digestOf).step supervisor callback = some supervisor')
    (hstate : supervisor'.currentState = .confirmedStop) :
    supervisor.currentState = .confirmedStop ∧
        supervisor'.activeRequest = supervisor.activeRequest ∨
      ∃ m, callback = .decision m ∧ supervisor'.ConfirmedBy m := by
  cases callback with
  | request m now =>
      cases h
      rcases requestCallback_state m now with hsame | hother
      · rw [hsame] at hstate ⊢
        exact Or.inl ⟨hstate, rfl⟩
      · exact absurd hstate hother
  | decision m =>
      cases h
      cases hdecision : supervisor.decisionCallback parameters m with
      | none =>
          rw [hdecision] at hstate
          exact Or.inl ⟨hstate, rfl⟩
      | some result =>
          simp only [hdecision, Option.getD_some] at hstate ⊢
          have hsame : some supervisor = some result → supervisor.currentState = .confirmedStop ∧
              result.activeRequest = supervisor.activeRequest := by
            rintro ⟨⟩
            exact ⟨hstate, rfl⟩
          unfold decisionCallback at hdecision
          split at hdecision
          case h_1 => exact Or.inl (hsame hdecision)
          case h_2 request hactive =>
            split at hdecision
            case isTrue => exact Or.inl (hsame hdecision)
            case isFalse hid =>
              split at hdecision
              case h_1 => cases hdecision
              case h_2 =>
                split at hdecision
                case isTrue => exact Or.inl (hsame hdecision)
                case isFalse =>
                  split at hdecision
                  case h_1 =>
                    cases hdecision
                    cases hstate
                  case h_2 herror =>
                    rw [not_not] at hid
                    have hconfirms := confirms_of_validateDecision hid herror
                    split_ifs at hdecision
                    · exact Or.inl (hsame hdecision)
                    · -- the stop that the decision confirms
                      cases hdecision
                      refine Or.inr ⟨m, rfl, request, hactive, ?_⟩
                      rw [PBFTDecision.content, hid, hconfirms.digest, hconfirms.value]
                    · cases hdecision
                      cases hstate
                    · cases hdecision
                      cases hstate
  | timeout =>
      cases h
      unfold decisionTimeoutCallback at hstate ⊢
      split_ifs at hstate ⊢
      · exact Or.inl ⟨hstate, rfl⟩
      · cases hstate
  | heartbeat =>
      cases h
      exact Or.inl ⟨hstate, rfl⟩

/-- The vehicle is stopped and has been so all along. -/
structure AlwaysStopped (supervisor : SafetySupervisor) : Prop where
  command : supervisor.currentCommand = true
  commands : ∀ c ∈ supervisor.commands, c = true

/-- As long as no decision for a release arrives, the vehicle stays stopped. -/
theorem AlwaysStopped.step
    (h : supervisor.AlwaysStopped)
    (hdecision : ∀ m, callback = .decision m → m.emergencyStop = true)
    (hstep : (safetySupervisor parameters digestOf).step supervisor callback = some supervisor') :
    supervisor'.AlwaysStopped := by
  have houtcome := step_outcome hstep
  obtain ⟨published, hpublished, hall⟩ := houtcome.published
  have hcommand : supervisor'.currentCommand = true := by
    cases houtcome with
    | quiet _ _ _ command _ => exact command.trans h.command
    | stops _ command _ => exact command
    | releases request m decided _ _ _ _ _ _ release confirms _ _ =>
        have hstop := confirms.value
        rw [hdecision m decided, release] at hstop
        cases hstop
  refine ⟨hcommand, fun c hc => ?_⟩
  rw [hpublished] at hc
  rcases List.mem_append.mp hc with hold | hnew
  · exact h.commands c hold
  · exact (hall c hnew).trans hcommand

end SafetySupervisor

namespace PBFTClient

variable {client client' : PBFTClient}

/-- A client completes with a decision on its request. -/
theorem decisionCallback_cases
    {m : PBFTDecision}
    (h : client.decisionCallback m = some client') :
    client'.parameters = client.parameters ∧ client'.requestDigest = client.requestDigest ∧
      (client'.decisionReceived = true →
        client.decisionReceived = true ∨ m.content = client.content) := by
  have hsame : some client = some client' → client'.parameters = client.parameters ∧
      client'.requestDigest = client.requestDigest ∧ (client'.decisionReceived = true →
        client.decisionReceived = true ∨ m.content = client.content) := by
    rintro ⟨⟩
    exact ⟨rfl, rfl, Or.inl⟩
  unfold decisionCallback at h
  split_ifs at h with hreceived hsent hid hvalid
  · exact hsame h
  · exact hsame h
  · exact hsame h
  · split at h
    case h_1 => cases h
    case h_2 => exact hsame h
    case h_3 =>
      rw [validDecision, decide_eq_true_iff] at hvalid
      cases h
      refine ⟨rfl, rfl, fun _ => Or.inr ?_⟩
      rw [PBFTDecision.content, content, not_not.mp hid, hvalid.2.2.1, hvalid.2.2.2.1]
  · split at h
    case h_1 => cases h
    case h_2 | h_3 => exact hsame h

end PBFTClient

/-! ## Runs of the simulator -/

namespace Plant

variable {κ : Type*} {D : Deployment} {parameters : SupervisorParameters}
  {requests : κ → ClientParameters} {p p' : Plant κ} {label : PlantLabel κ}

/-- The invariant of the simulator. -/
structure Sound (D : Deployment) (requests : κ → ClientParameters) (p : Plant κ) : Prop where
  world : (cluster D).Reachable System.anyStep p.world
  monitor : p.monitor.Reports D.f p.heard
  statuses : ∀ status ∈ p.statuses, status.committed = true →
    (p.world status.nodeId).Committed status.key status.content ∧ status.emergencyStop = true
  heardStatus : ∀ status sec nanosec, .status status sec nanosec ∈ p.heard →
    D.IsCorrect status.nodeId → status ∈ p.statuses
  heardMessage : ∀ m, .protocolMessage m ∈ p.heard → D.IsCorrect m.senderId →
    (p.world m.senderId).instances.get? m.key = some m.content
  stopped : p.supervisor.AlwaysStopped
  confirmed : p.supervisor.currentState = .confirmedStop →
    ∃ m ∈ p.monitor.decisions, p.supervisor.ConfirmedBy m
  clients : ∀ k, (p.clients k).parameters = requests k ∧
    (p.clients k).requestDigest = D.digestOf (requests k).requestId (requests k).emergencyStop ∧
    ((p.clients k).decisionReceived = true → ∃ m ∈ p.monitor.decisions,
      m.content = (p.clients k).content)

/-- A correct replica that confirms a decision has committed it. -/
theorem Sound.committed_of_confirms
    (h : p.Sound D requests)
    {decision : MessageKey × PBFTInstance} {j : ℤ}
    (hj : D.IsCorrect j)
    (hconfirms : PBFTMonitor.Confirms D.f p.heard decision j) :
    (p.world j).Committed decision.1 decision.2 ∧ decision.2.emergencyStop = true := by
  obtain ⟨status, sec, nanosec, hheard, -, rfl, hcommitted, -, rfl⟩ := hconfirms
  exact h.statuses status (h.heardStatus status sec nanosec hheard hj) hcommitted

/-- A published decision has been committed by more than `f` correct replicas. -/
theorem Sound.committedWidely
    (h : p.Sound D requests)
    {m : PBFTDecision}
    (hm : m ∈ p.monitor.decisions) :
    p.world.CommittedWidely D m.key m.content ∧ m.emergencyStop = true := by
  have hannounces := h.monitor.decisions m hm
  have hcard : 2 * D.f + 1 ≤ m.confirmingReplicas.toFinset.card := by
    rw [List.toFinset_card_of_nodup hannounces.distinct]
    exact hannounces.quorum
  -- at most `f` of the confirming replicas are faulty
  have hsdiff := Finset.le_card_sdiff D.faulty m.confirmingReplicas.toFinset
  have hfaulty := D.faulty_le
  have hcorrect : ∀ j ∈ m.confirmingReplicas.toFinset \ D.faulty, D.IsCorrect j ∧
      (p.world j).Committed m.key m.content ∧ m.emergencyStop = true := by
    intro j hj
    rw [Finset.mem_sdiff, List.mem_toFinset] at hj
    have hconfirms := hannounces.confirmed j hj.1
    exact ⟨hconfirms.isCorrect hj.2, h.committed_of_confirms (hconfirms.isCorrect hj.2) hconfirms⟩
  have hlarge : D.f + 1 ≤ (m.confirmingReplicas.toFinset \ D.faulty).card := by omega
  refine ⟨⟨_, hlarge, fun j hj => ⟨(hcorrect j hj).1, (hcorrect j hj).2.1⟩⟩, ?_⟩
  obtain ⟨j, hj⟩ := Finset.card_pos.mp (Nat.lt_of_lt_of_le (Nat.succ_pos _) hlarge)
  exact (hcorrect j hj).2.2

/-- The decisions of the monitor stay. -/
theorem Sound.decisions_mono
    (h : p.Sound D requests)
    (c : MonitorCallback)
    {m : PBFTDecision}
    (hm : m ∈ p.monitor.decisions) :
    ∃ m' ∈ (p.monitor.callback D.f c).decisions, m'.content = m.content := by
  have hafter := h.monitor.callback c
  have hquorum : (m.key, m.content) ∈ p.monitor.reportedConsensus := by
    rw [← h.monitor.announced]
    exact List.mem_map_of_mem hm
  rw [h.monitor.consensus, h.monitor.quorum_iff] at hquorum
  obtain ⟨Q, hcard, hQ⟩ := hquorum
  have hreported := (hafter.consensus (m.key, m.content)).mpr
    (hafter.quorum_iff.mpr ⟨Q, hcard, fun j hj => (hQ j hj).mono⟩)
  rw [← hafter.announced, List.mem_map] at hreported
  obtain ⟨m', hm', heq⟩ := hreported
  exact ⟨m', hm', (Prod.mk.inj heq).2⟩

theorem Sound.replica
    {i : ℤ} {e : Event} {world : Cluster}
    (h : p.Sound D requests)
    (hstep : (cluster D).step p.world (i, e) = some world) :
    { p with world := world }.Sound D requests := by
  have hext := Cluster.extends_of_step h.world hstep
  exact { h with
    world := .tail h.world trivial hstep
    statuses := fun status hmem hcommitted =>
      ⟨Cluster.committed_mono hext (h.statuses status hmem hcommitted).1,
        (h.statuses status hmem hcommitted).2⟩
    heardMessage := fun m hm hcorrect =>
      (hext m.senderId).instances _ _ (h.heardMessage m hm hcorrect) }

theorem Sound.publishStatus
    {i : ℤ}
    (h : p.Sound D requests)
    (hi : D.IsCorrect i) :
    { p with statuses := p.statuses ++ [(p.world i).status] }.Sound D requests := by
  have hshown := Cluster.reachable_shown h.world i hi
  have hnode : (p.world i).status.nodeId = i := by
    unfold PBFTReplica.status
    cases (p.world i).currentKey <;> exact hshown.orderly.nodeId
  refine { h with
    statuses := fun status hmem hcommitted => ?_
    heardStatus := fun status sec nanosec hheard hcorrect =>
      List.mem_append_left _ (h.heardStatus status sec nanosec hheard hcorrect) }
  rcases List.mem_append.mp hmem with hold | hnew
  · exact h.statuses status hold hcommitted
  · rw [List.mem_singleton.mp hnew] at hcommitted ⊢
    rw [hnode]
    exact hshown.status hcommitted

theorem Sound.hear
    {c : MonitorCallback}
    (h : p.Sound D requests)
    (hc : p.MayHear D c) :
    { p with heard := p.heard ++ [c], monitor := p.monitor.callback D.f c }.Sound D requests := by
  refine { h with
    monitor := h.monitor.callback c
    heardStatus := fun status sec nanosec hheard hcorrect => ?_
    heardMessage := fun m hm hcorrect => ?_
    confirmed := fun hstate => ?_
    clients := fun k => ⟨(h.clients k).1, (h.clients k).2.1, fun hreceived => ?_⟩ }
  · rcases List.mem_append.mp hheard with hold | hnew
    · exact h.heardStatus status sec nanosec hold hcorrect
    · rw [← List.mem_singleton.mp hnew] at hc
      exact hc hcorrect
  · rcases List.mem_append.mp hm with hold | hnew
    · exact h.heardMessage m hold hcorrect
    · rw [← List.mem_singleton.mp hnew] at hc
      exact (Cluster.reachable_shown h.world m.senderId hcorrect).instance_of_sent (hc hcorrect)
  · obtain ⟨m, hm, request, hactive, hcontent⟩ := h.confirmed hstate
    obtain ⟨m', hm', hsame⟩ := h.decisions_mono c hm
    exact ⟨m', hm', request, hactive, hsame.trans hcontent⟩
  · obtain ⟨m, hm, hcontent⟩ := (h.clients k).2.2 hreceived
    obtain ⟨m', hm', hsame⟩ := h.decisions_mono c hm
    exact ⟨m', hm', hsame.trans hcontent⟩

theorem Sound.supervise
    {c : Callback} {supervisor : SafetySupervisor}
    (h : p.Sound D requests)
    (hc : p.MayCall c)
    (hstep : (safetySupervisor parameters D.digestOf).step p.supervisor c = some supervisor) :
    { p with supervisor := supervisor }.Sound D requests := by
  have hdecision : ∀ m, c = .decision m → m ∈ p.monitor.decisions := by
    rintro m rfl
    exact hc
  refine { h with
    stopped := h.stopped.step (fun m hm => (h.committedWidely (hdecision m hm)).2) hstep
    confirmed := fun hstate => ?_ }
  rcases SafetySupervisor.confirmedStop_cases hstep hstate with ⟨hbefore, hactive⟩ | ⟨m, hm, hby⟩
  · obtain ⟨m, hm, request, hrequest, hcontent⟩ := h.confirmed hbefore
    exact ⟨m, hm, request, hactive.trans hrequest, hcontent⟩
  · exact ⟨m, hdecision m hm, hby⟩

variable [DecidableEq κ]

theorem sound_init : (plant D parameters requests).init.Sound D requests where
  world := .refl _
  monitor := PBFTMonitor.reports_init
  statuses := nofun
  heardStatus := nofun
  heardMessage := nofun
  stopped := ⟨rfl, fun _ hc => List.mem_singleton.mp hc⟩
  confirmed := nofun
  clients := fun _ => ⟨rfl, rfl, nofun⟩

/-- A client moves on; when it completes, there is a decision on its request. -/
theorem Sound.client
    {k : κ} {client : PBFTClient}
    (h : p.Sound D requests)
    (hclient : client.parameters = (p.clients k).parameters ∧
      client.requestDigest = (p.clients k).requestDigest ∧
      (client.decisionReceived = true → (p.clients k).decisionReceived = true ∨
        ∃ m ∈ p.monitor.decisions, m.content = (p.clients k).content)) :
    { p with clients := Function.update p.clients k client }.Sound D requests := by
  obtain ⟨hparameters, hdigest, hreceived⟩ := hclient
  obtain ⟨hrequest, hdigestOf, hdecision⟩ := h.clients k
  have hcontent : client.content = (p.clients k).content := by
    rw [PBFTClient.content, PBFTClient.content, hparameters, hdigest]
  refine { h with clients := fun j => ?_ }
  by_cases hj : j = k
  · subst hj
    simp only [Function.update_self]
    refine ⟨hparameters.trans hrequest, hdigest.trans hdigestOf, fun hdone => ?_⟩
    rw [hcontent]
    exact (hreceived hdone).elim hdecision id
  · simp only [Function.update_of_ne hj]
    exact h.clients j

/-- Every step of the simulator keeps the invariant. -/
theorem Sound.step
    (h : p.Sound D requests)
    (hstep : (plant D parameters requests).step p label = some p') :
    p'.Sound D requests := by
  cases label with
  | replica i e =>
      simp only [plant, Option.map_eq_some_iff] at hstep
      obtain ⟨world, hworld, rfl⟩ := hstep
      exact h.replica hworld
  | publishStatus i =>
      simp only [plant, Option.ite_none_right_eq_some] at hstep
      obtain ⟨hi, ⟨⟩⟩ := hstep
      exact h.publishStatus hi
  | monitor c =>
      simp only [plant, Option.ite_none_right_eq_some] at hstep
      obtain ⟨hc, ⟨⟩⟩ := hstep
      exact h.hear hc
  | supervisor c =>
      simp only [plant, Option.ite_none_right_eq_some, Option.map_eq_some_iff] at hstep
      obtain ⟨hc, supervisor, hsupervisor, rfl⟩ := hstep
      exact h.supervise hc hsupervisor
  | publishRequest k now =>
      cases hstep
      refine h.client ?_
      unfold PBFTClient.publishRequest
      split
      · exact ⟨rfl, rfl, Or.inl⟩
      · exact ⟨rfl, rfl, Or.inl⟩
  | clientDecision k m =>
      simp only [plant, Option.ite_none_right_eq_some, Option.map_eq_some_iff] at hstep
      obtain ⟨hm, client, hclient, rfl⟩ := hstep
      obtain ⟨hparameters, hdigest, hreceived⟩ := PBFTClient.decisionCallback_cases hclient
      exact h.client ⟨hparameters, hdigest,
        fun hdone => (hreceived hdone).imp_right fun hcontent => ⟨m, hm, hcontent⟩⟩
  | clientTimeout k =>
      simp only [plant, Option.ite_none_right_eq_some] at hstep
      obtain ⟨-, ⟨⟩⟩ := hstep
      refine h.client ?_
      unfold PBFTClient.decisionTimeoutCallback
      split
      · exact ⟨rfl, rfl, Or.inl⟩
      · exact ⟨rfl, rfl, Or.inl⟩

theorem sound_of_reachable
    (h : (plant D parameters requests).Reachable System.anyStep p) :
    p.Sound D requests :=
  System.Reachable.invariant sound_init (fun _ _ _ _ hs _ hstep => hs.step hstep) h

section Sample

open Cluster

/-- A client that asks for an emergency stop. -/
def stopRequest (_ : Unit) : ClientParameters := ⟨0, 0, "A", true⟩

/-- What replicas 1 and 2 report once they have committed, and what replica 0 claims. -/
def claimBy (j : ℤ) (content : PBFTInstance) : ReplicaStatus :=
  ⟨j, 0, 1, content.requestId, content.requestDigest, 2, 3, true, true, true, false⟩

/-- The decision on the request. -/
def stopDecision : PBFTDecision := PBFTMonitor.announce 1 7 0 ((0, 1), requestA) [1, 2, 0]

/-- The request is committed, decided and executed; then the faulty replica contradicts
itself in its PREPAREs and in its statuses. -/
def stopRun : List (PlantLabel Unit) :=
  [.replica 1 (prePrepareBy 0 0 1 requestA), .replica 2 (prePrepareBy 0 0 1 requestA),
    .replica 2 (prepareBy 1 0 1 requestA), .replica 1 (commitBy 0 0 1 requestA),
    .replica 1 (commitBy 2 0 1 requestA), .replica 1 (prepareBy 2 0 1 requestA),
    .replica 2 (commitBy 1 0 1 requestA), .replica 2 (commitBy 0 0 1 requestA),
    .publishStatus 1, .publishStatus 2, .publishRequest () 5,
    .supervisor (.request (PBFTClient.init digestOf (stopRequest ())).requestMessage 5),
    .monitor (.status (claimBy 1 requestA) 7 0),
    .monitor (.status (claimBy 2 requestA) 7 0),
    .monitor (.status (claimBy 0 requestA) 7 0),
    .supervisor (.decision stopDecision), .clientDecision () stopDecision,
    .monitor (.protocolMessage (broadcast PBFTMessage.prepare 0 0 1 requestA)),
    .monitor (.protocolMessage (broadcast PBFTMessage.prepare 0 0 1 requestB)),
    .monitor (.status (claimBy 0 requestB) 8 0)]

theorem exists_stopRun :
    ∃ p, (plant faultyPrimary SafetySupervisor.releasable stopRequest).Reachable System.anyStep p ∧
      p.monitor.decisions = [stopDecision] ∧ p.supervisor.currentState = .confirmedStop ∧
      (p.clients ()).decisionReceived = true ∧
      p.monitor.reportedEquivocations = [(PBFTMessage.prepare, 0, (0, 1))] ∧
      p.monitor.reportedAgreementViolations = [(0, 1)] := by
  refine System.exists_reaches_of_exec stopRun ?_
  decide +kernel

end Sample

/-- **The vehicle stays stopped.**  In no run is a decision for a release published, is the
vehicle released, or does a client learn that its request for a release is decided. -/
theorem vehicle_stays_stopped
    (h : (plant D parameters requests).Reachable System.anyStep p) :
    (∀ c ∈ p.supervisor.commands, c = true) ∧ p.supervisor.currentCommand = true ∧
      (∀ m ∈ p.monitor.decisions, m.emergencyStop = true) ∧
      ∀ k, (requests k).emergencyStop = false → (p.clients k).decisionReceived = false := by
  have hsound := sound_of_reachable h
  refine ⟨hsound.stopped.commands, hsound.stopped.command,
    fun m hm => (hsound.committedWidely hm).2, fun k hrelease => ?_⟩
  obtain ⟨hparameters, -, hdecision⟩ := hsound.clients k
  by_contra hreceived
  rw [Bool.not_eq_false] at hreceived
  obtain ⟨m, hm, hcontent⟩ := hdecision hreceived
  have hstop := (hsound.committedWidely hm).2
  have hvalue : m.emergencyStop = (p.clients k).parameters.emergencyStop :=
    congrArg PBFTInstance.emergencyStop hcontent
  rw [hparameters, hrelease, hstop] at hvalue
  cases hvalue

/-- The vehicle is stopped by a decision, though its supervisor may release it. -/
theorem vehicle_stays_stopped_sample :
    ∃ p, (plant Cluster.faultyPrimary SafetySupervisor.releasable stopRequest).Reachable
        System.anyStep p ∧ p.monitor.decisions = [stopDecision] ∧
      (∀ c ∈ p.supervisor.commands, c = true) ∧ p.supervisor.currentCommand = true := by
  obtain ⟨p, hreach, hdecisions, -⟩ := exists_stopRun
  obtain ⟨hcommands, hcommand, -⟩ := vehicle_stays_stopped hreach
  exact ⟨p, hreach, hdecisions, hcommands, hcommand⟩

/-- **What is acted on has been committed.**  More than `f` correct replicas have committed
what the monitor has decided, what the supervisor announces as a confirmed stop and what a
client takes for decided; and two decisions for one key are for one request. -/
theorem confirmed_requests_committed
    (h : (plant D parameters requests).Reachable System.anyStep p) :
    (∀ m ∈ p.monitor.decisions, p.world.CommittedWidely D m.key m.content) ∧
      (∀ m ∈ p.monitor.decisions, ∀ m' ∈ p.monitor.decisions, m.key = m'.key →
        m.content = m'.content) ∧
      (p.supervisor.currentState = .confirmedStop → ∃ request key,
        p.supervisor.activeRequest = some request ∧ p.world.CommittedWidely D key
          ⟨request.requestId, request.requestDigest, request.emergencyStop⟩) ∧
      ∀ k, (p.clients k).decisionReceived = true →
        ∃ key, p.world.CommittedWidely D key (p.clients k).content := by
  have hsound := sound_of_reachable h
  refine ⟨fun m hm => (hsound.committedWidely hm).1, fun m hm m' hm' hkey => ?_,
    fun hstate => ?_, fun k hreceived => ?_⟩
  · obtain ⟨i, hi⟩ := (hsound.committedWidely hm).1.exists_committed
    obtain ⟨j, hj⟩ := (hsound.committedWidely hm').1.exists_committed
    rw [hkey] at hi
    exact Cluster.committed_unique (Cluster.reachable_orderly hsound.world) hi hj
  · obtain ⟨m, hm, request, hactive, hcontent⟩ := hsound.confirmed hstate
    refine ⟨request, m.key, hactive, ?_⟩
    rw [← hcontent]
    exact (hsound.committedWidely hm).1
  · obtain ⟨m, hm, hcontent⟩ := (hsound.clients k).2.2 hreceived
    refine ⟨m.key, ?_⟩
    rw [← hcontent]
    exact (hsound.committedWidely hm).1

/-- The stop that the supervisor and the client take for confirmed. -/
theorem confirmed_requests_committed_sample :
    ∃ p, (plant Cluster.faultyPrimary SafetySupervisor.releasable stopRequest).Reachable
        System.anyStep p ∧ p.supervisor.currentState = .confirmedStop ∧
      (∃ request key, p.supervisor.activeRequest = some request ∧
        p.world.CommittedWidely Cluster.faultyPrimary key
          ⟨request.requestId, request.requestDigest, request.emergencyStop⟩) ∧
      ∃ key, p.world.CommittedWidely Cluster.faultyPrimary key (p.clients ()).content := by
  obtain ⟨p, hreach, -, hstate, hreceived, -⟩ := exists_stopRun
  obtain ⟨-, -, hconfirmed, hclients⟩ := confirmed_requests_committed hreach
  exact ⟨p, hreach, hstate, hconfirmed hstate, hclients () hreceived⟩

/-- **The monitor accuses faulty replicas only.**  A sender that it reports for two payloads
is faulty; when it reports two commits for one instance, one of them has been claimed by
faulty replicas only. -/
theorem monitor_accuses_faulty
    (h : (plant D parameters requests).Reachable System.anyStep p) :
    (∀ key ∈ p.monitor.reportedEquivocations, ¬ D.IsCorrect key.2.1) ∧
      ∀ key ∈ p.monitor.reportedAgreementViolations, ∃ content,
        (∃ j, PBFTMonitor.Confirms D.f p.heard (key, content) j) ∧
        ∀ j, PBFTMonitor.Confirms D.f p.heard (key, content) j → j ∈ D.faulty := by
  have hsound := sound_of_reachable h
  refine ⟨fun key hkey hcorrect => ?_, fun key hkey => ?_⟩
  · rw [hsound.monitor.equivocations, hsound.monitor.two_variants] at hkey
    obtain ⟨m, m', hm, hm', rfl, hsame, hne⟩ := hkey
    have hsender : m'.senderId = m.senderId := congrArg (fun key => key.2.1) hsame
    have hinstance : m'.key = m.key := congrArg (fun key => key.2.2) hsame
    have hget := hsound.heardMessage m hm.1 hcorrect
    have hcorrect' : D.IsCorrect m'.senderId := hsender ▸ hcorrect
    have hget' := hsound.heardMessage m' hm'.1 hcorrect'
    rw [hsender, hinstance, hget] at hget'
    exact hne (Option.some.inj hget')
  · rw [hsound.monitor.violations, hsound.monitor.two_payloads] at hkey
    obtain ⟨content, content', hne, hsome, hsome'⟩ := hkey
    by_cases hall : ∀ j, PBFTMonitor.Confirms D.f p.heard (key, content) j → j ∈ D.faulty
    · exact ⟨content, hsome, hall⟩
    · push Not at hall
      obtain ⟨i, hi, hout⟩ := hall
      refine ⟨content', hsome', fun j hj => ?_⟩
      by_contra hwrong
      exact hne (Cluster.committed_unique (Cluster.reachable_orderly hsound.world)
        (hsound.committed_of_confirms (hi.isCorrect hout) hi).1
        (hsound.committed_of_confirms (hj.isCorrect hwrong) hj).1)

/-- The faulty replica is accused of two PREPAREs and has claimed one of two commits. -/
theorem monitor_accuses_faulty_sample :
    ∃ p, (plant Cluster.faultyPrimary SafetySupervisor.releasable stopRequest).Reachable
        System.anyStep p ∧ ¬ Cluster.faultyPrimary.IsCorrect 0 ∧
      ∃ content, (∃ j, PBFTMonitor.Confirms 1 p.heard ((0, 1), content) j) ∧
        ∀ j, PBFTMonitor.Confirms 1 p.heard ((0, 1), content) j →
          j ∈ Cluster.faultyPrimary.faulty := by
  obtain ⟨p, hreach, -, -, -, hequivocations, hviolations⟩ := exists_stopRun
  obtain ⟨hsenders, hclaims⟩ := monitor_accuses_faulty hreach
  refine ⟨p, hreach, hsenders (PBFTMessage.prepare, 0, (0, 1)) ?_, hclaims (0, 1) ?_⟩
  · rw [hequivocations]
    exact List.mem_singleton_self _
  · rw [hviolations]
    exact List.mem_singleton_self _

end Plant

end RosPbft
end DistributedConsensus
