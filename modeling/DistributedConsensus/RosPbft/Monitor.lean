import DistributedConsensus.Foundations.Multimap
import DistributedConsensus.RosPbft.Reports
import DistributedConsensus.RosPbft.SafetySupervisor

/-!
# Emergency-stop PBFT: the monitor

`pbft_monitor.py`.  The monitor takes no part in the protocol.  It listens to the status
messages of the replicas, to their PREPAREs and to their COMMITs; it publishes a decision
when enough replicas that claim to be correct report it as committed, and it reports
conflicting commits and replicas that contradict themselves.

Whatever the monitor hears, in any order, its reports are exactly what it has heard
(`reports_exact`).
-/

namespace DistributedConsensus
namespace RosPbft

open Foundations

structure ReplicaStatus where
  nodeId : ℤ
  view : ℕ
  sequenceNumber : ℕ
  requestId : String
  requestDigest : String
  prepareCount : ℕ
  commitCount : ℕ
  prepared : Bool
  committed : Bool
  emergencyStop : Bool
  isByzantine : Bool
deriving DecidableEq

/-- The instance that a status is about. -/
def ReplicaStatus.key (status : ReplicaStatus) : MessageKey := (status.view, status.sequenceNumber)

/-- The payload of a status. -/
def ReplicaStatus.content (status : ReplicaStatus) : PBFTInstance :=
  ⟨status.requestId, status.requestDigest, status.emergencyStop⟩

/-- `_publish_status` of a replica that is not configured as Byzantine. -/
def PBFTReplica.status (rs : PBFTReplica) : ReplicaStatus :=
  match rs.currentKey with
  | none => ⟨rs.nodeId, rs.currentView, 0, "", "", 0, 0, false, false, rs.emergencyStop, false⟩
  | some key =>
      let content := rs.instances.get? key
      { nodeId := rs.nodeId
        view := rs.currentView
        sequenceNumber := key.2
        requestId := (content.map (·.requestId)).getD ""
        requestDigest := (content.map (·.requestDigest)).getD ""
        prepareCount := (rs.prepareSenders.getD key []).length
        commitCount := (rs.commitSenders.getD key ∅).card
        prepared := decide (key ∈ rs.preparedInstances)
        committed := decide (key ∈ rs.committedInstances)
        emergencyStop := rs.emergencyStop
        isByzantine := false }

def PBFTDecision.key (m : PBFTDecision) : MessageKey := (m.view, m.sequenceNumber)

/-- The request that a decision is about. -/
def PBFTDecision.content (m : PBFTDecision) : PBFTInstance :=
  ⟨m.requestId, m.requestDigest, m.emergencyStop⟩

/-- The type, the sender and the instance of a protocol message. -/
abbrev ObservationKey := ℕ × ℤ × MessageKey

def PBFTMessage.observationKey (m : PBFTMessage) : ObservationKey :=
  (m.messageType, m.senderId, m.key)

/-- The monitor, with the decisions that it has published. -/
structure PBFTMonitor where
  latestStatus : Dict ℤ ReplicaStatus
  committedObservations : Dict (MessageKey × PBFTInstance) (List ℤ)
  committedPayloadsByInstance : Dict MessageKey (Dict PBFTInstance (List ℤ))
  reportedConsensus : List (MessageKey × PBFTInstance)
  reportedAgreementViolations : List MessageKey
  protocolObservations : Dict ObservationKey (Dict PBFTInstance (List ℤ))
  reportedEquivocations : List ObservationKey
  decisions : List PBFTDecision

/-- The callbacks of the monitor; a status is evaluated at a time of its clock. -/
inductive MonitorCallback where
  | status (status : ReplicaStatus) (sec : ℤ) (nanosec : ℕ)
  | protocolMessage (m : PBFTMessage)
deriving DecidableEq

namespace PBFTMonitor

/-- The monitor after its start. -/
def init : PBFTMonitor where
  latestStatus := Dict.empty
  committedObservations := Dict.empty
  committedPayloadsByInstance := Dict.empty
  reportedConsensus := []
  reportedAgreementViolations := []
  protocolObservations := Dict.empty
  reportedEquivocations := []
  decisions := []

section Callbacks

variable (maxFaulty : ℕ)

/-- `_record_committed_status`. -/
def recordCommittedStatus (monitor : PBFTMonitor) (status : ReplicaStatus) : PBFTMonitor :=
  if status.committed = false ∨ status.isByzantine = true then monitor
  else
    { monitor with
      committedObservations :=
        monitor.committedObservations.add (status.key, status.content) status.nodeId
      committedPayloadsByInstance :=
        monitor.committedPayloadsByInstance.addVariant status.key status.content status.nodeId }

/-- The body of the loop of `_check_agreement`. -/
def reportViolation (monitor : PBFTMonitor) (entry : MessageKey × Dict PBFTInstance (List ℤ)) :
    PBFTMonitor :=
  if entry.2.size ≤ 1 then monitor
  else if entry.1 ∈ monitor.reportedAgreementViolations then monitor
  else
    { monitor with
      reportedAgreementViolations := monitor.reportedAgreementViolations ++ [entry.1] }

/-- `_check_agreement`. -/
def checkAgreement (monitor : PBFTMonitor) : PBFTMonitor :=
  monitor.committedPayloadsByInstance.entries.foldl reportViolation monitor

/-- The decision that is published for an observation. -/
def announce (sec : ℤ) (nanosec : ℕ) (decision : MessageKey × PBFTInstance) (nodeIds : List ℤ) :
    PBFTDecision where
  stampSec := sec
  stampNanosec := nanosec
  view := decision.1.1
  sequenceNumber := decision.1.2
  requestId := decision.2.requestId
  requestDigest := decision.2.requestDigest
  emergencyStop := decision.2.emergencyStop
  committed := true
  confirmationCount := nodeIds.length
  requiredConfirmations := PBFTReplica.commitThreshold maxFaulty
  confirmingReplicas := PBFTReplica.sortedSenders nodeIds

/-- The body of the loop of `_check_consensus`. -/
def reportConsensus (sec : ℤ) (nanosec : ℕ) (monitor : PBFTMonitor)
    (entry : (MessageKey × PBFTInstance) × List ℤ) : PBFTMonitor :=
  if entry.2.length < PBFTReplica.commitThreshold maxFaulty then monitor
  else if entry.1 ∈ monitor.reportedConsensus then monitor
  else
    { monitor with
      reportedConsensus := monitor.reportedConsensus ++ [entry.1]
      decisions := monitor.decisions ++ [announce maxFaulty sec nanosec entry.1 entry.2] }

/-- `_check_consensus`. -/
def checkConsensus (sec : ℤ) (nanosec : ℕ) (monitor : PBFTMonitor) : PBFTMonitor :=
  monitor.committedObservations.entries.foldl (reportConsensus maxFaulty sec nanosec) monitor

def statusCallback (monitor : PBFTMonitor) (status : ReplicaStatus) (sec : ℤ) (nanosec : ℕ) :
    PBFTMonitor :=
  if PBFTReplica.validSender maxFaulty status.nodeId = false then monitor
  else
    let monitor := { monitor with
      latestStatus := monitor.latestStatus.set status.nodeId status }
    ((monitor.recordCommittedStatus status).checkAgreement).checkConsensus maxFaulty sec nanosec

def protocolMessageCallback (monitor : PBFTMonitor) (m : PBFTMessage) : PBFTMonitor :=
  if m.messageType ≠ PBFTMessage.prepare ∧ m.messageType ≠ PBFTMessage.commit then monitor
  else
    let monitor := { monitor with
      protocolObservations :=
        monitor.protocolObservations.addVariant m.observationKey m.content m.recipientId }
    if (monitor.protocolObservations.getD m.observationKey Dict.empty).size ≤ 1 then monitor
    else if m.observationKey ∈ monitor.reportedEquivocations then monitor
    else
      { monitor with
        reportedEquivocations := monitor.reportedEquivocations ++ [m.observationKey] }

def callback (monitor : PBFTMonitor) : MonitorCallback → PBFTMonitor
  | .status status sec nanosec => monitor.statusCallback maxFaulty status sec nanosec
  | .protocolMessage m => monitor.protocolMessageCallback m

/-- The monitor after a sequence of callbacks. -/
def run (heard : List MonitorCallback) : PBFTMonitor :=
  heard.foldl (fun monitor c => monitor.callback maxFaulty c) init

end Callbacks

/-! ## What has been heard -/

section Heard

/-- A replica has reported the request as committed under the key. -/
def Confirms (maxFaulty : ℕ) (heard : List MonitorCallback)
    (decision : MessageKey × PBFTInstance) (j : ℤ) : Prop :=
  ∃ status sec nanosec, .status status sec nanosec ∈ heard ∧
    PBFTReplica.validSender maxFaulty j = true ∧ status.nodeId = j ∧ status.committed = true ∧
    status.isByzantine = false ∧ (status.key, status.content) = decision

/-- A PREPARE or a COMMIT has been heard. -/
def Observes (heard : List MonitorCallback) (m : PBFTMessage) : Prop :=
  .protocolMessage m ∈ heard ∧
    (m.messageType = PBFTMessage.prepare ∨ m.messageType = PBFTMessage.commit)

end Heard

/-! ## What a callback does -/

section Steps

variable {maxFaulty : ℕ} {heard : List MonitorCallback} {monitor monitor' : PBFTMonitor}
  {sec : ℤ} {nanosec : ℕ} {decision : MessageKey × PBFTInstance} {j : ℤ} {c : MonitorCallback}

theorem Confirms.mono
    (h : Confirms maxFaulty heard decision j) :
    Confirms maxFaulty (heard ++ [c]) decision j := by
  obtain ⟨status, sec, nanosec, hmem, hrest⟩ := h
  exact ⟨status, sec, nanosec, List.mem_append_left _ hmem, hrest⟩

/-- What a status adds to the confirmations. -/
theorem confirms_status_iff
    {status : ReplicaStatus} :
    Confirms maxFaulty (heard ++ [.status status sec nanosec]) decision j ↔
      (PBFTReplica.validSender maxFaulty status.nodeId = true ∧ status.committed = true ∧
        status.isByzantine = false) ∧
        decision = (status.key, status.content) ∧ j = status.nodeId ∨
      Confirms maxFaulty heard decision j := by
  constructor
  · rintro ⟨status', sec', nanosec', hmem, hvalid, rfl, hcommitted, hbyzantine, rfl⟩
    rcases List.mem_append.mp hmem with hold | hnew
    · exact Or.inr ⟨status', sec', nanosec', hold, hvalid, rfl, hcommitted, hbyzantine, rfl⟩
    · cases List.mem_singleton.mp hnew
      exact Or.inl ⟨⟨hvalid, hcommitted, hbyzantine⟩, rfl, rfl⟩
  · rintro (⟨⟨hvalid, hcommitted, hbyzantine⟩, rfl, rfl⟩ | hold)
    · exact ⟨status, sec, nanosec, by simp, hvalid, rfl, hcommitted, hbyzantine, rfl⟩
    · exact hold.mono

/-- A status that does not count confirms nothing. -/
theorem confirms_ignored_iff
    {status : ReplicaStatus}
    (h : PBFTReplica.validSender maxFaulty status.nodeId = false ∨ status.committed = false ∨
      status.isByzantine = true) :
    Confirms maxFaulty (heard ++ [.status status sec nanosec]) decision j ↔
      Confirms maxFaulty heard decision j := by
  rw [confirms_status_iff]
  refine or_iff_right ?_
  rintro ⟨⟨hvalid, hcommitted, hbyzantine⟩, -⟩
  simp [hvalid, hcommitted, hbyzantine] at h

theorem confirms_protocolMessage_iff
    {m : PBFTMessage} :
    Confirms maxFaulty (heard ++ [.protocolMessage m]) decision j ↔
      Confirms maxFaulty heard decision j := by
  refine ⟨?_, Confirms.mono⟩
  rintro ⟨status, sec, nanosec, hmem, hrest⟩
  rcases List.mem_append.mp hmem with hold | hnew
  · exact ⟨status, sec, nanosec, hold, hrest⟩
  · cases List.mem_singleton.mp hnew

theorem observes_append_iff
    {m : PBFTMessage} :
    Observes (heard ++ [c]) m ↔
      c = .protocolMessage m ∧
        (m.messageType = PBFTMessage.prepare ∨ m.messageType = PBFTMessage.commit) ∨
      Observes heard m := by
  unfold Observes
  rw [List.mem_append, List.mem_singleton, or_and_right, or_comm, eq_comm]

/-- `_check_agreement` announces the keys under which there are two payloads. -/
theorem foldl_reportViolation
    (entries : List (MessageKey × Dict PBFTInstance (List ℤ))) (monitor : PBFTMonitor) :
    entries.foldl reportViolation monitor = { monitor with
      reportedAgreementViolations := monitor.reportedAgreementViolations ++
        (Dict.news (1 < ·.size) monitor.reportedAgreementViolations entries).map Prod.fst } := by
  induction entries generalizing monitor with
  | nil => simp [Dict.news]
  | cons entry entries ih =>
      rw [List.foldl_cons, ih, Dict.news, reportViolation, ← ite_or]
      simp only [← not_le, ← not_or, ite_not]
      split
      case isTrue => rfl
      case isFalse => simp only [List.map_cons, List.append_assoc, List.singleton_append]

/-- `_check_consensus` announces the observations that reach the threshold. -/
theorem foldl_reportConsensus
    (maxFaulty : ℕ) (sec : ℤ) (nanosec : ℕ)
    (entries : List ((MessageKey × PBFTInstance) × List ℤ)) (monitor : PBFTMonitor) :
    let news := Dict.news (PBFTReplica.commitThreshold maxFaulty ≤ ·.length)
      monitor.reportedConsensus entries
    entries.foldl (reportConsensus maxFaulty sec nanosec) monitor = { monitor with
      reportedConsensus := monitor.reportedConsensus ++ news.map Prod.fst
      decisions := monitor.decisions ++
        news.map fun entry => announce maxFaulty sec nanosec entry.1 entry.2 } := by
  induction entries generalizing monitor with
  | nil => simp [Dict.news]
  | cons entry entries ih =>
      simp only at ih ⊢
      rw [List.foldl_cons, ih, Dict.news, reportConsensus, ← ite_or]
      simp only [← not_lt, ← not_or, ite_not]
      split
      case isTrue => rfl
      case isFalse => simp only [List.map_cons, List.append_assoc, List.singleton_append]

/-- The tables of the monitor hold what has been heard. -/
structure Collects (maxFaulty : ℕ) (heard : List MonitorCallback) (monitor : PBFTMonitor) :
    Prop where
  distinct : ∀ decision, (monitor.committedObservations.getD decision []).Nodup
  observed : ∀ decision j, j ∈ monitor.committedObservations.getD decision [] ↔
    Confirms maxFaulty heard decision j
  payloads : ∀ key content,
    content ∈ (monitor.committedPayloadsByInstance.getD key Dict.empty).keys ↔
      ∃ j, Confirms maxFaulty heard (key, content) j
  variants : ∀ key content,
    content ∈ (monitor.protocolObservations.getD key Dict.empty).keys ↔
      ∃ m, Observes heard m ∧ m.observationKey = key ∧ m.content = content

/-- A status enters the tables of commits. -/
theorem Collects.recordCommittedStatus
    {status : ReplicaStatus}
    (h : Collects maxFaulty heard monitor)
    (hvalid : PBFTReplica.validSender maxFaulty status.nodeId = true) :
    Collects maxFaulty (heard ++ [.status status sec nanosec])
      (monitor.recordCommittedStatus status) := by
  have hvariants : ∀ key content,
      content ∈ (monitor.protocolObservations.getD key Dict.empty).keys ↔
        ∃ m, Observes (heard ++ [.status status sec nanosec]) m ∧ m.observationKey = key ∧
          m.content = content := by
    intro key content
    rw [h.variants]
    simp [observes_append_iff]
  by_cases hskip : status.committed = false ∨ status.isByzantine = true
  · rw [PBFTMonitor.recordCommittedStatus, if_pos hskip]
    refine ⟨h.distinct, fun decision j => ?_, fun key content => ?_, hvariants⟩
    · rw [h.observed, confirms_ignored_iff (Or.inr hskip)]
    · simp only [h.payloads, confirms_ignored_iff (Or.inr hskip)]
  · rw [PBFTMonitor.recordCommittedStatus, if_neg hskip]
    rw [not_or, Bool.not_eq_false, Bool.not_eq_true] at hskip
    have hchecks := And.intro hvalid hskip
    refine ⟨fun decision => Dict.nodup_getD_add h.distinct decision, fun decision j => ?_,
      fun key content => ?_, hvariants⟩
    · rw [Dict.mem_getD_add, h.observed, confirms_status_iff]
      simp [hchecks]
    · rw [Dict.mem_keys_addVariant, h.payloads]
      simp only [confirms_status_iff, hchecks, true_and, Prod.mk.injEq, exists_or,
        exists_and_left, exists_eq, and_true]

/-- Under a key are two payloads. -/
theorem Collects.two_payloads
    (h : Collects maxFaulty heard monitor)
    {key : MessageKey} :
    1 < (monitor.committedPayloadsByInstance.getD key Dict.empty).size ↔
      ∃ content content', content ≠ content' ∧ (∃ j, Confirms maxFaulty heard (key, content) j) ∧
        ∃ j, Confirms maxFaulty heard (key, content') j := by
  rw [Dict.one_lt_size_iff]
  constructor
  · rintro ⟨content, hcontent, content', hcontent', hne⟩
    exact ⟨content, content', hne, (h.payloads _ _).mp hcontent, (h.payloads _ _).mp hcontent'⟩
  · rintro ⟨content, content', hne, hcontent, hcontent'⟩
    exact ⟨content, (h.payloads _ _).mpr hcontent, content', (h.payloads _ _).mpr hcontent', hne⟩

/-- Under a key are two variants. -/
theorem Collects.two_variants
    (h : Collects maxFaulty heard monitor)
    {key : ObservationKey} :
    1 < (monitor.protocolObservations.getD key Dict.empty).size ↔
      ∃ m m', Observes heard m ∧ Observes heard m' ∧ m.observationKey = key ∧
        m'.observationKey = key ∧ m.content ≠ m'.content := by
  rw [Dict.one_lt_size_iff]
  constructor
  · rintro ⟨content, hcontent, content', hcontent', hne⟩
    obtain ⟨m, hm, hkey, rfl⟩ := (h.variants _ _).mp hcontent
    obtain ⟨m', hm', hkey', rfl⟩ := (h.variants _ _).mp hcontent'
    exact ⟨m, m', hm, hm', hkey, hkey', hne⟩
  · rintro ⟨m, m', hm, hm', hkey, hkey', hne⟩
    exact ⟨m.content, (h.variants _ _).mpr ⟨m, hm, hkey, rfl⟩, m'.content,
      (h.variants _ _).mpr ⟨m', hm', hkey', rfl⟩, hne⟩

/-- The replicas that confirm a decision, when there are enough of them. -/
theorem Collects.quorum_iff
    (h : Collects maxFaulty heard monitor) :
    PBFTReplica.commitThreshold maxFaulty ≤
        (monitor.committedObservations.getD decision []).length ↔
      ∃ Q : Finset ℤ, PBFTReplica.commitThreshold maxFaulty ≤ Q.card ∧
        ∀ j ∈ Q, Confirms maxFaulty heard decision j := by
  constructor
  · intro hlength
    refine ⟨(monitor.committedObservations.getD decision []).toFinset, ?_, ?_⟩
    · rw [List.toFinset_card_of_nodup (h.distinct decision)]
      exact hlength
    · intro j hj
      exact (h.observed decision j).mp (List.mem_toFinset.mp hj)
  · rintro ⟨Q, hcard, hQ⟩
    have hsub : Q ⊆ (monitor.committedObservations.getD decision []).toFinset := by
      intro j hj
      exact List.mem_toFinset.mpr ((h.observed decision j).mpr (hQ j hj))
    have hle := Finset.card_le_card hsub
    rw [List.toFinset_card_of_nodup (h.distinct decision)] at hle
    exact hcard.trans hle

/-- A decision is what enough replicas have confirmed. -/
structure Announces (maxFaulty : ℕ) (heard : List MonitorCallback) (m : PBFTDecision) : Prop where
  committed : m.committed = true
  distinct : m.confirmingReplicas.Nodup
  confirmationCount : m.confirmationCount = m.confirmingReplicas.length
  requiredConfirmations : m.requiredConfirmations = PBFTReplica.commitThreshold maxFaulty
  quorum : PBFTReplica.commitThreshold maxFaulty ≤ m.confirmingReplicas.length
  confirmed : ∀ j ∈ m.confirmingReplicas, Confirms maxFaulty heard (m.key, m.content) j

/-- The monitor has recorded and reported what it has heard. -/
structure Reports (maxFaulty : ℕ) (heard : List MonitorCallback) (monitor : PBFTMonitor) : Prop
    extends Collects maxFaulty heard monitor where
  violations : ∀ key, key ∈ monitor.reportedAgreementViolations ↔
    1 < (monitor.committedPayloadsByInstance.getD key Dict.empty).size
  consensus : ∀ decision, decision ∈ monitor.reportedConsensus ↔
    PBFTReplica.commitThreshold maxFaulty ≤
      (monitor.committedObservations.getD decision []).length
  once : monitor.reportedConsensus.Nodup
  announced : monitor.decisions.map (fun m => (m.key, m.content)) = monitor.reportedConsensus
  decisions : ∀ m ∈ monitor.decisions, Announces maxFaulty heard m
  equivocations : ∀ key, key ∈ monitor.reportedEquivocations ↔
    1 < (monitor.protocolObservations.getD key Dict.empty).size

theorem Announces.mono
    {m : PBFTDecision}
    (h : Announces maxFaulty heard m) :
    Announces maxFaulty (heard ++ [c]) m :=
  { h with confirmed := fun j hj => (h.confirmed j hj).mono }

theorem announces_announce
    {nodeIds : List ℤ}
    (hnodup : nodeIds.Nodup)
    (hquorum : PBFTReplica.commitThreshold maxFaulty ≤ nodeIds.length)
    (hconfirms : ∀ j ∈ nodeIds, Confirms maxFaulty heard decision j) :
    Announces maxFaulty heard (announce maxFaulty sec nanosec decision nodeIds) := by
  have hperm : (PBFTReplica.sortedSenders nodeIds).Perm nodeIds :=
    List.perm_insertionSort (· ≤ ·) nodeIds
  exact ⟨rfl, hperm.nodup_iff.mpr hnodup, hperm.length_eq.symm, rfl,
    hperm.length_eq ▸ hquorum, fun j hj => hconfirms j (hperm.mem_iff.mp hj)⟩

/-- A status of no replica changes nothing. -/
theorem Reports.ignore
    {status : ReplicaStatus}
    (h : Reports maxFaulty heard monitor)
    (hinvalid : PBFTReplica.validSender maxFaulty status.nodeId = false) :
    Reports maxFaulty (heard ++ [.status status sec nanosec]) monitor := by
  refine { h with
    observed := fun decision j => ?_
    payloads := fun key content => ?_
    variants := fun key content => ?_
    decisions := fun m hm => (h.decisions m hm).mono }
  · rw [h.observed, confirms_ignored_iff (Or.inl hinvalid)]
  · simp only [h.payloads, confirms_ignored_iff (Or.inl hinvalid)]
  · rw [h.variants]
    simp [observes_append_iff]

/-- Only the tables of commits change. -/
theorem recordCommittedStatus_frame (monitor : PBFTMonitor) (status : ReplicaStatus) :
    ∃ observations payloads, monitor.recordCommittedStatus status = { monitor with
      committedObservations := observations
      committedPayloadsByInstance := payloads } := by
  unfold recordCommittedStatus
  split
  · exact ⟨_, _, rfl⟩
  · exact ⟨_, _, rfl⟩

/-- A status of a replica is recorded, and what it completes is reported. -/
theorem Reports.status
    {status : ReplicaStatus}
    (h : Reports maxFaulty heard monitor)
    (hvalid : PBFTReplica.validSender maxFaulty status.nodeId = true) :
    Reports maxFaulty (heard ++ [.status status sec nanosec])
      (monitor.statusCallback maxFaulty status sec nanosec) := by
  have hstored : Collects maxFaulty heard { monitor with
      latestStatus := monitor.latestStatus.set status.nodeId status } :=
    ⟨h.distinct, h.observed, h.payloads, h.variants⟩
  have hcollects : Collects maxFaulty (heard ++ [.status status sec nanosec])
      ({ monitor with latestStatus := monitor.latestStatus.set status.nodeId status
        }.recordCommittedStatus status) := hstored.recordCommittedStatus hvalid
  obtain ⟨observations, payloads, hframe⟩ := recordCommittedStatus_frame
    { monitor with latestStatus := monitor.latestStatus.set status.nodeId status } status
  rw [hframe] at hcollects
  unfold statusCallback
  rw [if_neg (by rw [hvalid]; decide)]
  simp only [hframe, checkAgreement, checkConsensus]
  -- the agreement is checked on the new tables, then the consensus
  rw [foldl_reportViolation, foldl_reportConsensus]
  refine ⟨⟨hcollects.distinct, hcollects.observed, hcollects.payloads, hcollects.variants⟩,
    fun key => ?_, fun decision => ?_, Dict.nodup_append_news h.once, ?_, fun m hm => ?_,
    h.equivocations⟩
  · -- a violation of the past is still one
    have hold : key ∈ monitor.reportedAgreementViolations →
        1 < (payloads.getD key Dict.empty).size := by
      rw [h.violations, h.two_payloads]
      rintro ⟨content, content', hne, ⟨j, hj⟩, j', hj'⟩
      exact hcollects.two_payloads.mpr ⟨content, content', hne, ⟨j, hj.mono⟩, j', hj'.mono⟩
    rw [Dict.mem_append_news_iff, Dict.exists_mem_entries_iff (x := Dict.empty) (Nat.not_lt_zero 1)]
    exact or_iff_right_of_imp hold
  · have hold : decision ∈ monitor.reportedConsensus →
        PBFTReplica.commitThreshold maxFaulty ≤ (observations.getD decision []).length := by
      rw [h.consensus, h.quorum_iff]
      rintro ⟨Q, hcard, hQ⟩
      exact hcollects.quorum_iff.mpr ⟨Q, hcard, fun j hj => (hQ j hj).mono⟩
    rw [Dict.mem_append_news_iff, Dict.exists_mem_entries_iff (x := []) (Nat.not_succ_le_zero _)]
    exact or_iff_right_of_imp hold
  · rw [List.map_append, h.announced, List.map_map]
    rfl
  · rcases List.mem_append.mp hm with hold | hnew
    · exact (h.decisions m hold).mono
    · obtain ⟨⟨decision, nodeIds⟩, hnews, rfl⟩ := List.mem_map.mp hnew
      obtain ⟨hentry, hquorum⟩ := Dict.mem_of_mem_news hnews
      have hget : observations.getD decision [] = nodeIds := by
        rw [Dict.getD, Dict.get?_of_mem_entries hentry]
        rfl
      subst hget
      exact announces_announce (hcollects.distinct decision) hquorum
        fun j hj => (hcollects.observed decision j).mp hj

/-- A PREPARE or a COMMIT is recorded, and its key is announced if it has two variants. -/
theorem protocolMessageCallback_eq
    {m : PBFTMessage}
    (hvote : m.messageType = PBFTMessage.prepare ∨ m.messageType = PBFTMessage.commit) :
    let observations :=
      monitor.protocolObservations.addVariant m.observationKey m.content m.recipientId
    monitor.protocolMessageCallback m = { monitor with
      protocolObservations := observations
      reportedEquivocations := monitor.reportedEquivocations ++
        (Dict.news (1 < ·.size) monitor.reportedEquivocations
          [(m.observationKey, observations.getD m.observationKey Dict.empty)]).map Prod.fst } := by
  have hskip : ¬ (m.messageType ≠ PBFTMessage.prepare ∧ m.messageType ≠ PBFTMessage.commit) :=
    fun h => hvote.elim h.1 h.2
  unfold protocolMessageCallback
  rw [if_neg hskip]
  simp only [Dict.news, ← not_le, ← not_or, ite_not, ← ite_or]
  split
  case isTrue => rw [List.map_nil, List.append_nil]
  case isFalse => rfl

/-- A protocol message is recorded, and a contradiction is reported. -/
theorem Reports.protocolMessage
    {m : PBFTMessage}
    (h : Reports maxFaulty heard monitor) :
    Reports maxFaulty (heard ++ [.protocolMessage m]) (monitor.protocolMessageCallback m) := by
  have hcommits : ∀ protocolObservations reportedEquivocations,
      (∀ key content, content ∈ (protocolObservations.getD key Dict.empty).keys ↔
        ∃ p, Observes (heard ++ [.protocolMessage m]) p ∧ p.observationKey = key ∧
          p.content = content) →
      (∀ key, key ∈ reportedEquivocations ↔
        1 < (protocolObservations.getD key Dict.empty).size) →
      Reports maxFaulty (heard ++ [.protocolMessage m]) { monitor with
        protocolObservations := protocolObservations
        reportedEquivocations := reportedEquivocations } := by
    intro protocolObservations reportedEquivocations hvariants hequivocations
    refine ⟨⟨h.distinct, fun decision j => ?_, fun key content => ?_, hvariants⟩, h.violations,
      h.consensus, h.once, h.announced, fun d hd => (h.decisions d hd).mono, hequivocations⟩
    · rw [h.observed, confirms_protocolMessage_iff]
    · simp only [h.payloads, confirms_protocolMessage_iff]
  by_cases hvote : m.messageType = PBFTMessage.prepare ∨ m.messageType = PBFTMessage.commit
  · have hvariants : ∀ key content, content ∈ ((monitor.protocolObservations.addVariant
        m.observationKey m.content m.recipientId).getD key Dict.empty).keys ↔
        ∃ p, Observes (heard ++ [.protocolMessage m]) p ∧ p.observationKey = key ∧
          p.content = content := by
      intro key content
      rw [Dict.mem_keys_addVariant, h.variants]
      simp only [observes_append_iff]
      constructor
      · rintro (⟨rfl, rfl⟩ | ⟨p, hp, hkey, hcontent⟩)
        · exact ⟨m, Or.inl ⟨rfl, hvote⟩, rfl, rfl⟩
        · exact ⟨p, Or.inr hp, hkey, hcontent⟩
      · rintro ⟨p, ⟨heq, -⟩ | hp, hkey, hcontent⟩
        · cases heq
          exact Or.inl ⟨hkey.symm, hcontent.symm⟩
        · exact Or.inr ⟨p, hp, hkey, hcontent⟩
    rw [protocolMessageCallback_eq hvote]
    refine hcommits _ _ hvariants fun key => ?_
    rw [Dict.mem_append_news_iff, h.equivocations]
    simp only [List.mem_singleton, Prod.mk.injEq]
    by_cases hkey : key = m.observationKey
    · subst hkey
      refine ⟨?_, fun hmany => Or.inr ⟨_, ⟨rfl, rfl⟩, hmany⟩⟩
      rintro (hmany | ⟨-, ⟨-, rfl⟩, hmany⟩)
      · -- the variants of the past are still there
        rw [Dict.one_lt_size_iff] at hmany ⊢
        obtain ⟨content, hcontent, content', hcontent', hne⟩ := hmany
        exact ⟨content, Dict.mem_keys_addVariant.mpr (Or.inr hcontent), content',
          Dict.mem_keys_addVariant.mpr (Or.inr hcontent'), hne⟩
      · exact hmany
    · refine (or_iff_left ?_).trans ?_
      · rintro ⟨-, ⟨hsame, -⟩, -⟩
        exact hkey hsame
      · rw [Dict.addVariant, Dict.getD_set, if_neg hkey]
  · have hskip : m.messageType ≠ PBFTMessage.prepare ∧ m.messageType ≠ PBFTMessage.commit :=
      not_or.mp hvote
    rw [protocolMessageCallback, if_pos hskip]
    refine hcommits _ _ (fun key content => ?_) h.equivocations
    rw [h.variants]
    refine exists_congr fun p => and_congr_left' ?_
    rw [observes_append_iff, or_iff_right]
    rintro ⟨heq, hp⟩
    cases heq
    exact hvote hp

/-- One callback. -/
theorem Reports.callback
    (h : Reports maxFaulty heard monitor)
    (c : MonitorCallback) :
    Reports maxFaulty (heard ++ [c]) (monitor.callback maxFaulty c) := by
  cases c with
  | status status sec nanosec =>
      cases hvalid : PBFTReplica.validSender maxFaulty status.nodeId with
      | true => exact h.status hvalid
      | false =>
          have hsame : monitor.callback maxFaulty (.status status sec nanosec) = monitor :=
            if_pos hvalid
          rw [hsame]
          exact h.ignore hvalid
  | protocolMessage m => exact h.protocolMessage

theorem reports_init : Reports maxFaulty [] init where
  distinct := fun _ => List.nodup_nil
  observed := fun decision j => by simp [init, Confirms]
  payloads := fun key content => by simp [init, Confirms]
  variants := fun key content => by simp [init, Observes]
  violations := fun key => by simp [init]
  consensus := fun decision => by simp [init, PBFTReplica.commitThreshold]
  once := List.nodup_nil
  announced := rfl
  decisions := nofun
  equivocations := fun key => by simp [init]

/-- The monitor after a run. -/
theorem reports_run (maxFaulty : ℕ) (heard : List MonitorCallback) :
    Reports maxFaulty heard (run maxFaulty heard) := by
  induction heard using List.reverseRecOn with
  | nil => exact reports_init
  | append_singleton heard c ih =>
      unfold run at ih ⊢
      rw [List.foldl_append]
      exact ih.callback c

/-- **The reports of the monitor.**  Whatever it has heard, the monitor has published each
decision once that a quorum of replicas has reported, and no other; it accuses exactly the
instances with two reported payloads and the senders of two payloads. -/
theorem reports_exact (maxFaulty : ℕ) (heard : List MonitorCallback) :
    (∀ decision, (∃ m ∈ (run maxFaulty heard).decisions, (m.key, m.content) = decision) ↔
      ∃ Q : Finset ℤ, PBFTReplica.commitThreshold maxFaulty ≤ Q.card ∧
        ∀ j ∈ Q, Confirms maxFaulty heard decision j) ∧
    ((run maxFaulty heard).decisions.map fun m => (m.key, m.content)).Nodup ∧
    (∀ key, key ∈ (run maxFaulty heard).reportedAgreementViolations ↔
      ∃ content content', content ≠ content' ∧ (∃ j, Confirms maxFaulty heard (key, content) j) ∧
        ∃ j, Confirms maxFaulty heard (key, content') j) ∧
    ∀ key, key ∈ (run maxFaulty heard).reportedEquivocations ↔
      ∃ m m', Observes heard m ∧ Observes heard m' ∧ m.observationKey = key ∧
        m'.observationKey = key ∧ m.content ≠ m'.content := by
  have h := reports_run maxFaulty heard
  refine ⟨fun decision => ?_, ?_, fun key => ?_, fun key => ?_⟩
  · rw [← h.quorum_iff, ← h.consensus, ← h.announced, List.mem_map]
  · rw [h.announced]
    exact h.once
  · rw [h.violations, h.two_payloads]
  · rw [h.equivocations, h.two_variants]

end Steps

end PBFTMonitor

end RosPbft
end DistributedConsensus
