import DistributedConsensus.Foundations.Dict
import Mathlib.Data.Finset.Card
import Mathlib.Data.List.Dedup
import Mathlib.Data.List.Sort

/-!
# Emergency-stop PBFT: the replica from REQUEST to COMMIT

`pbft_replica.py` with `request_handling.py`, `pre_prepare.py`, `prepare.py`,
`commit.py` and `progress_timeout.py`: the state of a replica and its callbacks
for the normal case, without the fault-injection behaviors of a replica that is
configured as Byzantine.

The digest of a request is a parameter.  A callback appends what it publishes to
`sent`; the log lines and the status messages are left out.  Sets are finite
sets, or lists where the source enumerates them; the buffers that the source
indexes by key and sender are the lists of their messages in order of arrival.
-/

namespace DistributedConsensus
namespace RosPbft

open Foundations

/-- `MessageKey`: a view and a sequence number. -/
abbrev MessageKey := ℕ × ℕ

instance lawfulBEqMessageKey : LawfulBEq MessageKey := inferInstance

structure PBFTInstance where
  requestId : String
  requestDigest : String
  emergencyStop : Bool
deriving DecidableEq

structure PBFTMessage where
  messageType : ℕ
  senderId : ℤ
  recipientId : ℤ
  view : ℕ
  sequenceNumber : ℕ
  requestId : String
  requestDigest : String
  emergencyStop : Bool
deriving DecidableEq

namespace PBFTMessage

/-- The constant `REQUEST`. -/
def request : ℕ := 0

/-- The constant `PRE_PREPARE`. -/
def prePrepare : ℕ := 1

/-- The constant `PREPARE`. -/
def prepare : ℕ := 2

/-- The constant `COMMIT`. -/
def commit : ℕ := 3

def key (m : PBFTMessage) : MessageKey := (m.view, m.sequenceNumber)

/-- The request that the message is about. -/
def content (m : PBFTMessage) : PBFTInstance := ⟨m.requestId, m.requestDigest, m.emergencyStop⟩

end PBFTMessage

structure ViewChange where
  senderId : ℤ
  newView : ℕ
  hasPreparedCertificate : Bool
  preparedView : ℕ
  preparedSequenceNumber : ℕ
  requestId : String
  requestDigest : String
  emergencyStop : Bool
  prepareSenders : List ℤ
deriving DecidableEq

structure NewView where
  senderId : ℤ
  newView : ℕ
  viewChangeMessages : List ViewChange
  hasSelectedRequest : Bool
  selectedFromPreparedCertificate : Bool
  selectedPreparedView : ℕ
  selectedSequenceNumber : ℕ
  requestId : String
  requestDigest : String
  emergencyStop : Bool
deriving DecidableEq

/-- A message on its topic. -/
inductive Message where
  | request (m : PBFTMessage)
  | prePrepare (m : PBFTMessage)
  | prepare (m : PBFTMessage)
  | commit (m : PBFTMessage)
  | viewChange (m : ViewChange)
  | newView (m : NewView)
deriving DecidableEq

/-- The sender id that a message names. -/
def Message.senderId : Message → ℤ
  | .request m | .prePrepare m | .prepare m | .commit m => m.senderId
  | .viewChange m => m.senderId
  | .newView m => m.senderId

/-- The ROS parameters of a replica that its runs depend on.  Without a target
the source has `-1`. -/
structure Parameters where
  currentView : ℕ
  manualViewChangeTarget : Option ℕ
  enableProgressTimeout : Bool

structure PBFTReplica where
  nodeId : ℤ
  parameters : Parameters
  currentView : ℕ
  primaryId : ℤ
  nextSequenceNumber : ℕ
  emergencyStop : Bool
  currentKey : Option MessageKey
  cachedClientRequests : Dict String PBFTInstance
  processedRequestIds : Finset String
  instances : Dict MessageKey PBFTInstance
  prepareSenders : Dict MessageKey (List ℤ)
  pendingPrepares : List PBFTMessage
  prepareSent : Finset MessageKey
  preparedInstances : List MessageKey
  commitSenders : Dict MessageKey (Finset ℤ)
  pendingCommits : List PBFTMessage
  commitSent : Finset MessageKey
  committedInstances : List MessageKey
  viewChangeMessages : List ViewChange
  viewChangeSent : Finset ℕ
  newViewSent : Finset ℕ
  recoveryPrePrepareSent : Finset MessageKey
  recoveryPrePrepareTimers : Finset MessageKey
  acceptedNewViewPayloads : List NewView
  /-- The manual timer is running. -/
  manualViewChangeTimer : Bool
  /-- The request and the view of the progress timer while it is running. -/
  progressTimeout : Option (String × ℕ)
  sent : List Message

namespace PBFTReplica

section Configuration

/-- `replica_count`, as `_validate_configuration` demands it. -/
def replicaCount (maxFaulty : ℕ) : ℕ := 3 * maxFaulty + 1

/-- `_primary_for_view`. -/
def primaryForView (maxFaulty view : ℕ) : ℤ := (view % replicaCount maxFaulty : ℕ)

def prepareThreshold (maxFaulty : ℕ) : ℕ := 2 * maxFaulty

def commitThreshold (maxFaulty : ℕ) : ℕ := 2 * maxFaulty + 1

def viewChangeThreshold (maxFaulty : ℕ) : ℕ := 2 * maxFaulty + 1

/-- `0 <= sender_id < replica_count`. -/
def validSender (maxFaulty : ℕ) (senderId : ℤ) : Bool :=
  decide (0 ≤ senderId ∧ senderId < replicaCount maxFaulty)

/-- The state after `__init__`. -/
def init (maxFaulty : ℕ) (nodeId : ℤ) (parameters : Parameters) : PBFTReplica where
  nodeId := nodeId
  parameters := parameters
  currentView := parameters.currentView
  primaryId := primaryForView maxFaulty parameters.currentView
  nextSequenceNumber := 1
  emergencyStop := false
  currentKey := none
  cachedClientRequests := Dict.empty
  processedRequestIds := ∅
  instances := Dict.empty
  prepareSenders := Dict.empty
  pendingPrepares := []
  prepareSent := ∅
  preparedInstances := []
  commitSenders := Dict.empty
  pendingCommits := []
  commitSent := ∅
  committedInstances := []
  viewChangeMessages := []
  viewChangeSent := ∅
  newViewSent := ∅
  recoveryPrePrepareSent := ∅
  recoveryPrePrepareTimers := ∅
  acceptedNewViewPayloads := []
  manualViewChangeTimer := parameters.manualViewChangeTarget.any (parameters.currentView < ·)
  progressTimeout := none
  sent := []

end Configuration

variable (maxFaulty : ℕ) (digestOf : String → Bool → String)

section Helpers

/-- `publish` on the topic of the message. -/
def publish (rs : PBFTReplica) (m : Message) : PBFTReplica := { rs with sent := rs.sent ++ [m] }

/-- A message of this replica to all about the request of a key. -/
def outgoing (rs : PBFTReplica) (messageType : ℕ) (key : MessageKey) (content : PBFTInstance) :
    PBFTMessage where
  messageType := messageType
  senderId := rs.nodeId
  recipientId := -1
  view := key.1
  sequenceNumber := key.2
  requestId := content.requestId
  requestDigest := content.requestDigest
  emergencyStop := content.emergencyStop

/-- `_arm_progress_timeout`. -/
def armProgressTimeout (rs : PBFTReplica) (requestId : String) : PBFTReplica :=
  if rs.parameters.enableProgressTimeout = false then rs
  else if requestId = "" then rs
  else { rs with progressTimeout := some (requestId, rs.currentView) }

/-- `_cancel_progress_timeout`. -/
def cancelProgressTimeout (rs : PBFTReplica) : PBFTReplica := { rs with progressTimeout := none }

/-- The digest of a request is the one of its id and its value. -/
def validDigest (content : PBFTInstance) : Bool :=
  decide (content.requestDigest = digestOf content.requestId content.emergencyStop)

end Helpers

section Requests

/-- `_process_cached_request_as_primary`. -/
def processCachedRequestAsPrimary (rs : PBFTReplica) (requestId : String) : PBFTReplica :=
  match rs.cachedClientRequests.get? requestId with
  | none => rs
  | some content =>
      let key := (rs.currentView, rs.nextSequenceNumber)
      let rs := { rs with
        nextSequenceNumber := rs.nextSequenceNumber + 1
        instances := rs.instances.set key content
        processedRequestIds := insert requestId rs.processedRequestIds
        currentKey := some key }
      let rs := rs.publish (.prePrepare (rs.outgoing PBFTMessage.prePrepare key content))
      rs.armProgressTimeout content.requestId

/-- The checks of `_validate_and_cache_client_request` before it looks into the
cache. -/
def validClientRequest (rs : PBFTReplica) (m : PBFTMessage) : Bool :=
  decide (m.messageType = PBFTMessage.request ∧ m.senderId = -1 ∧
    (m.recipientId = -1 ∨ m.recipientId = rs.primaryId) ∧ m.view = rs.currentView ∧
    m.sequenceNumber = 0 ∧ m.requestId ≠ "" ∧ validDigest digestOf m.content = true ∧
    m.emergencyStop = true)

/-- `_validate_and_cache_client_request`. -/
def validateAndCacheClientRequest (rs : PBFTReplica) (m : PBFTMessage) : Option PBFTReplica :=
  if rs.validClientRequest digestOf m = false then none
  else
    match rs.cachedClientRequests.get? m.requestId with
    | some existing => if existing ≠ m.content then none else some rs
    | none => some { rs with
        cachedClientRequests := rs.cachedClientRequests.set m.requestId m.content }

def requestCallback (rs : PBFTReplica) (m : PBFTMessage) : PBFTReplica :=
  let wasAlreadyCached := rs.cachedClientRequests.contains m.requestId
  match rs.validateAndCacheClientRequest digestOf m with
  | none => rs
  | some rs =>
      let rs := if wasAlreadyCached then rs else rs.armProgressTimeout m.requestId
      if rs.nodeId ≠ rs.primaryId then rs
      else if m.requestId ∈ rs.processedRequestIds then rs
      else rs.processCachedRequestAsPrimary m.requestId

end Requests

section Commits

/-- `_evaluate_committed`. -/
def evaluateCommitted (rs : PBFTReplica) (key : MessageKey) : PBFTReplica :=
  if key ∈ rs.committedInstances then rs
  else if key ∉ rs.preparedInstances then rs
  else if (rs.commitSenders.getD key ∅).card < commitThreshold maxFaulty then rs
  else
    match rs.instances.get? key with
    | none => rs
    | some content =>
        { rs with
          committedInstances := rs.committedInstances ++ [key]
          progressTimeout := none
          emergencyStop := content.emergencyStop
          currentKey := some key }

/-- `_buffer_early_commit`. -/
def bufferEarlyCommit (rs : PBFTReplica) (m : PBFTMessage) : PBFTReplica :=
  if rs.pendingCommits.any (fun p => p.key = m.key ∧ p.senderId = m.senderId) then rs
  else
    { rs with
      pendingCommits := rs.pendingCommits ++ [m]
      currentKey := if rs.instances.contains m.key then some m.key else rs.currentKey }

/-- `_accept_commit`. -/
def acceptCommit (rs : PBFTReplica) (m : PBFTMessage) : PBFTReplica :=
  match rs.instances.get? m.key with
  | none => rs
  | some content =>
      if m.content ≠ content then rs
      else if m.key ∉ rs.preparedInstances then rs.bufferEarlyCommit m
      else if m.senderId ∈ rs.commitSenders.getD m.key ∅ then rs
      else
        let rs := { rs with
          commitSenders := rs.commitSenders.set m.key
            (insert m.senderId (rs.commitSenders.getD m.key ∅))
          currentKey := some m.key }
        rs.evaluateCommitted maxFaulty m.key

/-- `_process_pending_commits`. -/
def processPendingCommits (rs : PBFTReplica) (key : MessageKey) : PBFTReplica :=
  if key ∉ rs.preparedInstances then rs
  else
    let pending := rs.pendingCommits.filter (·.key = key)
    let rs := { rs with pendingCommits := rs.pendingCommits.filter (·.key ≠ key) }
    pending.foldl (fun rs m => rs.acceptCommit maxFaulty m) rs

/-- `_send_commit`. -/
def sendCommit (rs : PBFTReplica) (key : MessageKey) : PBFTReplica :=
  if key ∈ rs.commitSent then rs
  else if key ∉ rs.preparedInstances then rs
  else
    match rs.instances.get? key with
    | none => rs
    | some content =>
        let commit := rs.outgoing PBFTMessage.commit key content
        let rs := { rs with commitSent := insert key rs.commitSent }
        (rs.acceptCommit maxFaulty commit).publish (.commit commit)

/-- The checks of `commit_callback`. -/
def validCommit (rs : PBFTReplica) (m : PBFTMessage) : Bool :=
  decide (m.messageType = PBFTMessage.commit ∧
    (m.recipientId = -1 ∨ m.recipientId = rs.nodeId) ∧ m.view = rs.currentView ∧
    m.sequenceNumber ≠ 0 ∧ validSender maxFaulty m.senderId = true ∧ m.requestId ≠ "" ∧
    validDigest digestOf m.content = true ∧ m.emergencyStop = true)

def commitCallback (rs : PBFTReplica) (m : PBFTMessage) : PBFTReplica :=
  if rs.validCommit maxFaulty digestOf m = false then rs
  else if rs.instances.contains m.key = false then rs.bufferEarlyCommit m
  else if m.key ∉ rs.preparedInstances then rs.bufferEarlyCommit m
  else rs.acceptCommit maxFaulty m

end Commits

section Prepares

/-- `_evaluate_prepared`. -/
def evaluatePrepared (rs : PBFTReplica) (key : MessageKey) : PBFTReplica :=
  if key ∈ rs.preparedInstances then rs
  else if (rs.prepareSenders.getD key []).length < prepareThreshold maxFaulty then rs
  else
    match rs.instances.get? key with
    | none => rs
    | some content =>
        let rs := { rs with
          preparedInstances := rs.preparedInstances ++ [key]
          currentKey := some key }
        let rs := rs.armProgressTimeout content.requestId
        (rs.processPendingCommits maxFaulty key).sendCommit maxFaulty key

/-- `_accept_prepare`. -/
def acceptPrepare (rs : PBFTReplica) (m : PBFTMessage) : PBFTReplica :=
  match rs.instances.get? m.key with
  | none => rs
  | some content =>
      if m.content ≠ content then rs
      else if m.senderId ∈ rs.prepareSenders.getD m.key [] then rs
      else
        let rs := { rs with
          prepareSenders := rs.prepareSenders.set m.key
            (rs.prepareSenders.getD m.key [] ++ [m.senderId])
          currentKey := some m.key }
        rs.evaluatePrepared maxFaulty m.key

/-- `_buffer_early_prepare`. -/
def bufferEarlyPrepare (rs : PBFTReplica) (m : PBFTMessage) : PBFTReplica :=
  if rs.pendingPrepares.any (fun p => p.key = m.key ∧ p.senderId = m.senderId) then rs
  else { rs with pendingPrepares := rs.pendingPrepares ++ [m] }

/-- `_process_pending_prepares`. -/
def processPendingPrepares (rs : PBFTReplica) (key : MessageKey) : PBFTReplica :=
  let pending := rs.pendingPrepares.filter (·.key = key)
  let rs := { rs with pendingPrepares := rs.pendingPrepares.filter (·.key ≠ key) }
  pending.foldl (fun rs m => rs.acceptPrepare maxFaulty m) rs

/-- `_send_prepare`. -/
def sendPrepare (rs : PBFTReplica) (key : MessageKey) : PBFTReplica :=
  if key ∈ rs.prepareSent then rs
  else
    match rs.instances.get? key with
    | none => rs
    | some content =>
        let prepare := rs.outgoing PBFTMessage.prepare key content
        let rs := { rs with prepareSent := insert key rs.prepareSent }
        (rs.acceptPrepare maxFaulty prepare).publish (.prepare prepare)

/-- The checks of `prepare_callback`. -/
def validPrepare (rs : PBFTReplica) (m : PBFTMessage) : Bool :=
  decide (m.messageType = PBFTMessage.prepare ∧
    (m.recipientId = -1 ∨ m.recipientId = rs.nodeId) ∧ m.view = rs.currentView ∧
    m.sequenceNumber ≠ 0 ∧ validSender maxFaulty m.senderId = true ∧
    m.senderId ≠ rs.primaryId ∧ validDigest digestOf m.content = true ∧ m.emergencyStop = true)

def prepareCallback (rs : PBFTReplica) (m : PBFTMessage) : PBFTReplica :=
  if rs.validPrepare maxFaulty digestOf m = false then rs
  else if rs.instances.contains m.key = false then rs.bufferEarlyPrepare m
  else rs.acceptPrepare maxFaulty m

/-- The checks of `pre_prepare_callback` before it looks at the instances. -/
def validPrePrepare (rs : PBFTReplica) (m : PBFTMessage) : Bool :=
  decide (m.messageType = PBFTMessage.prePrepare ∧ m.senderId = rs.primaryId ∧
    (m.recipientId = -1 ∨ m.recipientId = rs.nodeId) ∧ m.view = rs.currentView ∧
    m.sequenceNumber ≠ 0 ∧ m.requestId ≠ "" ∧ validDigest digestOf m.content = true ∧
    m.emergencyStop = true)

/-- The part of `pre_prepare_callback` that stores a new instance; `none` when
another one is stored. -/
def storeInstance (rs : PBFTReplica) (m : PBFTMessage) : Option PBFTReplica :=
  match rs.instances.get? m.key with
  | some existing => if existing ≠ m.content then none else some rs
  | none => some ({ rs with
      instances := rs.instances.set m.key m.content }.armProgressTimeout m.requestId)

def prePrepareCallback (rs : PBFTReplica) (m : PBFTMessage) : PBFTReplica :=
  if rs.validPrePrepare digestOf m = false then rs
  else
    match rs.storeInstance m with
    | none => rs
    | some rs =>
        let rs := { rs with currentKey := some m.key }
        let rs := rs.processPendingPrepares maxFaulty m.key
        if rs.nodeId ≠ rs.primaryId then rs.sendPrepare maxFaulty m.key else rs

end Prepares

end PBFTReplica

end RosPbft
end DistributedConsensus
