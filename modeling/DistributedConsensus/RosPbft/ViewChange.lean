import DistributedConsensus.RosPbft.Replica

/-!
# Emergency-stop PBFT: the view change

`view_change.py` and the callbacks of the timers: VIEW-CHANGE with its optional
PREPARED certificate, NEW-VIEW with the request that it carries over, and the
recovery PRE-PREPARE of the new primary.

A replica whose callback raises stops.  The model leaves its state as it is, so
that the stopped replica is one that takes no more steps.
-/

namespace DistributedConsensus
namespace RosPbft

open Foundations

/-- The request of a PREPARED certificate. -/
def ViewChange.content (m : ViewChange) : PBFTInstance :=
  ⟨m.requestId, m.requestDigest, m.emergencyStop⟩

/-- The request that a NEW-VIEW selects. -/
def NewView.content (m : NewView) : PBFTInstance :=
  ⟨m.requestId, m.requestDigest, m.emergencyStop⟩

/-- What `_select_request_for_new_view` returns. -/
structure Selection where
  content : PBFTInstance
  fromPreparedCertificate : Bool
  preparedView : ℕ
  sequenceNumber : ℕ
deriving DecidableEq

namespace PBFTReplica

variable (maxFaulty : ℕ) (digestOf : String → Bool → String)

section Certificates

/-- `_validate_view_change_certificate`. -/
def validateViewChangeCertificate (m : ViewChange) : Bool :=
  if m.hasPreparedCertificate = false then
    decide (m.preparedView = 0 ∧ m.preparedSequenceNumber = 0 ∧ m.requestId = "" ∧
      m.requestDigest = "" ∧ m.emergencyStop = false ∧ m.prepareSenders = [])
  else
    decide (m.preparedView < m.newView ∧ m.preparedSequenceNumber ≠ 0 ∧ m.requestId ≠ "" ∧
      m.emergencyStop = true ∧ validDigest digestOf m.content = true ∧ m.prepareSenders.Nodup ∧
      prepareThreshold maxFaulty ≤ m.prepareSenders.length ∧
      ∀ senderId ∈ m.prepareSenders, validSender maxFaulty senderId = true ∧
        senderId ≠ primaryForView maxFaulty m.preparedView)

/-- The key of the larger view, or of the larger sequence number in one view. -/
def newerKey (key key' : MessageKey) : MessageKey :=
  if key.1 < key'.1 ∨ key.1 = key'.1 ∧ key.2 < key'.2 then key' else key

/-- `max` of the keys. -/
def newestKey : List MessageKey → Option MessageKey
  | [] => none
  | key :: keys => some (keys.foldl newerKey key)

/-- `_select_prepared_instance_for_view_change`. -/
def selectPreparedInstanceForViewChange (rs : PBFTReplica) (newView : ℕ) :
    Option (MessageKey × PBFTInstance) :=
  let candidates := rs.preparedInstances.filter fun key =>
    rs.instances.contains key = true ∧ key ∉ rs.committedInstances ∧ key.1 < newView
  match newestKey candidates with
  | none => none
  | some key => (rs.instances.get? key).map fun content => (key, content)

/-- `sorted` of sender ids. -/
def sortedSenders (senders : List ℤ) : List ℤ := senders.insertionSort (· ≤ ·)

/-- `_build_view_change_message`; `none` where it raises. -/
def buildViewChangeMessage (rs : PBFTReplica) (newView : ℕ) : Option ViewChange :=
  if newView ≤ rs.currentView then none
  else
    match rs.selectPreparedInstanceForViewChange newView with
    | none => some ⟨rs.nodeId, newView, false, 0, 0, "", "", false, []⟩
    | some (key, content) =>
        let prepareSenders := sortedSenders (rs.prepareSenders.getD key [])
        if prepareSenders.length < prepareThreshold maxFaulty then none
        else some ⟨rs.nodeId, newView, true, key.1, key.2, content.requestId,
          content.requestDigest, content.emergencyStop, prepareSenders⟩

end Certificates

section Selection

/-- The part of `_select_request_for_new_view` for VIEW-CHANGE messages with a
PREPARED certificate: those of the highest prepared view name one request. -/
def selectPrepared (preparedMessages : List ViewChange) : Option Selection :=
  let highestPreparedView := (preparedMessages.map (·.preparedView)).foldr max 0
  let highestViewCertificates :=
    preparedMessages.filter (·.preparedView = highestPreparedView)
  let candidatePayloads :=
    (highestViewCertificates.map fun m => (m.preparedSequenceNumber, m.content)).dedup
  match candidatePayloads with
  | [(sequenceNumber, content)] => some ⟨content, true, highestPreparedView, sequenceNumber⟩
  | _ => none

/-- The cached requests that the replica has not committed. -/
def eligibleCachedRequests (rs : PBFTReplica) : List PBFTInstance :=
  let committedRequestIds :=
    rs.committedInstances.filterMap fun key => (rs.instances.get? key).map (·.requestId)
  (rs.cachedClientRequests.entries.filter (·.1 ∉ committedRequestIds)).map (·.2)

/-- `_select_request_for_new_view`. -/
def selectRequestForNewView (rs : PBFTReplica) (viewChangeMessages : List ViewChange) :
    Option Selection :=
  let preparedMessages := viewChangeMessages.filter (·.hasPreparedCertificate)
  if preparedMessages ≠ [] then selectPrepared preparedMessages
  else
    match rs.eligibleCachedRequests with
    | [content] => some ⟨content, false, 0, rs.nextSequenceNumber⟩
    | _ => none

/-- The checks of the VIEW-CHANGE messages of a NEW-VIEW, which its builder and
its receivers share. -/
def validProof (newView : ℕ) (viewChangeMessages : List ViewChange) : Bool :=
  decide ((viewChangeMessages.map (·.senderId)).Nodup ∧
    viewChangeThreshold maxFaulty ≤ viewChangeMessages.length ∧
    ∀ m ∈ viewChangeMessages, m.newView = newView ∧ validSender maxFaulty m.senderId = true ∧
      validateViewChangeCertificate maxFaulty digestOf m = true)

end Selection

section Building

/-- `_build_new_view_message`. -/
def buildNewViewMessage (rs : PBFTReplica) (newView : ℕ) (viewChangeMessages : List ViewChange) :
    Option NewView :=
  if rs.nodeId ≠ primaryForView maxFaulty newView then none
  else if newView ≤ rs.currentView then none
  else if validProof maxFaulty digestOf newView viewChangeMessages = false then none
  else
    match rs.selectRequestForNewView viewChangeMessages with
    | none => none
    | some selection => some {
        senderId := rs.nodeId
        newView := newView
        viewChangeMessages := viewChangeMessages
        hasSelectedRequest := true
        selectedFromPreparedCertificate := selection.fromPreparedCertificate
        selectedPreparedView := selection.preparedView
        selectedSequenceNumber := selection.sequenceNumber
        requestId := selection.content.requestId
        requestDigest := selection.content.requestDigest
        emergencyStop := selection.content.emergencyStop }

/-- The stored VIEW-CHANGE messages for a view, by their senders. -/
def messagesForView (rs : PBFTReplica) (newView : ℕ) : List ViewChange :=
  (rs.viewChangeMessages.filter (·.newView = newView)).insertionSort
    fun m m' => m.senderId ≤ m'.senderId

/-- `_maybe_publish_new_view`. -/
def maybePublishNewView (rs : PBFTReplica) (newView : ℕ) : PBFTReplica :=
  if newView ≤ rs.currentView then rs
  else if rs.nodeId ≠ primaryForView maxFaulty newView then rs
  else if newView ∈ rs.newViewSent then rs
  else if (rs.messagesForView newView).length < viewChangeThreshold maxFaulty then rs
  else
    match rs.buildNewViewMessage maxFaulty digestOf newView (rs.messagesForView newView) with
    | none => rs
    | some m => { rs with newViewSent := insert newView rs.newViewSent }.publish (.newView m)

def viewChangeCallback (rs : PBFTReplica) (m : ViewChange) : PBFTReplica :=
  if validSender maxFaulty m.senderId = false then rs
  else if m.newView ≤ rs.currentView then rs
  else if validateViewChangeCertificate maxFaulty digestOf m = false then rs
  else if rs.viewChangeMessages.any (fun p => p.newView = m.newView ∧ p.senderId = m.senderId) then
    rs
  else
    { rs with viewChangeMessages := rs.viewChangeMessages ++ [m] }.maybePublishNewView maxFaulty
      digestOf m.newView

/-- `_initiate_view_change`. -/
def initiateViewChange (rs : PBFTReplica) (newView : ℕ) : PBFTReplica :=
  if newView ≤ rs.currentView then rs
  else if newView ∈ rs.viewChangeSent then rs
  else
    match rs.buildViewChangeMessage maxFaulty newView with
    | none => rs
    | some m =>
        if validateViewChangeCertificate maxFaulty digestOf m = false then rs
        else
          let rs := { rs with viewChangeSent := insert newView rs.viewChangeSent }
          (rs.viewChangeCallback maxFaulty digestOf m).publish (.viewChange m)

end Building

section Activation

/-- `_validate_new_view_message`. -/
def validateNewViewMessage (rs : PBFTReplica) (m : NewView) : Option (PBFTInstance × ℕ) :=
  if m.newView ≤ rs.currentView then none
  else if m.senderId ≠ primaryForView maxFaulty m.newView then none
  else if validProof maxFaulty digestOf m.newView m.viewChangeMessages = false then none
  else if m.hasSelectedRequest = false then none
  else if m.requestId = "" then none
  else if m.selectedSequenceNumber = 0 then none
  else if m.emergencyStop = false then none
  else if validDigest digestOf m.content = false then none
  else
    match rs.selectRequestForNewView m.viewChangeMessages with
    | none => none
    | some expected =>
        if m.selectedFromPreparedCertificate ≠ expected.fromPreparedCertificate then none
        else if m.selectedPreparedView ≠ expected.preparedView then none
        else if m.content ≠ expected.content then none
        else if expected.fromPreparedCertificate = true ∧
            m.selectedSequenceNumber ≠ expected.sequenceNumber then none
        else if expected.fromPreparedCertificate = false ∧ m.selectedPreparedView ≠ 0 then none
        else some (m.content, m.selectedSequenceNumber)

/-- `_cancel_obsolete_protocol_activity`. -/
def cancelObsoleteProtocolActivity (rs : PBFTReplica) (newView : ℕ) : PBFTReplica :=
  { rs with
    recoveryPrePrepareTimers := rs.recoveryPrePrepareTimers.filter (newView ≤ ·.1)
    pendingPrepares := rs.pendingPrepares.filter (newView ≤ ·.key.1)
    pendingCommits := rs.pendingCommits.filter (newView ≤ ·.key.1)
    manualViewChangeTimer :=
      rs.manualViewChangeTimer && !rs.parameters.manualViewChangeTarget.any (· ≤ newView) }

/-- `_schedule_recovery_pre_prepare`. -/
def scheduleRecoveryPrePrepare (rs : PBFTReplica) (key : MessageKey) : PBFTReplica :=
  if key.1 ≠ rs.currentView then rs
  else if rs.nodeId ≠ rs.primaryId then rs
  else if key ∈ rs.recoveryPrePrepareSent then rs
  else if key ∈ rs.recoveryPrePrepareTimers then rs
  else if rs.instances.contains key = false then rs
  else { rs with recoveryPrePrepareTimers := insert key rs.recoveryPrePrepareTimers }

/-- `_publish_recovery_pre_prepare`. -/
def publishRecoveryPrePrepare (rs : PBFTReplica) (key : MessageKey) : PBFTReplica :=
  let rs := { rs with recoveryPrePrepareTimers := rs.recoveryPrePrepareTimers.erase key }
  if key ∈ rs.recoveryPrePrepareSent then rs
  else if key.1 ≠ rs.currentView then rs
  else if rs.nodeId ≠ rs.primaryId then rs
  else
    match rs.instances.get? key with
    | none => rs
    | some content =>
        let rs := { rs with
          recoveryPrePrepareSent := insert key rs.recoveryPrePrepareSent
          currentKey := some key }
        let rs := rs.publish (.prePrepare (rs.outgoing PBFTMessage.prePrepare key content))
        rs.armProgressTimeout content.requestId

/-- The part of `_activate_new_view` that installs the view. -/
def installView (rs : PBFTReplica) (newView : ℕ) (content : PBFTInstance) (sequenceNumber : ℕ) :
    PBFTReplica :=
  let rs := rs.cancelProgressTimeout.cancelObsoleteProtocolActivity newView
  { rs with
    cachedClientRequests := rs.cachedClientRequests.set content.requestId content
    instances := rs.instances.set (newView, sequenceNumber) content
    processedRequestIds := insert content.requestId rs.processedRequestIds
    currentView := newView
    primaryId := primaryForView maxFaulty newView
    currentKey := some (newView, sequenceNumber)
    nextSequenceNumber := max rs.nextSequenceNumber (sequenceNumber + 1) }

/-- `_activate_new_view`. -/
def activateNewView (rs : PBFTReplica) (newView : ℕ) (content : PBFTInstance)
    (sequenceNumber : ℕ) : PBFTReplica :=
  if (rs.instances.get? (newView, sequenceNumber)).any (· ≠ content) then rs
  else if (rs.cachedClientRequests.get? content.requestId).any (· ≠ content) then rs
  else
    let rs := rs.installView maxFaulty newView content sequenceNumber
    let rs := rs.armProgressTimeout content.requestId
    if rs.nodeId = rs.primaryId then rs.scheduleRecoveryPrePrepare (newView, sequenceNumber)
    else rs

def newViewCallback (rs : PBFTReplica) (m : NewView) : PBFTReplica :=
  if rs.acceptedNewViewPayloads.any (·.newView = m.newView) then rs
  else
    match rs.validateNewViewMessage maxFaulty digestOf m with
    | none => rs
    | some (content, sequenceNumber) =>
        let rs := { rs with acceptedNewViewPayloads := rs.acceptedNewViewPayloads ++ [m] }
        rs.activateNewView maxFaulty m.newView content sequenceNumber

end Activation

section Timers

/-- `_progress_timeout_callback`. -/
def progressTimeoutCallback (rs : PBFTReplica) : PBFTReplica :=
  match rs.progressTimeout with
  | none => rs
  | some (_, monitoredView) =>
      let rs := { rs with progressTimeout := none }
      if monitoredView ≠ rs.currentView then rs
      else if rs.currentKey.any (· ∈ rs.committedInstances) then rs
      else rs.initiateViewChange maxFaulty digestOf (rs.currentView + 1)

/-- `_manual_view_change_timer_callback`. -/
def manualViewChangeTimerCallback (rs : PBFTReplica) : PBFTReplica :=
  let rs := { rs with manualViewChangeTimer := false }
  match rs.parameters.manualViewChangeTarget with
  | none => rs
  | some target => rs.initiateViewChange maxFaulty digestOf target

end Timers

/-- The callback of the topic. -/
def receive (rs : PBFTReplica) : Message → PBFTReplica
  | .request m => rs.requestCallback digestOf m
  | .prePrepare m => rs.prePrepareCallback maxFaulty digestOf m
  | .prepare m => rs.prepareCallback maxFaulty digestOf m
  | .commit m => rs.commitCallback maxFaulty digestOf m
  | .viewChange m => rs.viewChangeCallback maxFaulty digestOf m
  | .newView m => rs.newViewCallback maxFaulty digestOf m

end PBFTReplica

end RosPbft
end DistributedConsensus
