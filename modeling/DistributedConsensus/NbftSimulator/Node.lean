import DistributedConsensus.Foundations.MapOrder
import DistributedConsensus.Foundations.Runs
import DistributedConsensus.NbftSimulator.Network
import Mathlib.Algebra.GroupWithZero.Nat

/-!
# NBFT simulator: one node

`Node.cpp`: the state of a node and the handling of one message.  A handler returns the
new state and the messages that the node sends, in their order.  The log, the worker
thread and its inbox are left out.
-/

namespace DistributedConsensus
namespace NbftSimulator

open Foundations

inductive NodePhase
  | idle
  | prePrepare1
  | inPrepare1
  | inPrepare2
  | outPrepare
  | commit
  | prePrepare2
  | decided
deriving DecidableEq

structure Node where
  id : ℤ
  groupId : ℤ
  primary : Bool
  representative : Bool
  faultMode : FaultMode
  phase : NodePhase
  view : ℤ
  sequenceNumber : ℤ
  proposedValue : String
  decidedValue : String
  localVotes : Dict String (Finset ℤ)
  localCertificateSent : Bool
  nodeDecisionSent : Bool
  normalGroupWeights : Dict ℤ ℕ
  abnormalNodesByGroup : Dict ℤ (Finset ℤ)
  commitSent : Bool
  finalBroadcastSent : Bool
  replySent : Bool

namespace Node

variable (net : Network)

/-- The node after `configureTopology`, `reset` and `setFaultMode`. -/
def init (id : ℤ) : Node where
  id := id
  groupId := net.groupOf id
  primary := decide (id = net.topology.primaryId)
  representative := decide (0 ≤ net.groupOf id ∧ net.representativeForGroup (net.groupOf id) = id)
  faultMode := net.faultMode id
  phase := .idle
  view := 0
  sequenceNumber := 1
  proposedValue := ""
  decidedValue := ""
  localVotes := Dict.empty
  localCertificateSent := false
  nodeDecisionSent := false
  normalGroupWeights := Dict.empty
  abnormalNodesByGroup := Dict.empty
  commitSent := false
  finalBroadcastSent := false
  replySent := false

/-- A message of the node about its view. -/
def outgoing (node : Node) (type : MessageType) : Message where
  type := type
  sender := node.id
  view := node.view
  sequenceNumber := node.sequenceNumber

def handleClientRequest (node : Node) (message : Message) : Node × List Message :=
  if node.primary = false ∨ node.faultMode = .silent then (node, [])
  else
    let node := { node with
      view := message.view
      sequenceNumber := message.sequenceNumber
      proposedValue := message.value
      phase := .prePrepare1 }
    (node, net.broadcastToReplicas
      { node.outgoing .prePrepare1 with value := node.proposedValue })

/-- The vote of a node for its representative. -/
def vote (node : Node) : Message := { node.outgoing .inPrepare1 with
  recipient := net.representativeForGroup node.groupId
  groupId := node.groupId
  value := if node.faultMode = .wrongValue then node.proposedValue ++ "_WRONG"
    else node.proposedValue
  signatures := {node.id} }

def handlePrePrepare1 (node : Node) (message : Message) : Node × List Message :=
  if node.primary = true ∨ node.faultMode = .silent ∨
      message.sender ≠ net.topology.primaryId then (node, [])
  else
    let node := { node with
      view := message.view
      sequenceNumber := message.sequenceNumber
      proposedValue := message.value
      phase := .inPrepare1 }
    (node, [node.vote net])

/-- Erase the lowest signatures as long as a quorum is left, at most `fuel` times. -/
def eraseLowest (quorum : ℕ) : ℕ → Finset ℤ → Finset ℤ
  | 0, signatures => signatures
  | fuel + 1, signatures =>
      if quorum ≤ signatures.card then
        eraseLowest quorum fuel (signatures.filter fun a => ∃ b ∈ signatures, b < a)
      else signatures

def sendNormalOutPrepare (node : Node) (localCertificate : Message) : Node × List Message :=
  let signatureCount := localCertificate.signatures.card
  ({ node with phase := .outPrepare }, net.broadcastToRepresentatives
    { type := .outPrepare
      sender := node.id
      view := localCertificate.view
      sequenceNumber := localCertificate.sequenceNumber
      groupId := node.groupId
      value := localCertificate.value
      signatures := localCertificate.signatures
      voteWeight := if net.groupSize - net.E ≤ signatureCount then net.groupSize
        else signatureCount })

/-- The local certificate of the voters for the value of the message. -/
def localCertificate (node : Node) (message : Message) (voters : Finset ℤ) : Message where
  type := .inPrepare2
  sender := node.id
  view := message.view
  sequenceNumber := message.sequenceNumber
  groupId := node.groupId
  value := message.value
  signatures := if node.faultMode = .lowSignatures
    then eraseLowest net.localQuorum voters.card voters else voters

/-- The part of `handleInPrepare1` after the voters of the value have reached the quorum. -/
def sendLocalCertificate (node : Node) (message : Message) (voters : Finset ℤ) :
    Node × List Message :=
  let node := { node with localCertificateSent := true, phase := .inPrepare2 }
  let certificate := node.localCertificate net message voters
  let sent := net.broadcastToGroup certificate node.groupId node.id
  if net.localQuorum ≤ certificate.signatures.card then
    let out := node.sendNormalOutPrepare net certificate
    (out.1, sent ++ out.2)
  else (node, sent)

/-- The check of a vote for the group of the representative. -/
def validVote (node : Node) (message : Message) : Prop :=
  message.groupId = node.groupId ∧
    net.nodeBelongsToGroup message.sender node.groupId = true ∧
    message.signatures.card = 1 ∧ message.sender ∈ message.signatures

instance (node : Node) (message : Message) : Decidable (validVote net node message) :=
  inferInstanceAs (Decidable (_ ∧ _))

/-- The part of `handleInPrepare1` that adopts the value of the first vote and stores the
voter. -/
def collectVote (node : Node) (message : Message) : Node :=
  let node := if node.proposedValue = "" then { node with
      proposedValue := message.value
      view := message.view
      sequenceNumber := message.sequenceNumber }
    else node
  { node with
    localVotes := node.localVotes.set message.value
      (insert message.sender (node.localVotes.getD message.value ∅)) }

def handleInPrepare1 (node : Node) (message : Message) : Node × List Message :=
  if node.representative = false ∨ node.faultMode = .silent ∨ ¬node.validVote net message then
    (node, [])
  else
    let node := node.collectVote message
    let voters := node.localVotes.getD message.value ∅
    if node.localCertificateSent = true ∨ voters.card < net.localQuorum then (node, [])
    else node.sendLocalCertificate net message voters

/-- The OUT_PREPARE of a node for itself. -/
def decision (node : Node) : Message := { node.outgoing .outPrepare with
  groupId := node.groupId
  value := node.proposedValue
  signatures := {node.id}
  voteWeight := 1
  nodeDecision := true }

def sendNodeDecision (node : Node) : Node × List Message :=
  if node.nodeDecisionSent = true then (node, [])
  else
    let node := { node with nodeDecisionSent := true, phase := .outPrepare }
    (node, net.broadcastToOtherRepresentatives node.decision node.groupId)

def handleInPrepare2 (node : Node) (message : Message) : Node × List Message :=
  if node.faultMode ≠ .honest ∨
      message.sender ≠ net.representativeForGroup node.groupId ∨
      message.groupId ≠ node.groupId then (node, [])
  else
    let node := { node with phase := .inPrepare2 }
    if message.value ≠ node.proposedValue ∨ message.signatures.card < net.localQuorum ∨
        ¬net.validGroupSignatures message.signatures node.groupId then
      node.sendNodeDecision net
    else (node, [])

/-- `totalWeight` of `trySendCommit`. -/
def totalWeight (node : Node) : ℕ :=
  node.normalGroupWeights.values.sum +
    ((node.abnormalNodesByGroup.entries.filter fun entry =>
      node.normalGroupWeights.contains entry.1 = false).map fun entry => entry.2.card).sum

/-- The COMMIT of a representative. -/
def commitMessage (node : Node) : Message := { node.outgoing .commit with
  recipient := net.topology.primaryId
  groupId := node.groupId
  value := node.proposedValue
  signatures := {node.id}
  voteWeight := node.totalWeight }

def trySendCommit (node : Node) : Node × List Message :=
  if node.commitSent = true then (node, [])
  else if node.totalWeight < net.globalThreshold then (node, [])
  else ({ node with commitSent := true, phase := .commit }, [node.commitMessage net])

/-- The check of a node decision. -/
def validNodeDecision (message : Message) : Prop :=
  message.signatures.card = 1 ∧ message.sender ∈ message.signatures ∧
    net.nodeBelongsToGroup message.sender message.groupId = true ∧
    message.sender ≠ net.representativeForGroup message.groupId

instance (message : Message) : Decidable (validNodeDecision net message) :=
  inferInstanceAs (Decidable (_ ∧ _))

/-- The check of a representative's certificate. -/
def validCertificate (message : Message) : Prop :=
  message.sender = net.representativeForGroup message.groupId ∧
    net.localQuorum ≤ message.signatures.card ∧
    net.validGroupSignatures message.signatures message.groupId

instance (message : Message) : Decidable (validCertificate net message) :=
  inferInstanceAs (Decidable (_ ∧ _))

/-- The part of `handleOutPrepare` before `trySendCommit`; `none` when the message is not
counted. -/
def countOutPrepare (node : Node) (message : Message) : Option Node :=
  if message.nodeDecision = true then
    if ¬validNodeDecision net message then none
    else if node.normalGroupWeights.contains message.groupId = false then some { node with
      abnormalNodesByGroup := node.abnormalNodesByGroup.set message.groupId
        (insert message.sender (node.abnormalNodesByGroup.getD message.groupId ∅)) }
    else some node
  else
    if ¬validCertificate net message then none
    else
      let F := message.signatures.card
      some { node with
        normalGroupWeights := node.normalGroupWeights.set message.groupId
          (if net.groupSize - net.E ≤ F then net.groupSize else F)
        abnormalNodesByGroup := node.abnormalNodesByGroup.erase message.groupId }

def handleOutPrepare (node : Node) (message : Message) : Node × List Message :=
  if node.representative = false ∨ node.faultMode ≠ .honest then (node, [])
  else
    let node := { node with phase := .outPrepare }
    match node.countOutPrepare net message with
    | none => (node, [])
    | some node => node.trySendCommit net

def decideAndReply (node : Node) (value : String) : Node × List Message :=
  if node.replySent = true then (node, [])
  else
    let node := { node with replySent := true, phase := .decided, decidedValue := value }
    (node, [{ node.outgoing .reply with
      recipient := clientId
      value := value
      signatures := {node.id} }])

def handleCommit (node : Node) (message : Message) : Node × List Message :=
  if node.primary = false ∨ node.faultMode ≠ .honest ∨ node.finalBroadcastSent = true ∨
      net.isRepresentative message.sender = false ∨ message.value ≠ node.proposedValue ∨
      message.voteWeight < net.globalThreshold then (node, [])
  else
    let node := { node with finalBroadcastSent := true, phase := .prePrepare2 }
    let sent := net.broadcastToReplicas { node.outgoing .prePrepare2 with
      value := node.proposedValue
      voteWeight := message.voteWeight }
    let out := node.decideAndReply node.proposedValue
    (out.1, sent ++ out.2)

def handlePrePrepare2 (node : Node) (message : Message) : Node × List Message :=
  if node.faultMode ≠ .honest ∨ message.sender ≠ net.topology.primaryId ∨
      message.voteWeight < net.globalThreshold ∨
      (node.proposedValue ≠ "" ∧ message.value ≠ node.proposedValue) then (node, [])
  else
    let node := { node with phase := .prePrepare2 }
    let node := if node.proposedValue = "" then { node with proposedValue := message.value }
      else node
    node.decideAndReply message.value

/-- A decided node ignores late messages. -/
def handle (node : Node) (message : Message) : Node × List Message :=
  if node.phase = .decided then (node, [])
  else
    match message.type with
    | .clientRequest => node.handleClientRequest net message
    | .prePrepare1 => node.handlePrePrepare1 net message
    | .inPrepare1 => node.handleInPrepare1 net message
    | .inPrepare2 => node.handleInPrepare2 net message
    | .outPrepare => node.handleOutPrepare net message
    | .commit => node.handleCommit net message
    | .prePrepare2 => node.handlePrePrepare2 net message
    | .reply => (node, [])

end Node

/-- The nodes, the messages in their inboxes and the messages that they have taken out
of them, in this order. -/
structure Cluster where
  nodes : ℤ → Node
  inboxes : List Message
  handled : List Message

namespace Cluster

variable (net : Network)

/-- A message to a node goes into its inbox; what the client receives is left out. -/
def deliverable (message : Message) : Bool :=
  decide (0 ≤ message.recipient ∧ message.recipient < net.numberOfNodes)

/-- The request of the client for a value. -/
def clientRequest (value : String) : Message where
  type := .clientRequest
  recipient := net.topology.primaryId
  value := value

/-- Handle the message at a place of the inboxes. -/
def step (c : Cluster) (k : ℕ) : Option Cluster :=
  match c.inboxes[k]? with
  | none => none
  | some message =>
      let out := (c.nodes message.recipient).handle net message
      some {
        nodes := Function.update c.nodes message.recipient out.1
        inboxes := c.inboxes.eraseIdx k ++ out.2.filter (deliverable net)
        handled := c.handled ++ [message] }

/-- One round of consensus: the messages are handled in any order. -/
def round (value : String) : System Cluster ℕ where
  init := ⟨Node.init net, [clientRequest net value], []⟩
  step := step net

end Cluster

end NbftSimulator
end DistributedConsensus
