import DistributedConsensus.NbftSimulator.Node

/-!
# NBFT simulator: what handling a message does

`Handles` lists the outcomes of handling one message, with the conditions under which the
source takes each of them.
-/

namespace DistributedConsensus
namespace NbftSimulator

open Foundations

namespace Node

/-- The outcomes of handling a message: the new state and the messages sent. -/
inductive Handles (net : Network) (node : Node) (message : Message) : Node → List Message → Prop
  | ignore {phase : NodePhase} : (phase = .decided → node.phase = .decided) →
      Handles net node message { node with phase := phase } []
  | propose {node' : Node} : message.type = .clientRequest → node.primary = true →
      node' = { node with
        view := message.view
        sequenceNumber := message.sequenceNumber
        proposedValue := message.value
        phase := .prePrepare1 } →
      Handles net node message node' (net.broadcastToReplicas
        { node'.outgoing .prePrepare1 with value := message.value })
  | vote {node' : Node} : message.type = .prePrepare1 → node.primary = false →
      message.sender = net.topology.primaryId →
      node' = { node with
        view := message.view
        sequenceNumber := message.sequenceNumber
        proposedValue := message.value
        phase := .inPrepare1 } →
      Handles net node message node' [node'.vote net]
  | collect : message.type = .inPrepare1 → node.representative = true →
      node.validVote net message →
      (node.localCertificateSent = true ∨
        ((node.collectVote message).localVotes.getD message.value ∅).card < net.localQuorum) →
      Handles net node message (node.collectVote message) []
  | certify {out : Node × List Message} : message.type = .inPrepare1 →
      node.representative = true → node.validVote net message →
      net.localQuorum ≤ ((node.collectVote message).localVotes.getD message.value ∅).card →
      out = (node.collectVote message).sendLocalCertificate net message
        ((node.collectVote message).localVotes.getD message.value ∅) →
      Handles net node message out.1 out.2
  | decideAlone {node' : Node} : message.type = .inPrepare2 → node.faultMode = .honest →
      node' = { node with nodeDecisionSent := true, phase := .outPrepare } →
      Handles net node message node'
        (net.broadcastToOtherRepresentatives node'.decision node.groupId)
  | count {node' : Node} : message.type = .outPrepare → node.representative = true →
      node.faultMode = .honest →
      ({ node with phase := .outPrepare } : Node).countOutPrepare net message = some node' →
      (node'.commitSent = true ∨ node'.totalWeight < net.globalThreshold) →
      Handles net node message node' []
  | commit {node' : Node} : message.type = .outPrepare → node.representative = true →
      node.faultMode = .honest →
      ({ node with phase := .outPrepare } : Node).countOutPrepare net message = some node' →
      node'.commitSent = false → net.globalThreshold ≤ node'.totalWeight →
      Handles net node message { node' with commitSent := true, phase := .commit }
        [node'.commitMessage net]
  | finish {out : Node × List Message} : message.type = .commit → node.primary = true →
      node.faultMode = .honest → message.value = node.proposedValue →
      net.globalThreshold ≤ message.voteWeight →
      out = ({ node with finalBroadcastSent := true, phase := .prePrepare2 } :
        Node).decideAndReply node.proposedValue →
      Handles net node message out.1 (net.broadcastToReplicas
        { node.outgoing .prePrepare2 with
          value := node.proposedValue
          voteWeight := message.voteWeight } ++ out.2)
  | accept {node' : Node} {out : Node × List Message} : message.type = .prePrepare2 →
      node.faultMode = .honest → message.sender = net.topology.primaryId →
      net.globalThreshold ≤ message.voteWeight →
      (node.proposedValue = "" ∨ message.value = node.proposedValue) →
      node' = { node with phase := .prePrepare2, proposedValue := message.value } →
      out = node'.decideAndReply message.value →
      Handles net node message out.1 out.2

variable {net : Network} {node : Node} {message : Message}

/-- Nothing happens. -/
theorem Handles.refl : Handles net node message node [] :=
  @Handles.ignore net node message node.phase fun h => h

theorem handles_handleClientRequest
    (htype : message.type = .clientRequest) :
    Handles net node message (node.handleClientRequest net message).1
      (node.handleClientRequest net message).2 := by
  unfold handleClientRequest
  split
  case isTrue => exact Handles.refl
  case isFalse h =>
    rw [not_or, Bool.not_eq_false] at h
    exact Handles.propose htype h.1 rfl

theorem handles_handlePrePrepare1
    (htype : message.type = .prePrepare1) :
    Handles net node message (node.handlePrePrepare1 net message).1
      (node.handlePrePrepare1 net message).2 := by
  unfold handlePrePrepare1
  split
  case isTrue => exact Handles.refl
  case isFalse h =>
    rw [not_or, not_or, Bool.not_eq_true, not_not] at h
    exact Handles.vote htype h.1 h.2.2 rfl

theorem handles_handleInPrepare1
    (htype : message.type = .inPrepare1) :
    Handles net node message (node.handleInPrepare1 net message).1
      (node.handleInPrepare1 net message).2 := by
  unfold handleInPrepare1
  split
  case isTrue => exact Handles.refl
  case isFalse h =>
    rw [not_or, not_or, Bool.not_eq_false, not_not] at h
    dsimp only
    split
    case isTrue hfew =>
      refine Handles.collect htype h.1 h.2.2 (hfew.imp_left fun hsent => ?_)
      unfold collectVote at hsent
      dsimp only at hsent
      split at hsent <;> exact hsent
    case isFalse hmany =>
      exact Handles.certify htype h.1 h.2.2 (not_lt.mp (not_or.mp hmany).2) rfl

theorem handles_handleInPrepare2
    (htype : message.type = .inPrepare2) :
    Handles net node message (node.handleInPrepare2 net message).1
      (node.handleInPrepare2 net message).2 := by
  unfold handleInPrepare2
  split
  case isTrue => exact Handles.refl
  case isFalse h =>
    rw [not_or, not_not] at h
    dsimp only
    split
    case isTrue =>
      unfold sendNodeDecision
      split
      case isTrue => exact Handles.ignore nofun
      case isFalse => exact Handles.decideAlone htype h.1 rfl
    case isFalse => exact Handles.ignore nofun

theorem handles_handleOutPrepare
    (htype : message.type = .outPrepare) :
    Handles net node message (node.handleOutPrepare net message).1
      (node.handleOutPrepare net message).2 := by
  unfold handleOutPrepare
  split
  case isTrue => exact Handles.refl
  case isFalse h =>
    rw [not_or, Bool.not_eq_false, not_not] at h
    dsimp only
    split
    case h_1 => exact Handles.ignore nofun
    case h_2 node' hcount =>
      unfold trySendCommit
      split
      case isTrue hsent => exact Handles.count htype h.1 h.2 hcount (Or.inl hsent)
      case isFalse hsent =>
        split
        case isTrue hfew => exact Handles.count htype h.1 h.2 hcount (Or.inr hfew)
        case isFalse hmany =>
          exact Handles.commit htype h.1 h.2 hcount (Bool.eq_false_of_not_eq_true hsent)
            (not_lt.mp hmany)

theorem handles_handleCommit
    (htype : message.type = .commit) :
    Handles net node message (node.handleCommit net message).1
      (node.handleCommit net message).2 := by
  unfold handleCommit
  split
  case isTrue => exact Handles.refl
  case isFalse h =>
    simp only [not_or, Bool.not_eq_false, not_not, not_lt] at h
    exact Handles.finish htype h.1 h.2.1 h.2.2.2.2.1 h.2.2.2.2.2 rfl

theorem handles_handlePrePrepare2
    (htype : message.type = .prePrepare2) :
    Handles net node message (node.handlePrePrepare2 net message).1
      (node.handlePrePrepare2 net message).2 := by
  unfold handlePrePrepare2
  split
  case isTrue => exact Handles.refl
  case isFalse h =>
    simp only [not_or, not_and, not_not, not_lt] at h
    obtain ⟨hhonest, hsender, hweight, hvalue⟩ := h
    dsimp only
    split
    case isTrue hempty =>
      exact Handles.accept htype hhonest hsender hweight (Or.inl hempty) rfl rfl
    case isFalse hset =>
      refine Handles.accept htype hhonest hsender hweight (Or.inr (hvalue hset)) ?_ rfl
      rw [hvalue hset]

/-- Every outcome is one of the list. -/
theorem handles_handle :
    Handles net node message (node.handle net message).1 (node.handle net message).2 := by
  unfold handle
  split
  case isTrue => exact Handles.refl
  case isFalse =>
    split
    case h_1 htype => exact handles_handleClientRequest htype
    case h_2 htype => exact handles_handlePrePrepare1 htype
    case h_3 htype => exact handles_handleInPrepare1 htype
    case h_4 htype => exact handles_handleInPrepare2 htype
    case h_5 htype => exact handles_handleOutPrepare htype
    case h_6 htype => exact handles_handleCommit htype
    case h_7 htype => exact handles_handlePrePrepare2 htype
    case h_8 => exact Handles.refl

section Counting

/-- Only the counted weights change. -/
theorem countOutPrepare_eq
    {node' : Node}
    (h : node.countOutPrepare net message = some node') :
    node' = { node with
      normalGroupWeights := node'.normalGroupWeights
      abnormalNodesByGroup := node'.abnormalNodesByGroup } := by
  unfold countOutPrepare at h
  repeat' split at h
  all_goals cases h
  all_goals rfl

/-- The check of the OUT_PREPARE. -/
def acceptable (net : Network) (message : Message) : Prop :=
  if message.nodeDecision = true then validNodeDecision net message
  else validCertificate net message

instance (net : Network) (message : Message) : Decidable (acceptable net message) :=
  inferInstanceAs (Decidable (if message.nodeDecision = true then validNodeDecision net message
    else validCertificate net message))

theorem acceptable_of_count
    {node' : Node}
    (h : node.countOutPrepare net message = some node') :
    acceptable net message := by
  unfold countOutPrepare at h
  unfold acceptable
  split at h
  case isTrue hdecision =>
    rw [if_pos hdecision]
    split at h
    case isTrue => cases h
    case isFalse hvalid => exact not_not.mp hvalid
  case isFalse hdecision =>
    rw [if_neg hdecision]
    split at h
    case isTrue => cases h
    case isFalse hvalid => exact not_not.mp hvalid

end Counting

section Roles

/-- The role of a node is fixed. -/
structure SameRole (node node' : Node) : Prop where
  id : node'.id = node.id
  groupId : node'.groupId = node.groupId
  primary : node'.primary = node.primary
  representative : node'.representative = node.representative
  faultMode : node'.faultMode = node.faultMode

/-- A node decides with its reply. -/
theorem decideAndReply_eq (node : Node) (value : String) :
    (node.decideAndReply value).1 = { node with
      replySent := true
      phase := if node.replySent = true then node.phase else .decided
      decidedValue := if node.replySent = true then node.decidedValue else value } := by
  unfold decideAndReply
  split
  case isTrue hreply => rw [← hreply]
  case isFalse => rfl

theorem decideAndReply_sameRole (node : Node) (value : String) :
    SameRole node (node.decideAndReply value).1 := by
  rw [decideAndReply_eq]
  exact ⟨rfl, rfl, rfl, rfl, rfl⟩

theorem collectVote_sameRole (node : Node) (message : Message) :
    SameRole node (node.collectVote message) := by
  unfold collectVote
  dsimp only
  split <;> exact ⟨rfl, rfl, rfl, rfl, rfl⟩

/-- Sending the certificate changes the flag and the phase only. -/
theorem sendLocalCertificate_fst (node : Node) (message : Message) (voters : Finset ℤ) :
    ∃ phase, phase ≠ .decided ∧ (node.sendLocalCertificate net message voters).1
      = { node with localCertificateSent := true, phase := phase } := by
  unfold sendLocalCertificate
  dsimp only
  split
  · exact ⟨.outPrepare, nofun, rfl⟩
  · exact ⟨.inPrepare2, nofun, rfl⟩

theorem sendLocalCertificate_sameRole (node : Node) (message : Message) (voters : Finset ℤ) :
    SameRole node (node.sendLocalCertificate net message voters).1 := by
  obtain ⟨phase, -, heq⟩ := @sendLocalCertificate_fst net node message voters
  rw [heq]
  exact ⟨rfl, rfl, rfl, rfl, rfl⟩

theorem SameRole.trans {node' node'' : Node}
    (h : SameRole node node')
    (h' : SameRole node' node'') :
    SameRole node node'' :=
  ⟨h'.id.trans h.id, h'.groupId.trans h.groupId, h'.primary.trans h.primary,
    h'.representative.trans h.representative, h'.faultMode.trans h.faultMode⟩

theorem countOutPrepare_sameRole
    {node' : Node}
    (h : node.countOutPrepare net message = some node') :
    SameRole node node' := by
  rw [countOutPrepare_eq h]
  exact ⟨rfl, rfl, rfl, rfl, rfl⟩

theorem Handles.sameRole
    {node' : Node} {sent : List Message}
    (h : Handles net node message node' sent) :
    SameRole node node' := by
  cases h with
  | ignore => exact ⟨rfl, rfl, rfl, rfl, rfl⟩
  | propose _ _ heq | vote _ _ _ heq | decideAlone _ _ heq =>
      rw [heq]
      exact ⟨rfl, rfl, rfl, rfl, rfl⟩
  | collect => exact collectVote_sameRole node message
  | certify _ _ _ _ heq =>
      rw [heq]
      exact (collectVote_sameRole node message).trans (sendLocalCertificate_sameRole _ _ _)
  | count _ _ _ hcount | commit _ _ _ hcount =>
      obtain ⟨hid, hgroup, hprimary, hrep, hmode⟩ := countOutPrepare_sameRole hcount
      exact ⟨hid, hgroup, hprimary, hrep, hmode⟩
  | finish _ _ _ _ _ heq =>
      rw [heq]
      obtain ⟨hid, hgroup, hprimary, hrep, hmode⟩ := decideAndReply_sameRole { node with
        finalBroadcastSent := true
        phase := .prePrepare2 } node.proposedValue
      exact ⟨hid, hgroup, hprimary, hrep, hmode⟩
  | accept _ _ _ _ _ heq hout =>
      rw [hout, heq]
      obtain ⟨hid, hgroup, hprimary, hrep, hmode⟩ := decideAndReply_sameRole { node with
        phase := .prePrepare2
        proposedValue := message.value } message.value
      exact ⟨hid, hgroup, hprimary, hrep, hmode⟩

end Roles

section Sent

/-- A broadcast changes the recipient only. -/
theorem exists_of_mem_broadcastToReplicas
    {m x : Message}
    (h : x ∈ net.broadcastToReplicas m) :
    ∃ i, x = { m with recipient := i } := by
  obtain ⟨i, -, rfl⟩ := List.mem_map.mp h
  exact ⟨i, rfl⟩

theorem exists_of_mem_broadcastToGroup
    {m x : Message} {groupId excludedNode : ℤ}
    (h : x ∈ net.broadcastToGroup m groupId excludedNode) :
    ∃ i, x = { m with recipient := i } := by
  obtain ⟨i, -, rfl⟩ := List.mem_map.mp h
  exact ⟨i, rfl⟩

theorem exists_of_mem_broadcastToRepresentatives
    {m x : Message}
    (h : x ∈ net.broadcastToRepresentatives m) :
    ∃ i, x = { m with recipient := i } := by
  obtain ⟨group, -, rfl⟩ := List.mem_map.mp h
  exact ⟨group.representativeId, rfl⟩

theorem exists_of_mem_broadcastToOtherRepresentatives
    {m x : Message} {excludedGroup : ℤ}
    (h : x ∈ net.broadcastToOtherRepresentatives m excludedGroup) :
    ∃ i, x = { m with recipient := i } := by
  obtain ⟨group, -, rfl⟩ := List.mem_map.mp h
  exact ⟨group.representativeId, rfl⟩

/-- A node that has not replied decides. -/
theorem decideAndReply_fst
    {value : String}
    (h : node.replySent = false) :
    (node.decideAndReply value).1 = { node with
      replySent := true
      phase := .decided
      decidedValue := value } := by
  rw [decideAndReply_eq, h]
  rfl

theorem mem_decideAndReply
    {value : String} {x : Message}
    (h : x ∈ (node.decideAndReply value).2) :
    x.type = .reply := by
  unfold decideAndReply at h
  split at h
  · cases h
  · rw [List.mem_singleton.mp h]
    rfl

/-- A local certificate goes to the group, and with a quorum also to the representatives. -/
theorem mem_sendLocalCertificate
    {voters : Finset ℤ} {x : Message}
    (h : x ∈ (node.sendLocalCertificate net message voters).2) :
    x.type = .inPrepare2 ∨ x.type = .outPrepare := by
  unfold sendLocalCertificate at h
  dsimp only at h
  split at h
  · rcases List.mem_append.mp h with h | h
    · obtain ⟨i, rfl⟩ := exists_of_mem_broadcastToGroup h
      exact Or.inl rfl
    · obtain ⟨i, rfl⟩ := exists_of_mem_broadcastToRepresentatives h
      exact Or.inr rfl
  · obtain ⟨i, rfl⟩ := exists_of_mem_broadcastToGroup h
    exact Or.inl rfl

end Sent

end Node

end NbftSimulator
end DistributedConsensus
