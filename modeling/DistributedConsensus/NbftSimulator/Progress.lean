import DistributedConsensus.NbftSimulator.Steps

/-!
# NBFT simulator: how a node makes progress

What an honest node must do with a message of each phase, and what no message undoes: the
votes that a representative has collected, the weights of the groups that it has counted,
and the certificate and the COMMIT that it has sent.
-/

namespace DistributedConsensus
namespace NbftSimulator

open Foundations

namespace Node

variable {net : Network} {node node' : Node} {message : Message} {sent : List Message}

section Must

/-- The request makes the primary propose its value. -/
theorem handle_clientRequest
    (hphase : node.phase ≠ .decided)
    (hprimary : node.primary = true)
    (hhonest : node.faultMode = .honest)
    (htype : message.type = .clientRequest) :
    node.handle net message = ({ node with
      view := message.view
      sequenceNumber := message.sequenceNumber
      proposedValue := message.value
      phase := .prePrepare1 }, net.broadcastToReplicas {
        type := .prePrepare1
        sender := node.id
        view := message.view
        sequenceNumber := message.sequenceNumber
        value := message.value }) := by
  have hopen : ¬(node.primary = false ∨ node.faultMode = .silent) := by
    rw [hprimary, hhonest]
    simp
  rw [handle, if_neg hphase, htype]
  simp only [handleClientRequest]
  rw [if_neg hopen]
  rfl

/-- A PRE_PREPARE1 of the primary is answered by a vote. -/
theorem exists_vote
    (hphase : node.phase ≠ .decided)
    (hprimary : node.primary = false)
    (hhonest : node.faultMode = .honest)
    (htype : message.type = .prePrepare1)
    (hsender : message.sender = net.topology.primaryId) :
    ∃ x ∈ (node.handle net message).2, x.type = .inPrepare1 ∧ x.sender = node.id ∧
      x.recipient = net.representativeForGroup node.groupId ∧ x.groupId = node.groupId ∧
      x.value = message.value ∧ x.signatures = {node.id} := by
  have hopen : ¬(node.primary = true ∨ node.faultMode = .silent ∨
      message.sender ≠ net.topology.primaryId) := by
    rw [hprimary, hhonest, hsender]
    simp
  rw [handle, if_neg hphase, htype]
  simp only [handlePrePrepare1]
  rw [if_neg hopen]
  refine ⟨_, List.mem_singleton.mpr rfl, rfl, rfl, rfl, rfl, ?_, rfl⟩
  simp only [vote]
  rw [if_neg (by rw [hhonest]; exact nofun)]

theorem collectVote_localVotes (node : Node) (message : Message) :
    (node.collectVote message).localVotes = node.localVotes.set message.value
      (insert message.sender (node.localVotes.getD message.value ∅)) := by
  unfold collectVote
  dsimp only
  split <;> rfl

/-- Collecting a vote changes the votes and the value that is proposed. -/
theorem collectVote_eq (node : Node) (message : Message) :
    node.collectVote message = { node with
      proposedValue := (node.collectVote message).proposedValue
      view := (node.collectVote message).view
      sequenceNumber := (node.collectVote message).sequenceNumber
      localVotes := (node.collectVote message).localVotes } := by
  unfold collectVote
  dsimp only
  split <;> rfl

/-- A valid vote is collected. -/
theorem mem_localVotes_of_vote
    (hphase : node.phase ≠ .decided)
    (hrep : node.representative = true)
    (hhonest : node.faultMode = .honest)
    (htype : message.type = .inPrepare1)
    (hvalid : node.validVote net message) :
    message.sender ∈ (node.handle net message).1.localVotes.getD message.value ∅ := by
  have hopen : ¬(node.representative = false ∨ node.faultMode = .silent ∨
      ¬node.validVote net message) := by
    rw [hrep, hhonest]
    simp [hvalid]
  have hcollected : message.sender ∈ (node.collectVote message).localVotes.getD message.value ∅ := by
    rw [collectVote_localVotes, Dict.getD_set, if_pos rfl]
    exact Finset.mem_insert_self _ _
  rw [handle, if_neg hphase, htype]
  simp only [handleInPrepare1]
  rw [if_neg hopen]
  split
  case isTrue => exact hcollected
  case isFalse =>
    obtain ⟨phase, -, hfst⟩ := @sendLocalCertificate_fst net (node.collectVote message) message
      ((node.collectVote message).localVotes.getD message.value ∅)
    rw [hfst]
    exact hcollected

theorem trySendCommit_weights (node : Node) :
    (node.trySendCommit net).1.normalGroupWeights = node.normalGroupWeights := by
  unfold trySendCommit
  split
  · rfl
  · split <;> rfl

/-- A valid certificate is counted. -/
theorem contains_of_certificate
    (hphase : node.phase ≠ .decided)
    (hrep : node.representative = true)
    (hhonest : node.faultMode = .honest)
    (htype : message.type = .outPrepare)
    (hdecision : message.nodeDecision = false)
    (hvalid : validCertificate net message) :
    (node.handle net message).1.normalGroupWeights.contains message.groupId = true := by
  have hopen : ¬(node.representative = false ∨ node.faultMode ≠ .honest) := by
    rw [hrep, hhonest]
    simp
  rw [handle, if_neg hphase, htype]
  simp only [handleOutPrepare]
  rw [if_neg hopen, countOutPrepare, if_neg (by rw [hdecision]; exact Bool.false_ne_true),
    if_neg (not_not.mpr hvalid)]
  change (trySendCommit net _).1.normalGroupWeights.contains message.groupId = true
  rw [trySendCommit_weights]
  simp [Dict.contains, Dict.get?_set]

/-- The primary decides on a COMMIT for the value that it proposes. -/
theorem decided_of_commit
    (hphase : node.phase ≠ .decided)
    (hprimary : node.primary = true)
    (hhonest : node.faultMode = .honest)
    (hfinal : node.finalBroadcastSent = false)
    (hreply : node.replySent = false)
    (htype : message.type = .commit)
    (hrep : net.isRepresentative message.sender = true)
    (hvalue : message.value = node.proposedValue)
    (hweight : net.globalThreshold ≤ message.voteWeight) :
    (node.handle net message).1.phase = .decided := by
  have hopen : ¬(node.primary = false ∨ node.faultMode ≠ .honest ∨
      node.finalBroadcastSent = true ∨ net.isRepresentative message.sender = false ∨
      message.value ≠ node.proposedValue ∨ message.voteWeight < net.globalThreshold) := by
    rw [hprimary, hhonest, hfinal, hrep, hvalue]
    simp only [Bool.true_eq_false, Bool.false_eq_true, ne_eq, not_true_eq_false, false_or]
    omega
  have hreply' : ({ node with finalBroadcastSent := true, phase := .prePrepare2 } :
      Node).replySent = false := hreply
  rw [handle, if_neg hphase, htype]
  simp only [handleCommit]
  rw [if_neg hopen, decideAndReply_fst hreply']

/-- An honest node decides on a PRE_PREPARE2 for the value that it proposes, or when it
proposes none. -/
theorem decided_of_prePrepare2
    (hphase : node.phase ≠ .decided)
    (hhonest : node.faultMode = .honest)
    (hreply : node.replySent = false)
    (htype : message.type = .prePrepare2)
    (hsender : message.sender = net.topology.primaryId)
    (hweight : net.globalThreshold ≤ message.voteWeight)
    (hvalue : node.proposedValue = "" ∨ node.proposedValue = message.value) :
    (node.handle net message).1.phase = .decided ∧
      (node.handle net message).1.decidedValue = message.value := by
  have hopen : ¬(node.faultMode ≠ .honest ∨ message.sender ≠ net.topology.primaryId ∨
      message.voteWeight < net.globalThreshold ∨
      (node.proposedValue ≠ "" ∧ message.value ≠ node.proposedValue)) := by
    rw [hhonest, hsender]
    rintro (h | h | h | ⟨hset, hne⟩)
    · exact h rfl
    · exact h rfl
    · omega
    · rcases hvalue with hvalue | hvalue
      · exact hset hvalue
      · exact hne hvalue.symm
  rw [handle, if_neg hphase, htype]
  simp only [handlePrePrepare2]
  rw [if_neg hopen]
  split
  · have hreply' : ({ node with phase := .prePrepare2, proposedValue := message.value } :
        Node).replySent = false := hreply
    rw [decideAndReply_fst hreply']
    exact ⟨rfl, rfl⟩
  · have hreply' : ({ node with phase := .prePrepare2 } : Node).replySent = false := hreply
    rw [decideAndReply_fst hreply']
    exact ⟨rfl, rfl⟩

end Must

section Kept

/-- What holds of a node at any time: its votes are those of its group, a quorum of them
has made it send its certificate, and the threshold has made it send COMMIT. -/
structure Tidy (net : Network) (node : Node) : Prop where
  voters : ∀ x, ∀ s ∈ node.localVotes.getD x ∅, net.nodeBelongsToGroup s node.groupId = true
  certified : ∀ x, net.localQuorum ≤ (node.localVotes.getD x ∅).card →
    node.localCertificateSent = true
  weight : ∀ g weight, node.normalGroupWeights.get? g = some weight → weight = net.groupSize
  committed : net.globalThreshold ≤ node.totalWeight → node.commitSent = true

/-- The fields that `Tidy` is about have not changed. -/
theorem Tidy.congr
    (h : node.Tidy net)
    (hgroup : node'.groupId = node.groupId)
    (hvotes : node'.localVotes = node.localVotes)
    (hcertificate : node'.localCertificateSent = node.localCertificateSent)
    (hnormal : node'.normalGroupWeights = node.normalGroupWeights)
    (habnormal : node'.abnormalNodesByGroup = node.abnormalNodesByGroup)
    (hcommit : node'.commitSent = node.commitSent) :
    node'.Tidy net := by
  constructor
  · rw [hvotes, hgroup]
    exact h.voters
  · rw [hvotes, hcertificate]
    exact h.certified
  · rw [hnormal]
    exact h.weight
  · unfold totalWeight
    rw [hnormal, habnormal, hcommit]
    exact h.committed

/-- Collecting a valid vote, as long as a quorum is followed by the certificate. -/
theorem Tidy.collectVote
    {sentCertificate : Bool} {phase : NodePhase}
    (h : node.Tidy net)
    (hvalid : node.validVote net message)
    (hsent : node.localCertificateSent = true → sentCertificate = true)
    (hquorum : net.localQuorum ≤
      ((node.collectVote message).localVotes.getD message.value ∅).card →
        sentCertificate = true) :
    ({ node.collectVote message with
      localCertificateSent := sentCertificate
      phase := phase } : Node).Tidy net := by
  rw [collectVote_localVotes, Dict.getD_set, if_pos rfl] at hquorum
  constructor
  · intro x s hs
    dsimp only at hs
    rw [collectVote_localVotes, Dict.getD_set] at hs
    rw [collectVote_eq]
    split at hs
    case isTrue hx =>
      rcases Finset.mem_insert.mp hs with rfl | hs
      · exact hvalid.2.1
      · exact h.voters message.value s hs
    case isFalse => exact h.voters x s hs
  · intro x hx
    dsimp only at hx
    rw [collectVote_localVotes, Dict.getD_set] at hx
    split at hx
    case isTrue => exact hquorum hx
    case isFalse => exact hsent (h.certified x hx)
  · rw [collectVote_eq]
    exact h.weight
  · rw [collectVote_eq]
    exact h.committed

/-- A certificate has a quorum, so it counts for the whole group. -/
theorem weight_of_countOutPrepare
    (hnet : net.WellFormed)
    (h : node.Tidy net)
    (hcount : node.countOutPrepare net message = some node') :
    ∀ g weight, node'.normalGroupWeights.get? g = some weight → weight = net.groupSize := by
  intro g weight hget
  unfold countOutPrepare at hcount
  split at hcount
  case isTrue =>
    split at hcount
    case isTrue => cases hcount
    case isFalse =>
      split at hcount
      · obtain rfl := Option.some.inj hcount
        exact h.weight g weight hget
      · obtain rfl := Option.some.inj hcount
        exact h.weight g weight hget
  case isFalse =>
    split at hcount
    case isTrue => cases hcount
    case isFalse hvalid =>
      obtain rfl := Option.some.inj hcount
      dsimp only at hget
      rw [Dict.get?_set] at hget
      split at hget
      case isTrue =>
        have hquorum := (not_not.mp hvalid).2.1
        have hsize := hnet.quorum
        rw [Network.localQuorum] at hquorum
        rw [if_pos (by omega)] at hget
        exact (Option.some.inj hget).symm
      case isFalse => exact h.weight g weight hget

theorem Handles.tidy
    (hnet : net.WellFormed)
    (h : Handles net node message node' sent)
    (htidy : node.Tidy net) :
    node'.Tidy net := by
  cases h with
  | ignore => exact htidy.congr rfl rfl rfl rfl rfl rfl
  | propose _ _ heq | vote _ _ _ heq | decideAlone _ _ heq =>
      rw [heq]
      exact htidy.congr rfl rfl rfl rfl rfl rfl
  | collect _ _ hvalid hfew =>
      have hnode := @Tidy.collectVote net node message node.localCertificateSent
        (node.collectVote message).phase htidy hvalid (fun hsent => hsent) fun hquorum =>
          hfew.resolve_right (not_lt.mpr hquorum)
      refine hnode.congr rfl rfl ?_ rfl rfl rfl
      rw [collectVote_eq]
  | certify _ _ hvalid _ heq =>
      obtain ⟨phase, -, hfst⟩ := @sendLocalCertificate_fst net (node.collectVote message) message
        ((node.collectVote message).localVotes.getD message.value ∅)
      rw [heq, hfst]
      exact htidy.collectVote hvalid (fun _ => rfl) fun _ => rfl
  | count _ _ _ hcount hfew =>
      have hstart : ({ node with phase := .outPrepare } : Node).Tidy net :=
        htidy.congr rfl rfl rfl rfl rfl rfl
      have hweight := weight_of_countOutPrepare hnet hstart hcount
      have heq := countOutPrepare_eq hcount
      refine ⟨?_, ?_, hweight, fun hmany => hfew.resolve_right (not_lt.mpr hmany)⟩
      · rw [heq]
        exact htidy.voters
      · rw [heq]
        exact htidy.certified
  | commit _ _ _ hcount =>
      have hstart : ({ node with phase := .outPrepare } : Node).Tidy net :=
        htidy.congr rfl rfl rfl rfl rfl rfl
      have hweight := weight_of_countOutPrepare hnet hstart hcount
      have heq := countOutPrepare_eq hcount
      refine ⟨?_, ?_, hweight, fun _ => rfl⟩
      · rw [heq]
        exact htidy.voters
      · rw [heq]
        exact htidy.certified
  | finish _ _ _ _ _ heq =>
      rw [heq, decideAndReply_eq]
      exact htidy.congr rfl rfl rfl rfl rfl rfl
  | accept _ _ _ _ _ heq hout =>
      rw [hout, heq, decideAndReply_eq]
      exact htidy.congr rfl rfl rfl rfl rfl rfl

theorem tidy_init
    (hnet : net.WellFormed)
    (i : ℤ) :
    (Node.init net i).Tidy net where
  voters _ _ hs := by cases hs
  certified _ h := by
    have hquorum : net.localQuorum ≤ 0 := h
    rw [Network.localQuorum] at hquorum
    omega
  weight _ _ h := by cases h
  committed h := by
    have hthreshold : net.globalThreshold ≤ 0 := h
    have hgroups : 0 < net.R - net.w := by
      have hR := hnet.four_le_R
      rw [Network.w]
      omega
    have hsize : 0 < net.groupSize := by
      have := hnet.quorum
      omega
    have hpos := Nat.mul_pos hgroups hsize
    rw [Network.globalThreshold] at hthreshold
    omega

theorem Handles.localVotes_mono
    {x : String} {s : ℤ}
    (h : Handles net node message node' sent)
    (hs : s ∈ node.localVotes.getD x ∅) :
    s ∈ node'.localVotes.getD x ∅ := by
  have hcollect : s ∈ (node.collectVote message).localVotes.getD x ∅ := by
    rw [collectVote_localVotes, Dict.getD_set]
    split
    case isTrue hx =>
      rw [hx] at hs
      exact Finset.mem_insert_of_mem hs
    case isFalse => exact hs
  cases h with
  | ignore => exact hs
  | propose _ _ heq | vote _ _ _ heq | decideAlone _ _ heq =>
      rw [heq]
      exact hs
  | collect => exact hcollect
  | certify _ _ _ _ heq =>
      obtain ⟨phase, -, hfst⟩ := @sendLocalCertificate_fst net (node.collectVote message) message
        ((node.collectVote message).localVotes.getD message.value ∅)
      rw [heq, hfst]
      exact hcollect
  | count _ _ _ hcount =>
      rw [countOutPrepare_eq hcount]
      exact hs
  | commit _ _ _ hcount =>
      have heq := congrArg Node.localVotes (countOutPrepare_eq hcount)
      dsimp only at heq ⊢
      rw [heq]
      exact hs
  | finish _ _ _ _ _ heq =>
      rw [heq, decideAndReply_eq]
      exact hs
  | accept _ _ _ _ _ heq hout =>
      rw [hout, heq, decideAndReply_eq]
      exact hs

/-- A group that is counted stays counted. -/
theorem contains_of_countOutPrepare
    {g : ℤ}
    (hcount : node.countOutPrepare net message = some node')
    (hg : node.normalGroupWeights.contains g = true) :
    node'.normalGroupWeights.contains g = true := by
  unfold countOutPrepare at hcount
  split at hcount
  case isTrue =>
    split at hcount
    case isTrue => cases hcount
    case isFalse =>
      split at hcount
      · obtain rfl := Option.some.inj hcount
        exact hg
      · obtain rfl := Option.some.inj hcount
        exact hg
  case isFalse =>
    split at hcount
    case isTrue => cases hcount
    case isFalse =>
      obtain rfl := Option.some.inj hcount
      unfold Dict.contains at hg ⊢
      rw [Dict.get?_set]
      split
      · rfl
      · exact hg

theorem Handles.contains_mono
    {g : ℤ}
    (h : Handles net node message node' sent)
    (hg : node.normalGroupWeights.contains g = true) :
    node'.normalGroupWeights.contains g = true := by
  cases h with
  | ignore => exact hg
  | propose _ _ heq | vote _ _ _ heq | decideAlone _ _ heq =>
      rw [heq]
      exact hg
  | collect =>
      rw [collectVote_eq]
      exact hg
  | certify _ _ _ _ heq =>
      obtain ⟨phase, -, hfst⟩ := @sendLocalCertificate_fst net (node.collectVote message) message
        ((node.collectVote message).localVotes.getD message.value ∅)
      rw [heq, hfst, collectVote_eq]
      exact hg
  | count _ _ _ hcount | commit _ _ _ hcount =>
      have hstart : ({ node with phase := .outPrepare } :
          Node).normalGroupWeights.contains g = true := hg
      have hkept := contains_of_countOutPrepare hcount hstart
      exact hkept
  | finish _ _ _ _ _ heq =>
      rw [heq, decideAndReply_eq]
      exact hg
  | accept _ _ _ _ _ heq hout =>
      rw [hout, heq, decideAndReply_eq]
      exact hg

end Kept

section Sends

/-- The representative with a quorum of votes sends its certificate to all
representatives. -/
theorem mem_sendLocalCertificate_of_quorum
    {voters : Finset ℤ} {group : Group}
    (hhonest : node.faultMode = .honest)
    (hquorum : net.localQuorum ≤ voters.card)
    (hgroup : group ∈ net.topology.groups) :
    ∃ x ∈ (node.sendLocalCertificate net message voters).2, x.type = .outPrepare ∧
      x.nodeDecision = false ∧ x.sender = node.id ∧ x.recipient = group.representativeId ∧
      x.groupId = node.groupId ∧ x.signatures = voters := by
  have hvoters : (({ node with localCertificateSent := true, phase := .inPrepare2 } :
      Node).localCertificate net message voters).signatures = voters := by
    simp only [localCertificate]
    rw [if_neg (by rw [hhonest]; exact nofun)]
  unfold sendLocalCertificate
  dsimp only
  rw [if_pos (by rw [hvoters]; exact hquorum)]
  refine ⟨_, List.mem_append_right _ (List.mem_map.mpr ⟨group, hgroup, rfl⟩), rfl, rfl, rfl, rfl,
    rfl, hvoters⟩

/-- What a node sends when it sets the flag of its certificate. -/
theorem Handles.certificate
    {group : Group}
    (h : Handles net node message node' sent)
    (htidy : node.Tidy net)
    (hhonest : node.faultMode = .honest)
    (hnot : node.localCertificateSent = false)
    (hsent : node'.localCertificateSent = true)
    (hgroup : group ∈ net.topology.groups) :
    ∃ x ∈ sent, x.type = .outPrepare ∧ x.nodeDecision = false ∧ x.sender = node.id ∧
      x.recipient = group.representativeId ∧ x.groupId = node.groupId ∧
      net.localQuorum ≤ x.signatures.card ∧
      net.validGroupSignatures x.signatures node.groupId := by
  have hold : node.localCertificateSent ≠ true := by
    rw [hnot]
    exact nofun
  cases h with
  | ignore => exact absurd hsent hold
  | propose _ _ heq | vote _ _ _ heq | decideAlone _ _ heq =>
      rw [heq] at hsent
      exact absurd hsent hold
  | collect =>
      rw [collectVote_eq] at hsent
      exact absurd hsent hold
  | certify _ _ hvalid hquorum heq =>
      have hcollect := collectVote_eq node message
      have hmode := (congrArg Node.faultMode hcollect).trans hhonest
      have hid := congrArg Node.id hcollect
      have hgroupId := congrArg Node.groupId hcollect
      dsimp only at hid hgroupId
      obtain ⟨x, hx, htype, hdecision, hsender, hrecipient, hx₁, hx₂⟩ :=
        @mem_sendLocalCertificate_of_quorum net (node.collectVote message) message _ _ hmode hquorum
          hgroup
      rw [heq]
      refine ⟨x, hx, htype, hdecision, hsender.trans hid, hrecipient, hx₁.trans hgroupId, ?_, ?_⟩
      · rw [hx₂]
        exact hquorum
      · intro s hs
        rw [hx₂, collectVote_localVotes, Dict.getD_set, if_pos rfl] at hs
        rcases Finset.mem_insert.mp hs with rfl | hs
        · exact hvalid.2.1
        · exact htidy.voters _ s hs
  | count _ _ _ hcount | commit _ _ _ hcount =>
      have heq := congrArg Node.localCertificateSent (countOutPrepare_eq hcount)
      exact absurd (heq.symm.trans hsent) hold
  | finish _ _ _ _ _ heq =>
      rw [heq, decideAndReply_eq] at hsent
      exact absurd hsent hold
  | accept _ _ _ _ _ heq hout =>
      rw [hout, heq, decideAndReply_eq] at hsent
      exact absurd hsent hold

/-- What a node sends when it sets the flag of its COMMIT. -/
theorem Handles.commit_mem
    (h : Handles net node message node' sent)
    (hnot : node.commitSent = false)
    (hsent : node'.commitSent = true) :
    message.type = .outPrepare ∧ ∃ counted : Node,
      ({ node with phase := .outPrepare } : Node).countOutPrepare net message = some counted ∧
      net.globalThreshold ≤ counted.totalWeight ∧ node.representative = true ∧
      node.faultMode = .honest ∧
      ∃ x ∈ sent, x.type = .commit ∧ x.sender = node.id ∧
        x.recipient = net.topology.primaryId ∧ x.value = node.proposedValue ∧
        net.globalThreshold ≤ x.voteWeight := by
  have hold : node.commitSent ≠ true := by
    rw [hnot]
    exact nofun
  cases h with
  | ignore => exact absurd hsent hold
  | propose _ _ heq | vote _ _ _ heq | decideAlone _ _ heq =>
      rw [heq] at hsent
      exact absurd hsent hold
  | collect =>
      rw [collectVote_eq] at hsent
      exact absurd hsent hold
  | certify _ _ _ _ heq =>
      obtain ⟨phase, -, hfst⟩ := @sendLocalCertificate_fst net (node.collectVote message) message
        ((node.collectVote message).localVotes.getD message.value ∅)
      rw [heq, hfst, collectVote_eq] at hsent
      exact absurd hsent hold
  | count _ _ _ hcount =>
      have heq := congrArg Node.commitSent (countOutPrepare_eq hcount)
      exact absurd (heq.symm.trans hsent) hold
  | @commit counted htype hrep hhonest hcount _ hmany =>
      have hid : counted.id = node.id := by rw [countOutPrepare_eq hcount]
      have hproposed : counted.proposedValue = node.proposedValue := by
        rw [countOutPrepare_eq hcount]
      exact ⟨htype, counted, hcount, hmany, hrep, hhonest, _, List.mem_singleton.mpr rfl, rfl,
        hid, rfl, hproposed, hmany⟩
  | finish _ _ _ _ _ heq =>
      rw [heq, decideAndReply_eq] at hsent
      exact absurd hsent hold
  | accept _ _ _ _ _ heq hout =>
      rw [hout, heq, decideAndReply_eq] at hsent
      exact absurd hsent hold

/-- What no step before the final broadcast does. -/
structure Calm (node node' : Node) (sent : List Message) : Prop where
  undecided : node'.phase ≠ .decided
  replied : node'.replySent = node.replySent
  final : node'.finalBroadcastSent = node.finalBroadcastSent
  proposed : node.primary = true → node.representative = false →
    node'.proposedValue = node.proposedValue
  types : ∀ x ∈ sent, x.type ≠ .clientRequest ∧ x.type ≠ .prePrepare1 ∧ x.type ≠ .prePrepare2

/-- Without a request and a PRE_PREPARE2 only the final broadcast of the primary decides. -/
theorem Handles.calm_or_finish
    (h : Handles net node message node' sent)
    (hphase : node.phase ≠ .decided)
    (hreply : node.replySent = false)
    (hrequest : message.type = .clientRequest → node.primary = false)
    (hfinal : message.type ≠ .prePrepare2) :
    Calm node node' sent ∨ node.primary = true ∧ node.faultMode = .honest ∧
      node'.phase = .decided ∧ node'.decidedValue = node.proposedValue ∧
      net.globalThreshold ≤ message.voteWeight ∧
      (∀ x ∈ net.broadcastToReplicas { node.outgoing .prePrepare2 with
        value := node.proposedValue
        voteWeight := message.voteWeight }, x ∈ sent) ∧
      ∀ x ∈ sent, x.type = .prePrepare2 → x.value = node.proposedValue := by
  cases h with
  | ignore hdecided => exact Or.inl ⟨fun h => hphase (hdecided h), rfl, rfl, fun _ _ => rfl, nofun⟩
  | propose htype hprimary => exact absurd ((hrequest htype).symm.trans hprimary) nofun
  | vote _ hprimary _ heq =>
      left
      rw [heq]
      refine ⟨nofun, rfl, rfl, fun h => ?_, fun x hx => ?_⟩
      · rw [hprimary] at h
        cases h
      · rw [List.mem_singleton.mp hx]
        exact ⟨nofun, nofun, nofun⟩
  | collect _ hrep =>
      left
      rw [collectVote_eq]
      refine ⟨hphase, rfl, rfl, fun _ h => ?_, nofun⟩
      rw [hrep] at h
      cases h
  | certify _ hrep _ _ heq =>
      left
      obtain ⟨phase, hopen, hfst⟩ := @sendLocalCertificate_fst net (node.collectVote message)
        message ((node.collectVote message).localVotes.getD message.value ∅)
      rw [heq]
      refine ⟨?_, ?_, ?_, fun _ h => ?_, fun x hx => ?_⟩
      · rw [hfst]
        exact hopen
      · rw [hfst, collectVote_eq]
      · rw [hfst, collectVote_eq]
      · rw [hrep] at h
        cases h
      · rcases mem_sendLocalCertificate hx with hx | hx
        · rw [hx]
          exact ⟨nofun, nofun, nofun⟩
        · rw [hx]
          exact ⟨nofun, nofun, nofun⟩
  | decideAlone _ _ heq =>
      left
      rw [heq]
      refine ⟨nofun, rfl, rfl, fun _ _ => rfl, fun x hx => ?_⟩
      obtain ⟨i, rfl⟩ := exists_of_mem_broadcastToOtherRepresentatives hx
      exact ⟨nofun, nofun, nofun⟩
  | count _ _ _ hcount =>
      left
      rw [countOutPrepare_eq hcount]
      exact ⟨nofun, rfl, rfl, fun _ _ => rfl, nofun⟩
  | @commit counted _ hrep _ hcount =>
      left
      have hreplied : counted.replySent = node.replySent := by
        rw [countOutPrepare_eq hcount]
      have hbroadcast : counted.finalBroadcastSent = node.finalBroadcastSent := by
        rw [countOutPrepare_eq hcount]
      refine ⟨nofun, hreplied, hbroadcast, fun _ h => ?_, fun x hx => ?_⟩
      · rw [hrep] at h
        cases h
      · rw [List.mem_singleton.mp hx]
        exact ⟨nofun, nofun, nofun⟩
  | finish _ hprimary hhonest _ hweight heq =>
      right
      have hreply' : ({ node with finalBroadcastSent := true, phase := .prePrepare2 } :
          Node).replySent = false := hreply
      rw [heq, decideAndReply_fst hreply']
      refine ⟨hprimary, hhonest, rfl, rfl, hweight, fun x hx => List.mem_append_left _ hx,
        fun x hx htype => ?_⟩
      rcases List.mem_append.mp hx with hx | hx
      · obtain ⟨i, rfl⟩ := exists_of_mem_broadcastToReplicas hx
        rfl
      · rw [mem_decideAndReply hx] at htype
        cases htype
  | accept htype => exact absurd htype hfinal

/-- Only the primary sends PRE_PREPARE2. -/
theorem Handles.primary_of_prePrepare2
    {x : Message}
    (h : Handles net node message node' sent)
    (hx : x ∈ sent)
    (hfinal : x.type = .prePrepare2) :
    node.primary = true := by
  cases h with
  | ignore | collect | count => cases hx
  | propose _ hprimary => exact hprimary
  | vote =>
      rw [List.mem_singleton.mp hx] at hfinal
      cases hfinal
  | certify _ _ _ _ heq =>
      rw [heq] at hx
      rcases mem_sendLocalCertificate hx with hx | hx
      · rw [hx] at hfinal
        cases hfinal
      · rw [hx] at hfinal
        cases hfinal
  | decideAlone =>
      obtain ⟨i, rfl⟩ := exists_of_mem_broadcastToOtherRepresentatives hx
      cases hfinal
  | commit =>
      rw [List.mem_singleton.mp hx] at hfinal
      cases hfinal
  | finish _ hprimary => exact hprimary
  | accept _ _ _ _ _ _ hout =>
      rw [hout] at hx
      rw [mem_decideAndReply hx] at hfinal
      cases hfinal

/-- A node other than the primary decides on the value of a PRE_PREPARE2. -/
theorem Handles.decidedValue_of_member
    (h : Handles net node message node' sent)
    (hphase : node.phase ≠ .decided)
    (hreply : node.replySent = false)
    (hprimary : node.primary = false)
    (hdecided : node'.phase = .decided) :
    message.type = .prePrepare2 ∧ node'.decidedValue = message.value := by
  by_cases hfinal : message.type = .prePrepare2
  · refine ⟨hfinal, ?_⟩
    cases h with
    | ignore hignored => exact absurd (hignored hdecided) hphase
    | accept _ _ _ _ _ heq hout =>
        have hreply' : ({ node with phase := .prePrepare2, proposedValue := message.value } :
            Node).replySent = false := hreply
        rw [hout, heq, decideAndReply_fst hreply']
    | propose htype | vote htype | collect htype | certify htype | decideAlone htype
    | count htype | commit htype | finish htype =>
        rw [htype] at hfinal
        cases hfinal
  · rcases h.calm_or_finish hphase hreply (fun _ => hprimary) hfinal with hcalm | ⟨htrue, -⟩
    · exact absurd hdecided hcalm.undecided
    · rw [hprimary] at htrue
      cases htrue

end Sends

end Node

end NbftSimulator
end DistributedConsensus
