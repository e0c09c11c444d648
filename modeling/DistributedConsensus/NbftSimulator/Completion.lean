import DistributedConsensus.NbftSimulator.Commits
import DistributedConsensus.NbftSimulator.Progress

/-!
# NBFT simulator: completion

With an honest primary and enough groups whose representative is honest and whose other
members are mostly honest, a round ends with the decision of all honest nodes, unless a
representative sends COMMIT while it proposes a value that it has adopted from a wrong
vote, or a node refuses the PRE_PREPARE2 of the primary for this reason.
-/

namespace DistributedConsensus
namespace NbftSimulator

open Foundations

section Faults

/-- The representative of the group is honest, and the group is within its fault bound. -/
def Network.Reliable (net : Network) (group : Group) : Prop :=
  net.faultMode group.representativeId = .honest ∧
    (group.members.filter fun i => net.faultMode i ≠ .honest).length ≤ net.E

instance (net : Network) (group : Group) : Decidable (net.Reliable group) :=
  inferInstanceAs (Decidable (_ ∧ _))

/-- The primary is honest, and so are enough groups. -/
def Network.Tolerable (net : Network) : Prop :=
  net.faultMode net.topology.primaryId = .honest ∧
    net.R - net.w ≤ (net.topology.groups.filter fun group => net.Reliable group).length

instance (net : Network) : Decidable net.Tolerable :=
  inferInstanceAs (Decidable (_ ∧ _))

end Faults

namespace Node

variable {net : Network} {node : Node} {group : Group} {i : ℤ}

/-- An honest representative reaches the threshold only while it proposes the value, and an
honest node handles a PRE_PREPARE2 only while it proposes the value or none. -/
def KeepsValue (net : Network) (value : String) (node : Node) (message : Message) : Prop :=
  node.faultMode = .honest → node.phase ≠ .decided →
    match message.type with
    | .outPrepare => node.representative = true → node.commitSent = false →
        ∀ counted ∈ ({ node with phase := .outPrepare } : Node).countOutPrepare net message,
          net.globalThreshold ≤ counted.totalWeight → node.proposedValue = value
    | .prePrepare2 => node.proposedValue = "" ∨ node.proposedValue = value
    | _ => True

instance (net : Network) (value : String) (node : Node) (message : Message) :
    Decidable (node.KeepsValue net value message) :=
  match htype : message.type with
  | .outPrepare => decidable_of_iff (node.faultMode = .honest → node.phase ≠ .decided →
      node.representative = true → node.commitSent = false →
        ∀ counted ∈ ({ node with phase := .outPrepare } : Node).countOutPrepare net message,
          net.globalThreshold ≤ counted.totalWeight → node.proposedValue = value)
      (by simp only [KeepsValue, htype])
  | .prePrepare2 => decidable_of_iff (node.faultMode = .honest → node.phase ≠ .decided →
      node.proposedValue = "" ∨ node.proposedValue = value) (by simp only [KeepsValue, htype])
  | .clientRequest | .prePrepare1 | .inPrepare1 | .inPrepare2 | .commit | .reply =>
      isTrue (by simp [KeepsValue, htype])

theorem role_primary
    (hnet : net.WellFormed)
    (h : SameRole (Node.init net net.topology.primaryId) node) :
    node.primary = true ∧ node.representative = false := by
  rw [h.primary, h.representative]
  refine ⟨decide_eq_true rfl, decide_eq_false ?_⟩
  rw [hnet.groupOf_primary]
  omega

theorem role_member
    (hnet : net.WellFormed)
    (hgroup : group ∈ net.topology.groups)
    (hi : i ∈ group.members)
    (h : SameRole (Node.init net i) node) :
    node.groupId = group.id ∧ node.primary = false := by
  rw [h.groupId, h.primary]
  exact ⟨hnet.groupOf_eq hgroup hi, decide_eq_false (hnet.ne_primary hgroup hi)⟩

theorem role_representative
    (hnet : net.WellFormed)
    (hgroup : group ∈ net.topology.groups)
    (h : SameRole (Node.init net group.representativeId) node) :
    node.representative = true := by
  rw [h.representative]
  refine decide_eq_true ?_
  rw [hnet.groupOf_eq hgroup (hnet.representative_mem group hgroup)]
  exact ⟨hnet.id_nonneg hgroup, hnet.representativeForGroup_id hgroup⟩

end Node

namespace Cluster

variable {net : Network} {value : String} {c c' : Cluster} {group group' : Group} {i : ℤ}

/-- A node handles the message with a value of its own that does not stand in its way. -/
def KeepsValue (net : Network) (value : String) (c : Cluster) (k : ℕ) : Prop :=
  ∀ message ∈ c.inboxes[k]?, (c.nodes message.recipient).KeepsValue net value message

instance (net : Network) (value : String) (c : Cluster) (k : ℕ) :
    Decidable (c.KeepsValue net value k) :=
  inferInstanceAs (Decidable (∀ message ∈ c.inboxes[k]?, _))

section Stages

/-- The proposal for a member, its vote, or the vote as counted by its representative. -/
def Voting (net : Network) (value : String) (c : Cluster) (group : Group) (i : ℤ) : Prop :=
  (∃ m ∈ c.inboxes, m.type = .prePrepare1 ∧ m.sender = net.topology.primaryId ∧
    m.recipient = i) ∨
  (∃ m ∈ c.inboxes, m.type = .inPrepare1 ∧ m.sender = i ∧
    m.recipient = group.representativeId ∧ m.groupId = group.id ∧ m.value = value ∧
    m.signatures = {i}) ∨
  i ∈ (c.nodes group.representativeId).localVotes.getD value ∅

/-- The certificate of a group for a representative, or the group as counted by it. -/
def Certifying (net : Network) (c : Cluster) (group group' : Group) : Prop :=
  (∃ m ∈ c.inboxes, m.type = .outPrepare ∧ m.nodeDecision = false ∧
    Node.validCertificate net m ∧ m.recipient = group'.representativeId ∧
    m.groupId = group.id) ∨
  (c.nodes group'.representativeId).normalGroupWeights.contains group.id = true

/-- A COMMIT for the value is on its way to the primary. -/
def Committing (net : Network) (value : String) (c : Cluster) : Prop :=
  ∃ m ∈ c.inboxes, m.type = .commit ∧ net.isRepresentative m.sender = true ∧
    m.recipient = net.topology.primaryId ∧ m.value = value ∧
    net.globalThreshold ≤ m.voteWeight

/-- Between the proposal of the primary and its final broadcast. -/
structure Collecting (net : Network) (value : String) (c : Cluster) : Prop where
  role : ∀ i, Node.SameRole (Node.init net i) (c.nodes i)
  tidy : ∀ i, (c.nodes i).Tidy net
  undecided : ∀ i, (c.nodes i).phase ≠ .decided
  replied : ∀ i, (c.nodes i).replySent = false
  final : (c.nodes net.topology.primaryId).finalBroadcastSent = false
  proposed : (c.nodes net.topology.primaryId).proposedValue = value
  types : ∀ m ∈ c.inboxes, m.type ≠ .clientRequest ∧ m.type ≠ .prePrepare2
  proposals : ∀ m ∈ c.inboxes, m.type = .prePrepare1 → m.value = value
  votes : ∀ group ∈ net.topology.groups, net.faultMode group.representativeId = .honest →
    ∀ i ∈ group.members, net.faultMode i = .honest → c.Voting net value group i
  certificates : ∀ group ∈ net.topology.groups,
    net.faultMode group.representativeId = .honest →
    (c.nodes group.representativeId).localCertificateSent = true →
    ∀ group' ∈ net.topology.groups, net.faultMode group'.representativeId = .honest →
      c.Certifying net group group'
  commits : ∀ group ∈ net.topology.groups, net.faultMode group.representativeId = .honest →
    (c.nodes group.representativeId).commitSent = true → c.Committing net value

/-- After the final broadcast of the primary. -/
structure Finishing (net : Network) (value : String) (c : Cluster) : Prop where
  role : ∀ i, Node.SameRole (Node.init net i) (c.nodes i)
  replied : ∀ i, (c.nodes i).replySent = true → (c.nodes i).phase = .decided
  primary : (c.nodes net.topology.primaryId).phase = .decided
  values : ∀ m ∈ c.inboxes, m.type = .prePrepare2 → m.value = value
  done : ∀ i : ℤ, 0 ≤ i → i < net.numberOfNodes → net.faultMode i = .honest →
    ((c.nodes i).phase = .decided ∧ (c.nodes i).decidedValue = value) ∨
    (c.nodes i).phase ≠ .decided ∧ ∃ m ∈ c.inboxes, m.type = .prePrepare2 ∧
      m.sender = net.topology.primaryId ∧ m.recipient = i ∧ net.globalThreshold ≤ m.voteWeight

end Stages

section Steps

/-- One step: what becomes of the nodes and of the messages on their way. -/
structure Stepped (net : Network) (c c' : Cluster) (message : Message) : Prop where
  mem : message ∈ c.inboxes
  self : c'.nodes message.recipient = ((c.nodes message.recipient).handle net message).1
  other : ∀ i, i ≠ message.recipient → c'.nodes i = c.nodes i
  kept : ∀ m ∈ c.inboxes, m = message ∨ m ∈ c'.inboxes
  sent : ∀ x ∈ ((c.nodes message.recipient).handle net message).2,
    0 ≤ x.recipient ∧ x.recipient < net.numberOfNodes → x ∈ c'.inboxes
  new : ∀ x ∈ c'.inboxes, x ∈ c.inboxes ∨
    x ∈ ((c.nodes message.recipient).handle net message).2

theorem stepped_of_step
    {k : ℕ}
    (h : step net c k = some c') :
    ∃ message, c.inboxes[k]? = some message ∧ Stepped net c c' message := by
  obtain ⟨message, hget, hnodes, hinboxes, -⟩ := step_spec h
  refine ⟨message, hget, List.mem_of_getElem? hget, ?_, fun i hi => ?_, fun m hm => ?_,
    fun x hx hrecipient => ?_, fun x hx => ?_⟩
  · rw [hnodes, Function.update_self]
  · rw [hnodes, Function.update_of_ne hi]
  · obtain ⟨j, hj⟩ := List.getElem?_of_mem hm
    by_cases hjk : j = k
    · rw [hjk, hget] at hj
      exact Or.inl (Option.some.inj hj).symm
    · right
      rw [hinboxes]
      exact List.mem_append_left _ (List.mem_eraseIdx_iff_getElem?.mpr ⟨j, hjk, hj⟩)
  · rw [hinboxes]
    exact List.mem_append_right _ (List.mem_filter.mpr ⟨hx, decide_eq_true hrecipient⟩)
  · rw [hinboxes] at hx
    rcases List.mem_append.mp hx with hx | hx
    · exact Or.inl (List.mem_of_mem_eraseIdx hx)
    · exact Or.inr (List.mem_of_mem_filter hx)

variable {message : Message}

/-- A vote makes its way to the representative. -/
theorem Collecting.voting
    (hnet : net.WellFormed)
    (h : Collecting net value c)
    (hstep : Stepped net c c' message)
    (hgroup : group ∈ net.topology.groups)
    (hrep : net.faultMode group.representativeId = .honest)
    (hi : i ∈ group.members)
    (hhonest : net.faultMode i = .honest) :
    c'.Voting net value group i := by
  rcases h.votes group hgroup hrep i hi hhonest with ⟨m, hm, htype, hsender, hrecipient⟩ |
    ⟨m, hm, htype, hsender, hrecipient, hgroupId, hvalue, hsignatures⟩ | hcounted
  · rcases hstep.kept m hm with rfl | hkept
    · -- The member handles its proposal.
      subst hrecipient
      obtain ⟨hgroupId, hprimary⟩ := Node.role_member hnet hgroup hi (h.role m.recipient)
      obtain ⟨x, hx, hxtype, hxsender, hxrecipient, hxgroup, hxvalue, hxsignatures⟩ :=
        Node.exists_vote (h.undecided m.recipient) hprimary
          ((h.role m.recipient).faultMode.trans hhonest) htype hsender
      rw [hgroupId, hnet.representativeForGroup_id hgroup] at hxrecipient
      have hid : (c.nodes m.recipient).id = m.recipient := (h.role m.recipient).id
      rw [hid] at hxsender hxsignatures
      refine Or.inr (Or.inl ⟨x, hstep.sent x hx ?_, hxtype, hxsender, hxrecipient,
        hxgroup.trans hgroupId, hxvalue.trans (h.proposals m hm htype), hxsignatures⟩)
      rw [hxrecipient]
      exact hnet.representative_lt hgroup
    · exact Or.inl ⟨m, hkept, htype, hsender, hrecipient⟩
  · rcases hstep.kept m hm with rfl | hkept
    · -- The representative collects the vote.
      right; right
      have hrole := h.role group.representativeId
      obtain ⟨hid, -⟩ := Node.role_member hnet hgroup (hnet.representative_mem group hgroup) hrole
      have hself := hstep.self
      rw [hrecipient] at hself
      rw [hself]
      have hvalid : (c.nodes group.representativeId).validVote net m := by
        refine ⟨hgroupId.trans hid.symm, ?_, ?_, ?_⟩
        · rw [hsender, hid]
          exact hnet.belongs hgroup hi
        · rw [hsignatures, Finset.card_singleton]
        · rw [hsender, hsignatures]
          exact Finset.mem_singleton_self i
      have hmem := Node.mem_localVotes_of_vote (h.undecided group.representativeId)
        (Node.role_representative hnet hgroup hrole) (hrole.faultMode.trans hrep) htype hvalid
      rw [hsender, hvalue] at hmem
      exact hmem
    · exact Or.inr (Or.inl ⟨m, hkept, htype, hsender, hrecipient, hgroupId, hvalue, hsignatures⟩)
  · right; right
    by_cases hr : group.representativeId = message.recipient
    · have hself := hstep.self
      rw [← hr] at hself
      rw [hself]
      exact Node.handles_handle.localVotes_mono hcounted
    · rw [hstep.other _ hr]
      exact hcounted

/-- A certificate makes its way to the representatives. -/
theorem Collecting.certifying
    (hnet : net.WellFormed)
    (h : Collecting net value c)
    (hstep : Stepped net c c' message)
    (hgroup : group ∈ net.topology.groups)
    (hrep : net.faultMode group.representativeId = .honest)
    (hsent : (c'.nodes group.representativeId).localCertificateSent = true)
    (hgroup' : group' ∈ net.topology.groups)
    (hrep' : net.faultMode group'.representativeId = .honest) :
    c'.Certifying net group group' := by
  have hrole := h.role group.representativeId
  by_cases hold : (c.nodes group.representativeId).localCertificateSent = true
  · rcases h.certificates group hgroup hrep hold group' hgroup' hrep' with
      ⟨m, hm, htype, hdecision, hvalid, hrecipient, hgroupId⟩ | hcounted
    · rcases hstep.kept m hm with rfl | hkept
      · -- The representative counts the group.
        right
        have hrole' := h.role group'.representativeId
        have hself := hstep.self
        rw [hrecipient] at hself
        rw [hself, ← hgroupId]
        exact Node.contains_of_certificate (h.undecided group'.representativeId)
          (Node.role_representative hnet hgroup' hrole') (hrole'.faultMode.trans hrep') htype
          hdecision hvalid
      · exact Or.inl ⟨m, hkept, htype, hdecision, hvalid, hrecipient, hgroupId⟩
    · right
      by_cases hr : group'.representativeId = message.recipient
      · have hself := hstep.self
        rw [← hr] at hself
        rw [hself]
        exact Node.handles_handle.contains_mono hcounted
      · rw [hstep.other _ hr]
        exact hcounted
  · -- The certificate is sent in this step.
    have hr : group.representativeId = message.recipient := by
      by_contra hne
      rw [hstep.other _ hne] at hsent
      exact hold hsent
    have hself := hstep.self
    rw [← hr] at hself
    rw [hself] at hsent
    obtain ⟨x, hx, htype, hdecision, hsender, hrecipient, hgroupId, hquorum, hsigners⟩ :=
      Node.handles_handle.certificate (h.tidy group.representativeId)
        (hrole.faultMode.trans hrep) (Bool.eq_false_of_not_eq_true hold) hsent hgroup'
    obtain ⟨hid, -⟩ := Node.role_member hnet hgroup (hnet.representative_mem group hgroup) hrole
    have hsender' : x.sender = group.representativeId := hsender.trans hrole.id
    rw [hid] at hgroupId hsigners
    refine Or.inl ⟨x, hstep.sent x ?_ ?_, htype, hdecision, ⟨?_, hquorum, ?_⟩, hrecipient, hgroupId⟩
    · rw [← hr]
      exact hx
    · rw [hrecipient]
      exact hnet.representative_lt hgroup'
    · rw [hsender', hgroupId, hnet.representativeForGroup_id hgroup]
    · rw [hgroupId]
      exact hsigners

/-- A COMMIT makes its way to the primary, which has not decided. -/
theorem Collecting.committing
    (hnet : net.WellFormed)
    (htolerable : net.Tolerable)
    (h : Collecting net value c)
    (hstep : Stepped net c c' message)
    (hkeeps : (c.nodes message.recipient).KeepsValue net value message)
    (hopen : (c'.nodes message.recipient).phase ≠ .decided)
    (hgroup : group ∈ net.topology.groups)
    (hrep : net.faultMode group.representativeId = .honest)
    (hsent : (c'.nodes group.representativeId).commitSent = true) :
    c'.Committing net value := by
  have hrole := h.role group.representativeId
  by_cases hold : (c.nodes group.representativeId).commitSent = true
  · obtain ⟨m, hm, htype, hsender, hrecipient, hvalue, hweight⟩ :=
      h.commits group hgroup hrep hold
    rcases hstep.kept m hm with rfl | hkept
    · -- The primary would have decided.
      have hprimary := h.role net.topology.primaryId
      rw [hstep.self, hrecipient] at hopen
      exact absurd (Node.decided_of_commit (h.undecided _) (Node.role_primary hnet hprimary).1
        (hprimary.faultMode.trans htolerable.1) h.final (h.replied _) htype hsender
        (hvalue.trans h.proposed.symm) hweight) hopen
    · exact ⟨m, hkept, htype, hsender, hrecipient, hvalue, hweight⟩
  · have hr : group.representativeId = message.recipient := by
      by_contra hne
      rw [hstep.other _ hne] at hsent
      exact hold hsent
    rw [hr, hstep.self] at hsent
    rw [hr] at hold hrole hrep
    obtain ⟨htype, counted, hcount, hmany, hrepresentative, hhonest, x, hx, hxtype, hxsender,
      hxrecipient, hxvalue, hxweight⟩ :=
      Node.handles_handle.commit_mem (Bool.eq_false_of_not_eq_true hold) hsent
    have hkeeps := hkeeps hhonest (h.undecided _)
    simp only [htype] at hkeeps
    have hvalue := hkeeps hrepresentative (Bool.eq_false_of_not_eq_true hold) counted hcount hmany
    refine ⟨x, hstep.sent x hx ?_, hxtype, ?_, hxrecipient, hxvalue.trans hvalue, hxweight⟩
    · rw [hxrecipient]
      exact hnet.mem_iff.mp (Or.inl rfl)
    · have hid : x.sender = message.recipient := hxsender.trans hrole.id
      rw [hid, ← hr]
      exact Network.WellFormed.isRepresentative hgroup

theorem Stepped.sameRole
    (h : ∀ i, Node.SameRole (Node.init net i) (c.nodes i))
    (hstep : Stepped net c c' message)
    (i : ℤ) :
    Node.SameRole (Node.init net i) (c'.nodes i) := by
  by_cases hi : i = message.recipient
  · rw [hi, hstep.self]
    exact (h message.recipient).trans Node.handles_handle.sameRole
  · rw [hstep.other i hi]
    exact h i

/-- A step that is not the final broadcast. -/
theorem Collecting.of_calm
    (hnet : net.WellFormed)
    (htolerable : net.Tolerable)
    (h : Collecting net value c)
    (hstep : Stepped net c c' message)
    (hkeeps : (c.nodes message.recipient).KeepsValue net value message)
    (hcalm : Node.Calm (c.nodes message.recipient)
      ((c.nodes message.recipient).handle net message).1
      ((c.nodes message.recipient).handle net message).2) :
    Collecting net value c' := by
  have hopen : (c'.nodes message.recipient).phase ≠ .decided := by
    rw [hstep.self]
    exact hcalm.undecided
  constructor
  · exact hstep.sameRole h.role
  · intro i
    by_cases hi : i = message.recipient
    · rw [hi, hstep.self]
      exact Node.handles_handle.tidy hnet (h.tidy message.recipient)
    · rw [hstep.other i hi]
      exact h.tidy i
  · intro i
    by_cases hi : i = message.recipient
    · rw [hi]
      exact hopen
    · rw [hstep.other i hi]
      exact h.undecided i
  · intro i
    by_cases hi : i = message.recipient
    · rw [hi, hstep.self, hcalm.replied]
      exact h.replied message.recipient
    · rw [hstep.other i hi]
      exact h.replied i
  · by_cases hi : net.topology.primaryId = message.recipient
    · rw [hi, hstep.self, hcalm.final, ← hi]
      exact h.final
    · rw [hstep.other _ hi]
      exact h.final
  · by_cases hi : net.topology.primaryId = message.recipient
    · obtain ⟨hprimary, hrep⟩ := Node.role_primary hnet (h.role net.topology.primaryId)
      rw [hi] at hprimary hrep
      rw [hi, hstep.self, hcalm.proposed hprimary hrep, ← hi]
      exact h.proposed
    · rw [hstep.other _ hi]
      exact h.proposed
  · intro x hx
    rcases hstep.new x hx with hx | hx
    · exact h.types x hx
    · exact ⟨(hcalm.types x hx).1, (hcalm.types x hx).2.2⟩
  · intro x hx htype
    rcases hstep.new x hx with hx | hx
    · exact h.proposals x hx htype
    · exact absurd htype (hcalm.types x hx).2.1
  · exact fun group hgroup hrep i hi hhonest => h.voting hnet hstep hgroup hrep hi hhonest
  · exact fun group hgroup hrep hsent group' hgroup' hrep' =>
      h.certifying hnet hstep hgroup hrep hsent hgroup' hrep'
  · exact fun group hgroup hrep hsent =>
      h.committing hnet htolerable hstep hkeeps hopen hgroup hrep hsent

/-- The nodes that the primary broadcasts to. -/
theorem mem_broadcastToReplicas
    {m : Message}
    (h0 : 0 ≤ i)
    (hlt : i < net.numberOfNodes)
    (hi : i ≠ net.topology.primaryId) :
    { m with recipient := i } ∈ net.broadcastToReplicas m := by
  refine List.mem_map.mpr ⟨i, List.mem_filter.mpr ⟨List.mem_map.mpr ⟨i.toNat, ?_, ?_⟩, ?_⟩, rfl⟩
  · exact List.mem_range.mpr (by omega)
  · simp [h0]
  · exact decide_eq_true hi

/-- One step before the final broadcast. -/
theorem Collecting.step
    {k : ℕ}
    (hnet : net.WellFormed)
    (htolerable : net.Tolerable)
    (h : Collecting net value c)
    (hkeeps : c.KeepsValue net value k)
    (hstep : Cluster.step net c k = some c') :
    Collecting net value c' ∨ Finishing net value c' := by
  obtain ⟨message, hget, hstep⟩ := stepped_of_step hstep
  have hkeeps := hkeeps message hget
  have hrole := h.role message.recipient
  obtain ⟨hrequest, hfinal⟩ := h.types message hstep.mem
  rcases Node.handles_handle.calm_or_finish (h.undecided message.recipient)
    (h.replied message.recipient) (fun htype => absurd htype hrequest) hfinal with hcalm |
    ⟨hprimary, -, hphase, hdecided, hweight, hsent, hvalues⟩
  · exact Or.inl (h.of_calm hnet htolerable hstep hkeeps hcalm)
  · -- The primary decides and tells all other nodes.
    right
    have hr : message.recipient = net.topology.primaryId := by
      rw [hrole.primary] at hprimary
      exact of_decide_eq_true hprimary
    have hproposed : (c.nodes message.recipient).proposedValue = value := by
      rw [hr]
      exact h.proposed
    refine ⟨hstep.sameRole h.role, fun i hreplied => ?_, ?_, fun m hm htype => ?_,
      fun i h0 hlt _ => ?_⟩
    · by_cases hi : i = message.recipient
      · rw [hi, hstep.self]
        exact hphase
      · rw [hstep.other i hi, h.replied] at hreplied
        cases hreplied
    · rw [← hr, hstep.self]
      exact hphase
    · rcases hstep.new m hm with hm | hm
      · exact absurd htype (h.types m hm).2
      · exact (hvalues m hm htype).trans hproposed
    · by_cases hi : i = message.recipient
      · left
        rw [hi, hstep.self]
        exact ⟨hphase, hdecided.trans hproposed⟩
      · right
        have hmem := hsent _ (mem_broadcastToReplicas h0 hlt (hr ▸ hi))
        rw [hstep.other i hi]
        refine ⟨h.undecided i, _, hstep.sent _ hmem ⟨h0, hlt⟩, rfl, ?_, rfl, hweight⟩
        exact hrole.id.trans hr

/-- One step after the final broadcast. -/
theorem Finishing.step
    {k : ℕ}
    (h : Finishing net value c)
    (hkeeps : c.KeepsValue net value k)
    (hstep : Cluster.step net c k = some c') :
    Finishing net value c' := by
  obtain ⟨message, hget, hstep⟩ := stepped_of_step hstep
  have hkeeps := hkeeps message hget
  have hrole := h.role message.recipient
  have hdone : (c.nodes message.recipient).phase = .decided →
      c'.nodes message.recipient = c.nodes message.recipient := by
    intro hphase
    rw [hstep.self, Node.handle, if_pos hphase]
  have hreply : (c.nodes message.recipient).phase ≠ .decided →
      (c.nodes message.recipient).replySent = false := fun hphase =>
    Bool.eq_false_of_not_eq_true fun hsent => hphase (h.replied _ hsent)
  have hprimary : (c.nodes message.recipient).phase ≠ .decided →
      (c.nodes message.recipient).primary = false := by
    intro hphase
    rw [hrole.primary]
    refine decide_eq_false fun hr => hphase ?_
    rw [hr]
    exact h.primary
  refine ⟨hstep.sameRole h.role, fun i hreplied => ?_, ?_, fun m hm htype => ?_,
    fun i h0 hlt hhonest => ?_⟩
  · by_cases hi : i = message.recipient
    · rw [hi] at hreplied ⊢
      by_cases hphase : (c.nodes message.recipient).phase = .decided
      · rw [hdone hphase]
        exact hphase
      · rw [hstep.self] at hreplied ⊢
        exact Node.handles_handle.replied (hreply hphase) hreplied
    · rw [hstep.other i hi] at hreplied ⊢
      exact h.replied i hreplied
  · by_cases hi : net.topology.primaryId = message.recipient
    · have hphase := h.primary
      rw [hi] at hphase ⊢
      rw [hdone hphase]
      exact hphase
    · rw [hstep.other _ hi]
      exact h.primary
  · rcases hstep.new m hm with hm | hm
    · exact h.values m hm htype
    · by_cases hphase : (c.nodes message.recipient).phase = .decided
      · rw [Node.handle, if_pos hphase] at hm
        cases hm
      · exact absurd ((hprimary hphase).symm.trans
          (Node.handles_handle.primary_of_prePrepare2 hm htype)) Bool.false_ne_true
  · rcases h.done i h0 hlt hhonest with hdecided |
      ⟨hphase, m, hm, htype, hsender, hrecipient, hweight⟩
    · left
      by_cases hi : i = message.recipient
      · rw [hi] at hdecided ⊢
        rw [hdone hdecided.1]
        exact hdecided
      · rw [hstep.other i hi]
        exact hdecided
    · by_cases hi : i = message.recipient
      · subst hi
        have hmode : (c.nodes message.recipient).faultMode = .honest :=
          hrole.faultMode.trans hhonest
        rcases hstep.kept m hm with rfl | hkept
        · -- The node accepts the value of the primary.
          left
          have hvalue := h.values m hm htype
          have hproposes := hkeeps hmode hphase
          simp only [htype] at hproposes
          rw [hstep.self, ← hvalue]
          refine Node.decided_of_prePrepare2 hphase hmode (hreply hphase) htype hsender hweight ?_
          rw [hvalue]
          exact hproposes
        · by_cases hphase' : (c'.nodes message.recipient).phase = .decided
          · left
            refine ⟨hphase', ?_⟩
            rw [hstep.self] at hphase' ⊢
            obtain ⟨hfinal, hvalue⟩ := Node.handles_handle.decidedValue_of_member hphase
              (hreply hphase) (hprimary hphase) hphase'
            exact hvalue.trans (h.values message hstep.mem hfinal)
          · exact Or.inr ⟨hphase', m, hkept, htype, hsender, hrecipient, hweight⟩
      · rcases hstep.kept m hm with rfl | hkept
        · exact absurd hrecipient.symm hi
        · rw [hstep.other i hi]
          exact Or.inr ⟨hphase, m, hkept, htype, hsender, hrecipient, hweight⟩

/-- The primary handles the request. -/
theorem collecting_of_first
    {k : ℕ}
    (hnet : net.WellFormed)
    (htolerable : net.Tolerable)
    (hstep : Cluster.step net (round net value).init k = some c') :
    Collecting net value c' := by
  have hrole₀ : ∀ i, Node.SameRole (Node.init net i) ((round net value).init.nodes i) :=
    fun i => ⟨rfl, rfl, rfl, rfl, rfl⟩
  obtain ⟨message, hget, hnodes, hinboxes, -⟩ := step_spec hstep
  obtain ⟨message', hget', hstep⟩ := stepped_of_step hstep
  obtain rfl := Option.some.inj (hget.symm.trans hget')
  have hk : k = 0 ∧ clientRequest net value = message := by
    change ([clientRequest net value] : List Message)[k]? = some message at hget
    cases k with
    | zero => exact ⟨rfl, Option.some.inj hget⟩
    | succ k => cases hget
  obtain ⟨rfl, rfl⟩ := hk
  have hhandle := @Node.handle_clientRequest net (Node.init net net.topology.primaryId)
    (clientRequest net value) nofun (decide_eq_true rfl) htolerable.1 rfl
  change c'.nodes = Function.update (Node.init net) net.topology.primaryId
    ((Node.init net net.topology.primaryId).handle net (clientRequest net value)).1 at hnodes
  change c'.inboxes = [] ++ ((Node.init net net.topology.primaryId).handle net
    (clientRequest net value)).2.filter (deliverable net) at hinboxes
  rw [hhandle] at hnodes hinboxes
  rw [List.nil_append] at hinboxes
  have hinbox : ∀ m ∈ c'.inboxes, m.type = .prePrepare1 ∧ m.value = value := by
    intro m hm
    rw [hinboxes] at hm
    obtain ⟨i, rfl⟩ := Node.exists_of_mem_broadcastToReplicas (List.mem_of_mem_filter hm)
    exact ⟨rfl, rfl⟩
  have hfields : ∀ i, (c'.nodes i).phase ≠ .decided ∧ (c'.nodes i).replySent = false ∧
      (c'.nodes i).localCertificateSent = false ∧ (c'.nodes i).commitSent = false := by
    intro i
    rw [hnodes, Function.update_apply]
    split <;> exact ⟨nofun, rfl, rfl, rfl⟩
  constructor
  · exact hstep.sameRole hrole₀
  · intro i
    by_cases hi : i = net.topology.primaryId
    · subst hi
      have hself := hstep.self
      change c'.nodes net.topology.primaryId = _ at hself
      rw [hself]
      exact Node.handles_handle.tidy hnet (Node.tidy_init hnet _)
    · rw [hstep.other i hi]
      exact Node.tidy_init hnet i
  · exact fun i => (hfields i).1
  · exact fun i => (hfields i).2.1
  · rw [hnodes, Function.update_self]
    rfl
  · rw [hnodes, Function.update_self]
    rfl
  · intro m hm
    rw [(hinbox m hm).1]
    exact ⟨nofun, nofun⟩
  · exact fun m hm _ => (hinbox m hm).2
  · intro group hgroup _ i hi _
    obtain ⟨h0, hlt⟩ := hnet.mem_iff.mp (Or.inr ⟨group, hgroup, hi⟩)
    refine Or.inl ⟨{
      type := .prePrepare1
      sender := net.topology.primaryId
      recipient := i
      value := value }, ?_, rfl, rfl, rfl⟩
    rw [hinboxes]
    exact List.mem_filter.mpr ⟨mem_broadcastToReplicas h0 hlt (hnet.ne_primary hgroup hi),
      decide_eq_true ⟨h0, hlt⟩⟩
  · intro group _ _ hsent
    rw [(hfields _).2.2.1] at hsent
    cases hsent
  · intro group _ _ hsent
    rw [(hfields _).2.2.2] at hsent
    cases hsent

end Steps

section Quiet

/-- The honest members of a group within its fault bound are a quorum. -/
theorem quorum_of_honest
    {S : Finset ℤ}
    (hnet : net.WellFormed)
    (hgroup : group ∈ net.topology.groups)
    (hfaulty : (group.members.filter fun i => net.faultMode i ≠ .honest).length ≤ net.E)
    (hS : ∀ i ∈ group.members, net.faultMode i = .honest → i ∈ S) :
    net.localQuorum ≤ S.card := by
  have hnodup : group.members.Nodup :=
    (List.nodup_flatMap.mp (List.nodup_cons.mp hnet.nodup).2).1 group hgroup
  have hsplit := List.length_eq_length_filter_add (l := group.members)
    fun i => decide (net.faultMode i = .honest)
  have hrest : (group.members.filter fun i => !decide (net.faultMode i = .honest))
      = group.members.filter fun i => decide (net.faultMode i ≠ .honest) :=
    List.filter_congr fun i _ => (decide_not ..).symm
  rw [hrest, hnet.length_members group hgroup] at hsplit
  have hsub : (group.members.filter fun i => decide (net.faultMode i = .honest)).toFinset ⊆ S := by
    intro i hi
    obtain ⟨hmem, hhonest⟩ := List.mem_filter.mp (List.mem_toFinset.mp hi)
    exact hS i hmem (of_decide_eq_true hhonest)
  have hcard := Finset.card_le_card hsub
  rw [List.toFinset_card_of_nodup (hnodup.filter _)] at hcard
  have hsize := hnet.quorum
  rw [Network.localQuorum]
  omega

/-- Each counted group adds its whole size. -/
theorem le_totalWeight
    {node : Node} {ids : List ℤ}
    (htidy : node.Tidy net)
    (hnodup : ids.Nodup)
    (hcontains : ∀ g ∈ ids, node.normalGroupWeights.contains g = true) :
    ids.length * net.groupSize ≤ node.totalWeight := by
  have hvalues : node.normalGroupWeights.values
      = List.replicate node.normalGroupWeights.values.length net.groupSize := by
    refine List.eq_replicate_of_mem fun weight hweight => ?_
    obtain ⟨p, hp, rfl⟩ := List.mem_map.mp hweight
    exact htidy.weight p.1 p.2 (Dict.get?_of_mem_entries hp)
  have hsub : ids ⊆ node.normalGroupWeights.keys := by
    intro g hg
    by_contra hnot
    have hnone := (Dict.get?_eq_none_iff _ _).mpr hnot
    have hsome := hcontains g hg
    rw [Dict.contains, hnone] at hsome
    cases hsome
  have hlength := (hnodup.subperm hsub).length_le
  have hkeys : node.normalGroupWeights.keys.length = node.normalGroupWeights.values.length := by
    unfold Dict.keys Dict.values
    rw [List.length_map, List.length_map]
  rw [hkeys] at hlength
  have hsum : node.normalGroupWeights.values.sum
      = node.normalGroupWeights.values.length * net.groupSize := by
    conv_lhs => rw [hvalues]
    rw [List.sum_replicate_nat]
  have hle := Nat.mul_le_mul_right net.groupSize hlength
  rw [← hsum] at hle
  exact hle.trans (Nat.le_add_right _ _)

/-- Messages are left as long as the primary has not decided. -/
theorem Collecting.inboxes_ne_nil
    (hnet : net.WellFormed)
    (htolerable : net.Tolerable)
    (h : Collecting net value c) :
    c.inboxes ≠ [] := by
  intro hquiet
  have hnone : ∀ (P : Message → Prop), ¬∃ m ∈ c.inboxes, P m := by
    rintro P ⟨m, hm, -⟩
    rw [hquiet] at hm
    cases hm
  -- Every reliable group has sent its certificate.
  have hcertified : ∀ group ∈ net.topology.groups, net.Reliable group →
      (c.nodes group.representativeId).localCertificateSent = true := by
    rintro group hgroup ⟨hrep, hfaulty⟩
    refine (h.tidy group.representativeId).certified value
      (quorum_of_honest hnet hgroup hfaulty fun i hi hhonest => ?_)
    exact ((h.votes group hgroup hrep i hi hhonest).resolve_left (hnone _)).resolve_left (hnone _)
  set reliable := net.topology.groups.filter fun group => net.Reliable group with hreliable
  have hmem : ∀ group ∈ reliable, group ∈ net.topology.groups ∧ net.Reliable group := by
    intro group hgroup
    obtain ⟨hin, hok⟩ := List.mem_filter.mp hgroup
    exact ⟨hin, of_decide_eq_true hok⟩
  have hpos : 0 < net.R - net.w := by
    have hR := hnet.four_le_R
    rw [Network.w]
    omega
  obtain ⟨group, hgroup⟩ := List.exists_mem_of_length_pos (hpos.trans_le htolerable.2)
  obtain ⟨hin, hrep, -⟩ := hmem group hgroup
  -- The representative of one of them has counted all of them.
  have hids : (reliable.map (·.id)).Nodup := hnet.nodup_ids.sublist (List.filter_sublist.map _)
  have hweight := le_totalWeight (h.tidy group.representativeId) hids fun g hg => by
    obtain ⟨group', hgroup', rfl⟩ := List.mem_map.mp hg
    obtain ⟨hin', hok'⟩ := hmem group' hgroup'
    exact (h.certificates group' hin' hok'.1 (hcertified group' hin' hok') group hin
      hrep).resolve_left (hnone _)
  have hthreshold : net.globalThreshold ≤ (reliable.map (·.id)).length * net.groupSize := by
    rw [List.length_map, Network.globalThreshold]
    exact Nat.mul_le_mul_right _ htolerable.2
  have hsent := (h.tidy group.representativeId).committed (hthreshold.trans hweight)
  exact hnone _ (h.commits group hin hrep hsent)

/-- A round in which no honest node is misled by a value of its own ends with the decision
of all honest nodes. -/
theorem round_completes
    {numberOfNodes groupSize : ℕ} {faultMode : ℤ → FaultMode}
    (hnet : Network.construct numberOfNodes groupSize faultMode = some net)
    (htolerable : net.Tolerable)
    (hreach : (round net value).Reachable (KeepsValue net value) c)
    (hquiet : c.inboxes = [])
    (h0 : 0 ≤ i)
    (hlt : i < net.numberOfNodes)
    (hhonest : net.faultMode i = .honest) :
    (c.nodes i).phase = .decided ∧ (c.nodes i).decidedValue = value := by
  have hnet := Network.wellFormed_of_construct hnet
  have hstage : c = (round net value).init ∨ Collecting net value c ∨ Finishing net value c := by
    refine System.Reachable.invariant (I := fun c => c = (round net value).init ∨
      Collecting net value c ∨ Finishing net value c) (Or.inl rfl) ?_ hreach
    rintro c k c' - (rfl | h | h) hkeeps hstep
    · exact Or.inr (Or.inl (collecting_of_first hnet htolerable hstep))
    · exact Or.inr (h.step hnet htolerable hkeeps hstep)
    · exact Or.inr (Or.inr (h.step hkeeps hstep))
  rcases hstage with rfl | h | h
  · cases hquiet
  · exact absurd hquiet (h.inboxes_ne_nil hnet htolerable)
  · rcases h.done i h0 hlt hhonest with hdecided | ⟨-, m, hm, -⟩
    · exact hdecided
    · rw [hquiet] at hm
      cases hm

end Quiet

section Runs

/-- Without faults the messages are handled in the order in which they were sent. -/
theorem round_completes_seventeenNodes :
    ∃ c : Cluster, c.inboxes = [] ∧ (c.nodes 13).phase = .decided ∧
      (c.nodes 13).decidedValue = "v" := by
  obtain ⟨c, hreach, hquiet⟩ : ∃ c : Cluster,
      (round (seventeenNodes fun _ => .honest) "v").Reaches
        (KeepsValue (seventeenNodes fun _ => .honest) "v")
        (round (seventeenNodes fun _ => .honest) "v").init c ∧ c.inboxes = [] := by
    refine System.exists_reaches_of_exec (List.replicate 81 0) ?_
    decide +kernel
  exact ⟨c, hquiet, round_completes (construct_seventeenNodes _) (by decide +kernel) hreach hquiet
    (by decide) (by decide) rfl⟩

/-- The roles of twenty-nine nodes in groups of seven. -/
def twentyNineTopology : Topology :=
  ⟨18, [⟨0, [17, 14, 13, 16, 15, 10, 9], 17⟩, ⟨1, [12, 11, 23, 24, 25, 26, 19], 12⟩,
    ⟨2, [20, 21, 22, 7, 8, 5, 6], 20⟩, ⟨3, [27, 3, 28, 4, 1, 2, 0], 27⟩]⟩

theorem buildTopology_twentyNine : buildTopology 29 7 = twentyNineTopology := by
  decide +kernel

/-- One member of each group votes for a wrong value. -/
def fourWrong (i : ℤ) : FaultMode :=
  if i ∈ ([14, 11, 21, 3] : List ℤ) then .wrongValue else .honest

def twentyNineNodes : Network := ⟨29, 7, twentyNineTopology, fourWrong⟩

theorem construct_twentyNineNodes : Network.construct 29 7 fourWrong = some twentyNineNodes := by
  rw [Network.construct, if_neg (by decide), if_neg (by decide), if_neg (by decide),
    buildTopology_twentyNine]
  rfl

/-- The members handle their proposals before the representatives do, the wrong votes arrive
first, and each representative counts three certificates before its own proposal. -/
def lateRepresentatives : List ℕ :=
  [0, 14, 13, 14, 13, 10, 9, 9, 15, 15, 15, 15, 11, 12, 12, 7, 7, 5, 5, 3, 8, 3, 1, 1, 0] ++
    List.replicate 24 4 ++ [10, 19, 28, 10, 18, 26, 10, 17, 24, 10, 16, 22] ++
    List.replicate 40 0

/-- No message is left, and no node has decided. -/
theorem round_incomplete :
    ∃ (net : Network) (c : Cluster), Network.construct 29 7 fourWrong = some net ∧
      net.Tolerable ∧ (round net "v").Reachable System.anyStep c ∧ c.inboxes = [] ∧
      ∀ i ∈ List.range 29, (c.nodes i).phase ≠ .decided := by
  obtain ⟨c, hreach, hquiet, hopen⟩ : ∃ c : Cluster,
      (round twentyNineNodes "v").Reaches System.anyStep (round twentyNineNodes "v").init c ∧
      c.inboxes = [] ∧ ∀ i ∈ List.range 29, (c.nodes i).phase ≠ .decided := by
    refine System.exists_reaches_of_exec lateRepresentatives ?_
    decide +kernel
  exact ⟨_, c, construct_twentyNineNodes, by decide +kernel, hreach, hquiet, hopen⟩

end Runs

end Cluster

end NbftSimulator
end DistributedConsensus
