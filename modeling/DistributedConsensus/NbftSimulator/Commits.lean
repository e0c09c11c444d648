import DistributedConsensus.NbftSimulator.Steps
import Mathlib.Algebra.Order.BigOperators.Group.List
import Mathlib.Algebra.Order.Ring.Nat

/-!
# NBFT simulator: what a COMMIT is worth

A representative adds up the weights of the groups from the OUT_PREPAREs that it handles,
and sends COMMIT for the value that it proposes.  It does not look at the values that the
OUT_PREPAREs carry.
-/

namespace DistributedConsensus
namespace NbftSimulator

open Foundations

section Weights

variable (net : Network)

/-- A valid certificate of the group for the value has been handled. -/
def CertifiedFor (value : String) (ms : List Message) (groupId : ℤ) : Prop :=
  ∃ m ∈ ms, m.type = .outPrepare ∧ m.nodeDecision = false ∧ Node.validCertificate net m ∧
    m.groupId = groupId ∧ m.value = value

instance (value : String) (ms : List Message) (groupId : ℤ) :
    Decidable (CertifiedFor net value ms groupId) :=
  inferInstanceAs (Decidable (∃ m ∈ ms, _))

/-- The nodes of the group whose own decisions for the value have been handled. -/
def decidersFor (value : String) (ms : List Message) (groupId : ℤ) : Finset ℤ :=
  ((ms.filter fun m => m.type = .outPrepare ∧ m.nodeDecision = true ∧
    Node.validNodeDecision net m ∧ m.groupId = groupId ∧ m.value = value).map
      (·.sender)).toFinset

/-- A certificate is worth the whole group, and otherwise every decision counts once. -/
def groupWeight (value : String) (ms : List Message) (groupId : ℤ) : ℕ :=
  if CertifiedFor net value ms groupId then net.groupSize
  else (decidersFor net value ms groupId).card

/-- The weight of the messages that carry the value. -/
def weightFor (value : String) (ms : List Message) : ℕ :=
  (net.topology.groups.map fun group => groupWeight net value ms group.id).sum

variable {net} {value : String} {ms ms' : List Message} {groupId : ℤ}

theorem mem_decidersFor {s : ℤ} :
    s ∈ decidersFor net value ms groupId ↔ ∃ m ∈ ms, m.type = .outPrepare ∧
      m.nodeDecision = true ∧ Node.validNodeDecision net m ∧ m.groupId = groupId ∧
      m.value = value ∧ m.sender = s := by
  simp only [decidersFor, List.mem_toFinset, List.mem_map, List.mem_filter, decide_eq_true_eq]
  constructor
  · rintro ⟨m, ⟨hm, htype, hdecision, hvalid, hgroup, hvalue⟩, rfl⟩
    exact ⟨m, hm, htype, hdecision, hvalid, hgroup, hvalue, rfl⟩
  · rintro ⟨m, hm, htype, hdecision, hvalid, hgroup, hvalue, rfl⟩
    exact ⟨m, ⟨hm, htype, hdecision, hvalid, hgroup, hvalue⟩, rfl⟩

theorem exists_group_of_belongs
    {s : ℤ}
    (h : net.nodeBelongsToGroup s groupId = true) :
    ∃ group ∈ net.topology.groups, group.id = groupId ∧ s ∈ group.members := by
  unfold Network.nodeBelongsToGroup at h
  rw [Option.any_eq_true] at h
  obtain ⟨group, hfind, hid⟩ := h
  have hmember := List.find?_some hfind
  exact ⟨group, List.mem_of_find?_eq_some hfind, of_decide_eq_true hid,
    of_decide_eq_true hmember⟩

/-- The id of a group is its place. -/
theorem Network.WellFormed.eq_of_id
    (h : net.WellFormed)
    {group group' : Group}
    (hgroup : group ∈ net.topology.groups)
    (hgroup' : group' ∈ net.topology.groups)
    (hid : group.id = group'.id) :
    group = group' := by
  obtain ⟨i, hi⟩ := List.getElem?_of_mem hgroup
  obtain ⟨j, hj⟩ := List.getElem?_of_mem hgroup'
  rw [h.id i group hi, h.id j group' hj] at hid
  rw [Int.natCast_inj.mp hid, hj] at hi
  exact (Option.some.inj hi).symm

theorem Network.WellFormed.card_le_groupSize
    (h : net.WellFormed)
    {S : Finset ℤ}
    (hS : ∀ s ∈ S, net.nodeBelongsToGroup s groupId = true) :
    S.card ≤ net.groupSize := by
  rcases S.eq_empty_or_nonempty with rfl | ⟨s₀, hs₀⟩
  · exact Nat.zero_le _
  · obtain ⟨group, hgroup, hid, -⟩ := exists_group_of_belongs (hS s₀ hs₀)
    have hsub : S ⊆ group.members.toFinset := by
      intro s hs
      obtain ⟨group', hgroup', hid', hmem⟩ := exists_group_of_belongs (hS s hs)
      rw [← h.eq_of_id hgroup' hgroup (hid'.trans hid.symm)]
      exact List.mem_toFinset.mpr hmem
    have hcard := (Finset.card_le_card hsub).trans (List.toFinset_card_le _)
    rwa [h.length_members group hgroup] at hcard

theorem CertifiedFor.mono
    (hsub : ms ⊆ ms')
    (h : CertifiedFor net value ms groupId) :
    CertifiedFor net value ms' groupId := by
  obtain ⟨m, hm, hrest⟩ := h
  exact ⟨m, hsub hm, hrest⟩

theorem decidersFor_mono
    (hsub : ms ⊆ ms') :
    decidersFor net value ms groupId ⊆ decidersFor net value ms' groupId := by
  intro s hs
  obtain ⟨m, hm, hrest⟩ := mem_decidersFor.mp hs
  exact mem_decidersFor.mpr ⟨m, hsub hm, hrest⟩

theorem card_decidersFor_le
    (h : net.WellFormed) :
    (decidersFor net value ms groupId).card ≤ net.groupSize := by
  have hmembers : ∀ s ∈ decidersFor net value ms groupId,
      net.nodeBelongsToGroup s groupId = true := by
    intro s hs
    obtain ⟨m, -, -, -, hvalid, rfl, -, rfl⟩ := mem_decidersFor.mp hs
    exact hvalid.2.2.1
  exact h.card_le_groupSize hmembers

theorem groupWeight_mono
    (h : net.WellFormed)
    (hsub : ms ⊆ ms') :
    groupWeight net value ms groupId ≤ groupWeight net value ms' groupId := by
  unfold groupWeight
  by_cases hcert : CertifiedFor net value ms groupId
  · rw [if_pos hcert, if_pos (hcert.mono hsub)]
  · rw [if_neg hcert]
    split
    · exact card_decidersFor_le h
    · exact Finset.card_le_card (decidersFor_mono hsub)

theorem weightFor_mono
    (h : net.WellFormed)
    (hsub : ms ⊆ ms') :
    weightFor net value ms ≤ weightFor net value ms' :=
  List.sum_le_sum fun _ _ => groupWeight_mono h hsub

/-- Different keys of a list among `ids` add up to at most the bounds of all `ids`. -/
theorem sum_le_sum_of_nodup_keys
    {l : List (ℤ × ℕ)} {ids : List ℤ} {W : ℤ → ℕ}
    (hnodup : (l.map Prod.fst).Nodup)
    (hmem : ∀ p ∈ l, p.1 ∈ ids ∧ p.2 ≤ W p.1) :
    (l.map Prod.snd).sum ≤ (ids.map W).sum := by
  have hbound : (l.map Prod.snd).sum ≤ ((l.map Prod.fst).map W).sum := by
    rw [List.map_map]
    exact List.sum_le_sum fun p hp => (hmem p hp).2
  have hsub : l.map Prod.fst ⊆ ids := by
    intro k hk
    obtain ⟨p, hp, rfl⟩ := List.mem_map.mp hk
    exact (hmem p hp).1
  obtain ⟨keys, hperm, hsublist⟩ := hnodup.subperm hsub
  have hsum := (hsublist.map W).sum_le_sum fun _ _ => Nat.zero_le _
  rw [(hperm.map W).sum_eq] at hsum
  exact hbound.trans hsum

end Weights

namespace Node

variable {net : Network} {node : Node} {message : Message} {value : String} {ms ms' : List Message}

/-- All that the representative has counted carries the value. -/
structure Counted (net : Network) (value : String) (node : Node) (ms : List Message) : Prop where
  normal : ∀ g weight, node.normalGroupWeights.get? g = some weight →
    weight ≤ net.groupSize ∧ CertifiedFor net value ms g
  abnormal : ∀ g nodes, node.abnormalNodesByGroup.get? g = some nodes →
    nodes ⊆ decidersFor net value ms g ∧ nodes.Nonempty

theorem Counted.mono
    (h : node.Counted net value ms)
    (hsub : ms ⊆ ms') :
    node.Counted net value ms' :=
  ⟨fun g weight hget => ⟨(h.normal g weight hget).1, (h.normal g weight hget).2.mono hsub⟩,
    fun g nodes hget => ⟨(h.abnormal g nodes hget).1.trans (decidersFor_mono hsub),
      (h.abnormal g nodes hget).2⟩⟩

theorem CertifiedFor.mem_ids
    {g : ℤ}
    (h : CertifiedFor net value ms g) :
    g ∈ net.topology.groups.map (·.id) := by
  obtain ⟨m, -, -, -, hvalid, rfl, -⟩ := h
  obtain ⟨signer, hsigner⟩ : m.signatures.Nonempty := by
    rw [← Finset.card_pos]
    exact lt_of_lt_of_le (Nat.succ_pos _) hvalid.2.1
  obtain ⟨group, hgroup, hid, -⟩ := exists_group_of_belongs (hvalid.2.2 signer hsigner)
  exact List.mem_map.mpr ⟨group, hgroup, hid⟩

theorem Counted.totalWeight_le
    (hnet : net.WellFormed)
    (h : node.Counted net value ms) :
    node.totalWeight ≤ weightFor net value ms := by
  set rest := node.abnormalNodesByGroup.entries.filter fun entry =>
    node.normalGroupWeights.contains entry.1 = false with hrest
  have hnormal : ∀ p ∈ node.normalGroupWeights.entries,
      p.2 ≤ net.groupSize ∧ CertifiedFor net value ms p.1 :=
    fun p hp => h.normal p.1 p.2 (Dict.get?_of_mem_entries hp)
  have habnormal : ∀ p ∈ rest, p.2 ⊆ decidersFor net value ms p.1 ∧ p.2.Nonempty :=
    fun p hp => h.abnormal p.1 p.2 (Dict.get?_of_mem_entries (List.mem_of_mem_filter hp))
  have htotal : node.totalWeight = ((node.normalGroupWeights.entries ++
      rest.map fun p => (p.1, p.2.card)).map Prod.snd).sum := by
    rw [List.map_append, List.sum_append, List.map_map]
    rfl
  have hweight : weightFor net value ms = ((net.topology.groups.map (·.id)).map
      fun g => groupWeight net value ms g).sum := by
    rw [List.map_map]
    rfl
  rw [htotal, hweight]
  refine sum_le_sum_of_nodup_keys ?_ ?_
  · rw [List.map_append, List.map_map, List.nodup_append]
    refine ⟨node.normalGroupWeights.nodup, ?_, ?_⟩
    · exact (node.abnormalNodesByGroup.nodup).sublist (List.filter_sublist.map _)
    · intro k hk k' hk' heq
      subst heq
      obtain ⟨p, hp, rfl⟩ := List.mem_map.mp hk'
      obtain ⟨q, hq, heq⟩ := List.mem_map.mp hk
      have hnone := (List.mem_filter.mp hp).2
      have hsome := Dict.get?_of_mem_entries (k := q.1) (v := q.2) hq
      rw [show q.1 = p.1 from heq] at hsome
      simp [Dict.contains, hsome] at hnone
  · intro p hp
    rcases List.mem_append.mp hp with hp | hp
    · obtain ⟨hle, hcert⟩ := hnormal p hp
      refine ⟨CertifiedFor.mem_ids hcert, ?_⟩
      rw [groupWeight, if_pos hcert]
      exact hle
    · obtain ⟨q, hq, rfl⟩ := List.mem_map.mp hp
      obtain ⟨hsub, s, hs⟩ := habnormal q hq
      constructor
      · obtain ⟨m, -, -, -, hvalid, hgroup, -, -⟩ := mem_decidersFor.mp (hsub hs)
        obtain ⟨group, hmem, hid, -⟩ := exists_group_of_belongs hvalid.2.2.1
        exact List.mem_map.mpr ⟨group, hmem, hid.trans hgroup⟩
      · unfold groupWeight
        split
        · exact (Finset.card_le_card hsub).trans (card_decidersFor_le hnet)
        · exact Finset.card_le_card hsub

theorem Counted.countOutPrepare
    {node' : Node}
    (h : node.Counted net message.value ms)
    (htype : message.type = .outPrepare)
    (hcount : node.countOutPrepare net message = some node') :
    node'.Counted net message.value (ms ++ [message]) := by
  have hmono := h.mono (List.subset_append_left ms [message])
  have hlast : message ∈ ms ++ [message] :=
    List.mem_append_right _ (List.mem_singleton.mpr rfl)
  unfold Node.countOutPrepare at hcount
  split at hcount
  case isTrue hdecision =>
    split at hcount
    case isTrue => cases hcount
    case isFalse hvalid =>
      split at hcount
      case isTrue =>
        obtain rfl := Option.some.inj hcount
        refine ⟨hmono.normal, fun g nodes hget => ?_⟩
        rw [Dict.get?_set] at hget
        split at hget
        case isTrue hg =>
          -- The sender joins the nodes that have decided for themselves.
          obtain rfl := Option.some.inj hget
          refine ⟨Finset.insert_subset ?_ ?_, Finset.insert_nonempty _ _⟩
          · exact mem_decidersFor.mpr
              ⟨message, hlast, htype, hdecision, not_not.mp hvalid, hg.symm, rfl, rfl⟩
          · rw [← hg]
            unfold Dict.getD
            cases hold : node.abnormalNodesByGroup.get? g with
            | none => exact Finset.empty_subset _
            | some nodes => exact (hmono.abnormal g nodes hold).1
        case isFalse => exact hmono.abnormal g nodes hget
      case isFalse =>
        obtain rfl := Option.some.inj hcount
        exact hmono
  case isFalse hdecision =>
    split at hcount
    case isTrue => cases hcount
    case isFalse hvalid =>
      obtain rfl := Option.some.inj hcount
      rw [not_not] at hvalid
      refine ⟨fun g weight hget => ?_, fun g nodes hget => ?_⟩
      · rw [Dict.get?_set] at hget
        split at hget
        case isTrue hg =>
          obtain rfl := Option.some.inj hget
          refine ⟨?_, message, hlast, htype, Bool.eq_false_of_not_eq_true hdecision, hvalid,
            hg.symm, rfl⟩
          split
          · exact le_rfl
          · omega
        case isFalse => exact hmono.normal g weight hget
      · rw [Dict.get?_erase] at hget
        split at hget
        · cases hget
        · exact hmono.abnormal g nodes hget

/-- Nothing has been counted. -/
def Uncounted (node : Node) : Prop :=
  node.normalGroupWeights.entries = [] ∧ node.abnormalNodesByGroup.entries = []

instance (node : Node) : Decidable node.Uncounted :=
  inferInstanceAs (Decidable (node.normalGroupWeights.entries = [] ∧
    node.abnormalNodesByGroup.entries = []))

theorem Uncounted.counted
    (h : node.Uncounted) :
    node.Counted net value ms := by
  constructor
  · intro g weight hget
    have hmem := Dict.mem_entries_of_get? hget
    rw [h.1] at hmem
    cases hmem
  · intro g nodes hget
    have hmem := Dict.mem_entries_of_get? hget
    rw [h.2] at hmem
    cases hmem

/-- Until its COMMIT an honest representative counts only OUT_PREPAREs of the value that
it proposes, and changes this value only before it has counted one. -/
def CountsOwn (net : Network) (node : Node) (message : Message) : Prop :=
  node.faultMode = .honest → node.commitSent = false → node.phase ≠ .decided →
    match message.type with
    | .clientRequest | .prePrepare1 => message.value = node.proposedValue ∨ node.Uncounted
    | .inPrepare1 => node.proposedValue ≠ "" ∨ message.value = "" ∨ node.Uncounted
    | .outPrepare => node.representative = true → acceptable net message →
        message.value = node.proposedValue
    | _ => True

instance (net : Network) (node : Node) (message : Message) :
    Decidable (node.CountsOwn net message) :=
  match htype : message.type with
  | .clientRequest | .prePrepare1 => decidable_of_iff (node.faultMode = .honest →
      node.commitSent = false → node.phase ≠ .decided →
        message.value = node.proposedValue ∨ node.Uncounted) (by simp only [CountsOwn, htype])
  | .inPrepare1 => decidable_of_iff (node.faultMode = .honest → node.commitSent = false →
      node.phase ≠ .decided → node.proposedValue ≠ "" ∨ message.value = "" ∨ node.Uncounted)
        (by simp only [CountsOwn, htype])
  | .outPrepare => decidable_of_iff (node.faultMode = .honest → node.commitSent = false →
      node.phase ≠ .decided → node.representative = true → acceptable net message →
        message.value = node.proposedValue) (by simp only [CountsOwn, htype])
  | .inPrepare2 | .commit | .prePrepare2 | .reply => isTrue (by simp [CountsOwn, htype])

theorem Counted.collectVote
    (h : node.Counted net node.proposedValue ms)
    (hown : node.proposedValue ≠ "" ∨ message.value = "" ∨ node.Uncounted) :
    (node.collectVote message).Counted net (node.collectVote message).proposedValue ms := by
  unfold Node.collectVote
  dsimp only
  split
  case isTrue hempty =>
    rcases hown with hset | hsame | hnone
    · exact absurd hempty hset
    · dsimp only
      rw [hempty, ← hsame] at h
      exact ⟨h.normal, h.abnormal⟩
    · exact Uncounted.counted hnone
  case isFalse => exact ⟨h.normal, h.abnormal⟩

/-- Only counting an OUT_PREPARE makes a node send COMMIT. -/
theorem Handles.exists_of_commit
    {node' : Node} {sent : List Message} {x : Message}
    (h : Handles net node message node' sent)
    (hx : x ∈ sent)
    (hcommit : x.type = .commit) :
    message.type = .outPrepare ∧ node.representative = true ∧ node.faultMode = .honest ∧
      ∃ counted : Node,
        ({ node with phase := .outPrepare } : Node).countOutPrepare net message = some counted ∧
        counted.commitSent = false ∧ net.globalThreshold ≤ counted.totalWeight ∧
        x = counted.commitMessage net := by
  cases h with
  | ignore | collect | count => cases hx
  | propose =>
      obtain ⟨i, rfl⟩ := exists_of_mem_broadcastToReplicas hx
      cases hcommit
  | vote =>
      rw [List.mem_singleton.mp hx] at hcommit
      cases hcommit
  | certify _ _ _ _ heq =>
      rw [heq] at hx
      rcases mem_sendLocalCertificate hx with hx | hx
      · rw [hx] at hcommit
        cases hcommit
      · rw [hx] at hcommit
        cases hcommit
  | decideAlone =>
      obtain ⟨i, rfl⟩ := exists_of_mem_broadcastToOtherRepresentatives hx
      cases hcommit
  | commit htype hrep hhonest hcount hopen hmany =>
      exact ⟨htype, hrep, hhonest, _, hcount, hopen, hmany, List.mem_singleton.mp hx⟩
  | finish _ _ _ _ _ heq =>
      rcases List.mem_append.mp hx with hx | hx
      · obtain ⟨i, rfl⟩ := exists_of_mem_broadcastToReplicas hx
        cases hcommit
      · rw [heq] at hx
        rw [mem_decideAndReply hx] at hcommit
        cases hcommit
  | accept _ _ _ _ _ _ hout =>
      rw [hout] at hx
      rw [mem_decideAndReply hx] at hcommit
      cases hcommit

/-- COMMIT is sent once. -/
theorem Handles.commitSent
    {node' : Node} {sent : List Message}
    (h : Handles net node message node' sent)
    (hcommit : node.commitSent = true) :
    node'.commitSent = true := by
  cases h with
  | ignore => exact hcommit
  | propose _ _ heq | vote _ _ _ heq | decideAlone _ _ heq =>
      rw [heq]
      exact hcommit
  | collect =>
      unfold collectVote
      dsimp only
      split <;> exact hcommit
  | certify _ _ _ _ heq =>
      obtain ⟨phase, -, hfst⟩ := @sendLocalCertificate_fst net (node.collectVote message) message
        ((node.collectVote message).localVotes.getD message.value ∅)
      rw [heq, hfst]
      unfold collectVote
      dsimp only
      split <;> exact hcommit
  | count _ _ _ hcount =>
      rw [countOutPrepare_eq hcount]
      exact hcommit
  | commit => rfl
  | finish _ _ _ _ _ heq =>
      rw [heq, decideAndReply_eq]
      exact hcommit
  | accept _ _ _ _ _ heq hout =>
      rw [hout, heq, decideAndReply_eq]
      exact hcommit

/-- A node that replies decides. -/
theorem Handles.replied
    {node' : Node} {sent : List Message}
    (h : Handles net node message node' sent)
    (hreply : node.replySent = false)
    (hreply' : node'.replySent = true) :
    node'.phase = .decided := by
  have hold : node.replySent ≠ true := by rw [hreply]; exact nofun
  cases h with
  | ignore => exact absurd hreply' hold
  | propose _ _ heq | vote _ _ _ heq | decideAlone _ _ heq =>
      rw [heq] at hreply'
      exact absurd hreply' hold
  | collect =>
      unfold collectVote at hreply'
      dsimp only at hreply'
      split at hreply' <;> exact absurd hreply' hold
  | certify _ _ _ _ heq =>
      obtain ⟨phase, -, hfst⟩ := @sendLocalCertificate_fst net (node.collectVote message) message
        ((node.collectVote message).localVotes.getD message.value ∅)
      rw [heq, hfst] at hreply'
      unfold collectVote at hreply'
      dsimp only at hreply'
      split at hreply' <;> exact absurd hreply' hold
  | count _ _ _ hcount | commit _ _ _ hcount =>
      have hsame := congrArg Node.replySent (countOutPrepare_eq hcount)
      exact absurd (hsame.symm.trans hreply') hold
  | finish _ _ _ _ _ heq =>
      have hopen : ({ node with finalBroadcastSent := true, phase := .prePrepare2 } :
          Node).replySent = false := hreply
      rw [heq, decideAndReply_fst hopen]
  | accept _ _ _ _ _ heq hout =>
      have hopen : ({ node with phase := .prePrepare2, proposedValue := message.value } :
          Node).replySent = false := hreply
      rw [hout, heq, decideAndReply_fst hopen]

/-- Counting an OUT_PREPARE of the own value keeps the value of all that is counted. -/
theorem Counted.of_count
    {node' : Node}
    (hcounted : node.Counted net node.proposedValue ms)
    (htype : message.type = .outPrepare)
    (hvalue : message.value = node.proposedValue)
    (hcount : ({ node with phase := .outPrepare } : Node).countOutPrepare net message
      = some node') :
    node'.Counted net node'.proposedValue (ms ++ [message]) := by
  have hsame : node'.proposedValue = message.value :=
    (congrArg Node.proposedValue (countOutPrepare_eq hcount)).trans hvalue.symm
  rw [← hvalue] at hcounted
  have hstart : ({ node with phase := .outPrepare } : Node).Counted net message.value ms :=
    ⟨hcounted.normal, hcounted.abnormal⟩
  rw [hsame]
  exact hstart.countOutPrepare htype hcount

/-- What a node that counts OUT_PREPAREs of its own value has counted carries this value. -/
theorem Handles.counted
    {node' : Node} {sent : List Message}
    (h : Handles net node message node' sent)
    (hhonest : node.faultMode = .honest)
    (hcommit : node.commitSent = false)
    (hphase : node.phase ≠ .decided)
    (hreply : node.replySent = false)
    (hown : node.CountsOwn net message)
    (hcounted : node.Counted net node.proposedValue ms)
    (hphase' : node'.phase ≠ .decided) :
    node'.Counted net node'.proposedValue (ms ++ [message]) := by
  have hown := hown hhonest hcommit hphase
  have hmono := hcounted.mono (List.subset_append_left ms [message])
  cases h with
  | ignore => exact ⟨hmono.normal, hmono.abnormal⟩
  | propose htype _ heq | vote htype _ _ heq =>
      simp only [htype] at hown
      rw [heq]
      rcases hown with hsame | hnone
      · rw [← hsame] at hmono
        exact ⟨hmono.normal, hmono.abnormal⟩
      · exact Uncounted.counted hnone
  | collect htype =>
      simp only [htype] at hown
      exact hmono.collectVote hown
  | certify htype _ _ _ heq =>
      simp only [htype] at hown
      obtain ⟨phase, -, hfst⟩ := @sendLocalCertificate_fst net (node.collectVote message) message
        ((node.collectVote message).localVotes.getD message.value ∅)
      rw [heq, hfst]
      have hcollect := hmono.collectVote hown
      exact ⟨hcollect.normal, hcollect.abnormal⟩
  | decideAlone _ _ heq =>
      rw [heq]
      exact ⟨hmono.normal, hmono.abnormal⟩
  | count htype hrep _ hcount =>
      simp only [htype] at hown
      exact hcounted.of_count htype (hown hrep (acceptable_of_count hcount)) hcount
  | commit htype hrep _ hcount =>
      simp only [htype] at hown
      have hnode' := hcounted.of_count htype (hown hrep (acceptable_of_count hcount)) hcount
      exact ⟨hnode'.normal, hnode'.abnormal⟩
  | finish _ _ _ _ _ heq =>
      have hopen : ({ node with finalBroadcastSent := true, phase := .prePrepare2 } :
          Node).replySent = false := hreply
      rw [heq, decideAndReply_fst hopen] at hphase'
      exact absurd rfl hphase'
  | accept _ _ _ _ _ heq hout =>
      have hopen : ({ node with phase := .prePrepare2, proposedValue := message.value } :
          Node).replySent = false := hreply
      rw [hout, heq, decideAndReply_fst hopen] at hphase'
      exact absurd rfl hphase'

/-- A COMMIT of a node that counts OUT_PREPAREs of its own value is backed. -/
theorem Handles.backed
    {node' : Node} {sent : List Message} {x : Message}
    (hnet : net.WellFormed)
    (h : Handles net node message node' sent)
    (hphase : node.phase ≠ .decided)
    (hown : node.CountsOwn net message)
    (hcounted : node.commitSent = false → node.Counted net node.proposedValue ms)
    (hx : x ∈ sent)
    (hcommit : x.type = .commit) :
    x.sender = node.id ∧ net.globalThreshold ≤ weightFor net x.value (ms ++ [message]) := by
  obtain ⟨htype, hrep, hhonest, node₁, hcount, hopen₁, hmany, rfl⟩ := h.exists_of_commit hx hcommit
  have hopen : node.commitSent = false :=
    (congrArg Node.commitSent (countOutPrepare_eq hcount)).symm.trans hopen₁
  have hown := hown hhonest hopen hphase
  simp only [htype] at hown
  have hnode₁ := (hcounted hopen).of_count htype (hown hrep (acceptable_of_count hcount)) hcount
  exact ⟨(countOutPrepare_sameRole hcount).id, hmany.trans (hnode₁.totalWeight_le hnet)⟩

end Node

namespace Cluster

variable {net : Network} {value : String} {c c' : Cluster}

/-- The messages that a node has handled. -/
def handledBy (c : Cluster) (i : ℤ) : List Message := c.handled.filter (·.recipient = i)

/-- The messages sent so far. -/
def messages (c : Cluster) : List Message := c.handled ++ c.inboxes

/-- Every COMMIT of an honest representative is backed by OUT_PREPAREs that carry its
value. -/
def Backed (net : Network) (c : Cluster) : Prop :=
  ∀ x ∈ c.messages, x.type = .commit → net.faultMode x.sender = .honest →
    net.globalThreshold ≤ weightFor net x.value (c.handledBy x.sender)

instance (net : Network) (c : Cluster) : Decidable (c.Backed net) :=
  inferInstanceAs (Decidable (∀ x ∈ c.messages, x.type = .commit →
    net.faultMode x.sender = .honest →
      net.globalThreshold ≤ weightFor net x.value (c.handledBy x.sender)))

/-- A node counts OUT_PREPAREs of its own value. -/
def CountsOwn (net : Network) (c : Cluster) (k : ℕ) : Prop :=
  ∀ message ∈ c.inboxes[k]?, (c.nodes message.recipient).CountsOwn net message

instance (net : Network) (c : Cluster) (k : ℕ) : Decidable (c.CountsOwn net k) :=
  inferInstanceAs (Decidable (∀ message ∈ c.inboxes[k]?, _))

/-- What holds in runs whose nodes count OUT_PREPAREs of their own value. -/
structure Counting (net : Network) (c : Cluster) : Prop where
  id : ∀ i, (c.nodes i).id = i
  faultMode : ∀ i, (c.nodes i).faultMode = net.faultMode i
  replied : ∀ i, (c.nodes i).replySent = true → (c.nodes i).phase = .decided
  counted : ∀ i, net.faultMode i = .honest → (c.nodes i).commitSent = false →
    (c.nodes i).phase ≠ .decided →
    (c.nodes i).Counted net (c.nodes i).proposedValue (c.handledBy i)
  backed : c.Backed net

theorem handledBy_append (c : Cluster) (message : Message) (i : ℤ) :
    (c.handled ++ [message]).filter (·.recipient = i)
      = c.handledBy i ++ if message.recipient = i then [message] else [] := by
  unfold handledBy
  rw [List.filter_append, List.filter_singleton, Bool.cond_decide]

/-- Handling the message at a place of the inboxes. -/
theorem step_spec
    {k : ℕ}
    (h : step net c k = some c') :
    ∃ message, c.inboxes[k]? = some message ∧
      c'.nodes = Function.update c.nodes message.recipient
        ((c.nodes message.recipient).handle net message).1 ∧
      c'.inboxes = c.inboxes.eraseIdx k ++
        ((c.nodes message.recipient).handle net message).2.filter (deliverable net) ∧
      c'.handled = c.handled ++ [message] := by
  unfold step at h
  split at h
  case h_1 => cases h
  case h_2 message hget =>
    obtain rfl := Option.some.inj h
    exact ⟨message, hget, rfl, rfl, rfl⟩

/-- Its outcome, which is none at a decided node. -/
theorem step_cases
    {k : ℕ}
    (h : step net c k = some c') :
    ∃ message node' sent, c.inboxes[k]? = some message ∧
      Node.Handles net (c.nodes message.recipient) message node' sent ∧
      ((c.nodes message.recipient).phase = .decided →
        node' = c.nodes message.recipient ∧ sent = []) ∧
      c'.nodes = Function.update c.nodes message.recipient node' ∧
      c'.inboxes = c.inboxes.eraseIdx k ++ sent.filter (deliverable net) ∧
      c'.handled = c.handled ++ [message] := by
  obtain ⟨message, hget, hnodes, hinboxes, hhandled⟩ := step_spec h
  refine ⟨message, _, _, hget, Node.handles_handle, fun hdecided => ?_, hnodes, hinboxes,
    hhandled⟩
  rw [Node.handle, if_pos hdecided]
  exact ⟨rfl, rfl⟩

/-- A new message was there before or has just been sent. -/
theorem mem_messages_of_step
    {k : ℕ} {message x : Message} {sent : List Message}
    (hget : c.inboxes[k]? = some message)
    (hinboxes : c'.inboxes = c.inboxes.eraseIdx k ++ sent.filter (deliverable net))
    (hhandled : c'.handled = c.handled ++ [message])
    (hx : x ∈ c'.messages) :
    x ∈ c.messages ∨ x ∈ sent := by
  unfold messages at hx ⊢
  rw [hinboxes, hhandled] at hx
  simp only [List.mem_append, List.mem_singleton, List.mem_filter] at hx ⊢
  rcases hx with (hx | rfl) | hx | hx
  · exact Or.inl (Or.inl hx)
  · exact Or.inl (Or.inr (List.mem_of_getElem? hget))
  · exact Or.inl (Or.inr (List.mem_of_mem_eraseIdx hx))
  · exact Or.inr hx.1

theorem Counting.step
    {k : ℕ}
    (hnet : net.WellFormed)
    (h : Counting net c)
    (hown : c.CountsOwn net k)
    (hstep : Cluster.step net c k = some c') :
    Counting net c' := by
  obtain ⟨message, node', sent, hget, hhandles, hdecided, hnodes, hinboxes, hhandled⟩ :=
    step_cases hstep
  set r := message.recipient with hr
  have hown : (c.nodes r).CountsOwn net message := hown message hget
  have hself : c'.nodes r = node' := by rw [hnodes, Function.update_self]
  have hother : ∀ i, i ≠ r → c'.nodes i = c.nodes i := fun i hi => by
    rw [hnodes, Function.update_of_ne hi]
  have hby : ∀ i, c'.handledBy i = c.handledBy i ++ if r = i then [message] else [] := fun i => by
    rw [handledBy, hhandled, handledBy_append]
  have hsame := hhandles.sameRole
  have hmode : (c.nodes r).faultMode = net.faultMode r := h.faultMode r
  have hreply : (c.nodes r).phase ≠ .decided → (c.nodes r).replySent = false := fun hopen =>
    Bool.eq_false_of_not_eq_true fun hsent => hopen (h.replied r hsent)
  refine ⟨fun i => ?_, fun i => ?_, fun i hreplied => ?_, fun i hhonest hcommit hphase => ?_, ?_⟩
  · by_cases hi : i = r
    · rw [hi, hself, hsame.id, h.id]
    · rw [hother i hi, h.id]
  · by_cases hi : i = r
    · rw [hi, hself, hsame.faultMode, h.faultMode]
    · rw [hother i hi, h.faultMode]
  · by_cases hi : i = r
    · rw [hi, hself] at hreplied ⊢
      by_cases hopen : (c.nodes r).phase = .decided
      · rw [(hdecided hopen).1]
        exact hopen
      · exact hhandles.replied (hreply hopen) hreplied
    · rw [hother i hi] at hreplied ⊢
      exact h.replied i hreplied
  · by_cases hi : i = r
    · subst hi
      rw [hself] at hcommit hphase ⊢
      have hopen : (c.nodes r).phase ≠ .decided := by
        intro hopen
        rw [(hdecided hopen).1] at hphase
        exact hphase hopen
      have hcommit₀ : (c.nodes r).commitSent = false :=
        Bool.eq_false_of_not_eq_true fun hsent => by
          rw [hhandles.commitSent hsent] at hcommit
          cases hcommit
      rw [hby r, if_pos rfl]
      exact hhandles.counted (hmode.trans hhonest) hcommit₀ hopen (hreply hopen) hown
        (h.counted r hhonest hcommit₀ hopen) hphase
    · rw [hother i hi] at hcommit hphase ⊢
      rw [hby i, if_neg (Ne.symm hi), List.append_nil]
      exact h.counted i hhonest hcommit hphase
  · intro x hx htype hhonest
    rcases mem_messages_of_step hget hinboxes hhandled hx with hx | hx
    · rw [hby]
      exact (h.backed x hx htype hhonest).trans
        (weightFor_mono hnet (List.subset_append_left _ _))
    · have hopen : (c.nodes r).phase ≠ .decided := by
        intro hopen
        rw [(hdecided hopen).2] at hx
        cases hx
      have hmode := hmode.symm.trans (hhandles.exists_of_commit hx htype).2.2.1
      have hback := hhandles.backed hnet hopen hown
        (fun hcommit => h.counted r hmode hcommit hopen) hx htype
      rw [hback.1, h.id, hby, if_pos rfl]
      exact hback.2

theorem counting_init (net : Network) (value : String) :
    Counting net (round net value).init where
  id _ := rfl
  faultMode _ := rfl
  replied _ h := nomatch h
  counted _ _ _ _ := Node.Uncounted.counted ⟨rfl, rfl⟩
  backed := by
    intro x hx htype
    rw [messages] at hx
    obtain rfl := List.mem_singleton.mp hx
    cases htype

/-- As long as the representatives count OUT_PREPAREs of the value that they propose, the
OUT_PREPAREs of the value of a COMMIT reach the threshold. -/
theorem commits_backed
    {numberOfNodes groupSize : ℕ} {faultMode : ℤ → FaultMode} {net : Network} {value : String}
    {c : Cluster}
    (hnet : Network.construct numberOfNodes groupSize faultMode = some net)
    (h : (round net value).Reachable (CountsOwn net) c) :
    c.Backed net := by
  have hcounting : Counting net c :=
    System.Reachable.invariant (counting_init net value)
      (fun _ _ _ _ hc hown hstep =>
        hc.step (Network.wellFormed_of_construct hnet) hown hstep) h
  exact hcounting.backed

section Runs

/-- The roles of seventeen nodes in groups of four. -/
def seventeenTopology : Topology :=
  ⟨14, [⟨0, [13, 16, 15, 10], 13⟩, ⟨1, [9, 12, 11, 7], 9⟩, ⟨2, [8, 5, 6, 3], 8⟩,
    ⟨3, [4, 1, 2, 0], 4⟩]⟩

theorem buildTopology_seventeen : buildTopology 17 4 = seventeenTopology := by
  decide +kernel

def seventeenNodes (faultMode : ℤ → FaultMode) : Network :=
  ⟨17, 4, seventeenTopology, faultMode⟩

theorem construct_seventeenNodes (faultMode : ℤ → FaultMode) :
    Network.construct 17 4 faultMode = some (seventeenNodes faultMode) := by
  rw [Network.construct, if_neg (by decide), if_neg (by decide), if_neg (by decide),
    buildTopology_seventeen]
  rfl

/-- Three voters of three groups receive the proposal and vote, and the representative of
the fourth group handles its own proposal and then the three certificates. -/
def threeCertificates : List ℕ :=
  [0, 12, 11, 7, 5, 5, 3, 1, 1, 0, 7, 7, 7, 7, 7, 7, 7, 7, 7, 4, 9, 15, 21]

/-- Without faults the COMMIT is backed. -/
theorem commits_backed_seventeenNodes :
    ∃ c : Cluster, (∃ x ∈ c.messages, x.type = .commit ∧ x.value = "v") ∧
      c.Backed (seventeenNodes fun _ => .honest) := by
  obtain ⟨c, hreach, hcommit⟩ : ∃ c : Cluster,
      (round (seventeenNodes fun _ => .honest) "v").Reaches
        (CountsOwn (seventeenNodes fun _ => .honest))
        (round (seventeenNodes fun _ => .honest) "v").init c ∧
      ∃ x ∈ c.messages, x.type = .commit ∧ x.value = "v" := by
    refine System.exists_reaches_of_exec threeCertificates ?_
    decide +kernel
  exact ⟨c, hcommit, commits_backed (construct_seventeenNodes _) hreach⟩

/-- The other members of three groups vote for a wrong value. -/
def wrongVoters (i : ℤ) : FaultMode :=
  if i ∈ ([12, 11, 7, 5, 6, 3, 1, 2, 0] : List ℤ) then .wrongValue else .honest

/-- The representative of the fourth group sends COMMIT for `"v"` although it has handled
certificates for `"v_WRONG"` only. -/
theorem commit_unbacked :
    ∃ (net : Network) (c : Cluster), Network.construct 17 4 wrongVoters = some net ∧
      (round net "v").Reachable System.anyStep c ∧ ¬c.Backed net := by
  obtain ⟨c, hreach, hbacked⟩ : ∃ c : Cluster,
      (round (seventeenNodes wrongVoters) "v").Reaches System.anyStep
        (round (seventeenNodes wrongVoters) "v").init c ∧
      ¬c.Backed (seventeenNodes wrongVoters) := by
    refine System.exists_reaches_of_exec threeCertificates ?_
    decide +kernel
  exact ⟨_, c, construct_seventeenNodes _, hreach, hbacked⟩

end Runs

end Cluster

end NbftSimulator
end DistributedConsensus
