import DistributedConsensus.Foundations.Circle
import Mathlib.Algebra.Group.Nat.Defs
import Mathlib.Data.Finset.Card
import Mathlib.Data.List.Sort

/-!
# NBFT simulator: the network

`Message.hpp` and the part of `Network.cpp` that fixes the roles: the checks of the
constructor, the thresholds and `buildTopology`, which takes the primary and the groups
with their representatives from a ring of hashes.

The number of a message and the client side are left out, and so are the scenarios: the
fault modes of the nodes are arbitrary.
-/

namespace DistributedConsensus
namespace NbftSimulator

open Foundations

inductive MessageType
  | clientRequest
  | prePrepare1
  | inPrepare1
  | inPrepare2
  | outPrepare
  | commit
  | prePrepare2
  | reply
deriving DecidableEq

/-- `CLIENT_ID`. -/
def clientId : ℤ := -1

structure Message where
  type : MessageType := .clientRequest
  sender : ℤ := clientId
  recipient : ℤ := clientId
  view : ℤ := 0
  sequenceNumber : ℤ := 1
  groupId : ℤ := -1
  value : String := ""
  signatures : Finset ℤ := ∅
  voteWeight : ℕ := 0
  nodeDecision : Bool := false
deriving DecidableEq

inductive FaultMode
  | honest
  | wrongValue
  | lowSignatures
  | silent
deriving DecidableEq

structure Group where
  id : ℤ
  members : List ℤ
  representativeId : ℤ
deriving DecidableEq

structure RingEntry where
  nodeId : ℤ
  hash : ℕ

structure Topology where
  primaryId : ℤ
  groups : List Group
deriving DecidableEq

section Topology

/-- The 32-bit FNV-1a hash. -/
def hashText (text : String) : ℕ :=
  text.toUTF8.toList.foldl (fun hash c => (hash ^^^ c.toNat) * 16777619 % 2 ^ 32) 2166136261

def buildHashRing (numberOfNodes : ℕ) : List RingEntry :=
  ((List.range numberOfNodes).map fun nodeId : ℕ =>
      (⟨Int.ofNat nodeId, hashText ("10.0.0." ++ toString (nodeId + 1))⟩ : RingEntry)).insertionSort
    fun left right => left.hash < right.hash ∨ left.hash = right.hash ∧ left.nodeId ≤ right.nodeId

/-- The first node at or after the target; the rings of the source have one. -/
def clockwiseNode (target : ℕ) (ring : List RingEntry) : ℤ :=
  match ring.find? fun entry => decide (target ≤ entry.hash) with
  | some entry => entry.nodeId
  | none => (ring.head?.map (·.nodeId)).getD (-1)

/-- The initial `view_` of the network, which never changes. -/
def view : ℕ := 0

def masterIp : String := "10.0.0.1"

def previousHash : String := "GENESIS_BLOCK_HASH"

/-- The nodes of the ring but the primary, from the first one of the view on. -/
def orderedNodes (numberOfNodes : ℕ) (primaryId : ℤ) : List ℤ :=
  ((List.range numberOfNodes).filterMap fun offset =>
    ((buildHashRing numberOfNodes)[(view / numberOfNodes % numberOfNodes + offset) %
      numberOfNodes]?).map (·.nodeId)).filter (· ≠ primaryId)

def buildTopology (numberOfNodes groupSize : ℕ) : Topology :=
  let ring := buildHashRing numberOfNodes
  let primaryId := clockwiseNode (hashText (masterIp ++ previousHash ++ toString view)) ring
  { primaryId := primaryId
    groups := (blocks (orderedNodes numberOfNodes primaryId) groupSize
      ((numberOfNodes - 1) / groupSize)).zipIdx.map fun (members, groupId) =>
        { id := groupId
          members := members
          representativeId := clockwiseNode
            (hashText (masterIp ++ toString view ++ toString groupId))
            (ring.filter fun entry => entry.nodeId ∈ members) } }

end Topology

structure Network where
  numberOfNodes : ℕ
  groupSize : ℕ
  topology : Topology
  faultMode : ℤ → FaultMode

namespace Network

variable (net : Network)

/-- `E_`, the tolerated faults of a group. -/
def E : ℕ := (net.groupSize - 1) / 3

/-- `R_`, the number of groups. -/
def R : ℕ := (net.numberOfNodes - 1) / net.groupSize

/-- `w_`, the tolerated faulty groups. -/
def w : ℕ := (net.R - 1) / 3

def localQuorum : ℕ := 2 * net.E + 1

def globalThreshold : ℕ := (net.R - net.w) * net.groupSize

/-- The constructor followed by `initialize`; `none` where the constructor throws. -/
def construct (numberOfNodes groupSize : ℕ) (faultMode : ℤ → FaultMode) : Option Network :=
  if groupSize < 4 ∨ (groupSize - 1) % 3 ≠ 0 then none
  else if (numberOfNodes - 1) % groupSize ≠ 0 then none
  else if (numberOfNodes - 1) / groupSize < 4 then none
  else some ⟨numberOfNodes, groupSize, buildTopology numberOfNodes groupSize, faultMode⟩

def representativeForGroup (groupId : ℤ) : ℤ :=
  if groupId < 0 ∨ net.topology.groups.length ≤ groupId then -1
  else ((net.topology.groups[groupId.toNat]?).map (·.representativeId)).getD (-1)

/-- `nodeToGroup_` at a node; `-1` for the primary. -/
def groupOf (nodeId : ℤ) : ℤ :=
  ((net.topology.groups.find? fun group => decide (nodeId ∈ group.members)).map (·.id)).getD (-1)

/-- The node is one of the group in `nodeToGroup_`. -/
def nodeBelongsToGroup (nodeId groupId : ℤ) : Bool :=
  (net.topology.groups.find? fun group => decide (nodeId ∈ group.members)).any
    (·.id = groupId)

def isRepresentative (nodeId : ℤ) : Bool :=
  net.topology.groups.any (·.representativeId = nodeId)

/-- `validGroupSignatures`. -/
def validGroupSignatures (signatures : Finset ℤ) (groupId : ℤ) : Prop :=
  ∀ signer ∈ signatures, net.nodeBelongsToGroup signer groupId = true

instance (signatures : Finset ℤ) (groupId : ℤ) :
    Decidable (net.validGroupSignatures signatures groupId) :=
  inferInstanceAs (Decidable (∀ signer ∈ signatures, net.nodeBelongsToGroup signer groupId = true))

section Broadcasts

def broadcastToReplicas (message : Message) : List Message :=
  (((List.range net.numberOfNodes).map Int.ofNat).filter (· ≠ net.topology.primaryId)).map
    fun nodeId => { message with recipient := nodeId }

def broadcastToGroup (message : Message) (groupId excludedNode : ℤ) : List Message :=
  (((net.topology.groups[groupId.toNat]?).map (·.members)).getD [] |>.filter
    (· ≠ excludedNode)).map fun nodeId => { message with recipient := nodeId }

def broadcastToRepresentatives (message : Message) : List Message :=
  net.topology.groups.map fun group => { message with recipient := group.representativeId }

def broadcastToOtherRepresentatives (message : Message) (excludedGroup : ℤ) : List Message :=
  (net.topology.groups.filter (·.id ≠ excludedGroup)).map
    fun group => { message with recipient := group.representativeId }

end Broadcasts

end Network

section Roles

/-- Every node but the primary is in one group, and the representative of a group is one
of its members. -/
structure Network.WellFormed (net : Network) : Prop where
  quorum : net.groupSize = 3 * net.E + 1
  one_le_E : 1 ≤ net.E
  four_le_R : 4 ≤ net.R
  numberOfNodes : net.numberOfNodes = net.R * net.groupSize + 1
  length_groups : net.topology.groups.length = net.R
  id : ∀ (i : ℕ) (group : Group), net.topology.groups[i]? = some group → group.id = i
  length_members : ∀ group ∈ net.topology.groups, group.members.length = net.groupSize
  representative_mem : ∀ group ∈ net.topology.groups, group.representativeId ∈ group.members
  partition : (net.topology.primaryId :: net.topology.groups.flatMap (·.members)).Perm
    ((List.range net.numberOfNodes).map Int.ofNat)

theorem clockwiseNode_mem
    {target : ℕ} {ring : List RingEntry}
    (hne : ring ≠ []) :
    clockwiseNode target ring ∈ ring.map (·.nodeId) := by
  unfold clockwiseNode
  split
  case h_1 entry hfind => exact List.mem_map_of_mem (List.mem_of_find?_eq_some hfind)
  case h_2 =>
    cases ring with
    | nil => exact absurd rfl hne
    | cons entry ring => exact List.mem_cons_self

theorem buildHashRing_perm (n : ℕ) :
    ((buildHashRing n).map (·.nodeId)).Perm ((List.range n).map Int.ofNat) := by
  have hperm := (List.perm_insertionSort (fun left right : RingEntry => left.hash < right.hash ∨
    left.hash = right.hash ∧ left.nodeId ≤ right.nodeId)
    ((List.range n).map fun nodeId : ℕ =>
      (⟨Int.ofNat nodeId, hashText ("10.0.0." ++ toString (nodeId + 1))⟩ : RingEntry))).map
      (·.nodeId)
  rw [List.map_map] at hperm
  exact hperm

theorem orderedNodes_eq (n : ℕ) (primaryId : ℤ) :
    orderedNodes n primaryId = ((buildHashRing n).map (·.nodeId)).filter (· ≠ primaryId) := by
  unfold orderedNodes
  have hlength : (buildHashRing n).length = n := by
    have h := (buildHashRing_perm n).length_eq
    rwa [List.length_map, List.length_map, List.length_range] at h
  have hstart : view / n % n = 0 := by
    rw [view, Nat.zero_div, Nat.zero_mod]
  have hall : (List.range n).filterMap (fun offset =>
      ((buildHashRing n)[(view / n % n + offset) % n]?).map (·.nodeId))
        = (buildHashRing n).map (·.nodeId) := by
    have hwalk := filterMap_getElem?_range ((buildHashRing n).map (·.nodeId))
    rw [List.length_map, hlength] at hwalk
    rw [← hwalk]
    refine List.filterMap_congr fun offset hoffset => ?_
    rw [hstart, Nat.zero_add, Nat.mod_eq_of_lt (List.mem_range.mp hoffset), List.getElem?_map]
  rw [hall]

theorem nodup_buildHashRing (n : ℕ) : ((buildHashRing n).map (·.nodeId)).Nodup := by
  rw [(buildHashRing_perm n).nodup_iff]
  exact List.nodup_range.map fun a b h => Int.ofNat.inj h

/-- The primary and the other nodes are all nodes. -/
theorem cons_orderedNodes_perm
    {n : ℕ} {primaryId : ℤ}
    (h : primaryId ∈ (buildHashRing n).map (·.nodeId)) :
    (primaryId :: orderedNodes n primaryId).Perm ((List.range n).map Int.ofNat) := by
  have herase := List.perm_cons_erase h
  rw [(nodup_buildHashRing n).erase_eq_filter] at herase
  rw [orderedNodes_eq]
  refine List.Perm.trans (List.Perm.of_eq (congrArg _ (List.filter_congr fun x _ => ?_)))
    (herase.symm.trans (buildHashRing_perm n))
  by_cases hx : x = primaryId
  · simp [hx]
  · simp [hx]

theorem map_members_buildTopology (n m : ℕ) :
    (buildTopology n m).groups.map (·.members)
      = blocks (orderedNodes n (buildTopology n m).primaryId) m ((n - 1) / m) := by
  unfold buildTopology
  rw [List.map_map]
  exact List.zipIdx_map_fst 0 _

theorem id_buildTopology
    {n m i : ℕ} {group : Group}
    (h : (buildTopology n m).groups[i]? = some group) :
    group.id = i := by
  unfold buildTopology at h
  simp only [List.getElem?_map, List.getElem?_zipIdx, Option.map_eq_some_iff] at h
  obtain ⟨p, ⟨members, -, rfl⟩, rfl⟩ := h
  simp

theorem representative_mem_buildTopology
    {n m : ℕ} {group : Group}
    (hgroup : group ∈ (buildTopology n m).groups)
    (hne : group.members ≠ []) :
    group.representativeId ∈ group.members := by
  have hsub : ∀ x ∈ group.members, x ∈ (buildHashRing n).map (·.nodeId) := by
    intro x hx
    have hblock : group.members ∈
        blocks (orderedNodes n (buildTopology n m).primaryId) m ((n - 1) / m) := by
      rw [← map_members_buildTopology]
      exact List.mem_map_of_mem hgroup
    have hin : x ∈ orderedNodes n (buildTopology n m).primaryId := by
      rw [← flatten_blocks (orderedNodes n (buildTopology n m).primaryId) m ((n - 1) / m)]
      exact List.mem_append_left _ (List.mem_flatten.mpr ⟨group.members, hblock, hx⟩)
    rw [orderedNodes_eq] at hin
    exact List.mem_of_mem_filter hin
  obtain ⟨target, htarget⟩ : ∃ target, group.representativeId = clockwiseNode target
      ((buildHashRing n).filter fun entry => entry.nodeId ∈ group.members) := by
    unfold buildTopology at hgroup
    obtain ⟨⟨members, g⟩, -, rfl⟩ := List.mem_map.mp hgroup
    exact ⟨_, rfl⟩
  have hring : (buildHashRing n).filter (fun entry => entry.nodeId ∈ group.members) ≠ [] := by
    intro hnil
    obtain ⟨x, hx⟩ := List.exists_mem_of_ne_nil _ hne
    obtain ⟨entry, hentry, rfl⟩ := List.mem_map.mp (hsub x hx)
    have hmem : entry ∈ (buildHashRing n).filter fun entry => entry.nodeId ∈ group.members :=
      List.mem_filter.mpr ⟨hentry, decide_eq_true hx⟩
    rw [hnil] at hmem
    cases hmem
  obtain ⟨entry, hentry, heq⟩ := List.mem_map.mp (@clockwiseNode_mem target _ hring)
  have hin := (List.mem_filter.mp hentry).2
  rw [htarget, ← heq]
  exact of_decide_eq_true hin

/-- The constructor accepts well-formed networks only. -/
theorem Network.wellFormed_of_construct
    {n m : ℕ} {faultMode : ℤ → FaultMode} {net : Network}
    (h : construct n m faultMode = some net) :
    net.WellFormed := by
  obtain ⟨hsize, hdivides, hgroups, rfl⟩ : (4 ≤ m ∧ (m - 1) % 3 = 0) ∧ (n - 1) % m = 0 ∧
      4 ≤ (n - 1) / m ∧ net = ⟨n, m, buildTopology n m, faultMode⟩ := by
    unfold construct at h
    split at h
    case isTrue => cases h
    case isFalse hsize =>
      split at h
      case isTrue => cases h
      case isFalse hdivides =>
        split at h
        case isTrue => cases h
        case isFalse hgroups =>
          exact ⟨by omega, not_not.mp hdivides, not_lt.mp hgroups, (Option.some.inj h).symm⟩
  have hn : n = (n - 1) / m * m + 1 := by
    have hmul := Nat.div_mul_cancel (Nat.dvd_of_mod_eq_zero hdivides)
    have hle := Nat.mul_le_mul hgroups hsize.1
    omega
  have hring : buildHashRing n ≠ [] := by
    intro hnil
    have hlength := (buildHashRing_perm n).length_eq
    rw [hnil, List.map_nil, List.length_nil, List.length_map, List.length_range] at hlength
    omega
  have hordered : ((buildTopology n m).primaryId ::
      orderedNodes n (buildTopology n m).primaryId).Perm ((List.range n).map Int.ofNat) :=
    cons_orderedNodes_perm (clockwiseNode_mem hring)
  have hlength : (orderedNodes n (buildTopology n m).primaryId).length = (n - 1) / m * m := by
    have hle := hordered.length_eq
    rw [List.length_cons, List.length_map, List.length_range] at hle
    omega
  have hmembers := map_members_buildTopology n m
  have hsizes : ∀ group ∈ (buildTopology n m).groups, group.members.length = m := by
    intro group hgroup
    refine length_of_mem_blocks hlength.ge ?_
    rw [← hmembers]
    exact List.mem_map_of_mem hgroup
  constructor
  · change m = 3 * ((m - 1) / 3) + 1
    omega
  · change 1 ≤ (m - 1) / 3
    omega
  · exact hgroups
  · exact hn
  · have hcount := congrArg List.length hmembers
    rwa [List.length_map, length_blocks] at hcount
  · exact fun i group hget => id_buildTopology hget
  · exact hsizes
  · intro group hgroup
    refine representative_mem_buildTopology hgroup (List.ne_nil_of_length_pos ?_)
    rw [hsizes group hgroup]
    omega
  · have hall := flatten_blocks (orderedNodes n (buildTopology n m).primaryId) m ((n - 1) / m)
    rw [List.drop_eq_nil_of_le hlength.le, List.append_nil] at hall
    change ((buildTopology n m).primaryId :: (buildTopology n m).groups.flatMap (·.members)).Perm _
    rw [List.flatMap_def, hmembers, hall]
    exact hordered

end Roles

section Members

variable {net : Network} {group group' : Group} {i : ℤ}

namespace Network.WellFormed

theorem nodup
    (h : net.WellFormed) :
    (net.topology.primaryId :: net.topology.groups.flatMap (·.members)).Nodup := by
  rw [h.partition.nodup_iff]
  exact List.nodup_range.map fun a b hab => Int.ofNat.inj hab

theorem mem_iff
    (h : net.WellFormed) :
    i = net.topology.primaryId ∨ (∃ group ∈ net.topology.groups, i ∈ group.members) ↔
      0 ≤ i ∧ i < net.numberOfNodes := by
  have hmem := h.partition.mem_iff (a := i)
  rw [List.mem_cons, List.mem_flatMap] at hmem
  rw [hmem]
  simp only [List.mem_map, List.mem_range, Int.ofNat_eq_natCast]
  constructor
  · rintro ⟨k, hk, rfl⟩
    omega
  · rintro ⟨hnonneg, hlt⟩
    exact ⟨i.toNat, by omega, by omega⟩

theorem ne_primary
    (h : net.WellFormed)
    (hgroup : group ∈ net.topology.groups)
    (hi : i ∈ group.members) :
    i ≠ net.topology.primaryId := by
  rintro rfl
  exact (List.nodup_cons.mp h.nodup).1 (List.mem_flatMap.mpr ⟨group, hgroup, hi⟩)

/-- A node is in one group. -/
theorem group_unique
    (h : net.WellFormed)
    (hgroup : group ∈ net.topology.groups)
    (hgroup' : group' ∈ net.topology.groups)
    (hi : i ∈ group.members)
    (hi' : i ∈ group'.members) :
    group = group' := by
  have hdisjoint := (List.nodup_flatMap.mp (List.nodup_cons.mp h.nodup).2).2
  rw [List.pairwise_iff_getElem] at hdisjoint
  obtain ⟨a, ha, rfl⟩ := List.getElem_of_mem hgroup
  obtain ⟨b, hb, rfl⟩ := List.getElem_of_mem hgroup'
  rcases lt_trichotomy a b with hlt | rfl | hlt
  · exact (hdisjoint a b ha hb hlt hi hi').elim
  · rfl
  · exact (hdisjoint b a hb ha hlt hi' hi).elim

theorem find_group
    (h : net.WellFormed)
    (hgroup : group ∈ net.topology.groups)
    (hi : i ∈ group.members) :
    (net.topology.groups.find? fun group => decide (i ∈ group.members)) = some group := by
  cases hfind : net.topology.groups.find? fun group => decide (i ∈ group.members) with
  | none =>
      have hnone := List.find?_eq_none.mp hfind group hgroup
      exact absurd (decide_eq_true hi) hnone
  | some group' =>
      have hi' := List.find?_some hfind
      rw [h.group_unique hgroup (List.mem_of_find?_eq_some hfind) hi (of_decide_eq_true hi')]

theorem groupOf_eq
    (h : net.WellFormed)
    (hgroup : group ∈ net.topology.groups)
    (hi : i ∈ group.members) :
    net.groupOf i = group.id := by
  rw [groupOf, h.find_group hgroup hi]
  rfl

theorem belongs
    (h : net.WellFormed)
    (hgroup : group ∈ net.topology.groups)
    (hi : i ∈ group.members) :
    net.nodeBelongsToGroup i group.id = true := by
  rw [nodeBelongsToGroup, h.find_group hgroup hi]
  exact decide_eq_true rfl

theorem groupOf_primary
    (h : net.WellFormed) :
    net.groupOf net.topology.primaryId = -1 := by
  have hnone : (net.topology.groups.find? fun group =>
      decide (net.topology.primaryId ∈ group.members)) = none := by
    rw [List.find?_eq_none]
    intro group hgroup hmem
    exact h.ne_primary hgroup (of_decide_eq_true hmem) rfl
  rw [groupOf, hnone]
  rfl

theorem id_nonneg
    (h : net.WellFormed)
    (hgroup : group ∈ net.topology.groups) :
    0 ≤ group.id := by
  obtain ⟨k, hk⟩ := List.getElem?_of_mem hgroup
  rw [h.id k group hk]
  exact Int.natCast_nonneg k

theorem nodup_ids
    (h : net.WellFormed) :
    (net.topology.groups.map (·.id)).Nodup := by
  have hids : net.topology.groups.map (·.id)
      = (List.range net.topology.groups.length).map Int.ofNat := by
    refine List.ext_getElem (by simp) fun k hk _ => ?_
    rw [List.length_map] at hk
    rw [List.getElem_map, List.getElem_map, List.getElem_range]
    exact h.id k _ (List.getElem?_eq_getElem hk)
  rw [hids]
  exact List.nodup_range.map fun a b hab => Int.ofNat.inj hab

theorem representativeForGroup_id
    (h : net.WellFormed)
    (hgroup : group ∈ net.topology.groups) :
    net.representativeForGroup group.id = group.representativeId := by
  obtain ⟨k, hk⟩ := List.getElem?_of_mem hgroup
  obtain ⟨hlt, -⟩ := List.getElem?_eq_some_iff.mp hk
  rw [representativeForGroup, h.id k group hk, if_neg (by omega), Int.toNat_natCast, hk]
  rfl

theorem representative_lt
    (h : net.WellFormed)
    (hgroup : group ∈ net.topology.groups) :
    0 ≤ group.representativeId ∧ group.representativeId < net.numberOfNodes :=
  h.mem_iff.mp (Or.inr ⟨group, hgroup, h.representative_mem group hgroup⟩)

theorem isRepresentative
    (hgroup : group ∈ net.topology.groups) :
    net.isRepresentative group.representativeId = true :=
  List.any_eq_true.mpr ⟨group, hgroup, decide_eq_true rfl⟩

end Network.WellFormed

end Members

end NbftSimulator
end DistributedConsensus
