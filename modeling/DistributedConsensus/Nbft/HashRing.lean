import DistributedConsensus.Foundations.Circle
import Mathlib.Data.List.Sort
import Mathlib.Data.Prod.Lex
import Mathlib.Data.String.Basic

/-!
# NBFT: the consistent-hash ring

The nodes stand on a ring by the hashes of their ids, and ties are broken by the id.
From the view and the hash of the previous block the ring gives the primary, the
groups that follow it clockwise, the representative of each group and the nodes that
are left without a group.

The hash function is a parameter.  What Python raises on a ring of one node or for a
group without members is an error of the model.
-/

namespace DistributedConsensus
namespace Nbft

open Foundations

/-- Roles of every node for one view and previous hash. -/
structure Membership where
  view : ℤ
  primary : String
  groups : List (List String)
  representatives : List String
  ungrouped : List String
deriving DecidableEq

namespace Membership

def groupOf (ms : Membership) (nodeId : String) : Option ℕ :=
  ms.groups.findIdx? fun members => decide (nodeId ∈ members)

def allNodes (ms : Membership) : List String :=
  ms.primary :: (ms.groups.flatten ++ ms.ungrouped)

/-- Every node of `ids` has one role, in `r` groups of `m` nodes. -/
structure Partitions (ms : Membership) (ids : List String) (m r : ℕ) : Prop where
  allNodes_perm : ms.allNodes.Perm ids
  length_groups : ms.groups.length = r
  length_group : ∀ members ∈ ms.groups, members.length = m
  length_representatives : ms.representatives.length = r
  representative_mem : ∀ p ∈ ms.groups.zip ms.representatives, p.2 ∈ p.1
  length_ungrouped : ms.ungrouped.length = ids.length - 1 - r * m

end Membership

/-- What the ring raises. -/
inductive RingError
  | duplicateIds
  | listIndexOutOfRange
  | moduloByZero
deriving DecidableEq

/-- A ring; the ids are distinct. -/
structure HashRing where
  ids : List String
  nodup : ids.Nodup

/-- The constructor of the ring refuses duplicates. -/
def HashRing.ofIds (ids : List String) : Except RingError HashRing :=
  if h : ids.Nodup then .ok ⟨ids, h⟩ else .error .duplicateIds

section Positions

variable (ringHash : String → ℕ)

/-- The position of a node, with the id as tie-break. -/
def position (nid : String) : ℕ ×ₗ String := toLex (ringHash nid, nid)

/-- The nodes in the order of the ring. -/
def sortedByPosition (ids : List String) : List String :=
  ids.insertionSort fun a b => position ringHash a ≤ position ringHash b

/-- First candidate at or after `point`, wrapping around the ring. -/
def clockwiseFrom (point : ℕ) (candidates : List String) : Except RingError String :=
  let pool := sortedByPosition ringHash candidates
  match pool.find? (fun nid => decide (point ≤ ringHash nid)) with
  | some nid => .ok nid
  | none =>
      match pool with
      | [] => .error .listIndexOutOfRange
      | nid :: _ => .ok nid

theorem position_injective : Function.Injective (position ringHash) := by
  intro a b h
  exact (Prod.mk.inj (toLex_inj.mp h)).2

theorem sortedByPosition_perm (ids : List String) : (sortedByPosition ringHash ids).Perm ids :=
  List.perm_insertionSort _ ids

/-- The order of the ring does not depend on the order of the ids. -/
theorem sortedByPosition_congr
    {ids ids' : List String}
    (h : ids.Perm ids') :
    sortedByPosition ringHash ids = sortedByPosition ringHash ids' := by
  have hanti : Std.Antisymm fun a b => position ringHash a ≤ position ringHash b :=
    ⟨fun a b hab hba => position_injective ringHash (le_antisymm hab hba)⟩
  have htotal : Std.Total fun a b => position ringHash a ≤ position ringHash b :=
    ⟨fun a b => le_total _ _⟩
  have htrans : IsTrans String fun a b => position ringHash a ≤ position ringHash b :=
    ⟨fun a b c => le_trans⟩
  refine List.Perm.eq_of_pairwise' (List.pairwise_insertionSort _ ids)
    (List.pairwise_insertionSort _ ids') ?_
  exact (sortedByPosition_perm ringHash ids).trans
    (h.trans (sortedByPosition_perm ringHash ids').symm)

/-- Among candidates there is a first one clockwise. -/
theorem exists_clockwiseFrom
    {point : ℕ} {candidates : List String}
    (hne : candidates ≠ []) :
    ∃ nid ∈ candidates, clockwiseFrom ringHash point candidates = .ok nid := by
  have hmem : ∀ nid ∈ sortedByPosition ringHash candidates, nid ∈ candidates :=
    fun nid => (sortedByPosition_perm ringHash candidates).mem_iff.mp
  unfold clockwiseFrom
  cases hfind : (sortedByPosition ringHash candidates).find?
      (fun nid => decide (point ≤ ringHash nid)) with
  | some nid => exact ⟨nid, hmem nid (List.mem_of_find?_eq_some hfind), by simp [hfind]⟩
  | none =>
      cases hpool : sortedByPosition ringHash candidates with
      | nil =>
          have hperm := sortedByPosition_perm ringHash candidates
          rw [hpool] at hperm
          exact absurd hperm.nil_eq.symm hne
      | cons nid pool =>
          rw [hpool] at hfind
          exact ⟨nid, hmem nid (by simp [hpool]), by simp [hfind]⟩

end Positions

namespace HashRing

variable (ringHash : String → ℕ) (ring : HashRing)

def ordered : List String := sortedByPosition ringHash ring.ids

/-- The nearest node clockwise from the hash of the last primary, the previous hash
and the view; at the very first grouping the first node of the ring. -/
def electPrimary (view : ℤ) (previousHash : String) (prevMaster : Option String) :
    Except RingError String :=
  if prevMaster = none ∧ view = 0 then
    match ring.ordered ringHash with
    | [] => .error .listIndexOutOfRange
    | nid :: _ => .ok nid
  else
    clockwiseFrom ringHash
      (ringHash (prevMaster.getD "" ++ "|" ++ previousHash ++ "|" ++ toString view))
      (ring.ordered ringHash)

/-- The start of the groups moves on by one place every `n` views. -/
def offset (view : ℤ) (others : List String) : Except RingError ℕ :=
  if others.length = 0 then .error .moduloByZero
  else .ok (view / (ring.ordered ringHash).length % others.length).toNat

/-- The representatives of the groups, by the hash of the primary, the view and the
number of the group. -/
def electRepresentatives (primary : String) (view : ℤ) (groups : List (List String)) :
    Except RingError (List String) :=
  groups.zipIdx.mapM fun (members, g) =>
    clockwiseFrom ringHash (ringHash (primary ++ "|" ++ toString view ++ "|" ++ toString g)) members

/-- Compute primary, groups, and representatives for one round. -/
def membership (view : ℤ) (previousHash : String) (prevMaster : Option String) (m r : ℕ) :
    Except RingError Membership := do
  let primary ← ring.electPrimary ringHash view previousHash prevMaster
  let others := walk (ring.ordered ringHash) ((ring.ordered ringHash).idxOf primary)
  let offset ← ring.offset ringHash view others
  let others := others.drop offset ++ others.take offset
  let groups := blocks others m r
  let representatives ← electRepresentatives ringHash primary view groups
  return ⟨view, primary, groups, representatives, others.drop (r * m)⟩

variable {ringHash ring}

theorem ordered_perm : (ring.ordered ringHash).Perm ring.ids :=
  sortedByPosition_perm ringHash ring.ids

@[simp] theorem length_ordered : (ring.ordered ringHash).length = ring.ids.length :=
  ordered_perm.length_eq

theorem exists_electPrimary
    {view : ℤ} {previousHash : String} {prevMaster : Option String}
    (hne : ring.ids ≠ []) :
    ∃ nid ∈ ring.ordered ringHash,
      ring.electPrimary ringHash view previousHash prevMaster = .ok nid := by
  have hordered : ring.ordered ringHash ≠ [] := by
    intro h
    have hlength := @length_ordered ringHash ring
    rw [h, List.length_nil] at hlength
    exact hne (List.length_eq_zero_iff.mp hlength.symm)
  unfold electPrimary
  split
  · cases hfirst : ring.ordered ringHash with
    | nil => exact absurd hfirst hordered
    | cons nid rest => exact ⟨nid, List.mem_cons_self, rfl⟩
  · exact exists_clockwiseFrom ringHash hordered

/-- Every group with members has a representative among them. -/
theorem exists_electRepresentatives
    {primary : String} {view : ℤ} {groups : List (List String)}
    (hne : ∀ members ∈ groups, members ≠ []) :
    ∃ reps, electRepresentatives ringHash primary view groups = .ok reps ∧
      reps.length = groups.length ∧ ∀ p ∈ groups.zip reps, p.2 ∈ p.1 := by
  have hfrom : ∀ start, ∃ reps, (groups.zipIdx start).mapM (fun (members, g) =>
      clockwiseFrom ringHash (ringHash (primary ++ "|" ++ toString view ++ "|" ++ toString g))
        members) = .ok reps ∧ reps.length = groups.length ∧
        ∀ p ∈ groups.zip reps, p.2 ∈ p.1 := by
    induction groups with
    | nil => exact fun start => ⟨[], rfl, rfl, nofun⟩
    | cons members groups ih =>
        intro start
        obtain ⟨nid, hmem, hnid⟩ := @exists_clockwiseFrom ringHash
          (ringHash (primary ++ "|" ++ toString view ++ "|" ++ toString start)) members
          (hne members List.mem_cons_self)
        obtain ⟨reps, hreps, hlength, hzip⟩ :=
          ih (fun ms hms => hne ms (List.mem_cons_of_mem _ hms)) (start + 1)
        refine ⟨nid :: reps, ?_, by rw [List.length_cons, List.length_cons, hlength], ?_⟩
        · rw [List.zipIdx_cons, List.mapM_cons]
          simp only [hnid, hreps]
          rfl
        · intro p hp
          rw [List.zip_cons_cons, List.mem_cons] at hp
          rcases hp with rfl | hp
          · exact hmem
          · exact hzip p hp
  exact hfrom 0

/-- The roles do not depend on the order in which the ids are given. -/
theorem membership_congr
    {ring' : HashRing} {view : ℤ} {previousHash : String} {prevMaster : Option String} {m r : ℕ}
    (h : ring.ids.Perm ring'.ids) :
    ring.membership ringHash view previousHash prevMaster m r
      = ring'.membership ringHash view previousHash prevMaster m r := by
  have hordered : ring.ordered ringHash = ring'.ordered ringHash :=
    sortedByPosition_congr ringHash h
  unfold membership electPrimary offset
  rw [hordered]

/-- With at least two nodes and groups that have members, the roles partition the
nodes. -/
theorem exists_membership
    {view : ℤ} {previousHash : String} {prevMaster : Option String} {m r : ℕ}
    (hnodes : 2 ≤ ring.ids.length)
    (hm : r = 0 ∨ 0 < m)
    (hfit : r * m < ring.ids.length) :
    ∃ ms, ring.membership ringHash view previousHash prevMaster m r = .ok ms ∧
      ms.Partitions ring.ids m r := by
  obtain ⟨primary, hprimary, helect⟩ := @exists_electPrimary ringHash ring view previousHash
    prevMaster (List.ne_nil_of_length_pos (by omega))
  let others := walk (ring.ordered ringHash) ((ring.ordered ringHash).idxOf primary)
  have hothers : others.length = ring.ids.length - 1 := by
    rw [length_walk, length_ordered]
  have hperm : (primary :: others).Perm ring.ids := by
    refine (cons_walk_perm ?_).trans ordered_perm
    exact List.getElem?_idxOf hprimary
  let shift := (view / (ring.ordered ringHash).length % others.length).toNat
  have hoffset : ring.offset ringHash view others = .ok shift := if_neg (by omega)
  let rotated := others.drop shift ++ others.take shift
  have hrotated : rotated.Perm others := by
    have hswap := (@List.perm_append_comm _ (others.drop shift) (others.take shift))
    rwa [List.take_append_drop] at hswap
  have hlength : rotated.length = ring.ids.length - 1 := hrotated.length_eq.trans hothers
  have hfull : ∀ members ∈ blocks rotated m r, members.length = m :=
    fun members => length_of_mem_blocks (by omega)
  obtain ⟨reps, hreps, hcount, hmem⟩ := @exists_electRepresentatives ringHash
    primary view (blocks rotated m r) (by
      intro members hmembers hnil
      have hzero := hfull members hmembers
      rw [hnil, List.length_nil] at hzero
      rcases hm with rfl | hpos
      · simp [blocks] at hmembers
      · omega)
  refine ⟨⟨view, primary, blocks rotated m r, reps, rotated.drop (r * m)⟩, ?_, ?_⟩
  · unfold membership
    rw [helect]
    simp only [bind, Except.bind]
    rw [hoffset]
    simp only
    rw [hreps]
    rfl
  · refine ⟨?_, length_blocks _ _ _, hfull, hcount.trans (length_blocks _ _ _), hmem, ?_⟩
    · unfold Membership.allNodes
      rw [flatten_blocks]
      exact (hrotated.cons primary).trans hperm
    · rw [List.length_drop, hlength]

end HashRing

/-- The ring on the ids, and the roles of one round on it. -/
def rolesOf (ringHash : String → ℕ) (ids : List String) (view : ℤ) (previousHash : String)
    (prevMaster : Option String) (m r : ℕ) : Except RingError Membership := do
  let ring ← HashRing.ofIds ids
  ring.membership ringHash view previousHash prevMaster m r

/-- From two nodes on, with groups that have members, every order of the ids gives the
same roles, and they partition the nodes. -/
theorem membership_partitions
    (ringHash : String → ℕ)
    (ids : List String)
    (view : ℤ)
    (previousHash : String)
    (prevMaster : Option String)
    (m r : ℕ)
    (hdistinct : ids.Nodup)
    (hnodes : 2 ≤ ids.length)
    (hm : r = 0 ∨ 0 < m)
    (hfit : r * m < ids.length) :
    ∃ ms : Membership, ms.Partitions ids m r ∧
      ∀ ids', ids'.Perm ids → rolesOf ringHash ids' view previousHash prevMaster m r = .ok ms := by
  obtain ⟨ms, hms, hpartitions⟩ := @HashRing.exists_membership ringHash ⟨ids, hdistinct⟩ view
    previousHash prevMaster m r hnodes hm hfit
  refine ⟨ms, hpartitions, ?_⟩
  intro ids' hperm
  have hdistinct' : ids'.Nodup := hperm.nodup_iff.mpr hdistinct
  have hring : HashRing.ofIds ids' = .ok ⟨ids', hdistinct'⟩ := dif_pos hdistinct'
  unfold rolesOf
  rw [hring]
  exact (HashRing.membership_congr hperm).trans hms

/-- Five nodes in two groups of two. -/
theorem membership_partitions_five :
    ∃ ms : Membership, ms.Partitions ["a", "b", "c", "d", "e"] 2 2 ∧
      ∀ ids', ids'.Perm ["a", "b", "c", "d", "e"] →
        rolesOf String.length ids' 7 "genesis" (some "c") 2 2 = .ok ms :=
  membership_partitions String.length ["a", "b", "c", "d", "e"] 7 "genesis" (some "c") 2 2
    (by decide) (by decide) (Or.inr (by decide)) (by decide)

/-- On a ring of one node the offset is taken modulo zero. -/
theorem not_membership_partitions :
    ¬∀ (ringHash : String → ℕ) (ids : List String) (view : ℤ) (previousHash : String)
      (prevMaster : Option String) (m r : ℕ), ids.Nodup → r * m < ids.length →
      ∃ ms : Membership, ms.Partitions ids m r ∧
        rolesOf ringHash ids view previousHash prevMaster m r = .ok ms := by
  intro hall
  obtain ⟨ms, -, hms⟩ := hall String.length ["a"] 0 "genesis" none 4 0 (by decide) (by decide)
  have herror : rolesOf String.length ["a"] 0 "genesis" none 4 0 = .error .moduloByZero := rfl
  rw [herror] at hms
  cases hms

end Nbft
end DistributedConsensus
