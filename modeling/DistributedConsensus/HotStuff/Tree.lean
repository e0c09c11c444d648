import DistributedConsensus.HotStuff.Types

/-!
# HotStuff: the block tree

The class `Tree` of `hotstuff/tree.py` and the walks along parent links that
the replicas perform.  Every walk of the source is a loop of the same shape:
follow `parent_hash` while the node is present and a condition holds.  Since a
digest contains the digest of its parent, the loops are structural recursions
on the digest of the current node.

The main results say what a complete walk has visited: `extends_of_reaches`
for `extends`, and `path_eq_append_branch` for the loops that collect the part
of a branch that has not been executed yet.
-/

namespace DistributedConsensus
namespace HotStuff

variable {Cmd : Type} [Application Cmd]

/-- The stored nodes, looked up by hash; the genesis block is always present. -/
structure Tree (Cmd : Type) [Application Cmd] where
  nodes : List (Node Cmd)
  genesis_mem : genesisHash ∈ nodes.map Node.hash

namespace Tree

/-- The tree of a new replica. -/
def new : Tree Cmd := ⟨[genesis], by simp⟩

/-- Store a node under its hash, replacing a node with the same hash. -/
def add (t : Tree Cmd) (b : Node Cmd) : Tree Cmd where
  nodes := b :: t.nodes.filter (fun x => x.hash ≠ b.hash)
  genesis_mem := by
    by_cases h : genesisHash = b.hash
    · rw [h]
      simp
    · obtain ⟨x, hx, hhash⟩ := List.mem_map.mp t.genesis_mem
      refine List.mem_map.mpr ⟨x, ?_, hhash⟩
      refine List.mem_cons_of_mem _ (List.mem_filter.mpr ⟨hx, ?_⟩)
      rw [hhash]
      simpa using h

/-- The node stored under a hash. -/
def get (t : Tree Cmd) (nodeHash : Digest) : Option (Node Cmd) :=
  t.nodes.find? (fun x => x.hash = nodeHash)

/-- Whether a hash is present. -/
def has (t : Tree Cmd) (nodeHash : Digest) : Bool :=
  (t.get nodeHash).isSome

/-- A node is stored under its own hash. -/
theorem hash_of_get
    {t : Tree Cmd} {h : Digest} {b : Node Cmd}
    (hget : t.get h = some b) :
    b.hash = h := by
  simpa using List.find?_some hget

theorem mem_nodes_of_get
    {t : Tree Cmd} {h : Digest} {b : Node Cmd}
    (hget : t.get h = some b) :
    b ∈ t.nodes :=
  List.mem_of_find?_eq_some hget

theorem mem_nodes_add
    {t : Tree Cmd} {b x : Node Cmd}
    (h : x ∈ (t.add b).nodes) :
    x = b ∨ x ∈ t.nodes := by
  rcases List.mem_cons.mp h with rfl | h
  · exact Or.inl rfl
  · exact Or.inr (List.mem_of_mem_filter h)

@[simp] theorem get_add_self (t : Tree Cmd) (b : Node Cmd) :
    (t.add b).get b.hash = some b := by
  simp [get, add]

/-- The node hash is the hash of a stored node. -/
theorem exists_node_of_has
    {t : Tree Cmd} {h : Digest}
    (hh : t.has h = true) :
    ∃ p c v, h = Digest.node p c v := by
  obtain ⟨b, hb⟩ := Option.isSome_iff_exists.mp hh
  exact ⟨b.parentHash, b.cmd.map cmdKey, b.viewNumber, (hash_of_get hb).symm⟩

/-- The loop of `extends`: follow parent links until the target is found. -/
def reaches (t : Tree Cmd) (target : Digest) : Digest → Bool
  | .node p c v =>
      if (.node p c v : Digest) = target then true
      else if t.has p then reaches t target p
      else false
  | _ => false

/-- Whether the ancestor lies on the stored parent chain of the node. -/
def extendsNode (t : Tree Cmd) (node ancestor : Node Cmd) : Bool :=
  t.reaches ancestor.hash node.hash

/-- Neither node extends the other. -/
def conflicts (t : Tree Cmd) (a b : Node Cmd) : Bool :=
  !t.extendsNode a b && !t.extendsNode b a

/-- The stored nodes from a hash upwards while the condition holds. -/
def branch (t : Tree Cmd) (keep : Digest → Bool) : Digest → List (Node Cmd)
  | .node p c v =>
      match t.get (.node p c v) with
      | some b => if keep (.node p c v) then b :: branch t keep p else []
      | none => []
  | _ => []

/-- The first parent hash on the way up that is not stored, while the condition
holds. -/
def firstMissing (t : Tree Cmd) (keep : Digest → Bool) : Digest → Option Digest
  | .node p c v =>
      if keep (.node p c v) then
        if p.truthy && !t.has p then some p
        else if t.has p then firstMissing t keep p
        else none
      else none
  | _ => none

/-- A successful walk has found an ancestor. -/
theorem extends_of_reaches
    {t : Tree Cmd} {target d : Digest}
    (h : t.reaches target d = true) :
    d.Extends target := by
  induction d with
  | absent => simp [reaches] at h
  | text s => simp [reaches] at h
  | node p c v ih =>
      rw [Digest.extends_node_iff]
      simp only [reaches] at h
      split at h
      case isTrue heq => exact Or.inl heq.symm
      case isFalse =>
        split at h
        case isTrue => exact Or.inr (ih h)
        case isFalse => cases h

/-- A collected node is stored, satisfies the condition and is an ancestor of
the starting point. -/
theorem mem_branch
    {t : Tree Cmd} {keep : Digest → Bool} {d : Digest} {b : Node Cmd}
    (h : b ∈ t.branch keep d) :
    b ∈ t.nodes ∧ keep b.hash = true ∧ d.Extends b.hash := by
  induction d with
  | absent => simp [branch] at h
  | text s => simp [branch] at h
  | node p c v ih =>
      simp only [branch] at h
      split at h
      case h_2 => cases h
      case h_1 x hx =>
        split at h
        case isFalse => cases h
        case isTrue hkeep =>
          rcases List.mem_cons.mp h with rfl | h
          · have hhash := hash_of_get hx
            rw [hhash]
            exact ⟨mem_nodes_of_get hx, hkeep, Digest.Extends.refl _⟩
          · obtain ⟨hmem, hk, hext⟩ := ih h
            exact ⟨hmem, hk, Digest.extends_node_iff.mpr (Or.inr hext)⟩

/-- A walk that may not start collects nothing. -/
theorem branch_eq_nil
    {t : Tree Cmd} {keep : Digest → Bool} {d : Digest}
    (h : keep d = false) :
    t.branch keep d = [] := by
  cases d with
  | absent => rfl
  | text s => rfl
  | node p c v =>
      simp only [branch, h, Bool.false_eq_true, if_false]
      split <;> rfl

/-- **What execution appends.**  Let `tip` be the last executed hash and let the
walk upwards stop exactly at the genesis block and at executed hashes.  If no
parent is missing, the collected nodes, oldest first, complete the branch of
`tip` to the branch of `d`. -/
theorem path_eq_append_branch
    {t : Tree Cmd} {keep : Digest → Bool} {tip d : Digest}
    (hkeep : ∀ h, keep h = false ↔ h = genesisHash ∨ h ∈ tip.path)
    (htip : tip.Rooted)
    (hext : d.Extends tip)
    (hhas : t.has d = true)
    (hmiss : t.firstMissing keep d = none) :
    d.path = tip.path ++ ((t.branch keep d).map Node.hash).reverse := by
  induction d with
  | absent =>
      obtain ⟨_, _, _, heq⟩ := exists_node_of_has hhas
      cases heq
  | text s =>
      obtain ⟨_, _, _, heq⟩ := exists_node_of_has hhas
      cases heq
  | node p c v ih =>
      obtain ⟨b, hb⟩ := Option.isSome_iff_exists.mp hhas
      cases hk : keep (.node p c v) with
      | false =>
          have hbranch : t.branch keep (.node p c v) = [] := by
            simp [branch, hb, hk]
          have heq : (.node p c v : Digest) = tip := by
            rcases (hkeep _).mp hk with hg | hmem
            · rw [hg] at hext ⊢
              exact hext.antisymm htip
            · exact hext.antisymm (Digest.extends_of_mem_path hmem)
          rw [hbranch, heq]
          simp
      | true =>
          have hstop : ¬ ((.node p c v : Digest) = genesisHash ∨
              (.node p c v : Digest) ∈ tip.path) := by
            rw [← hkeep, hk]
            simp
          push Not at hstop
          obtain ⟨hg, hmem⟩ := hstop
          have hext' : p.Extends tip := by
            rcases Digest.extends_node_iff.mp hext with heq | hext'
            · exfalso
              apply hmem
              rw [heq]
              exact Digest.mem_path_self hg
            · exact hext'
          have hp : t.has p = true := by
            cases hpt : t.has p with
            | true => rfl
            | false =>
                exfalso
                simp only [firstMissing, hk, hpt, Bool.not_false,
                  Bool.and_true, if_true, Bool.false_eq_true, if_false] at hmiss
                split at hmiss
                case isTrue => cases hmiss
                case isFalse hfalsy =>
                  cases p with
                  | absent =>
                      have hroot := hext'.trans htip
                      simp [Digest.Extends, Digest.ancestors, genesisHash] at hroot
                  | text s =>
                      have hroot := hext'.trans htip
                      simp [Digest.Extends, Digest.ancestors, genesisHash] at hroot
                  | node _ _ _ => simp [Digest.truthy] at hfalsy
          have hmiss' : t.firstMissing keep p = none := by
            simpa [firstMissing, hk, hp] using hmiss
          have hbranch : t.branch keep (.node p c v) = b :: t.branch keep p := by
            simp [branch, hb, hk]
          rw [Digest.path_node hg, ih hext' hp hmiss', hbranch, List.map_cons,
            List.reverse_cons, hash_of_get hb, List.append_assoc]

end Tree

/-- The executed nodes, and the set of their hashes, form the branch that ends
at `tip`. -/
structure BranchTo (committed : List (Node Cmd)) (executed : List Digest)
    (tip : Digest) : Prop where
  committed : committed.map Node.hash = tip.path
  executed : ∀ h, h ∈ executed ↔ h ∈ tip.path

theorem branchTo_genesis : BranchTo ([] : List (Node Cmd)) [] genesisHash :=
  ⟨by simp, by simp⟩

/-- Executing the stored branch of a node that lies on one branch with the tip
moves the tip to that node, or leaves it where it is. -/
theorem BranchTo.extend
    {committed committed' : List (Node Cmd)} {executed executed' : List Digest}
    {t : Tree Cmd} {keep : Digest → Bool} {tip d : Digest}
    (h : BranchTo committed executed tip)
    (hkeep : ∀ x, keep x = (x ≠ genesisHash && !(executed.contains x)))
    (htip : tip.Rooted)
    (hd : d.Rooted)
    (hor : d.Extends tip ∨ tip.Extends d)
    (hhas : t.has d = true)
    (hmiss : t.firstMissing keep d = none)
    (hcommitted : committed' = committed ++ (t.branch keep d).reverse)
    (hexecuted : ∀ x, x ∈ executed' ↔
      x ∈ executed ∨ x ∈ (t.branch keep d).reverse.map Node.hash) :
    ∃ tip', (tip' = tip ∨ tip' = d) ∧ BranchTo committed' executed' tip' := by
  have hstop : ∀ x, keep x = false ↔ x = genesisHash ∨ x ∈ tip.path := by
    intro x
    rw [hkeep]
    by_cases hx : x = genesisHash
    · simp [hx]
    · simp [hx, h.executed]
  rcases hor with hup | hdown
  · have hpath := Tree.path_eq_append_branch hstop htip hup hhas hmiss
    refine ⟨d, Or.inr rfl, ?_, ?_⟩
    · rw [hcommitted, List.map_append, h.committed, hpath, List.map_reverse]
    · intro x
      rw [hexecuted, h.executed, hpath, List.mem_append, List.map_reverse]
  · -- The node was executed before, so there is nothing to add.
    have hold : keep d = false := (hstop d).mpr (Digest.mem_path_of_extends hdown hd)
    rw [Tree.branch_eq_nil hold] at hcommitted hexecuted
    refine ⟨tip, Or.inl rfl, ?_, ?_⟩
    · rw [hcommitted]
      simpa using h.committed
    · intro x
      rw [hexecuted]
      simpa using h.executed x

end HotStuff
end DistributedConsensus
