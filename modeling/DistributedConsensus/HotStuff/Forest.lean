import DistributedConsensus.HotStuff.Tree

/-!
# HotStuff: the ancestry of stored nodes

`extends` walks up the parent links of the stored nodes and stops at a missing link.
In every tree that calls of `add` build, what the walk finds is the order of a forest:
the ancestors of a node form a chain.  Which walks succeed depends only on the hashes
that are present, and not on the order in which the nodes came (`ancestry_forest`).
-/

namespace DistributedConsensus
namespace HotStuff

variable {Cmd : Type} [Application Cmd]

namespace Tree

/-- The tree after a sequence of calls of `add`. -/
def build (adds : List (Node Cmd)) : Tree Cmd := adds.foldl add new

/-! ## Stored hashes -/

theorem has_iff_mem
    {t : Tree Cmd} {h : Digest} :
    t.has h = true ↔ h ∈ t.nodes.map Node.hash := by
  simp [has, get]

@[simp] theorem has_add
    (t : Tree Cmd) (b : Node Cmd) (h : Digest) :
    (t.add b).has h = true ↔ h = b.hash ∨ t.has h = true := by
  rw [has_iff_mem, has_iff_mem, add, List.map_cons, List.mem_cons]
  by_cases hb : h = b.hash
  · simp [hb]
  · refine or_congr_right ⟨fun hmem => ?_, fun hmem => ?_⟩
    · obtain ⟨x, hx, hhash⟩ := List.mem_map.mp hmem
      exact List.mem_map.mpr ⟨x, List.mem_of_mem_filter hx, hhash⟩
    · obtain ⟨x, hx, rfl⟩ := List.mem_map.mp hmem
      exact List.mem_map_of_mem (List.mem_filter.mpr ⟨hx, by simpa using hb⟩)

theorem has_foldl_add
    (adds : List (Node Cmd)) (t : Tree Cmd) (h : Digest) :
    (adds.foldl add t).has h = true ↔ h ∈ adds.map Node.hash ∨ t.has h = true := by
  induction adds generalizing t with
  | nil => simp
  | cons b adds ih =>
      rw [List.foldl_cons, ih, has_add, List.map_cons, List.mem_cons]
      tauto

/-! ## The walk as an order -/

section Walks

variable {t t' : Tree Cmd}

theorem reaches_node_iff
    {p target : Digest} {c : Option String} {v : Int} :
    t.reaches target (.node p c v) = true ↔
      (.node p c v : Digest) = target ∨ t.has p = true ∧ t.reaches target p = true := by
  rw [reaches]
  split
  case isTrue heq => simp [heq]
  case isFalse hne =>
    split
    case isTrue hp => simp [hne, hp]
    case isFalse hp => simp [hne, hp]

theorem reaches_self
    (b : Node Cmd) :
    t.reaches b.hash b.hash = true := by
  rw [Node.hash, reaches_node_iff]
  exact Or.inl rfl

/-- A walk can be continued from the node it has found. -/
theorem reaches_trans
    {a b d : Digest}
    (hb : t.reaches b d = true)
    (ha : t.reaches a b = true) :
    t.reaches a d = true := by
  induction d with
  | absent => cases hb
  | text s => cases hb
  | node p c v ih =>
      rcases reaches_node_iff.mp hb with rfl | ⟨hp, hb⟩
      · exact ha
      · exact reaches_node_iff.mpr (Or.inr ⟨hp, ih hb⟩)

/-- Of two hashes on one walk, the walk from one finds the other. -/
theorem reaches_total
    {a b d : Digest}
    (ha : t.reaches a d = true)
    (hb : t.reaches b d = true) :
    t.reaches b a = true ∨ t.reaches a b = true := by
  induction d with
  | absent => cases ha
  | text s => cases ha
  | node p c v ih =>
      rcases reaches_node_iff.mp ha with rfl | ⟨-, ha'⟩
      · exact Or.inl hb
      · rcases reaches_node_iff.mp hb with rfl | ⟨-, hb'⟩
        · exact Or.inr ha
        · exact ih ha' hb'

/-- A walk depends only on which hashes are present. -/
theorem reaches_congr
    (h : ∀ x, t.has x = t'.has x)
    (target d : Digest) :
    t.reaches target d = t'.reaches target d := by
  induction d with
  | absent => rfl
  | text s => rfl
  | node p c v ih =>
      rw [reaches, reaches, h p, ih]

end Walks

/-- The laws of `extends` and `conflicts` on the stored nodes. -/
structure IsForest (t : Tree Cmd) : Prop where
  refl : ∀ a ∈ t.nodes, t.extendsNode a a = true
  trans : ∀ a ∈ t.nodes, ∀ b ∈ t.nodes, ∀ c ∈ t.nodes,
    t.extendsNode a b = true → t.extendsNode b c = true → t.extendsNode a c = true
  antisymm : ∀ a ∈ t.nodes, ∀ b ∈ t.nodes,
    t.extendsNode a b = true → t.extendsNode b a = true → a.hash = b.hash
  comparable : ∀ x ∈ t.nodes, ∀ a ∈ t.nodes, ∀ b ∈ t.nodes,
    t.extendsNode x a = true → t.extendsNode x b = true →
      t.extendsNode a b = true ∨ t.extendsNode b a = true
  conflicts : ∀ a ∈ t.nodes, ∀ b ∈ t.nodes, ∀ a' ∈ t.nodes,
    t.conflicts a b = true → t.extendsNode a' a = true → t.conflicts a' b = true

theorem conflicts_iff
    {t : Tree Cmd} {a b : Node Cmd} :
    t.conflicts a b = true ↔ ¬ t.extendsNode a b = true ∧ ¬ t.extendsNode b a = true := by
  simp [conflicts]

/-- A conflict is inherited: otherwise both nodes would be on one walk. -/
theorem conflicts_of_extends
    {t : Tree Cmd} {a b a' : Node Cmd}
    (h : t.conflicts a b = true)
    (hext : t.extendsNode a' a = true) :
    t.conflicts a' b = true := by
  rw [conflicts_iff] at h ⊢
  obtain ⟨hab, hba⟩ := h
  refine ⟨fun hb => ?_, fun hb => hba (reaches_trans hb hext)⟩
  rcases reaches_total hext hb with hor | hor
  · exact hab hor
  · exact hba hor

theorem isForest (t : Tree Cmd) : t.IsForest where
  refl a _ := reaches_self a
  trans _ _ _ _ _ _ hab hbc := reaches_trans hab hbc
  antisymm _ _ _ _ hab hba := (extends_of_reaches hab).antisymm (extends_of_reaches hba)
  comparable _ _ _ _ _ _ ha hb := reaches_total ha hb
  conflicts _ _ _ _ _ _ h hext := conflicts_of_extends h hext

end Tree

/-- **The ancestry of a block tree.**  The nodes that any sequence of calls of `add`
leaves are ordered as a forest, and any other sequence that brings the same hashes, in
any order, leads to the same ancestry. -/
theorem ancestry_forest (adds : List (Node Cmd)) :
    (Tree.build adds).IsForest ∧
      ∀ adds' : List (Node Cmd),
        (∀ h, h ∈ adds'.map Node.hash ↔ h ∈ adds.map Node.hash) →
          ∀ a b, (Tree.build adds').extendsNode a b = (Tree.build adds).extendsNode a b ∧
            (Tree.build adds').conflicts a b = (Tree.build adds).conflicts a b := by
  refine ⟨Tree.isForest _, fun adds' hsame a b => ?_⟩
  have hhas : ∀ x, (Tree.build adds').has x = (Tree.build adds).has x := by
    intro x
    rw [Bool.eq_iff_iff, Tree.build, Tree.build, Tree.has_foldl_add, Tree.has_foldl_add, hsame]
  have hext : ∀ a b : Node Cmd,
      (Tree.build adds').extendsNode a b = (Tree.build adds).extendsNode a b :=
    fun a b => Tree.reaches_congr hhas b.hash a.hash
  refine ⟨hext a b, ?_⟩
  rw [Tree.conflicts, Tree.conflicts, hext a b, hext b a]

/-- Below the genesis block, and two nodes below it. -/
def forkRoot : Node String := ⟨genesisHash, some "1", 1, none⟩

def forkLeft : Node String := ⟨forkRoot.hash, some "2", 2, none⟩

def forkRight : Node String := ⟨forkRoot.hash, some "3", 3, none⟩

/-- The two branches conflict, also if the nodes come in the opposite order. -/
theorem ancestry_forest_sample :
    (Tree.build [forkRoot, forkLeft, forkRight]).IsForest ∧
      (Tree.build [forkRight, forkLeft, forkRoot]).conflicts forkLeft forkRight = true := by
  obtain ⟨hforest, horder⟩ := ancestry_forest [forkRoot, forkLeft, forkRight]
  refine ⟨hforest, ?_⟩
  have hsame : ∀ h, h ∈ [forkRight, forkLeft, forkRoot].map Node.hash ↔
      h ∈ [forkRoot, forkLeft, forkRight].map Node.hash := by
    intro h
    simp only [List.map_cons, List.map_nil, List.mem_cons, List.not_mem_nil, or_false]
    tauto
  rw [(horder _ hsame forkLeft forkRight).2]
  decide +kernel

end HotStuff
end DistributedConsensus
