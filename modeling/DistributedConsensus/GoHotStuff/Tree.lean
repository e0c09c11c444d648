import DistributedConsensus.GoHotStuff.Node
import DistributedConsensus.Foundations.Text
import Mathlib.Logic.Relation

/-!
# Go HotStuff: the tree of a node

Three walks run over the tree: one fetches missing ancestors from the shared store, one
looks for an ancestor, and one collects the nodes that are not executed.  The tree only
grows, by nodes with the right hash below known ones (`Grows`), so every node has a
branch down to the genesis block.

With collision-free hashes a branch never changes, and two branches through one block
agree below it (`Chain.suffix`).
-/

namespace DistributedConsensus
namespace GoHotStuff

open Foundations

/-! ## Branches -/

/-- The parent and the command of a stored node. -/
def link (tree : Dict String TreeNode) (nodeHash : String) : Option (String × Command) :=
  (tree.get? nodeHash).map fun node => (node.parentHash, node.cmd)

def isGenesis (nodeHash : String) : Bool := decide (nodeHash = genesisHash)

/-- The parents and commands from a block down to the genesis block. -/
def Branch (tree : Dict String TreeNode) (nodeHash : String)
    (steps : List (String × Command)) : Prop :=
  PointerWalk.Path (link tree) Prod.fst isGenesis nodeHash steps genesisHash

/-- The genesis block, or a node of the tree. -/
def Known (tree : Dict String TreeNode) (nodeHash : String) : Prop :=
  nodeHash = genesisHash ∨ tree.contains nodeHash = true

/-- A node with the right hash is put below a known one. -/
inductive AddsNode (cfg : Config) (tree : Dict String TreeNode) : Dict String TreeNode → Prop
  | add (node : TreeNode) :
      cfg.hashNode node = node.hash → Known tree node.parentHash →
      AddsNode cfg tree (tree.set node.hash node)

def Grows (cfg : Config) : Dict String TreeNode → Dict String TreeNode → Prop :=
  Relation.ReflTransGen (AddsNode cfg)

/-- Every node is stored under its hash, its parent is known, and it has a branch. -/
structure TreeSound (cfg : Config) (tree : Dict String TreeNode) : Prop where
  hash : ∀ h node, tree.get? h = some node → node.hash = h ∧ cfg.hashNode node = h
  parent : ∀ h node, tree.get? h = some node → Known tree node.parentHash
  branch : ∀ h, Known tree h → ∃ steps, Branch tree h steps

section Growth

variable {cfg : Config} {tree tree' : Dict String TreeNode}

theorem link_eq_some
    {h : String} {node : TreeNode}
    (hget : tree.get? h = some node) :
    link tree h = some (node.parentHash, node.cmd) := by
  simp [link, hget]

theorem isGenesis_false
    {h : String}
    (hne : h ≠ genesisHash) :
    isGenesis h = false := by
  simp [isGenesis, hne]

theorem branch_genesis (tree : Dict String TreeNode) : Branch tree genesisHash [] :=
  PointerWalk.Path.done (by simp [isGenesis])

theorem known_set_iff
    {node : TreeNode} {h : String} :
    Known (tree.set node.hash node) h ↔ h = node.hash ∨ Known tree h := by
  unfold Known Dict.contains
  rw [Dict.get?_set]
  by_cases heq : h = node.hash
  · simp [heq]
  · simp [heq]

theorem AddsNode.known
    {h : String}
    (hadd : AddsNode cfg tree tree')
    (hknown : Known tree h) :
    Known tree' h := by
  cases hadd with
  | add node hhash hparent => exact known_set_iff.mpr (Or.inr hknown)

theorem Grows.known
    {h : String}
    (hgrows : Grows cfg tree tree')
    (hknown : Known tree h) :
    Known tree' h := by
  induction hgrows with
  | refl => exact hknown
  | tail _ hadd ih => exact hadd.known ih

/-- With collision-free hashes no node changes its parent or its command. -/
theorem AddsNode.link_eq
    {h : String} {p : String × Command}
    (hinj : Function.Injective2 cfg.hash)
    (hsound : TreeSound cfg tree)
    (hadd : AddsNode cfg tree tree')
    (hlink : link tree h = some p) :
    link tree' h = some p := by
  cases hadd with
  | add node hhash hparent =>
      obtain ⟨old, hold, rfl⟩ := Option.map_eq_some_iff.mp hlink
      by_cases heq : h = node.hash
      · subst heq
        have hsame : cfg.hash node.parentHash node.cmd = cfg.hash old.parentHash old.cmd :=
          hhash.trans (hsound.hash _ _ hold).2.symm
        obtain ⟨hp, hc⟩ := hinj hsame
        have hget : (tree.set node.hash node).get? node.hash = some node := by
          rw [Dict.get?_set, if_pos rfl]
        rw [link_eq_some hget, hp, hc]
      · have hget : (tree.set node.hash node).get? h = some old := by
          rw [Dict.get?_set, if_neg heq, hold]
        rw [link_eq_some hget]

theorem AddsNode.sound
    (hinj : Function.Injective2 cfg.hash)
    (hsound : TreeSound cfg tree)
    (hadd : AddsNode cfg tree tree') :
    TreeSound cfg tree' := by
  have hkeep : ∀ h steps, Branch tree h steps → Branch tree' h steps := fun h steps hbranch =>
    hbranch.mono fun k x hlink => hadd.link_eq hinj hsound hlink
  cases hadd with
  | add node hhash hparent =>
      constructor
      · intro h x hget
        rw [Dict.get?_set] at hget
        split at hget
        case isTrue heq =>
          cases hget
          exact ⟨heq.symm, hhash.trans heq.symm⟩
        case isFalse => exact hsound.hash h x hget
      · intro h x hget
        refine known_set_iff.mpr (Or.inr ?_)
        rw [Dict.get?_set] at hget
        split at hget
        case isTrue =>
          cases hget
          exact hparent
        case isFalse => exact hsound.parent h x hget
      · intro h hknown
        by_cases hgen : h = genesisHash
        · subst hgen
          exact ⟨[], branch_genesis _⟩
        · rcases known_set_iff.mp hknown with rfl | hold
          · obtain ⟨steps, hsteps⟩ := hsound.branch _ hparent
            refine ⟨(node.parentHash, node.cmd) :: steps, ?_⟩
            exact PointerWalk.Path.step (isGenesis_false hgen)
              (link_eq_some (by rw [Dict.get?_set, if_pos rfl])) (hkeep _ _ hsteps)
          · obtain ⟨steps, hsteps⟩ := hsound.branch h hold
            exact ⟨steps, hkeep _ _ hsteps⟩

/-- **The tree stays sound while it grows, and keeps its branches.** -/
theorem Grows.sound
    (hinj : Function.Injective2 cfg.hash)
    (hsound : TreeSound cfg tree)
    (hgrows : Grows cfg tree tree') :
    TreeSound cfg tree' ∧ ∀ h steps, Branch tree h steps → Branch tree' h steps := by
  induction hgrows with
  | refl => exact ⟨hsound, fun _ _ h => h⟩
  | tail _ hadd ih =>
      refine ⟨hadd.sound hinj ih.1, fun h steps hbranch => ?_⟩
      exact (ih.2 h steps hbranch).mono fun k x hlink => hadd.link_eq hinj ih.1 hlink

theorem treeSound_empty : TreeSound cfg Dict.empty where
  hash h node hget := by cases hget
  parent h node hget := by cases hget
  branch h hknown := by
    rcases hknown with rfl | hcontains
    · exact ⟨[], branch_genesis _⟩
    · cases hcontains

end Growth

/-- The nodes on a branch. -/
theorem Branch.nodes
    {tree : Dict String TreeNode} {h : String} {steps : List (String × Command)}
    (hbranch : Branch tree h steps) :
    ∃ nodes : List TreeNode, steps = nodes.map (fun node => (node.parentHash, node.cmd)) ∧
      PointerWalk.Path tree.get? TreeNode.parentHash isGenesis h nodes genesisHash :=
  PointerWalk.Path.of_map hbranch fun _ => rfl

/-! ## Ancestors -/

/-- A block is an ancestor of another, by the hashes alone. -/
def Extends (cfg : Config) : String → String → Prop :=
  Relation.ReflTransGen fun child parent => ∃ cmd, cfg.hash parent cmd = child

/-- The parents and commands below a block, by the hashes alone. -/
inductive Chain (cfg : Config) : String → List (String × Command) → Prop
  | genesis : Chain cfg genesisHash []
  | step {parent : String} {cmd : Command} {steps : List (String × Command)} :
      Chain cfg parent steps → Chain cfg (cfg.hash parent cmd) ((parent, cmd) :: steps)

section Ancestors

variable {cfg : Config} {tree : Dict String TreeNode} {h h' : String}

theorem Branch.chain
    {steps : List (String × Command)}
    (hsound : TreeSound cfg tree)
    (hbranch : Branch tree h steps) :
    Chain cfg h steps := by
  have hwalk : ∀ k steps last, PointerWalk.Path (link tree) Prod.fst isGenesis k steps last →
      Chain cfg k steps := by
    intro k steps last hpath
    induction hpath with
    | done hstop =>
        rw [of_decide_eq_true hstop]
        exact Chain.genesis
    | step _ hlink _ ih =>
        obtain ⟨node, hget, rfl⟩ := Option.map_eq_some_iff.mp hlink
        rw [← (hsound.hash _ _ hget).2]
        exact Chain.step ih
  exact hwalk h steps _ hbranch

/-- The nodes on a walk through the tree are descendants of its end. -/
theorem extends_of_path
    {stop : String → Bool} {nodes : List TreeNode}
    (hsound : TreeSound cfg tree)
    (hpath : PointerWalk.Path tree.get? TreeNode.parentHash stop h nodes h') :
    Extends cfg h h' := by
  induction hpath with
  | done _ => exact Relation.ReflTransGen.refl
  | @step k last node nodes _ hget _ ih =>
      exact Relation.ReflTransGen.head ⟨node.cmd, (hsound.hash k node hget).2⟩ ih

theorem Chain.extends_genesis
    {steps : List (String × Command)}
    (hchain : Chain cfg h steps) :
    Extends cfg h genesisHash := by
  induction hchain with
  | genesis => exact Relation.ReflTransGen.refl
  | step _ ih => exact Relation.ReflTransGen.head ⟨_, rfl⟩ ih

variable {steps steps' : List (String × Command)}

/-- There is one chain below a block. -/
theorem Chain.unique
    (hinj : Function.Injective2 cfg.hash)
    (hgen : ∀ parent cmd, cfg.hash parent cmd ≠ genesisHash)
    (hchain : Chain cfg h steps)
    (hchain' : Chain cfg h steps') :
    steps = steps' := by
  induction hchain generalizing steps' with
  | genesis =>
      generalize hx : genesisHash = x at hchain'
      cases hchain' with
      | genesis => rfl
      | step _ => exact absurd hx.symm (hgen _ _)
  | @step parent cmd steps _ ih =>
      generalize hx : cfg.hash parent cmd = x at hchain'
      cases hchain' with
      | genesis => exact absurd hx (hgen _ _)
      | step hrest =>
          obtain ⟨rfl, rfl⟩ := hinj hx
          rw [ih hrest]

/-- **The chain of an ancestor is the end of the chain.** -/
theorem Chain.suffix
    (hinj : Function.Injective2 cfg.hash)
    (hgen : ∀ parent cmd, cfg.hash parent cmd ≠ genesisHash)
    (hext : Extends cfg h h')
    (hchain : Chain cfg h steps)
    (hchain' : Chain cfg h' steps') :
    steps' <:+ steps := by
  induction hext using Relation.ReflTransGen.head_induction_on generalizing steps with
  | refl =>
      rw [hchain.unique hinj hgen hchain']
  | @head child parent hstep _ ih =>
      obtain ⟨cmd, rfl⟩ := hstep
      generalize hx : cfg.hash parent cmd = x at hchain
      cases hchain with
      | genesis => exact absurd hx (hgen _ _)
      | step hrest =>
          obtain ⟨rfl, rfl⟩ := hinj hx
          exact (ih hrest).trans (List.suffix_cons _ _)

end Ancestors

/-! ## The walks -/

namespace Process

section Walks

variable {cfg : Config} {n n' : Process} {x : String} {node : TreeNode}

theorem known_iff : n.known x = true ↔ Known n.tree x := by
  simp [known, Known]

/-- A record of a dictionary that is found has its key in the list of keys. -/
theorem mem_keys_of_get?
    {V : Type} {d : Dict String V} {v : V}
    (hget : d.get? x = some v) :
    x ∈ d.keys := by
  by_contra hnot
  rw [(Dict.get?_eq_none_iff d x).mpr hnot] at hget
  cases hget

theorem fetchValid_eq_some
    (h : n.fetchValid cfg x = some node) :
    n.shared.nodeStore.nodes.get? x = some node ∧ node.hash = x ∧ cfg.hashNode node = x := by
  rw [fetchValid, Option.filter_eq_some_iff, decide_eq_true_eq] at h
  have hkey := n.shared.nodeStore.keyed x node h.1
  exact ⟨h.1, hkey, h.2.trans hkey⟩

/-- Fetched ancestors are put into the tree from the bottom. -/
theorem grows_of_path
    {nodes : List TreeNode} {last : String}
    (hpath : PointerWalk.Path (n.fetchValid cfg) TreeNode.parentHash n.known x nodes last) :
    Grows cfg n.tree (nodes.reverse.foldl (fun tree node => tree.set node.hash node) n.tree) ∧
      Known (nodes.reverse.foldl (fun tree node => tree.set node.hash node) n.tree) x := by
  induction hpath with
  | done hstop => exact ⟨Relation.ReflTransGen.refl, known_iff.mp hstop⟩
  | @step k last node nodes _ hfetch _ ih =>
      obtain ⟨-, hkey, hhash⟩ := fetchValid_eq_some hfetch
      simp only [List.reverse_cons, List.foldl_append, List.foldl_cons, List.foldl_nil]
      refine ⟨ih.1.tail (AddsNode.add node (hhash.trans hkey.symm) ih.2), ?_⟩
      exact known_set_iff.mpr (Or.inl hkey.symm)

/-- `ensureNode` adds the missing ancestors. -/
theorem ensureNode_spec
    (h : n.ensureNode cfg x = some n') :
    ∃ tree, n' = { n with tree := tree } ∧ Grows cfg n.tree tree ∧ Known tree x := by
  rw [ensureNode] at h
  split at h
  case h_1 => cases h
  case h_2 fetched last hwalk =>
    cases h
    obtain ⟨hgrows, hknown⟩ := grows_of_path (PointerWalk.path_of_walk hwalk)
    exact ⟨_, rfl, hgrows, hknown⟩

/-- `ensureNode` succeeds whenever the ancestors can be fetched. -/
theorem ensureNode_isSome_iff :
    (n.ensureNode cfg x).isSome = true ↔ ∃ nodes last,
      PointerWalk.Path (n.fetchValid cfg) TreeNode.parentHash n.known x nodes last := by
  have hwalk : ∀ nodes last,
      PointerWalk.walk (n.fetchValid cfg) TreeNode.parentHash n.known
          (n.shared.nodeStore.nodes.size + 1) [] x = some (nodes, last) ↔
        PointerWalk.Path (n.fetchValid cfg) TreeNode.parentHash n.known x nodes last :=
    fun nodes last => PointerWalk.walk_eq_some_iff
      (fun k node hfetch => mem_keys_of_get? (fetchValid_eq_some hfetch).1)
      (by simp [Dict.keys, Dict.size])
  rw [ensureNode]
  split
  case h_1 hnone =>
    constructor
    · intro h
      cases h
    · rintro ⟨nodes, last, hpath⟩
      rw [(hwalk nodes last).mpr hpath] at hnone
      cases hnone
  case h_2 fetched last hsome => exact ⟨fun _ => ⟨_, _, (hwalk _ _).mp hsome⟩, fun _ => rfl⟩

@[simp] theorem ensureNode_of_known
    (h : Known n.tree x) :
    n.ensureNode cfg x = some n := by
  simp [ensureNode, PointerWalk.walk, known_iff.mpr h]

theorem acceptNode_spec
    (h : n.acceptNode cfg node = some n') :
    cfg.hashNode node = node.hash ∧ ∃ tree,
      n' = { n with
        tree := tree
        shared := { n.shared with nodeStore := n.shared.nodeStore.storeNode node } } ∧
      Grows cfg n.tree tree ∧ Known tree node.hash := by
  have hadd : ∀ tree, Grows cfg n.tree tree → Known tree node.parentHash →
      cfg.hashNode node = node.hash →
      Grows cfg n.tree (tree.set node.hash node) ∧ Known (tree.set node.hash node) node.hash :=
    fun tree hgrows hparent hhash =>
      ⟨hgrows.tail (AddsNode.add node hhash hparent), known_set_iff.mpr (Or.inl rfl)⟩
  rw [acceptNode] at h
  split at h
  case isTrue => cases h
  case isFalse =>
    split at h
    case isTrue => cases h
    case isFalse hhash =>
      rw [not_not] at hhash
      refine ⟨hhash, ?_⟩
      split at h
      case isTrue hparent =>
        cases h
        obtain ⟨hgrows, hknown⟩ := hadd _ Relation.ReflTransGen.refl (Or.inl hparent) hhash
        exact ⟨_, rfl, hgrows, hknown⟩
      case isFalse =>
        obtain ⟨m, hensure, rfl⟩ := Option.map_eq_some_iff.mp h
        obtain ⟨tree, rfl, hgrows, hparent⟩ := ensureNode_spec hensure
        obtain ⟨hgrows', hknown⟩ := hadd tree hgrows hparent hhash
        exact ⟨_, rfl, hgrows', hknown⟩

/-- A block is found on the branch exactly when it is there. -/
theorem onBranch_iff
    {descendant ancestor : String} :
    n.onBranch descendant ancestor = true ↔ ∃ nodes,
      PointerWalk.Path n.tree.get? TreeNode.parentHash
        (fun k => decide (k = genesisHash ∨ k = ancestor)) descendant nodes ancestor := by
  have hwalk : ∀ nodes last,
      PointerWalk.walk n.tree.get? TreeNode.parentHash
          (fun k => decide (k = genesisHash ∨ k = ancestor)) (n.tree.size + 1) [] descendant
          = some (nodes, last) ↔
        PointerWalk.Path n.tree.get? TreeNode.parentHash
          (fun k => decide (k = genesisHash ∨ k = ancestor)) descendant nodes last :=
    fun nodes last => PointerWalk.walk_eq_some_iff
      (fun k node hget => mem_keys_of_get? hget) (by simp [Dict.keys, Dict.size])
  rw [onBranch]
  split
  case h_1 hnone =>
    constructor
    · intro h
      cases h
    · rintro ⟨nodes, hpath⟩
      rw [(hwalk nodes ancestor).mpr hpath] at hnone
      cases hnone
  case h_2 nodes last hsome =>
    rw [decide_eq_true_eq]
    constructor
    · rintro rfl
      exact ⟨nodes, (hwalk _ _).mp hsome⟩
    · rintro ⟨nodes', hpath⟩
      exact ((hwalk _ _).mp hsome).unique hpath |>.2

/-- The lock allows the node: a node without a lock takes all, a lock admits its
descendants and nodes with a later certificate. -/
def LockAllows (n : Process) (nodeHash : String) (qc : Option QuorumCertificate) : Prop :=
  ∀ lockedQC, n.lockedQC = some lockedQC →
    lockedQC.nodeHash = genesisHash ∨
    (∃ nodes stop, PointerWalk.Path n.tree.get? TreeNode.parentHash stop nodeHash nodes
      lockedQC.nodeHash) ∨
    ∃ justify, qc = some justify ∧ lockedQC.viewNumber < justify.viewNumber

theorem extendsFrom_spec (cfg : Config) (n : Process) (descendant ancestor : String) :
    ∃ tree, (n.extendsFrom cfg descendant ancestor).2 = { n with tree := tree } ∧
      Grows cfg n.tree tree ∧
      ((n.extendsFrom cfg descendant ancestor).1 = true →
        ancestor = genesisHash ∨ ∃ nodes stop,
          PointerWalk.Path tree.get? TreeNode.parentHash stop descendant nodes ancestor) := by
  rw [extendsFrom]
  split
  case isTrue hgen => exact ⟨n.tree, rfl, Relation.ReflTransGen.refl, fun _ => Or.inl hgen⟩
  case isFalse =>
    split
    case h_1 => exact ⟨n.tree, rfl, Relation.ReflTransGen.refl, fun h => by cases h⟩
    case h_2 m hensure =>
      obtain ⟨tree, rfl, hgrows, -⟩ := ensureNode_spec hensure
      split
      case h_1 => exact ⟨tree, rfl, hgrows, fun h => by cases h⟩
      case h_2 m' hensure' =>
        obtain ⟨tree', rfl, hgrows', -⟩ := ensureNode_spec hensure'
        refine ⟨tree', rfl, hgrows.trans hgrows', fun h => Or.inr ?_⟩
        obtain ⟨nodes, hpath⟩ := onBranch_iff.mp h
        exact ⟨nodes, _, hpath⟩

theorem safeNode_spec
    (cfg : Config) (n : Process) (node : TreeNode) (qc : Option QuorumCertificate) :
    ∃ tree, (n.safeNode cfg node qc).2 = { n with tree := tree } ∧ Grows cfg n.tree tree ∧
      ((n.safeNode cfg node qc).1 = true →
        LockAllows { n with tree := tree } node.hash qc) := by
  rw [safeNode]
  split
  case h_1 hlock =>
    refine ⟨n.tree, rfl, Relation.ReflTransGen.refl, fun _ lockedQC h => ?_⟩
    rw [hlock] at h
    cases h
  case h_2 lockedQC hlock =>
    obtain ⟨tree, heq, hgrows, hext⟩ :=
      extendsFrom_spec cfg n node.hash lockedQC.nodeHash
    refine ⟨tree, heq, hgrows, fun h lockedQC' hlock' => ?_⟩
    rw [hlock] at hlock'
    cases hlock'
    rcases Bool.or_eq_true_iff.mp h with hsafe | hlive
    · rcases hext hsafe with hgen | hpath
      · exact Or.inl hgen
      · exact Or.inr (Or.inl hpath)
    · rw [Option.any_eq_true] at hlive
      obtain ⟨justify, hjustify, hlt⟩ := hlive
      exact Or.inr (Or.inr ⟨justify, hjustify, of_decide_eq_true hlt⟩)

/-- The nodes that are executed: from the committed block down to the last executed. -/
def Unexecuted (n : Process) (committedHash : String) (nodes : List TreeNode) : Prop :=
  PointerWalk.Path (fun k => if k = genesisHash then none else n.tree.get? k)
    TreeNode.parentHash (fun k => decide (k = n.lastExecutedHash)) committedHash nodes
    n.lastExecutedHash

/-- `executeThrough` executes a path, or fails and only fetches ancestors. -/
theorem executeThrough_spec (cfg : Config) (n : Process) (x : String) :
    ∃ tree, Grows cfg n.tree tree ∧
      ((n.executeThrough cfg x).1 = true ∧ (∃ nodes,
          Unexecuted { n with tree := tree } x nodes ∧
          (n.executeThrough cfg x).2 = nodes.reverse.foldl executeNode { n with tree := tree }) ∨
        (n.executeThrough cfg x).1 = false ∧
          (n.executeThrough cfg x).2 = { n with tree := tree }) := by
  rw [executeThrough]
  split
  case isTrue hsame =>
    subst hsame
    exact ⟨n.tree, Relation.ReflTransGen.refl, Or.inl ⟨rfl, [],
      PointerWalk.Path.done (by simp), rfl⟩⟩
  case isFalse =>
    split
    case h_1 => exact ⟨n.tree, Relation.ReflTransGen.refl, Or.inr ⟨rfl, rfl⟩⟩
    case h_2 m hensure =>
      obtain ⟨tree, rfl, hgrows, -⟩ := ensureNode_spec hensure
      refine ⟨tree, hgrows, ?_⟩
      split
      case h_1 => exact Or.inr ⟨rfl, rfl⟩
      case h_2 nodes last hwalk =>
        have hpath := PointerWalk.path_of_walk hwalk
        have hlast : last = n.lastExecutedHash := of_decide_eq_true hpath.stop_last
        rw [hlast] at hpath
        exact Or.inl ⟨rfl, nodes, hpath, rfl⟩

end Walks

end Process

/-! ## A sample network -/

/-- A text that says where it ends. -/
def escape : List Char → List Char
  | [] => ['.']
  | c :: cs => '-' :: c :: escape cs

theorem escape_append_inj
    {xs ys rest rest' : List Char}
    (h : escape xs ++ rest = escape ys ++ rest') :
    xs = ys ∧ rest = rest' := by
  induction xs generalizing ys with
  | nil =>
      cases ys with
      | nil => exact ⟨rfl, by simpa [escape] using h⟩
      | cons y ys => simp [escape] at h
  | cons x xs ih =>
      cases ys with
      | nil => simp [escape] at h
      | cons y ys =>
          simp only [escape, List.cons_append, List.cons.injEq, true_and] at h
          obtain ⟨rfl, htail⟩ := h
          obtain ⟨rfl, hrest⟩ := ih htail
          exact ⟨rfl, hrest⟩

def CommandType.text : CommandType → List Char
  | .transfer => ['t']
  | .blockAccount => ['b']
  | .approveLoan => ['l']
  | .other s => 'o' :: s.toList

theorem CommandType.text_injective : Function.Injective CommandType.text := by
  intro a b h
  cases a <;> cases b <;> simp_all [CommandType.text, String.toList_inj]

/-- A digest without collisions. -/
def sampleHash (parentHash : String) (cmd : Command) : String :=
  String.ofList ('h' :: (escape cmd.id.toList ++ (escape cmd.type.text ++
    (escape cmd.fromAccount.toList ++ (escape cmd.toAccount.toList ++
      (escape (decimal cmd.amount.toInt) ++
        (escape cmd.metadata.toList ++ parentHash.toList)))))))

theorem sampleHash_injective : Function.Injective2 sampleHash := by
  intro p p' c c' h
  have hlist := List.cons.inj (String.ofList_injective h) |>.2
  obtain ⟨hid, hlist⟩ := escape_append_inj hlist
  obtain ⟨htype, hlist⟩ := escape_append_inj hlist
  obtain ⟨hfrom, hlist⟩ := escape_append_inj hlist
  obtain ⟨hto, hlist⟩ := escape_append_inj hlist
  obtain ⟨hamount, hlist⟩ := escape_append_inj hlist
  obtain ⟨hmetadata, hparent⟩ := escape_append_inj hlist
  refine ⟨String.toList_injective hparent, ?_⟩
  have htype := CommandType.text_injective htype
  have hamount := Int64.toInt_inj.mp (decimal_injective hamount)
  cases c
  cases c'
  simp_all [String.toList_inj]

theorem sampleHash_ne_genesis (parentHash : String) (cmd : Command) :
    sampleHash parentHash cmd ≠ genesisHash := by
  intro h
  have hlist := congrArg String.toList h
  rw [sampleHash, String.toList_ofList] at hlist
  exact absurd (List.cons.inj hlist).1 (by decide)

/-- Four nodes of which one may be faulty. -/
def fourNodes : Config where
  nodeIDs := ["N1", "N2", "N3", "N4"]
  hash := sampleHash
  token type viewNumber nodeHash shares :=
    String.ofList ((if type = .prepare then 'p' else if type = .preCommit then 'q' else 'c') ::
      (decimal viewNumber ++ '.' :: (nodeHash.toList ++
        shares.flatMap fun share => share.1.toList)))

end GoHotStuff
end DistributedConsensus
