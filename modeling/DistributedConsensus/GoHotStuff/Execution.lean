import DistributedConsensus.GoHotStuff.Forward
import DistributedConsensus.Foundations.Deduplication

/-!
# Go HotStuff: execution follows the tree

A node executes the commands on the way from its last executed block to a decided one.
Whatever it handles, its state machine has executed the commands on the branch of its
last executed block, in order and each id at its first occurrence
(`execution_follows_tree`).
-/

namespace DistributedConsensus
namespace GoHotStuff

open Foundations

/-- Execute commands in order, each id at its first occurrence. -/
def executeCommands (cmds : List Command) : StateMachine :=
  (firsts Command.id [] cmds).foldl (fun sm cmd => (sm.execute cmd).1) StateMachine.new

/-- The commands of a branch, from the genesis block upwards. -/
def branchCommands (steps : List (String × Command)) : List Command :=
  (steps.map Prod.snd).reverse

theorem executeCommands_append (cmds : List Command) (cmd : Command) :
    executeCommands (cmds ++ [cmd]) =
      if cmd.id ∈ cmds.map Command.id then executeCommands cmds
      else ((executeCommands cmds).execute cmd).1 := by
  unfold executeCommands
  rw [firsts_append, List.append_nil, List.foldl_append]
  by_cases hold : cmd.id ∈ cmds.map Command.id
  · simp [firsts, hold]
  · simp [firsts, hold]

namespace Process

section Steps

variable {cfg : Config} {K : SignatureShare → Prop} {fresh : MsgType → ℤ → ℤ → Prop}
variable {n n' : Process}

/-- The state machine has executed the branch of the last executed block. -/
structure Executed (cfg : Config) (n : Process) : Prop where
  sound : TreeSound cfg n.tree
  branch : ∃ steps, Branch n.tree n.lastExecutedHash steps ∧
    n.stateMachine = executeCommands (branchCommands steps) ∧
    ∀ id, id ∈ n.executedCommands ↔ id ∈ (branchCommands steps).map Command.id

/-- Executing a child of the last executed block. -/
theorem Executed.executeNode
    {node : TreeNode} {nodeHash : String}
    (h : Executed cfg n)
    (hgen : nodeHash ≠ genesisHash)
    (hget : n.tree.get? nodeHash = some node)
    (hparent : node.parentHash = n.lastExecutedHash) :
    Executed cfg (n.executeNode node) := by
  obtain ⟨steps, hbranch, hstate, hids⟩ := h.branch
  have hhash := (h.sound.hash _ _ hget).1
  have hbranch' : Branch n.tree node.hash ((node.parentHash, node.cmd) :: steps) := by
    rw [hhash]
    refine PointerWalk.Path.step (isGenesis_false hgen) (link_eq_some hget) ?_
    change Branch n.tree node.parentHash steps
    rwa [hparent]
  have hcommands : branchCommands ((node.parentHash, node.cmd) :: steps) =
      branchCommands steps ++ [node.cmd] := by
    simp [branchCommands]
  have hexecute := executeCommands_append (branchCommands steps) node.cmd
  rw [← hcommands, ← hstate] at hexecute
  simp only [← hids] at hexecute
  unfold Process.executeNode
  by_cases hold : node.cmd.id ∈ n.executedCommands
  · rw [if_pos hold] at hexecute ⊢
    refine ⟨h.sound, _, hbranch', hexecute.symm, fun id => ?_⟩
    simp only [hcommands, List.map_append, List.mem_append, ← hids, List.map_cons, List.map_nil,
      List.mem_singleton]
    exact ⟨Or.inl, fun hid => hid.elim (fun h => h) fun heq => heq ▸ hold⟩
  · rw [if_neg hold] at hexecute ⊢
    refine ⟨h.sound, _, hbranch', hexecute.symm, fun id => ?_⟩
    rw [hcommands, List.map_append, List.mem_append, ← hids, List.mem_cons, List.map_singleton,
      List.mem_singleton]
    exact or_comm

/-- Executing a path, from its end. -/
theorem Executed.executeNodes
    {committedHash : String} {nodes : List TreeNode}
    (h : Executed cfg n)
    (hpath : Unexecuted n committedHash nodes) :
    Executed cfg (nodes.reverse.foldl Process.executeNode n) ∧
      (nodes.reverse.foldl Process.executeNode n).lastExecutedHash = committedHash := by
  have hall : ∀ k nodes last, PointerWalk.Path
      (fun k => if k = genesisHash then none else n.tree.get? k) TreeNode.parentHash
      (fun k => decide (k = n.lastExecutedHash)) k nodes last →
      Executed cfg (nodes.reverse.foldl Process.executeNode n) ∧
        (nodes.reverse.foldl Process.executeNode n).lastExecutedHash = k := by
    intro k nodes last hpath
    induction hpath with
    | done hstop => exact ⟨h, (of_decide_eq_true hstop).symm⟩
    | @step k last node nodes _ hlook _ ih =>
        split at hlook
        case isTrue => cases hlook
        case isFalse hgen =>
          have hframe := executeNodes_frame (n := n) nodes.reverse
          have htree := hframe.2.2.2.1
          have hget : (nodes.reverse.foldl Process.executeNode n).tree.get? k = some node := by
            rw [htree]
            exact hlook
          rw [List.reverse_cons, List.foldl_append, List.foldl_cons, List.foldl_nil]
          refine ⟨ih.1.executeNode hgen hget ih.2.symm, ?_⟩
          exact (h.sound.hash _ _ hlook).1
  exact hall committedHash nodes _ hpath

theorem Executed.congr
    (h : Executed cfg n)
    (htree : n'.tree = n.tree)
    (hstate : n'.stateMachine = n.stateMachine)
    (hlast : n'.lastExecutedHash = n.lastExecutedHash)
    (hids : n'.executedCommands = n.executedCommands) :
    Executed cfg n' := by
  constructor
  · rw [htree]
    exact h.sound
  · rw [htree, hstate, hlast, hids]
    exact h.branch

/-- **One action.**  Only a growing tree and an execution matter. -/
theorem Executed.act
    (hinj : Function.Injective2 cfg.hash)
    (h : Executed cfg n)
    (hact : Act cfg K fresh n n') :
    Executed cfg n' := by
  cases hact with
  | grow hgrows =>
      obtain ⟨hsound, hkeep⟩ := hgrows.sound hinj h.sound
      obtain ⟨steps, hbranch, hrest⟩ := h.branch
      exact ⟨hsound, steps, hkeep _ _ hbranch, hrest⟩
  | execute qc nodes _ _ hpath => exact (h.executeNodes hpath).1
  | send receiverID msg =>
      have hnode := toNode_send cfg n receiverID msg
      exact h.congr (by rw [hnode]) (by rw [hnode]) (by rw [hnode]) (by rw [hnode])
  | vote phase viewNumber nodeHash leaderID =>
      have hnode := toNode_castVote cfg n phase viewNumber nodeHash leaderID
      exact h.congr (by rw [hnode]) (by rw [hnode]) (by rw [hnode]) (by rw [hnode])
  | quiet => exact h.congr rfl rfl rfl rfl
  | store => exact h.congr rfl rfl rfl rfl
  | lock => exact h.congr rfl rfl rfl rfl
  | count => exact h.congr rfl rfl rfl rfl
  | certify => exact h.congr rfl rfl rfl rfl

theorem Executed.moves
    (hinj : Function.Injective2 cfg.hash)
    (h : Executed cfg n)
    (hmoves : Moves cfg K fresh n n') :
    Executed cfg n' := by
  induction hmoves with
  | refl => exact h
  | tail _ hmove ih =>
      cases hmove with
      | act hact => exact ih.act hinj hact
      | enter => exact ih.congr rfl rfl rfl rfl
      | forget => exact ih.congr rfl rfl rfl rfl

theorem executed_new (id : String) (shared : Shared) : Executed cfg ⟨Node.new id, shared⟩ :=
  ⟨treeSound_empty, [], branch_genesis _, rfl, fun _ => Iff.rfl⟩

/-- **One input.** -/
theorem Executed.handle
    {o : MapOrder String} {e : Event}
    (hinj : Function.Injective2 cfg.hash)
    (h : Executed cfg n) :
    Executed cfg (n.handle cfg o e) := by
  rcases handle_cases (o := o) (e := e) (ready_trivial cfg n) (fun _ _ => trivial)
      (fun _ _ _ _ => trivial) with hmoves | ⟨msg, -, -, heq⟩
  · exact h.moves hinj hmoves
  · rw [heq]
    exact h.congr rfl rfl rfl rfl

end Steps

end Process

open Process

section Runs

variable {cfg : Config} {id : String} {n : Process}

theorem executed_of_reachable
    (hinj : Function.Injective2 cfg.hash)
    (h : (exposed cfg id).Reachable System.anyStep n) :
    Executed cfg n := by
  refine System.Reachable.invariant (I := Executed cfg) (executed_new id _) ?_ h
  intro n i n' _ hinv _ hstep
  cases i with
  | handle o e =>
      cases hstep
      exact hinv.handle hinj
  | services nodeStore certificates =>
      cases hstep
      exact hinv.congr rfl rfl rfl rfl

/-- **Execution follows the tree.**  At all times the parent of every node of the tree is
in the tree up to the genesis block, and the state machine has executed the branch of the
last executed block; an execution that fails changes nothing. -/
theorem execution_follows_tree
    (hinj : Function.Injective2 cfg.hash)
    (h : (exposed cfg id).Reachable System.anyStep n) :
    (∀ nodeHash node, n.tree.get? nodeHash = some node →
      (node.parentHash = genesisHash ∨ n.tree.contains node.parentHash = true) ∧
      ∃ nodes, PointerWalk.Path n.tree.get? TreeNode.parentHash isGenesis nodeHash nodes
        genesisHash) ∧
    (∃ nodes, PointerWalk.Path n.tree.get? TreeNode.parentHash isGenesis n.lastExecutedHash nodes
        genesisHash ∧
      n.stateMachine = executeCommands (nodes.reverse.map TreeNode.cmd)) ∧
    ∀ (m : Process) (committedHash : String), (m.executeThrough cfg committedHash).1 = false →
      (m.executeThrough cfg committedHash).2.stateMachine = m.stateMachine ∧
        (m.executeThrough cfg committedHash).2.lastExecutedHash = m.lastExecutedHash := by
  have hexecuted := executed_of_reachable hinj h
  refine ⟨fun nodeHash node hget => ⟨hexecuted.sound.parent _ _ hget, ?_⟩, ?_, ?_⟩
  · have hknown : Known n.tree nodeHash := Or.inr (by simp [Dict.contains, hget])
    obtain ⟨steps, hbranch⟩ := hexecuted.sound.branch nodeHash hknown
    obtain ⟨nodes, -, hpath⟩ := hbranch.nodes
    exact ⟨nodes, hpath⟩
  · obtain ⟨steps, hbranch, hstate, -⟩ := hexecuted.branch
    obtain ⟨nodes, rfl, hpath⟩ := hbranch.nodes
    refine ⟨nodes, hpath, hstate.trans ?_⟩
    simp [branchCommands, List.map_reverse, Function.comp_def]
  · intro m committedHash hfailed
    obtain ⟨tree, -, ⟨hdone, -⟩ | ⟨-, heq⟩⟩ :=
      executeThrough_spec cfg m committedHash
    · rw [hfailed] at hdone
      cases hdone
    · rw [heq]
      exact ⟨rfl, rfl⟩

end Runs

/-- The node of view 2 is executed. -/
theorem execution_follows_tree_sample :
    ∃ n, (exposed fourNodes "N1").Reachable System.anyStep n ∧
      n.lastExecutedHash = firstNode.hash ∧
      (∀ nodeHash node, n.tree.get? nodeHash = some node →
        (node.parentHash = genesisHash ∨ n.tree.contains node.parentHash = true) ∧
        ∃ nodes, PointerWalk.Path n.tree.get? TreeNode.parentHash isGenesis nodeHash nodes
          genesisHash) ∧
      (∃ nodes, PointerWalk.Path n.tree.get? TreeNode.parentHash isGenesis n.lastExecutedHash nodes
          genesisHash ∧
        n.stateMachine = executeCommands (nodes.reverse.map TreeNode.cmd)) ∧
      ∀ (m : Process) (committedHash : String),
        (m.executeThrough fourNodes committedHash).1 = false →
        (m.executeThrough fourNodes committedHash).2.stateMachine = m.stateMachine ∧
          (m.executeThrough fourNodes committedHash).2.lastExecutedHash = m.lastExecutedHash := by
  obtain ⟨n, hrun, hlast⟩ : ∃ n, (exposed fourNodes "N1").Reachable System.anyStep n ∧
      n.lastExecutedHash = firstNode.hash := by
    refine System.exists_reaches_of_exec (earlyRequests ++ [sampleInput (.timeout 1)]) ?_
    decide +kernel
  exact ⟨n, hrun, hlast, execution_follows_tree sampleHash_injective hrun⟩

end GoHotStuff
end DistributedConsensus
