import DistributedConsensus.GoHotStuff.Cluster
import DistributedConsensus.GoHotStuff.Execution

/-!
# Go HotStuff: agreement

The votes of the correct nodes form a history in the sense of `Foundations.LockVoting`,
newest first: PREPARE votes are its prepare votes and COMMIT votes its commit votes.  The
history is legal in every run in which no correct node keeps a COMMIT request behind a
decision of its view.  Then two committed blocks lie on one branch, and of the nodes that
two correct nodes have executed, one sequence is a prefix of the other
(`executed_nodes_agree`).

A COMMIT request behind a decision is handled after the node has moved on.  It sets the
lock of the node back, and the node then supports a second branch.
-/

namespace DistributedConsensus
namespace GoHotStuff

open Foundations
open Foundations.LockVoting (Vote Legal Admissible Prepared Committed)

/-! ## The history -/

section History

variable {cfg : Config}

/-- The vote of a ballot; PRE-COMMIT ballots do not count. -/
def Ballot.toVote (cfg : Config) (ballot : Ballot) : Option (Vote (Member cfg) String) :=
  if h : ballot.voter ∈ cfg.nodeIDs.toFinset then
    match ballot.phase with
    | .prepare => some (.prepare ⟨ballot.voter, h⟩ ballot.viewNumber ballot.nodeHash)
    | .commit => some (.commit ⟨ballot.voter, h⟩ ballot.viewNumber ballot.nodeHash)
    | _ => none
  else none

/-- The signed votes, newest first. -/
def history (cfg : Config) (signed : List Ballot) : List (Vote (Member cfg) String) :=
  signed.filterMap (Ballot.toVote cfg)

variable {signed : List Ballot} {i : Member cfg} {view : ℤ} {nodeHash : String}

theorem toVote_eq_prepare
    {ballot : Ballot} :
    ballot.toVote cfg = some (.prepare i view nodeHash) ↔ ballot.voter = i.1 ∧
      ballot.phase = .prepare ∧ ballot.viewNumber = view ∧ ballot.nodeHash = nodeHash := by
  obtain ⟨voter, current, phase, viewNumber, hash⟩ := ballot
  obtain ⟨id, hid⟩ := i
  unfold Ballot.toVote
  by_cases hmem : voter ∈ cfg.nodeIDs.toFinset
  · cases phase <;> simp [hmem]
  · have hne : voter ≠ id := fun heq => hmem (heq ▸ hid)
    simp [hmem, hne]

theorem toVote_eq_commit
    {ballot : Ballot} :
    ballot.toVote cfg = some (.commit i view nodeHash) ↔ ballot.voter = i.1 ∧
      ballot.phase = .commit ∧ ballot.viewNumber = view ∧ ballot.nodeHash = nodeHash := by
  obtain ⟨voter, current, phase, viewNumber, hash⟩ := ballot
  obtain ⟨id, hid⟩ := i
  unfold Ballot.toVote
  by_cases hmem : voter ∈ cfg.nodeIDs.toFinset
  · cases phase <;> simp [hmem]
  · have hne : voter ≠ id := fun heq => hmem (heq ▸ hid)
    simp [hmem, hne]

theorem prepare_mem_history :
    Vote.prepare i view nodeHash ∈ history cfg signed ↔
      HasVoted signed i.1 .prepare view nodeHash := by
  simp only [history, List.mem_filterMap, toVote_eq_prepare, HasVoted]

theorem commit_mem_history :
    Vote.commit i view nodeHash ∈ history cfg signed ↔
      HasVoted signed i.1 .commit view nodeHash := by
  simp only [history, List.mem_filterMap, toVote_eq_commit, HasVoted]

variable {byz : Finset String} {hnodup : cfg.nodeIDs.Nodup} {hpos : 0 < cfg.nodeIDs.length}
  {hbyz : byz.card ≤ (cfg.nodeIDs.length - 1) / 3}

theorem prepared_iff :
    Prepared (votingGroup hnodup hpos hbyz) (history cfg signed) view nodeHash ↔
      Certified cfg byz signed .prepare view nodeHash := by
  simp only [Prepared, Certified, prepare_mem_history, votingGroup, Finset.mem_subtype]

theorem committed_iff :
    Committed (votingGroup hnodup hpos hbyz) (history cfg signed) view nodeHash ↔
      Certified cfg byz signed .commit view nodeHash := by
  simp only [Committed, Certified, commit_mem_history, votingGroup, Finset.mem_subtype]

/-- A supported vote was cast by a correct node. -/
theorem Certified.exists_voted
    {type : MsgType}
    (hnodup : cfg.nodeIDs.Nodup)
    (hpos : 0 < cfg.nodeIDs.length)
    (hbyz : byz.card ≤ (cfg.nodeIDs.length - 1) / 3)
    (h : Certified cfg byz signed type view nodeHash) :
    ∃ i : Member cfg, i.1 ∉ byz ∧ HasVoted signed i.1 type view nodeHash := by
  obtain ⟨Q, hQ, hvotes⟩ := h
  obtain ⟨i, hi, hcorrect⟩ := (votingGroup hnodup hpos hbyz).exists_correct hQ
  have hcorrect : i.1 ∉ byz := fun hmem => hcorrect (Finset.mem_subtype.mpr hmem)
  exact ⟨i, hcorrect, hvotes i hi hcorrect⟩

instance (cfg : Config) : IsPreorder String (Extends cfg) where
  refl _ := Relation.ReflTransGen.refl
  trans _ _ _ h h' := Relation.ReflTransGen.trans h h'

end History

/-! ## The invariant -/

namespace Process

section Safe

variable {cfg : Config} {byz : Finset String} {hnodup : cfg.nodeIDs.Nodup}
  {hpos : 0 < cfg.nodeIDs.length} {hbyz : byz.card ≤ (cfg.nodeIDs.length - 1) / 3}
variable {K : SignatureShare → Prop} {n n' : Process}

/-- The votes and the lock of a correct node. -/
structure Safe (hnodup : cfg.nodeIDs.Nodup) (hpos : 0 < cfg.nodeIDs.length)
    (hbyz : byz.card ≤ (cfg.nodeIDs.length - 1) / 3) (n : Process) : Prop where
  member : n.id ∈ cfg.nodeIDs
  correct : n.id ∉ byz
  views : ∀ ballot ∈ n.shared.signed, ballot.voter = n.id → ballot.viewNumber ≤ n.viewNumber
  backed : ∀ ballot ∈ n.shared.signed, ballot.phase = .preCommit →
    Certified cfg byz n.shared.signed .prepare ballot.viewNumber ballot.nodeHash
  legal : Legal (votingGroup hnodup hpos hbyz) (Extends cfg) (history cfg n.shared.signed)
  lock : ∀ qc, n.lockedQC = some qc →
    Certified cfg byz n.shared.signed .prepare qc.viewNumber qc.nodeHash
  commits : ∀ ballot ∈ n.shared.signed, ballot.voter = n.id → ballot.phase = .commit →
    ∃ qc, n.lockedQC = some qc ∧ ballot.viewNumber ≤ qc.viewNumber

/-- What the node has executed is committed. -/
def Decided (cfg : Config) (byz : Finset String) (n : Process) : Prop :=
  n.lastExecutedHash = genesisHash ∨
    ∃ view, Certified cfg byz n.shared.signed .commit view n.lastExecutedHash

/-- The invariant does not depend on the rest of the node. -/
theorem Safe.congr
    (h : Safe hnodup hpos hbyz n)
    (hid : n'.id = n.id)
    (hview : n.viewNumber ≤ n'.viewNumber)
    (hlock : n'.lockedQC = n.lockedQC)
    (hsigned : n'.shared.signed = n.shared.signed) :
    Safe hnodup hpos hbyz n' := by
  refine ⟨?_, ?_, ?_, ?_, ?_, ?_, ?_⟩
  · exact hid ▸ h.member
  · exact hid ▸ h.correct
  · rw [hsigned, hid]
    exact fun ballot hballot hvoter => le_trans (h.views ballot hballot hvoter) hview
  · rw [hsigned]
    exact h.backed
  · rw [hsigned]
    exact h.legal
  · rw [hsigned, hlock]
    exact h.lock
  · rw [hsigned, hlock, hid]
    exact h.commits

/-- A valid PRE-COMMIT certificate stands on a PREPARE certificate. -/
theorem Safe.prepared_of_preCommit
    {view : ℤ} {nodeHash : String}
    (h : Safe hnodup hpos hbyz n)
    (hcertified : Certified cfg byz n.shared.signed .preCommit view nodeHash) :
    Certified cfg byz n.shared.signed .prepare view nodeHash := by
  obtain ⟨i, -, ballot, hballot, -, hphase, rfl, rfl⟩ :=
    hcertified.exists_voted hnodup hpos hbyz
  exact h.backed ballot hballot hphase

/-- A fresh lock covers the COMMIT votes of the node. -/
theorem Safe.lockWith
    {qc : QuorumCertificate}
    (h : Safe hnodup hpos hbyz n)
    (hhonest : Honest cfg byz n)
    (htype : qc.type = .preCommit)
    (hverify : verifyQC cfg n.shared.certificates qc = true)
    (hfresh : qc.viewNumber = n.viewNumber) :
    Safe hnodup hpos hbyz { n with lockedQC := some qc } := by
  have hcertified := certified_of_verifyQC hhonest.certificates hverify
  rw [htype] at hcertified
  refine ⟨h.member, h.correct, h.views, h.backed, h.legal, ?_, ?_⟩
  · intro qc' hqc'
    cases hqc'
    exact h.prepared_of_preCommit hcertified
  · intro ballot hballot hvoter _
    exact ⟨qc, rfl, le_of_le_of_eq (h.views ballot hballot hvoter) hfresh.symm⟩

/-- A safe node extends what the lock protects. -/
theorem Safe.extends_of_lockAllows
    {node : TreeNode} {justify : Option QuorumCertificate} {lockedQC : QuorumCertificate}
    (h : Safe hnodup hpos hbyz n)
    (hhonest : Honest cfg byz n)
    (hexecuted : Executed cfg n)
    (hhash : cfg.hashNode node = node.hash)
    (hknown : Known n.tree node.hash)
    (hjustify : ∀ qc, justify = some qc → qc.type = .prepare ∧
      verifyQC cfg n.shared.certificates qc = true ∧ node.parentHash = qc.nodeHash)
    (hallows : LockAllows n node.hash justify)
    (hlock : n.lockedQC = some lockedQC) :
    ∃ view parent, lockedQC.viewNumber ≤ view ∧
      Certified cfg byz n.shared.signed .prepare view parent ∧ Extends cfg node.hash parent := by
  rcases hallows lockedQC hlock with hgen | ⟨nodes, stop, hpath⟩ | ⟨qc, hqc, hlt⟩
  · refine ⟨_, _, le_refl _, h.lock lockedQC hlock, ?_⟩
    obtain ⟨steps, hbranch⟩ := hexecuted.sound.branch _ hknown
    rw [hgen]
    exact (hbranch.chain hexecuted.sound).extends_genesis
  · exact ⟨_, _, le_refl _, h.lock lockedQC hlock, extends_of_path hexecuted.sound hpath⟩
  · obtain ⟨htype, hverify, hparent⟩ := hjustify qc hqc
    have hcertified := certified_of_verifyQC hhonest.certificates hverify
    rw [htype] at hcertified
    refine ⟨_, _, le_of_lt hlt, hcertified, Relation.ReflTransGen.single ⟨node.cmd, ?_⟩⟩
    rw [← hparent]
    exact hhash

/-- **The vote is admissible.** -/
theorem Safe.legal_vote
    {phase : MsgType} {view : ℤ} {nodeHash : String}
    (h : Safe hnodup hpos hbyz n)
    (hhonest : Honest cfg byz n)
    (hexecuted : Executed cfg n)
    (hnone : n.voted.get? (phase, view) = none)
    (hfresh : Fresh [.commit] phase view n.viewNumber)
    (hjust : Justified cfg n phase view nodeHash) :
    Legal (votingGroup hnodup hpos hbyz) (Extends cfg)
      (history cfg (⟨n.id, n.viewNumber, phase, view, nodeHash⟩ :: n.shared.signed)) := by
  have hid : n.id ∈ cfg.nodeIDs.toFinset := List.mem_toFinset.mpr h.member
  unfold history
  cases hjust with
  | prepare node justify hhash hknown hjustify hallows =>
      rw [List.filterMap_cons_some (toVote_eq_prepare (i := ⟨n.id, hid⟩).mpr ⟨rfl, rfl, rfl, rfl⟩)]
      refine Legal.cons ⟨fun g hg => ?_, fun v b hcommit hlt => ?_⟩ h.legal
      · -- Another vote of the view would be in the map.
        obtain ⟨ballot, hballot, hvoter, hphase, hview, -⟩ := prepare_mem_history.mp hg
        have hvoted := hhonest.voted ballot hballot hvoter
        rw [hphase, hview, hnone] at hvoted
        cases hvoted
      · obtain ⟨ballot, hballot, hvoter, hphase, rfl, -⟩ := commit_mem_history.mp hcommit
        obtain ⟨lockedQC, hlock, hle⟩ := h.commits ballot hballot hvoter hphase
        obtain ⟨w, parent, hle', hcertified, hext⟩ := h.extends_of_lockAllows hhonest hexecuted
          hhash hknown (fun qc hqc => ⟨(hjustify qc hqc).1, (hjustify qc hqc).2.2⟩) hallows hlock
        exact ⟨w, parent, le_trans hle hle', prepared_iff.mpr hcertified, hext⟩
  | preCommit qc =>
      rw [List.filterMap_cons_none (by simp [Ballot.toVote])]
      exact h.legal
  | commit qc _ _ hlock =>
      rw [List.filterMap_cons_some (toVote_eq_commit (i := ⟨n.id, hid⟩).mpr ⟨rfl, rfl, rfl, rfl⟩)]
      refine Legal.cons ⟨prepared_iff.mpr (h.lock qc hlock), fun u g hprepare hlt => ?_⟩ h.legal
      -- The node has not voted above its own view.
      obtain ⟨ballot, hballot, hvoter, -, rfl, -⟩ := prepare_mem_history.mp hprepare
      have hle := h.views ballot hballot hvoter
      have hnow := hfresh.2 (by simp)
      have hlt : qc.viewNumber < ballot.viewNumber := hlt
      omega

theorem Safe.vote
    {phase : MsgType} {view : ℤ} {nodeHash : String}
    (h : Safe hnodup hpos hbyz n)
    (hhonest : Honest cfg byz n)
    (hexecuted : Executed cfg n)
    (hnone : n.voted.get? (phase, view) = none)
    (hfresh : Fresh [.commit] phase view n.viewNumber)
    (hjust : Justified cfg n phase view nodeHash)
    (hid : n'.id = n.id)
    (hview : n'.viewNumber = n.viewNumber)
    (hlock : n'.lockedQC = n.lockedQC)
    (hsigned : n'.shared.signed =
      ⟨n.id, n.viewNumber, phase, view, nodeHash⟩ :: n.shared.signed) :
    Safe hnodup hpos hbyz n' := by
  have hsub : n.shared.signed ⊆ n'.shared.signed := by
    rw [hsigned]
    exact List.subset_cons_self _ _
  refine ⟨hid ▸ h.member, hid ▸ h.correct, ?_, ?_, ?_, ?_, ?_⟩
  · rw [hsigned, hid, hview]
    intro ballot hballot hvoter
    rcases List.mem_cons.mp hballot with rfl | hold
    · exact hfresh.1
    · exact h.views ballot hold hvoter
  · intro ballot hballot hphase
    rw [hsigned] at hballot
    rcases List.mem_cons.mp hballot with rfl | hold
    · cases hjust with
      | preCommit qc htype hverify =>
          have hcertified := certified_of_verifyQC hhonest.certificates hverify
          rw [htype] at hcertified
          exact hcertified.mono hsub
      | prepare => cases hphase
      | commit => cases hphase
    · exact (h.backed ballot hold hphase).mono hsub
  · rw [hsigned]
    exact h.legal_vote hhonest hexecuted hnone hfresh hjust
  · rw [hlock]
    exact fun qc hqc => (h.lock qc hqc).mono hsub
  · rw [hsigned, hlock, hid]
    intro ballot hballot hvoter hphase
    rcases List.mem_cons.mp hballot with rfl | hold
    · cases hjust with
      | commit qc _ _ hqc => exact ⟨qc, hqc, le_refl _⟩
      | prepare => cases hphase
      | preCommit => cases hphase
    · exact h.commits ballot hold hvoter hphase

/-- **One action keeps the votes safe.** -/
theorem Safe.act
    (h : Safe hnodup hpos hbyz n)
    (hhonest : Honest cfg byz n)
    (hexecuted : Executed cfg n)
    (hact : Act cfg K (Fresh [.commit]) n n') :
    Safe hnodup hpos hbyz n' := by
  obtain ⟨hid, hview, -⟩ := hact.frame
  rcases hact.voting with ⟨hlock, -, hsigned⟩ | ⟨qc, htype, hverify, hfresh, hlock, -, hsigned⟩ |
    ⟨phase, view, nodeHash, hnone, hfresh, hjust, hlock, -, hsigned⟩
  · exact h.congr hid (le_of_eq hview.symm) hlock hsigned
  · have hlocked := h.lockWith hhonest htype hverify (hfresh.2 (by simp))
    exact hlocked.congr hid (le_of_eq hview.symm) hlock hsigned
  · exact h.vote hhonest hexecuted hnone hfresh hjust hid hview hlock hsigned

/-- A decided certificate is the only reason to execute. -/
theorem Decided.act
    {fresh : MsgType → ℤ → ℤ → Prop}
    (h : Decided cfg byz n)
    (hhonest : Honest cfg byz n)
    (hexecuted : Executed cfg n)
    (hact : Act cfg K fresh n n') :
    Decided cfg byz n' := by
  have hsub := hact.signs.subset
  have hkeep : n'.lastExecutedHash = n.lastExecutedHash → Decided cfg byz n' := by
    intro heq
    unfold Decided
    rw [heq]
    exact h.imp id fun ⟨view, hcertified⟩ => ⟨view, hcertified.mono hsub⟩
  cases hact with
  | execute qc nodes htype hverify hpath =>
      have hcertified := certified_of_verifyQC hhonest.certificates hverify
      rw [htype] at hcertified
      unfold Decided
      rw [(hexecuted.executeNodes hpath).2]
      exact Or.inr ⟨qc.viewNumber, hcertified.mono hsub⟩
  | send receiverID msg => exact hkeep (by simp)
  | vote phase viewNumber nodeHash leaderID => exact hkeep (by simp)
  | quiet => exact hkeep rfl
  | grow => exact hkeep rfl
  | store => exact hkeep rfl
  | lock => exact hkeep rfl
  | count => exact hkeep rfl
  | certify => exact hkeep rfl

/-- What a correct node keeps in runs without late COMMIT requests. -/
structure Agreeing (hnodup : cfg.nodeIDs.Nodup) (hpos : 0 < cfg.nodeIDs.length)
    (hbyz : byz.card ≤ (cfg.nodeIDs.length - 1) / 3) (n : Process) : Prop where
  safe : Safe hnodup hpos hbyz n
  executed : Executed cfg n
  decided : Decided cfg byz n

theorem Agreeing.move
    (hinj : Function.Injective2 cfg.hash)
    (h : Agreeing hnodup hpos hbyz n)
    (hhonest : Honest cfg byz n)
    (hmove : Move cfg K (Fresh [.commit]) n n') :
    Agreeing hnodup hpos hbyz n' := by
  cases hmove with
  | act hact =>
      exact ⟨h.safe.act hhonest h.executed hact, h.executed.act hinj hact,
        h.decided.act hhonest h.executed hact⟩
  | enter newView hlt =>
      exact ⟨h.safe.congr rfl (le_of_lt hlt) rfl rfl, h.executed.congr rfl rfl rfl rfl, h.decided⟩
  | forget =>
      exact ⟨h.safe.congr rfl (le_refl _) rfl rfl, h.executed.congr rfl rfl rfl rfl, h.decided⟩

/-- **One input keeps the invariant.** -/
theorem Agreeing.moves
    (hinj : Function.Injective2 cfg.hash)
    (h : Agreeing hnodup hpos hbyz n)
    (hhonest : Honest cfg byz n)
    (hmoves : Moves cfg (Authentic cfg byz n.shared.signed) (Fresh [.commit]) n n') :
    Agreeing hnodup hpos hbyz n' := by
  induction hmoves with
  | refl => exact h
  | tail hrun hmove ih => exact ih.move hinj (hhonest.moves hrun) hmove

/-- The other nodes see more votes. -/
theorem Agreeing.other
    {m : Process}
    (h : Agreeing hnodup hpos hbyz n)
    (h' : Agreeing hnodup hpos hbyz n')
    (hsigns : Signs m n')
    (hshared : n.shared = m.shared)
    (hid : n.id ≠ m.id) :
    Agreeing hnodup hpos hbyz { n with shared := n'.shared } := by
  have hsub : n.shared.signed ⊆ n'.shared.signed := by
    rw [hshared]
    exact hsigns.subset
  have hown : ∀ ballot ∈ n'.shared.signed, ballot.voter = n.id → ballot ∈ n.shared.signed := by
    obtain ⟨ballots, heq, hall⟩ := hsigns
    intro ballot hballot hvoter
    rw [heq] at hballot
    rcases List.mem_append.mp hballot with hnew | hold
    · exact absurd (hvoter.symm.trans (hall ballot hnew)) hid
    · exact hshared ▸ hold
  refine ⟨⟨h.safe.member, h.safe.correct, fun ballot hballot hvoter => ?_, h'.safe.backed,
    h'.safe.legal, fun qc hqc => (h.safe.lock qc hqc).mono hsub,
    fun ballot hballot hvoter hphase => ?_⟩, h.executed.congr rfl rfl rfl rfl, ?_⟩
  · exact h.safe.views ballot (hown ballot hballot hvoter) hvoter
  · exact h.safe.commits ballot (hown ballot hballot hvoter) hvoter hphase
  · exact h.decided.imp id fun ⟨view, hcertified⟩ => ⟨view, hcertified.mono hsub⟩

theorem agreeing_new
    {id : String}
    (hid : id ∈ cfg.nodeIDs)
    (hcorrect : id ∉ byz) :
    Agreeing hnodup hpos hbyz ⟨Node.new id, Shared.empty⟩ := by
  refine ⟨⟨hid, hcorrect, ?_, ?_, Legal.nil, ?_, ?_⟩, executed_new id _, Or.inl rfl⟩
  · exact fun _ hballot => nomatch hballot
  · exact fun _ hballot => nomatch hballot
  · exact fun _ hqc => nomatch hqc
  · exact fun _ hballot => nomatch hballot

end Safe

end Process

open Process

/-! ## Executed nodes -/

/-- The nodes on the branch of the last executed block, from the genesis block upwards. -/
def Node.executedNodes (n : Node) : List TreeNode :=
  match PointerWalk.walk n.tree.get? TreeNode.parentHash isGenesis (n.tree.size + 1) []
      n.lastExecutedHash with
  | none => []
  | some (nodes, _) => nodes.reverse

/-- What is hashed of a node. -/
def TreeNode.contents (node : TreeNode) : String × Command := (node.parentHash, node.cmd)

section Runs

variable {cfg : Config} {byz : Finset String} {w : World}

/-- The executed nodes are those of the branch. -/
theorem executedNodes_spec
    {n : Process} {steps : List (String × Command)}
    (hbranch : Branch n.tree n.lastExecutedHash steps) :
    n.executedNodes.map TreeNode.contents = steps.reverse := by
  obtain ⟨nodes, rfl, hpath⟩ := hbranch.nodes
  have hwalk : PointerWalk.walk n.tree.get? TreeNode.parentHash isGenesis (n.tree.size + 1) []
      n.lastExecutedHash = some (nodes, genesisHash) :=
    (PointerWalk.walk_eq_some_iff (fun k node hget => mem_keys_of_get? hget)
      (by simp [Dict.keys, Dict.size])).mpr hpath
  rw [Node.executedNodes, hwalk, List.map_reverse]
  rfl

/-- **Agreement.**  In a run in which no correct node keeps a COMMIT request behind a
decision of its view, the nodes executed by two correct nodes are prefixes of one
sequence. -/
theorem executed_nodes_agree
    (hnodup : cfg.nodeIDs.Nodup)
    (hpos : 0 < cfg.nodeIDs.length)
    (hbyz : byz.card ≤ (cfg.nodeIDs.length - 1) / 3)
    (hinj : Function.Injective2 cfg.hash)
    (hgen : ∀ parentHash cmd, cfg.hash parentHash cmd ≠ genesisHash)
    (h : (cluster cfg byz).Reachable (NodesSequenced cfg [.commit]) w)
    {i j : String}
    (hi : i ∈ cfg.nodeIDs)
    (hj : j ∈ cfg.nodeIDs)
    (hcorrect : i ∉ byz)
    (hcorrect' : j ∉ byz) :
    (w.nodes i).executedNodes.map TreeNode.contents
        <+: (w.nodes j).executedNodes.map TreeNode.contents ∨
      (w.nodes j).executedNodes.map TreeNode.contents
        <+: (w.nodes i).executedNodes.map TreeNode.contents := by
  have hinv := cluster_invariant (J := Agreeing hnodup hpos hbyz)
    (fun id hid hcorrect => agreeing_new hid hcorrect)
    (fun n n' hhonest hJ hmoves => hJ.moves hinj hhonest hmoves)
    (fun n futureMessages nodeStore certificates hJ =>
      ⟨hJ.safe.congr rfl (le_refl _) rfl rfl, hJ.executed.congr rfl rfl rfl rfl, hJ.decided⟩)
    (fun n m n' hJ hJ' hsigns hshared hid => hJ.other hJ' hsigns hshared hid) h
  obtain ⟨-, -, hagree⟩ := hinv i hi hcorrect
  obtain ⟨-, -, hagree'⟩ := hinv j hj hcorrect'
  obtain ⟨steps, hbranch, -⟩ := hagree.executed.branch
  obtain ⟨steps', hbranch', -⟩ := hagree'.executed.branch
  have hchain := hbranch.chain hagree.executed.sound
  have hchain' := hbranch'.chain hagree'.executed.sound
  have hext : Extends cfg (w.nodes j).lastExecutedHash (w.nodes i).lastExecutedHash ∨
      Extends cfg (w.nodes i).lastExecutedHash (w.nodes j).lastExecutedHash := by
    rcases hagree.decided with hgenesis | ⟨view, hcommitted⟩
    · refine Or.inl ?_
      rw [show (w.nodes i).lastExecutedHash = genesisHash from hgenesis]
      exact hchain'.extends_genesis
    · rcases hagree'.decided with hgenesis | ⟨view', hcommitted'⟩
      · refine Or.inr ?_
        rw [show (w.nodes j).lastExecutedHash = genesisHash from hgenesis]
        exact hchain.extends_genesis
      · exact hagree.safe.legal.committed_comparable
          (committed_iff.mpr hcommitted) (committed_iff.mpr hcommitted')
  have hspec := executedNodes_spec (n := w.process i) hbranch
  have hspec' := executedNodes_spec (n := w.process j) hbranch'
  rw [show (w.nodes i).executedNodes.map TreeNode.contents = steps.reverse from hspec,
    show (w.nodes j).executedNodes.map TreeNode.contents = steps'.reverse from hspec',
    List.reverse_prefix, List.reverse_prefix]
  exact hext.imp (fun hext => Chain.suffix hinj hgen hext hchain' hchain)
    fun hext => Chain.suffix hinj hgen hext hchain hchain'

end Runs

/-! ## Two branches -/

section Sample

/-- A second node below the node of view 2, proposed in view 6. -/
def thirdNode : TreeNode := sampleNode firstNode.hash "C" 6

/-- A message reaches some nodes. -/
def delivered (ids : List String) (msg : Message) : List Label :=
  ids.map fun id => handled id (.message msg)

def timeouts (id : String) (views : List ℤ) : List Label :=
  views.map fun view => handled id (.timeout view)

/-- A proposal of the leader of the view. -/
def proposal (node : TreeNode) (justify : Option QuorumCertificate) : Message :=
  ⟨.prepare, node.proposedView, some node, justify,
    fourNodes.leaderForView node.proposedView, none, false⟩

/-- A request of the leader with a certificate of the signers. -/
def certified (signers : List String) (type qcType : MsgType) (node : TreeNode) : Message :=
  sampleRequest type (sampleQC signers qcType node.proposedView node.hash)

/-- The votes of the signers for a node, each in its own message. -/
def voted (signers : List String) (type : MsgType) (node : TreeNode) : List Label :=
  signers.flatMap fun id => delivered [fourNodes.leaderForView node.proposedView]
    ⟨type, node.proposedView, some node, none, id,
      some (sampleShare type node.proposedView node.hash id), true⟩

/-- The faulty leader combines the shares of the signers. -/
def combined (signers : List String) (type : MsgType) (node : TreeNode) : Label :=
  .combine type node.proposedView node.hash
    (sampleShares signers type node.proposedView node.hash)

/-- The faulty leader takes a node through the phases up to COMMIT with two others. -/
def committedBy (signers ids : List String) (node : TreeNode) (justify : Option QuorumCertificate) :
    List Label :=
  delivered ids (proposal node justify) ++ [combined signers .prepare node] ++
    delivered ids (certified signers .preCommit .prepare node) ++
    [combined signers .preCommit node] ++
    delivered ids (certified signers .commit .preCommit node) ++
    [combined signers .commit node]

/-- View 2 is led by the faulty node and decides the first node; the node of view 1 stays
behind. -/
def firstDecision : List Label :=
  timeouts "N3" [1] ++ timeouts "N4" [1] ++
    committedBy lastThree ["N3", "N4"] firstNode none ++
    delivered ["N3", "N4"] (certified lastThree .decide .commit firstNode)

/-- The certificate below which the later nodes are proposed. -/
def firstQC : QuorumCertificate := sampleQC lastThree .prepare 2 firstNode.hash

/-- The correct leader of view 3 proposes the second node and gets its certificates. -/
def secondPrepared : List Label :=
  [handled "N3" (.command (sampleCommand "B"))] ++
    delivered ["N3"] ⟨.newView, 2, none, some firstQC, "N3", none, false⟩ ++
    delivered ["N3"] ⟨.newView, 2, none, some firstQC, "N4", none, false⟩ ++
    delivered ["N3"] ⟨.newView, 2, none, none, "N2", none, false⟩ ++
    delivered ["N3", "N4"] (proposal secondNode (some firstQC)) ++
    voted lastThree .prepare secondNode ++
    delivered ["N3", "N4"] (certified lastThree .preCommit .prepare secondNode) ++
    voted lastThree .preCommit secondNode

/-- The node that stayed behind handles the COMMIT request of view 2 behind the decision
and votes for the second node on the way; this completes the second decision. -/
def secondDecision : List Label :=
  delivered ["N3", "N1"] (certified lastThree .commit .preCommit secondNode) ++
    delivered ["N1"] (certified lastThree .decide .commit firstNode) ++
    delivered ["N1"] (certified lastThree .commit .preCommit firstNode) ++
    timeouts "N1" [1] ++
    voted ["N1", "N2", "N3"] .commit secondNode ++
    delivered ["N3"] (certified ["N1", "N2", "N3"] .decide .commit secondNode)

/-- The lock of that node is old enough for a node of view 6 beside the second one. -/
def thirdDecision : List Label :=
  timeouts "N1" [3, 4, 5] ++ timeouts "N4" [3, 4, 5] ++
    committedBy ["N1", "N2", "N4"] ["N1", "N4"] thirdNode (some firstQC) ++
    delivered ["N4"] (certified ["N1", "N2", "N4"] .decide .commit thirdNode)

/-- Two correct nodes have executed different nodes above the first one. -/
theorem not_executed_nodes_agree :
    Function.Injective2 fourNodes.hash ∧
      ∃ w, (cluster fourNodes {"N2"}).Reachable System.anyStep w ∧
        ¬ ((w.nodes "N3").executedNodes.map TreeNode.contents
            <+: (w.nodes "N4").executedNodes.map TreeNode.contents) ∧
        ¬ ((w.nodes "N4").executedNodes.map TreeNode.contents
            <+: (w.nodes "N3").executedNodes.map TreeNode.contents) := by
  refine ⟨sampleHash_injective, System.exists_reaches_of_exec
    (firstDecision ++ secondPrepared ++ secondDecision ++ thirdDecision) ?_⟩
  decide +kernel

/-- Two nodes have executed the first node. -/
theorem executed_nodes_agree_sample :
    ∃ w, (cluster fourNodes {"N2"}).Reachable (NodesSequenced fourNodes [.commit]) w ∧
      ((w.nodes "N3").executedNodes = [firstNode] ∧
        (w.nodes "N4").executedNodes = [firstNode]) ∧
      ((w.nodes "N3").executedNodes.map TreeNode.contents
          <+: (w.nodes "N4").executedNodes.map TreeNode.contents ∨
        (w.nodes "N4").executedNodes.map TreeNode.contents
          <+: (w.nodes "N3").executedNodes.map TreeNode.contents) := by
  obtain ⟨w, hrun, hexecuted⟩ : ∃ w,
      (cluster fourNodes {"N2"}).Reachable (NodesSequenced fourNodes [.commit]) w ∧
      ((w.nodes "N3").executedNodes = [firstNode] ∧
        (w.nodes "N4").executedNodes = [firstNode]) := by
    refine System.exists_reaches_of_exec firstDecision ?_
    decide +kernel
  exact ⟨w, hrun, hexecuted, executed_nodes_agree (by decide) (by decide) (by decide)
    sampleHash_injective sampleHash_ne_genesis hrun (by decide) (by decide) (by decide)
    (by decide)⟩

end Sample

end GoHotStuff
end DistributedConsensus
