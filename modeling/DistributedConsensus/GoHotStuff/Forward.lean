import DistributedConsensus.GoHotStuff.Views
import DistributedConsensus.Foundations.Runs

/-!
# Go HotStuff: locks and views of one node

One node handles any messages, commands and timeouts, while the other nodes change the
shared services.  A node that replays the messages of a view may be taken to a later view
by a decision among them; it then handles the rest all the same.  A request of the left
view makes it take an old lock and vote for an old view.

When no request for a vote is kept behind a decision of its view, views and locks go
forward and every vote is for the current view (`locks_and_views_advance`).
-/

namespace DistributedConsensus
namespace GoHotStuff

open Foundations

/-- What happens to a node: an input, or a change of the services by the others. -/
inductive Input where
  | handle (o : MapOrder String) (e : Event)
  | services (nodeStore : NodeStore) (certificates : Dict String CertificateRecord)

/-- One node and whatever happens to it. -/
def exposed (cfg : Config) (id : String) : System Process Input where
  init := ⟨Node.new id, Shared.empty⟩
  step n
    | .handle o e => some (n.handle cfg o e)
    | .services nodeStore certificates =>
        some { n with
          shared := { n.shared with nodeStore := nodeStore, certificates := certificates } }

/-- The node handles an input only while no request of these types is kept behind a
decision of its view. -/
def Sequenced (cfg : Config) (types : List MsgType) (n : Process) : Input → Prop
  | .handle _ _ => Process.InSequence cfg types n
  | .services _ _ => True

instance (cfg : Config) (types : List MsgType) (n : Process) (i : Input) :
    Decidable (Sequenced cfg types n i) :=
  match i with
  | .handle _ _ => inferInstanceAs (Decidable (Process.InSequence cfg types n))
  | .services _ _ => isTrue trivial

/-- The phases in which a node votes. -/
def votingTypes : List MsgType := [.prepare, .preCommit, .commit]

namespace Process

section Steps

variable {cfg : Config} {K : SignatureShare → Prop} {n n' n'' : Process}

theorem Justified.mem_votingTypes
    {phase : MsgType} {viewNumber : ℤ} {nodeHash : String}
    (h : Justified cfg n phase viewNumber nodeHash) :
    phase ∈ votingTypes := by
  cases h <;> simp [votingTypes]

/-- The lock is not above the view, and every vote was for the view of the node. -/
structure Current (n : Process) : Prop where
  lock : ∀ qc, n.lockedQC = some qc → qc.viewNumber ≤ n.viewNumber
  signed : ∀ ballot ∈ n.shared.signed, ballot.current ≤ ballot.viewNumber

/-- Neither the view nor the lock has moved back. -/
structure Ahead (n n' : Process) : Prop where
  view : n.viewNumber ≤ n'.viewNumber
  lock : ∀ qc, n.lockedQC = some qc →
    ∃ qc', n'.lockedQC = some qc' ∧ qc.viewNumber ≤ qc'.viewNumber

theorem Ahead.of_eq
    (hview : n.viewNumber ≤ n'.viewNumber)
    (hlock : n'.lockedQC = n.lockedQC) :
    Ahead n n' :=
  ⟨hview, fun qc hqc => ⟨qc, hlock.trans hqc, le_refl _⟩⟩

theorem Ahead.refl (n : Process) : Ahead n n := Ahead.of_eq (le_refl _) rfl

theorem Ahead.trans
    (h : Ahead n n')
    (h' : Ahead n' n'') :
    Ahead n n'' := by
  refine ⟨le_trans h.view h'.view, fun qc hqc => ?_⟩
  obtain ⟨qc', hqc', hle⟩ := h.lock qc hqc
  obtain ⟨qc'', hqc'', hle'⟩ := h'.lock qc' hqc'
  exact ⟨qc'', hqc'', le_trans hle hle'⟩

/-- **One action.**  A fresh lock is of the current view, a fresh vote is for it. -/
theorem Act.ahead
    (hact : Act cfg K (Fresh votingTypes) n n')
    (h : Current n) :
    Current n' ∧ Ahead n n' := by
  have hview : n'.viewNumber = n.viewNumber := hact.frame.2.1
  rcases hact.voting with ⟨hlock, -, hsigned⟩ | ⟨qc, -, -, hfresh, hlock, -, hsigned⟩ |
    ⟨phase, viewNumber, nodeHash, -, hfresh, hjust, hlock, -, hsigned⟩
  · refine ⟨⟨fun qc hqc => ?_, by rw [hsigned]; exact h.signed⟩,
      Ahead.of_eq (le_of_eq hview.symm) hlock⟩
    rw [hview]
    exact h.lock qc (hlock.symm.trans hqc)
  · have hnow : qc.viewNumber = n.viewNumber := hfresh.2 (by simp [votingTypes])
    refine ⟨⟨fun qc' hqc' => ?_, by rw [hsigned]; exact h.signed⟩, le_of_eq hview.symm, ?_⟩
    · rw [hlock] at hqc'
      cases hqc'
      omega
    · intro old hold
      exact ⟨qc, hlock, le_trans (h.lock old hold) (le_of_eq hnow.symm)⟩
  · have hnow : viewNumber = n.viewNumber := hfresh.2 hjust.mem_votingTypes
    refine ⟨⟨fun qc hqc => ?_, ?_⟩, Ahead.of_eq (le_of_eq hview.symm) hlock⟩
    · rw [hview]
      exact h.lock qc (hlock.symm.trans hqc)
    · rw [hsigned]
      intro ballot hballot
      rcases List.mem_cons.mp hballot with rfl | hold
      · exact le_of_eq hnow.symm
      · exact h.signed ballot hold

theorem Moves.ahead
    (hmoves : Moves cfg K (Fresh votingTypes) n n')
    (h : Current n) :
    Current n' ∧ Ahead n n' := by
  induction hmoves with
  | refl => exact ⟨h, Ahead.refl n⟩
  | tail _ hmove ih =>
      obtain ⟨hcurrent, hahead⟩ := ih
      cases hmove with
      | act hact =>
          obtain ⟨hcurrent', hahead'⟩ := hact.ahead hcurrent
          exact ⟨hcurrent', hahead.trans hahead'⟩
      | enter newView hlt =>
          refine ⟨⟨fun qc hqc => ?_, hcurrent.signed⟩,
            hahead.trans (Ahead.of_eq (le_of_lt hlt) rfl)⟩
          exact le_trans (hcurrent.lock qc hqc) (le_of_lt hlt)
      | forget view =>
          exact ⟨⟨hcurrent.lock, hcurrent.signed⟩, hahead.trans (Ahead.of_eq (le_refl _) rfl)⟩

end Steps

end Process

open Process

section Runs

variable {cfg : Config} {id : String} {n n' : Process}

/-- **One step.**  A step that meets the condition goes forward. -/
theorem step_ahead
    {i : Input}
    (hkept : Kept (fun _ => True) n)
    (h : Current n)
    (hseq : Sequenced cfg votingTypes n i)
    (hstep : (exposed cfg id).step n i = some n') :
    Kept (fun _ => True) n' ∧ Current n' ∧ Ahead n n' := by
  cases i with
  | handle o e =>
      cases hstep
      obtain ⟨hkept', hmoves | ⟨futureMessages, heq⟩⟩ :=
        hkept.handle (o := o) (e := e) hseq fun _ _ _ _ => trivial
      · exact ⟨hkept', hmoves.ahead h⟩
      · refine ⟨hkept', ?_⟩
        rw [heq]
        exact ⟨⟨h.lock, h.signed⟩, Ahead.of_eq (le_refl _) rfl⟩
  | services nodeStore certificates =>
      cases hstep
      exact ⟨hkept, ⟨h.lock, h.signed⟩, Ahead.of_eq (le_refl _) rfl⟩

theorem current_of_reachable
    (h : (exposed cfg id).Reachable (Sequenced cfg votingTypes) n) :
    Kept (fun _ => True) n ∧ Current n := by
  refine System.Reachable.invariant (I := fun n => Kept (fun _ => True) n ∧ Current n) ?_ ?_ h
  · exact ⟨fun _ _ hget => (nomatch hget), (fun _ hqc => nomatch hqc),
      (fun _ hballot => nomatch hballot)⟩
  · intro n i n' _ hinv hseq hstep
    obtain ⟨hkept, hcurrent, -⟩ := step_ahead hinv.1 hinv.2 hseq hstep
    exact ⟨hkept, hcurrent⟩

/-- **Locks and views go forward.**  In a run in which no request for a vote is kept behind
a decision of its view, the view and the view of the lock never decrease, and no vote is
for a view below that of the node. -/
theorem locks_and_views_advance
    (hreach : (exposed cfg id).Reachable (Sequenced cfg votingTypes) n)
    (h : (exposed cfg id).Reaches (Sequenced cfg votingTypes) n n') :
    n.viewNumber ≤ n'.viewNumber ∧
      (∀ qc, n.lockedQC = some qc →
        ∃ qc', n'.lockedQC = some qc' ∧ qc.viewNumber ≤ qc'.viewNumber) ∧
      ∀ ballot ∈ n'.shared.signed, ballot.current ≤ ballot.viewNumber := by
  have hahead : Ahead n n' := by
    induction h with
    | refl => exact Ahead.refl n
    | tail hrun hseq hstep ih =>
        obtain ⟨hkept, hcurrent⟩ := current_of_reachable (hreach.trans hrun)
        exact ih.trans (step_ahead hkept hcurrent hseq hstep).2.2
  exact ⟨hahead.view, hahead.lock, (current_of_reachable (hreach.trans h)).2.signed⟩

end Runs

/-! ## A late request -/

section Sample

def sampleCommand (id : String) : Command := ⟨id, .blockAccount, "Ana", "", 0, ""⟩

/-- The node that is proposed below a parent in a view. -/
def sampleNode (parentHash id : String) (view : ℤ) : TreeNode :=
  ⟨parentHash, sampleCommand id, sampleHash parentHash (sampleCommand id), view⟩

/-- The node of view 2, and the node of view 3 below it. -/
def firstNode : TreeNode := sampleNode genesisHash "A" 2

def secondNode : TreeNode := sampleNode firstNode.hash "B" 3

/-- The share of a node on a vote. -/
def sampleShare (type : MsgType) (view : ℤ) (nodeHash signer : String) : SignatureShare :=
  ⟨signer, some ⟨signer, type, view, nodeHash⟩⟩

/-- The shares of some nodes. -/
def sampleShares (signers : List String) (type : MsgType) (view : ℤ) (nodeHash : String) :
    Dict String SignatureShare :=
  signers.foldl (fun shares id => shares.set id (sampleShare type view nodeHash id)) Dict.empty

def sampleQC (signers : List String) (type : MsgType) (view : ℤ) (nodeHash : String) :
    QuorumCertificate :=
  ⟨type, view, nodeHash,
    tokenOf fourNodes type view nodeHash (sampleShares signers type view nodeHash)⟩

/-- The signers of most certificates here. -/
def lastThree : List String := ["N2", "N3", "N4"]

/-- The certificates of two nodes and the nodes themselves, as the others leave them. -/
def sampleServices : Input :=
  .services ((NodeStore.empty.storeNode firstNode).storeNode secondNode)
    ([sampleQC lastThree .preCommit 2 firstNode.hash,
        sampleQC lastThree .commit 2 firstNode.hash,
        sampleQC lastThree .preCommit 3 secondNode.hash].foldl
      (fun certificates qc => certificates.set qc.thresholdSignature ⟨qc.type, qc.viewNumber,
        qc.nodeHash, sampleShares lastThree qc.type qc.viewNumber qc.nodeHash⟩)
      Dict.empty)

/-- A request of the leader of a view with a certificate. -/
def sampleRequest (type : MsgType) (qc : QuorumCertificate) : Message :=
  ⟨type, qc.viewNumber, none, some qc, fourNodes.leaderForView qc.viewNumber, none, false⟩

def sampleInput (e : Event) : Input := .handle (MapOrder.insertion String) e

/-- A node in view 1 keeps the decision of view 2 and a request of view 3. -/
def earlyRequests : List Input :=
  [sampleServices,
    sampleInput (.message (sampleRequest .decide
      (sampleQC lastThree .commit 2 firstNode.hash))),
    sampleInput (.message (sampleRequest .commit
      (sampleQC lastThree .preCommit 3 secondNode.hash)))]

/-- A run in which the request of view 2 does not come behind its decision. -/
theorem locks_and_views_advance_sample :
    ∃ n n', (exposed fourNodes "N1").Reaches (Sequenced fourNodes votingTypes) n n' ∧
      (n.viewNumber = 1 ∧ n'.viewNumber = 3 ∧ n'.shared.signed.length = 1) ∧
      n.viewNumber ≤ n'.viewNumber ∧
      (∀ qc, n.lockedQC = some qc →
        ∃ qc', n'.lockedQC = some qc' ∧ qc.viewNumber ≤ qc'.viewNumber) ∧
      ∀ ballot ∈ n'.shared.signed, ballot.current ≤ ballot.viewNumber := by
  obtain ⟨n', hrun, hend⟩ : ∃ n', (exposed fourNodes "N1").Reaches
      (Sequenced fourNodes votingTypes) (exposed fourNodes "N1").init n' ∧
      (n'.viewNumber = 3 ∧ n'.shared.signed.length = 1) := by
    refine System.exists_reaches_of_exec
      (earlyRequests ++ [sampleInput (.timeout 1)]) ?_
    decide +kernel
  exact ⟨_, n', hrun, ⟨rfl, hend⟩, locks_and_views_advance (System.Reaches.refl _) hrun⟩

/-- The request of view 2 comes behind its decision: the node votes for view 2 in view 3,
and its lock is that of view 2 again. -/
theorem not_locks_and_views_advance :
    ∃ n, (exposed fourNodes "N1").Reachable System.anyStep n ∧
      n.viewNumber = 3 ∧
      n.lockedQC = some (sampleQC lastThree .preCommit 2 firstNode.hash) ∧
      n.shared.signed =
        [⟨"N1", 3, .commit, 2, firstNode.hash⟩, ⟨"N1", 3, .commit, 3, secondNode.hash⟩] := by
  refine System.exists_reaches_of_exec (earlyRequests ++
    [sampleInput (.message (sampleRequest .commit
        (sampleQC lastThree .preCommit 2 firstNode.hash))),
      sampleInput (.timeout 1)]) ?_
  decide +kernel

end Sample

end GoHotStuff
end DistributedConsensus
