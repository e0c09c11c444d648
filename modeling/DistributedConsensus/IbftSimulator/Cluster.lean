import DistributedConsensus.Foundations.Nodes
import DistributedConsensus.Foundations.RoundVoting
import DistributedConsensus.IbftSimulator.Effects

/-!
# IBFT simulator: the cluster

The nodes `0, …, 3f`, all of which run the program or crash.  A message reaches a
node after any delay or never, a timer expires at any time, and a node that has
confirmed a block starts the next one at any later time.

A message is backed when the votes of the nodes bear it out: a vote has a proposal
and its justification, a COMMIT and a ROUND-CHANGE have a quorum of PREPAREs.
-/

namespace DistributedConsensus
namespace IbftSimulator

open Foundations

/-- The parameters of a run: what the nodes are constructed and started with. -/
structure Deployment where
  f : ℕ
  input : ℤ → String
  value : ℤ → String
  scenario : ℤ → Scenario

/-- What makes a node act. -/
inductive Input where
  | deliver (m : IBFTMessage)
  | timer
  | next
  | stop

/-- An input, and the order in which the handler iterates over a map. -/
structure Event where
  input : Input
  order : MapOrder ℤ

/-- The message that the node receives. -/
def Input.message : Input → Option IBFTMessage
  | deliver m => some m
  | timer | next | stop => none

/-- The nodes by their ids. -/
abbrev Cluster := ℤ → IBFTNode

/-- One step of a node. -/
def IBFTNode.handle (n : IBFTNode) (e : Event) : IBFTNode :=
  match e.input with
  | .deliver m => n.handleMessage e.order m
  | .timer => n.onTimerExpire
  | .next => IBFTNode.nextInstance { n with pending := n.pending - 1 }
  | .stop => n.stop

variable (D : Deployment)

/-- The number of nodes. -/
def Deployment.size : ℕ := 3 * D.f + 1

def Deployment.validators : List ℤ := (List.range D.size).map fun k => (k : ℤ)

def Deployment.IsNode (i : ℤ) : Prop := 0 ≤ i ∧ i < D.size

instance (i : ℤ) : Decidable (D.IsNode i) := inferInstanceAs (Decidable (_ ∧ _))

/-- A node that has been started for the first block. -/
def Deployment.boot (i : ℤ) : IBFTNode :=
  (IBFTNode.new i (D.input i) D.validators (D.scenario i)).start 1 1 (D.value i) []

/-- A node has sent the message. -/
def Cluster.Known (w : Cluster) (m : IBFTMessage) : Prop :=
  D.IsNode m.senderID ∧ m ∈ (w m.senderID).sent

instance (w : Cluster) (m : IBFTMessage) : Decidable (w.Known D m) :=
  inferInstanceAs (Decidable (_ ∧ _))

/-- The input can happen at the node. -/
def Cluster.Enabled (w : Cluster) (i : ℤ) : Input → Prop
  | .deliver m => D.IsNode i ∧ w.Known D m
  | .timer => D.IsNode i
  | .next => D.IsNode i ∧ 0 < (w i).pending
  | .stop => D.IsNode i

instance (w : Cluster) (i : ℤ) : ∀ e, Decidable (w.Enabled D i e)
  | .deliver _ => inferInstanceAs (Decidable (_ ∧ _))
  | .timer => inferInstanceAs (Decidable (D.IsNode i))
  | .next => inferInstanceAs (Decidable (_ ∧ _))
  | .stop => inferInstanceAs (Decidable (D.IsNode i))

/-- The nodes as a network. -/
def nodes : Nodes ℤ IBFTNode Event where
  start := D.boot
  Enabled := fun w i e => Cluster.Enabled D w i e.input
  handle := fun _ n e => n.handle e

instance (w : ℤ → IBFTNode) (i : ℤ) (e : Event) : Decidable ((nodes D).Enabled w i e) :=
  inferInstanceAs (Decidable (Cluster.Enabled D w i e.input))

/-- The runs of a deployment. -/
def cluster : System Cluster (ℤ × Event) := (nodes D).system

/-- A message that the node acts upon belongs to the block of the node. -/
def SameInstance (w : Cluster) (l : ℤ × Event) : Prop :=
  ∀ m ∈ l.2.input.message, (w l.1).SameInstance m

instance (w : Cluster) (l : ℤ × Event) : Decidable (SameInstance w l) :=
  inferInstanceAs (Decidable (∀ m ∈ l.2.input.message, (w l.1).SameInstance m))

/-! ## The votes of a block -/

/-- The prepared round that a ROUND-CHANGE names. -/
def RoundChange.reported (m : RoundChange) : Option ℤ :=
  if m.preparedRound = -1 then none else some m.preparedRound

/-- No node is faulty, and `2f+1` votes are a quorum. -/
def votingGroup : LockVoting.Group (Fin D.size) where
  faulty := ∅
  quorum := 2 * D.f + 1
  quorum_large := by
    rw [Fintype.card_fin, Finset.card_empty]
    unfold Deployment.size
    omega

namespace Cluster

/-- What the nodes have announced for a block. -/
def record (w : Cluster) (lambda : ℤ) : RoundVoting.Record (Fin D.size) String where
  prepares i r v := .prepare ⟨lambda, r, v, i, some i⟩ ∈ (w i).sent
  commits i r v := .commit ⟨lambda, r, v, i, some i⟩ ∈ (w i).sent
  roundChanges i r c := ∃ m : RoundChange, .roundChange m ∈ (w i).sent ∧
    m.lambda = lambda ∧ m.round = r ∧ m.reported = c

variable (w : Cluster)

/-- A quorum has prepared the value. -/
def Prepared (lambda r : ℤ) (v : String) : Prop :=
  RoundVoting.Prepared (votingGroup D) (w.record D lambda) r v

/-- A quorum has committed the value. -/
def Committed (lambda r : ℤ) (v : String) : Prop :=
  RoundVoting.Committed (votingGroup D) (w.record D lambda) r v

/-- A quorum of round changes admits the value. -/
def Justified (lambda r : ℤ) (v : String) : Prop :=
  RoundVoting.Justified (votingGroup D) (w.record D lambda) r v

/-- What a node reports as prepared. -/
def Reports (lambda r pr : ℤ) (pv : String) : Prop :=
  pr = -1 ∨ 1 ≤ pr ∧ pr < r ∧ pv ≠ "" ∧ w.Prepared D lambda pr pv

/-- The proof of a proposal consists of ROUND-CHANGE messages of its round. -/
def Supported (m : PrePrepare) : Prop :=
  m.round ≤ 1 ∨ (m.proofRC.map RoundChange.senderID).Nodup ∧
    ∀ c ∈ m.proofRC, w.Known D (.roundChange c) ∧ c.lambda = m.lambda ∧ c.round = m.round

/-- The votes of the nodes bear the message out. -/
def Backed : IBFTMessage → Prop
  | .prePrepare m =>
      m.value ≠ "" ∧ m.senderID = Int.tmod (m.lambda + m.round) D.size ∧ w.Supported D m
  | .prepare m =>
      (∃ p, w.Known D (.prePrepare p) ∧ p.lambda = m.lambda ∧ p.round = m.round ∧
        p.value = m.value) ∧ (m.round ≤ 1 ∨ w.Justified D m.lambda m.round m.value)
  | .commit m => 1 ≤ m.round ∧ w.Prepared D m.lambda m.round m.value
  | .roundChange m => 2 ≤ m.round ∧ w.Reports D m.lambda m.round m.preparedRound m.preparedValue

/-- The progress of a node: it keeps its id and what it has sent. -/
def Grows (n n' : IBFTNode) : Prop := n'.id = n.id ∧ n.sent <+: n'.sent

theorem Grows.refl (n : IBFTNode) : Grows n n := ⟨rfl, List.prefix_refl _⟩

theorem Grows.trans
    {n n' n'' : IBFTNode}
    (h : Grows n n')
    (h' : Grows n' n'') :
    Grows n n'' :=
  ⟨h'.1.trans h.1, h.2.trans h'.2⟩

/-! ### Nothing is taken back -/

section Monotone

variable {D} {w} {w' : Cluster} (hext : Nodes.Extends Grows w w')

include hext

theorem Known.mono {m : IBFTMessage} (h : w.Known D m) : w'.Known D m :=
  ⟨h.1, (hext _).2.subset h.2⟩

theorem Prepared.mono {lambda r : ℤ} {v : String} (h : w.Prepared D lambda r v) :
    w'.Prepared D lambda r v :=
  RoundVoting.Prepared.mono (fun i _ _ h => (hext i).2.subset h) h

theorem Committed.mono {lambda r : ℤ} {v : String} (h : w.Committed D lambda r v) :
    w'.Committed D lambda r v :=
  RoundVoting.Committed.mono (fun i _ _ h => (hext i).2.subset h) h

theorem Justified.mono {lambda r : ℤ} {v : String} (h : w.Justified D lambda r v) :
    w'.Justified D lambda r v := by
  refine RoundVoting.Justified.mono (fun i _ _ h => (hext i).2.subset h) ?_ h
  rintro i r c ⟨m, hm, hreport⟩
  exact ⟨m, (hext i).2.subset hm, hreport⟩

theorem Reports.mono {lambda r pr : ℤ} {pv : String} (h : w.Reports D lambda r pr pv) :
    w'.Reports D lambda r pr pv :=
  h.imp_right fun ⟨hpos, hlt, hne, hprepared⟩ => ⟨hpos, hlt, hne, hprepared.mono hext⟩

theorem Supported.mono {m : PrePrepare} (h : w.Supported D m) : w'.Supported D m :=
  h.imp_right fun ⟨hnodup, hproof⟩ =>
    ⟨hnodup, fun c hc => ⟨(hproof c hc).1.mono hext, (hproof c hc).2⟩⟩

theorem Backed.mono {m : IBFTMessage} (h : w.Backed D m) : w'.Backed D m := by
  cases m with
  | prePrepare m => exact ⟨h.1, h.2.1, h.2.2.mono hext⟩
  | prepare m =>
      obtain ⟨⟨p, hp, hsame⟩, hjustified⟩ := h
      exact ⟨⟨p, hp.mono hext, hsame⟩, hjustified.imp_right fun h => h.mono hext⟩
  | commit m => exact ⟨h.1, h.2.mono hext⟩
  | roundChange m => exact ⟨h.1, h.2.mono hext⟩

end Monotone

end Cluster

end IbftSimulator
end DistributedConsensus
