import DistributedConsensus.Flooding.Node
import DistributedConsensus.Foundations.Nodes

/-!
# Flooding consensus: processes that crash

The processes with links that lose nothing and deliver in any order, and a
failure detector that reports crashed processes only.  A process may crash
between two inputs, or while it handles one: then it has made some of its
broadcasts, and the next one has reached some of the processes.
-/

namespace DistributedConsensus
namespace Flooding

open Foundations

variable {P V : Type} [DecidableEq P] [LinearOrder V]

/-- A node with its status. -/
structure Process (P V : Type) extends ConsensusNode P V where
  crashed : Bool

inductive Event (P V : Type) where
  | input (i : Input P V)
  /-- The process crashes, during an input or between two: `k` broadcasts are
  complete and the next one reaches the processes in `reach`. -/
  | crash (i : Option (Input P V)) (k : ℕ) (reach : Finset P)

/-- The input that a process handles in an event. -/
def Event.input? : Event P V → Option (Input P V)
  | .input i => some i
  | .crash i _ _ => i

/-- The processes by their ids. -/
abbrev Cluster (P V : Type) := P → Process P V

/-- The broadcasts that leave a crashing process. -/
def cut (reach : Finset P) : ℕ → List (Broadcast P V) → List (Broadcast P V)
  | _, [] => []
  | 0, b :: _ => [⟨b.recipients ∩ reach, b.msg⟩]
  | k + 1, b :: bs => b :: cut reach k bs

variable (allIDs : Finset P)

/-- The input can reach the process. -/
def Cluster.Arrives (w : Cluster P V) (p : P) : Input P V → Prop
  | .propose _ => (w p).proposal = none
  | .message m => ∃ b ∈ (w m.sender).sent, b.msg = m ∧ p ∈ b.recipients
  | .crashDetected q => (w q).crashed = true

instance (w : Cluster P V) (p : P) : ∀ i, Decidable (w.Arrives p i)
  | .propose _ => inferInstanceAs (Decidable (_ = none))
  | .message _ => inferInstanceAs (Decidable (∃ b ∈ _, _))
  | .crashDetected _ => inferInstanceAs (Decidable (_ = true))

/-- The event can happen at the process. -/
def Cluster.Enabled (w : Cluster P V) (p : P) (e : Event P V) : Prop :=
  p ∈ allIDs ∧ (w p).crashed = false ∧ ∀ i ∈ e.input?, w.Arrives p i

instance (w : Cluster P V) (p : P) (e : Event P V) : Decidable (w.Enabled allIDs p e) :=
  inferInstanceAs (Decidable (_ ∧ _ ∧ _))

/-- One pass of the loop of `Run`, or a crash. -/
def Process.handle (x : Process P V) : Event P V → Process P V
  | .input i => { x with toConsensusNode := x.toConsensusNode.handle allIDs i }
  | .crash none _ _ => { x with crashed := true }
  | .crash (some i) k reach =>
      let n := x.toConsensusNode.handle allIDs i
      { toConsensusNode := { n with
          sent := x.sent ++ cut reach k (n.sent.drop x.sent.length) }
        crashed := true }

/-- The processes as a network. -/
def nodes (V : Type) [LinearOrder V] : Nodes P (Process P V) (Event P V) where
  start := fun p => ⟨ConsensusNode.new allIDs p, false⟩
  Enabled := fun w p e => Cluster.Enabled allIDs w p e
  handle := fun _ x e => x.handle allIDs e

instance (w : P → Process P V) (p : P) (e : Event P V) :
    Decidable ((nodes allIDs V).Enabled w p e) :=
  inferInstanceAs (Decidable (Cluster.Enabled allIDs w p e))

/-- The runs of a set of processes. -/
def cluster (V : Type) [LinearOrder V] : System (Cluster P V) (P × Event P V) :=
  (nodes allIDs V).system

/-- All proposals that were sent to the process have been received. -/
def Cluster.HeardAll (w : Cluster P V) (p q : P) : Prop :=
  ∀ b ∈ (w q).sent, p ∈ b.recipients → ∀ r vals, b.msg = .proposal r q vals →
    q ∈ (w p).heardFrom r

/-- The condition on a step.  When the process enters a round, it has received
early no values of that round but those of the present one.  When it learns of a
crash, it has received all the proposals that were sent to it before. -/
def Cluster.Respects (w : Cluster P V) (l : P × Event P V) : Prop :=
  (∀ i ∈ l.2.input?, ∀ n ∈ (w l.1).toConsensusNode.checked i, n.ready = true →
    n.settled = false → n.known (n.round + 1) ⊆ n.known n.round) ∧
  ∀ q, l.2.input? = some (.crashDetected q) → w.HeardAll l.1 q

section Decidability

instance (m : ConsensusMessage P V) (q : P) (known : ℕ → Finset P) :
    Decidable (∀ r vals, m = .proposal r q vals → q ∈ known r) :=
  match m with
  | .proposal r s vals =>
      decidable_of_iff (s = q → q ∈ known r)
        ⟨fun h r' vals' heq => by cases heq; exact h rfl, fun h hs => h r vals (by rw [hs])⟩
  | .decided _ _ => isTrue nofun

instance (w : Cluster P V) (p q : P) : Decidable (w.HeardAll p q) :=
  inferInstanceAs (Decidable (∀ b ∈ _, _ → _))

instance (i : Option (Input P V)) (c : P → Prop) [DecidablePred c] :
    Decidable (∀ q, i = some (.crashDetected q) → c q) :=
  match i with
  | some (.crashDetected q) =>
      decidable_of_iff (c q) ⟨fun h q' heq => by cases heq; exact h, fun h => h q rfl⟩
  | none | some (.propose _) | some (.message _) => isTrue nofun

instance (w : Cluster P V) (l : P × Event P V) : Decidable (w.Respects l) :=
  inferInstanceAs (Decidable (_ ∧ _))

end Decidability

end Flooding
end DistributedConsensus
