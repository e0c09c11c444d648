import DistributedConsensus.Foundations.Nodes
import DistributedConsensus.Nbft.Steps

/-!
# NBFT: the network

The nodes of a ring, some of them Byzantine.  A Byzantine node sends anything to
anybody, but a signature of an honest node is only in a message when the honest node
has made it: it signs the digests it has prepared.
-/

namespace DistributedConsensus
namespace Nbft

open Foundations

/-- A network with its Byzantine nodes: at most `T`, and more than `E` of them in at
most `w` groups, whatever the roles. -/
structure Deployment extends Setting where
  byzantine : Finset String
  byzantine_subset : ∀ i ∈ byzantine, i ∈ ring.ids
  few_byzantine : byzantine.card ≤ params.T
  few_groups : ∀ view previousHash prevMaster,
    ((toSetting.roles view previousHash prevMaster).groups.filter fun members =>
      decide (params.E < (members.filter fun i => decide (i ∈ byzantine)).length)).length ≤ params.w

/-- The nodes by their ids. -/
abbrev Cluster := String → Node

variable (D : Deployment)

/-- The node runs the program. -/
def Deployment.IsHonest (i : String) : Prop := i ∈ D.ring.ids ∧ i ∉ D.byzantine

instance (i : String) : Decidable (D.IsHonest i) := inferInstanceAs (Decidable (_ ∧ _))

/-- What the signature signs. -/
def sigDigest (sig : String) : Option String :=
  match sig.toList.dropWhile (· ≠ '~') with
  | [] => none
  | _ :: rest => some (String.ofList rest)

/-- The node has prepared the digest in some round. -/
def Node.HasPrepared (n : Node) (digest : String) : Prop :=
  ∃ st ∈ n.states.values, st.digest = some digest

instance (n : Node) (digest : String) : Decidable (n.HasPrepared digest) :=
  inferInstanceAs (Decidable (∃ st ∈ n.states.values, st.digest = some digest))

/-- No signature of an honest node is forged. -/
def Cluster.Unforged (w : Cluster) (msg : Message) : Prop :=
  ∀ sig ∈ msg.signatures, ∀ digest ∈ sigDigest sig, D.IsHonest (sigSigner sig) →
    (w (sigSigner sig)).HasPrepared digest

instance (w : Cluster) (msg : Message) : Decidable (w.Unforged D msg) :=
  inferInstanceAs (Decidable (∀ sig ∈ msg.signatures, ∀ digest ∈ sigDigest sig, _ → _))

/-- The event can happen at the node. -/
def Cluster.Enabled (w : Cluster) (i : String) : Event → Prop
  | .deliver msg => D.IsHonest i ∧ w.Unforged D msg
  | .repTimeout view seq => D.IsHonest i ∧ (w i).Armed (.repTimeout view seq)
  | .repPartialTimeout view seq => D.IsHonest i ∧ (w i).Armed (.repPartialTimeout view seq)
  | .watchdog digest => D.IsHonest i ∧ (w i).Armed (.watchdog digest)

instance (w : Cluster) (i : String) : ∀ e, Decidable (w.Enabled D i e)
  | .deliver _ => inferInstanceAs (Decidable (_ ∧ _))
  | .repTimeout _ _ => inferInstanceAs (Decidable (_ ∧ _))
  | .repPartialTimeout _ _ => inferInstanceAs (Decidable (_ ∧ _))
  | .watchdog _ => inferInstanceAs (Decidable (_ ∧ _))

/-- The honest nodes as a network. -/
def nodes : Nodes String Node Event where
  start := Node.new D.toSetting
  Enabled := Cluster.Enabled D
  handle := fun _ n e => n.act D.toSetting e

instance (w : String → Node) (i : String) (e : Event) : Decidable ((nodes D).Enabled w i e) :=
  inferInstanceAs (Decidable (Cluster.Enabled D w i e))

/-- The runs of a deployment. -/
def cluster : System Cluster (String × Event) := (nodes D).system

variable {D} {w w' : Cluster}

theorem cluster_step
    {l : String × Event}
    (h : (cluster D).step w l = some w') :
    w.Enabled D l.1 l.2 ∧ w' = Function.update w l.1 ((w l.1).act D.toSetting l.2) :=
  Nodes.step_spec h

/-- What a node has prepared stays prepared. -/
theorem digest_act
    {n : Node} {S : Setting} {e : Event} {view seq : ℤ} {d : String}
    (hd : (n.state view seq).digest = some d) :
    ((n.act S e).state view seq).digest = some d := by
  rcases n.act_spec e with ⟨msg, -, -, hdecides⟩ | ⟨-, hmoves⟩
  · exact hdecides.digest view seq d hd
  · exact hmoves.digest view seq d hd

theorem digest_reaches
    {ok : Cluster → String × Event → Prop} {i : String} {view seq : ℤ} {d : String}
    (h : (cluster D).Reaches ok w w')
    (hd : ((w i).state view seq).digest = some d) :
    ((w' i).state view seq).digest = some d := by
  induction h with
  | refl => exact hd
  | @tail v v' l _ _ hstep ih =>
      obtain ⟨-, rfl⟩ := cluster_step hstep
      by_cases hi : i = l.1
      · subst hi
        rw [Function.update_self]
        exact digest_act ih
      · rw [Function.update_of_ne hi]
        exact ih

end Nbft
end DistributedConsensus
