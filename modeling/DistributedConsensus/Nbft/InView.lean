import DistributedConsensus.Foundations.Quorum
import DistributedConsensus.Nbft.Cluster

/-!
# NBFT: agreement inside a view

Two honest nodes in one view and with one chain should not append different digests
under one sequence number.  The proof of a block counts signatures only: it does not
ask whether the signers are nodes, and a signature serves for every round.

The blocks agree in the runs in which every accepted proof names more than half of
the nodes and Byzantine nodes together, each honest one with its signature for this
round.
-/

namespace DistributedConsensus
namespace Nbft

open Foundations

variable (D : Deployment)

/-- The block that the event makes the node append. -/
def Node.appended (S : Setting) (n : Node) : Event → Option Block
  | .deliver msg =>
      if n.Accepts S msg && n.Undecided msg then some (n.blockOf S msg) else none
  | _ => none

/-- The signers of the message that stand for its round: Byzantine nodes, and the
honest nodes that have prepared its digest in the round. -/
def Cluster.supporters (w : Cluster) (msg : Message) : Finset String :=
  (((msg.signatures.filter fun sig => sigValid sig msg.digest).map sigSigner).filter fun i =>
    decide (i ∈ D.ring.ids ∧
      (i ∈ D.byzantine ∨ ((w i).state msg.view msg.seq).digest = some msg.digest))).toFinset

/-- An accepted proof has enough supporters for two of them to share an honest node. -/
def BackedProofs (w : Cluster) (l : String × Event) : Prop :=
  match l.2 with
  | .deliver msg => (w l.1).Accepts D.toSetting msg = true → (w l.1).Undecided msg = true →
      D.params.n + D.byzantine.card < 2 * (w.supporters D msg).card
  | _ => True

instance (w : Cluster) : ∀ l, Decidable (BackedProofs D w l)
  | (_, .deliver _) => inferInstanceAs (Decidable (_ → _ → _))
  | (_, .repTimeout _ _) => inferInstanceAs (Decidable True)
  | (_, .repPartialTimeout _ _) => inferInstanceAs (Decidable True)
  | (_, .watchdog _) => inferInstanceAs (Decidable True)

/-- Whenever in a run one node appends a block, and later one that is in the same view
with the same chain appends a block of the same number, the digests are equal. -/
def SafeInView (ok : Cluster → String × Event → Prop) : Prop :=
  ∀ (w w' v v' : Cluster) (l l' : String × Event) (b b' : Block),
    (cluster D).Reachable ok w → ok w l → (cluster D).step w l = some w' →
    (cluster D).Reaches ok w' v → ok v l' → (cluster D).step v l' = some v' →
    (w l.1).appended D.toSetting l.2 = some b → (v l'.1).appended D.toSetting l'.2 = some b' →
    (w l.1).view = (v l'.1).view → (w l.1).chain = (v l'.1).chain → b.seq = b'.seq →
    b.digest = b'.digest

variable {D} {w w' : Cluster}

theorem appended_spec
    {S : Setting} {n : Node} {e : Event} {b : Block}
    (h : n.appended S e = some b) :
    ∃ msg, e = .deliver msg ∧ n.Accepts S msg = true ∧ n.Undecided msg = true ∧
      msg.view = n.view ∧ b = n.blockOf S msg := by
  cases e with
  | deliver msg =>
      simp only [Node.appended] at h
      split at h
      case isFalse => cases h
      case isTrue haccepts =>
        rw [Bool.and_eq_true] at haccepts
        refine ⟨msg, rfl, haccepts.1, haccepts.2, ?_, (Option.some.inj h).symm⟩
        have hview := haccepts.1
        rw [Node.Accepts, Bool.and_eq_true, decide_eq_true_eq] at hview
        exact hview.1
  | repTimeout view seq => cases h
  | repPartialTimeout view seq => cases h
  | watchdog digest => cases h

theorem appended_of_accepts
    {S : Setting} {n : Node} {msg : Message}
    (h : (n.Accepts S msg && n.Undecided msg) = true) :
    n.appended S (.deliver msg) = some (n.blockOf S msg) :=
  if_pos h

theorem mem_supporters
    {msg : Message} {i : String}
    (h : i ∈ w.supporters D msg) :
    i ∈ D.ring.ids ∧
      (i ∈ D.byzantine ∨ ((w i).state msg.view msg.seq).digest = some msg.digest) := by
  rw [Cluster.supporters, List.mem_toFinset, List.mem_filter, decide_eq_true_eq] at h
  exact h.2

/-- Two proofs with enough supporters share an honest one. -/
theorem exists_honest_supporter
    {v : Cluster} {msg msg' : Message}
    (h : D.params.n + D.byzantine.card < 2 * (w.supporters D msg).card)
    (h' : D.params.n + D.byzantine.card < 2 * (v.supporters D msg').card) :
    ∃ i ∈ w.supporters D msg, i ∈ v.supporters D msg' ∧ i ∉ D.byzantine := by
  have hids : ((w.supporters D msg) ∪ (v.supporters D msg')).card ≤ D.params.n := by
    rw [← D.length_ids, ← List.toFinset_card_of_nodup D.ring.nodup]
    refine Finset.card_le_card ?_
    intro i hi
    rw [List.mem_toFinset]
    rcases Finset.mem_union.mp hi with hi | hi
    · exact (mem_supporters hi).1
    · exact (mem_supporters hi).1
  have hinter := Finset.card_union_add_card_inter (w.supporters D msg) (v.supporters D msg')
  have hbig : D.byzantine.card < (w.supporters D msg ∩ v.supporters D msg').card := by omega
  obtain ⟨i, hi, hhonest⟩ := exists_correct_of_card_lt hbig
  rw [Finset.mem_inter] at hi
  exact ⟨i, hi.1, hi.2, hhonest⟩

/-- As few Byzantine nodes as one group tolerates are too few for every group. -/
theorem few_groups_of_card_le
    {S : Setting} {byzantine : Finset String}
    (h : byzantine.card ≤ S.params.E)
    (view : ℤ)
    (previousHash : String)
    (prevMaster : Option String) :
    ((S.roles view previousHash prevMaster).groups.filter fun members =>
      decide (S.params.E < (members.filter fun i => decide (i ∈ byzantine)).length)).length
        ≤ S.params.w := by
  have hall := (S.roles_partitions view previousHash prevMaster).allNodes_perm.nodup_iff.mpr
    S.ring.nodup
  rw [Membership.allNodes, List.nodup_cons, List.nodup_append, List.nodup_flatten] at hall
  have hnone : (S.roles view previousHash prevMaster).groups.filter (fun members =>
      decide (S.params.E < (members.filter fun i => decide (i ∈ byzantine)).length)) = [] := by
    rw [List.filter_eq_nil_iff]
    intro members hmembers
    have hnodup := (hall.2.1.1 members hmembers).filter fun i => decide (i ∈ byzantine)
    have hcard : (members.filter fun i => decide (i ∈ byzantine)).length ≤ byzantine.card := by
      rw [← List.toFinset_card_of_nodup hnodup]
      refine Finset.card_le_card ?_
      intro i hi
      rw [List.mem_toFinset, List.mem_filter, decide_eq_true_eq] at hi
      exact hi.2
    rw [decide_eq_true_eq]
    omega
  rw [hnone]
  exact Nat.zero_le _

/-- Seventeen nodes with a Byzantine first primary. -/
def byzantinePrimary : Deployment where
  toSetting := readable
  byzantine := {"a"}
  byzantine_subset := by
    intro i hi
    rw [Finset.mem_singleton.mp hi]
    exact List.mem_cons_self
  few_byzantine := by decide
  few_groups := few_groups_of_card_le (by decide)

/-- The second broadcast of the first primary, with names that are no nodes. -/
def madeUpProof (digest : String) : Message where
  type := .preprepare2
  sender := "a"
  view := 0
  seq := 1
  digest := digest
  signatures := ["1", "2", "3", "4", "5", "6", "7", "8", "9"].map fun nid => sign nid digest
  votes := 12

end Nbft
end DistributedConsensus
