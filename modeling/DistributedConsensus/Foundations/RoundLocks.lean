import Mathlib.Algebra.Order.BigOperators.Group.Finset
import Mathlib.Algebra.Order.Ring.Int
import Mathlib.Data.Finset.Lattice.Basic

/-!
# Rounds with two votes and a lock

An abstract account of agreement by *prevotes* and *precommits*.  In every round
a correct participant prevotes at most one value; it precommits a value that a
quorum has prevoted in the round.  A participant that has precommitted prevotes
in a later round only a value that was prevoted by a quorum at or after the
round of the precommit.

Quorums are an arbitrary family of sets any two of which share a correct
participant.  The family of the sets whose weight reaches a threshold is one.
-/

namespace DistributedConsensus
namespace Foundations

universe u v

/-- Sets of participants, any two of which share a correct one. -/
structure QuorumSystem (ι : Type u) where
  /-- The faulty participants. -/
  faulty : Set ι
  /-- The sets that are quorums. -/
  IsQuorum : Finset ι → Prop
  /-- Two quorums share a correct participant. -/
  inter : ∀ A B, IsQuorum A → IsQuorum B → ∃ i ∈ A, i ∈ B ∧ i ∉ faulty

/-- A quorum has a correct member. -/
theorem QuorumSystem.exists_correct
    {ι : Type u} (S : QuorumSystem ι) {Q : Finset ι}
    (hQ : S.IsQuorum Q) :
    ∃ i ∈ Q, i ∉ S.faulty := by
  obtain ⟨i, hi, -, hc⟩ := S.inter Q Q hQ hQ
  exact ⟨i, hi, hc⟩

/-- Two sets whose weights exceed the total by more than the weight of the
faulty participants share a correct participant. -/
theorem exists_correct_inter_of_weight
    {ι : Type u} [DecidableEq ι] (weight : ι → ℤ) {all faulty A B : Finset ι}
    (hnonneg : ∀ i ∈ all, 0 ≤ weight i)
    (hA : A ⊆ all)
    (hB : B ⊆ all)
    (hfaulty : faulty ⊆ all)
    (hsum : ∑ i ∈ all, weight i + ∑ i ∈ faulty, weight i
      < ∑ i ∈ A, weight i + ∑ i ∈ B, weight i) :
    ∃ i ∈ A, i ∈ B ∧ i ∉ faulty := by
  by_contra hnone
  push Not at hnone
  have hsub : A ∩ B ⊆ faulty := by
    intro i hi
    rw [Finset.mem_inter] at hi
    exact hnone i hi.1 hi.2
  have hinter : ∑ i ∈ A ∩ B, weight i ≤ ∑ i ∈ faulty, weight i :=
    Finset.sum_le_sum_of_subset_of_nonneg hsub fun i hi _ => hnonneg i (hfaulty hi)
  have hunion : ∑ i ∈ A ∪ B, weight i ≤ ∑ i ∈ all, weight i :=
    Finset.sum_le_sum_of_subset_of_nonneg (Finset.union_subset hA hB)
      fun i hi _ => hnonneg i hi
  have hboth : ∑ i ∈ A ∪ B, weight i + ∑ i ∈ A ∩ B, weight i
      = ∑ i ∈ A, weight i + ∑ i ∈ B, weight i := Finset.sum_union_inter
  omega

namespace RoundLocks

/-- The votes of the correct participants. -/
structure Record (ι : Type u) (V : Type v) where
  /-- The participant prevotes a value in a round. -/
  prevotes : ι → ℤ → V → Prop
  /-- The participant precommits a value in a round. -/
  precommits : ι → ℤ → V → Prop

variable {ι : Type u} {V : Type v}
variable (S : QuorumSystem ι) (R : Record ι V)

/-- A quorum prevotes the value in the round. -/
def Prevoted (r : ℤ) (v : V) : Prop :=
  ∃ Q : Finset ι, S.IsQuorum Q ∧ ∀ i ∈ Q, i ∉ S.faulty → R.prevotes i r v

/-- A quorum precommits the value in the round. -/
def Precommitted (r : ℤ) (v : V) : Prop :=
  ∃ Q : Finset ι, S.IsQuorum Q ∧ ∀ i ∈ Q, i ∉ S.faulty → R.precommits i r v

/-- The conditions on the votes. -/
structure Sound : Prop where
  prevote_unique : ∀ i, i ∉ S.faulty → ∀ r v w,
    R.prevotes i r v → R.prevotes i r w → v = w
  precommit_prevoted : ∀ i, i ∉ S.faulty → ∀ r v,
    R.precommits i r v → Prevoted S R r v
  prevote_carried : ∀ i, i ∉ S.faulty → ∀ r v s w,
    R.precommits i r v → R.prevotes i s w → r < s →
      ∃ q, r ≤ q ∧ q < s ∧ Prevoted S R q w

variable {S R}

/-- One round has a quorum of prevotes for at most one value. -/
theorem Sound.prevoted_unique
    {r : ℤ} {v w : V}
    (hs : Sound S R)
    (hv : Prevoted S R r v)
    (hw : Prevoted S R r w) :
    v = w := by
  obtain ⟨Q, hQ, hvotes⟩ := hv
  obtain ⟨Q', hQ', hvotes'⟩ := hw
  obtain ⟨i, hi, hi', hc⟩ := S.inter Q Q' hQ hQ'
  exact hs.prevote_unique i hc r v w (hvotes i hi hc) (hvotes' i hi' hc)

/-- A precommitted value was prevoted in its round. -/
theorem Sound.prevoted_of_precommitted
    {r : ℤ} {v : V}
    (hs : Sound S R)
    (hv : Precommitted S R r v) :
    Prevoted S R r v := by
  obtain ⟨Q, hQ, hvotes⟩ := hv
  obtain ⟨i, hi, hc⟩ := S.exists_correct hQ
  exact hs.precommit_prevoted i hc r v (hvotes i hi hc)

/-- One round has a quorum of precommits for at most one value. -/
theorem Sound.precommitted_unique_round
    {r : ℤ} {v w : V}
    (hs : Sound S R)
    (hv : Precommitted S R r v)
    (hw : Precommitted S R r w) :
    v = w :=
  hs.prevoted_unique (hs.prevoted_of_precommitted hv) (hs.prevoted_of_precommitted hw)

/-- The lock argument: at or after the round of a precommitted value no other
value has a quorum of prevotes. -/
theorem Sound.prevoted_eq_of_precommitted
    {r s : ℤ} {v w : V}
    (hs : Sound S R)
    (hv : Precommitted S R r v)
    (hle : r ≤ s)
    (hw : Prevoted S R s w) :
    w = v := by
  -- Induction on the distance of the two rounds.
  obtain ⟨k, hk⟩ : ∃ k : ℕ, s = r + k := ⟨(s - r).toNat, by omega⟩
  induction k using Nat.strong_induction_on generalizing s w with
  | _ k ih =>
      rcases hle.lt_or_eq with hlt | heq
      · -- A correct participant precommitted `v` and prevoted `w` later.
        obtain ⟨Q, hQ, hprevotes⟩ := hw
        obtain ⟨Q', hQ', hprecommits⟩ := hv
        obtain ⟨i, hi, hi', hc⟩ := S.inter Q Q' hQ hQ'
        obtain ⟨q, hrq, hqs, hq⟩ := hs.prevote_carried i hc r v s w
          (hprecommits i hi' hc) (hprevotes i hi hc) hlt
        exact ih (q - r).toNat (by omega) hrq hq (by omega)
      · subst heq
        exact hs.prevoted_unique hw (hs.prevoted_of_precommitted hv)

/-- Agreement: all precommitted values are equal. -/
theorem Sound.precommitted_unique
    {r s : ℤ} {v w : V}
    (hs : Sound S R)
    (hv : Precommitted S R r v)
    (hw : Precommitted S R s w) :
    v = w := by
  rcases le_total r s with hle | hle
  · exact (hs.prevoted_eq_of_precommitted hv hle (hs.prevoted_of_precommitted hw)).symm
  · exact hs.prevoted_eq_of_precommitted hw hle (hs.prevoted_of_precommitted hv)

end RoundLocks
end Foundations
end DistributedConsensus
