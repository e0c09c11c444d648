import Mathlib.Data.Fintype.Card

/-!
# Quorums over a finite set of participants

A participant is either faulty or correct; faulty participants form a fixed
finite set.  A quorum is a set of participants whose size reaches a threshold.
The two lemmas below are the only counting facts that the safety arguments use:
a set larger than the faulty set contains a correct participant, and two sets
whose sizes together exceed the number of participants by more than the number
of faulty ones share a correct participant.
-/

namespace DistributedConsensus
namespace Foundations

variable {ι : Type*} [DecidableEq ι]

/-- A set larger than the faulty set has a correct member. -/
theorem exists_correct_of_card_lt
    {faulty A : Finset ι}
    (hA : faulty.card < A.card) :
    ∃ i ∈ A, i ∉ faulty := by
  by_contra hnone
  push Not at hnone
  have hsub : A ⊆ faulty := fun i hi => hnone i hi
  have hcard := Finset.card_le_card hsub
  omega

/-- Two sets that are large enough together share a correct participant. -/
theorem exists_correct_inter
    [Fintype ι]
    {faulty A B : Finset ι}
    (hsum : Fintype.card ι + faulty.card < A.card + B.card) :
    ∃ i ∈ A, i ∈ B ∧ i ∉ faulty := by
  have hunion : (A ∪ B).card ≤ Fintype.card ι := Finset.card_le_univ _
  have hinter := Finset.card_union_add_card_inter A B
  have hbig : faulty.card < (A ∩ B).card := by omega
  obtain ⟨i, hi, hcorrect⟩ := exists_correct_of_card_lt hbig
  rw [Finset.mem_inter] at hi
  exact ⟨i, hi.1, hi.2, hcorrect⟩

/-- Validators whose identities form a given set of numbers. -/
theorem exists_fin_of_identities
    {n : ℕ} (S : Finset ℤ)
    (h : ∀ k ∈ S, ∃ i : Fin n, k = i) :
    ∃ Q : Finset (Fin n), Q.card = S.card ∧ ∀ i ∈ Q, (i : ℤ) ∈ S := by
  refine ⟨Finset.univ.filter (fun i : Fin n => (i : ℤ) ∈ S), ?_, by simp⟩
  have himage : (Finset.univ.filter (fun i : Fin n => (i : ℤ) ∈ S)).image
      (fun i : Fin n => (i : ℤ)) = S := by
    ext k
    simp only [Finset.mem_image, Finset.mem_filter, Finset.mem_univ, true_and]
    constructor
    · rintro ⟨i, hi, rfl⟩
      exact hi
    · intro hk
      obtain ⟨i, rfl⟩ := h k hk
      exact ⟨i, hk, rfl⟩
  have hinj : Function.Injective (fun i : Fin n => (i : ℤ)) := by
    intro i j hij
    exact Fin.ext (Int.ofNat.inj hij)
  rw [← Finset.card_image_of_injective _ hinj, himage]

end Foundations
end DistributedConsensus
