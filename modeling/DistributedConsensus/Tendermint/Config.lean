import DistributedConsensus.Foundations.RoundLocks

/-!
# Tendermint: the configuration of a simulation

`SimConfig` of `config.py` with its voting powers and its check `validate`, as
far as the consensus uses it; delays, timeouts and the loss rate only decide
which messages and timeouts occur, and every choice of them is a run of the
model.  Node ids are natural numbers: `validate` rejects the other integers.
-/

namespace DistributedConsensus
namespace Tendermint

open Foundations

structure SimConfig where
  n : ℕ
  f : ℤ
  numHeights : ℤ
  votingPower : List ℤ
  crashed : List ℕ
  byzantine : List ℕ

namespace SimConfig

variable (cfg : SimConfig)

/-- The voting power of a node; without `voting_power` every node has power 1. -/
def powerOf (nodeId : ℕ) : ℤ :=
  if cfg.votingPower.isEmpty then 1 else cfg.votingPower.getD nodeId 0

def totalPower : ℤ := ((List.range cfg.n).map cfg.powerOf).sum

def byzPower : ℤ := (cfg.byzantine.map cfg.powerOf).sum

/-- The assertions of `validate`. -/
def validate : Bool :=
  decide (cfg.totalPower > 3 * cfg.f) &&
    (cfg.votingPower.isEmpty ||
      (cfg.votingPower.length == cfg.n && cfg.votingPower.all (fun pw => decide (0 ≤ pw)))) &&
    cfg.crashed.all (fun s => decide (s < cfg.n)) &&
    cfg.byzantine.all (fun s => decide (s < cfg.n)) &&
    cfg.crashed.all (fun s => !cfg.byzantine.contains s) &&
    decide (cfg.byzPower ≤ cfg.f)

/-- The node runs the protocol: it neither crashed nor is Byzantine. -/
def IsCorrect (i : ℕ) : Prop :=
  i < cfg.n ∧ i ∉ cfg.crashed ∧ i ∉ cfg.byzantine

instance (i : ℕ) : Decidable (cfg.IsCorrect i) :=
  inferInstanceAs (Decidable (_ ∧ _ ∧ _))

/-- `Node.quorum`: 2f+1, in voting power. -/
def quorum : ℤ := 2 * cfg.f + 1

/-- `_voting_power`: the power of a set of senders. -/
def votingPowerOf (senders : Finset ℕ) : ℤ := ∑ i ∈ senders, cfg.powerOf i

/-- A set of nodes that send messages, with the power of a quorum. -/
def IsQuorum (Q : Finset ℕ) : Prop :=
  (∀ i ∈ Q, i < cfg.n ∧ i ∉ cfg.crashed) ∧ cfg.quorum ≤ cfg.votingPowerOf Q

variable {cfg}

theorem validate_spec (h : cfg.validate = true) :
    3 * cfg.f < cfg.totalPower ∧
      (cfg.votingPower = [] ∨
        cfg.votingPower.length = cfg.n ∧ ∀ pw ∈ cfg.votingPower, 0 ≤ pw) ∧
      (∀ s ∈ cfg.byzantine, s < cfg.n) ∧
      (∀ s ∈ cfg.crashed, s ∉ cfg.byzantine) ∧
      cfg.byzPower ≤ cfg.f := by
  simp only [validate, Bool.and_eq_true, Bool.or_eq_true, decide_eq_true_eq, List.all_eq_true,
    List.isEmpty_iff, beq_iff_eq, Bool.not_eq_true', List.contains_eq_mem,
    decide_eq_false_iff_not] at h
  obtain ⟨⟨⟨⟨⟨htotal, hpowers⟩, -⟩, hbyz⟩, hdisjoint⟩, hbound⟩ := h
  exact ⟨htotal, hpowers, hbyz, hdisjoint, hbound⟩

theorem powerOf_nonneg
    (h : cfg.validate = true)
    (i : ℕ) :
    0 ≤ cfg.powerOf i := by
  obtain ⟨-, hpowers, -⟩ := validate_spec h
  unfold powerOf
  split
  case isTrue => omega
  case isFalse hne =>
    rcases hpowers with hnil | ⟨-, hnonneg⟩
    · simp [hnil] at hne
    · rw [List.getD_eq_getElem?_getD]
      cases hget : cfg.votingPower[i]? with
      | none => simp
      | some pw => exact hnonneg pw (List.mem_of_getElem? hget)

/-- The total power as a sum over the node ids. -/
theorem totalPower_eq_sum : cfg.totalPower = ∑ i ∈ Finset.range cfg.n, cfg.powerOf i := by
  have key : ∀ k : ℕ,
      ((List.range k).map cfg.powerOf).sum = ∑ i ∈ Finset.range k, cfg.powerOf i := by
    intro k
    induction k with
    | zero => rfl
    | succ k ih => simp [List.range_succ, Finset.sum_range_succ, ih]
  exact key cfg.n

/-- The Byzantine nodes together have at most `byz_power`, which counts a
repeated id several times. -/
theorem sum_byzantine_le (h : cfg.validate = true) :
    cfg.votingPowerOf cfg.byzantine.toFinset ≤ cfg.byzPower := by
  have key : ∀ l : List ℕ, cfg.votingPowerOf l.toFinset ≤ (l.map cfg.powerOf).sum := by
    intro l
    induction l with
    | nil =>
        simp [votingPowerOf]
    | cons a l ih =>
        unfold votingPowerOf at ih ⊢
        have hpower := powerOf_nonneg h a
        rw [List.toFinset_cons, List.map_cons, List.sum_cons]
        by_cases ha : a ∈ l.toFinset
        · rw [Finset.insert_eq_of_mem ha]
          omega
        · rw [Finset.sum_insert ha]
          omega
  exact key cfg.byzantine

theorem f_nonneg (h : cfg.validate = true) : 0 ≤ cfg.f := by
  obtain ⟨-, -, -, -, hbound⟩ := validate_spec h
  have hsum := sum_byzantine_le h
  have hnonneg : 0 ≤ cfg.votingPowerOf cfg.byzantine.toFinset :=
    Finset.sum_nonneg fun i _ => powerOf_nonneg h i
  omega

theorem IsQuorum.subset_range
    {Q : Finset ℕ}
    (hQ : cfg.IsQuorum Q) :
    Q ⊆ Finset.range cfg.n :=
  fun i hi => Finset.mem_range.mpr (hQ.1 i hi).1

/-- A quorum has a member of positive power. -/
theorem IsQuorum.exists_pos
    (h : cfg.validate = true)
    {Q : Finset ℕ}
    (hQ : cfg.IsQuorum Q) :
    ∃ i ∈ Q, 0 < cfg.powerOf i := by
  by_contra hnone
  push Not at hnone
  have hsum : cfg.votingPowerOf Q ≤ 0 := Finset.sum_nonpos hnone
  have hf := f_nonneg h
  have hquorum := hQ.2
  unfold quorum at hquorum
  omega

/-- Any two quorums share a correct node. -/
def QuorumsIntersect (cfg : SimConfig) : Prop :=
  ∀ A B, cfg.IsQuorum A → cfg.IsQuorum B → ∃ i ∈ A, i ∈ B ∧ i ∉ cfg.byzantine

/-- With a total power of exactly 3f+1 any two quorums share a correct node. -/
theorem quorumsIntersect_of_totalPower
    (h : cfg.validate = true)
    (htotal : cfg.totalPower = 3 * cfg.f + 1) :
    cfg.QuorumsIntersect := by
  intro A B hA hB
  obtain ⟨-, -, hbyz, -, hbound⟩ := validate_spec h
  have hfaulty := sum_byzantine_le h
  have hrange : cfg.byzantine.toFinset ⊆ Finset.range cfg.n :=
    fun i hi => Finset.mem_range.mpr (hbyz i (List.mem_toFinset.mp hi))
  obtain ⟨i, hi, hi', hc⟩ := exists_correct_inter_of_weight cfg.powerOf
    (fun i _ => powerOf_nonneg h i) hA.subset_range hB.subset_range hrange (by
      have hquorumA := hA.2
      have hquorumB := hB.2
      rw [← totalPower_eq_sum]
      unfold votingPowerOf at hfaulty hquorumA hquorumB
      unfold quorum at hquorumA hquorumB
      omega)
  exact ⟨i, hi, hi', fun hmem => hc (List.mem_toFinset.mpr hmem)⟩

/-- The quorums of a configuration in which any two of them intersect. -/
def quorumSystem (hinter : cfg.QuorumsIntersect) : QuorumSystem ℕ where
  faulty := {i | i ∈ cfg.byzantine}
  IsQuorum := cfg.IsQuorum
  inter := hinter

end SimConfig

end Tendermint
end DistributedConsensus
