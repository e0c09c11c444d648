import DistributedConsensus.Tendermint.Node
import Mathlib.Algebra.BigOperators.Group.List.Lemmas
import Mathlib.Algebra.Order.BigOperators.Group.List
import Mathlib.Data.List.GetD

/-!
# Tendermint: the weighted round-robin

The proposer of a round is chosen by priorities: every node gains its voting
power, the node of the largest priority proposes and pays the total power.  The
priorities sum up to zero, so the largest raised priority is positive, and a
node without voting power, whose priority stays zero, is never chosen.
-/

namespace DistributedConsensus
namespace Tendermint

section Leader

/-- The fold over the candidates yields a candidate that none of them beats. -/
theorem foldl_best_spec (pri : List ℤ) (l : List ℕ) (b : ℕ) :
    let best := l.foldl (fun best i => if pri.getD best 0 < pri.getD i 0 then i else best) b
    best ∈ b :: l ∧ ∀ i ∈ b :: l, pri.getD i 0 ≤ pri.getD best 0 := by
  induction l generalizing b with
  | nil => simp
  | cons a l ih =>
      dsimp only
      rw [List.foldl_cons]
      split
      case isTrue hlt =>
        obtain ⟨hmem, hmax⟩ := ih a
        refine ⟨List.mem_cons_of_mem _ hmem, ?_⟩
        intro i hi
        rcases List.mem_cons.mp hi with rfl | hi
        · exact hlt.le.trans (hmax a List.mem_cons_self)
        · exact hmax i hi
      case isFalse hle =>
        obtain ⟨hmem, hmax⟩ := ih b
        refine ⟨?_, ?_⟩
        · rcases List.mem_cons.mp hmem with heq | hmem
          · rw [heq]
            exact List.mem_cons_self
          · exact List.mem_cons_of_mem _ (List.mem_cons_of_mem _ hmem)
        · intro i hi
          rcases List.mem_cons.mp hi with rfl | hi
          · exact hmax _ List.mem_cons_self
          · rcases List.mem_cons.mp hi with rfl | hi
            · exact (not_lt.mp hle).trans (hmax b List.mem_cons_self)
            · exact hmax i (List.mem_cons_of_mem _ hi)

/-- The leader has the largest priority. -/
theorem leaderOf_spec
    {pri : List ℤ}
    (hne : 0 < pri.length) :
    leaderOf pri < pri.length ∧ ∀ i < pri.length, pri.getD i 0 ≤ pri.getD (leaderOf pri) 0 := by
  obtain ⟨hmem, hmax⟩ := foldl_best_spec pri (List.range pri.length) 0
  refine ⟨?_, fun i hi => hmax i (List.mem_cons_of_mem _ (List.mem_range.mpr hi))⟩
  rcases List.mem_cons.mp hmem with heq | hmem
  · unfold leaderOf
    omega
  · exact List.mem_range.mp hmem

end Leader

section Priorities

variable {powers pri : List ℤ}

/-- The priorities between two steps. -/
structure Balanced (powers pri : List ℤ) : Prop where
  length : pri.length = powers.length
  sum : pri.sum = 0
  powerless : ∀ i, powers.getD i 0 = 0 → pri.getD i 0 = 0

theorem balanced_zero : Balanced powers (powers.map fun _ => 0) where
  length := by simp
  sum := by simp
  powerless := by
    intro i _
    rw [List.getD_eq_getElem?_getD, List.getElem?_map]
    cases powers[i]? <;> rfl

theorem getD_zipWith_add
    (hlen : pri.length = powers.length)
    (i : ℕ) :
    (List.zipWith (· + ·) pri powers).getD i 0 = pri.getD i 0 + powers.getD i 0 := by
  simp only [List.getD_eq_getElem?_getD, List.getElem?_zipWith]
  by_cases hi : i < powers.length
  · have hi' : i < pri.length := by omega
    simp [hi, hi']
  · have hi' : ¬ i < pri.length := by omega
    simp [hi, hi']

theorem sum_zipWith_add
    (hlen : pri.length = powers.length) :
    (List.zipWith (· + ·) pri powers).sum = pri.sum + powers.sum := by
  induction pri generalizing powers with
  | nil =>
      obtain rfl := List.length_eq_zero_iff.mp hlen.symm
      rfl
  | cons a pri ih =>
      cases powers with
      | nil => cases hlen
      | cons b powers =>
          have htail : (List.zipWith (· + ·) pri powers).sum = pri.sum + powers.sum :=
            ih (by simpa using hlen)
          simp only [List.zipWith_cons_cons, List.sum_cons, htail]
          omega

/-- The raised priorities sum up to the total power, so that of the leader is positive. -/
theorem raised_leader_pos
    (hpri : Balanced powers pri)
    (htotal : 0 < powers.sum) :
    leaderOf (List.zipWith (· + ·) pri powers) < powers.length ∧
      0 < pri.getD (leaderOf (List.zipWith (· + ·) pri powers)) 0 +
        powers.getD (leaderOf (List.zipWith (· + ·) pri powers)) 0 := by
  rw [← getD_zipWith_add hpri.length]
  have hsum : (List.zipWith (· + ·) pri powers).sum = powers.sum := by
    rw [sum_zipWith_add hpri.length, hpri.sum, zero_add]
  have hlen : (List.zipWith (· + ·) pri powers).length = powers.length := by
    rw [List.length_zipWith, hpri.length, min_self]
  generalize List.zipWith (· + ·) pri powers = raised at hsum hlen ⊢
  have hne : 0 < raised.length := by
    cases raised with
    | nil =>
        rw [List.sum_nil] at hsum
        omega
    | cons => exact Nat.succ_pos _
  obtain ⟨hlt, hmax⟩ := leaderOf_spec hne
  refine ⟨by omega, ?_⟩
  by_contra hnot
  have hall : ∀ x ∈ raised, x ≤ 0 := by
    intro x hx
    obtain ⟨i, hi, rfl⟩ := List.getElem_of_mem hx
    have hle := hmax i hi
    rw [List.getD_eq_getElem _ _ hi] at hle
    omega
  have hnonpos := List.sum_le_card_nsmul raised 0 hall
  rw [nsmul_zero] at hnonpos
  omega

/-- The leader of a step has voting power, and the priorities stay balanced. -/
theorem rotate_spec
    (hpri : Balanced powers pri)
    (htotal : 0 < powers.sum) :
    (rotate powers pri).1 < powers.length ∧ powers.getD (rotate powers pri).1 0 ≠ 0 ∧
      Balanced powers (rotate powers pri).2 := by
  obtain ⟨hlt, hpos⟩ := raised_leader_pos hpri htotal
  unfold rotate
  dsimp only
  have hget := getD_zipWith_add hpri.length
  have hsum : (List.zipWith (· + ·) pri powers).sum = powers.sum := by
    rw [sum_zipWith_add hpri.length, hpri.sum, zero_add]
  have hlen : (List.zipWith (· + ·) pri powers).length = powers.length := by
    rw [List.length_zipWith, hpri.length, min_self]
  generalize List.zipWith (· + ·) pri powers = raised at hlt hpos hget hsum hlen ⊢
  have hpower : powers.getD (leaderOf raised) 0 ≠ 0 := by
    intro hzero
    rw [hzero, hpri.powerless _ hzero] at hpos
    omega
  refine ⟨hlt, hpower, ?_, ?_, ?_⟩
  · rw [List.length_set, hlen]
  · have hlt' : leaderOf raised < raised.length := by omega
    rw [List.sum_set']
    simp only [hlt', dite_true, List.getD_eq_getElem _ _ hlt']
    omega
  · intro i hi
    have hother : leaderOf raised ≠ i := by
      rintro rfl
      exact hpower hi
    rw [List.getD_eq_getElem?_getD, List.getElem?_set_ne hother, ← List.getD_eq_getElem?_getD,
      hget, hi, hpri.powerless i hi]
    rfl

theorem rotations_spec
    (htotal : 0 < powers.sum)
    (k : ℕ) :
    Balanced powers (rotations powers k).2 ∧
      (0 < k → (rotations powers k).1 < powers.length ∧
        powers.getD (rotations powers k).1 0 ≠ 0) := by
  induction k with
  | zero => exact ⟨balanced_zero, fun h => absurd h (lt_irrefl 0)⟩
  | succ k ih =>
      obtain ⟨hlt, hpower, hbalanced⟩ := rotate_spec ih.1 htotal
      exact ⟨hbalanced, fun _ => ⟨hlt, hpower⟩⟩

end Priorities

/-- The proposer of a round has voting power. -/
theorem SimConfig.powerOf_proposer_pos
    {cfg : SimConfig}
    (hvalidate : cfg.validate = true)
    {height rnd : ℤ}
    (hheight : 0 ≤ height)
    (hrnd : 0 ≤ rnd) :
    0 < cfg.powerOf (cfg.proposer height rnd) := by
  have htotal := (validate_spec hvalidate).1
  have hf := f_nonneg hvalidate
  have hpos : 0 < ((List.range cfg.n).map cfg.powerOf).sum := by
    unfold totalPower at htotal
    omega
  obtain ⟨-, hleader⟩ := rotations_spec hpos (height + rnd + 1).toNat
  obtain ⟨hlt, hpower⟩ := hleader (by omega)
  have hnonneg := powerOf_nonneg hvalidate (cfg.proposer height rnd)
  rw [List.getD_eq_getElem _ _ hlt, List.getElem_map, List.getElem_range] at hpower
  exact lt_of_le_of_ne hnonneg hpower.symm

end Tendermint
end DistributedConsensus
