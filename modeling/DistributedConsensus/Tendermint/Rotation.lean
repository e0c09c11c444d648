import DistributedConsensus.Tendermint.Proposers
import Mathlib.Algebra.BigOperators.Ring.Finset
import Mathlib.Algebra.Order.BigOperators.Group.Finset
import Mathlib.Data.Nat.Periodic
import Mathlib.Tactic.Linarith
import Mathlib.Tactic.Ring

/-!
# Tendermint: the fairness of the weighted round-robin

After `k` steps the priority of a node is `k` times its power minus the total power
for every time it was picked.  The leader has a positive raised priority, so within
the first `W` steps (`W` is the total power) no node is picked more often than its
power says; as `W` picks are made, every node is picked exactly that often.  All
priorities are then zero again, and the sequence starts anew.
-/

namespace DistributedConsensus
namespace Tendermint

/-- The leader of the global step `k`. -/
def leaderAt (powers : List ℤ) (k : ℕ) : ℕ := (rotations powers (k + 1)).1

/-- How often a node leads in the first `k` steps. -/
def picks (powers : List ℤ) (i : ℕ) : ℕ → ℕ
  | 0 => 0
  | k + 1 => picks powers i k + if leaderAt powers k = i then 1 else 0

section Rotations

variable {powers : List ℤ} {i j k : ℕ}

/-- The picks as a count over the leaders. -/
theorem picks_eq_count (k : ℕ) :
    picks powers i k = ((List.range k).map (leaderAt powers)).count i := by
  induction k with
  | zero => rfl
  | succ k ih =>
      rw [picks, ih, List.range_succ, List.map_append, List.count_append, List.map_singleton,
        List.count_singleton]
      simp only [beq_iff_eq]

section Priorities

/-- The state of the rotation after `k` steps, read off the picks. -/
theorem getD_rotations
    (htotal : 0 < powers.sum)
    (k : ℕ) :
    (rotations powers k).2.getD i 0 = k * powers.getD i 0 - powers.sum * picks powers i k := by
  induction k with
  | zero =>
      have hzero : (powers.map fun _ => (0 : ℤ)).getD i 0 = 0 := by
        rw [List.getD_eq_getElem?_getD, List.getElem?_map]
        cases powers[i]? <;> rfl
      simp [rotations, picks]
  | succ k ih =>
      have hbalanced := (rotations_spec htotal k).1
      obtain ⟨hlt, -⟩ := raised_leader_pos hbalanced htotal
      have hleader : leaderAt powers k
          = leaderOf (List.zipWith (· + ·) (rotations powers k).2 powers) := rfl
      have hget := getD_zipWith_add hbalanced.length
      have hstep : (rotations powers (k + 1)).2.getD i 0
          = (rotations powers k).2.getD i 0 + powers.getD i 0
            - if leaderAt powers k = i then powers.sum else 0 := by
        rw [rotations, rotate, hleader, List.getD_eq_getElem?_getD]
        dsimp only
        by_cases heq : leaderOf (List.zipWith (· + ·) (rotations powers k).2 powers) = i
        · have hlen : i < (List.zipWith (· + ·) (rotations powers k).2 powers).length := by
            rw [List.length_zipWith, hbalanced.length, min_self]
            omega
          rw [heq, List.getElem?_set_self hlen, if_pos rfl, hget]
          rfl
        · rw [List.getElem?_set_ne heq, if_neg heq, ← List.getD_eq_getElem?_getD, hget, sub_zero]
      rw [hstep, ih, picks]
      split
      case isTrue =>
        push_cast
        ring
      case isFalse =>
        push_cast
        ring

/-- Within the first rounds of the total power no node leads too often. -/
theorem picks_le
    (htotal : 0 < powers.sum)
    (hpower : 0 ≤ powers.getD i 0)
    (hk : k ≤ powers.sum) :
    picks powers i k ≤ powers.getD i 0 := by
  induction k with
  | zero => simpa [picks] using hpower
  | succ k ih =>
      have hprev := ih (by omega)
      rw [picks]
      split
      case isFalse =>
        simpa using hprev
      case isTrue hleader =>
        obtain ⟨-, hpos⟩ := raised_leader_pos (rotations_spec htotal k).1 htotal
        have hraised : 0 < (rotations powers k).2.getD i 0 + powers.getD i 0 := by
          rw [← hleader]
          exact hpos
        rw [getD_rotations htotal] at hraised
        -- `W · picks < (k + 1) · power ≤ W · power`
        have hbound : (k + 1 : ℤ) * powers.getD i 0 ≤ powers.sum * powers.getD i 0 :=
          mul_le_mul_of_nonneg_right (by exact_mod_cast hk) hpower
        have hlt : powers.sum * picks powers i k < powers.sum * powers.getD i 0 := by
          linarith
        have hfew := lt_of_mul_lt_mul_left hlt htotal.le
        push_cast
        omega

/-- Every step has one leader. -/
theorem sum_picks
    (htotal : 0 < powers.sum)
    (k : ℕ) :
    ∑ i ∈ Finset.range powers.length, picks powers i k = k := by
  induction k with
  | zero => simp [picks]
  | succ k ih =>
      have hlt := ((rotations_spec htotal (k + 1)).2 (Nat.succ_pos k)).1
      simp only [picks, Finset.sum_add_distrib, ih, Finset.sum_ite_eq, Finset.mem_range]
      exact congrArg (k + ·) (if_pos hlt)

theorem sum_getD (l : List ℤ) : ∑ i ∈ Finset.range l.length, l.getD i 0 = l.sum := by
  induction l with
  | nil => rfl
  | cons a l ih =>
      rw [List.length_cons, Finset.sum_range_succ', List.sum_cons, ← ih]
      simp [add_comm]

/-- After as many steps as the total power every node has led as often as its power
says. -/
theorem picks_total
    (hpowers : ∀ i < powers.length, 0 ≤ powers.getD i 0)
    (htotal : 0 < powers.sum)
    (hi : i < powers.length) :
    (picks powers i powers.sum.toNat : ℤ) = powers.getD i 0 := by
  have hcast : (powers.sum.toNat : ℤ) = powers.sum := Int.toNat_of_nonneg htotal.le
  have hle : ∀ j ∈ Finset.range powers.length,
      (picks powers j powers.sum.toNat : ℤ) ≤ powers.getD j 0 :=
    fun j hj => picks_le htotal (hpowers j (Finset.mem_range.mp hj)) hcast.le
  refine (Finset.sum_eq_sum_iff_of_le hle).mp ?_ i (Finset.mem_range.mpr hi)
  rw [sum_getD, ← Nat.cast_sum, sum_picks htotal, hcast]

end Priorities

section Period

/-- Once every node has paid what it gained the rotation starts anew. -/
theorem periodic_leaderAt
    {c : ℕ}
    (htotal : 0 < powers.sum)
    (hpaid : ∀ i < powers.length, c * powers.getD i 0 = powers.sum * picks powers i c) :
    Function.Periodic (leaderAt powers) c := by
  have hzero : (rotations powers c).2 = powers.map fun _ => 0 := by
    refine List.ext_getElem ?_ ?_
    · rw [(rotations_spec htotal c).1.length, List.length_map]
    · intro i hi hi'
      have hlt : i < powers.length := by rwa [List.length_map] at hi'
      rw [← List.getD_eq_getElem _ 0 hi, getD_rotations htotal, hpaid i hlt, sub_self,
        List.getElem_map]
  have hagain : ∀ k, (rotations powers (k + c)).2 = (rotations powers k).2 := by
    intro k
    induction k with
    | zero =>
        rw [Nat.zero_add, hzero]
        rfl
    | succ k ih => rw [Nat.add_right_comm, rotations, ih, rotations]
  intro k
  change (rotate powers (rotations powers (k + c)).2).1 = (rotate powers (rotations powers k).2).1
  rw [hagain]

theorem periodic_total
    (hpowers : ∀ i < powers.length, 0 ≤ powers.getD i 0)
    (htotal : 0 < powers.sum) :
    Function.Periodic (leaderAt powers) powers.sum.toNat := by
  refine periodic_leaderAt htotal ?_
  intro i hi
  rw [picks_total hpowers htotal hi, Int.toNat_of_nonneg htotal.le]

end Period

section EqualPowers

/-- Among the largest priorities the leader has the smallest id. -/
theorem foldl_best_first
    {pri : List ℤ} {l : List ℕ} {b : ℕ}
    (hsorted : (b :: l).Pairwise (· < ·)) :
    ∀ i ∈ b :: l, pri.getD i 0
        = pri.getD (l.foldl (fun best i => if pri.getD best 0 < pri.getD i 0 then i else best) b) 0 →
      l.foldl (fun best i => if pri.getD best 0 < pri.getD i 0 then i else best) b ≤ i := by
  induction l generalizing b with
  | nil =>
      intro i hi _
      rw [List.mem_singleton.mp hi]
      rfl
  | cons a l ih =>
      obtain ⟨hb, htail⟩ := List.pairwise_cons.mp hsorted
      have hba : b < a := hb a List.mem_cons_self
      rw [List.foldl_cons]
      split
      case isTrue hlt =>
        intro i hi heq
        rcases List.mem_cons.mp hi with rfl | hi
        · have hmax := (foldl_best_spec pri l a).2 a List.mem_cons_self
          omega
        · exact ih htail i hi heq
      case isFalse hle =>
        have hsub : (b :: l).Pairwise (· < ·) :=
          List.pairwise_cons.mpr
            ⟨fun x hx => hb x (List.mem_cons_of_mem _ hx), (List.pairwise_cons.mp htail).2⟩
        intro i hi heq
        rcases List.mem_cons.mp hi with rfl | hi
        · exact ih hsub i List.mem_cons_self heq
        · rcases List.mem_cons.mp hi with rfl | hi
          · have hmax := (foldl_best_spec pri l b).2 b List.mem_cons_self
            exact (ih hsub b List.mem_cons_self (by omega)).trans hba.le
          · exact ih hsub i (List.mem_cons_of_mem _ hi) heq

/-- The first node with the largest priority is the leader. -/
theorem leaderOf_eq
    {pri : List ℤ}
    (hj : j < pri.length)
    (hmax : ∀ i < pri.length, pri.getD i 0 ≤ pri.getD j 0)
    (hfirst : ∀ i < j, pri.getD i 0 < pri.getD j 0) :
    leaderOf pri = j := by
  obtain ⟨hlt, hle⟩ := leaderOf_spec (by omega : 0 < pri.length)
  have heq : pri.getD (leaderOf pri) 0 = pri.getD j 0 :=
    le_antisymm (hmax _ hlt) (hle j hj)
  rcases Nat.lt_trichotomy (leaderOf pri) j with hless | hsame | hgreater
  · have := hfirst _ hless
    omega
  · exact hsame
  · obtain ⟨n, hn⟩ := Nat.exists_eq_succ_of_ne_zero (by omega : pri.length ≠ 0)
    have hrange : List.range pri.length = 0 :: (List.range n).map Nat.succ := by
      rw [hn, List.range_succ_eq_map]
    have hsorted : (0 :: (List.range n).map Nat.succ).Pairwise (· < ·) := by
      rw [← hrange]
      exact List.pairwise_lt_range
    have hmem : j ∈ 0 :: (List.range n).map Nat.succ := by
      rw [← hrange]
      exact List.mem_range.mpr hj
    have hbest := @foldl_best_first pri _ _ hsorted j hmem
    unfold leaderOf at heq hgreater
    rw [hrange, List.foldl_cons, if_neg (lt_irrefl _)] at heq hgreater
    exact absurd (hbest heq.symm) (not_le.mpr hgreater)

theorem sum_equal
    {p : ℤ}
    (hequal : ∀ i < powers.length, powers.getD i 0 = p) :
    powers.sum = powers.length * p := by
  rw [← sum_getD, Finset.sum_congr rfl fun i hi => hequal i (Finset.mem_range.mp hi),
    Finset.sum_const, Finset.card_range, nsmul_eq_mul]

/-- The picks while the nodes take turns. -/
theorem picks_of_turns
    (hturns : ∀ j < k, leaderAt powers j = j)
    (i : ℕ) :
    picks powers i k = if i < k then 1 else 0 := by
  have hmap : (List.range k).map (leaderAt powers) = List.range k := by
    conv_rhs => rw [← List.map_id (List.range k)]
    exact List.map_congr_left fun j hj => hturns j (List.mem_range.mp hj)
  rw [picks_eq_count, hmap, List.count_range]

/-- With equal powers the nodes lead in the order of their ids. -/
theorem leaderAt_equal
    {p : ℤ}
    (hp : 0 < p)
    (hequal : ∀ i < powers.length, powers.getD i 0 = p)
    (hk : k < powers.length) :
    leaderAt powers k = k := by
  have hsum := sum_equal hequal
  have htotal : 0 < powers.sum := by
    rw [hsum]
    exact mul_pos (by omega) hp
  induction k using Nat.strong_induction_on with
  | _ k ih =>
    have hpicks : ∀ i, picks powers i k = if i < k then 1 else 0 := fun i =>
      picks_of_turns (fun j hj => ih j hj (hj.trans hk)) i
    have hbalanced := (rotations_spec htotal k).1
    have hraised : ∀ i < powers.length,
        (List.zipWith (· + ·) (rotations powers k).2 powers).getD i 0
          = (k + 1) * p - if i < k then powers.length * p else 0 := by
      intro i hi
      rw [getD_zipWith_add hbalanced.length, getD_rotations htotal, hpicks, hequal i hi, hsum]
      split
      case isTrue =>
        push_cast
        ring
      case isFalse =>
        push_cast
        ring
    have hlength : (List.zipWith (· + ·) (rotations powers k).2 powers).length
        = powers.length := by
      rw [List.length_zipWith, hbalanced.length, min_self]
    have hself := hraised k hk
    rw [if_neg (lt_irrefl k), sub_zero] at hself
    have hpaid : 0 < (powers.length : ℤ) * p := mul_pos (by omega) hp
    refine leaderOf_eq (by omega) ?_ ?_
    · intro i hi
      rw [hself, hraised i (by omega)]
      split <;> omega
    · intro i hi
      rw [hself, hraised i (by omega), if_pos hi]
      omega

theorem periodic_equal
    {p : ℤ}
    (hp : 0 < p)
    (htotal : 0 < powers.sum)
    (hequal : ∀ i < powers.length, powers.getD i 0 = p) :
    Function.Periodic (leaderAt powers) powers.length := by
  refine periodic_leaderAt htotal ?_
  intro i hi
  rw [picks_of_turns (fun j hj => leaderAt_equal hp hequal hj), if_pos hi, hequal i hi,
    sum_equal hequal, Nat.cast_one, mul_one]

end EqualPowers

end Rotations

namespace SimConfig

variable {cfg : SimConfig}

/-- The voting powers of the nodes in the order of their ids. -/
def powers (cfg : SimConfig) : List ℤ := (List.range cfg.n).map cfg.powerOf

theorem length_powers : cfg.powers.length = cfg.n := by
  rw [powers, List.length_map, List.length_range]

theorem getD_powers
    {i : ℕ}
    (hi : i < cfg.n) :
    cfg.powers.getD i 0 = cfg.powerOf i := by
  have hlt : i < cfg.powers.length := by rwa [length_powers]
  rw [List.getD_eq_getElem _ _ hlt]
  simp [powers]

/-- The proposer depends on the global step only. -/
theorem proposer_eq_leaderAt
    {height rnd : ℤ} {k : ℕ}
    (hk : height + rnd = k) :
    cfg.proposer height rnd = leaderAt cfg.powers k := by
  have htoNat : (height + rnd + 1).toNat = k + 1 := by omega
  rw [proposer, htoNat]
  rfl

/-- **Fairness.**  Over `W` consecutive steps from a multiple of the total power `W` on
every node proposes as often as its power says; the proposers repeat after `W` steps; and
with equal powers the nodes take turns. -/
theorem proposer_fair
    (cfg : SimConfig)
    (hpowers : ∀ i < cfg.n, 0 ≤ cfg.powerOf i)
    (htotal : 0 < cfg.totalPower) :
    (∀ (a : ℕ) (height rnd : ℕ → ℤ),
      (∀ s < cfg.totalPower.toNat, height s + rnd s = a * cfg.totalPower + s) →
      ∀ i < cfg.n, (((List.range cfg.totalPower.toNat).map
        fun s => cfg.proposer (height s) (rnd s)).count i : ℤ) = cfg.powerOf i) ∧
    (∀ height rnd height' rnd' : ℤ, 0 ≤ height + rnd →
      height' + rnd' = height + rnd + cfg.totalPower →
      cfg.proposer height' rnd' = cfg.proposer height rnd) ∧
    (∀ p, (∀ i < cfg.n, cfg.powerOf i = p) → ∀ height rnd : ℤ, 0 ≤ height + rnd →
      (cfg.proposer height rnd : ℤ) = (height + rnd) % cfg.n) := by
  have hcast : (cfg.totalPower.toNat : ℤ) = cfg.totalPower := Int.toNat_of_nonneg htotal.le
  have hsum : 0 < cfg.powers.sum := htotal
  have hnonneg : ∀ i < cfg.powers.length, 0 ≤ cfg.powers.getD i 0 := by
    intro i hi
    rw [length_powers] at hi
    rw [getD_powers hi]
    exact hpowers i hi
  have hperiodic : Function.Periodic (leaderAt cfg.powers) cfg.totalPower.toNat :=
    periodic_total hnonneg hsum
  refine ⟨?_, ?_, ?_⟩
  · intro a height rnd hsteps i hi
    have hleaders : (List.range cfg.totalPower.toNat).map
        (fun s => cfg.proposer (height s) (rnd s))
        = (List.range cfg.totalPower.toNat).map (leaderAt cfg.powers) := by
      refine List.map_congr_left fun s hs => ?_
      have hstep : height s + rnd s = ((s + a * cfg.totalPower.toNat : ℕ) : ℤ) := by
        rw [hsteps s (List.mem_range.mp hs)]
        push_cast
        rw [hcast]
        ring
      rw [proposer_eq_leaderAt hstep]
      exact hperiodic.nat_mul a s
    rw [hleaders, ← picks_eq_count]
    have hpicks := picks_total hnonneg hsum (i := i) (by rwa [length_powers])
    rw [getD_powers hi] at hpicks
    exact hpicks
  · intro height rnd height' rnd' hpos hlater
    have hk : height + rnd = ((height + rnd).toNat : ℤ) := (Int.toNat_of_nonneg hpos).symm
    have hk' : height' + rnd' = (((height + rnd).toNat + cfg.totalPower.toNat : ℕ) : ℤ) := by
      omega
    rw [proposer_eq_leaderAt hk, proposer_eq_leaderAt hk']
    exact hperiodic _
  · intro p hequal height rnd hpos
    have hequal' : ∀ i < cfg.powers.length, cfg.powers.getD i 0 = p := by
      intro i hi
      rw [length_powers] at hi
      rw [getD_powers hi, hequal i hi]
    have hp : 0 < p := by
      rw [sum_equal hequal'] at hsum
      exact pos_of_mul_pos_right hsum (by omega)
    have hn : 0 < cfg.n := by
      rw [← length_powers]
      by_contra hzero
      rw [sum_equal hequal', Nat.eq_zero_of_not_pos hzero] at hsum
      simp at hsum
    have hround : Function.Periodic (leaderAt cfg.powers) cfg.n := by
      have hlength := periodic_equal hp hsum hequal'
      rwa [length_powers] at hlength
    have hk : height + rnd = ((height + rnd).toNat : ℤ) := (Int.toNat_of_nonneg hpos).symm
    have hmod : (height + rnd).toNat % cfg.n < cfg.powers.length := by
      rw [length_powers]
      exact Nat.mod_lt _ hn
    rw [proposer_eq_leaderAt hk, ← hround.map_mod_nat, leaderAt_equal hp hequal' hmod, hk]
    push_cast
    rfl

/-- Three nodes, the first of which has most of the voting power. -/
def skewed : SimConfig := ⟨3, 2, 1, [5, 1, 1], [], []⟩

theorem proposer_fair_skewed :
    skewed.totalPower = 7 ∧
      (((List.range 7).map fun s => skewed.proposer 0 s).count 0 : ℤ) = 5 := by
  have htotal : skewed.totalPower = 7 := by decide
  have hfair := (proposer_fair skewed (by decide) (by decide)).1
  refine ⟨htotal, ?_⟩
  rw [htotal] at hfair
  exact hfair 0 (fun _ => 0) (fun s => s) (by simp) 0 (by decide)

end SimConfig

end Tendermint
end DistributedConsensus
