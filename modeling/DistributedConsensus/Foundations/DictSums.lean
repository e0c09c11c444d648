import DistributedConsensus.Foundations.Dict
import Mathlib.Algebra.BigOperators.Group.List.Basic
import Mathlib.Tactic.Abel

/-!
# Sums and counts over the values of a dictionary

Storing a value under a key changes a sum over the values by the difference to the
value that it replaces, and a count likewise.  `counts` is the dictionary of how often
each element of a list occurs.
-/

namespace DistributedConsensus
namespace Foundations

universe u v w

namespace Dict

variable {K : Type u} {V : Type v} [DecidableEq K]

/-- Storing a value changes a sum by the difference to the stored one. -/
theorem sum_values_set
    {M : Type w} [AddCommGroup M]
    (f : V → M) (d : Dict K V) (k : K) (v : V) :
    ((d.set k v).values.map f).sum =
      (d.values.map f).sum - ((d.get? k).map f).getD 0 + f v := by
  have hentries : ∀ l : List (K × V),
      ((setEntries k v l).map fun p => f p.2).sum =
        (l.map fun p => f p.2).sum -
          (((l.find? (fun p => p.1 = k)).map Prod.snd).map f).getD 0 + f v := by
    intro l
    induction l with
    | nil => simp [setEntries]
    | cons p l ih =>
        obtain ⟨k', v'⟩ := p
        by_cases hk : k' = k
        · simp [setEntries, hk]
          abel
        · simp [setEntries, hk, ih]
          abel
  unfold values get?
  rw [List.map_map, List.map_map]
  exact hentries d.entries

/-- Storing a value moves one unit of a count from the stored value to the new one. -/
theorem countP_values_set
    (p : V → Bool) (d : Dict K V) (k : K) (v : V) :
    (d.set k v).values.countP p + ((d.get? k).filter p).toList.length =
      d.values.countP p + if p v then 1 else 0 := by
  have hentries : ∀ l : List (K × V),
      ((setEntries k v l).map Prod.snd).countP p +
          (((l.find? (fun e => e.1 = k)).map Prod.snd).filter p).toList.length =
        (l.map Prod.snd).countP p + if p v then 1 else 0 := by
    intro l
    induction l with
    | nil => simp [setEntries, List.countP_cons]
    | cons e l ih =>
        obtain ⟨k', v'⟩ := e
        by_cases hk : k' = k
        · by_cases hv : p v' = true
          · simp [setEntries, hk, hv, List.countP_cons, Option.filter]
            omega
          · simp [setEntries, hk, hv, List.countP_cons, Option.filter]
        · simp [setEntries, hk, List.countP_cons] at ih ⊢
          omega
  exact hentries d.entries

/-- A dictionary does not shrink. -/
theorem size_le_size_set (d : Dict K V) (k : K) (v : V) : d.size ≤ (d.set k v).size := by
  have hcount := countP_values_set (fun _ => true) d k v
  have hone : ((d.get? k).filter (fun _ => true)).toList.length ≤ 1 := by
    cases d.get? k <;> simp [Option.filter]
  simp only [List.countP_true, length_values, if_true] at hcount
  omega

/-- How often each element occurs, counted in the order of the list. -/
def counts (l : List K) : Dict K ℤ :=
  l.foldl (fun d x => d.set x (d.getD x 0 + 1)) empty

theorem getD_counts (l : List K) (x : K) :
    (counts l).getD x 0 = l.countP (fun y => y = x) := by
  have hfold : ∀ d : Dict K ℤ,
      (l.foldl (fun d x => d.set x (d.getD x 0 + 1)) d).getD x 0 =
        d.getD x 0 + l.countP (fun y => y = x) := by
    induction l with
    | nil => simp
    | cons y l ih =>
        intro d
        rw [List.foldl_cons, ih, getD_set, List.countP_cons]
        by_cases hy : x = y
        · simp [hy]
          omega
        · simp [hy, Ne.symm hy]
  have hempty := hfold empty
  rw [getD_empty, zero_add] at hempty
  exact hempty

theorem mem_keys_counts {l : List K} {x : K} : x ∈ (counts l).keys ↔ x ∈ l := by
  have hfold : ∀ d : Dict K ℤ,
      x ∈ (l.foldl (fun d x => d.set x (d.getD x 0 + 1)) d).keys ↔ x ∈ d.keys ∨ x ∈ l := by
    induction l with
    | nil => simp
    | cons y l ih =>
        intro d
        rw [List.foldl_cons, ih, List.mem_cons, keys, set, mem_setEntries_fst]
        tauto
  exact (hfold empty).trans (or_iff_right List.not_mem_nil)

/-- The counts are those of the elements that occur. -/
theorem mem_values_counts {l : List K} {n : ℤ} :
    n ∈ (counts l).values ↔ ∃ x ∈ l, (l.countP (fun y => y = x) : ℤ) = n := by
  constructor
  · intro hn
    obtain ⟨⟨x, v⟩, hentry, rfl⟩ := List.mem_map.mp hn
    refine ⟨x, mem_keys_counts.mp (List.mem_map_of_mem hentry), ?_⟩
    rw [← getD_counts, getD, get?_of_mem_entries hentry]
    rfl
  · rintro ⟨x, hx, rfl⟩
    obtain ⟨⟨x', v⟩, hentry, rfl⟩ := List.mem_map.mp (mem_keys_counts.mpr hx)
    rw [← getD_counts, getD, get?_of_mem_entries hentry]
    exact List.mem_map_of_mem hentry

end Dict

end Foundations
end DistributedConsensus
