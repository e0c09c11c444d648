import Mathlib.Data.List.Rotate

/-!
# Lists around a circle

Walking once around a circle from one place visits every other place exactly once,
and cutting a list into blocks of one length loses nothing.
-/

namespace DistributedConsensus
namespace Foundations

universe u

variable {α : Type u}

/-- The places after `start`, once around. -/
def walk (l : List α) (start : ℕ) : List α :=
  (List.range (l.length - 1)).filterMap fun i => l[(start + 1 + i) % l.length]?

/-- The elements from `a` to `b`, without the last one. -/
def slice (l : List α) (a b : ℕ) : List α := (l.drop a).take (b - a)

/-- The first `r` blocks of length `m`. -/
def blocks (l : List α) (m r : ℕ) : List (List α) :=
  (List.range r).map fun g => slice l (g * m) ((g + 1) * m)

theorem filterMap_getElem?_range (l : List α) :
    (List.range l.length).filterMap (fun i => l[i]?) = l := by
  induction l with
  | nil => rfl
  | cons a l ih =>
      rw [List.length_cons, List.range_succ_eq_map, List.filterMap_cons]
      simp only [List.getElem?_cons_zero, List.filterMap_map, Function.comp_def,
        List.getElem?_cons_succ, ih]

theorem walk_eq_tail_rotate (l : List α) (start : ℕ) :
    walk l start = (l.rotate start).tail := by
  rw [← filterMap_getElem?_range (l.rotate start).tail, List.length_tail, List.length_rotate]
  refine List.filterMap_congr fun i hi => ?_
  have hlt : i + 1 < l.length := by
    rw [List.mem_range] at hi
    omega
  rw [List.getElem?_tail, List.getElem?_rotate hlt, show i + 1 + start = start + 1 + i by omega]

/-- The start and the walk from it are the whole circle. -/
theorem cons_walk_perm
    {l : List α} {start : ℕ} {a : α}
    (h : l[start]? = some a) :
    (a :: walk l start).Perm l := by
  obtain ⟨hlt, -⟩ := List.getElem?_eq_some_iff.mp h
  have hhead : (l.rotate start).head? = some a := by
    rw [List.head?_rotate hlt, h]
  rw [walk_eq_tail_rotate, List.cons_head?_tail hhead]
  exact List.rotate_perm l start

theorem length_walk
    {l : List α} {start : ℕ} :
    (walk l start).length = l.length - 1 := by
  rw [walk_eq_tail_rotate, List.length_tail, List.length_rotate]

@[simp] theorem length_blocks (l : List α) (m r : ℕ) : (blocks l m r).length = r := by
  simp [blocks]

/-- The blocks and what is left over are the whole list. -/
theorem flatten_blocks (l : List α) (m r : ℕ) :
    (blocks l m r).flatten ++ l.drop (r * m) = l := by
  have hblocks : (blocks l m r).flatten = l.take (r * m) := by
    induction r with
    | zero => simp [blocks]
    | succ r ih =>
        have hlast : blocks l m (r + 1) = blocks l m r ++ [slice l (r * m) ((r + 1) * m)] := by
          simp [blocks, List.range_succ]
        rw [hlast, List.flatten_append, ih, Nat.succ_mul, List.take_add]
        simp [slice]
  rw [hblocks, List.take_append_drop]

/-- Where the list is long enough all blocks are full. -/
theorem length_of_mem_blocks
    {l b : List α} {m r : ℕ}
    (hlength : r * m ≤ l.length)
    (hb : b ∈ blocks l m r) :
    b.length = m := by
  obtain ⟨g, hg, rfl⟩ := List.mem_map.mp hb
  have hblock : (g + 1) * m ≤ r * m := Nat.mul_le_mul_right m (List.mem_range.mp hg)
  rw [slice, List.length_take, List.length_drop]
  rw [Nat.succ_mul] at hblock ⊢
  omega

end Foundations
end DistributedConsensus
