import DistributedConsensus.Foundations.Dict
import Mathlib.Data.Finset.Card
import Mathlib.Data.List.Perm.Basic

/-!
# Maps that are iterated in any order

Some languages iterate over a map in an order that they do not specify.  An
iteration is then described by the order in which it visits the keys, and a
result of a loop over the map does not depend on the language when it is the same
for all these orders.
-/

namespace DistributedConsensus
namespace Foundations

universe u v

/-- An order in which the keys of a map are visited. -/
structure MapOrder (K : Type u) where
  arrange : List K → List K
  /-- Every key is visited once. -/
  perm : ∀ keys, (arrange keys).Perm keys

/-- The keys are visited as they were inserted. -/
def MapOrder.insertion (K : Type u) : MapOrder K := ⟨id, fun _ => List.Perm.refl _⟩

/-- The order in which a given key is visited first. -/
def MapOrder.startingWith {K : Type u} [DecidableEq K] (k : K) : MapOrder K where
  arrange keys := keys.filter (fun x => x = k) ++ keys.filter (fun x => !(x = k))
  perm keys := List.filter_append_perm (fun x => x = k) keys

namespace Dict

variable {K : Type u} {V : Type v}

/-- The entries that satisfy a test. -/
def filter (d : Dict K V) (p : K × V → Bool) : Dict K V :=
  ⟨d.entries.filter p, d.nodup.sublist (List.filter_sublist.map Prod.fst)⟩

variable [DecidableEq K]

/-- Remove a key. -/
def erase (d : Dict K V) (k : K) : Dict K V := d.filter (fun p => !(p.1 = k))

/-- The entries in the order of an iteration. -/
def inOrder (d : Dict K V) (o : MapOrder K) : List (K × V) :=
  (o.arrange d.keys).filterMap (fun k => (d.get? k).map (fun v => (k, v)))

theorem mem_entries_iff {d : Dict K V} {k : K} {v : V} :
    (k, v) ∈ d.entries ↔ d.get? k = some v :=
  ⟨get?_of_mem_entries, mem_entries_of_get?⟩

/-- An iteration visits every entry. -/
theorem mem_inOrder {d : Dict K V} {o : MapOrder K} {k : K} {v : V} :
    (k, v) ∈ d.inOrder o ↔ d.get? k = some v := by
  unfold inOrder
  rw [List.mem_filterMap]
  constructor
  · rintro ⟨k', -, h⟩
    rw [Option.map_eq_some_iff] at h
    obtain ⟨v', hv', heq⟩ := h
    cases heq
    exact hv'
  · intro h
    refine ⟨k, (o.perm d.keys).mem_iff.mpr ?_, by rw [h]; rfl⟩
    exact List.mem_map.mpr ⟨_, mem_entries_of_get? h, rfl⟩

theorem filterMap_keys (d : Dict K V) :
    d.keys.filterMap (fun k => (d.get? k).map (fun v => (k, v))) = d.entries := by
  have hall : ∀ l : List (K × V), (∀ p ∈ l, d.get? p.1 = some p.2) →
      (l.map Prod.fst).filterMap (fun k => (d.get? k).map (fun v => (k, v))) = l := by
    intro l
    induction l with
    | nil =>
        intro _
        rfl
    | cons p rest ih =>
        intro hl
        have hhead := hl p (by simp)
        rw [List.map_cons, List.filterMap_cons_some (b := p) (by rw [hhead]; rfl),
          ih fun q hq => hl q (List.mem_cons_of_mem _ hq)]
  exact hall d.entries fun p hp => get?_of_mem_entries hp

/-- An iteration visits the entries in some order, each once. -/
theorem inOrder_perm (d : Dict K V) (o : MapOrder K) : (d.inOrder o).Perm d.entries := by
  have h := (o.perm d.keys).filterMap (fun k => (d.get? k).map (fun v => (k, v)))
  rwa [filterMap_keys] at h

theorem get?_filter (d : Dict K V) (p : K × V → Bool) (k : K) :
    (d.filter p).get? k = (d.get? k).filter (fun v => p (k, v)) := by
  have hiff : ∀ v, (d.filter p).get? k = some v ↔
      (d.get? k).filter (fun v => p (k, v)) = some v := by
    intro v
    rw [← mem_entries_iff, Option.filter_eq_some_iff, ← mem_entries_iff]
    exact List.mem_filter
  cases h : (d.get? k).filter (fun v => p (k, v)) with
  | some v => exact (hiff v).mpr h
  | none =>
      cases h' : (d.filter p).get? k with
      | none => rfl
      | some v =>
          rw [(hiff v).mp h'] at h
          cases h

theorem get?_erase (d : Dict K V) (k k' : K) :
    (d.erase k).get? k' = if k' = k then none else d.get? k' := by
  unfold erase
  rw [get?_filter]
  by_cases hk : k' = k
  · rw [if_pos hk]
    cases d.get? k' with
    | none => rfl
    | some v => simp [Option.filter, hk]
  · rw [if_neg hk]
    cases d.get? k' with
    | none => rfl
    | some v => simp [Option.filter, hk]

theorem size_erase_lt {d : Dict K V} {k : K} {v : V} (h : d.get? k = some v) :
    (d.erase k).size < d.size := by
  unfold erase filter size
  rw [List.length_filter_lt_length_iff_exists]
  exact ⟨(k, v), mem_entries_of_get? h, by simp⟩

/-- The keys whose values satisfy the predicate. -/
def keysWhere (d : Dict K V) (p : V → Bool) : Finset K := (d.filter fun e => p e.2).keys.toFinset

theorem mem_keysWhere {d : Dict K V} {p : V → Bool} {k : K} :
    k ∈ d.keysWhere p ↔ ∃ v, d.get? k = some v ∧ p v = true := by
  unfold keysWhere
  rw [List.mem_toFinset, ← not_iff_not, ← get?_eq_none_iff, get?_filter]
  cases d.get? k with
  | none => simp
  | some v => simp [Option.filter]

theorem card_keysWhere (d : Dict K V) (p : V → Bool) :
    (d.keysWhere p).card = d.values.countP p := by
  have hcard : (d.keysWhere p).card = (d.filter fun e => p e.2).keys.length :=
    List.toFinset_card_of_nodup (d.filter fun e => p e.2).nodup
  rw [hcard]
  unfold keys filter values
  rw [List.length_map, List.countP_map, List.countP_eq_length_filter]
  rfl

end Dict

end Foundations
end DistributedConsensus
