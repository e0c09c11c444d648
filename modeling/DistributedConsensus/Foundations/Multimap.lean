import DistributedConsensus.Foundations.Dict
import Mathlib.Data.List.Basic

/-!
# Dictionaries of collections

Observers often collect, under a key, who has reported what: a dictionary of lists
without repetition, or a dictionary of such dictionaries.  A new report is added under
its key, which is created when it is missing.  The lemmas tell what is under a key after
a report, and when more than one variant has been reported.

What is found under the keys is announced once: a pass over the entries announces those
that pass a test and whose keys have not been announced before (`news`).
-/

namespace DistributedConsensus
namespace Foundations

universe u v w

namespace Dict

variable {K : Type u} {V : Type v} {P : Type w}

@[simp] theorem keys_empty : (empty : Dict K V).keys = [] := rfl

@[simp] theorem size_empty : (empty : Dict K V).size = 0 := rfl

/-- A dictionary has two entries when two different keys are present. -/
theorem one_lt_size_iff {d : Dict K V} :
    1 < d.size ↔ ∃ k ∈ d.keys, ∃ k' ∈ d.keys, k ≠ k' := by
  have hsize : d.size = d.keys.length := (List.length_map Prod.fst).symm
  have hnodup : d.keys.Nodup := d.nodup
  rw [hsize]
  constructor
  · intro hlength
    match hkeys : d.keys with
    | [] => simp [hkeys] at hlength
    | [k] => simp [hkeys] at hlength
    | k :: k' :: rest =>
        rw [hkeys] at hnodup
        exact ⟨k, by simp, k', by simp, fun heq => by simp [heq] at hnodup⟩
  · rintro ⟨k, hk, k', hk', hne⟩
    match hkeys : d.keys with
    | [] => simp [hkeys] at hk
    | [x] =>
        rw [hkeys, List.mem_singleton] at hk hk'
        exact absurd (hk.trans hk'.symm) hne
    | x :: y :: rest => simp

variable [DecidableEq K]

theorem mem_keys_set {d : Dict K V} {k k' : K} {v : V} :
    k' ∈ (d.set k v).keys ↔ k' = k ∨ k' ∈ d.keys :=
  mem_setEntries_fst

/-- An entry with a property that the default does not have is the one of its key. -/
theorem exists_mem_entries_iff {d : Dict K V} {k : K} {p : V → Prop} {x : V}
    (hx : ¬ p x) :
    (∃ v, (k, v) ∈ d.entries ∧ p v) ↔ p (d.getD k x) := by
  unfold getD
  cases hget : d.get? k with
  | none =>
      refine ⟨?_, fun h => absurd h hx⟩
      rintro ⟨v, hmem, -⟩
      rw [get?_of_mem_entries hmem] at hget
      cases hget
  | some v =>
      constructor
      · rintro ⟨v', hmem, hv'⟩
        rw [get?_of_mem_entries hmem] at hget
        cases hget
        exact hv'
      · exact fun h => ⟨v, mem_entries_of_get? hget, h⟩

variable [DecidableEq V] [DecidableEq P]

/-- Add a value to the collection under a key. -/
def add (d : Dict K (List V)) (k : K) (v : V) : Dict K (List V) :=
  d.set k ((d.getD k []).insert v)

/-- Add a value to a variant under a key. -/
def addVariant (d : Dict K (Dict P (List V))) (k : K) (p : P) (v : V) :
    Dict K (Dict P (List V)) :=
  d.set k ((d.getD k empty).add p v)

variable {d : Dict K (List V)} {k k' : K} {v v' : V}

theorem mem_getD_add :
    v' ∈ (d.add k v).getD k' [] ↔ k' = k ∧ v' = v ∨ v' ∈ d.getD k' [] := by
  rw [add, getD_set]
  split
  case isTrue heq =>
    subst heq
    rw [List.mem_insert_iff]
    simp
  case isFalse hne => simp [hne]

theorem nodup_getD_add
    (h : ∀ k, (d.getD k []).Nodup)
    (k' : K) :
    ((d.add k v).getD k' []).Nodup := by
  rw [add, getD_set]
  split
  case isTrue => exact (h k).insert
  case isFalse => exact h k'

theorem mem_keys_addVariant
    {d : Dict K (Dict P (List V))} {p p' : P} :
    p' ∈ ((d.addVariant k p v).getD k' empty).keys ↔
      k' = k ∧ p' = p ∨ p' ∈ (d.getD k' empty).keys := by
  rw [addVariant, getD_set]
  split
  case isTrue heq =>
    subst heq
    rw [add, mem_keys_set]
    simp
  case isFalse hne => simp [hne]

/-! ## Announcing once -/

section News

variable {W : Type w} {p : W → Prop} [DecidablePred p] {seen : List K} {entries : List (K × W)}

/-- The entries that a pass announces. -/
def news (p : W → Prop) [DecidablePred p] (seen : List K) : List (K × W) → List (K × W)
  | [] => []
  | e :: entries =>
      if p e.2 ∧ e.1 ∉ seen then e :: news p (seen ++ [e.1]) entries else news p seen entries

theorem mem_of_mem_news
    {e : K × W}
    (h : e ∈ news p seen entries) :
    e ∈ entries ∧ p e.2 := by
  induction entries generalizing seen with
  | nil => cases h
  | cons a entries ih =>
      rw [news] at h
      split at h
      case isTrue ha =>
        rcases List.mem_cons.mp h with rfl | hrest
        · exact ⟨List.mem_cons_self, ha.1⟩
        · exact ⟨List.mem_cons_of_mem _ (ih hrest).1, (ih hrest).2⟩
      case isFalse => exact ⟨List.mem_cons_of_mem _ (ih h).1, (ih h).2⟩

/-- After a pass the keys of all entries that pass the test have been announced. -/
theorem mem_append_news_iff :
    k ∈ seen ++ (news p seen entries).map Prod.fst ↔
      k ∈ seen ∨ ∃ v, (k, v) ∈ entries ∧ p v := by
  induction entries generalizing seen with
  | nil => simp [news]
  | cons a entries ih =>
      obtain ⟨k', v'⟩ := a
      rw [news]
      split
      case isTrue hnew =>
        have hv' : p v' := hnew.1
        rw [List.map_cons, List.append_cons, ih, List.mem_append, List.mem_singleton, or_assoc]
        simp only [List.mem_cons, Prod.mk.injEq, or_and_right, exists_or, and_assoc,
          exists_and_left, exists_eq_left, hv', and_true]
      case isFalse hold =>
        rw [ih]
        refine or_congr_right' fun hfresh => exists_congr fun v => ?_
        rw [List.mem_cons]
        refine ⟨fun h => ⟨Or.inr h.1, h.2⟩, ?_⟩
        rintro ⟨heq | hmem, hv⟩
        · cases heq
          exact absurd ⟨hv, hfresh⟩ hold
        · exact ⟨hmem, hv⟩

theorem nodup_append_news
    (h : seen.Nodup) :
    (seen ++ (news p seen entries).map Prod.fst).Nodup := by
  induction entries generalizing seen with
  | nil => simpa [news] using h
  | cons a entries ih =>
      rw [news]
      split
      case isTrue hnew =>
        rw [List.map_cons, List.append_cons]
        refine ih ?_
        rw [← List.concat_eq_append]
        exact h.concat hnew.2
      case isFalse => exact ih h

end News

end Dict

end Foundations
end DistributedConsensus
