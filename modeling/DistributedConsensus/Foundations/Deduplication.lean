import Mathlib.Data.List.Nodup

/-!
# Dropping copies

A receiver keeps the keys that it has seen and accepts a message when its key is new.
It accepts every key once, with the first message that has it.

A receiver that also checks its messages may drop the copies before or after the
check.  The two orders accept the same messages exactly when no failing message is
the first with its key ahead of a passing one: `filter_firsts_eq_iff`.
-/

namespace DistributedConsensus
namespace Foundations

universe u v

variable {M : Type u} {K : Type v} [DecidableEq K]

/-- The messages whose keys are new, when the keys of `seen` are known. -/
def firsts (key : M → K) : List K → List M → List M
  | _, [] => []
  | seen, m :: ms =>
      if key m ∈ seen then firsts key seen ms else m :: firsts key (key m :: seen) ms

/-- No failing message with a new key comes before a passing one with this key. -/
def Unspoiled (key : M → K) (valid : M → Bool) : List K → List M → Prop
  | _, [] => True
  | seen, m :: ms =>
      (valid m = false → key m ∉ seen → ∀ x ∈ ms, valid x = true → key x ≠ key m) ∧
        Unspoiled key valid (key m :: seen) ms

instance decidableUnspoiled (key : M → K) (valid : M → Bool) :
    ∀ seen ms, Decidable (Unspoiled key valid seen ms)
  | _, [] => isTrue trivial
  | seen, m :: ms =>
      @instDecidableAnd _ _ _ (decidableUnspoiled key valid (key m :: seen) ms)

section Firsts

variable {key : M → K} {seen seen' : List K} {ms : List M} {m : M}

theorem mem_of_mem_firsts
    (h : m ∈ firsts key seen ms) :
    m ∈ ms ∧ key m ∉ seen := by
  induction ms generalizing seen with
  | nil => cases h
  | cons x ms ih =>
      rw [firsts] at h
      split at h
      case isTrue =>
        obtain ⟨hmem, hnew⟩ := ih h
        exact ⟨List.mem_cons_of_mem _ hmem, hnew⟩
      case isFalse hx =>
        rcases List.mem_cons.mp h with rfl | hrest
        · exact ⟨List.mem_cons_self, hx⟩
        · obtain ⟨hmem, hnew⟩ := ih hrest
          exact ⟨List.mem_cons_of_mem _ hmem, fun hold => hnew (List.mem_cons_of_mem _ hold)⟩

/-- Every key is accepted once. -/
theorem nodup_keys_firsts (key : M → K) (seen : List K) (ms : List M) :
    ((firsts key seen ms).map key).Nodup := by
  induction ms generalizing seen with
  | nil => exact List.nodup_nil
  | cons x ms ih =>
      rw [firsts]
      split
      case isTrue => exact ih seen
      case isFalse =>
        rw [List.map_cons, List.nodup_cons]
        refine ⟨?_, ih _⟩
        intro hmem
        obtain ⟨y, hy, hkey⟩ := List.mem_map.mp hmem
        refine (mem_of_mem_firsts hy).2 ?_
        rw [hkey]
        exact List.mem_cons_self

/-- Every new key is accepted. -/
theorem exists_mem_firsts
    (hm : m ∈ ms)
    (hnew : key m ∉ seen) :
    ∃ y ∈ firsts key seen ms, key y = key m := by
  induction ms generalizing seen with
  | nil => cases hm
  | cons x ms ih =>
      rw [firsts]
      by_cases hkey : key x = key m
      · rw [if_neg (by rw [hkey]; exact hnew)]
        exact ⟨x, List.mem_cons_self, hkey⟩
      · have hrest : m ∈ ms := by
          rcases List.mem_cons.mp hm with rfl | hrest
          · exact absurd rfl hkey
          · exact hrest
        split
        case isTrue => exact ih hrest hnew
        case isFalse =>
          have hnew' : key m ∉ key x :: seen := by
            rw [List.mem_cons, not_or]
            exact ⟨Ne.symm hkey, hnew⟩
          obtain ⟨y, hy, hy'⟩ := ih hrest hnew'
          exact ⟨y, List.mem_cons_of_mem _ hy, hy'⟩

/-- What is accepted depends on the set of the known keys. -/
theorem firsts_congr
    (hsame : ∀ k, k ∈ seen ↔ k ∈ seen') :
    firsts key seen ms = firsts key seen' ms := by
  induction ms generalizing seen seen' with
  | nil => rfl
  | cons x ms ih =>
      have hcons : ∀ k, k ∈ key x :: seen ↔ k ∈ key x :: seen' := by
        intro k
        rw [List.mem_cons, List.mem_cons, hsame]
      rw [firsts, firsts, ih hsame, ih hcons]
      simp only [hsame]

/-- Later messages meet the keys of the earlier ones. -/
theorem firsts_append (xs ys : List M) :
    firsts key seen (xs ++ ys) = firsts key seen xs ++ firsts key (xs.map key ++ seen) ys := by
  induction xs generalizing seen with
  | nil => rfl
  | cons x xs ih =>
      have hswap : ∀ k, k ∈ xs.map key ++ key x :: seen ↔ k ∈ (x :: xs).map key ++ seen := by
        intro k
        simp only [List.map_cons, List.mem_append, List.mem_cons]
        tauto
      rw [List.cons_append, firsts, firsts]
      by_cases hx : key x ∈ seen
      · have hsame : ∀ k, k ∈ xs.map key ++ seen ↔ k ∈ (x :: xs).map key ++ seen := by
          intro k
          simp only [List.map_cons, List.mem_append, List.mem_cons]
          exact ⟨fun h => h.elim (fun hk => Or.inl (Or.inr hk)) Or.inr, fun h => by
            rcases h with (rfl | hk) | hk
            · exact Or.inr hx
            · exact Or.inl hk
            · exact Or.inr hk⟩
        rw [if_pos hx, if_pos hx, ih, firsts_congr hsame]
      · rw [if_neg hx, if_neg hx, ih, firsts_congr hswap]
        rfl

omit [DecidableEq K] in
/-- The order of the known keys does not matter. -/
theorem unspoiled_congr
    {valid : M → Bool}
    (hsame : ∀ k, k ∈ seen ↔ k ∈ seen') :
    Unspoiled key valid seen ms ↔ Unspoiled key valid seen' ms := by
  induction ms generalizing seen seen' with
  | nil => exact Iff.rfl
  | cons x ms ih =>
      have hcons : ∀ k, k ∈ key x :: seen ↔ k ∈ key x :: seen' := by
        intro k
        rw [List.mem_cons, List.mem_cons, hsame]
      rw [Unspoiled, Unspoiled, hsame, ih hcons]

/-- The two orders compared, when they may know different keys of failing
messages. -/
theorem filter_firsts_eq_iff_of_agree
    {valid : M → Bool}
    (hagree : ∀ x ∈ ms, valid x = true → (key x ∈ seen ↔ key x ∈ seen')) :
    (firsts key seen ms).filter valid = firsts key seen' (ms.filter valid) ↔
      Unspoiled key valid seen ms := by
  induction ms generalizing seen seen' with
  | nil => simp [firsts, Unspoiled]
  | cons m ms ih =>
      have htail : ∀ x ∈ ms, valid x = true → (key x ∈ seen ↔ key x ∈ seen') :=
        fun x hx => hagree x (List.mem_cons_of_mem _ hx)
      have hknown : key m ∈ seen →
          (Unspoiled key valid (key m :: seen) ms ↔ Unspoiled key valid seen ms) := by
        intro hm
        refine unspoiled_congr fun k => ?_
        rw [List.mem_cons]
        exact ⟨fun h => h.elim (fun heq => heq ▸ hm) (fun h => h), Or.inr⟩
      rw [firsts, Unspoiled]
      cases hvalid : valid m with
      | true =>
          rw [List.filter_cons_of_pos hvalid, firsts]
          have hiff := hagree m List.mem_cons_self hvalid
          by_cases hm : key m ∈ seen
          · rw [if_pos hm, if_pos (hiff.mp hm), ih htail, hknown hm]
            simp
          · rw [if_neg hm, if_neg fun h => hm (hiff.mpr h), List.filter_cons_of_pos hvalid,
              List.cons.injEq, ih]
            · simp
            · intro x hx hx'
              rw [List.mem_cons, List.mem_cons, htail x hx hx']
      | false =>
          rw [List.filter_cons_of_neg (by rw [hvalid]; exact Bool.false_ne_true)]
          by_cases hm : key m ∈ seen
          · rw [if_pos hm, ih htail, hknown hm]
            simp [hm]
          · rw [if_neg hm, List.filter_cons_of_neg (by rw [hvalid]; exact Bool.false_ne_true)]
            by_cases hlater : ∀ x ∈ ms, valid x = true → key x ≠ key m
            · rw [ih]
              · exact ⟨fun h => ⟨fun _ _ => hlater, h⟩, And.right⟩
              · intro x hx hx'
                rw [List.mem_cons, htail x hx hx']
                exact ⟨fun h => h.resolve_left (hlater x hx hx'), Or.inr⟩
            · -- The key is used up on the left and still new on the right.
              refine iff_of_false ?_ fun h => hlater (h.1 rfl hm)
              push Not at hlater
              obtain ⟨x, hx, hx', hkey⟩ := hlater
              intro heq
              have hnew : key x ∉ seen' := by
                rw [← htail x hx hx', hkey]
                exact hm
              obtain ⟨y, hy, hy'⟩ := exists_mem_firsts
                (List.mem_filter.mpr ⟨hx, hx'⟩) hnew
              rw [← heq] at hy
              refine (mem_of_mem_firsts (List.mem_of_mem_filter hy)).2 ?_
              rw [hy', hkey]
              exact List.mem_cons_self

/-- **The order of the two checks.** -/
theorem filter_firsts_eq_iff
    {valid : M → Bool} :
    (firsts key seen ms).filter valid = firsts key seen (ms.filter valid) ↔
      Unspoiled key valid seen ms :=
  filter_firsts_eq_iff_of_agree fun _ _ _ => Iff.rfl

/-- All messages of a checked sequence pass the check. -/
theorem filter_firsts_filter (valid : M → Bool) :
    (firsts key seen (ms.filter valid)).filter valid = firsts key seen (ms.filter valid) := by
  rw [List.filter_eq_self]
  intro x hx
  exact (List.mem_filter.mp (mem_of_mem_firsts hx).1).2

end Firsts

end Foundations
end DistributedConsensus
