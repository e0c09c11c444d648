import Mathlib.Data.List.Basic

/-!
# Rules tried until none applies

A rule is a partial function on states: it applies or it does not.  A pass
tries every rule of a list once, each on the state the rules before it have
left, and a loop repeats the pass until no rule has applied.  When every rule
that applies decreases a measure, the loop ends, and in the state it ends in no
rule applies.
-/

namespace DistributedConsensus
namespace Foundations
namespace Saturation

universe u

variable {σ : Type u}

section Defs

/-- Try one rule; the flag records whether a rule has applied so far. -/
def attempt (rule : σ → Option σ) (s : Bool × σ) : Bool × σ :=
  match rule s.2 with
  | some x => (true, x)
  | none => s

/-- Try the rules in order. -/
def pass (rules : List (σ → Option σ)) (x : σ) : Bool × σ :=
  rules.foldl (fun s rule => attempt rule s) (false, x)

/-- Repeat the pass until no rule applies; `none` if that takes more than `k`
passes. -/
def saturate (rules : List (σ → Option σ)) : ℕ → σ → Option σ
  | 0, _ => none
  | k + 1, x => if (pass rules x).1 then saturate rules k (pass rules x).2 else some (pass rules x).2

end Defs

section Passes

variable {rules : List (σ → Option σ)}

/-- After a pass that started with the flag `b`, the flag is unset only if it
was unset before and no rule has applied. -/
theorem foldl_attempt_fst
    (b : Bool) (x : σ) :
    (rules.foldl (fun s rule => attempt rule s) (b, x)).1 = false ↔
      b = false ∧ ∀ rule ∈ rules, rule x = none := by
  induction rules generalizing b x with
  | nil => simp
  | cons rule rest ih =>
      rw [List.foldl_cons, List.forall_mem_cons]
      cases happlies : rule x with
      | none =>
          have hattempt : attempt rule (b, x) = (b, x) := by simp [attempt, happlies]
          rw [hattempt, ih]
          simp
      | some y =>
          have hattempt : attempt rule (b, x) = (true, y) := by simp [attempt, happlies]
          rw [hattempt, ih]
          simp

theorem pass_fst_eq_false_iff {x : σ} :
    (pass rules x).1 = false ↔ ∀ rule ∈ rules, rule x = none := by
  simpa [pass] using @foldl_attempt_fst σ rules false x

/-- A relation that holds of every application of a rule holds of a pass. -/
theorem foldl_attempt_rel
    {r : σ → σ → Prop}
    (hrefl : ∀ x, r x x)
    (htrans : ∀ x y z, r x y → r y z → r x z)
    (hrules : ∀ rule ∈ rules, ∀ x y, rule x = some y → r x y)
    (s : Bool × σ) :
    r s.2 (rules.foldl (fun s rule => attempt rule s) s).2 := by
  induction rules generalizing s with
  | nil => exact hrefl s.2
  | cons rule rest ih =>
      rw [List.foldl_cons]
      have hrest := ih (fun f hf => hrules f (List.mem_cons_of_mem _ hf)) (attempt rule s)
      refine htrans _ _ _ ?_ hrest
      unfold attempt
      split
      case h_1 y hy => exact hrules rule List.mem_cons_self _ _ hy
      case h_2 => exact hrefl s.2

theorem pass_rel
    {r : σ → σ → Prop}
    (hrefl : ∀ x, r x x)
    (htrans : ∀ x y z, r x y → r y z → r x z)
    (hrules : ∀ rule ∈ rules, ∀ x y, rule x = some y → r x y)
    (x : σ) :
    r x (pass rules x).2 :=
  foldl_attempt_rel hrefl htrans hrules (false, x)

/-- A pass in which no rule applies leaves the state unchanged. -/
theorem pass_snd_of_idle
    {x : σ}
    (h : ∀ rule ∈ rules, rule x = none) :
    (pass rules x).2 = x := by
  have key : ∀ l : List (σ → Option σ), (∀ rule ∈ l, rule x = none) →
      l.foldl (fun s rule => attempt rule s) (false, x) = (false, x) := by
    intro l
    induction l with
    | nil => exact fun _ => rfl
    | cons rule rest ih =>
        intro hl
        have hattempt : attempt rule (false, x) = (false, x) := by
          simp [attempt, hl rule List.mem_cons_self]
        rw [List.foldl_cons, hattempt]
        exact ih (fun f hf => hl f (List.mem_cons_of_mem _ hf))
  exact congrArg Prod.snd (key rules h)

/-- A pass in which a rule applies decreases the measure. -/
theorem pass_lt
    {μ : σ → ℕ}
    (hrules : ∀ rule ∈ rules, ∀ x y, rule x = some y → μ y < μ x)
    {x : σ}
    (h : (pass rules x).1 = true) :
    μ (pass rules x).2 < μ x := by
  have key : ∀ (l : List (σ → Option σ)), (∀ rule ∈ l, ∀ x y, rule x = some y → μ y < μ x) →
      ∀ x, (l.foldl (fun s rule => attempt rule s) (false, x)).1 = true →
        μ (l.foldl (fun s rule => attempt rule s) (false, x)).2 < μ x := by
    intro l
    induction l with
    | nil =>
        intro _ x hflag
        simp at hflag
    | cons rule rest ih =>
        intro hl x hflag
        have hrest : ∀ f ∈ rest, ∀ x y, f x = some y → μ y < μ x :=
          fun f hf => hl f (List.mem_cons_of_mem _ hf)
        rw [List.foldl_cons] at hflag ⊢
        cases happlies : rule x with
        | none =>
            have hattempt : attempt rule (false, x) = (false, x) := by simp [attempt, happlies]
            rw [hattempt] at hflag ⊢
            exact ih hrest x hflag
        | some y =>
            have hattempt : attempt rule (false, x) = (true, y) := by simp [attempt, happlies]
            rw [hattempt]
            have hfirst : μ y < μ x := hl rule List.mem_cons_self x y happlies
            have hlater := @foldl_attempt_rel σ rest (fun x y => μ y ≤ μ x) (fun x => Nat.le_refl _)
              (fun x y z hxy hyz => Nat.le_trans hyz hxy)
              (fun f hf x y hxy => Nat.le_of_lt (hrest f hf x y hxy)) (true, y)
            simp only at hlater
            omega
  exact key rules hrules x h

end Passes

section Loops

variable {rules : List (σ → Option σ)}

/-- The loop ends: a measure that every rule decreases bounds its passes. -/
theorem exists_saturate
    {μ : σ → ℕ}
    (hrules : ∀ rule ∈ rules, ∀ x y, rule x = some y → μ y < μ x)
    {k : ℕ} {x : σ}
    (hk : μ x < k) :
    ∃ y, saturate rules k x = some y := by
  induction k generalizing x with
  | zero => omega
  | succ k ih =>
      rw [saturate]
      split
      case isTrue happlied =>
        have hless := pass_lt hrules happlied
        exact ih (by omega)
      case isFalse => exact ⟨_, rfl⟩

/-- Where the loop ends, no rule applies. -/
theorem idle_of_saturate
    {k : ℕ} {x y : σ}
    (h : saturate rules k x = some y) :
    ∀ rule ∈ rules, rule y = none := by
  induction k generalizing x with
  | zero => cases h
  | succ k ih =>
      rw [saturate] at h
      split at h
      case isTrue => exact ih h
      case isFalse hflag =>
        obtain rfl := Option.some.inj h
        have hidle := pass_fst_eq_false_iff.mp (by simpa using hflag)
        rwa [pass_snd_of_idle hidle]

theorem saturate_rel
    {r : σ → σ → Prop}
    (hrefl : ∀ x, r x x)
    (htrans : ∀ x y z, r x y → r y z → r x z)
    (hrules : ∀ rule ∈ rules, ∀ x y, rule x = some y → r x y)
    {k : ℕ} {x y : σ}
    (h : saturate rules k x = some y) :
    r x y := by
  induction k generalizing x with
  | zero => cases h
  | succ k ih =>
      have hpass := pass_rel hrefl htrans hrules x
      rw [saturate] at h
      split at h
      case isTrue => exact htrans _ _ _ hpass (ih h)
      case isFalse =>
        obtain rfl := Option.some.inj h
        exact hpass

/-- A loop that starts where no rule applies ends there. -/
theorem eq_of_idle
    {k : ℕ} {x y : σ}
    (hidle : ∀ rule ∈ rules, rule x = none)
    (h : saturate rules k x = some y) :
    x = y := by
  cases k with
  | zero => cases h
  | succ k =>
      rw [saturate, pass_fst_eq_false_iff.mpr hidle, pass_snd_of_idle hidle] at h
      simpa using h

end Loops

end Saturation
end Foundations
end DistributedConsensus
