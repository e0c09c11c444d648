import Mathlib.Algebra.GroupWithZero.Nat
import Mathlib.Logic.Relation

/-!
# Runs of a labelled transition system

A system has one initial state and a partial step function: a label that is not
enabled in a state has no successor.  A *policy* `ok` restricts the labels that
a run may take in a given state.  Reachability is reachability by steps that
all satisfy the policy, so one system serves both for statements about all of
its runs and for statements about the runs whose steps meet a condition.

The executable counterpart `exec` follows a list of labels; it is used to
exhibit concrete runs.
-/

namespace DistributedConsensus
namespace Foundations

universe u v

/-- A labelled transition system with a partial step function. -/
structure System (σ : Type u) (ι : Type v) where
  /-- The state every run starts from. -/
  init : σ
  /-- The successor under a label, if the label is enabled. -/
  step : σ → ι → Option σ

/-- The processes of small systems are numbered by literals. -/
instance neZero_two : NeZero 2 := ⟨by decide⟩

instance neZero_three : NeZero 3 := ⟨by decide⟩

instance neZero_four : NeZero 4 := ⟨by decide⟩

namespace System

variable {σ : Type u} {ι : Type v}

/-- States connected by steps that satisfy the policy `ok`. -/
inductive Reaches (S : System σ ι) (ok : σ → ι → Prop) : σ → σ → Prop
  | refl (s : σ) : Reaches S ok s s
  | tail {s t r : σ} {l : ι} :
      Reaches S ok s t → ok t l → S.step t l = some r → Reaches S ok s r

/-- The policy that admits every label. -/
def anyStep : σ → ι → Prop := fun _ _ => True

instance (s : σ) (l : ι) : Decidable (anyStep s l) := isTrue trivial

/-- States of the runs whose steps all satisfy the policy. -/
def Reachable (S : System σ ι) (ok : σ → ι → Prop) (s : σ) : Prop :=
  Reaches S ok S.init s

/-- Runs compose. -/
theorem Reaches.trans
    {S : System σ ι} {ok : σ → ι → Prop} {s t r : σ}
    (hst : Reaches S ok s t)
    (htr : Reaches S ok t r) :
    Reaches S ok s r := by
  induction htr with
  | refl => exact hst
  | tail _ hok hstep ih => exact Reaches.tail ih hok hstep

/-- A run under a policy is a run under every weaker policy. -/
theorem Reaches.mono
    {S : System σ ι} {ok ok' : σ → ι → Prop} {s t : σ}
    (hweak : ∀ s l, ok s l → ok' s l)
    (h : Reaches S ok s t) :
    Reaches S ok' s t := by
  induction h with
  | refl => exact Reaches.refl _
  | tail _ hok hstep ih => exact Reaches.tail ih (hweak _ _ hok) hstep

/-- The invariant rule for reachable states.  The step case may use what is
already known of reachable states. -/
theorem Reachable.invariant
    {S : System σ ι} {ok : σ → ι → Prop} {t : σ}
    {I : σ → Prop}
    (hinit : I S.init)
    (hstep : ∀ s l s', Reachable S ok s → I s → ok s l → S.step s l = some s' → I s')
    (h : Reachable S ok t) :
    I t := by
  unfold Reachable at h
  induction h with
  | refl => exact hinit
  | tail hreach hok hst ih => exact hstep _ _ _ hreach ih hok hst

/-- Follow a list of labels, checking the policy at every step. -/
def exec (S : System σ ι) (ok : σ → ι → Prop) [∀ s l, Decidable (ok s l)] :
    σ → List ι → Option σ
  | s, [] => some s
  | s, l :: ls =>
      if ok s l then
        match S.step s l with
        | some s' => exec S ok s' ls
        | none => none
      else none

/-- A successful execution is a run. -/
theorem reaches_of_exec
    {S : System σ ι} {ok : σ → ι → Prop} [∀ s l, Decidable (ok s l)]
    {ls : List ι} {s t : σ}
    (h : exec S ok s ls = some t) :
    Reaches S ok s t := by
  induction ls generalizing s with
  | nil =>
      simp only [exec, Option.some.injEq] at h
      subst h
      exact Reaches.refl _
  | cons l ls ih =>
      simp only [exec] at h
      split at h
      case isTrue hok =>
        split at h
        case h_1 s' hs' =>
          exact (Reaches.tail (Reaches.refl s) hok hs').trans (ih h)
        case h_2 =>
          cases h
      case isFalse =>
        cases h

/-- A successful execution exhibits a reachable state with a given property. -/
theorem exists_reaches_of_exec
    {S : System σ ι} {ok : σ → ι → Prop} [∀ s l, Decidable (ok s l)]
    {s : σ} {P : σ → Prop} [DecidablePred P]
    (ls : List ι)
    (h : (exec S ok s ls).any (fun t => decide (P t)) = true) :
    ∃ t, Reaches S ok s t ∧ P t := by
  rw [Option.any_eq_true] at h
  obtain ⟨t, ht, hP⟩ := h
  exact ⟨t, reaches_of_exec ht, of_decide_eq_true hP⟩

end System

end Foundations
end DistributedConsensus
