import Mathlib.Data.Finset.Basic
import Mathlib.Data.Int.Init

/-!
# Reports of earlier views

When participants give up their views, each reports for a slot what it has
prepared and what it has pre-prepared, with the views.  A value may be proposed
again when a quorum has nothing against it and some correct participant has
pre-prepared it late enough; any value may be proposed when a quorum has prepared
nothing.

If a quorum had committed a value, the correct ones of them report it, or it as
the value of a later view.  Then no other value may be proposed, in any later
view.
-/

namespace DistributedConsensus
namespace Foundations

universe u v

/-- What a participant reports for one slot: values with their views. -/
structure Report (V : Type v) where
  prepared : List (ℤ × V)
  prePrepared : List (ℤ × V)

namespace Report

variable {ι : Type u} {V : Type v} {Quorum Weak : Finset ι → Prop} {correct : ι → Prop}
  {report : ι → Report V} {view : ℤ} {value other : V}

/-- Nothing speaks against the value of the view. -/
def Supports (r : Report V) (view : ℤ) (value : V) : Prop :=
  ∀ p ∈ r.prepared, p.1 < view ∨ p.1 = view ∧ p.2 = value

/-- The value has been pre-prepared in the view or later. -/
def Vouches (r : Report V) (view : ℤ) (value : V) : Prop :=
  ∃ p ∈ r.prePrepared, p.2 = value ∧ view ≤ p.1

/-- Something is reported as prepared, all of it since the view and with the value. -/
def Covers (r : Report V) (view : ℤ) (value : V) : Prop :=
  r.prepared ≠ [] ∧ ∀ p ∈ r.prepared, view ≤ p.1 ∧ p.2 = value

section Selection

variable (hinter : ∀ A B, Quorum A → Quorum B → ∃ i ∈ A, i ∈ B ∧ correct i)
variable (hweak : ∀ A, Weak A → ∃ i ∈ A, correct i)

include hinter in
/-- A quorum has not prepared nothing when a value has been committed. -/
theorem not_forall_nil
    {A Q : Finset ι}
    (hQ : Quorum Q)
    (hcovers : ∀ i ∈ A, i ∈ Q → correct i → (report i).Covers view value)
    (hA : Quorum A) :
    ¬∀ i ∈ A, (report i).prepared = [] := by
  intro hnil
  obtain ⟨i, hiA, hiQ, hi⟩ := hinter A Q hA hQ
  exact (hcovers i hiA hiQ hi).1 (hnil i hiA)

include hinter hweak in
/-- Only the committed value may be proposed again. -/
theorem eq_of_supports
    {A W Q : Finset ι} {later : ℤ}
    (hQ : Quorum Q)
    (hcovers : ∀ i ∈ A, i ∈ Q → correct i → (report i).Covers view value)
    (htruthful : ∀ i ∈ W, correct i → ∀ p ∈ (report i).prePrepared, view < p.1 → p.2 = value)
    (hA : Quorum A)
    (hsupports : ∀ i ∈ A, (report i).Supports later other)
    (hW : Weak W)
    (hvouches : ∀ i ∈ W, (report i).Vouches later other) :
    other = value := by
  obtain ⟨i, hiA, hiQ, hi⟩ := hinter A Q hA hQ
  obtain ⟨hne, hall⟩ := hcovers i hiA hiQ hi
  obtain ⟨p, hp⟩ := List.exists_mem_of_ne_nil _ hne
  obtain ⟨hle, hvalue⟩ := hall p hp
  rcases hsupports i hiA p hp with hlt | ⟨-, hother⟩
  · -- The value is of a later view, where a correct participant has pre-prepared it.
    obtain ⟨k, hkW, hk⟩ := hweak W hW
    obtain ⟨r, hr, hother, hle'⟩ := hvouches k hkW
    rw [← hother]
    exact htruthful k hkW hk r hr (by omega)
  · exact hother.symm.trans hvalue

end Selection

/-- What may be proposed in a view depends on the views before it only. -/
theorem eq_of_later
    {May : ℤ → V → Prop}
    (hstep : ∀ u, view < u → (∀ u', view < u' → u' < u → ∀ d, May u' d → d = value) →
      ∀ d, May u d → d = value)
    {u : ℤ}
    (hu : view < u)
    (hmay : May u other) :
    other = value := by
  obtain ⟨k, hk⟩ : ∃ k : ℕ, k = (u - view).toNat := ⟨_, rfl⟩
  induction k using Nat.strong_induction_on generalizing u other with
  | _ k ih =>
      refine hstep u hu ?_ other hmay
      intro u' hu' hlt d hd
      exact ih (u' - view).toNat (by omega) hu' hd rfl

end Report

end Foundations
end DistributedConsensus
