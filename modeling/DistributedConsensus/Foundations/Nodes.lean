import DistributedConsensus.Foundations.Runs
import Mathlib.Logic.Function.Basic

/-!
# Networks of nodes

A network is a family of nodes with local states.  In one step one node handles
one event; whether the event can happen may depend on all nodes, for example on
what the others have sent.  The other nodes keep their states.

The invariant rule is for a property of one node that may refer to the whole
network, as long as it survives the progress of the other nodes.
-/

namespace DistributedConsensus
namespace Foundations

universe u v w

/-- Nodes that handle events, one node in a step. -/
structure Nodes (ι : Type u) (σ : Type v) (ε : Type w) where
  /-- The initial state of a node. -/
  start : ι → σ
  /-- The event can happen at the node. -/
  Enabled : (ι → σ) → ι → ε → Prop
  /-- The state of the node after the event. -/
  handle : ι → σ → ε → σ

namespace Nodes

variable {ι : Type u} {σ : Type v} {ε : Type w} [DecidableEq ι]

/-- The transition system of a network. -/
def system (N : Nodes ι σ ε) [∀ s i e, Decidable (N.Enabled s i e)] :
    System (ι → σ) (ι × ε) where
  init := N.start
  step := fun s l =>
    if N.Enabled s l.1 l.2 then some (Function.update s l.1 (N.handle l.1 (s l.1) l.2))
    else none

variable {N : Nodes ι σ ε} [∀ s i e, Decidable (N.Enabled s i e)]
variable {ok : (ι → σ) → ι × ε → Prop} {s s' : ι → σ}

/-- What one step does. -/
theorem step_spec
    {l : ι × ε}
    (h : N.system.step s l = some s') :
    N.Enabled s l.1 l.2 ∧ s' = Function.update s l.1 (N.handle l.1 (s l.1) l.2) := by
  simp only [system] at h
  split at h
  case isTrue henabled => exact ⟨henabled, (Option.some.inj h).symm⟩
  case isFalse => cases h

theorem step_of_enabled
    {i : ι} {e : ε}
    (h : N.Enabled s i e) :
    N.system.step s (i, e) = some (Function.update s i (N.handle i (s i) e)) :=
  if_pos h

/-- Every node has made progress, or none. -/
def Extends (Le : σ → σ → Prop) (s s' : ι → σ) : Prop := ∀ i, Le (s i) (s' i)

/-- A step is progress when handling the event is. -/
theorem extends_update
    {Le : σ → σ → Prop} {i : ι} {x : σ}
    (hrefl : ∀ x, Le x x)
    (hx : Le (s i) x) :
    Extends Le s (Function.update s i x) := by
  intro j
  by_cases hj : j = i
  · subst hj
    rw [Function.update_self]
    exact hx
  · rw [Function.update_of_ne hj]
    exact hrefl _

/-- The invariant rule for nodes.  Handling an event is progress and keeps the
property of the node; the property survives the progress of all nodes. -/
theorem reachable_invariant
    {R : σ → σ → Prop} {I : (ι → σ) → ι → Prop}
    (hrefl : ∀ x, R x x)
    (hinit : ∀ i, I N.start i)
    (hstep : ∀ s i e, N.system.Reachable ok s → (∀ j, I s j) → ok s (i, e) → N.Enabled s i e →
      R (s i) (N.handle i (s i) e) ∧
        (Extends R s (Function.update s i (N.handle i (s i) e)) →
          I (Function.update s i (N.handle i (s i) e)) i))
    (hmono : ∀ s s' i, Extends R s s' → s' i = s i → I s i → I s' i)
    (h : N.system.Reachable ok s) :
    ∀ i, I s i := by
  refine System.Reachable.invariant (I := fun s => ∀ i, I s i) hinit ?_ h
  intro s l s' hreach hs hok hstep'
  obtain ⟨henabled, rfl⟩ := step_spec hstep'
  obtain ⟨hle, hkeep⟩ := hstep s l.1 l.2 hreach hs hok henabled
  have hext := extends_update (s := s) hrefl hle
  intro i
  by_cases hi : i = l.1
  · subst hi
    exact hkeep hext
  · exact hmono s _ i hext (Function.update_of_ne hi _ _) (hs i)

end Nodes

end Foundations
end DistributedConsensus
