import Mathlib.Data.List.Nodup
import Mathlib.Data.List.Perm.Subperm

/-!
# Walks along pointers

A record of a store points to the next key.  A walk follows the pointers from a
key to the first key at which it may stop, and remembers the keys it has met: it
gives up at a key without a record and at a key met before.

The memory makes every walk end, and it never gives up a path that exists:
`walk_eq_some_iff`.
-/

namespace DistributedConsensus
namespace Foundations
namespace PointerWalk

universe u v w

variable {K : Type u} {V : Type v}

section Definitions

variable (look : K → Option V) (next : V → K) (stop : K → Bool)

/-- The records on the way from a key to the key where the walk stops. -/
inductive Path : K → List V → K → Prop
  | done {k : K} : stop k = true → Path k [] k
  | step {k last : K} {x : V} {xs : List V} :
      stop k = false → look k = some x → Path (next x) xs last → Path k (x :: xs) last

/-- The walk, with the keys met before. -/
def walk [DecidableEq K] : ℕ → List K → K → Option (List V × K)
  | 0, _, _ => none
  | fuel + 1, visited, k =>
      if stop k then some ([], k)
      else if k ∈ visited then none
      else
        match look k with
        | none => none
        | some x =>
            match walk fuel (k :: visited) (next x) with
            | none => none
            | some (xs, last) => some (x :: xs, last)

end Definitions

variable {look : K → Option V} {next : V → K} {stop : K → Bool}

/-- A walk ends where it may stop. -/
theorem Path.stop_last
    {k last : K} {xs : List V}
    (h : Path look next stop k xs last) :
    stop last = true := by
  induction h with
  | done hstop => exact hstop
  | step _ _ _ ih => exact ih

/-- There is one path from a key. -/
theorem Path.unique
    {k last last' : K} {xs ys : List V}
    (h : Path look next stop k xs last)
    (h' : Path look next stop k ys last') :
    xs = ys ∧ last = last' := by
  induction h generalizing ys with
  | done hstop =>
      cases h' with
      | done _ => exact ⟨rfl, rfl⟩
      | step hgo _ _ =>
          rw [hstop] at hgo
          cases hgo
  | step hgo hlook _ ih =>
      cases h' with
      | done hstop =>
          rw [hstop] at hgo
          cases hgo
      | step _ hlook' hrest =>
          rw [hlook] at hlook'
          cases hlook'
          obtain ⟨rfl, rfl⟩ := ih hrest
          exact ⟨rfl, rfl⟩

/-- A path stays when records are added. -/
theorem Path.mono
    {look' : K → Option V} {k last : K} {xs : List V}
    (h : Path look next stop k xs last)
    (hrecord : ∀ k x, look k = some x → look' k = some x) :
    Path look' next stop k xs last := by
  induction h with
  | done hstop => exact Path.done hstop
  | step hgo hlook _ ih => exact Path.step hgo (hrecord _ _ hlook) ih

/-- A path through the records in another form. -/
theorem Path.of_map
    {W : Type w} {next' : W → K} {f : V → W} {k last : K} {ys : List W}
    (h : Path (fun k => (look k).map f) next' stop k ys last)
    (hnext : ∀ x, next' (f x) = next x) :
    ∃ xs, ys = xs.map f ∧ Path look next stop k xs last := by
  induction h with
  | done hstop => exact ⟨[], rfl, Path.done hstop⟩
  | step hgo hlook _ ih =>
      obtain ⟨x, hx, rfl⟩ := Option.map_eq_some_iff.mp hlook
      obtain ⟨xs, rfl, hpath⟩ := ih
      rw [hnext] at hpath
      exact ⟨x :: xs, rfl, Path.step hgo hx hpath⟩

/-- No key is met twice: the keys on a path have shorter and shorter paths. -/
theorem Path.exists_keys
    {k last : K} {xs : List V}
    (h : Path look next stop k xs last) :
    ∃ ks : List K, ks.length = xs.length ∧ ks.Nodup ∧
      ∀ k' ∈ ks, (∃ x, look k' = some x) ∧
        ∃ ys last', Path look next stop k' ys last' ∧ ys.length ≤ xs.length := by
  induction h with
  | done _ => exact ⟨[], rfl, List.nodup_nil, by simp⟩
  | @step k last x xs hgo hlook hrest ih =>
      obtain ⟨ks, hlen, hnodup, hks⟩ := ih
      refine ⟨k :: ks, by simp [hlen], List.nodup_cons.mpr ⟨?_, hnodup⟩, ?_⟩
      · intro hmem
        obtain ⟨-, ys, last', hys, hle⟩ := hks k hmem
        obtain ⟨rfl, -⟩ := hys.unique (Path.step hgo hlook hrest)
        simp only [List.length_cons] at hle
        omega
      · intro k' hk'
        rcases List.mem_cons.mp hk' with rfl | hmem
        · exact ⟨⟨x, hlook⟩, x :: xs, last, Path.step hgo hlook hrest, Nat.le_refl _⟩
        · obtain ⟨hfound, ys, last', hys, hle⟩ := hks k' hmem
          exact ⟨hfound, ys, last', hys, by simp; omega⟩

/-- A path has no more records than the store has keys. -/
theorem Path.length_le
    {k last : K} {xs : List V} {keys : List K}
    (hkeys : ∀ k x, look k = some x → k ∈ keys)
    (h : Path look next stop k xs last) :
    xs.length ≤ keys.length := by
  obtain ⟨ks, hlen, hnodup, hks⟩ := h.exists_keys
  rw [← hlen]
  refine (List.subperm_of_subset hnodup fun k' hk' => ?_).length_le
  obtain ⟨⟨x, hx⟩, -⟩ := hks k' hk'
  exact hkeys k' x hx

variable [DecidableEq K]

/-- A walk that succeeds has followed a path. -/
theorem path_of_walk
    {fuel : ℕ} {visited : List K} {k last : K} {xs : List V}
    (h : walk look next stop fuel visited k = some (xs, last)) :
    Path look next stop k xs last := by
  induction fuel generalizing visited k xs with
  | zero => cases h
  | succ fuel ih =>
      simp only [walk] at h
      split at h
      case isTrue hstop =>
        cases h
        exact Path.done hstop
      case isFalse hgo =>
        rw [Bool.not_eq_true] at hgo
        split at h
        case isTrue => cases h
        case isFalse =>
          split at h
          case h_1 => cases h
          case h_2 x hlook =>
            split at h
            case h_1 => cases h
            case h_2 xs' last' hrest =>
              cases h
              exact Path.step hgo hlook (ih hrest)

/-- The keys met before do not stop a walk that comes closer to its end. -/
theorem walk_of_path
    {fuel : ℕ} {visited : List K} {k last : K} {xs : List V}
    (h : Path look next stop k xs last)
    (hfuel : xs.length < fuel)
    (hvisited : ∀ k' ∈ visited, ∀ ys last', Path look next stop k' ys last' →
      xs.length < ys.length) :
    walk look next stop fuel visited k = some (xs, last) := by
  induction h generalizing fuel visited with
  | done hstop =>
      cases fuel with
      | zero => cases hfuel
      | succ fuel => rw [walk, if_pos hstop]
  | @step k last x xs hgo hlook hrest ih =>
      have hpath := Path.step hgo hlook hrest
      cases fuel with
      | zero => cases hfuel
      | succ fuel =>
          have hfresh : k ∉ visited := by
            intro hmem
            exact absurd (hvisited k hmem _ _ hpath) (Nat.lt_irrefl _)
          have hnext : walk look next stop fuel (k :: visited) (next x) = some (xs, last) := by
            refine ih (by simpa using hfuel) ?_
            intro k' hk' ys last' hys
            rcases List.mem_cons.mp hk' with rfl | hmem
            · obtain ⟨rfl, -⟩ := hys.unique hpath
              simp
            · have hlt := hvisited k' hmem ys last' hys
              simp only [List.length_cons] at hlt
              omega
          simp only [walk, hgo, if_neg hfresh, hlook, hnext, Bool.false_eq_true, if_false]

/-- **A walk finds exactly the paths** when it may take more steps than the
store has keys. -/
theorem walk_eq_some_iff
    {fuel : ℕ} {k last : K} {xs : List V} {keys : List K}
    (hkeys : ∀ k x, look k = some x → k ∈ keys)
    (hfuel : keys.length < fuel) :
    walk look next stop fuel [] k = some (xs, last) ↔ Path look next stop k xs last := by
  constructor
  · exact path_of_walk
  · intro h
    have hle := h.length_le hkeys
    exact walk_of_path h (by omega) (by simp)

end PointerWalk
end Foundations
end DistributedConsensus
