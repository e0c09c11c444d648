import Mathlib.Data.List.Nodup

/-!
# Insertion-ordered dictionaries

A dictionary is an association list without repeated keys.  Storing under a key
that is already present replaces the value in place; storing under a new key
appends the pair.  Iteration follows the order of first insertion.
-/

namespace DistributedConsensus
namespace Foundations

universe u v w

/-- A dictionary: pairs in insertion order, each key once. -/
structure Dict (K : Type u) (V : Type v) where
  /-- The stored pairs. -/
  entries : List (K × V)
  /-- No key is stored twice. -/
  nodup : (entries.map Prod.fst).Nodup

namespace Dict

variable {K : Type u} {V : Type v}

/-- The dictionary without entries. -/
def empty : Dict K V := ⟨[], List.nodup_nil⟩

variable [DecidableEq K]

/-- Replace the value of a key in place, or append a new pair. -/
def setEntries (k : K) (v : V) : List (K × V) → List (K × V)
  | [] => [(k, v)]
  | (k', v') :: rest =>
      if k' = k then (k, v) :: rest else (k', v') :: setEntries k v rest

theorem mem_setEntries_fst
    {k : K} {v : V} {l : List (K × V)} {x : K} :
    x ∈ (setEntries k v l).map Prod.fst ↔ x = k ∨ x ∈ l.map Prod.fst := by
  induction l with
  | nil =>
      simp [setEntries]
  | cons p rest ih =>
      obtain ⟨k', v'⟩ := p
      by_cases hk : k' = k
      · subst hk
        simp [setEntries]
      · simp only [setEntries, if_neg hk, List.map_cons, List.mem_cons, ih]
        tauto

theorem nodup_setEntries
    {k : K} {v : V} {l : List (K × V)}
    (h : (l.map Prod.fst).Nodup) :
    ((setEntries k v l).map Prod.fst).Nodup := by
  induction l with
  | nil =>
      simp [setEntries]
  | cons p rest ih =>
      obtain ⟨k', v'⟩ := p
      simp only [List.map_cons, List.nodup_cons] at h
      by_cases hk : k' = k
      · subst hk
        simpa [setEntries] using h
      · simp only [setEntries, if_neg hk, List.map_cons, List.nodup_cons]
        refine ⟨?_, ih h.2⟩
        rw [mem_setEntries_fst]
        rintro (heq | hmem)
        · exact hk heq
        · exact h.1 hmem

/-- Store a value under a key. -/
def set (d : Dict K V) (k : K) (v : V) : Dict K V :=
  ⟨setEntries k v d.entries, nodup_setEntries d.nodup⟩

/-- The value stored under a key. -/
def get? (d : Dict K V) (k : K) : Option V :=
  (d.entries.find? (fun p => p.1 = k)).map Prod.snd

/-- The value stored under a key, or a default. -/
def getD (d : Dict K V) (k : K) (v : V) : V :=
  (d.get? k).getD v

/-- Whether a key is present. -/
def contains (d : Dict K V) (k : K) : Bool :=
  (d.get? k).isSome

/-- The number of keys. -/
def size (d : Dict K V) : ℕ := d.entries.length

/-- The keys in insertion order. -/
def keys (d : Dict K V) : List K := d.entries.map Prod.fst

/-- The stored values in insertion order. -/
def values (d : Dict K V) : List V := d.entries.map Prod.snd

omit [DecidableEq K] in
/-- A dictionary has as many values as keys. -/
theorem length_values (d : Dict K V) : d.values.length = d.size := by
  simp [values, size]

omit [DecidableEq K] in
@[simp] theorem values_empty : (empty : Dict K V).values = [] := rfl

/-- Looking up after storing. -/
theorem get?_set (d : Dict K V) (k k' : K) (v : V) :
    (d.set k v).get? k' = if k' = k then some v else d.get? k' := by
  have key : ∀ l : List (K × V),
      ((setEntries k v l).find? (fun p => p.1 = k')).map Prod.snd =
        if k' = k then some v else (l.find? (fun p => p.1 = k')).map Prod.snd := by
    intro l
    induction l with
    | nil =>
        by_cases hk : k' = k
        · simp [setEntries, hk]
        · simp [setEntries, hk, Ne.symm hk]
    | cons q rest ih =>
        obtain ⟨k₁, v₁⟩ := q
        by_cases hk₁ : k₁ = k
        · subst hk₁
          by_cases hk : k' = k₁
          · simp [setEntries, hk]
          · simp [setEntries, hk, Ne.symm hk]
        · rw [setEntries, if_neg hk₁]
          by_cases hk' : k₁ = k'
          · subst hk'
            simp [hk₁]
          · simpa [List.find?_cons, hk'] using ih
  exact key d.entries

/-- Looking up with a default after storing. -/
theorem getD_set (d : Dict K V) (k k' : K) (v x : V) :
    (d.set k v).getD k' x = if k' = k then v else d.getD k' x := by
  unfold getD
  rw [get?_set]
  split <;> rfl

@[simp] theorem getD_empty (k : K) (x : V) : (empty : Dict K V).getD k x = x := rfl

/-- A pair present after storing is the new one or was present before. -/
theorem mem_entries_set
    {d : Dict K V} {k : K} {v : V} {p : K × V}
    (h : p ∈ (d.set k v).entries) :
    p = (k, v) ∨ p ∈ d.entries := by
  have key : ∀ l : List (K × V), p ∈ setEntries k v l → p = (k, v) ∨ p ∈ l := by
    intro l
    induction l with
    | nil =>
        intro hp
        left
        simpa [setEntries] using hp
    | cons q rest ih =>
        obtain ⟨k', v'⟩ := q
        intro hp
        by_cases hk : k' = k
        · subst hk
          simp only [setEntries, if_true, List.mem_cons] at hp ⊢
          tauto
        · simp only [setEntries, if_neg hk, List.mem_cons] at hp ⊢
          tauto
  exact key d.entries h

/-- A value present after storing is the new one or was present before. -/
theorem mem_values_set
    {d : Dict K V} {k : K} {v x : V}
    (h : x ∈ (d.set k v).values) :
    x = v ∨ x ∈ d.values := by
  obtain ⟨p, hp, rfl⟩ := List.mem_map.mp h
  rcases mem_entries_set hp with rfl | hold
  · exact Or.inl rfl
  · exact Or.inr (List.mem_map_of_mem hold)

/-- A key and its looked-up value are stored as a pair. -/
theorem mem_entries_of_get?
    {d : Dict K V} {k : K} {v : V}
    (h : d.get? k = some v) :
    (k, v) ∈ d.entries := by
  unfold get? at h
  rw [Option.map_eq_some_iff] at h
  obtain ⟨p, hp, rfl⟩ := h
  have hkey : p.1 = k := by
    simpa using List.find?_some hp
  rw [← hkey]
  exact List.mem_of_find?_eq_some hp

/-- A stored pair is found under its key. -/
theorem get?_of_mem_entries
    {d : Dict K V} {k : K} {v : V}
    (h : (k, v) ∈ d.entries) :
    d.get? k = some v := by
  have key : ∀ l : List (K × V), (l.map Prod.fst).Nodup → (k, v) ∈ l →
      (l.find? (fun p => p.1 = k)).map Prod.snd = some v := by
    intro l
    induction l with
    | nil =>
        intro _ hmem
        cases hmem
    | cons p rest ih =>
        intro hnodup hmem
        rw [List.map_cons, List.nodup_cons] at hnodup
        rcases List.mem_cons.mp hmem with rfl | hrest
        · simp
        · have hne : p.1 ≠ k := by
            rintro rfl
            exact hnodup.1 (List.mem_map.mpr ⟨_, hrest, rfl⟩)
          simpa [hne] using ih hnodup.2 hrest
  exact key d.entries d.nodup h

theorem get?_eq_none_iff (d : Dict K V) (k : K) : d.get? k = none ↔ k ∉ d.keys := by
  unfold get? keys
  rw [Option.map_eq_none_iff, List.find?_eq_none, List.mem_map]
  constructor
  · rintro hnone ⟨p, hp, rfl⟩
    exact hnone p hp (by simp)
  · intro hnot p hp heq
    exact hnot ⟨p, hp, by simpa using heq⟩

/-- A new pair comes last. -/
theorem entries_set_of_get?_eq_none
    {d : Dict K V} {k : K}
    (h : d.get? k = none) (v : V) :
    (d.set k v).entries = d.entries ++ [(k, v)] := by
  rw [get?_eq_none_iff] at h
  unfold keys at h
  have key : ∀ l : List (K × V), k ∉ l.map Prod.fst → setEntries k v l = l ++ [(k, v)] := by
    intro l
    induction l with
    | nil =>
        intro _
        rfl
    | cons p rest ih =>
        intro hnot
        rw [List.map_cons, List.mem_cons, not_or] at hnot
        rw [setEntries, if_neg (Ne.symm hnot.1), ih hnot.2]
        rfl
  exact key d.entries h

/-- A new key comes last. -/
theorem keys_set_of_get?_eq_none
    {d : Dict K V} {k : K}
    (h : d.get? k = none) (v : V) :
    (d.set k v).keys = d.keys ++ [k] := by
  unfold keys
  rw [entries_set_of_get?_eq_none h, List.map_append]
  rfl

/-- A looked-up value is one of the stored values. -/
theorem mem_values_of_get?
    {d : Dict K V} {k : K} {v : V}
    (h : d.get? k = some v) :
    v ∈ d.values :=
  List.mem_map_of_mem (mem_entries_of_get? h)

/-- A looked-up value or default is a stored value or the default. -/
theorem getD_mem_values_or
    (d : Dict K V) (k : K) (v : V) :
    d.getD k v ∈ d.values ∨ d.getD k v = v := by
  unfold getD
  cases hget : d.get? k with
  | none => right; rfl
  | some x => left; exact mem_values_of_get? hget

/-- Storing what is stored changes nothing. -/
theorem set_of_get?_eq_some
    {d : Dict K V} {k : K} {v : V}
    (h : d.get? k = some v) :
    d.set k v = d := by
  have hentries : ∀ l : List (K × V),
      (l.find? (fun p => p.1 = k)).map Prod.snd = some v → setEntries k v l = l := by
    intro l
    induction l with
    | nil =>
        intro hnil
        simp at hnil
    | cons p rest ih =>
        obtain ⟨k', v'⟩ := p
        intro hfind
        by_cases hk : k' = k
        · subst hk
          simp only [List.find?_cons, decide_true, Option.map_some, Option.some.injEq] at hfind
          simp [setEntries, hfind]
        · simp only [List.find?_cons, decide_eq_false hk] at hfind
          simp only [setEntries, if_neg hk, ih hfind]
  obtain ⟨entries, hnodup⟩ := d
  simp only [set, Dict.mk.injEq]
  exact hentries entries h

section MapValues

variable {W : Type w}

omit [DecidableEq K] in
/-- Change every stored value. -/
def mapValues (d : Dict K V) (f : V → W) : Dict K W where
  entries := d.entries.map (fun p => (p.1, f p.2))
  nodup := by simpa [List.map_map, Function.comp_def] using d.nodup

omit [DecidableEq K] in
@[simp] theorem keys_mapValues (d : Dict K V) (f : V → W) : (d.mapValues f).keys = d.keys := by
  simp [keys, mapValues]

@[simp] theorem get?_mapValues (d : Dict K V) (f : V → W) (k : K) :
    (d.mapValues f).get? k = (d.get? k).map f := by
  simp [get?, mapValues, List.find?_map, Function.comp_def, Option.map_map]

@[simp] theorem contains_mapValues (d : Dict K V) (f : V → W) (k : K) :
    (d.mapValues f).contains k = d.contains k := by
  simp [contains]

/-- A stored value is changed with the others. -/
theorem mapValues_set (d : Dict K V) (f : V → W) (k : K) (v : V) :
    (d.set k v).mapValues f = (d.mapValues f).set k (f v) := by
  have hentries : ∀ l : List (K × V),
      (setEntries k v l).map (fun p => (p.1, f p.2)) =
        setEntries k (f v) (l.map (fun p => (p.1, f p.2))) := by
    intro l
    induction l with
    | nil => rfl
    | cons p rest ih =>
        obtain ⟨k', v'⟩ := p
        by_cases hk : k' = k
        · simp [setEntries, hk]
        · simp [setEntries, hk, ih]
  simp only [set, mapValues, Dict.mk.injEq]
  exact hentries d.entries

end MapValues

end Dict

end Foundations
end DistributedConsensus
