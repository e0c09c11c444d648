import DistributedConsensus.HotStuff.Branches
import DistributedConsensus.HotStuff.Forest

/-!
# HotStuff: walks over stored branches

The branch of a node is the list of hashes from the genesis block up to it.  Two
branches begin alike and have nothing in common after they part (`exists_fork`).  A walk
that misses nothing collects the part of the branch at which it does not stop
(`hashes_branch`), and a walk over a stored branch misses nothing.
-/

namespace DistributedConsensus
namespace HotStuff

variable {Cmd : Type} [Application Cmd]

/-! ## Branches as lists of hashes -/

namespace Digest

theorem nodup_path (d : Digest) : d.path.Nodup := by
  induction d with
  | absent => exact List.nodup_nil
  | text s => exact List.nodup_nil
  | node p c v ih =>
      by_cases hg : (.node p c v : Digest) = genesisHash
      · rw [hg, path_genesisHash]
        exact List.nodup_nil
      · have hnew : (.node p c v : Digest) ∉ p.path := by
          intro hmem
          have hself : (.node p c v : Digest).Extends p :=
            extends_node_iff.mpr (Or.inr (Extends.refl p))
          exact node_ne_self p c v (hself.antisymm (extends_of_mem_path hmem))
        rw [path_node hg, ← List.concat_eq_append]
        exact ih.concat hnew

theorem genesisHash_notMem_path (d : Digest) : genesisHash ∉ d.path := by
  induction d with
  | absent => exact List.not_mem_nil
  | text s => exact List.not_mem_nil
  | node p c v ih =>
      by_cases hg : (.node p c v : Digest) = genesisHash
      · rw [hg, path_genesisHash]
        exact List.not_mem_nil
      · rw [path_node hg, List.mem_append, List.mem_singleton]
        rintro (hmem | heq)
        · exact ih hmem
        · exact hg heq.symm

/-- The branch of a hash of a branch is its beginning. -/
theorem path_prefix_of_mem_path
    {a d : Digest}
    (h : a ∈ d.path) :
    a.path <+: d.path :=
  path_prefix_of_extends (extends_of_mem_path h)

theorem Rooted.of_mem_path
    {a d : Digest}
    (hd : d.Rooted)
    (h : a ∈ d.path) :
    a.Rooted := by
  induction d with
  | absent => cases h
  | text s => cases h
  | node p c v ih =>
      by_cases hg : (.node p c v : Digest) = genesisHash
      · rw [hg, path_genesisHash] at h
        cases h
      · rw [path_node hg, List.mem_append, List.mem_singleton] at h
        rcases h with h | rfl
        · exact ih (hd.parent hg) h
        · exact hd

/-- **Where two branches part.**  Two branches begin alike, and have nothing in common
afterwards. -/
theorem exists_fork
    (d d' : Digest) :
    ∃ common rest rest', d.path = common ++ rest ∧ d'.path = common ++ rest' ∧
      (∀ b ∈ rest, b ∉ d'.path) ∧ ∀ b ∈ rest', b ∉ d.path := by
  induction d with
  | absent => exact ⟨[], [], d'.path, rfl, rfl, by simp, by simp [path]⟩
  | text s => exact ⟨[], [], d'.path, rfl, rfl, by simp, by simp [path]⟩
  | node p c v ih =>
      by_cases hg : (.node p c v : Digest) = genesisHash
      · rw [hg, path_genesisHash]
        exact ⟨[], [], d'.path, rfl, rfl, by simp, by simp⟩
      · by_cases hmem : (.node p c v : Digest) ∈ d'.path
        · -- the first branch is the beginning of the second
          obtain ⟨rest', hrest'⟩ := path_prefix_of_mem_path hmem
          have hnodup := d'.nodup_path
          rw [← hrest'] at hnodup
          refine ⟨path (.node p c v), [], rest', by simp, hrest'.symm, by simp, ?_⟩
          intro b hb hpath
          exact (List.disjoint_of_nodup_append hnodup) hpath hb
        · obtain ⟨common, rest, rest', hp, hd', hrest, hrest'⟩ := ih
          refine ⟨common, rest ++ [.node p c v], rest', ?_, hd', ?_, ?_⟩
          · rw [path_node hg, hp, List.append_assoc]
          · intro b hb
            rcases List.mem_append.mp hb with hb | hb
            · exact hrest b hb
            · rw [List.mem_singleton] at hb
              rw [hb]
              exact hmem
          · intro b hb
            rw [path_node hg, List.mem_append, List.mem_singleton]
            rintro (hpath | rfl)
            · exact hrest' b hb hpath
            · refine hmem ?_
              rw [hd']
              exact List.mem_append_right _ hb

/-- What is collected on one branch is what it takes from the other one. -/
theorem filter_path_append
    {keep keep' : Digest → Bool} {d d' : Digest}
    (hkeep' : ∀ b, keep' b = true ↔ keep b = true ∧ b ∉ d'.path.filter keep) :
    (d'.path.filter keep).filter (· ∈ d.path) ++ d.path.filter keep' = d.path.filter keep := by
  obtain ⟨common, rest, rest', hd, hd', hrest, hrest'⟩ := exists_fork d d'
  have hcommon : common.filter keep' = [] := by
    refine List.filter_eq_nil_iff.mpr fun b hb hk => ?_
    obtain ⟨hkeep, hnot⟩ := (hkeep' b).mp hk
    refine hnot (List.mem_filter.mpr ⟨?_, hkeep⟩)
    rw [hd']
    exact List.mem_append_left _ hb
  have hrestKeep : rest.filter keep' = rest.filter keep := by
    refine List.filter_congr fun b hb => ?_
    rw [Bool.eq_iff_iff, hkeep']
    refine and_iff_left fun hmem => ?_
    exact hrest b hb (List.mem_of_mem_filter hmem)
  have hleft : (common.filter keep).filter (· ∈ d.path) = common.filter keep := by
    refine List.filter_eq_self.mpr fun b hb => ?_
    rw [decide_eq_true_eq, hd]
    exact List.mem_append_left _ (List.mem_of_mem_filter hb)
  have hright : (rest'.filter keep).filter (· ∈ d.path) = [] := by
    refine List.filter_eq_nil_iff.mpr fun b hb hmem => ?_
    exact hrest' b (List.mem_of_mem_filter hb) (of_decide_eq_true hmem)
  calc (d'.path.filter keep).filter (· ∈ d.path) ++ d.path.filter keep'
      = common.filter keep ++ rest.filter keep := by
        rw [hd', List.filter_append, List.filter_append, hleft, hright, List.append_nil]
        nth_rewrite 1 [hd]
        rw [List.filter_append, hcommon, hrestKeep, List.nil_append]
    _ = d.path.filter keep := by rw [hd, List.filter_append]

end Digest

/-! ## Walks over a stored branch -/

/-- The walk stops at the genesis block, and where it stops nothing is left below. -/
structure Settles (keep : Digest → Bool) : Prop where
  genesis : keep genesisHash = false
  path : ∀ a, a.Rooted → keep a = false → ∀ b ∈ a.path, keep b = false

namespace Tree

variable {t : Tree Cmd} {keep : Digest → Bool} {d : Digest}

/-- What a complete walk collects, oldest first. -/
theorem hashes_branch
    (hkeep : Settles keep)
    (hroot : d.Rooted)
    (hhas : t.has d = true)
    (hmiss : t.firstMissing keep d = none) :
    (t.branch keep d).reverse.map Node.hash = d.path.filter keep := by
  induction d with
  | absent => cases hroot.truthy
  | text s => cases exists_node_of_has hhas with | intro _ h => simp at h
  | node p c v ih =>
      cases hk : keep (.node p c v) with
      | false =>
          rw [branch_eq_nil hk]
          refine (List.filter_eq_nil_iff.mpr fun b hb => ?_).symm
          rw [hkeep.path _ hroot hk b hb]
          simp
      | true =>
          have hg : (.node p c v : Digest) ≠ genesisHash := by
            intro hg
            rw [hg, hkeep.genesis] at hk
            cases hk
          have hp := hroot.parent hg
          obtain ⟨hhasp, hmissp⟩ := has_parent_of_firstMissing hk hp.truthy hmiss
          obtain ⟨b, hb⟩ := Option.isSome_iff_exists.mp hhas
          have hbranch : t.branch keep (.node p c v) = b :: t.branch keep p := by
            simp [branch, hb, hk]
          rw [hbranch, List.reverse_cons, List.map_append, ih hp hhasp hmissp,
            Digest.path_node hg, List.filter_append, List.map_singleton, hash_of_get hb]
          simp [hk]

theorem has_genesisHash (t : Tree Cmd) : t.has genesisHash = true :=
  has_iff_mem.mpr t.genesis_mem

/-- The end of a stored branch is stored. -/
theorem has_of_path
    (hroot : d.Rooted)
    (hpath : ∀ b ∈ d.path, t.has b = true) :
    t.has d = true := by
  rcases Digest.mem_path_of_extends (Digest.Extends.refl d) hroot with rfl | hmem
  · exact t.has_genesisHash
  · exact hpath d hmem

/-- Nothing is missing on a stored branch. -/
theorem firstMissing_eq_none
    (hroot : d.Rooted)
    (hgenesis : keep genesisHash = false)
    (hpath : ∀ b ∈ d.path, t.has b = true) :
    t.firstMissing keep d = none := by
  induction d with
  | absent => rfl
  | text s => rfl
  | node p c v ih =>
      cases hk : keep (.node p c v) with
      | false => simp [firstMissing, hk]
      | true =>
          have hg : (.node p c v : Digest) ≠ genesisHash := by
            intro hg
            rw [hg, hgenesis] at hk
            cases hk
          rw [Digest.path_node hg] at hpath
          have hp := hroot.parent hg
          have hrest : ∀ b ∈ p.path, t.has b = true :=
            fun b hb => hpath b (List.mem_append_left _ hb)
          have hhasp : t.has p = true := has_of_path hp hrest
          simpa [firstMissing, hk, hhasp] using ih hp hrest

/-- A hash is missing on the way up, and the nodes above it are stored. -/
structure MissingBelow (t : Tree Cmd) (d h : Digest) : Prop where
  rooted : h.Rooted
  ancestor : d.Extends h
  missing : t.has h = false
  above : ∀ b ∈ d.path, b ∈ h.path ∨ t.has b = true

theorem missingBelow_of_firstMissing
    {h : Digest}
    (hroot : d.Rooted)
    (hgenesis : keep genesisHash = false)
    (hhas : t.has d = true)
    (hmiss : t.firstMissing keep d = some h) :
    MissingBelow t d h := by
  induction d with
  | absent => cases hmiss
  | text s => cases hmiss
  | node p c v ih =>
      cases hk : keep (.node p c v) with
      | false => simp [firstMissing, hk] at hmiss
      | true =>
          have hg : (.node p c v : Digest) ≠ genesisHash := by
            intro hg
            rw [hg, hgenesis] at hk
            cases hk
          have hp := hroot.parent hg
          have hself : ∀ b ∈ (.node p c v : Digest).path, b ∈ p.path ∨ t.has b = true := by
            intro b hb
            rw [Digest.path_node hg, List.mem_append, List.mem_singleton] at hb
            rcases hb with hb | rfl
            · exact Or.inl hb
            · exact Or.inr hhas
          cases hhasp : t.has p with
          | false =>
              have hfound : p = h := by
                simpa [firstMissing, hk, hhasp, hp.truthy] using hmiss
              rw [← hfound]
              exact ⟨hp, Digest.extends_node_iff.mpr (Or.inr (Digest.Extends.refl p)),
                hhasp, hself⟩
          | true =>
              have hrest : t.firstMissing keep p = some h := by
                simpa [firstMissing, hk, hhasp] using hmiss
              have hbelow := ih hp hhasp hrest
              refine ⟨hbelow.rooted, Digest.extends_node_iff.mpr (Or.inr hbelow.ancestor),
                hbelow.missing, fun b hb => ?_⟩
              rcases hself b hb with hb | hb
              · exact hbelow.above b hb
              · exact Or.inr hb

/-- Nothing is missing below the end of a stored branch. -/
theorem MissingBelow.exists_missing
    {h : Digest}
    (hmiss : MissingBelow t d h) :
    ∃ b ∈ d.path, t.has b = false := by
  rcases Digest.mem_path_of_extends hmiss.ancestor hmiss.rooted with hg | hmem
  · have hhas := t.has_genesisHash
    rw [← hg, hmiss.missing] at hhas
    cases hhas
  · exact ⟨h, hmem, hmiss.missing⟩

end Tree

end HotStuff
end DistributedConsensus
