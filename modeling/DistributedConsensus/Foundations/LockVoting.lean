import DistributedConsensus.Foundations.Quorum
import Mathlib.Order.Defs.Unbundled

/-!
# Lock-based voting

An abstract account of why locking makes certified blocks agree.  Correct
participants cast *prepare* votes and *commit* votes for blocks, each in a
view.  A history lists the votes of the correct participants, newest first;
nothing is recorded for the faulty ones, which may support any block.

A block is prepared (committed) in a view when a quorum supports it with
prepare (commit) votes.  A history is legal when every vote was admissible at
the moment it was cast:

* a prepare vote is the only one of its voter in its view, and it extends a
  block that was prepared at or above every view its voter had committed in;
* a commit vote supports a prepared block, and every prepare vote that its
  voter had already cast in a later view extends that block.

Then a block that is prepared at or above the view of a committed block
extends it, and any two committed blocks lie on one branch.
-/

namespace DistributedConsensus
namespace Foundations
namespace LockVoting

universe u v

/-- A vote of a correct participant. -/
inductive Vote (ι : Type u) (B : Type v) where
  | prepare (voter : ι) (view : ℤ) (block : B)
  | commit (voter : ι) (view : ℤ) (block : B)

/-- Fault assumption and threshold of a voting group. -/
structure Group (ι : Type u) [Fintype ι] where
  /-- The faulty participants. -/
  faulty : Finset ι
  /-- The number of supporters a certificate needs. -/
  quorum : ℕ
  /-- Two quorums share a correct participant. -/
  quorum_large : Fintype.card ι + faulty.card < 2 * quorum

section

variable {ι : Type u} [Fintype ι] {B : Type v}

/-- A quorum contains a correct participant. -/
theorem Group.exists_correct
    [DecidableEq ι] (G : Group ι) {Q : Finset ι}
    (hQ : G.quorum ≤ Q.card) :
    ∃ i ∈ Q, i ∉ G.faulty := by
  have hle : Q.card ≤ Fintype.card ι := Finset.card_le_univ Q
  have hlarge := G.quorum_large
  exact exists_correct_of_card_lt (by omega)

/-- Two quorums share a correct participant. -/
theorem Group.exists_correct_inter
    [DecidableEq ι] (G : Group ι) {Q R : Finset ι}
    (hQ : G.quorum ≤ Q.card)
    (hR : G.quorum ≤ R.card) :
    ∃ i ∈ Q, i ∈ R ∧ i ∉ G.faulty := by
  have hlarge := G.quorum_large
  exact Foundations.exists_correct_inter (by omega)

variable (G : Group ι)

/-- A quorum of prepare votes for a block in a view. -/
def Prepared (H : List (Vote ι B)) (u : ℤ) (g : B) : Prop :=
  ∃ Q : Finset ι, G.quorum ≤ Q.card ∧
    ∀ i ∈ Q, i ∉ G.faulty → Vote.prepare i u g ∈ H

/-- A quorum of commit votes for a block in a view. -/
def Committed (H : List (Vote ι B)) (v : ℤ) (h : B) : Prop :=
  ∃ Q : Finset ι, G.quorum ≤ Q.card ∧
    ∀ i ∈ Q, i ∉ G.faulty → Vote.commit i v h ∈ H

variable (ext : B → B → Prop)

/-- The vote may be cast after the history `H`. -/
def Admissible (H : List (Vote ι B)) : Vote ι B → Prop
  | .prepare r u g =>
      (∀ g', Vote.prepare r u g' ∈ H → g' = g) ∧
      ∀ v h, Vote.commit r v h ∈ H → v < u →
        ∃ w h', v ≤ w ∧ Prepared G H w h' ∧ ext g h'
  | .commit r v h =>
      Prepared G H v h ∧
      ∀ u g, Vote.prepare r u g ∈ H → v < u → ext g h

/-- Every vote of the history was admissible when it was cast. -/
inductive Legal : List (Vote ι B) → Prop
  | nil : Legal []
  | cons {x : Vote ι B} {H : List (Vote ι B)} :
      Admissible G ext H x → Legal H → Legal (x :: H)

variable {G} {ext}

/-- Certificates are never lost. -/
theorem Prepared.mono
    {H H' : List (Vote ι B)} {u : ℤ} {g : B}
    (hsub : H ⊆ H')
    (h : Prepared G H u g) :
    Prepared G H' u g := by
  obtain ⟨Q, hQ, hvotes⟩ := h
  exact ⟨Q, hQ, fun i hi hc => hsub (hvotes i hi hc)⟩

/-- Every suffix of a legal history is legal. -/
theorem Legal.suffix
    {H H' : List (Vote ι B)}
    (hsuf : H' <:+ H)
    (h : Legal G ext H) :
    Legal G ext H' := by
  induction h with
  | nil =>
      rw [List.suffix_nil] at hsuf
      subst hsuf
      exact Legal.nil
  | cons hadm hleg ih =>
      rcases List.suffix_cons_iff.mp hsuf with rfl | hsuf'
      · exact Legal.cons hadm hleg
      · exact ih hsuf'

/-- Split a legal history at one of its votes. -/
theorem Legal.exists_admissible
    {H : List (Vote ι B)} {x : Vote ι B}
    (h : Legal G ext H)
    (hx : x ∈ H) :
    ∃ S T, H = S ++ x :: T ∧ Admissible G ext T x := by
  obtain ⟨S, T, rfl⟩ := List.append_of_mem hx
  have hleg : Legal G ext (x :: T) := h.suffix (List.suffix_append _ _)
  cases hleg with
  | cons hadm _ => exact ⟨S, T, rfl, hadm⟩

/-- A correct participant casts at most one prepare vote in a view. -/
theorem Legal.prepare_unique
    {H : List (Vote ι B)}
    (h : Legal G ext H)
    {r : ι} {u : ℤ} {g g' : B}
    (hg : Vote.prepare r u g ∈ H)
    (hg' : Vote.prepare r u g' ∈ H) :
    g = g' := by
  induction h with
  | nil => cases hg
  | @cons x H hadm _ ih =>
      rcases List.mem_cons.mp hg with heq | hold
      · subst heq
        rcases List.mem_cons.mp hg' with heq' | hold'
        · injection heq' with _ _ heq'
          exact heq'.symm
        · exact (hadm.1 g' hold').symm
      · rcases List.mem_cons.mp hg' with heq' | hold'
        · subst heq'
          exact hadm.1 g hold
        · exact ih hold hold'

variable [DecidableEq ι]

/-- At most one block is prepared in a view. -/
theorem Legal.prepared_unique
    {H : List (Vote ι B)}
    (h : Legal G ext H)
    {u : ℤ} {g g' : B}
    (hg : Prepared G H u g)
    (hg' : Prepared G H u g') :
    g = g' := by
  obtain ⟨Q, hQ, hvotes⟩ := hg
  obtain ⟨Q', hQ', hvotes'⟩ := hg'
  obtain ⟨i, hi, hi', hc⟩ := G.exists_correct_inter hQ hQ'
  exact h.prepare_unique (hvotes i hi hc) (hvotes' i hi' hc)

/-- A committed block is prepared in the same view. -/
theorem Legal.prepared_of_committed
    {H : List (Vote ι B)}
    (h : Legal G ext H)
    {v : ℤ} {b : B}
    (hb : Committed G H v b) :
    Prepared G H v b := by
  obtain ⟨Q, hQ, hvotes⟩ := hb
  obtain ⟨i, hi, hc⟩ := G.exists_correct hQ
  obtain ⟨S, T, rfl, hadm⟩ := h.exists_admissible (hvotes i hi hc)
  exact hadm.1.mono (fun x hx => List.mem_append_right _ (List.mem_cons_of_mem _ hx))

variable [IsPreorder B ext]

/-- **The lock argument.**  A block prepared at or above the view of a
committed block extends it, already at every earlier point of the history. -/
theorem Legal.prepared_extends_committed
    {H : List (Vote ι B)}
    (h : Legal G ext H)
    {v : ℤ} {b : B}
    (hb : Committed G H v b) :
    ∀ (n : ℕ) (T : List (Vote ι B)), T.length = n → T <:+ H →
      ∀ u g, v ≤ u → Prepared G T u g → ext g b := by
  intro n
  induction n using Nat.strong_induction_on with
  | _ n ih =>
      intro T hlen hsuf u g hvu hprep
      have hprepH : Prepared G H u g := hprep.mono hsuf.subset
      rcases eq_or_lt_of_le hvu with rfl | hlt
      · have heq : g = b := h.prepared_unique hprepH (h.prepared_of_committed hb)
        subst heq
        exact refl g
      · -- A correct voter supports both certificates.
        obtain ⟨Q, hQ, hvotes⟩ := hprep
        obtain ⟨R, hR, hcommits⟩ := hb
        obtain ⟨r, hrQ, hrR, hc⟩ := G.exists_correct_inter hQ hR
        have hprepare := hvotes r hrQ hc
        have hcommit := hcommits r hrR hc
        obtain ⟨S, T', rfl, hadm⟩ := (h.suffix hsuf).exists_admissible hprepare
        obtain ⟨P, rfl⟩ := hsuf
        have hcases :
            Vote.commit r v b ∈ P ++ S ∨ Vote.commit r v b ∈ T' := by
          simpa [or_assoc] using hcommit
        rcases hcases with hlater | hearlier
        · -- The commit vote came after the prepare vote.
          obtain ⟨S₁, S₂, hsplit⟩ := List.append_of_mem hlater
          have hsuf' :
              Vote.commit r v b :: (S₂ ++ Vote.prepare r u g :: T')
                <:+ P ++ (S ++ Vote.prepare r u g :: T') := by
            refine ⟨S₁, ?_⟩
            rw [← List.append_assoc P, hsplit]
            simp
          have hleg := h.suffix hsuf'
          cases hleg with
          | cons hadm' _ => exact hadm'.2 u g (by simp) hlt
        · -- The commit vote came first, so the lock constrains the prepare vote.
          obtain ⟨w, b', hvw, hprep', hext⟩ := hadm.2 v b hearlier hlt
          have hsuf' :
              T' <:+ P ++ (S ++ Vote.prepare r u g :: T') :=
            ⟨P ++ S ++ [Vote.prepare r u g], by simp⟩
          have hlt' : T'.length < n := by
            rw [← hlen]
            simp
            omega
          exact IsTrans.trans _ _ _ hext (ih _ hlt' T' rfl hsuf' w b' hvw hprep')

/-- **Agreement.**  Two committed blocks lie on one branch. -/
theorem Legal.committed_comparable
    {H : List (Vote ι B)}
    (h : Legal G ext H)
    {v v' : ℤ} {b b' : B}
    (hb : Committed G H v b)
    (hb' : Committed G H v' b') :
    ext b' b ∨ ext b b' := by
  rcases le_total v v' with hle | hle
  · left
    exact h.prepared_extends_committed hb _ H rfl (List.suffix_refl _) v' b' hle
      (h.prepared_of_committed hb')
  · right
    exact h.prepared_extends_committed hb' _ H rfl (List.suffix_refl _) v b hle
      (h.prepared_of_committed hb)

end

end LockVoting
end Foundations
end DistributedConsensus
