import DistributedConsensus.Foundations.LockVoting

/-!
# Round-based voting with round changes

An abstract account of why a value committed in a round survives all later
rounds.  Correct participants prepare values, commit values and announce round
changes; a round change names the round and value that its sender has last seen
prepared, if any.  A record says what the correct participants have announced;
nothing is recorded for the faulty ones.

A record is sound when

* nobody prepares two values in one round;
* a value prepared after the first round is justified by a quorum of round
  changes: either none of them names a prepared value, or the value is prepared
  in an earlier round that no announcement of the quorum exceeds;
* a committed value is prepared in its round;
* a round change announced for a later round than that of a commit names a
  prepared round at or above the one of the commit.

Nothing is said about the order of the announcements, so soundness can be
checked on the announcements of a whole run at once.
-/

namespace DistributedConsensus
namespace Foundations
namespace RoundVoting

universe u v

/-- The announcements of the correct participants. -/
structure Record (ι : Type u) (V : Type v) where
  /-- The participant prepares a value in a round. -/
  prepares : ι → ℤ → V → Prop
  /-- The participant commits a value in a round. -/
  commits : ι → ℤ → V → Prop
  /-- The participant asks for a round, naming the last prepared round. -/
  roundChanges : ι → ℤ → Option ℤ → Prop

variable {ι : Type u} [Fintype ι] {V : Type v}
variable (G : LockVoting.Group ι) (R : Record ι V)

/-- A quorum prepares the value in the round. -/
def Prepared (r : ℤ) (v : V) : Prop :=
  ∃ Q : Finset ι, G.quorum ≤ Q.card ∧ ∀ i ∈ Q, i ∉ G.faulty → R.prepares i r v

/-- A quorum commits the value in the round. -/
def Committed (r : ℤ) (v : V) : Prop :=
  ∃ Q : Finset ι, G.quorum ≤ Q.card ∧ ∀ i ∈ Q, i ∉ G.faulty → R.commits i r v

/-- A quorum of round changes admits the value in the round. -/
def Justified (r : ℤ) (v : V) : Prop :=
  ∃ Q : Finset ι, ∃ named : ι → Option ℤ,
    G.quorum ≤ Q.card ∧
    (∀ i ∈ Q, i ∉ G.faulty → R.roundChanges i r (named i)) ∧
    ((∀ i ∈ Q, named i = none) ∨
      ∃ p, p < r ∧ Prepared G R p v ∧ ∀ i ∈ Q, ∀ q, named i = some q → q ≤ p)

/-- The conditions on the announcements. -/
structure Sound (first : ℤ) : Prop where
  prepare_unique : ∀ i, i ∉ G.faulty → ∀ r v w,
    R.prepares i r v → R.prepares i r w → v = w
  prepare_justified : ∀ i, i ∉ G.faulty → ∀ r v,
    R.prepares i r v → r ≤ first ∨ Justified G R r v
  commit_prepared : ∀ i, i ∉ G.faulty → ∀ r v,
    R.commits i r v → first ≤ r ∧ Prepared G R r v
  commit_carried : ∀ i, i ∉ G.faulty → ∀ r v s c,
    R.commits i r v → R.roundChanges i s c → r < s → ∃ q, c = some q ∧ r ≤ q

variable {G R}

section Monotone

variable {R' : Record ι V}

theorem Prepared.mono
    {r : ℤ} {v : V}
    (hsub : ∀ i r v, R.prepares i r v → R'.prepares i r v)
    (h : Prepared G R r v) :
    Prepared G R' r v := by
  obtain ⟨Q, hQ, hvotes⟩ := h
  exact ⟨Q, hQ, fun i hi hc => hsub i r v (hvotes i hi hc)⟩

theorem Committed.mono
    {r : ℤ} {v : V}
    (hsub : ∀ i r v, R.commits i r v → R'.commits i r v)
    (h : Committed G R r v) :
    Committed G R' r v := by
  obtain ⟨Q, hQ, hvotes⟩ := h
  exact ⟨Q, hQ, fun i hi hc => hsub i r v (hvotes i hi hc)⟩

theorem Justified.mono
    {r : ℤ} {v : V}
    (hprep : ∀ i r v, R.prepares i r v → R'.prepares i r v)
    (hchange : ∀ i r c, R.roundChanges i r c → R'.roundChanges i r c)
    (h : Justified G R r v) :
    Justified G R' r v := by
  obtain ⟨Q, named, hQ, hrc, hval⟩ := h
  refine ⟨Q, named, hQ, fun i hi hc => hchange i r _ (hrc i hi hc), ?_⟩
  rcases hval with hnone | ⟨p, hp, hprepared, hmax⟩
  · exact Or.inl hnone
  · exact Or.inr ⟨p, hp, hprepared.mono hprep, hmax⟩

end Monotone

variable [DecidableEq ι]

/-- One round prepares at most one value. -/
theorem Sound.prepared_unique
    {first r : ℤ} {v w : V}
    (hs : Sound G R first)
    (hv : Prepared G R r v)
    (hw : Prepared G R r w) :
    v = w := by
  obtain ⟨Q, hQ, hvotes⟩ := hv
  obtain ⟨Q', hQ', hvotes'⟩ := hw
  obtain ⟨i, hi, hi', hc⟩ := G.exists_correct_inter hQ hQ'
  exact hs.prepare_unique i hc r v w (hvotes i hi hc) (hvotes' i hi' hc)

/-- A committed value is prepared. -/
theorem Sound.prepared_of_committed
    {first r : ℤ} {v : V}
    (hs : Sound G R first)
    (hv : Committed G R r v) :
    first ≤ r ∧ Prepared G R r v := by
  obtain ⟨Q, hQ, hvotes⟩ := hv
  obtain ⟨i, hi, hc⟩ := G.exists_correct hQ
  exact hs.commit_prepared i hc r v (hvotes i hi hc)

/-- The round changes of a later round carry a committed value along. -/
theorem Sound.exists_prepared_between
    {first r s : ℤ} {v w : V}
    (hs : Sound G R first)
    (hv : Committed G R r v)
    (hlt : r < s)
    (hw : Prepared G R s w) :
    ∃ p, r ≤ p ∧ p < s ∧ Prepared G R p w := by
  obtain ⟨hfirst, -⟩ := hs.prepared_of_committed hv
  obtain ⟨Q, hQ, hvotes⟩ := hw
  obtain ⟨i, hi, hc⟩ := G.exists_correct hQ
  rcases hs.prepare_justified i hc s w (hvotes i hi hc) with hle | hjust
  · omega
  · obtain ⟨Q₁, named, hQ₁, hchange, hval⟩ := hjust
    obtain ⟨Q₂, hQ₂, hcommits⟩ := hv
    -- A correct committer announced the round change, so it named its commit.
    obtain ⟨j, hj₁, hj₂, hjc⟩ := G.exists_correct_inter hQ₁ hQ₂
    obtain ⟨q, hq, hrq⟩ := hs.commit_carried j hjc r v s _
      (hcommits j hj₂ hjc) (hchange j hj₁ hjc) hlt
    rcases hval with hnone | ⟨p, hps, hprep, hmax⟩
    · rw [hnone j hj₁] at hq
      cases hq
    · have hqp : q ≤ p := hmax j hj₁ q hq
      exact ⟨p, by omega, hps, hprep⟩

/-- A value prepared at or above the round of a commit is the committed one. -/
theorem Sound.prepared_eq_of_committed
    {first r s : ℤ} {v w : V}
    (hs : Sound G R first)
    (hv : Committed G R r v)
    (hle : r ≤ s)
    (hw : Prepared G R s w) :
    w = v := by
  -- Induction on the distance of the two rounds.
  obtain ⟨k, hk⟩ : ∃ k : ℕ, s = r + k := ⟨(s - r).toNat, by omega⟩
  induction k using Nat.strong_induction_on generalizing s w with
  | _ k ih =>
      rcases hle.lt_or_eq with hlt | heq
      · obtain ⟨p, hrp, hps, hp⟩ := hs.exists_prepared_between hv hlt hw
        exact ih (p - r).toNat (by omega) hrp hp (by omega)
      · subst heq
        exact hs.prepared_unique hw (hs.prepared_of_committed hv).2

/-- Agreement: all committed values are equal. -/
theorem Sound.committed_unique
    {first r s : ℤ} {v w : V}
    (hs : Sound G R first)
    (hv : Committed G R r v)
    (hw : Committed G R s w) :
    v = w := by
  rcases le_total r s with hle | hle
  · exact (hs.prepared_eq_of_committed hv hle (hs.prepared_of_committed hw).2).symm
  · exact hs.prepared_eq_of_committed hw hle (hs.prepared_of_committed hv).2

end RoundVoting
end Foundations
end DistributedConsensus
