import DistributedConsensus.GoPbft.Cluster

/-!
# PBFT: agreement inside a view

As long as no correct replica leaves view 0, a correct replica sends at most one
COMMIT for a sequence number, and an executed digest has a quorum of COMMITs,
provided that no entry changes its digest while it holds the COMMIT of a correct
replica.  `handlePrePrepare` throws away the PREPARE votes for another digest
but keeps the COMMIT votes; counted for the new digest they break agreement.
-/

namespace DistributedConsensus
namespace GoPbft

open Foundations

variable {D : Deployment}

/-- The message replaces the digest of no entry that holds the COMMIT of a
correct replica. -/
def KeepsCommits (D : Deployment) (w : Cluster) (l : ℕ × Event) : Prop :=
  ∀ m ∈ l.2.message l.1, ∀ entry ∈ (w l.1).rs.rewritten D.n m, ∀ j ∈ entry.commits, j ∈ D.faulty

instance (w : Cluster) (l : ℕ × Event) : Decidable (KeepsCommits D w l) := by
  unfold KeepsCommits
  infer_instance

namespace RunState

variable {K K' : ℕ → ℤ → String → Prop} {rs rs' : RunState}

/-- The replica is known to have sent a COMMIT in view 0, according to `K` or as
the replica itself. -/
def Known (K : ℕ → ℤ → String → Prop) (rs : RunState) (j : ℕ) (seq : ℤ) (digest : String) :
    Prop :=
  K j seq digest ∨ j = rs.id ∧ rs.HasSent (.commit 0 seq digest)

/-- A quorum whose correct members have sent a COMMIT. -/
def Certified (D : Deployment) (K : ℕ → ℤ → String → Prop) (rs : RunState) (seq : ℤ)
    (digest : String) : Prop :=
  ∃ A ⊆ Finset.range D.n, quorumSize D.n ≤ A.card ∧
    ∀ j ∈ A, j ∈ D.faulty ∨ rs.Known K j seq digest

/-- The votes of an entry are those of its digest. -/
structure Backed (D : Deployment) (K : ℕ → ℤ → String → Prop) (rs : RunState) (seq : ℤ)
    (entry : LogEntry) : Prop where
  view : entry.view = 0
  members : entry.commits ⊆ Finset.range D.n
  votes : ∀ j ∈ entry.commits, j ∈ D.faulty ∨ rs.Known K j seq entry.digest
  committed : entry.committed = true → quorumSize D.n ≤ entry.commits.card

/-- The entry records the COMMIT that its replica has sent. -/
structure Fired (id : ℕ) (digest : String) (entry : LogEntry) : Prop where
  prePrepared : entry.prePrepared = true
  preparedFired : entry.preparedFired = true
  digest : entry.digest = digest
  own : id ∈ entry.commits

/-- The invariant of a correct replica in view 0. -/
structure InView (D : Deployment) (K : ℕ → ℤ → String → Prop) (rs : RunState) : Prop where
  correct : D.IsCorrect rs.id
  view : rs.view = 0
  entries : ∀ seq entry, rs.logs.get? seq = some entry → rs.Backed D K seq entry
  fired : ∀ seq digest, rs.HasSent (.commit 0 seq digest) →
    ∃ entry, rs.logs.get? seq = some entry ∧ Fired rs.id digest entry
  executed : ∀ x ∈ rs.executions, rs.Certified D K x.seq x.digest
  fresh : primaryFor 0 D.n = rs.id → ∀ seq entry, rs.logs.get? seq = some entry →
    entry.prePrepared = true → seq < rs.nextSeq
  loopback : ∀ b ∈ rs.sent, rs.id ∈ b.recipients →
    (∀ view seq digest req, b.msg.kind ≠ .prePrepare view seq digest req) ∧
      ∀ proofs, b.msg.kind ≠ .newView 0 proofs

theorem Known.mono
    {j : ℕ} {seq : ℤ} {digest : String}
    (hgrows : Grows rs rs')
    (h : rs.Known K j seq digest) :
    rs'.Known K j seq digest := by
  rcases h with h | ⟨rfl, h⟩
  · exact Or.inl h
  · exact Or.inr ⟨hgrows.id.symm, hgrows.hasSent h⟩

theorem Certified.mono
    {seq : ℤ} {digest : String}
    (hgrows : Grows rs rs')
    (h : rs.Certified D K seq digest) :
    rs'.Certified D K seq digest := by
  obtain ⟨A, hA, hcard, hvotes⟩ := h
  exact ⟨A, hA, hcard, fun j hj => (hvotes j hj).imp_right (Known.mono hgrows)⟩

theorem Backed.mono
    {seq : ℤ} {entry : LogEntry}
    (hgrows : Grows rs rs')
    (h : rs.Backed D K seq entry) :
    rs'.Backed D K seq entry :=
  ⟨h.view, h.members, fun j hj => (h.votes j hj).imp_right (Known.mono hgrows), h.committed⟩

/-- A committed entry certifies its digest. -/
theorem Backed.certified
    {seq : ℤ} {entry : LogEntry}
    (h : rs.Backed D K seq entry)
    (hcommitted : entry.committed = true) :
    rs.Certified D K seq entry.digest :=
  ⟨entry.commits, h.members, h.committed hcommitted, h.votes⟩

/-- A fresh entry has no votes. -/
theorem backed_newLogEntry (seq : ℤ) (digest : String) :
    rs.Backed D K seq (newLogEntry 0 digest) where
  view := rfl
  members := Finset.empty_subset _
  votes := fun j hj => absurd hj (Finset.notMem_empty j)
  committed := fun h => by cases h

/-- The digest of an entry may be replaced when only faulty replicas have voted
for it. -/
theorem Backed.rewrite
    {seq : ℤ} {entry : LogEntry} {digest : String}
    (h : rs.Backed D K seq entry)
    (hvotes : entry.digest ≠ digest → ∀ j ∈ entry.commits, j ∈ D.faulty) :
    rs.Backed D K seq { entry with digest := digest } where
  view := h.view
  members := h.members
  votes := by
    intro j hj
    by_cases hsame : entry.digest = digest
    · subst hsame
      exact h.votes j hj
    · exact Or.inl (hvotes hsame j hj)
  committed := h.committed

/-- A proposal multicasts no COMMIT. -/
theorem hasSent_commit_of_propose
    {n : ℕ} {digestOf : ClientRequest → String} {req : ClientRequest} {view seq : ℤ}
    {digest : String}
    (h : (rs.propose n digestOf req).HasSent (.commit view seq digest)) :
    rs.HasSent (.commit view seq digest) :=
  (hasSent_broadcast.mp ((hasSent_broadcast.mp h).resolve_right (by simp))).resolve_right
    (by simp)

/-- Accepting a PRE-PREPARE multicasts no COMMIT. -/
theorem hasSent_commit_of_accept
    {n : ℕ} {entry : LogEntry} {seq' : ℤ} {digest' : String} {req : ClientRequest}
    {view seq : ℤ} {digest : String}
    (h : (rs.accept n entry seq' digest' req).HasSent (.commit view seq digest)) :
    rs.HasSent (.commit view seq digest) :=
  (hasSent_broadcast.mp h).resolve_right (by simp)

namespace InView

/-- The entry that a message of the current view is recorded in. -/
theorem backed_of_current
    {seq : ℤ} {digest : String} {entry : LogEntry}
    (h : rs.InView D K)
    (hcurrent : rs.Current seq digest entry) :
    rs.Backed D K seq entry := by
  rcases hcurrent.cases with ⟨rfl, -⟩ | ⟨hget, -⟩
  · rw [h.view]
    exact backed_newLogEntry seq digest
  · exact h.entries seq entry hget

/-- The entry of a COMMIT that was sent is the current one, and its digest stays. -/
theorem fired_of_current
    {seq : ℤ} {digest digest' : String} {entry : LogEntry}
    (h : rs.InView D K)
    (hcurrent : rs.Current seq digest entry)
    (hvotes : entry.digest ≠ digest → ∀ j ∈ entry.commits, j ∈ D.faulty)
    (hsent : rs.HasSent (.commit 0 seq digest')) :
    Fired rs.id digest' entry ∧ entry.digest = digest := by
  obtain ⟨old, hold, hfired⟩ := h.fired seq digest' hsent
  have hentry : entry = old := by
    rcases hcurrent.cases with ⟨-, hstale⟩ | ⟨hget, -⟩
    · have hview := (h.entries seq old hold).view
      exact absurd (hview.trans h.view.symm) (hstale old hold).1
    · exact Option.some.inj (hget.symm.trans hold)
  subst hentry
  refine ⟨hfired, ?_⟩
  by_contra hne
  exact h.correct.2 (hvotes hne _ hfired.own)

/-- The log gets another entry. -/
theorem setEntry
    {seq : ℤ} {entry : LogEntry}
    (h : rs.InView D K)
    (hgrows : Grows rs rs')
    (hview : rs'.view = 0)
    (hlogs : rs'.logs = rs.logs.set seq entry)
    (hentry : rs'.Backed D K seq entry)
    (hfired : ∀ digest, rs'.HasSent (.commit 0 seq digest) → Fired rs.id digest entry)
    (hcommits : ∀ seq' digest, seq' ≠ seq → rs'.HasSent (.commit 0 seq' digest) →
      rs.HasSent (.commit 0 seq' digest))
    (hexecuted : ∀ x ∈ rs'.executions, rs'.Certified D K x.seq x.digest)
    (hfresh : primaryFor 0 D.n = rs.id →
      rs.nextSeq ≤ rs'.nextSeq ∧ (entry.prePrepared = true → seq < rs'.nextSeq))
    (hloopback : ∀ b ∈ rs'.sent, rs'.id ∈ b.recipients →
      (∀ view seq digest req, b.msg.kind ≠ .prePrepare view seq digest req) ∧
        ∀ proofs, b.msg.kind ≠ .newView 0 proofs) :
    rs'.InView D K := by
  constructor
  · rw [hgrows.id]
    exact h.correct
  · exact hview
  · intro seq' e he
    rw [hlogs, Dict.get?_set] at he
    split at he
    case isTrue heq =>
      subst heq
      obtain rfl := Option.some.inj he
      exact hentry
    case isFalse => exact (h.entries seq' e he).mono hgrows
  · intro seq' digest hsent
    rw [hlogs, Dict.get?_set]
    split
    case isTrue heq =>
      subst heq
      rw [hgrows.id]
      exact ⟨entry, rfl, hfired digest hsent⟩
    case isFalse hne =>
      rw [hgrows.id]
      exact h.fired seq' digest (hcommits _ _ hne hsent)
  · exact hexecuted
  · intro hprimary seq' e he hpre
    rw [hgrows.id] at hprimary
    obtain ⟨hnext, hseq⟩ := hfresh hprimary
    rw [hlogs, Dict.get?_set] at he
    split at he
    case isTrue heq =>
      subst heq
      obtain rfl := Option.some.inj he
      exact hseq hpre
    case isFalse =>
      have hlt := h.fresh hprimary seq' e he hpre
      omega
  · exact hloopback

/-- One effect of a handler, as long as the replica stays in view 0. -/
theorem acts
    {P : PBFTMessage → Prop} {Q : ℤ → ℤ → String → Prop}
    (hcommit : ∀ j seq digest, P ⟨j, .commit 0 seq digest⟩ →
      j < D.n ∧ (j ∈ D.faulty ∨ K j seq digest))
    (hself : ∀ m, P m → m.sender = rs.id →
      (∀ view seq digest req, m.kind ≠ .prePrepare view seq digest req) ∧
        ∀ proofs, m.kind ≠ .newView 0 proofs)
    (hact : Acts D.n D.digestOf P (fun e => ∀ j ∈ e.commits, j ∈ D.faulty) Q rs rs')
    (hview' : rs'.view ≤ 0)
    (h : rs.InView D K) :
    rs'.InView D K := by
  have hgrows := hact.grows
  have hview := h.view
  have hexecuted : rs'.executions = rs.executions →
      ∀ x ∈ rs'.executions, rs'.Certified D K x.seq x.digest := by
    intro heq x hx
    rw [heq] at hx
    exact (h.executed x hx).mono hgrows
  cases hact with
  | quiet hq =>
      have hsame : ∀ kind, rs'.HasSent kind ↔ rs.HasSent kind :=
        fun kind => hasSent_congr hq.id hq.sent
      constructor
      · rw [hq.id]
        exact h.correct
      · exact hq.view.trans hview
      · intro seq e he
        rw [hq.logs] at he
        exact (h.entries seq e he).mono hgrows
      · intro seq digest hsent
        rw [hq.logs, hq.id]
        exact h.fired seq digest ((hsame _).mp hsent)
      · exact hexecuted hq.executions
      · rw [hq.id, hq.nextSeq, hq.logs]
        exact h.fresh
      · rw [hq.id, hq.sent]
        exact h.loopback
  | suspect nv =>
      constructor
      · exact h.correct
      · exact hview
      · exact fun seq e he => (h.entries seq e he).mono hgrows
      · intro seq digest hsent
        have hold := hasSent_broadcast.mp hsent
        exact h.fired seq digest (hold.resolve_right (by simp))
      · exact hexecuted rfl
      · exact h.fresh
      · intro b hb hid
        rcases List.mem_append.mp hb with hb | hb
        · exact h.loopback b hb hid
        · obtain rfl := List.mem_singleton.mp hb
          simp
  | @lead nv _ hlt _ =>
      -- The replica would leave view 0.
      change nv ≤ 0 at hview'
      omega
  | @follow nv proofs hP hle =>
      change nv ≤ 0 at hview'
      obtain rfl : nv = 0 := by omega
      constructor
      · exact h.correct
      · rfl
      · exact fun seq e he => (h.entries seq e he).mono hgrows
      · exact h.fired
      · exact hexecuted rfl
      · intro hprimary
        exact absurd rfl ((hself _ hP hprimary).2 proofs)
      · exact h.loopback
  | @propose req hprimary _ =>
      rw [hview] at hprimary
      refine h.setEntry hgrows hview rfl ?_ ?_ ?_ (hexecuted rfl) ?_ ?_
      · rw [hview]
        have hempty : (rs.propose D.n D.digestOf req).Backed D K rs.nextSeq
            (newLogEntry 0 (D.digestOf req)) :=
          backed_newLogEntry _ _
        exact ⟨hempty.view, hempty.members, hempty.votes, hempty.committed⟩
      · intro digest hsent
        obtain ⟨e, he, hfire⟩ := h.fired _ _ (hasSent_commit_of_propose hsent)
        have hlt := h.fresh hprimary _ _ he hfire.prePrepared
        omega
      · exact fun _ _ _ hsent => hasSent_commit_of_propose hsent
      · intro _
        exact ⟨by simp [RunState.propose, broadcast], fun _ => by simp [RunState.propose, broadcast]⟩
      · intro b hb hid
        simp only [RunState.propose, broadcast, List.mem_append, List.mem_singleton] at hb
        rcases hb with (hb | rfl) | rfl
        · exact h.loopback b hb hid
        · simp [others, RunState.propose, broadcast] at hid
        · simp
  | @accept seq digest req entry prepares hP hcurrent hsame hvotes =>
      have hother : primaryFor 0 D.n ≠ rs.id := by
        intro hprimary
        rw [hview] at hP
        exact (hself _ hP hprimary).1 _ _ _ _ rfl
      have hbacked := ((h.backed_of_current hcurrent).rewrite hvotes).mono hgrows
      refine h.setEntry hgrows hview rfl ?_ ?_ ?_ (hexecuted rfl) ?_ ?_
      · exact ⟨hbacked.view, hbacked.members, hbacked.votes, hbacked.committed⟩
      · intro digest' hsent
        obtain ⟨hfire, hdigest⟩ := h.fired_of_current hcurrent hvotes
          (hasSent_commit_of_accept hsent)
        exact ⟨rfl, hfire.preparedFired, hdigest.symm.trans hfire.digest, hfire.own⟩
      · exact fun _ _ _ hsent => hasSent_commit_of_accept hsent
      · exact fun hprimary => absurd hprimary hother
      · intro b hb hid
        rcases List.mem_append.mp hb with hb | hb
        · exact h.loopback b hb hid
        · obtain rfl := List.mem_singleton.mp hb
          simp
  | @votePrepare seq digest entry j _ hcurrent hvotes =>
      have hbacked := ((h.backed_of_current hcurrent).rewrite hvotes).mono hgrows
      refine h.setEntry hgrows hview rfl ?_ ?_ ?_ (hexecuted rfl) ?_ h.loopback
      · exact ⟨hbacked.view, hbacked.members, hbacked.votes, hbacked.committed⟩
      · intro digest' hsent
        obtain ⟨hfire, hdigest⟩ := h.fired_of_current hcurrent hvotes hsent
        exact ⟨hfire.prePrepared, hfire.preparedFired, hdigest.symm.trans hfire.digest, hfire.own⟩
      · exact fun _ _ _ hsent => hsent
      · intro hprimary
        refine ⟨le_refl _, fun hpre => ?_⟩
        rcases hcurrent.cases with ⟨rfl, -⟩ | ⟨hget, -⟩
        · cases hpre
        · exact h.fresh hprimary seq entry hget hpre
  | @voteCommit seq digest entry j hP hcurrent hvotes =>
      rw [hview] at hP
      obtain ⟨hj, hknown⟩ := hcommit j seq digest hP
      have hbacked := ((h.backed_of_current hcurrent).rewrite hvotes).mono hgrows
      refine h.setEntry hgrows hview rfl ?_ ?_ ?_ (hexecuted rfl) ?_ h.loopback
      · constructor
        · exact hbacked.view
        · exact Finset.insert_subset (Finset.mem_range.mpr hj) hbacked.members
        · intro i hi
          rcases Finset.mem_insert.mp hi with rfl | hi
          · exact hknown.imp_right Or.inl
          · exact hbacked.votes i hi
        · exact fun hc => (hbacked.committed hc).trans (Finset.card_le_card (Finset.subset_insert _ _))
      · intro digest' hsent
        obtain ⟨hfire, hdigest⟩ := h.fired_of_current hcurrent hvotes hsent
        exact ⟨hfire.prePrepared, hfire.preparedFired, hdigest.symm.trans hfire.digest,
          Finset.mem_insert_of_mem hfire.own⟩
      · exact fun _ _ _ hsent => hsent
      · intro hprimary
        refine ⟨le_refl _, fun hpre => ?_⟩
        rcases hcurrent.cases with ⟨rfl, -⟩ | ⟨hget, -⟩
        · cases hpre
        · exact h.fresh hprimary seq entry hget hpre
  | @fire seq entry hget hpre hfire _ _ _ =>
      have hbacked := (h.entries seq entry hget).mono hgrows
      refine h.setEntry hgrows hview rfl ?_ ?_ ?_ (hexecuted rfl) ?_ ?_
      · constructor
        · exact hbacked.view
        · exact Finset.insert_subset (Finset.mem_range.mpr h.correct.1) hbacked.members
        · intro i hi
          rcases Finset.mem_insert.mp hi with rfl | hi
          · refine Or.inr (Or.inr ⟨rfl, hasSent_broadcast.mpr (Or.inr ?_)⟩)
            rw [hview]
          · exact hbacked.votes i hi
        · exact fun hc => (hbacked.committed hc).trans (Finset.card_le_card (Finset.subset_insert _ _))
      · intro digest hsent
        rcases hasSent_broadcast.mp hsent with hold | hnew
        · -- The entry has not sent its COMMIT yet.
          obtain ⟨e, he, hfired⟩ := h.fired seq digest hold
          obtain rfl := Option.some.inj (he.symm.trans hget)
          rw [hfired.preparedFired] at hfire
          cases hfire
        · simp only [Kind.commit.injEq] at hnew
          exact ⟨hpre, rfl, hnew.2.2.symm, Finset.mem_insert_self _ _⟩
      · intro seq' digest hne hsent
        rcases hasSent_broadcast.mp hsent with hold | hnew
        · exact hold
        · simp only [Kind.commit.injEq] at hnew
          exact absurd hnew.2.1 hne
      · intro hprimary
        exact ⟨le_refl _, fun _ => h.fresh hprimary seq entry hget hpre⟩
      · intro b hb hid
        rcases List.mem_append.mp hb with hb | hb
        · exact h.loopback b hb hid
        · obtain rfl := List.mem_singleton.mp hb
          simp
  | @commit seq entry hget _ hpre hquorum _ _ =>
      have hbacked := (h.entries seq entry hget).mono hgrows
      refine h.setEntry hgrows hview rfl ⟨hbacked.view, hbacked.members, hbacked.votes,
        fun _ => hquorum⟩ ?_ (fun _ _ _ hsent => hsent) (hexecuted rfl) ?_ h.loopback
      · intro digest hsent
        obtain ⟨e, he, hfired⟩ := h.fired seq digest hsent
        obtain rfl := Option.some.inj (he.symm.trans hget)
        exact ⟨hfired.prePrepared, hfired.preparedFired, hfired.digest, hfired.own⟩
      · intro hprimary
        exact ⟨le_refl _, fun _ => h.fresh hprimary seq entry hget hpre⟩
  | @execute entry hget hcommitted =>
      have hbacked := (h.entries _ entry hget).mono hgrows
      refine h.setEntry hgrows hview rfl ⟨hbacked.view, hbacked.members, hbacked.votes,
        hbacked.committed⟩ ?_ (fun _ _ _ hsent => hsent) ?_ ?_ h.loopback
      · intro digest hsent
        obtain ⟨e, he, hfired⟩ := h.fired _ digest hsent
        obtain rfl := Option.some.inj (he.symm.trans hget)
        exact ⟨hfired.prePrepared, hfired.preparedFired, hfired.digest, hfired.own⟩
      · intro x hx
        rcases List.mem_append.mp hx with hx | hx
        · exact (h.executed x hx).mono hgrows
        · obtain rfl := List.mem_singleton.mp hx
          exact hbacked.certified hcommitted
      · intro hprimary
        exact ⟨le_refl _, fun hpre => h.fresh hprimary _ entry hget hpre⟩

theorem mono
    (hsub : ∀ j seq digest, K j seq digest → K' j seq digest)
    (h : rs.InView D K) :
    rs.InView D K' := by
  have hknown : ∀ j seq digest, rs.Known K j seq digest → rs.Known K' j seq digest :=
    fun j seq digest => Or.imp_left (hsub j seq digest)
  constructor
  · exact h.correct
  · exact h.view
  · intro seq entry hget
    obtain ⟨hview, hmembers, hvotes, hcommitted⟩ := h.entries seq entry hget
    exact ⟨hview, hmembers, fun j hj => (hvotes j hj).imp_right (hknown _ _ _), hcommitted⟩
  · exact h.fired
  · intro x hx
    obtain ⟨A, hA, hcard, hvotes⟩ := h.executed x hx
    exact ⟨A, hA, hcard, fun j hj => (hvotes j hj).imp_right (hknown _ _ _)⟩
  · exact h.fresh
  · exact h.loopback

/-- A whole handler, as long as the replica stays in view 0. -/
theorem runs
    {P : PBFTMessage → Prop} {Q : ℤ → ℤ → String → Prop}
    (hcommit : ∀ j seq digest, P ⟨j, .commit 0 seq digest⟩ →
      j < D.n ∧ (j ∈ D.faulty ∨ K j seq digest))
    (hself : ∀ m, P m → m.sender = rs.id →
      (∀ view seq digest req, m.kind ≠ .prePrepare view seq digest req) ∧
        ∀ proofs, m.kind ≠ .newView 0 proofs)
    (hruns : Runs D.n D.digestOf P (fun e => ∀ j ∈ e.commits, j ∈ D.faulty) Q rs rs')
    (hview' : rs'.view ≤ 0)
    (h : rs.InView D K) :
    rs'.InView D K := by
  induction hruns with
  | refl => exact h
  | @tail rs₁ rs₂ hruns₁ hact ih =>
      have hview₁ : rs₁.view ≤ 0 := hact.grows.view.trans hview'
      refine acts hcommit ?_ hact hview' (ih hview₁)
      rw [(Runs.grows hruns₁).id]
      exact hself

end InView

theorem inView_new
    {i : ℕ}
    (hi : D.IsCorrect i) :
    (RunState.new i).InView D K := by
  constructor
  · exact hi
  · rfl
  · intro seq entry hget
    cases hget
  · rintro seq digest ⟨b, hb, -⟩
    cases hb
  · intro x hx
    cases hx
  · intro _ seq entry hget
    cases hget
  · intro b hb
    cases hb

end RunState

namespace Cluster

variable {w : Cluster}

/-- The replica has sent a COMMIT in view 0. -/
def Committed (w : Cluster) (j : ℕ) (seq : ℤ) (digest : String) : Prop :=
  (w j).rs.HasSent (.commit 0 seq digest)

/-- As long as all correct replicas are in view 0, each of them satisfies its
invariant. -/
theorem reachable_inView
    (hreach : (cluster D).Reachable (KeepsCommits D) w)
    (hviews : ∀ i, D.IsCorrect i → (w i).rs.view ≤ 0)
    {i : ℕ}
    (hi : D.IsCorrect i) :
    (w i).rs.InView D w.Committed := by
  refine Nodes.reachable_invariant (N := nodes D)
    (R := fun x y => RunState.Grows x.rs y.rs)
    (I := fun w i => (∀ j, D.IsCorrect j → (w j).rs.view ≤ 0) → D.IsCorrect i →
      (w i).rs.InView D (Committed w)) (fun x => RunState.Grows.refl x.rs) ?_ ?_ ?_ hreach i hviews hi
  · exact fun i _ hi => RunState.inView_new hi
  · intro w i e hreach hw hok henabled
    have hsound := Cluster.sound hreach
    refine ⟨Replica.handle_grows hsound henabled, fun hext hviews hi => ?_⟩
    have hviews' : ∀ j, D.IsCorrect j → (w j).rs.view ≤ 0 :=
      fun j hj => (hext j).view.trans (hviews j hj)
    have hinv := hw i hviews' hi
    have hruns := Replica.handle_runs (R := fun e => ∀ j ∈ e.commits, j ∈ D.faulty)
      (Q := fun _ _ _ => True) hsound henabled hok (fun _ _ _ _ _ _ => trivial)
    have hlast := hviews i hi
    rw [Function.update_self] at hlast ⊢
    refine (hinv.runs ?_ ?_ hruns hlast).mono fun j seq digest h => (hext j).hasSent h
    · rintro j seq digest ⟨-, hfaulty | ⟨hj, b, hb, hmsg, -⟩⟩
      · exact ⟨D.faulty_lt j hfaulty, Or.inl hfaulty⟩
      · exact ⟨hj.1, Or.inr ⟨b, hb, by rw [hsound.ids]; exact hmsg⟩⟩
    · rintro m ⟨-, hfaulty | ⟨-, b, hb, rfl, hrecipient⟩⟩ hsender
      · rw [hsender, hsound.ids] at hfaulty
        exact absurd hfaulty hi.2
      · rw [hsender, hsound.ids] at hb
        exact hinv.loopback b hb (by rw [hsound.ids]; exact hrecipient)
  · intro w w' i hext heq hinv hviews hi
    rw [heq]
    exact (hinv (fun j hj => (hext j).view.trans (hviews j hj)) hi).mono
      fun j seq digest h => (hext j).hasSent h

/-- The COMMIT of a correct replica for a sequence number is unique. -/
theorem committed_unique
    (hinv : ∀ i, D.IsCorrect i → (w i).rs.InView D w.Committed)
    {i : ℕ} {seq : ℤ} {digest digest' : String}
    (hi : D.IsCorrect i)
    (h : w.Committed i seq digest)
    (h' : w.Committed i seq digest') :
    digest = digest' := by
  obtain ⟨entry, hget, hfired⟩ := (hinv i hi).fired seq digest h
  obtain ⟨entry', hget', hfired'⟩ := (hinv i hi).fired seq digest' h'
  obtain rfl := Option.some.inj (hget.symm.trans hget')
  exact hfired.digest.symm.trans hfired'.digest

/-- Agreement inside view 0: when no entry that holds the COMMIT of a correct
replica changes its digest, no two correct replicas execute different digests at
one sequence number. -/
theorem executions_agree_inView
    (hreach : (cluster D).Reachable (KeepsCommits D) w)
    (hviews : ∀ i, D.IsCorrect i → (w i).rs.view = 0)
    {p q : ℕ} {x y : ExecutionEntry}
    (hp : D.IsCorrect p)
    (hq : D.IsCorrect q)
    (hx : x ∈ (w p).rs.executions)
    (hy : y ∈ (w q).rs.executions)
    (hseq : x.seq = y.seq) :
    x.digest = y.digest := by
  have hsound := Cluster.sound hreach
  have hinv : ∀ i, D.IsCorrect i → (w i).rs.InView D w.Committed :=
    fun i hi => reachable_inView hreach (fun j hj => (hviews j hj).le) hi
  have hknown : ∀ i j seq digest, (w i).rs.Known w.Committed j seq digest →
      w.Committed j seq digest := by
    rintro i j seq digest (h | ⟨rfl, h⟩)
    · exact h
    · rw [hsound.ids]
      exact h
  obtain ⟨A, hA, hcardA, hvotes⟩ := (hinv p hp).executed x hx
  obtain ⟨B, hB, hcardB, hvotes'⟩ := (hinv q hq).executed y hy
  -- A correct replica of both quorums has sent both COMMITs.
  obtain ⟨i, hi, hi', hc⟩ := Deployment.exists_correct_inter hA hB hcardA hcardB
  have hvote := hknown _ _ _ _ ((hvotes i hi).resolve_left hc)
  have hvote' := hknown _ _ _ _ ((hvotes' i hi').resolve_left hc)
  rw [← hseq] at hvote'
  exact committed_unique hinv ⟨Finset.mem_range.mp (hA hi), hc⟩ hvote hvote'

section Runs

/-- Four replicas of which replica 0, the primary of view 0, is faulty.  The
digest of a request is its operation. -/
def faultyPrimary : Deployment where
  f := 1
  faulty := {0}
  digestOf := fun req => req.op
  faulty_lt := by decide
  faulty_le := by decide

/-- Replicas 1 and 2 execute B at sequence number 1. -/
def executeRun : List (ℕ × Event) :=
  let req : ClientRequest := ⟨"client", "B", 1⟩
  let prepare (i : ℕ) (others : List ℕ) : Event := .deliver 0 ⟨others, i, .prepare 0 1 "B"⟩
  let commit (i : ℕ) (others : List ℕ) : Event := .deliver 1 ⟨others, i, .commit 0 1 "B"⟩
  [(1, .forge ⟨0, .prePrepare 0 1 "B" req⟩), (2, .forge ⟨0, .prePrepare 0 1 "B" req⟩),
    (1, .forge ⟨0, .prepare 0 1 "B"⟩), (2, .forge ⟨0, .prepare 0 1 "B"⟩),
    (1, prepare 2 [0, 1, 3]), (2, prepare 1 [0, 2, 3]),
    (1, .forge ⟨0, .commit 0 1 "B"⟩), (2, .forge ⟨0, .commit 0 1 "B"⟩),
    (1, commit 2 [0, 1, 3]), (2, commit 1 [0, 2, 3])]

theorem executions_agree_inView_faultyPrimary :
    ∃ w, (cluster faultyPrimary).Reachable (KeepsCommits faultyPrimary) w ∧
      (∀ i, faultyPrimary.IsCorrect i → (w i).rs.view = 0) ∧
      ∃ x ∈ (w 1).rs.executions, ∃ y ∈ (w 2).rs.executions, x.seq = y.seq ∧ x.digest = y.digest := by
  obtain ⟨w, hreach, h1, h2, hviews⟩ : ∃ w,
      (cluster faultyPrimary).Reachable (KeepsCommits faultyPrimary) w ∧
      ⟨1, "B", "B"⟩ ∈ (w 1).rs.executions ∧ ⟨1, "B", "B"⟩ ∈ (w 2).rs.executions ∧
      ∀ i ∈ List.range 4, (w i).rs.view = 0 := by
    refine System.exists_reaches_of_exec executeRun ?_
    decide +kernel
  have hviews' : ∀ i, faultyPrimary.IsCorrect i → (w i).rs.view = 0 :=
    fun i hi => hviews i (List.mem_range.mpr hi.1)
  exact ⟨w, hreach, hviews', _, h1, _, h2, rfl,
    executions_agree_inView hreach hviews' (by decide) (by decide) h1 h2 rfl⟩

/-- Replica 3 hears the COMMITs for B before the PRE-PREPARE for A. -/
def mixedRun : List (ℕ × Event) :=
  executeRun ++
    [(3, .deliver 1 ⟨[0, 2, 3], 1, .commit 0 1 "B"⟩),
      (3, .deliver 1 ⟨[0, 1, 3], 2, .commit 0 1 "B"⟩),
      (3, .forge ⟨0, .prePrepare 0 1 "A" ⟨"client", "A", 1⟩⟩), (3, .forge ⟨0, .commit 0 1 "A"⟩)]

/-- Inside view 0 two correct replicas execute different digests. -/
theorem executions_differ_inView :
    ∃ w, (cluster faultyPrimary).Reachable System.anyStep w ∧
      (∀ i, faultyPrimary.IsCorrect i → (w i).rs.view = 0) ∧
      faultyPrimary.IsCorrect 1 ∧ faultyPrimary.IsCorrect 3 ∧
      ∃ x ∈ (w 1).rs.executions, ∃ y ∈ (w 3).rs.executions, x.seq = y.seq ∧ x.digest ≠ y.digest := by
  obtain ⟨w, hreach, h1, h3, hviews⟩ : ∃ w, (cluster faultyPrimary).Reachable System.anyStep w ∧
      ⟨1, "B", "B"⟩ ∈ (w 1).rs.executions ∧ ⟨1, "A", "A"⟩ ∈ (w 3).rs.executions ∧
      ∀ i ∈ List.range 4, (w i).rs.view = 0 := by
    refine System.exists_reaches_of_exec mixedRun ?_
    decide +kernel
  exact ⟨w, hreach, fun i hi => hviews i (List.mem_range.mpr hi.1), by decide, by decide, _, h1, _,
    h3, rfl, by decide⟩

end Runs

end Cluster

end GoPbft
end DistributedConsensus
