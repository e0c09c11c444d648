import DistributedConsensus.GoPbft.ViewChanges

/-!
# PBFT: agreement across view changes

All replicas are correct.  A new primary proposes the request that it waits for
at the sequence number after the last one it has executed, whatever other
replicas have committed there in an earlier view, so that agreement can fail.

Agreement holds when every proposal respects what may have been committed: the
primary has proposed no other digest for the view and the sequence number, and
in no earlier view a quorum for another digest has sent its COMMITs or may still
send them.
-/

namespace DistributedConsensus
namespace GoPbft

open Foundations

variable {D : Deployment}

namespace RunState

/-- Proposals and COMMITs that are known. -/
structure Votes where
  proposed : ℤ → ℤ → String → Prop
  committed : ℕ → ℤ → ℤ → String → Prop

variable {K K' : Votes} {U U' : ℤ → ℤ → String → Prop} {rs rs' : RunState}

/-- The digest was proposed, according to `K` or by the replica itself. -/
def Proposed (K : Votes) (rs : RunState) (v s : ℤ) (d : String) : Prop :=
  K.proposed v s d ∨ ∃ req, rs.HasSent (.prePrepare v s d req)

/-- The COMMIT was sent, according to `K` or by the replica itself. -/
def Voted (K : Votes) (rs : RunState) (j : ℕ) (v s : ℤ) (d : String) : Prop :=
  K.committed j v s d ∨ j = rs.id ∧ rs.HasSent (.commit v s d)

/-- A quorum has sent its COMMITs in some view. -/
def Decided (D : Deployment) (K : Votes) (rs : RunState) (s : ℤ) (d : String) : Prop :=
  ∃ v, ∃ A ⊆ Finset.range D.n, quorumSize D.n ≤ A.card ∧ ∀ j ∈ A, rs.Voted K j v s d

/-- An entry has the digest of a proposal of its view and the votes for it. -/
structure Vouched (D : Deployment) (K : Votes) (rs : RunState) (s : ℤ) (entry : LogEntry) :
    Prop where
  proposed : rs.Proposed K entry.view s entry.digest
  prePrepared : entry.committed = true → entry.prePrepared = true
  votes : entry.committed = false → ∀ j ∈ entry.commits,
    j < D.n ∧ rs.Voted K j entry.view s entry.digest
  committed : entry.committed = true → rs.Decided D K s entry.digest

/-- The invariant of a correct replica among correct replicas.  `U` says which
digests may be proposed. -/
structure Across (D : Deployment) (K : Votes) (U : ℤ → ℤ → String → Prop) (rs : RunState) :
    Prop where
  lt : rs.id < D.n
  proposals : ∀ v s d req, rs.HasSent (.prePrepare v s d req) →
    U v s d ∧ primaryFor v D.n = rs.id ∧ d ≠ ""
  prepares : ∀ v s d, rs.HasSent (.prepare v s d) → rs.Proposed K v s d
  commits : ∀ v s d, rs.HasSent (.commit v s d) → rs.Proposed K v s d
  entries : ∀ s entry, rs.logs.get? s = some entry → rs.Vouched D K s entry
  executed : ∀ x ∈ rs.executions, rs.Decided D K x.seq x.digest

theorem Proposed.mono
    {v s : ℤ} {d : String}
    (hgrows : Grows rs rs')
    (h : rs.Proposed K v s d) :
    rs'.Proposed K v s d :=
  h.imp_right fun ⟨req, hreq⟩ => ⟨req, hgrows.hasSent hreq⟩

theorem Voted.mono
    {j : ℕ} {v s : ℤ} {d : String}
    (hgrows : Grows rs rs')
    (h : rs.Voted K j v s d) :
    rs'.Voted K j v s d :=
  h.imp_right fun ⟨hj, hsent⟩ => ⟨hj.trans hgrows.id.symm, hgrows.hasSent hsent⟩

theorem Decided.mono
    {s : ℤ} {d : String}
    (hgrows : Grows rs rs')
    (h : rs.Decided D K s d) :
    rs'.Decided D K s d := by
  obtain ⟨v, A, hA, hcard, hvotes⟩ := h
  exact ⟨v, A, hA, hcard, fun j hj => (hvotes j hj).mono hgrows⟩

theorem Vouched.mono
    {s : ℤ} {entry : LogEntry}
    (hgrows : Grows rs rs')
    (h : rs.Vouched D K s entry) :
    rs'.Vouched D K s entry where
  proposed := h.proposed.mono hgrows
  prePrepared := h.prePrepared
  votes := fun hopen j hj => ⟨(h.votes hopen j hj).1, (h.votes hopen j hj).2.mono hgrows⟩
  committed := fun hcommitted => (h.committed hcommitted).mono hgrows

/-- A quorum of votes in an entry. -/
theorem Vouched.decided
    {s : ℤ} {entry : LogEntry}
    (h : rs.Vouched D K s entry)
    (hquorum : quorumSize D.n ≤ entry.commits.card) :
    rs.Decided D K s entry.digest := by
  cases hcommitted : entry.committed with
  | true => exact h.committed hcommitted
  | false =>
      exact ⟨entry.view, entry.commits,
        fun j hj => Finset.mem_range.mpr (h.votes hcommitted j hj).1, hquorum,
        fun j hj => (h.votes hcommitted j hj).2⟩

/-- A fresh entry for a proposed digest. -/
theorem vouched_new
    {s : ℤ} {entry : LogEntry}
    (hproposed : rs.Proposed K entry.view s entry.digest)
    (hcommits : entry.commits = ∅)
    (hopen : entry.committed = false) :
    rs.Vouched D K s entry where
  proposed := hproposed
  prePrepared := fun h => by rw [hopen] at h; cases h
  votes := fun _ j hj => by rw [hcommits] at hj; cases hj
  committed := fun h => by rw [hopen] at h; cases h

/-- The digests whose entries a message may change. -/
def Loose (entry : LogEntry) : Prop := entry.prePrepared = false ∨ entry.digest = ""

theorem loose_of_rewritten
    {n : ℕ} {m : PBFTMessage} {entry : LogEntry}
    (h : rs.rewritten n m = some entry) :
    Loose entry := by
  unfold rewritten at h
  split at h
  case h_1 =>
    split at h
    case isTrue => cases h
    case isFalse =>
      rw [Option.filter_eq_some_iff] at h
      exact Or.inl (of_decide_eq_true h.2).1
  case h_4 => cases h
  all_goals
    split at h
    case isTrue => cases h
    case isFalse =>
      rw [Option.filter_eq_some_iff] at h
      exact Or.inr (of_decide_eq_true h.2).1

namespace Across

/-- What was proposed may be proposed. -/
theorem may
    {v s : ℤ} {d : String}
    (hK : ∀ v s d, K.proposed v s d → U v s d ∧ d ≠ "")
    (h : rs.Across D K U)
    (hproposed : rs.Proposed K v s d) :
    U v s d ∧ d ≠ "" := by
  rcases hproposed with hproposed | ⟨req, hsent⟩
  · exact hK v s d hproposed
  · obtain ⟨hu, -, hne⟩ := h.proposals v s d req hsent
    exact ⟨hu, hne⟩

/-- A message for a proposed digest of the current view names the digest of the
entry that it is recorded in. -/
theorem digest_of_current
    {s : ℤ} {d : String} {entry : LogEntry}
    (hU : ∀ v s d d', U v s d → U v s d' → d = d')
    (hK : ∀ v s d, K.proposed v s d → U v s d ∧ d ≠ "")
    (h : rs.Across D K U)
    (hproposed : K.proposed rs.view s d)
    (hcurrent : rs.Current s d entry)
    (hloose : entry.digest ≠ d → Loose entry) :
    entry.digest = d ∧ rs.Vouched D K s entry := by
  rcases hcurrent.cases with ⟨rfl, -⟩ | ⟨hget, hview⟩
  · exact ⟨rfl, vouched_new (Or.inl hproposed) rfl rfl⟩
  · have hvouched := h.entries s entry hget
    refine ⟨?_, hvouched⟩
    obtain ⟨hmay, hne⟩ := h.may hK hvouched.proposed
    rcases hview with hview | hcommitted
    · rw [hview] at hmay
      exact hU _ _ _ _ hmay (hK _ _ _ hproposed).1
    · by_contra hdiff
      rcases hloose hdiff with hpre | hempty
      · rw [hvouched.prePrepared hcommitted] at hpre
        cases hpre
      · exact hne hempty

/-- The log gets another entry. -/
theorem setEntry
    {s : ℤ} {entry : LogEntry}
    (h : rs.Across D K U)
    (hgrows : Grows rs rs')
    (hlogs : rs'.logs = rs.logs.set s entry)
    (hentry : rs'.Vouched D K s entry)
    (hproposals : ∀ v s d req, rs'.HasSent (.prePrepare v s d req) →
      rs.HasSent (.prePrepare v s d req) ∨ U v s d ∧ primaryFor v D.n = rs.id ∧ d ≠ "")
    (hprepares : ∀ v s d, rs'.HasSent (.prepare v s d) →
      rs.HasSent (.prepare v s d) ∨ rs'.Proposed K v s d)
    (hcommits : ∀ v s d, rs'.HasSent (.commit v s d) →
      rs.HasSent (.commit v s d) ∨ rs'.Proposed K v s d)
    (hexecuted : ∀ x ∈ rs'.executions, x ∈ rs.executions ∨ rs'.Decided D K x.seq x.digest) :
    rs'.Across D K U := by
  constructor
  · rw [hgrows.id]
    exact h.lt
  · intro v s d req hsent
    rw [hgrows.id]
    rcases hproposals v s d req hsent with hold | hnew
    · exact h.proposals v s d req hold
    · exact hnew
  · intro v s d hsent
    rcases hprepares v s d hsent with hold | hnew
    · exact (h.prepares v s d hold).mono hgrows
    · exact hnew
  · intro v s d hsent
    rcases hcommits v s d hsent with hold | hnew
    · exact (h.commits v s d hold).mono hgrows
    · exact hnew
  · intro s' e he
    rw [hlogs, Dict.get?_set] at he
    split at he
    case isTrue heq =>
      subst heq
      obtain rfl := Option.some.inj he
      exact hentry
    case isFalse => exact (h.entries s' e he).mono hgrows
  · intro x hx
    rcases hexecuted x hx with hold | hnew
    · exact (h.executed x hold).mono hgrows
    · exact hnew

/-- The log, the executions and the votes stay. -/
theorem keep
    (h : rs.Across D K U)
    (hgrows : Grows rs rs')
    (hlogs : rs'.logs = rs.logs)
    (hexecutions : rs'.executions = rs.executions)
    (hsent : ∀ kind, rs'.HasSent kind → rs.HasSent kind ∨ ∀ v s d,
      (∀ req, kind ≠ .prePrepare v s d req) ∧ kind ≠ .prepare v s d ∧ kind ≠ .commit v s d) :
    rs'.Across D K U := by
  constructor
  · rw [hgrows.id]
    exact h.lt
  · intro v s d req hnew
    rw [hgrows.id]
    exact h.proposals v s d req ((hsent _ hnew).resolve_right fun hk => (hk v s d).1 req rfl)
  · intro v s d hnew
    exact (h.prepares v s d ((hsent _ hnew).resolve_right fun hk => (hk v s d).2.1 rfl)).mono hgrows
  · intro v s d hnew
    exact (h.commits v s d ((hsent _ hnew).resolve_right fun hk => (hk v s d).2.2 rfl)).mono hgrows
  · intro s e he
    rw [hlogs] at he
    exact (h.entries s e he).mono hgrows
  · intro x hx
    rw [hexecutions] at hx
    exact (h.executed x hx).mono hgrows

/-- One effect of a handler. -/
theorem acts
    {P : PBFTMessage → Prop} {Q : ℤ → ℤ → String → Prop}
    (hU : ∀ v s d d', U v s d → U v s d' → d = d')
    (hK : ∀ v s d, K.proposed v s d → U v s d ∧ d ≠ "")
    (hQ : ∀ v s d, Q v s d → U v s d ∧ d ≠ "")
    (hprePrepare : ∀ j v s d req, P ⟨j, .prePrepare v s d req⟩ → K.proposed v s d)
    (hprepare : ∀ j v s d, P ⟨j, .prepare v s d⟩ → K.proposed v s d)
    (hcommit : ∀ j v s d, P ⟨j, .commit v s d⟩ →
      K.proposed v s d ∧ j < D.n ∧ K.committed j v s d)
    (hact : Acts D.n D.digestOf P Loose Q rs rs')
    (h : rs.Across D K U) :
    rs'.Across D K U := by
  have hgrows := hact.grows
  cases hact with
  | quiet hq =>
      exact h.keep hgrows hq.logs hq.executions fun kind hkind =>
        Or.inl ((hasSent_congr hq.id hq.sent).mp hkind)
  | suspect nv =>
      refine h.keep hgrows rfl rfl fun kind hkind => ?_
      rcases hasSent_broadcast.mp hkind with hold | rfl
      · exact Or.inl hold
      · exact Or.inr (by simp)
  | lead =>
      refine h.keep hgrows rfl rfl fun kind hkind => ?_
      rcases hasSent_broadcast.mp hkind with hold | rfl
      · exact Or.inl hold
      · exact Or.inr (by simp)
  | follow => exact h.keep hgrows rfl rfl fun _ hkind => Or.inl hkind
  | @propose req hprimary hq =>
      obtain ⟨hu, hne⟩ := hQ _ _ _ hq
      have hsent : (rs.propose D.n D.digestOf req).HasSent
          (.prePrepare rs.view rs.nextSeq (D.digestOf req) req) :=
        hasSent_broadcast.mpr (Or.inl (hasSent_broadcast.mpr (Or.inr rfl)))
      have hnew : ∀ kind, (rs.propose D.n D.digestOf req).HasSent kind → rs.HasSent kind ∨
          kind = .prePrepare rs.view rs.nextSeq (D.digestOf req) req ∨
          kind = .prepare rs.view rs.nextSeq (D.digestOf req) := by
        intro kind hkind
        rcases hasSent_broadcast.mp hkind with hkind | hkind
        · rcases hasSent_broadcast.mp hkind with hkind | hkind
          · exact Or.inl hkind
          · exact Or.inr (Or.inl hkind)
        · exact Or.inr (Or.inr hkind)
      refine h.setEntry hgrows rfl (vouched_new (Or.inr ⟨req, hsent⟩) rfl rfl) ?_ ?_ ?_
        fun _ hx => Or.inl hx
      · intro v s d req' hkind
        rcases hnew _ hkind with hold | heq | heq
        · exact Or.inl hold
        · simp only [Kind.prePrepare.injEq] at heq
          obtain ⟨rfl, rfl, rfl, -⟩ := heq
          exact Or.inr ⟨hu, hprimary, hne⟩
        · cases heq
      · intro v s d hkind
        rcases hnew _ hkind with hold | heq | heq
        · exact Or.inl hold
        · cases heq
        · simp only [Kind.prepare.injEq] at heq
          obtain ⟨rfl, rfl, rfl⟩ := heq
          exact Or.inr (Or.inr ⟨req, hsent⟩)
      · intro v s d hkind
        rcases hnew _ hkind with hold | heq | heq
        · exact Or.inl hold
        · cases heq
        · cases heq
  | @accept s d req entry prepares hP hcurrent _ hloose =>
      have hproposed := hprePrepare _ _ _ _ _ hP
      obtain ⟨rfl, hvouched⟩ := h.digest_of_current hU hK hproposed hcurrent hloose
      have hvouched' := hvouched.mono hgrows
      refine h.setEntry hgrows rfl ⟨hvouched'.proposed, fun _ => rfl, hvouched'.votes,
        hvouched'.committed⟩ ?_ ?_ ?_ fun _ hx => Or.inl hx
      · exact fun v s d req' hkind => Or.inl ((hasSent_broadcast.mp hkind).resolve_right (by simp))
      · intro v s' d' hkind
        rcases hasSent_broadcast.mp hkind with hold | heq
        · exact Or.inl hold
        · simp only [Kind.prepare.injEq] at heq
          obtain ⟨rfl, rfl, rfl⟩ := heq
          exact Or.inr (Or.inl hproposed)
      · exact fun v s d hkind => Or.inl ((hasSent_broadcast.mp hkind).resolve_right (by simp))
  | @votePrepare s d entry j hP hcurrent hloose =>
      obtain ⟨rfl, hvouched⟩ := h.digest_of_current hU hK (hprepare _ _ _ _ hP) hcurrent hloose
      have hvouched' := hvouched.mono hgrows
      exact h.setEntry hgrows rfl ⟨hvouched'.proposed, hvouched'.prePrepared, hvouched'.votes,
        hvouched'.committed⟩ (fun _ _ _ _ hkind => Or.inl hkind) (fun _ _ _ hkind => Or.inl hkind)
        (fun _ _ _ hkind => Or.inl hkind) fun _ hx => Or.inl hx
  | @voteCommit s d entry j hP hcurrent hloose =>
      obtain ⟨hproposed, hj, hvote⟩ := hcommit _ _ _ _ hP
      obtain ⟨rfl, hvouched⟩ := h.digest_of_current hU hK hproposed hcurrent hloose
      have hvouched' := hvouched.mono hgrows
      refine h.setEntry hgrows rfl ⟨hvouched'.proposed, hvouched'.prePrepared, ?_,
        hvouched'.committed⟩ (fun _ _ _ _ hkind => Or.inl hkind) (fun _ _ _ hkind => Or.inl hkind)
        (fun _ _ _ hkind => Or.inl hkind) fun _ hx => Or.inl hx
      intro hopen i hi
      rcases Finset.mem_insert.mp hi with rfl | hi
      · -- An entry that is not committed belongs to the current view.
        have hview : entry.view = rs.view := by
          rcases hcurrent.cases with ⟨hnew, -⟩ | ⟨-, hview | hcommitted⟩
          · rw [hnew]
            rfl
          · exact hview
          · exact absurd (hopen.symm.trans hcommitted) (by decide)
        refine ⟨hj, Or.inl ?_⟩
        change K.committed i entry.view s entry.digest
        rw [hview]
        exact hvote
      · exact hvouched'.votes hopen i hi
  | @fire s entry hget hpre hfire _ hview hnamed =>
      have hproposed : K.proposed rs.view s entry.digest := by
        obtain ⟨j, hP | ⟨req, hP⟩⟩ := hnamed
        · exact hprepare _ _ _ _ hP
        · exact hprePrepare _ _ _ _ _ hP
      have hvouched' := (h.entries s entry hget).mono hgrows
      refine h.setEntry hgrows rfl ⟨hvouched'.proposed, hvouched'.prePrepared, ?_,
        hvouched'.committed⟩ ?_ ?_ ?_ fun _ hx => Or.inl hx
      · intro hopen i hi
        rcases Finset.mem_insert.mp hi with rfl | hi
        · refine ⟨h.lt, Or.inr ⟨rfl, hasSent_broadcast.mpr (Or.inr ?_)⟩⟩
          rcases hview with hview | hcommitted
          · change Kind.commit entry.view s entry.digest = _
            rw [hview]
          · exact absurd (hopen.symm.trans hcommitted) (by decide)
        · exact hvouched'.votes hopen i hi
      · exact fun v s d req' hkind => Or.inl ((hasSent_broadcast.mp hkind).resolve_right (by simp))
      · exact fun v s d hkind => Or.inl ((hasSent_broadcast.mp hkind).resolve_right (by simp))
      · intro v s' d' hkind
        rcases hasSent_broadcast.mp hkind with hold | heq
        · exact Or.inl hold
        · simp only [Kind.commit.injEq] at heq
          obtain ⟨rfl, rfl, rfl⟩ := heq
          exact Or.inr (Or.inl hproposed)
  | @commit s entry hget _ hpre hquorum _ _ =>
      have hvouched' := (h.entries s entry hget).mono hgrows
      exact h.setEntry hgrows rfl ⟨hvouched'.proposed, fun _ => hpre,
        (fun hopen => by cases hopen), fun _ => hvouched'.decided hquorum⟩ (fun _ _ _ _ hkind => Or.inl hkind)
        (fun _ _ _ hkind => Or.inl hkind) (fun _ _ _ hkind => Or.inl hkind) fun _ hx => Or.inl hx
  | @execute entry hget hcommitted =>
      have hvouched' := (h.entries _ entry hget).mono hgrows
      refine h.setEntry hgrows rfl ⟨hvouched'.proposed, hvouched'.prePrepared, hvouched'.votes,
        hvouched'.committed⟩ (fun _ _ _ _ hkind => Or.inl hkind)
        (fun _ _ _ hkind => Or.inl hkind) (fun _ _ _ hkind => Or.inl hkind) ?_
      intro x hx
      rcases List.mem_append.mp hx with hx | hx
      · exact Or.inl hx
      · obtain rfl := List.mem_singleton.mp hx
        exact Or.inr (hvouched'.committed hcommitted)

/-- A whole handler. -/
theorem runs
    {P : PBFTMessage → Prop} {Q : ℤ → ℤ → String → Prop}
    (hU : ∀ v s d d', U v s d → U v s d' → d = d')
    (hK : ∀ v s d, K.proposed v s d → U v s d ∧ d ≠ "")
    (hQ : ∀ v s d, Q v s d → U v s d ∧ d ≠ "")
    (hprePrepare : ∀ j v s d req, P ⟨j, .prePrepare v s d req⟩ → K.proposed v s d)
    (hprepare : ∀ j v s d, P ⟨j, .prepare v s d⟩ → K.proposed v s d)
    (hcommit : ∀ j v s d, P ⟨j, .commit v s d⟩ →
      K.proposed v s d ∧ j < D.n ∧ K.committed j v s d)
    (hruns : Runs D.n D.digestOf P Loose Q rs rs')
    (h : rs.Across D K U) :
    rs'.Across D K U := by
  induction hruns with
  | refl => exact h
  | tail _ hact ih => exact acts hU hK hQ hprePrepare hprepare hcommit hact ih

theorem mono
    (hproposed : ∀ v s d, K.proposed v s d → K'.proposed v s d)
    (hcommitted : ∀ j v s d, K.committed j v s d → K'.committed j v s d)
    (hmay : ∀ v s d req, rs.HasSent (.prePrepare v s d req) → U' v s d)
    (h : rs.Across D K U) :
    rs.Across D K' U' := by
  have hp : ∀ v s d, rs.Proposed K v s d → rs.Proposed K' v s d :=
    fun v s d => Or.imp_left (hproposed v s d)
  have hv : ∀ j v s d, rs.Voted K j v s d → rs.Voted K' j v s d :=
    fun j v s d => Or.imp_left (hcommitted j v s d)
  have hd : ∀ s d, rs.Decided D K s d → rs.Decided D K' s d := by
    rintro s d ⟨v, A, hA, hcard, hvotes⟩
    exact ⟨v, A, hA, hcard, fun j hj => hv _ _ _ _ (hvotes j hj)⟩
  constructor
  · exact h.lt
  · exact fun v s d req hsent => ⟨hmay v s d req hsent, (h.proposals v s d req hsent).2⟩
  · exact fun v s d hsent => hp _ _ _ (h.prepares v s d hsent)
  · exact fun v s d hsent => hp _ _ _ (h.commits v s d hsent)
  · intro s e he
    obtain ⟨hproposed, hpre, hvotes, hcommitted⟩ := h.entries s e he
    exact ⟨hp _ _ _ hproposed, hpre,
      fun hopen j hj => ⟨(hvotes hopen j hj).1, hv _ _ _ _ (hvotes hopen j hj).2⟩,
      fun hc => hd _ _ (hcommitted hc)⟩
  · exact fun x hx => hd _ _ (h.executed x hx)

end Across

theorem across_new
    {i : ℕ}
    (hi : i < D.n) :
    (RunState.new i).Across D K U := by
  constructor
  · exact hi
  · rintro v s d req ⟨b, hb, -⟩
    cases hb
  · rintro v s d ⟨b, hb, -⟩
    cases hb
  · rintro v s d ⟨b, hb, -⟩
    cases hb
  · intro s e he
    cases he
  · intro x hx
    cases hx

/-- Only the primary of a view proposes in it, and a digest of a request. -/
theorem proposal_spec
    {n : ℕ} {digestOf : ClientRequest → String} {m : PBFTMessage} {v s : ℤ} {d : String}
    (h : rs.proposal n digestOf m = some (v, s, d)) :
    primaryFor v n = rs.id ∧ ∃ req, d = digestOf req := by
  unfold proposal at h
  split at h
  case h_1 req _ =>
    split at h
    case isTrue hprimary =>
      simp only [Option.some.injEq, Prod.mk.injEq] at h
      obtain ⟨rfl, -, rfl⟩ := h
      exact ⟨by simpa [isPrimary, primary] using hprimary.2, req, rfl⟩
    case isFalse => cases h
  case h_2 nv _ pending _ =>
    dsimp only at h
    split at h
    case isTrue hcompletes =>
      obtain ⟨hprimary, -, -⟩ := of_decide_eq_true hcompletes
      rw [Option.map_eq_some_iff] at h
      obtain ⟨req, -, heq⟩ := h
      simp only [Prod.mk.injEq] at heq
      obtain ⟨rfl, -, rfl⟩ := heq
      have hjoin : Runs n digestOf (fun _ => True) (fun _ => True) (fun _ _ _ => True) rs
          (rs.joinViewChange n m.sender nv pending) :=
        joinViewChange_runs m.sender nv pending rs
      exact ⟨hprimary.trans hjoin.grows.id, req, rfl⟩
    case isFalse => cases h
  case h_3 => cases h

end RunState

namespace Cluster

open RunState

variable {w : Cluster} {i : ℕ} {e : Event}

/-- No quorum has sent COMMITs for the digest in the view or may still do so,
when the replica `i` sends none. -/
def Blocked (D : Deployment) (w : Cluster) (i : ℕ) (v s : ℤ) (d : String) : Prop :=
  ∀ A ⊆ Finset.range D.n,
    (∀ j ∈ A, (w j).rs.HasSent (.commit v s d) ∨ j ≠ i ∧ w.MayVote D v j) →
    A.card < quorumSize D.n

/-- A proposal respects what was proposed in its view and what may have been
committed in the earlier views. -/
def Respects (D : Deployment) (w : Cluster) (l : ℕ × Event) : Prop :=
  ∀ v s d, w.Proposes D l.1 l.2 v s d →
    (∀ d' req, (w l.1).rs.HasSent (.prePrepare v s d' req) → d' = d) ∧
      ∀ v' < v, ∀ d' ≠ d, w.Blocked D l.1 v' s d'

/-- The proposals and the COMMITs of a cluster. -/
def votes (D : Deployment) (w : Cluster) : Votes where
  proposed v s d := ∃ req, (w (primaryFor v D.n)).rs.HasSent (.prePrepare v s d req)
  committed j v s d := (w j).rs.HasSent (.commit v s d)

/-- No quorum has sent COMMITs for the digest in the view or may still do so. -/
def Closed (D : Deployment) (w : Cluster) (v s : ℤ) (d : String) : Prop :=
  ∀ A ⊆ Finset.range D.n, (∀ j ∈ A, (w j).rs.HasSent (.commit v s d) ∨ w.MayVote D v j) →
    A.card < quorumSize D.n

/-- A replica satisfies its invariant and has proposed one digest for each view
and sequence number. -/
structure Orderly (D : Deployment) (w : Cluster) (i : ℕ) : Prop where
  across : (w i).rs.Across D (w.votes D) (w.votes D).proposed
  unique : ∀ v s d d' req req', (w i).rs.HasSent (.prePrepare v s d req) →
    (w i).rs.HasSent (.prePrepare v s d' req') → d = d'

theorem extends_votes
    {w' : Cluster}
    (hext : Nodes.Extends (fun x y : Replica => Grows x.rs y.rs) w w') :
    (∀ v s d, (w.votes D).proposed v s d → (w'.votes D).proposed v s d) ∧
      ∀ j v s d, (w.votes D).committed j v s d → (w'.votes D).committed j v s d :=
  ⟨fun _ _ _ ⟨req, hreq⟩ => ⟨req, (hext _).hasSent hreq⟩, fun j _ _ _ h => (hext j).hasSent h⟩

theorem primaryFor_lt (v : ℤ) : primaryFor v D.n < D.n := by
  unfold primaryFor
  have hpos : (0 : ℤ) < D.n := by
    unfold Deployment.n
    omega
  have hlt := Int.emod_lt_of_pos v hpos
  have hnonneg := Int.emod_nonneg v hpos.ne'
  omega

/-- What may be proposed once the event has been handled. -/
theorem orderly_after
    (hall : D.faulty = ∅)
    (hdigest : ∀ req, D.digestOf req ≠ "")
    (hw : w.Sound D)
    (hnodes : ∀ j, j < D.n → w.Orderly D j)
    (hrespects : w.Respects D (i, e))
    (henabled : w.Enabled D i e)
    (hext : Nodes.Extends (fun x y : Replica => Grows x.rs y.rs) w (w.after D i e)) :
    (w.after D i e).Orderly D i := by
  have hi := Enabled.isCorrect henabled
  have hprimary : ∀ v s d, w.Proposes D i e v s d → primaryFor v D.n = i ∧ d ≠ "" := by
    rintro v s d ⟨m, -, hm⟩
    obtain ⟨hprimary, req, rfl⟩ := proposal_spec hm
    rw [hw.ids] at hprimary
    exact ⟨hprimary, hdigest req⟩
  -- One digest may be proposed for a view and a sequence number.
  have hU : ∀ v s d d', (w.votes D).proposed v s d ∨ w.Proposes D i e v s d →
      (w.votes D).proposed v s d' ∨ w.Proposes D i e v s d' → d = d' := by
    have hold : ∀ v s d d', w.Proposes D i e v s d → (w.votes D).proposed v s d' → d' = d := by
      rintro v s d d' hnew ⟨req, hreq⟩
      rw [(hprimary v s d hnew).1] at hreq
      exact (hrespects v s d hnew).1 d' req hreq
    rintro v s d d' (h | h) (h' | h')
    · obtain ⟨req, hreq⟩ := h
      obtain ⟨req', hreq'⟩ := h'
      exact (hnodes _ (primaryFor_lt v)).unique v s d d' req req' hreq hreq'
    · exact hold v s d' d h' h
    · exact (hold v s d d' h h').symm
    · obtain ⟨m, hm, hd⟩ := h
      obtain ⟨m', hm', hd'⟩ := h'
      obtain rfl := Option.some.inj (hm.symm.trans hm')
      have heq := hd.symm.trans hd'
      simp only [Option.some.injEq, Prod.mk.injEq] at heq
      exact heq.2.2
  have hK : ∀ v s d, (w.votes D).proposed v s d →
      ((w.votes D).proposed v s d ∨ w.Proposes D i e v s d) ∧ d ≠ "" := by
    rintro v s d ⟨req, hreq⟩
    exact ⟨Or.inl ⟨req, hreq⟩, ((hnodes _ (primaryFor_lt v)).across.proposals v s d req hreq).2.2⟩
  have hruns := Replica.handle_runs (R := Loose) (Q := w.Proposes D i e) hw henabled
    (fun _ _ _ h => loose_of_rewritten h) fun m hm _ _ _ h => ⟨m, hm, h⟩
  have hsent : ∀ j kind, w.Arrives D i e ⟨j, kind⟩ → j < D.n ∧ (w j).rs.HasSent kind := by
    rintro j kind ⟨-, hfaulty | ⟨hj, b, hb, hmsg, -⟩⟩
    · rw [hall] at hfaulty
      cases hfaulty
    · exact ⟨hj.1, b, hb, by rw [hw.ids]; exact hmsg⟩
  have hown : ∀ j v s d, j < D.n → (w j).rs.Proposed (w.votes D) v s d →
      (w.votes D).proposed v s d := by
    rintro j v s d hj (hproposed | ⟨req, hreq⟩)
    · exact hproposed
    · exact ((hnodes j hj).across.proposals v s d req hreq).1
  have hacross : ((w i).handle D e).rs.Across D (w.votes D)
      (fun v s d => (w.votes D).proposed v s d ∨ w.Proposes D i e v s d) := by
    refine Across.runs hU hK (fun v s d h => ⟨Or.inr h, (hprimary v s d h).2⟩) ?_ ?_ ?_ hruns
      ((hnodes i hi.1).across.mono (fun _ _ _ h => h) (fun _ _ _ _ h => h) ?_)
    · intro j v s d req harrives
      obtain ⟨hj, hpre⟩ := hsent _ _ harrives
      exact ((hnodes j hj).across.proposals v s d req hpre).1
    · intro j v s d harrives
      obtain ⟨hj, hprepare⟩ := hsent _ _ harrives
      exact hown j v s d hj ((hnodes j hj).across.prepares v s d hprepare)
    · intro j v s d harrives
      obtain ⟨hj, hcommit⟩ := hsent _ _ harrives
      exact ⟨hown j v s d hj ((hnodes j hj).across.commits v s d hcommit), hj, hcommit⟩
    · exact fun v s d req hpre => Or.inl ((hnodes i hi.1).across.proposals v s d req hpre).1
  have hself : w.after D i e i = (w i).handle D e := Function.update_self _ _ _
  obtain ⟨hproposed, hcommitted⟩ := extends_votes (D := D) hext
  constructor
  · rw [hself]
    refine hacross.mono hproposed hcommitted fun v s d req hpre => ⟨req, ?_⟩
    have hid := (hacross.proposals v s d req hpre).2.1
    rw [(Replica.handle_grows hw henabled).id, hw.ids] at hid
    rw [hid, hself]
    exact hpre
  · rw [hself]
    exact fun v s d d' req req' h h' =>
      hU v s d d' (hacross.proposals v s d req h).1 (hacross.proposals v s d' req' h').1

theorem reachable_orderly
    (hall : D.faulty = ∅)
    (hdigest : ∀ req, D.digestOf req ≠ "")
    (hreach : (cluster D).Reachable (Respects D) w)
    (hi : i < D.n) :
    w.Orderly D i := by
  refine Nodes.reachable_invariant (N := nodes D) (R := fun x y => Grows x.rs y.rs)
    (I := fun w i => i < D.n → Orderly D w i) (fun x => Grows.refl x.rs) ?_ ?_ ?_ hreach i hi
  · refine fun i hi => ⟨across_new hi, ?_⟩
    rintro v s d d' req req' ⟨b, hb, -⟩
    cases hb
  · intro w i e hreach hw hok henabled
    have hsound := Cluster.sound hreach
    exact ⟨Replica.handle_grows hsound henabled, fun hext _ =>
      orderly_after hall hdigest hsound hw hok henabled hext⟩
  · intro w w' i hext heq hw hi
    obtain ⟨hproposed, hcommitted⟩ := extends_votes (D := D) hext
    have hacross := (hw hi).across
    constructor
    · rw [heq]
      exact hacross.mono hproposed hcommitted fun v s d req hpre =>
        hproposed _ _ _ (hacross.proposals v s d req hpre).1
    · rw [heq]
      exact (hw hi).unique

/-- What was closed stays closed. -/
theorem Closed.after
    {v s : ℤ} {d : String} {ok : Cluster → ℕ × Event → Prop}
    (hall : D.faulty = ∅)
    (hreach : (cluster D).Reachable ok w)
    (henabled : w.Enabled D i e)
    (h : w.Closed D v s d) :
    (w.after D i e).Closed D v s d := by
  intro A hA hvotes
  refine h A hA fun j hj => ?_
  rcases hvotes j hj with hsent | hmay
  · exact (commit_of_after (Cluster.sound hreach) henabled hsent).imp_right And.left
  · exact Or.inr (mayVote_of_after hall hreach henabled hmay)

/-- A proposal closes its sequence number for other digests in earlier views. -/
theorem reachable_closed
    (hall : D.faulty = ∅)
    (hreach : (cluster D).Reachable (Respects D) w)
    {v s : ℤ} {d : String} {req : ClientRequest}
    (hsent : (w i).rs.HasSent (.prePrepare v s d req)) :
    ∀ v' < v, ∀ d' ≠ d, w.Closed D v' s d' := by
  refine System.Reachable.invariant (I := fun w : Cluster => ∀ i v s d req,
    (w i).rs.HasSent (.prePrepare v s d req) → ∀ v' < v, ∀ d' ≠ d, w.Closed D v' s d')
    ?_ ?_ hreach i v s d req hsent
  · rintro i v s d req ⟨b, hb, -⟩
    cases hb
  · rintro w ⟨i, e⟩ w' hreach hw hok hstep j v s d req hsent v' hv' d' hd'
    obtain ⟨henabled, rfl⟩ := Nodes.step_spec hstep
    change ((w.after D i e) j).rs.HasSent _ at hsent
    change (w.after D i e).Closed D v' s d'
    have hsound := Cluster.sound hreach
    by_cases hj : j = i
    · subst hj
      have hself : w.after D j e j = (w j).handle D e := Function.update_self _ _ _
      rw [hself] at hsent
      have hcourse := course hsound henabled
      obtain ⟨b, hb, hmsg⟩ := hsent
      obtain ⟨extra, hextra, hallowed⟩ := hcourse.sent
      rw [hcourse.id] at hmsg
      rw [hextra] at hb
      rcases List.mem_append.mp hb with hb | hb
      · exact (hw j v s d req ⟨b, hb, hmsg⟩ v' hv' d' hd').after hall hreach henabled
      · -- A new proposal: its replica is in the view `v` now.
        have hkind := (hallowed b hb).2
        rw [hmsg] at hkind
        obtain ⟨hproposes, hview⟩ := hkind
        intro A hA hvotes
        refine (hok v s d hproposes).2 v' hv' d' hd' A hA fun k hk => ?_
        rcases hvotes k hk with hcommit | hmay
        · rcases commit_of_after hsound henabled hcommit with hold | ⟨-, -, hnone⟩
          · exact Or.inl hold
          · exact absurd hproposes (hnone v s d)
        · refine Or.inr ⟨?_, mayVote_of_after hall hreach henabled hmay⟩
          rintro rfl
          unfold MayVote at hmay
          rw [hself] at hmay
          change v ≤ ((w k).handle D e).rs.view at hview
          rcases hmay with hlt | ⟨heq, -⟩ <;> omega
    · rw [after, Function.update_of_ne hj] at hsent
      exact (hw j v s d req hsent v' hv' d' hd').after hall hreach henabled

/-- What was decided was proposed. -/
theorem proposed_of_decided
    (hw : w.Sound D)
    (hnodes : ∀ j, j < D.n → w.Orderly D j)
    {s : ℤ} {d : String}
    (h : (w i).rs.Decided D (w.votes D) s d) :
    ∃ v, (w.votes D).proposed v s d ∧ ¬ w.Closed D v s d := by
  obtain ⟨v, A, hA, hcard, hvotes⟩ := h
  have hsent : ∀ j ∈ A, (w j).rs.HasSent (.commit v s d) := by
    intro j hj
    rcases hvotes j hj with hvote | ⟨rfl, hvote⟩
    · exact hvote
    · rw [hw.ids]
      exact hvote
  have hne : A.Nonempty := Finset.card_pos.mp (by
    unfold quorumSize at hcard
    omega)
  obtain ⟨j, hj⟩ := hne
  have hlt := Finset.mem_range.mp (hA hj)
  refine ⟨v, ?_, fun hclosed => ?_⟩
  · rcases (hnodes j hlt).across.commits v s d (hsent j hj) with hproposed | ⟨req, hreq⟩
    · exact hproposed
    · exact ((hnodes j hlt).across.proposals v s d req hreq).1
  · have hlt' := hclosed A hA fun j hj => Or.inl (hsent j hj)
    omega

/-- Agreement across views among correct replicas: when every proposal respects
what may have been committed, no two replicas execute different digests at one
sequence number. -/
theorem executions_agree_across
    (hall : D.faulty = ∅)
    (hdigest : ∀ req, D.digestOf req ≠ "")
    (hreach : (cluster D).Reachable (Respects D) w)
    {p q : ℕ} {x y : ExecutionEntry}
    (hp : p < D.n)
    (hq : q < D.n)
    (hx : x ∈ (w p).rs.executions)
    (hy : y ∈ (w q).rs.executions)
    (hseq : x.seq = y.seq) :
    x.digest = y.digest := by
  have hsound := Cluster.sound hreach
  have hnodes : ∀ j, j < D.n → w.Orderly D j := fun j hj => reachable_orderly hall hdigest hreach hj
  obtain ⟨v, ⟨req, hreq⟩, hopen⟩ :=
    proposed_of_decided hsound hnodes ((hnodes p hp).across.executed x hx)
  obtain ⟨v', ⟨req', hreq'⟩, hopen'⟩ :=
    proposed_of_decided hsound hnodes ((hnodes q hq).across.executed y hy)
  rw [← hseq] at hreq' hopen'
  rcases lt_trichotomy v v' with hlt | rfl | hlt
  · by_contra hne
    exact hopen (reachable_closed hall hreach hreq' v hlt _ hne)
  · exact (hnodes _ (primaryFor_lt v)).unique _ _ _ _ _ _ hreq hreq'
  · by_contra hne
    exact hopen' (reachable_closed hall hreach hreq v' hlt _ (Ne.symm hne))

section Runs

/-- Four correct replicas. -/
def allCorrect : Deployment where
  f := 1
  faulty := ∅
  digestOf := fun req => "#" ++ req.op
  faulty_lt := by decide
  faulty_le := by decide

/-- The `k`-th multicast of a replica to its three peers arrives. -/
def arrival (k i : ℕ) (kind : Kind) : Event :=
  .deliver k ⟨(List.range 4).filter (· ≠ i), i, kind⟩

def requestA : ClientRequest := ⟨"a", "A", 1⟩

def requestB : ClientRequest := ⟨"b", "B", 1⟩

/-- The proposal of A in view 0 reaches all replicas, and each of them hears two
PREPAREs of others and sends its COMMIT. -/
def prepareRun : List (ℕ × Event) :=
  let prepare (k i : ℕ) : Event := arrival k i (.prepare 0 1 "#A")
  [1, 2, 3].map (fun i => (i, arrival 0 0 (.prePrepare 0 1 "#A" requestA))) ++
    [(0, prepare 0 1), (0, prepare 0 2), (1, prepare 1 0), (1, prepare 0 2), (2, prepare 1 0),
      (2, prepare 0 1), (3, prepare 1 0), (3, prepare 0 1)]

/-- Two COMMITs for A reach replica 0, which executes A. -/
def commitRun : List (ℕ × Event) :=
  [1, 2].map fun i => (0, arrival 1 i (.commit 0 1 "#A"))

/-- The event makes no proposal. -/
def NoProposal (D : Deployment) (w : Cluster) (l : ℕ × Event) : Prop :=
  ∀ m ∈ l.2.message l.1, (w l.1).rs.proposal D.n D.digestOf m = none

instance (w : Cluster) (l : ℕ × Event) : Decidable (NoProposal D w l) := by
  unfold NoProposal
  infer_instance

theorem respects_of_noProposal
    {l : ℕ × Event}
    (h : w.NoProposal D l) :
    w.Respects D l := by
  rintro v s d ⟨m, hm, hproposal⟩
  rw [h m hm] at hproposal
  cases hproposal

/-- The first proposal of view 0. -/
theorem respects_init (req : ClientRequest) :
    Respects D (cluster D).init (0, .request req) := by
  rintro v s d ⟨m, hm, hproposal⟩
  have hnone : ∀ j kind, ¬ ((cluster D).init j).rs.HasSent kind := by
    rintro j kind ⟨b, hb, -⟩
    cases hb
  refine ⟨fun d' req' h => absurd h (hnone _ _), ?_⟩
  intro v' hv' d' _ A _ hvotes
  obtain rfl := Option.some.inj hm
  have hview : v = 0 := by
    simp only [RunState.proposal] at hproposal
    split at hproposal
    case isTrue =>
      simp only [Option.some.injEq, Prod.mk.injEq] at hproposal
      exact hproposal.1.symm
    case isFalse => cases hproposal
  -- No replica may vote in a negative view.
  have hempty : A = ∅ := by
    refine Finset.eq_empty_of_forall_notMem fun j hj => ?_
    rcases hvotes j hj with hsent | ⟨-, hlt | ⟨heq, -⟩⟩
    · exact hnone _ _ hsent
    · change (0 : ℤ) < v' at hlt
      omega
    · change (0 : ℤ) = v' at heq
      omega
  rw [hempty]
  exact Nat.succ_pos _

theorem executions_agree_across_allCorrect :
    ∃ w, (cluster allCorrect).Reachable (Respects allCorrect) w ∧
      ∃ x ∈ (w 0).rs.executions, ∃ y ∈ (w 1).rs.executions, x.seq = y.seq ∧ x.digest = y.digest := by
  have hstep : (cluster allCorrect).step (cluster allCorrect).init (0, .request requestA) =
      some (after allCorrect (cluster allCorrect).init 0 (.request requestA)) :=
    Nodes.step_of_enabled (show allCorrect.IsCorrect 0 by decide)
  have hfirst : (cluster allCorrect).Reachable (Respects allCorrect)
      (after allCorrect (cluster allCorrect).init 0 (.request requestA)) :=
    System.Reaches.tail (System.Reaches.refl _) (respects_init requestA) hstep
  obtain ⟨w, hreach, h0, h1⟩ : ∃ w, System.Reaches (cluster allCorrect) (NoProposal allCorrect)
      (after allCorrect (cluster allCorrect).init 0 (.request requestA)) w ∧
      ⟨1, "#A", "A"⟩ ∈ (w 0).rs.executions ∧ ⟨1, "#A", "A"⟩ ∈ (w 1).rs.executions := by
    refine System.exists_reaches_of_exec
      (prepareRun ++ commitRun ++
        [(1, arrival 2 0 (.commit 0 1 "#A")), (1, arrival 1 2 (.commit 0 1 "#A"))]) ?_
    decide +kernel
  have hreach' := hfirst.trans (hreach.mono fun w l => respects_of_noProposal)
  refine ⟨w, hreach', _, h0, _, h1, rfl, ?_⟩
  refine executions_agree_across (by decide) ?_ hreach' (by decide) (by decide) h0 h1 rfl
  intro req hempty
  have hlength := congrArg String.length hempty
  simp [allCorrect] at hlength

/-- The replicas 1, 2 and 3 change to view 1, whose primary waits for B. -/
def viewChangeRun : List (ℕ × Event) :=
  let viewChange (i : ℕ) : Event :=
    .deliver 2 ⟨List.range 4, i, .viewChange 1 0 (some requestA)⟩
  [(1, .timeout), (2, .timeout), (3, .timeout), (1, viewChange 2), (1, viewChange 3)] ++
    [2, 3].map fun i => (i, .deliver 3 ⟨List.range 4, 1, .newView 1 [1, 2, 3]⟩)

/-- B is proposed and executed at the sequence number of A. -/
def secondRun : List (ℕ × Event) :=
  let prepare (k i : ℕ) : Event := arrival k i (.prepare 1 1 "#B")
  [2, 3].map (fun i => (i, arrival 4 1 (.prePrepare 1 1 "#B" requestB))) ++
    [(1, prepare 3 2), (1, prepare 3 3), (2, prepare 5 1), (2, prepare 3 3), (3, prepare 5 1),
      (3, prepare 3 2)] ++
    [2, 3].map fun i => (1, arrival 4 i (.commit 1 1 "#B"))

/-- Correct replicas execute different digests at one sequence number. -/
theorem executions_differ_across :
    allCorrect.faulty = ∅ ∧ ∃ w, (cluster allCorrect).Reachable System.anyStep w ∧
      ∃ x ∈ (w 0).rs.executions, ∃ y ∈ (w 1).rs.executions, x.seq = y.seq ∧ x.digest ≠ y.digest := by
  obtain ⟨w, hreach, h0, h1⟩ : ∃ w, (cluster allCorrect).Reachable System.anyStep w ∧
      ⟨1, "#A", "A"⟩ ∈ (w 0).rs.executions ∧ ⟨1, "#B", "B"⟩ ∈ (w 1).rs.executions := by
    refine System.exists_reaches_of_exec
      ([(1, .request requestB), (0, .request requestA), (2, .request requestA),
        (3, .request requestA)] ++ prepareRun ++ commitRun ++ viewChangeRun ++ secondRun) ?_
    decide +kernel
  exact ⟨rfl, w, hreach, _, h0, _, h1, rfl, by decide⟩

end Runs

end Cluster

end GoPbft
end DistributedConsensus
