import DistributedConsensus.GoPbft.AcrossViews

/-!
# PBFT: a request that is sent again

A primary proposes every REQUEST that it receives, also one that it has proposed before,
and a new primary proposes the request that it waits for, whatever became of it in the
earlier views.  A request is executed once when it is proposed at another sequence number
only after its earlier proposals have become ineffective.
-/

namespace DistributedConsensus
namespace GoPbft

open Foundations

namespace RunState

variable {n : ℕ} {digestOf : ClientRequest → String} {w w' : Cluster} {May : ℤ → String → Prop}
  {rs rs' : RunState}

/-- The replica has executed the request at the sequence number. -/
def HasExecuted (digestOf : ClientRequest → String) (rs : RunState) (s : ℤ)
    (req : ClientRequest) : Prop :=
  ⟨s, digestOf req, req.op⟩ ∈ rs.executions

instance (rs : RunState) (s : ℤ) (req : ClientRequest) :
    Decidable (rs.HasExecuted digestOf s req) :=
  inferInstanceAs (Decidable (_ ∈ _))

/-- An entry belongs to a proposal, and its votes were sent. -/
structure Traced (n : ℕ) (digestOf : ClientRequest → String) (w : Cluster) (rs : RunState)
    (s : ℤ) (entry : LogEntry) : Prop where
  proposed : entry.prePrepared = true → ∃ req,
    (w (primaryFor entry.view n)).rs.HasSent (.prePrepare entry.view s entry.digest req) ∨
      rs.HasSent (.prePrepare entry.view s entry.digest req)
  request : entry.prePrepared = true → entry.digest = digestOf entry.request
  votes : entry.committed = false → ∀ j ∈ entry.commits, j < n ∧
    (j = rs.id ∨ ∃ d, (w j).rs.HasSent (.commit entry.view s d))
  prePrepared : entry.committed = true → entry.prePrepared = true

/-- The log, the executions and the proposals of a replica among the replicas `w`.  `May`
says which digests may have been committed. -/
structure Recorded (n : ℕ) (digestOf : ClientRequest → String) (w : Cluster)
    (May : ℤ → String → Prop) (rs : RunState) : Prop where
  lt : rs.id < n
  proposals : ∀ v s d req, rs.HasSent (.prePrepare v s d req) →
    primaryFor v n = rs.id ∧ d = digestOf req
  traced : ∀ s entry, rs.logs.get? s = some entry → rs.Traced n digestOf w s entry
  committed : ∀ s entry, rs.logs.get? s = some entry → entry.committed = true →
    May s entry.digest
  executed : ∀ x ∈ rs.executions, May x.seq x.digest ∧
    ∃ req, x.digest = digestOf req ∧ x.op = req.op

theorem Traced.mono
    {s : ℤ} {entry : LogEntry}
    (hgrows : Grows rs rs')
    (h : rs.Traced n digestOf w s entry) :
    rs'.Traced n digestOf w s entry where
  proposed hpre := by
    obtain ⟨req, hsent⟩ := h.proposed hpre
    exact ⟨req, hsent.imp_right hgrows.hasSent⟩
  request := h.request
  votes hopen j hj := by
    rw [hgrows.id]
    exact h.votes hopen j hj
  prePrepared := h.prePrepared

namespace Recorded

/-- The log gets another entry. -/
theorem setEntry
    {s : ℤ} {entry : LogEntry}
    (h : rs.Recorded n digestOf w May)
    (hgrows : Grows rs rs')
    (hlogs : rs'.logs = rs.logs.set s entry)
    (hproposals : ∀ v s d req, rs'.HasSent (.prePrepare v s d req) →
      rs.HasSent (.prePrepare v s d req) ∨ primaryFor v n = rs.id ∧ d = digestOf req)
    (hentry : rs'.Traced n digestOf w s entry)
    (hcommitted : entry.committed = true → May s entry.digest)
    (hexecuted : ∀ x ∈ rs'.executions, x ∈ rs.executions ∨ May x.seq x.digest ∧
      ∃ req, x.digest = digestOf req ∧ x.op = req.op) :
    rs'.Recorded n digestOf w May := by
  constructor
  · rw [hgrows.id]
    exact h.lt
  · intro v s d req hsent
    rw [hgrows.id]
    rcases hproposals v s d req hsent with hold | hnew
    · exact h.proposals v s d req hold
    · exact hnew
  · intro s' e he
    rw [hlogs, Dict.get?_set] at he
    split at he
    case isTrue heq =>
      subst heq
      obtain rfl := Option.some.inj he
      exact hentry
    case isFalse => exact (h.traced s' e he).mono hgrows
  · intro s' e he hc
    rw [hlogs, Dict.get?_set] at he
    split at he
    case isTrue heq =>
      subst heq
      obtain rfl := Option.some.inj he
      exact hcommitted hc
    case isFalse => exact h.committed s' e he hc
  · intro x hx
    rcases hexecuted x hx with hold | hnew
    · exact h.executed x hold
    · exact hnew

/-- The log and the executions stay, and nothing is proposed. -/
theorem keep
    (h : rs.Recorded n digestOf w May)
    (hgrows : Grows rs rs')
    (hlogs : rs'.logs = rs.logs)
    (hexecutions : rs'.executions = rs.executions)
    (hsent : ∀ v s d req, rs'.HasSent (.prePrepare v s d req) →
      rs.HasSent (.prePrepare v s d req)) :
    rs'.Recorded n digestOf w May := by
  constructor
  · rw [hgrows.id]
    exact h.lt
  · intro v s d req hnew
    rw [hgrows.id]
    exact h.proposals v s d req (hsent v s d req hnew)
  · intro s e he
    rw [hlogs] at he
    exact (h.traced s e he).mono hgrows
  · intro s e he
    rw [hlogs] at he
    exact h.committed s e he
  · intro x hx
    rw [hexecutions] at hx
    exact h.executed x hx

/-- The entry for the current view. -/
theorem of_current
    {s : ℤ} {d : String} {entry : LogEntry}
    (h : rs.Recorded n digestOf w May)
    (hcurrent : rs.Current s d entry) :
    rs.Traced n digestOf w s entry ∧
      (entry.view = rs.view ∨ entry.committed = true) ∧
      (entry.committed = true → May s entry.digest) := by
  rcases hcurrent.cases with ⟨rfl, -⟩ | ⟨hget, hview⟩
  · refine ⟨⟨nofun, nofun, fun _ j hj => ?_, nofun⟩, Or.inl rfl, nofun⟩
    cases hj
  · exact ⟨h.traced s entry hget, hview, h.committed s entry hget⟩

/-- A vote does not change the digest of an accepted entry. -/
theorem digest_eq
    {s : ℤ} {d : String} {entry : LogEntry}
    (hdigest : ∀ req, digestOf req ≠ "")
    (htraced : rs.Traced n digestOf w s entry)
    (hloose : entry.digest ≠ d → Loose entry)
    (hpre : entry.prePrepared = true) :
    entry.digest = d := by
  by_contra hne
  rcases hloose hne with hnot | hempty
  · rw [hpre] at hnot
    cases hnot
  · exact hdigest entry.request ((htraced.request hpre).symm.trans hempty)

/-- One effect of a handler. -/
theorem acts
    {P : PBFTMessage → Prop} {Q : ℤ → ℤ → String → Prop}
    (hdigest : ∀ req, digestOf req ≠ "")
    (hprePrepare : ∀ j v s d req, P ⟨j, .prePrepare v s d req⟩ →
      (w j).rs.HasSent (.prePrepare v s d req) ∧ d = digestOf req)
    (hcommit : ∀ j v s d, P ⟨j, .commit v s d⟩ → j < n ∧ (w j).rs.HasSent (.commit v s d))
    (hMay : ∀ s entry, rs.Traced n digestOf w s entry → entry.prePrepared = true →
      entry.committed = false → quorumSize n ≤ entry.commits.card → rs.active = true →
      entry.view = rs.view → May s entry.digest)
    (hact : Acts n digestOf P Loose Q rs rs')
    (h : rs.Recorded n digestOf w May) :
    rs'.Recorded n digestOf w May := by
  have hgrows := hact.grows
  cases hact with
  | quiet hq =>
      exact h.keep hgrows hq.logs hq.executions fun _ _ _ _ => (hasSent_congr hq.id hq.sent).mp
  | suspect =>
      exact h.keep hgrows rfl rfl fun _ _ _ _ hkind =>
        (hasSent_broadcast.mp hkind).resolve_right nofun
  | lead =>
      exact h.keep hgrows rfl rfl fun _ _ _ _ hkind =>
        (hasSent_broadcast.mp hkind).resolve_right nofun
  | follow => exact h.keep hgrows rfl rfl fun _ _ _ _ hkind => hkind
  | @propose req hprimary _ =>
      have hsent : (rs.propose n digestOf req).HasSent
          (.prePrepare rs.view rs.nextSeq (digestOf req) req) :=
        hasSent_broadcast.mpr (Or.inl (hasSent_broadcast.mpr (Or.inr rfl)))
      refine h.setEntry hgrows rfl ?_ ⟨fun _ => ⟨req, Or.inr hsent⟩, fun _ => rfl, ?_, nofun⟩
        nofun fun _ hx => Or.inl hx
      · intro v s d req' hkind
        rcases hasSent_broadcast.mp hkind with hkind | hkind
        · rcases hasSent_broadcast.mp hkind with hold | heq
          · exact Or.inl hold
          · simp only [Kind.prePrepare.injEq] at heq
            obtain ⟨rfl, -, rfl, rfl⟩ := heq
            exact Or.inr ⟨hprimary, rfl⟩
        · cases hkind
      · intro _ j hj
        cases hj
  | @accept s d req entry prepares hP hcurrent hsame _ =>
      obtain ⟨hsent, hd⟩ := hprePrepare _ _ _ _ _ hP
      obtain ⟨htraced, hview, hcommitted⟩ := h.of_current hcurrent
      have htraced' := htraced.mono hgrows
      have hold : entry.committed = true → entry.digest = d := fun hc =>
        hsame (htraced.prePrepared hc)
      refine h.setEntry hgrows rfl ?_ ⟨fun _ => ?_, fun _ => hd, htraced'.votes, fun _ => rfl⟩
        (fun hc => ?_) fun _ hx => Or.inl hx
      · exact fun v s d req' hkind => Or.inl ((hasSent_broadcast.mp hkind).resolve_right nofun)
      · rcases hview with hview | hc
        · refine ⟨req, Or.inl ?_⟩
          change (w (primaryFor entry.view n)).rs.HasSent (.prePrepare entry.view s d req)
          rw [hview]
          exact hsent
        · have hproposed := htraced'.proposed (htraced.prePrepared hc)
          rw [hold hc] at hproposed
          exact hproposed
      · change May s d
        rw [← hold hc]
        exact hcommitted hc
  | @votePrepare s d entry j _ hcurrent hloose =>
      obtain ⟨htraced, -, hcommitted⟩ := h.of_current hcurrent
      have htraced' := htraced.mono hgrows
      have hsame := digest_eq hdigest htraced hloose
      refine h.setEntry hgrows rfl (fun _ _ _ _ hkind => Or.inl hkind)
        ⟨fun hpre => ?_, fun hpre => ?_, htraced'.votes, htraced'.prePrepared⟩ (fun hc => ?_)
        fun _ hx => Or.inl hx
      · have hproposed := htraced'.proposed hpre
        rw [hsame hpre] at hproposed
        exact hproposed
      · rw [← htraced.request hpre]
        exact (hsame hpre).symm
      · change May s d
        rw [← hsame (htraced.prePrepared hc)]
        exact hcommitted hc
  | @voteCommit s d entry j hP hcurrent hloose =>
      obtain ⟨hj, hvote⟩ := hcommit _ _ _ _ hP
      obtain ⟨htraced, hview, hcommitted⟩ := h.of_current hcurrent
      have htraced' := htraced.mono hgrows
      have hsame := digest_eq hdigest htraced hloose
      refine h.setEntry hgrows rfl (fun _ _ _ _ hkind => Or.inl hkind)
        ⟨fun hpre => ?_, fun hpre => ?_, fun hopen i hi => ?_, htraced'.prePrepared⟩
        (fun hc => ?_) fun _ hx => Or.inl hx
      · have hproposed := htraced'.proposed hpre
        rw [hsame hpre] at hproposed
        exact hproposed
      · rw [← htraced.request hpre]
        exact (hsame hpre).symm
      · rcases Finset.mem_insert.mp hi with rfl | hi
        · -- An entry that is not committed belongs to the current view.
          have hview : entry.view = rs.view := hview.resolve_right fun hc =>
            absurd (hopen.symm.trans hc) (by decide)
          refine ⟨hj, Or.inr ⟨d, ?_⟩⟩
          change (w i).rs.HasSent (.commit entry.view s d)
          rw [hview]
          exact hvote
        · exact htraced'.votes hopen i hi
      · change May s d
        rw [← hsame (htraced.prePrepared hc)]
        exact hcommitted hc
  | @fire s entry hget _ _ _ _ _ =>
      have htraced' := (h.traced s entry hget).mono hgrows
      refine h.setEntry hgrows rfl ?_ ⟨htraced'.proposed, htraced'.request, fun hopen i hi => ?_,
        htraced'.prePrepared⟩ (h.committed s entry hget) fun _ hx => Or.inl hx
      · exact fun v s d req' hkind => Or.inl ((hasSent_broadcast.mp hkind).resolve_right nofun)
      · rcases Finset.mem_insert.mp hi with rfl | hi
        · exact ⟨h.lt, Or.inl rfl⟩
        · exact htraced'.votes hopen i hi
  | @commit s entry hget hopen hpre hquorum hactive hview =>
      have htraced := h.traced s entry hget
      have htraced' := htraced.mono hgrows
      exact h.setEntry hgrows rfl (fun _ _ _ _ hkind => Or.inl hkind)
        ⟨htraced'.proposed, htraced'.request, nofun, fun _ => hpre⟩
        (fun _ => hMay s entry htraced hpre hopen hquorum hactive hview) fun _ hx => Or.inl hx
  | @execute entry hget hcommitted =>
      have htraced := h.traced _ entry hget
      have htraced' := htraced.mono hgrows
      refine h.setEntry hgrows rfl (fun _ _ _ _ hkind => Or.inl hkind)
        ⟨htraced'.proposed, htraced'.request, htraced'.votes, htraced'.prePrepared⟩
        (h.committed _ entry hget) fun x hx => ?_
      rcases List.mem_append.mp hx with hx | hx
      · exact Or.inl hx
      · obtain rfl := List.mem_singleton.mp hx
        exact Or.inr ⟨h.committed _ entry hget hcommitted, entry.request,
          htraced.request (htraced.prePrepared hcommitted), rfl⟩

/-- A whole handler. -/
theorem runs
    {P : PBFTMessage → Prop} {Q : ℤ → ℤ → String → Prop}
    (hdigest : ∀ req, digestOf req ≠ "")
    (hprePrepare : ∀ j v s d req, P ⟨j, .prePrepare v s d req⟩ →
      (w j).rs.HasSent (.prePrepare v s d req) ∧ d = digestOf req)
    (hcommit : ∀ j v s d, P ⟨j, .commit v s d⟩ → j < n ∧ (w j).rs.HasSent (.commit v s d))
    (hMay : ∀ rs₁, Runs n digestOf P Loose Q rs rs₁ → rs₁.Recorded n digestOf w May →
      ∀ s entry, rs₁.Traced n digestOf w s entry → entry.prePrepared = true →
        entry.committed = false → quorumSize n ≤ entry.commits.card → rs₁.active = true →
        entry.view = rs₁.view → May s entry.digest)
    (hruns : Runs n digestOf P Loose Q rs rs')
    (h : rs.Recorded n digestOf w May) :
    rs'.Recorded n digestOf w May := by
  induction hruns with
  | refl => exact h
  | @tail rs₁ rs₂ hruns₁ hact ih =>
      exact acts hdigest hprePrepare hcommit (hMay rs₁ hruns₁ ih) hact ih

theorem mono
    {May' : ℤ → String → Prop}
    (hext : Nodes.Extends (fun x y : Replica => Grows x.rs y.rs) w w')
    (hMay : ∀ s d, May s d → May' s d)
    (h : rs.Recorded n digestOf w May) :
    rs.Recorded n digestOf w' May' where
  lt := h.lt
  proposals := h.proposals
  traced s entry hget := by
    have htraced := h.traced s entry hget
    refine ⟨fun hpre => ?_, htraced.request, fun hopen j hj => ?_, htraced.prePrepared⟩
    · obtain ⟨req, hsent⟩ := htraced.proposed hpre
      exact ⟨req, hsent.imp_left (hext _).hasSent⟩
    · obtain ⟨hlt, hvote⟩ := htraced.votes hopen j hj
      exact ⟨hlt, hvote.imp_right fun ⟨d, hsent⟩ => ⟨d, (hext j).hasSent hsent⟩⟩
  committed s entry hget hc := hMay _ _ (h.committed s entry hget hc)
  executed x hx := ⟨hMay _ _ (h.executed x hx).1, (h.executed x hx).2⟩

end Recorded

/-- Joining a view change leaves the log and the executions. -/
theorem joinViewChange_logs (sender : ℕ) (nv : ℤ) (pending : Option ClientRequest)
    (rs : RunState) :
    (rs.joinViewChange n sender nv pending).logs = rs.logs ∧
      (rs.joinViewChange n sender nv pending).executions = rs.executions := by
  have hrest : ∀ rs₁ : RunState,
      (if nv > rs₁.view ∧ weakQuorumSize n ≤ (rs₁.votesFor nv).length ∧
          rs₁.id ∉ rs₁.votesFor nv then rs₁.sendViewChange n nv else rs₁).logs = rs₁.logs ∧
        (if nv > rs₁.view ∧ weakQuorumSize n ≤ (rs₁.votesFor nv).length ∧
          rs₁.id ∉ rs₁.votesFor nv then rs₁.sendViewChange n nv else rs₁).executions =
            rs₁.executions := by
    intro rs₁
    split <;> exact ⟨rfl, rfl⟩
  exact hrest { rs.castViewChangeVote nv sender with
    pendingRequest := if rs.pendingRequest = none then pending else rs.pendingRequest }

/-- A replica that proposes only proposes. -/
theorem receive_of_proposal
    {m : PBFTMessage} {v s : ℤ} {d : String}
    (h : rs.proposal n digestOf m = some (v, s, d)) :
    ∃ entry, (rs.receive n digestOf m).logs = rs.logs.set s entry ∧ entry.committed = false ∧
      (rs.receive n digestOf m).executions = rs.executions ∧
      (rs.receive n digestOf m).view = v := by
  obtain ⟨sender, kind⟩ := m
  cases kind with
  | request req =>
      simp only [proposal] at h
      split at h
      case isTrue hprimary =>
        simp only [Option.some.injEq, Prod.mk.injEq] at h
        obtain ⟨rfl, rfl, rfl⟩ := h
        obtain ⟨hactive, hprimary⟩ := hprimary
        have hhandle : rs.handleClientRequest n digestOf req = (({ rs with
            pendingRequest := if rs.pendingRequest = none then some req else rs.pendingRequest } :
              RunState).propose n digestOf req).resetTimer := by
          unfold handleClientRequest
          dsimp only
          rw [if_neg (by simp [hactive]), if_neg (by simpa [isPrimary, primary] using hprimary)]
        change ∃ entry, (rs.handleClientRequest n digestOf req).logs = _ ∧ _ ∧
          (rs.handleClientRequest n digestOf req).executions = _ ∧
          (rs.handleClientRequest n digestOf req).view = _
        rw [hhandle]
        exact ⟨_, rfl, rfl, rfl, rfl⟩
      case isFalse => cases h
  | viewChange nv lastExecuted pending =>
      simp only [proposal] at h
      split at h
      case isTrue hcompletes =>
        rw [Option.map_eq_some_iff] at h
        obtain ⟨req, hreq, heq⟩ := h
        simp only [Prod.mk.injEq] at heq
        obtain ⟨rfl, rfl, rfl⟩ := heq
        obtain ⟨hlogs, hexecutions⟩ := @joinViewChange_logs n sender nv pending rs
        have hhandle : rs.handleViewChange n digestOf sender nv pending =
            ((((rs.joinViewChange n sender nv pending).enterView nv).broadcast (List.range n)
              (.newView nv (sortedProcessIDs (((rs.joinViewChange n sender nv pending).enterView
                nv).votesFor nv)))).propose n digestOf req).resetTimer := by
          have hpending : ((rs.joinViewChange n sender nv pending).enterView nv).pendingRequest
              = some req := hreq
          unfold handleViewChange completeViewChange
          dsimp only [broadcast]
          rw [if_pos hcompletes, hpending]
        change ∃ entry, (rs.handleViewChange n digestOf sender nv pending).logs = _ ∧ _ ∧
          (rs.handleViewChange n digestOf sender nv pending).executions = _ ∧
          (rs.handleViewChange n digestOf sender nv pending).view = _
        rw [hhandle, ← hlogs, ← hexecutions]
        exact ⟨_, rfl, rfl, rfl, rfl⟩
      case isFalse => cases h
  | prePrepare | prepare | commit | newView => cases h

end RunState

namespace Cluster

open RunState

variable {n : ℕ} {digestOf : ClientRequest → String} {w : Cluster} {i : ℕ} {e : Event}

section Effective

/-- A replica has committed or executed the digest at the sequence number. -/
def Settled (n : ℕ) (w : Cluster) (s : ℤ) (d : String) : Prop :=
  ∃ j < n, (∃ x ∈ (w j).rs.executions, x.seq = s ∧ x.digest = d) ∨
    ∃ entry, (w j).rs.logs.get? s = some entry ∧ entry.committed = true ∧ entry.digest = d

/-- The digest was proposed in the view, and replicas that `may` act in the view can still
commit it, together with the COMMITs that were sent. -/
def Committable (n : ℕ) (w : Cluster) (may : ℤ → ℕ → Prop) (v s : ℤ) (d : String) : Prop :=
  (∃ req, (w (primaryFor v n)).rs.HasSent (.prePrepare v s d req)) ∧ (∃ k < n, may v k) ∧
    ∃ A ⊆ Finset.range n, quorumSize n ≤ A.card ∧
      ∀ j ∈ A, (∃ d', (w j).rs.HasSent (.commit v s d')) ∨ may v j

/-- The digest is or may still be executed at the sequence number. -/
def Effective (n : ℕ) (w : Cluster) (s : ℤ) (d : String) : Prop :=
  w.Settled n s d ∨ ∃ v, w.Committable n (w.MayAct n) v s d

/-- The replica may act in the view `v'` after the replica `i` has entered the view `v`. -/
def MayActOnceIn (n : ℕ) (w : Cluster) (i : ℕ) (v v' : ℤ) (k : ℕ) : Prop :=
  w.MayAct n v' k ∧ (k = i → v ≤ v')

/-- A digest is proposed only when no replica has committed it at another sequence number
or can still do so after an earlier proposal. -/
def ProposesOnce (n : ℕ) (digestOf : ClientRequest → String) (w : Cluster) (l : ℕ × Event) :
    Prop :=
  ∀ v s d, w.Proposing n digestOf l.1 l.2 v s d → ∀ s' ≠ s, ¬ w.Settled n s' d ∧
    ∀ v', ¬ w.Committable n (w.MayActOnceIn n l.1 v) v' s' d

theorem Committable.mono
    {may may' : ℤ → ℕ → Prop} {v s : ℤ} {d : String}
    (hmay : ∀ v k, may v k → may' v k)
    (h : w.Committable n may v s d) :
    w.Committable n may' v s d := by
  obtain ⟨hproposed, ⟨k, hk, hacts⟩, A, hA, hcard, hvotes⟩ := h
  exact ⟨hproposed, ⟨k, hk, hmay v k hacts⟩, A, hA, hcard,
    fun j hj => (hvotes j hj).imp_right (hmay v j)⟩

end Effective

section Steps

theorem react_rs
    {m : PBFTMessage}
    (hid : (w i).rs.id = i)
    (hmessage : e.message i = some m) :
    ((w i).react n digestOf e).rs = (w i).rs.receive n digestOf m := by
  cases e with
  | request req =>
      obtain rfl := Option.some.inj hmessage
      change (w i).rs.receive n digestOf ⟨(w i).rs.id, .request req⟩ = _
      rw [hid]
  | deliver | forge =>
      obtain rfl := Option.some.inj hmessage
      rfl
  | timeout => cases hmessage

/-- A whole event. -/
theorem recorded_of_react
    {May : ℤ → String → Prop} {Q : ℤ → ℤ → String → Prop}
    (hdigest : ∀ req, digestOf req ≠ "")
    (hsteady : ∀ j, w.Steady n j)
    (hw : ∀ j, j < n → (w j).rs.Recorded n digestOf w fun _ _ => True)
    (hready : w.Ready n i e)
    (hQ : ∀ v s d, w.Proposing n digestOf i e v s d → Q v s d)
    (hMay : ∀ rs, Runs n digestOf (w.Brings i e) Loose Q (w i).rs rs →
      ∀ s entry, rs.Traced n digestOf w s entry → entry.prePrepared = true →
        entry.committed = false → quorumSize n ≤ entry.commits.card → rs.active = true →
        entry.view = rs.view → May s entry.digest)
    (h : (w i).rs.Recorded n digestOf w May) :
    ((w i).react n digestOf e).rs.Recorded n digestOf w May := by
  have hsent : ∀ j kind, w.Brings i e ⟨j, kind⟩ → j < n ∧ (w j).rs.HasSent kind := by
    rintro j kind ⟨-, b, hb, hmsg, -⟩
    exact ⟨(hsteady j).lt (List.ne_nil_of_mem hb), b, hb, by rw [(hsteady j).id]; exact hmsg⟩
  refine Recorded.runs hdigest ?_ (fun j v s d => hsent j _)
    (fun rs hruns _ => hMay rs hruns)
    (react_runs (hsteady i).id hready (fun _ _ _ h => loose_of_rewritten h)
      fun m hm _ _ _ h => hQ _ _ _ ⟨m, hm, h⟩) h
  intro j v s d req hbrings
  obtain ⟨hj, hpre⟩ := hsent j _ hbrings
  exact ⟨hpre, ((hw j hj).proposals v s d req hpre).2⟩

theorem recorded
    {ok : Cluster → ℕ × Event → Prop}
    (hdigest : ∀ req, digestOf req ≠ "")
    (hreach : (ensemble n digestOf).Reachable ok w)
    (hi : i < n) :
    (w i).rs.Recorded n digestOf w fun _ _ => True := by
  refine Nodes.reachable_invariant (N := replicas n digestOf)
    (R := fun x y => Grows x.rs y.rs)
    (I := fun w i => i < n → (w i).rs.Recorded n digestOf w fun _ _ => True)
    (fun x => Grows.refl x.rs) ?_ ?_ ?_ hreach i hi
  · intro i hi
    refine ⟨hi, ?_, nofun, nofun, nofun⟩
    rintro v s d req ⟨b, hb, -⟩
    cases hb
  · intro w i e hreach hw _ hready
    have hsteady := steady hreach
    refine ⟨react_grows (hsteady i).id hready, fun hext _ => ?_⟩
    rw [Function.update_self]
    exact (recorded_of_react (Q := fun _ _ _ => True) hdigest hsteady hw hready
      (fun _ _ _ _ => trivial) (fun _ _ _ _ _ _ _ _ _ _ => trivial) (hw i hready.lt)).mono hext
      fun _ _ h => h
  · intro w w' i hext heq hw hi
    rw [heq]
    exact (hw hi).mono hext fun _ _ h => h

/-- What becomes committed could be committed before. -/
theorem settled_of_next
    {s : ℤ} {d : String}
    (hdigest : ∀ req, digestOf req ≠ "")
    (hsteady : ∀ j, w.Steady n j)
    (hw : ∀ j, j < n → (w j).rs.Recorded n digestOf w fun _ _ => True)
    (hready : w.Ready n i e)
    (hnone : ∀ v s d, ¬ w.Proposing n digestOf i e v s d)
    (h : (w.next n digestOf i e).Settled n s d) :
    w.Effective n s d := by
  obtain ⟨j, hj, h⟩ := h
  by_cases hji : j = i
  · subst hji
    have hstart : (w j).rs.Recorded n digestOf w (w.Effective n) := by
      have hold := hw j hj
      exact ⟨hold.lt, hold.proposals, hold.traced,
        fun s entry hget hc => Or.inl ⟨j, hj, Or.inr ⟨entry, hget, hc, rfl⟩⟩,
        fun x hx => ⟨Or.inl ⟨j, hj, Or.inl ⟨x, hx, rfl, rfl⟩⟩, (hold.executed x hx).2⟩⟩
    have hend := recorded_of_react (Q := fun _ _ _ => False) hdigest hsteady hw hready hnone ?_
      hstart
    · rw [next, Function.update_self] at h
      rcases h with ⟨x, hx, rfl, rfl⟩ | ⟨entry, hget, hc, rfl⟩
      · exact (hend.executed x hx).1
      · exact hend.committed s entry hget hc
    -- An entry is committed in the view in which the replica is active.
    intro rs hruns s entry htraced hpre hopen hquorum hactive hview
    have hcourse := hruns.course
    have hacts : w.MayAct n entry.view j := by
      rw [hview]
      rcases hcourse.view_le.lt_or_eq with hlt | heq
      · exact Or.inl hlt
      · refine Or.inr ⟨heq, ?_⟩
        rcases hcourse.active hactive with hold | hlt | ⟨proofs, hbrings⟩
        · exact Or.inl hold
        · omega
        · exact Or.inr (awaits_of_brings hready hbrings)
    refine Or.inr ⟨entry.view, ?_, ⟨j, hj, hacts⟩, entry.commits,
      fun k hk => Finset.mem_range.mpr (htraced.votes hopen k hk).1, hquorum, fun k hk => ?_⟩
    · obtain ⟨req, hsent | hsent⟩ := htraced.proposed hpre
      · exact ⟨req, hsent⟩
      · -- Nothing has been proposed by the handler itself.
        obtain ⟨b, hb, hmsg⟩ := hsent
        obtain ⟨extra, hextra, hallowed⟩ := hcourse.sent
        rw [hcourse.id] at hmsg
        rw [hextra] at hb
        rcases List.mem_append.mp hb with hb | hb
        · have hold : (w j).rs.HasSent (.prePrepare entry.view s entry.digest req) :=
            ⟨b, hb, hmsg⟩
          have hprimary := ((hw j hj).proposals _ _ _ _ hold).1
          rw [(hsteady j).id] at hprimary
          rw [hprimary]
          exact ⟨req, hold⟩
        · have hkind := (hallowed b hb).2
          rw [hmsg] at hkind
          exact hkind.1.elim
    · rcases (htraced.votes hopen k hk).2 with hself | hsent
      · rw [hcourse.id, (hsteady j).id] at hself
        rw [hself]
        exact Or.inr hacts
      · exact Or.inl hsent
  · rw [next, Function.update_of_ne hji] at h
    exact Or.inl ⟨j, hj, h⟩

/-- A proposal commits nothing. -/
theorem settled_of_proposing
    {v s s' : ℤ} {d d' : String}
    (hid : (w i).rs.id = i)
    (hproposing : w.Proposing n digestOf i e v s d)
    (h : (w.next n digestOf i e).Settled n s' d') :
    w.Settled n s' d' := by
  obtain ⟨j, hj, h⟩ := h
  refine ⟨j, hj, ?_⟩
  by_cases hji : j = i
  · subst hji
    obtain ⟨m, hmessage, hproposal⟩ := hproposing
    obtain ⟨entry, hlogs, hopen, hexecutions, -⟩ := receive_of_proposal hproposal
    rw [next, Function.update_self, react_rs hid hmessage, hlogs, hexecutions] at h
    refine h.imp_right ?_
    rintro ⟨entry', hget, hc, hd⟩
    rw [Dict.get?_set] at hget
    split at hget
    case isTrue =>
      obtain rfl := Option.some.inj hget
      rw [hopen] at hc
      cases hc
    case isFalse => exact ⟨entry', hget, hc, hd⟩
  · rwa [next, Function.update_of_ne hji] at h

/-- What can be committed after the event could be committed before, or is proposed. -/
theorem committable_of_next
    {may may' : ℤ → ℕ → Prop} {v s : ℤ} {d : String}
    (hid : (w i).rs.id = i)
    (hready : w.Ready n i e)
    (hmay : ∀ v k, may' v k → may v k)
    (hcommit : ∀ j d', (w.next n digestOf i e j).rs.HasSent (.commit v s d') →
      (w j).rs.HasSent (.commit v s d') ∨ may v j)
    (h : (w.next n digestOf i e).Committable n may' v s d) :
    w.Committable n may v s d ∨ w.Proposing n digestOf i e v s d := by
  obtain ⟨⟨req, hsent⟩, ⟨k, hk, hacts⟩, A, hA, hcard, hvotes⟩ := h
  have hrest : (∃ req, (w (primaryFor v n)).rs.HasSent (.prePrepare v s d req)) →
      w.Committable n may v s d := by
    refine fun hproposed => ⟨hproposed, ⟨k, hk, hmay v k hacts⟩, A, hA, hcard, fun j hj => ?_⟩
    rcases hvotes j hj with ⟨d', hsent⟩ | hacts
    · exact (hcommit j d' hsent).imp_left fun hold => ⟨d', hold⟩
    · exact Or.inr (hmay v j hacts)
  by_cases hp : primaryFor v n = i
  · rw [hp, next, Function.update_self] at hsent
    have hcourse := react_course digestOf hid hready
    obtain ⟨b, hb, hmsg⟩ := hsent
    obtain ⟨extra, hextra, hallowed⟩ := hcourse.sent
    rw [hcourse.id] at hmsg
    rw [hextra] at hb
    rcases List.mem_append.mp hb with hb | hb
    · refine Or.inl (hrest ⟨req, ?_⟩)
      rw [hp]
      exact ⟨b, hb, hmsg⟩
    · have hkind := (hallowed b hb).2
      rw [hmsg] at hkind
      exact Or.inr hkind.1
  · rw [next, Function.update_of_ne hp] at hsent
    exact Or.inl (hrest ⟨req, hsent⟩)

end Steps

section Once

theorem proposing_unique
    {v v' s s' : ℤ} {d d' : String}
    (h : w.Proposing n digestOf i e v s d)
    (h' : w.Proposing n digestOf i e v' s' d') :
    s = s' ∧ d = d' := by
  obtain ⟨m, hm, hproposal⟩ := h
  obtain ⟨m', hm', hproposal'⟩ := h'
  obtain rfl := Option.some.inj (hm.symm.trans hm')
  have heq := hproposal.symm.trans hproposal'
  simp only [Option.some.injEq, Prod.mk.injEq] at heq
  exact heq.2

/-- Without a proposal nothing becomes effective. -/
theorem effective_of_next
    {s : ℤ} {d : String}
    (hdigest : ∀ req, digestOf req ≠ "")
    (hsteady : ∀ j, w.Steady n j)
    (hw : ∀ j, j < n → (w j).rs.Recorded n digestOf w fun _ _ => True)
    (hready : w.Ready n i e)
    (hnone : ∀ v s d, ¬ w.Proposing n digestOf i e v s d)
    (h : (w.next n digestOf i e).Effective n s d) :
    w.Effective n s d := by
  rcases h with hsettled | ⟨v, hcommittable⟩
  · exact settled_of_next hdigest hsteady hw hready hnone hsettled
  · have hback := committable_of_next (hsteady i).id hready
      (fun v k hk => mayAct_of_next hsteady hready hk)
      (fun j d' hsent => commit_of_next (hsteady i).id hready hsent) hcommittable
    exact Or.inr ⟨v, hback.resolve_right (hnone v s d)⟩

/-- With a proposal only the proposed digest becomes effective, and replicas act in the
earlier views only without the one that proposes. -/
theorem effective_of_proposing
    {v₀ s₀ s : ℤ} {d₀ d : String}
    (hsteady : ∀ j, w.Steady n j)
    (hready : w.Ready n i e)
    (hproposing : w.Proposing n digestOf i e v₀ s₀ d₀)
    (h : (w.next n digestOf i e).Effective n s d) :
    (w.Settled n s d ∨ ∃ v, w.Committable n (w.MayActOnceIn n i v₀) v s d) ∨
      s₀ = s ∧ d₀ = d := by
  have hid := (hsteady i).id
  rcases h with hsettled | ⟨v, hcommittable⟩
  · exact Or.inl (Or.inl (settled_of_proposing hid hproposing hsettled))
  · obtain ⟨m, hmessage, hproposal⟩ := hproposing
    obtain ⟨-, -, -, -, hview⟩ := receive_of_proposal hproposal
    have hrs := @react_rs n digestOf w i e m hid hmessage
    have hmay : ∀ v' k, (w.next n digestOf i e).MayAct n v' k → w.MayActOnceIn n i v₀ v' k := by
      intro v' k hk
      refine ⟨mayAct_of_next hsteady hready hk, ?_⟩
      rintro rfl
      unfold MayAct at hk
      rw [next, Function.update_self, hrs, hview] at hk
      rcases hk with hlt | ⟨heq, -⟩ <;> omega
    have hcommit : ∀ j d', (w.next n digestOf i e j).rs.HasSent (.commit v s d') →
        (w j).rs.HasSent (.commit v s d') ∨ w.MayActOnceIn n i v₀ v j := by
      -- A REQUEST or a VIEW-CHANGE is answered by no COMMIT.
      intro j d' hsent
      left
      by_cases hj : j = i
      · subst hj
        rw [next, Function.update_self, hrs] at hsent
        rcases commit_of_receive hsent with hold | ⟨-, -, hkind | ⟨req, hkind⟩⟩
        · exact hold
        · simp [proposal, hkind] at hproposal
        · simp [proposal, hkind] at hproposal
      · rwa [next, Function.update_of_ne hj] at hsent
    rcases committable_of_next hid hready hmay hcommit hcommittable with hback | hnew
    · exact Or.inl (Or.inr ⟨v, hback⟩)
    · exact Or.inr (proposing_unique ⟨m, hmessage, hproposal⟩ hnew)

/-- A digest is effective at one sequence number. -/
theorem effective_unique
    (hdigest : ∀ req, digestOf req ≠ "")
    (hreach : (ensemble n digestOf).Reachable (ProposesOnce n digestOf) w)
    {s s' : ℤ} {d : String}
    (h : w.Effective n s d)
    (h' : w.Effective n s' d) :
    s = s' := by
  refine System.Reachable.invariant (I := fun w : Cluster => ∀ s s' d, w.Effective n s d →
    w.Effective n s' d → s = s') ?_ ?_ hreach s s' d h h'
  · intro s s' d h
    rcases h with ⟨j, -, ⟨x, hx, -⟩ | ⟨entry, hget, -⟩⟩ | ⟨v, ⟨req, b, hb, -⟩, -⟩
    · cases hx
    · cases hget
    · cases hb
  · rintro w ⟨i, e⟩ w' hreach hw hok hstep s s' d h h'
    obtain ⟨hready, rfl⟩ := Nodes.step_spec hstep
    have hsteady := steady hreach
    change (w.next n digestOf i e).Effective n s d at h
    change (w.next n digestOf i e).Effective n s' d at h'
    by_cases hproposes : ∃ v₀ s₀ d₀, w.Proposing n digestOf i e v₀ s₀ d₀
    · obtain ⟨v₀, s₀, d₀, hproposing⟩ := hproposes
      have hold : ∀ s, w.Settled n s d ∨ (∃ v, w.Committable n (w.MayActOnceIn n i v₀) v s d) →
          w.Effective n s d := fun s =>
        Or.imp_right fun ⟨v, hv⟩ => ⟨v, hv.mono fun _ _ hk => hk.1⟩
      have hother : ∀ s, d₀ = d → w.Settled n s d ∨
          (∃ v, w.Committable n (w.MayActOnceIn n i v₀) v s d) → s₀ = s := by
        rintro s rfl hback
        by_contra hne
        obtain ⟨hsettled, hcommittable⟩ := hok v₀ s₀ d₀ hproposing s (Ne.symm hne)
        rcases hback with hback | ⟨v, hback⟩
        · exact hsettled hback
        · exact hcommittable v hback
      rcases effective_of_proposing hsteady hready hproposing h with hback | ⟨rfl, rfl⟩
      · rcases effective_of_proposing hsteady hready hproposing h' with hback' | ⟨rfl, rfl⟩
        · exact hw s s' d (hold s hback) (hold s' hback')
        · exact (hother s rfl hback).symm
      · rcases effective_of_proposing hsteady hready hproposing h' with hback' | ⟨rfl, -⟩
        · exact hother s' rfl hback'
        · rfl
    · push Not at hproposes
      have hrecorded : ∀ j, j < n → (w j).rs.Recorded n digestOf w fun _ _ => True :=
        fun j hj => recorded hdigest hreach hj
      exact hw s s' d (effective_of_next hdigest hsteady hrecorded hready hproposes h)
        (effective_of_next hdigest hsteady hrecorded hready hproposes h')

/-- A replica executes a request at one sequence number, when the request is proposed again
only after its earlier proposals have become ineffective. -/
theorem executes_once
    (hdigest : ∀ req, digestOf req ≠ "")
    (hreach : (ensemble n digestOf).Reachable (ProposesOnce n digestOf) w)
    {i : ℕ} {s s' : ℤ} {req : ClientRequest}
    (hi : i < n)
    (h : (w i).rs.HasExecuted digestOf s req)
    (h' : (w i).rs.HasExecuted digestOf s' req) :
    s = s' :=
  effective_unique hdigest hreach (Or.inl ⟨i, hi, Or.inl ⟨_, h, rfl, rfl⟩⟩)
    (Or.inl ⟨i, hi, Or.inl ⟨_, h', rfl, rfl⟩⟩)

end Once

section Runs

/-- The text that `Digest` hashes. -/
def rawDigest (req : ClientRequest) : String :=
  req.clientId ++ "|" ++ req.op ++ "|" ++ toString req.timestamp

theorem rawDigest_ne (req : ClientRequest) : rawDigest req ≠ "" := by
  intro h
  have hlength := congrArg String.length h
  simp [rawDigest] at hlength

/-- The proposal of the `k`-th sequence number reaches two replicas, and each of the three
hears the PREPAREs of the others. -/
def prepares (k : ℕ) : List (ℕ × Event) :=
  let prepare (p i : ℕ) : Event := arrival p i (.prepare 0 (k + 1) (rawDigest requestA))
  [1, 2].map (fun i => (i, arrival (2 * k) 0
      (.prePrepare 0 (k + 1) (rawDigest requestA) requestA))) ++
    [(0, prepare (2 * k) 1), (0, prepare (2 * k) 2), (1, prepare (2 * k + 1) 0),
      (1, prepare (2 * k) 2), (2, prepare (2 * k + 1) 0), (2, prepare (2 * k) 1)]

/-- Two COMMITs for it reach replica 0. -/
def commits (k : ℕ) : List (ℕ × Event) :=
  [1, 2].map fun i => (0, arrival (2 * k + 1) i (.commit 0 (k + 1) (rawDigest requestA)))

/-- The first request of a run. -/
theorem proposesOnce_init (req : ClientRequest) :
    ProposesOnce n digestOf (ensemble n digestOf).init (0, .request req) := by
  rintro v s d - s' -
  refine ⟨?_, ?_⟩
  · rintro ⟨j, -, ⟨x, hx, -⟩ | ⟨entry, hget, -⟩⟩
    · cases hx
    · cases hget
  · rintro v' ⟨⟨req', b, hb, -⟩, -⟩
    cases hb

/-- The event makes no proposal. -/
def Silent (n : ℕ) (digestOf : ClientRequest → String) (w : Cluster) (l : ℕ × Event) : Prop :=
  ∀ m ∈ l.2.message l.1, (w l.1).rs.proposal n digestOf m = none

instance (w : Cluster) (l : ℕ × Event) : Decidable (w.Silent n digestOf l) :=
  inferInstanceAs (Decidable (∀ m ∈ l.2.message l.1, _))

theorem proposesOnce_of_silent
    {l : ℕ × Event}
    (h : w.Silent n digestOf l) :
    w.ProposesOnce n digestOf l := by
  rintro v s d ⟨m, hm, hproposal⟩
  rw [h m hm] at hproposal
  cases hproposal

/-- The request is executed at sequence number 1 only. -/
theorem executes_once_four :
    ∃ w, (ensemble 4 rawDigest).Reachable (ProposesOnce 4 rawDigest) w ∧
      (w 0).rs.HasExecuted rawDigest 1 requestA ∧
      ∀ s, (w 0).rs.HasExecuted rawDigest s requestA → s = 1 := by
  have hstep : (ensemble 4 rawDigest).step (ensemble 4 rawDigest).init (0, .request requestA) =
      some (next 4 rawDigest (ensemble 4 rawDigest).init 0 (.request requestA)) :=
    Nodes.step_of_enabled (show 0 < 4 by decide)
  have hfirst : (ensemble 4 rawDigest).Reachable (ProposesOnce 4 rawDigest)
      (next 4 rawDigest (ensemble 4 rawDigest).init 0 (.request requestA)) :=
    System.Reaches.tail (System.Reaches.refl _) (proposesOnce_init requestA) hstep
  obtain ⟨w, hreach, h⟩ : ∃ w, System.Reaches (ensemble 4 rawDigest) (Silent 4 rawDigest)
      (next 4 rawDigest (ensemble 4 rawDigest).init 0 (.request requestA)) w ∧
      (w 0).rs.HasExecuted rawDigest 1 requestA := by
    refine System.exists_reaches_of_exec (prepares 0 ++ commits 0) ?_
    decide +kernel
  have hreach' := hfirst.trans (hreach.mono fun w l => proposesOnce_of_silent)
  exact ⟨w, hreach', h, fun s hs => executes_once rawDigest_ne hreach' (by decide) hs h⟩

/-- The primary receives a request twice, and replica 0 executes it twice. -/
theorem executes_twice :
    ∃ w, (ensemble 4 rawDigest).Reachable System.anyStep w ∧
      (w 0).rs.HasExecuted rawDigest 1 requestA ∧ (w 0).rs.HasExecuted rawDigest 2 requestA := by
  refine System.exists_reaches_of_exec ([(0, .request requestA), (0, .request requestA)] ++
    prepares 0 ++ prepares 1 ++ commits 0 ++ commits 1) ?_
  decide +kernel

end Runs

end Cluster

end GoPbft
end DistributedConsensus
