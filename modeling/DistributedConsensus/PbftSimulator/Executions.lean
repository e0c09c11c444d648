import DistributedConsensus.PbftSimulator.AcrossViews

/-!
# PBFT simulator: one sequence number for a request

With correct nodes only, everything that a node accepts, reports and commits goes
back to a PRE-PREPARE for the sequence number and the digest.  A view change keeps
these pairs; only a primary that numbers a request adds one.  So a digest keeps one
sequence number as long as no primary numbers it again.
-/

namespace DistributedConsensus
namespace PbftSimulator

open Foundations

namespace Node

variable {c : Config} {X : Defect → Prop} {e : Option Message} {K K' : Message → Prop}
  {n n' : Node} {s s' : Stage} {u v q : ℤ} {d : String}

/-! ## Pairs that are assigned -/

/-- A PRE-PREPARE assigns the sequence number to the digest. -/
def Assigned (K : Message → Prop) (n : Node) (q : ℤ) (d : String) : Prop :=
  ∃ m, n.Known K (.prePrepare m) ∧ m.sequence = q ∧ m.digest = d

theorem Assigned.acts (hact : Acts c X e s s') (h : s.node.Assigned K q d) :
    s'.node.Assigned K q d := by
  obtain ⟨m, hknown, hm⟩ := h
  exact ⟨m, hknown.acts hact, hm⟩

theorem Assigned.imp (hK : ∀ m, K m → K' m) (h : n.Assigned K q d) : n.Assigned K' q d := by
  obtain ⟨m, hknown, hm⟩ := h
  exact ⟨m, hknown.imp (hK _), hm⟩

/-- The received NEW-VIEW and VIEW-CHANGE messages mention assigned pairs only. -/
structure Trusted (K : Message → Prop) (n : Node) : Prop where
  newViews : ∀ m, K (.newView m) → ∀ x ∈ m.xSet, x.digest ≠ "null" →
    n.Assigned K x.sequence x.digest
  viewChanges : ∀ vc, K (.viewChange vc) → ∀ p ∈ vc.pSet, n.Assigned K p.sequence p.digest

theorem Trusted.acts (hact : Acts c X e s s') (h : s.node.Trusted K) : s'.node.Trusted K where
  newViews m hm x hx hdigest := (h.newViews m hm x hx hdigest).acts hact
  viewChanges vc hvc p hp := (h.viewChanges vc hvc p hp).acts hact

/-- What a node has accepted, reported and committed is assigned. -/
structure Traced (K : Message → Prop) (s : Stage) : Prop where
  received : ∀ q d, s.node.prePrepareReceived.get? q = some d → s.node.Assigned K q d
  entries : ∀ x ∈ s.rest, x.digest ≠ "null" → s.node.Assigned K x.sequence x.digest
  newViews : ∀ m, s.node.HasSent (.newView m) → ∀ x ∈ m.xSet, x.digest ≠ "null" →
    s.node.Assigned K x.sequence x.digest
  viewChanges : ∀ vc, s.node.HasSent (.viewChange vc) → vc.senderID = s.node.id →
    ∀ p ∈ vc.pSet, s.node.Assigned K p.sequence p.digest
  flagged : ∀ q, s.node.preparedSent.get? q = some true →
    ∃ d, s.node.prePrepareReceived.get? q = some d
  log : ∀ q d, (q, d) ∈ s.node.log → s.node.Assigned K q d

theorem traced_new (id : ℤ) (clients : Finset ℤ) : Traced K ⟨Node.new id clients, []⟩ where
  received _ _ h := by cases h
  entries _ h := absurd h List.not_mem_nil
  newViews _ h := by
    obtain ⟨_, hp, -⟩ := h
    cases hp
  viewChanges _ h := by
    obtain ⟨_, hp, -⟩ := h
    cases hp
  flagged _ h := by cases h
  log _ _ h := absurd h List.not_mem_nil

theorem Traced.imp (hK : ∀ m, K m → K' m) (h : Traced K s) : Traced K' s where
  received q d hd := (h.received q d hd).imp hK
  entries x hx hdigest := (h.entries x hx hdigest).imp hK
  newViews m hm x hx hdigest := (h.newViews m hm x hx hdigest).imp hK
  viewChanges vc hvc hself p hp := (h.viewChanges vc hvc hself p hp).imp hK
  flagged := h.flagged
  log q d hd := (h.log q d hd).imp hK

/-! ## What is new after an effect -/

/-- A digest that is newly accepted: the node assigns it, a PRE-PREPARE has arrived,
or the X set has an entry. -/
theorem Acts.new_received
    (hact : Acts c X e s s')
    (h : s'.node.prePrepareReceived.get? q = some d) :
    s.node.prePrepareReceived.get? q = some d ∨
      (∃ m, s'.node.HasSent (.prePrepare m) ∧ m.senderID = s.node.id ∧ m.sequence = q ∧
        m.digest = d) ∨
      (∃ m, e = some (.prePrepare m) ∧ m.sequence = q ∧ m.digest = d) ∨
        ∃ x ∈ s.rest, x.sequence = q ∧ x.digest = d ∧ d ≠ "null" := by
  have hset : ∀ {q' : ℤ} {d' : String},
      (s.node.prePrepareReceived.set q' d').get? q = some d →
        s.node.prePrepareReceived.get? q = some d ∨ q' = q ∧ d' = d := by
    intro q' d' hget
    rw [Dict.get?_set] at hget
    split at hget
    case isTrue hq => exact Or.inr ⟨hq.symm, Option.some.inj hget⟩
    case isFalse => exact Or.inl hget
  cases hact with
  | quiet hq =>
      obtain ⟨_, _, _, _, _, _, rfl⟩ := hq
      exact Or.inl h
  | @propose n m _ _ _ _ =>
      refine (hset h).imp_right fun ⟨hq, hd⟩ => Or.inl ?_
      exact ⟨_, ⟨_, List.mem_append_right _ (List.mem_singleton_self _), rfl⟩, rfl, hq, hd⟩
  | accept he _ _ _ _ _ _ =>
      exact (hset h).imp_right fun ⟨hq, hd⟩ => Or.inr (Or.inl ⟨_, he, hq, hd⟩)
  | @adopt n r x hdigest =>
      refine (hset h).imp_right fun ⟨hq, hd⟩ => Or.inr (Or.inr ⟨x, by simp, hq, hd, ?_⟩)
      rw [← hd]
      exact hdigest
  | _ => exact Or.inl h

/-- A sequence number that has a digest keeps one. -/
theorem Acts.received_some
    (hact : Acts c X e s s')
    (h : s.node.prePrepareReceived.get? q = some d) :
    ∃ d', s'.node.prePrepareReceived.get? q = some d' := by
  have hset : ∀ {q' : ℤ} {d' : String},
      ∃ d'', (s.node.prePrepareReceived.set q' d').get? q = some d'' := by
    intro q' d'
    rw [Dict.get?_set]
    split
    case isTrue => exact ⟨d', rfl⟩
    case isFalse => exact ⟨d, h⟩
  cases hact with
  | quiet hq =>
      obtain ⟨_, _, _, _, _, _, rfl⟩ := hq
      exact ⟨d, h⟩
  | propose | accept | adopt => exact hset
  | _ => exact ⟨d, h⟩

theorem Acts.new_flag
    (hact : Acts c X e s s')
    (h : s'.node.preparedSent.get? q = some true) :
    s.node.preparedSent.get? q = some true ∨
      ∃ d, s.node.prePrepareReceived.get? q = some d := by
  cases hact with
  | quiet hq =>
      obtain ⟨_, _, _, _, _, _, rfl⟩ := hq
      exact Or.inl h
  | @prepare n r q' v d hprepared _ =>
      change (n.preparedSent.set q' true).get? q = some true at h
      rw [Dict.get?_set] at h
      split at h
      case isTrue hq =>
        rw [hq]
        exact Or.inr ⟨d, (isPrepared_iff.mp hprepared).1⟩
      case isFalse => exact Or.inl h
  | _ => exact Or.inl h

theorem Acts.new_log
    (hact : Acts c X e s s')
    (h : (q, d) ∈ s'.node.log) :
    (q, d) ∈ s.node.log ∨ s.node.preparedSent.get? q = some true ∧
      s.node.prePrepareReceived.getD q "" = d := by
  cases hact with
  | quiet hq =>
      obtain ⟨_, _, _, _, _, _, rfl⟩ := hq
      exact Or.inl h
  | @commit n r q' v d' _ _ hflag hreceived =>
      rcases List.mem_append.mp h with h | h
      · exact Or.inl h
      · cases List.mem_singleton.mp h
        refine Or.inr ⟨?_, hreceived⟩
        unfold Dict.getD at hflag
        cases hget : n.preparedSent.get? q with
        | none =>
            rw [hget] at hflag
            cases hflag
        | some b =>
            rw [hget] at hflag
            exact congrArg some hflag
  | _ => exact Or.inl h

/-! ## Every effect keeps to the assigned pairs -/

/-- The X set of a new primary mentions assigned pairs only. -/
theorem Traced.supports
    {S : Dict ℤ ViewChange} {m : NewView} {x : XEntry}
    (htrusted : s.node.Trusted K)
    (hauthentic : s.node.Authentic K)
    (h : Traced K s)
    (hsupports : s.node.Supports c S m)
    (hcovers : Covers S m)
    (hx : x ∈ m.xSet)
    (hdigest : x.digest ≠ "null") :
    s.node.Assigned K x.sequence x.digest := by
  obtain ⟨o, ho⟩ := hsupports.agrees
  rcases decisions_spec (decisions_of_mem ho hcovers hx) with
    ⟨vc, hvc, p, hp, -, hsame⟩ | ⟨hnull, -⟩
  · obtain ⟨hmem, hseq⟩ := ViewChange.candidate_spec hp
    obtain ⟨k, hk⟩ := mem_values_of_stored hvc
    obtain ⟨-, -, hknown⟩ := hauthentic.stored _ _ _ (hsupports.stored k vc hk)
    rw [← hseq, ← hsame]
    rcases hknown with hK | ⟨hself, hsent⟩
    · exact htrusted.viewChanges vc hK p hmem
    · exact h.viewChanges vc hsent hself p hmem
  · exact absurd hnull hdigest

theorem Traced.acts
    (he : Receivable K e)
    (htrusted : s.node.Trusted K)
    (hauthentic : s.node.Authentic K)
    (hact : Acts c X e s s')
    (h : Traced K s) :
    Traced K s' := by
  have hnewViews : ∀ m, s'.node.HasSent (.newView m) → ∀ x ∈ m.xSet, x.digest ≠ "null" →
      s'.node.Assigned K x.sequence x.digest := by
    intro m hm x hx hdigest
    rcases hact.new_proposal hm rfl with hold | ⟨-, hnew⟩
    · exact (h.newViews m hold x hx hdigest).acts hact
    · cases hnew with
      | begins hbegins hcovers _ _ =>
          exact (h.supports htrusted hauthentic hbegins.supports hcovers hx hdigest).acts hact
      | announce hsupports hcovers _ _ _ _ =>
          exact (h.supports htrusted hauthentic hsupports hcovers hx hdigest).acts hact
  have hreceived : ∀ q d, s'.node.prePrepareReceived.get? q = some d →
      s'.node.Assigned K q d := by
    intro q d hd
    rcases hact.new_received hd with hold | ⟨m, hsent, hself, hm⟩ | ⟨m, hm, hq, hd⟩ |
      ⟨x, hx, rfl, rfl, hdigest⟩
    · exact (h.received q d hold).acts hact
    · exact ⟨m, Or.inr ⟨hself.trans hact.id.symm, hsent⟩, hm⟩
    · exact ⟨m, Or.inl (he.known hm nofun), hq, hd⟩
    · exact (h.entries x hx hdigest).acts hact
  refine ⟨hreceived, ?_, hnewViews, ?_, ?_, ?_⟩
  · intro x hx hdigest
    rcases hact.stage with ⟨-, -, hsuffix⟩ | ⟨hnil, -, -⟩ | ⟨S, m, hbegins⟩
    · exact (h.entries x (hsuffix.subset hx) hdigest).acts hact
    · rw [hnil] at hx
      cases hx
    · rw [hbegins.rest] at hx
      rcases hbegins.origin with ⟨-, -, hsent⟩ | hpending
      · exact hnewViews m hsent x hx hdigest
      · rcases hauthentic.pending _ _ hpending with hK | ⟨-, hsent⟩
        · exact (htrusted.newViews m hK x hx hdigest).acts hact
        · exact (h.newViews m hsent x hx hdigest).acts hact
  · intro vc hvc hself p hp
    rw [hact.id] at hself
    rcases hact.new_viewChange hvc with hold | ⟨u, j, hstored⟩ | ⟨o, rfl, -⟩
    · exact (h.viewChanges vc hold hself p hp).acts hact
    · rcases (hauthentic.stored u j vc hstored).2.2 with hK | ⟨-, hsent⟩
      · exact (htrusted.viewChanges vc hK p hp).acts hact
      · exact (h.viewChanges vc hsent hself p hp).acts hact
    · obtain ⟨hflag, hdigest, -⟩ := mem_pSet hp
      obtain ⟨d, hd⟩ := h.flagged _ hflag
      unfold Dict.getD at hdigest
      rw [hd] at hdigest
      change p.digest = d at hdigest
      rw [hdigest]
      exact (h.received _ _ hd).acts hact
  · intro q hq
    rcases hact.new_flag hq with hold | ⟨d, hd⟩
    · obtain ⟨d, hd⟩ := h.flagged q hold
      exact hact.received_some hd
    · exact hact.received_some hd
  · intro q d hlog
    rcases hact.new_log hlog with hold | ⟨hflag, hdigest⟩
    · exact (h.log q d hold).acts hact
    · obtain ⟨d', hd'⟩ := h.flagged q hflag
      unfold Dict.getD at hdigest
      rw [hd'] at hdigest
      change d' = d at hdigest
      rw [← hdigest]
      exact (h.received q d' hd').acts hact

/-! ## A digest keeps its sequence number -/

/-- No digest has two sequence numbers. -/
def Numbered (K : Message → Prop) (n : Node) : Prop :=
  ∀ m m', n.Known K (.prePrepare m) → n.Known K (.prePrepare m') → m.digest = m'.digest →
    m.sequence = m'.sequence

/-- The node numbers the request. -/
def Assigns (c : Config) (n : Node) (r : Request) : Prop :=
  n.executedDigests.get? r.digest = none ∧ n.activeView = true ∧ n.isPrimary c = true ∧
    r.digest ∉ n.assignedRequests

instance (n : Node) (r : Request) : Decidable (n.Assigns c r) :=
  inferInstanceAs (Decidable (_ ∧ _ ∧ _ ∧ _))

/-- Without a request, a node sends PRE-PREPAREs for assigned pairs only. -/
theorem Acts.numbered
    (he : ∀ r, e ≠ some (.request r))
    (htraced : Traced K s)
    (hact : Acts c X e s s')
    (h : s.node.Numbered K) :
    s'.node.Numbered K := by
  have hassigned : ∀ m, s'.node.Known K (.prePrepare m) →
      s.node.Assigned K m.sequence m.digest := by
    rintro m (hK | ⟨hself, hsent⟩)
    · exact ⟨m, Or.inl hK, rfl, rfl⟩
    · rcases hact.new_proposal hsent rfl with hold | ⟨-, hnew⟩
      · exact ⟨m, Or.inr ⟨hself.trans hact.id, hold⟩, rfl, rfl⟩
      · cases hnew with
        | number hrequest _ _ _ _ => exact absurd hrequest (he _)
        | again hsent _ hx hseq hdigest hnull =>
            rw [← hseq, ← hdigest]
            rw [← hdigest] at hnull
            exact htraced.newViews _ hsent _ hx hnull
  intro m m' hm hm' hdigest
  obtain ⟨p, hp, hq, hd⟩ := hassigned m hm
  obtain ⟨p', hp', hq', hd'⟩ := hassigned m' hm'
  rw [← hq, ← hq']
  exact h p p' hp hp' (hd.trans (hdigest.trans hd'.symm))

/-- All facts about a node that messages of correct nodes reach. -/
structure Tracked (K : Message → Prop) (s : Stage) : Prop where
  authentic : s.node.Authentic K
  trusted : s.node.Trusted K
  traced : Traced K s

theorem Tracked.acts
    (he : Receivable K e)
    (hact : Acts c X e s s')
    (h : Tracked K s) :
    Tracked K s' where
  authentic := h.authentic.acts he hact
  trusted := h.trusted.acts hact
  traced := h.traced.acts he h.trusted h.authentic hact

theorem Tracked.runs
    (he : Receivable K e)
    (hruns : Runs c X e s s')
    (h : Tracked K s) :
    Tracked K s' := by
  induction hruns with
  | refl => exact h
  | tail _ hact ih => exact ih.acts he hact

theorem Tracked.numbered_runs
    (he : Receivable K e)
    (hrequest : ∀ r, e ≠ some (.request r))
    (hruns : Runs c X e s s')
    (h : Tracked K s)
    (hnumbered : s.node.Numbered K) :
    s'.node.Numbered K := by
  induction hruns with
  | refl => exact hnumbered
  | tail hruns hact ih => exact hact.numbered hrequest (h.runs he hruns).traced ih

/-- A primary that numbers a request whose digest has no other number. -/
theorem numbered_assign
    {r : Request}
    (hfresh : r.digest ∉ n.assignedRequests → ∀ m, n.Known K (.prePrepare m) →
      m.digest = r.digest → m.sequence = n.seqCounter + 1)
    (h : n.Numbered K) :
    (n.assign c r).Numbered K := by
  unfold assign
  split
  case isTrue => exact h
  case isFalse hassigned =>
    have hold : ∀ m, (startConsensusFor c { n with
        seqCounter := n.seqCounter + 1
        assignedRequests := insert r.digest n.assignedRequests } r (n.seqCounter + 1)).Known K
          (.prePrepare m) →
        n.Known K (.prePrepare m) ∨ m.sequence = n.seqCounter + 1 ∧ m.digest = r.digest := by
      rintro m (hK | ⟨hself, p, hp, hmsg⟩)
      · exact Or.inl (Or.inl hK)
      · rcases List.mem_append.mp hp with hp | hp
        · exact Or.inl (Or.inr ⟨hself, p, hp, hmsg⟩)
        · rw [List.mem_singleton.mp hp] at hmsg
          cases hmsg
          exact Or.inr ⟨rfl, rfl⟩
    intro m m' hm hm' hdigest
    rcases hold m hm with hm | ⟨hq, hd⟩ <;> rcases hold m' hm' with hm' | ⟨hq', hd'⟩
    · exact h m m' hm hm' hdigest
    · rw [hq']
      exact hfresh hassigned m hm (hdigest.trans hd')
    · rw [hq]
      exact (hfresh hassigned m' hm' (hdigest.symm.trans hd)).symm
    · exact hq.trans hq'.symm

theorem numbered_onRequest
    {r : Request}
    (hX : X .stalePrepare)
    (hfit : Fit c X n)
    (hfresh : n.Assigns c r → ∀ m, n.Known K (.prePrepare m) →
      m.digest = r.digest → m.sequence = n.seqCounter + 1)
    (h : Tracked K ⟨n, []⟩)
    (hnumbered : n.Numbered K) :
    (n.onRequest c r).Numbered K := by
  have hnone : Receivable K none := fun m hm => by cases hm
  unfold onRequest
  split
  case h_1 reply _ =>
    have hruns : Runs c X none ⟨n, []⟩ ⟨n.sendReply r.senderID reply, []⟩ :=
      quiet_runs (sendReply_quiet _ _ _)
    exact h.numbered_runs hnone nofun hruns hnumbered
  case h_2 hexecuted =>
    let n₁ : Node := { n with requestLog := n.requestLog.set r.digest r }
    have hlogged : Runs c X none ⟨n, []⟩ ⟨n₁, []⟩ :=
      quiet_runs ⟨_, _, _, _, _, _, rfl⟩
    have hnumbered₁ : n₁.Numbered K := h.numbered_runs hnone nofun hlogged hnumbered
    simp only
    split
    case isTrue => exact hnumbered₁
    case isFalse hactive =>
      split
      case isTrue hprimary =>
        rw [Bool.not_eq_false] at hactive
        exact numbered_assign (fun hassigned => hfresh ⟨hexecuted, hactive, hprimary, hassigned⟩)
          hnumbered₁
      case isFalse =>
        have hbackup : Runs c X none ⟨n₁, []⟩ ⟨n₁.onBackupRequest c r, []⟩ :=
          onBackupRequest_runs (hfit.runs hlogged) (Or.inl hX)
        exact (h.runs hnone hlogged).numbered_runs hnone nofun hbackup hnumbered₁

end Node

namespace Cluster

variable {D : Deployment} {w w' : Cluster} {i j q q' : ℤ} {d : String} {e : Event}

/-- A primary gives a number only to a digest that no PRE-PREPARE has given another
number. -/
def NumbersOnce (D : Deployment) (w : Cluster) (l : ℤ × Event) : Prop :=
  ∀ m ∈ l.2.input.message, ∀ r ∈ m.request?, (w l.1).Assigns D.config r →
    ∀ k ∈ List.range (3 * D.f + 1), ∀ p ∈ (w k).sent, ∀ m' ∈ p.msg.prePrepare?,
      m'.digest = r.digest → m'.sequence = (w l.1).seqCounter + 1

instance (w : Cluster) (l : ℤ × Event) : Decidable (NumbersOnce D w l) :=
  inferInstanceAs (Decidable (∀ m ∈ l.2.input.message, ∀ r ∈ m.request?, _ →
    ∀ k ∈ List.range (3 * D.f + 1), ∀ p ∈ (w k).sent, ∀ m' ∈ p.msg.prePrepare?, _ → _))

variable (hD : D.faulty = ∅)

include hD in
theorem isCorrect_of_isReplica (h : D.IsReplica i) : D.IsCorrect i := by
  refine ⟨h, ?_⟩
  rw [hD]
  exact Finset.notMem_empty i

/-- The facts about correct nodes in a run with correct nodes only. -/
structure Tracing (D : Deployment) (w : Cluster) (i : ℤ) : Prop where
  traced : D.IsCorrect i → Node.Traced (w.Genuine D) ⟨w i, []⟩

theorem known_of_assigned
    (hid : (w j).id = j)
    (hj : D.IsCorrect j)
    (h : (w j).Assigned (w.Genuine D) q d) :
    (w i).Assigned (w.Genuine D) q d := by
  obtain ⟨m, hknown, hm⟩ := h
  exact ⟨m, Or.inl (Genuine.of_known hid hj hknown), hm⟩

include hD in
/-- The senders of the messages that a node trusts are correct. -/
theorem trusted
    (hid : ∀ j, (w j).id = j)
    (hw : ∀ j, w.Tracing D j) :
    (w i).Trusted (w.Genuine D) where
  newViews m hm x hx hdigest := by
    have hcorrect := isCorrect_of_isReplica hD hm.1
    exact known_of_assigned (hid _) hcorrect
      (((hw _).traced hcorrect).newViews m (hm.2 hcorrect) x hx hdigest)
  viewChanges vc hvc p hp := by
    have hcorrect := isCorrect_of_isReplica hD hvc.1
    exact known_of_assigned (hid _) hcorrect
      (((hw _).traced hcorrect).viewChanges vc (hvc.2 hcorrect) (hid _).symm p hp)

include hD in
theorem reachable_tracing
    (hreach : (cluster D).Reachable (Avoiding D []) w) :
    ∀ i, w.Tracing D i := by
  refine Nodes.reachable_invariant (N := nodes D) (R := Grows)
    (I := fun w i => Cluster.Tracing D w i) Grows.refl ?_ ?_ ?_ hreach
  · exact fun i => ⟨fun _ => Node.traced_new i _⟩
  · intro w i e hreach hw havoids henabled
    have hsound := reachable_sound (Or.inl rfl) hreach
    have hruns := handle_runs hsound havoids henabled
    refine ⟨⟨hruns.id, hruns.sent⟩, fun hext => ⟨fun _ => ?_⟩⟩
    have htracked : Node.Tracked (Genuine D w) ⟨w i, []⟩ := ⟨(hsound i).authentic,
      trusted hD (fun j => (hsound j).id) hw, (hw i).traced (Enabled.isCorrect henabled)⟩
    rw [Function.update_self]
    exact (htracked.runs (receivable hsound henabled) hruns).traced.imp
      fun m => Genuine.mono hext
  · intro w w' i hext hsame hi
    refine ⟨fun hcorrect => ?_⟩
    rw [hsame]
    exact (hi.traced hcorrect).imp fun m => Genuine.mono hext

/-- No digest has two sequence numbers in the whole cluster. -/
def Numbered (D : Deployment) (w : Cluster) : Prop :=
  ∀ m m', w.Genuine D (.prePrepare m) → w.Genuine D (.prePrepare m') → m.digest = m'.digest →
    m.sequence = m'.sequence

theorem Numbered.node
    (hid : (w i).id = i)
    (hi : D.IsCorrect i)
    (h : Numbered D w) :
    (w i).Numbered (w.Genuine D) :=
  fun m m' hm hm' => h m m' (Genuine.of_known hid hi hm) (Genuine.of_known hid hi hm')

include hD in
/-- A PRE-PREPARE after a step is one from before it, or the node has sent it. -/
theorem known_of_genuine
    {n : Node} {m : PrePrepare}
    (hid : n.id = i)
    (h : Genuine D (Function.update w i n) (.prePrepare m)) :
    n.Known (Genuine D w) (.prePrepare m) := by
  have hsent := h.2 (isCorrect_of_isReplica hD h.1)
  by_cases hi : m.senderID = i
  · refine Or.inr ⟨hi.trans hid.symm, ?_⟩
    change (Function.update w i n m.senderID).HasSent _ at hsent
    rwa [hi, Function.update_self] at hsent
  · refine Or.inl ⟨h.1, fun _ => ?_⟩
    change (Function.update w i n m.senderID).HasSent _ at hsent
    rwa [Function.update_of_ne hi] at hsent

include hD in
/-- A step in which the node does not number a request again. -/
theorem numbered_handle
    (hsound : ∀ j, w.Sound D [] j)
    (hw : ∀ j, w.Tracing D j)
    (hnumbered : Numbered D w)
    (honce : NumbersOnce D w (i, e))
    (henabled : w.Enabled D i e.input) :
    ((w i).handle D e).Numbered (w.Genuine D) := by
  have hcorrect := Enabled.isCorrect henabled
  have htracked : Node.Tracked (w.Genuine D) ⟨w i, []⟩ := ⟨(hsound i).authentic,
    trusted hD (fun j => (hsound j).id) hw, (hw i).traced hcorrect⟩
  have hnode := hnumbered.node (hsound i).id hcorrect
  have hruns := handle_runs hsound (fun _ _ x hx => absurd hx List.not_mem_nil) henabled
  by_cases hrequest : ∃ r, e.input.message = some (.request r)
  · obtain ⟨r, hr⟩ := hrequest
    have hhandle : (w i).handle D e = (w i).onRequest D.config r := by
      unfold Node.handle
      rw [hr]
      rfl
    rw [hhandle]
    refine Node.numbered_onRequest (X := (· ∉ [])) List.not_mem_nil (hsound i).fit ?_ htracked
      hnode
    intro hassigns m hm hdigest
    have hgenuine := Genuine.of_known (hsound i).id hcorrect hm
    obtain ⟨p, hp, hmsg⟩ := hgenuine.2 (isCorrect_of_isReplica hD hgenuine.1)
    have hk : ((m.senderID.toNat : ℕ) : ℤ) = m.senderID := Int.toNat_of_nonneg hgenuine.1.1
    refine honce _ hr r rfl hassigns m.senderID.toNat ?_ p ?_ m ?_ hdigest
    · have hlt := hgenuine.1.2
      change m.senderID < 3 * D.f + 1 at hlt
      rw [List.mem_range]
      omega
    · rw [hk]
      exact hp
    · rw [hmsg]
      rfl
  · exact htracked.numbered_runs (receivable hsound henabled) (fun r hr => hrequest ⟨r, hr⟩) hruns
      hnode

include hD in
theorem reachable_numbered
    (hreach : (cluster D).Reachable (NumbersOnce D) w) :
    Numbered D w := by
  refine System.Reachable.invariant (I := Numbered D) ?_ ?_ hreach
  · intro m _ hm
    obtain ⟨_, hp, -⟩ := hm.2 (isCorrect_of_isReplica hD hm.1)
    cases hp
  · intro w l w' hreach hnumbered honce hstep
    obtain ⟨henabled, rfl⟩ := Nodes.step_spec hstep
    have hany : (cluster D).Reachable (Avoiding D []) w :=
      hreach.mono fun _ _ _ _ _ x hx => absurd hx List.not_mem_nil
    have hsound := reachable_sound (Or.inl rfl) hany
    have hid : ((w l.1).handle D l.2).id = l.1 :=
      (handle_runs hsound (fun _ _ x hx => absurd hx List.not_mem_nil) henabled).id.trans
        (hsound l.1).id
    have hnode := numbered_handle hD hsound (reachable_tracing hD hany) hnumbered honce henabled
    intro m m' hm hm' hdigest
    exact hnode m m' (known_of_genuine hD hid hm) (known_of_genuine hD hid hm') hdigest

include hD in
/-- With correct nodes only, no node commits a digest with two sequence numbers. -/
theorem logs_once
    (hreach : (cluster D).Reachable (NumbersOnce D) w)
    (hi : D.IsReplica i)
    (h : (q, d) ∈ (w i).log)
    (h' : (q', d) ∈ (w i).log) :
    q = q' := by
  have hany : (cluster D).Reachable (Avoiding D []) w :=
    hreach.mono fun _ _ _ _ _ x hx => absurd hx List.not_mem_nil
  have hcorrect := isCorrect_of_isReplica hD hi
  have htraced := (reachable_tracing hD hany i).traced hcorrect
  have hnode := (reachable_numbered hD hreach).node (reachable_sound (Or.inl rfl) hany i).id
    hcorrect
  obtain ⟨m, hm, rfl, hd⟩ := htraced.log q d h
  obtain ⟨m', hm', rfl, hd'⟩ := htraced.log q' d h'
  exact hnode m m' hm hm' (hd.trans hd'.symm)

section Runs

def allCorrect : Deployment where
  f := 1
  faulty := ∅
  clients := {100}
  faulty_mem := fun _ h => absurd h (Finset.notMem_empty _)
  faulty_le := Nat.zero_le _

/-- The node receives the acknowledgement of a VIEW-CHANGE message. -/
def receivesAck (j : ℤ) (vc : ViewChange) : Event :=
  step (.deliver j ⟨[vc.view], .viewChangeAck ⟨vc.view, j, vc.senderID, viewChangeDigest vc⟩⟩)

/-- Replica 0 becomes prepared for A with number 1. -/
def runView0 : List (ℤ × Event) :=
  [(0, requests requestA), (1, requests requestA), (2, requests requestA), (3, requests requestA)] ++
    [1, 2, 3].map (fun i => (i, receives 0 (.prePrepare ⟨0, 1, "a", 0, "a"⟩))) ++
    [1, 2].map (fun j => (0, receives j (.prepare ⟨0, 1, "a", j⟩)))

def reportFor1 (j : ℤ) : ViewChange := ⟨1, j, [], [⟨1, "a", 0⟩]⟩

/-- Number 1 is given up. -/
def newView1 : NewView :=
  ⟨1, 1, [1, 2, 3].map fun j => ⟨j, viewChangeDigest (reportFor1 j)⟩, [⟨1, "null", ""⟩]⟩

/-- The others go on to view 1, where A gets number 2 and replica 3 commits it. -/
def runView1 : List (ℤ × Event) :=
  [1, 2, 3].map (fun i => (i, step .requestTimeout)) ++
    [(1, receives 2 (.viewChange (reportFor1 2))), (1, receives 3 (.viewChange (reportFor1 3))),
      (2, receives 3 (.viewChange (reportFor1 3))), (3, receives 2 (.viewChange (reportFor1 2))),
      (1, receivesAck 2 (reportFor1 3)), (1, receivesAck 3 (reportFor1 2)),
      (2, receives 1 (.viewChange (reportFor1 1))), (3, receives 1 (.viewChange (reportFor1 1)))] ++
    [1, 2, 3].map (fun j => (0, receives j (.viewChange (reportFor1 j)))) ++
    [2, 3, 0].map (fun i => (i, receives 1 (.newView newView1))) ++
    [(1, requests requestA), (2, receives 1 (.prePrepare ⟨1, 2, "a", 1, "a"⟩)),
      (3, receives 1 (.prePrepare ⟨1, 2, "a", 1, "a"⟩)),
      (2, receives 3 (.prepare ⟨1, 2, "a", 3⟩)), (3, receives 2 (.prepare ⟨1, 2, "a", 2⟩)),
      (1, receives 2 (.prepare ⟨1, 2, "a", 2⟩)), (1, receives 3 (.prepare ⟨1, 2, "a", 3⟩)),
      (3, receives 1 (.commit ⟨1, 2, "a", 1⟩)), (3, receives 2 (.commit ⟨1, 2, "a", 2⟩))]

def reportFor2 (j : ℤ) : ViewChange :=
  if j = 0 then ⟨2, 0, [⟨1, "a", 0⟩], [⟨1, "a", 0⟩]⟩
  else ⟨2, j, [⟨2, "a", 1⟩], [⟨1, "a", 0⟩, ⟨2, "a", 1⟩]⟩

/-- Number 1 comes back with the report of replica 0. -/
def newView2 : NewView :=
  ⟨2, 2, [2, 0, 3].map fun j => ⟨j, viewChangeDigest (reportFor2 j)⟩,
    [⟨2, "a", "a"⟩, ⟨1, "a", "a"⟩]⟩

/-- Replicas 0, 2 and 3 go on to view 2, where replica 3 commits number 1. -/
def runView2 : List (ℤ × Event) :=
  [0, 2, 3].map (fun i => (i, requests requestB)) ++
    [0, 2, 3].map (fun i => (i, step .requestTimeout)) ++
    [(2, receives 0 (.viewChange (reportFor2 0))), (2, receives 3 (.viewChange (reportFor2 3))),
      (0, receives 3 (.viewChange (reportFor2 3))), (3, receives 0 (.viewChange (reportFor2 0))),
      (2, receivesAck 0 (reportFor2 3)), (2, receivesAck 3 (reportFor2 0)),
      (3, receives 2 (.viewChange (reportFor2 2))), (0, receives 2 (.viewChange (reportFor2 2))),
      (3, receives 2 (.newView newView2)), (0, receives 2 (.newView newView2)),
      (3, receives 0 (.prepare ⟨2, 1, "a", 0⟩)), (0, receives 3 (.prepare ⟨2, 1, "a", 3⟩)),
      (2, receives 0 (.prepare ⟨2, 1, "a", 0⟩)), (2, receives 3 (.prepare ⟨2, 1, "a", 3⟩)),
      (3, receives 0 (.commit ⟨2, 1, "a", 0⟩)), (3, receives 2 (.commit ⟨2, 1, "a", 2⟩))]

/-- Replica 3 commits A twice. -/
theorem not_logs_once :
    ∃ w, (cluster allCorrect).Reachable System.anyStep w ∧ allCorrect.faulty = ∅ ∧
      allCorrect.IsReplica 3 ∧ (1, "a") ∈ (w 3).log ∧ (2, "a") ∈ (w 3).log := by
  refine System.exists_reaches_of_exec (runView0 ++ runView1 ++ runView2) ?_
  decide +kernel

/-- Replica 2 commits A in view 0. -/
theorem logs_once_allCorrect :
    ∃ w, (cluster allCorrect).Reachable (NumbersOnce allCorrect) w ∧ (1, "a") ∈ (w 2).log ∧
      (1 : ℤ) = 1 := by
  obtain ⟨w, hreach, h2⟩ : ∃ w, (cluster allCorrect).Reachable (NumbersOnce allCorrect) w ∧
      (1, "a") ∈ (w 2).log := by
    refine System.exists_reaches_of_exec prepareA ?_
    decide +kernel
  exact ⟨w, hreach, h2, logs_once rfl hreach (by decide) h2 h2⟩

end Runs

end Cluster

end PbftSimulator
end DistributedConsensus
