import DistributedConsensus.PbftSimulator.Handlers

/-!
# PBFT simulator: every handler is a sequence of effects

One lemma for each handler.  A handler that does not avoid a missing check is a
sequence of effects that the check would have excluded.
-/

namespace DistributedConsensus
namespace PbftSimulator

open Foundations

namespace Node

variable {c : Config} {D : Defect → Prop} {e : Option Message} {n n' : Node} {r : List XEntry}
  {s v : ℤ} {d : String} {again : Node → Node} {o : Orders}

/-- All checks may be missing, or the node keeps its views. -/
structure Fit (c : Config) (D : Defect → Prop) (n : Node) : Prop where
  held : Held c D n
  sane : (∀ x, D x) ∨ ¬D .regress ∧ Sane c ⟨n, []⟩

theorem Fit.runs (h : Fit c D n) (hruns : Runs c D e ⟨n, []⟩ ⟨n', []⟩) : Fit c D n' :=
  ⟨hruns.held h.held, h.sane.imp_right fun h => ⟨h.1, hruns.sane h.1 h.2⟩⟩

theorem quiet_runs (h : Quiet n n') : Runs c D e ⟨n, r⟩ ⟨n', r⟩ :=
  Relation.ReflTransGen.single (Acts.quiet h)

/-! ## The phases of a request -/

section Phases

theorem sendReply_quiet (n : Node) (client : ℤ) (reply : Reply) :
    Quiet n (n.sendReply client reply) := by
  unfold sendReply
  split
  case isTrue => exact ⟨_, _, _, _, _, _, rfl⟩
  case isFalse => exact Quiet.refl n

theorem execute_quiet (n : Node) (digest : String) : Quiet n (n.execute digest) := by
  unfold execute
  split
  case h_1 => exact Quiet.refl n
  case h_2 req _ =>
    let reply : Reply := ⟨n.view, n.id, digest, req.timestamp⟩
    have hexecuted : Quiet n { n with
        executedDigests := n.executedDigests.set digest reply } := ⟨_, _, _, _, _, _, rfl⟩
    exact hexecuted.trans (sendReply_quiet _ _ _)

theorem startTimerIfNeeded_quiet (n : Node) : Quiet n (n.startTimerIfNeeded c) := by
  unfold startTimerIfNeeded
  repeat' split
  all_goals exact ⟨_, _, _, _, _, _, rfl⟩

theorem tryCommit_runs (n : Node) :
    Runs c D e ⟨n, r⟩ ⟨n.tryCommit c s d v, r⟩ := by
  unfold tryCommit
  split
  case isTrue => exact Relation.ReflTransGen.refl
  case isFalse hquorum =>
    split
    case isTrue => exact Relation.ReflTransGen.refl
    case isFalse hprepared =>
      rw [not_or, Bool.not_eq_false, not_not] at hprepared
      split
      case isTrue => exact Relation.ReflTransGen.refl
      case isFalse hopen =>
        refine Relation.ReflTransGen.head
          (Acts.commit (not_lt.mp hquorum) hopen hprepared.1 hprepared.2) ?_
        -- The timer is stopped, and the request is executed.
        exact Relation.ReflTransGen.head (Acts.quiet ⟨_, _, _, _, _, _, rfl⟩)
          (quiet_runs (execute_quiet _ _))

theorem checkPrepared_runs
    (hcurrent : D .stalePrepare ∨ (n.isPrepared c s d v = true →
      v = n.view ∧ n.prePreparedView.get? s = some v)) :
    Runs c D e ⟨n, r⟩ ⟨n.checkPrepared c s d v, r⟩ := by
  unfold checkPrepared
  split
  case isTrue hprepared =>
    exact Relation.ReflTransGen.head
      (Acts.prepare hprepared (hcurrent.imp_right fun h => h hprepared)) (tryCommit_runs _)
  case isFalse => exact Relation.ReflTransGen.refl

/-- The own PREPARE is the first effect of the prepare phase. -/
theorem enterPreparePhase_runs
    {n₀ : Node}
    (hvote : Acts c D e ⟨n₀, r⟩ ⟨n.vote c s d v, r⟩)
    (hcurrent : D .stalePrepare ∨ ((n.vote c s d v).isPrepared c s d v = true →
      v = n.view ∧ n.prePreparedView.get? s = some v)) :
    Runs c D e ⟨n₀, r⟩ ⟨n.enterPreparePhase c s d v, r⟩ := by
  have hchecked : Runs c D e ⟨n.vote c s d v, r⟩
      ⟨(n.vote c s d v).checkPrepared c s d v, r⟩ := checkPrepared_runs hcurrent
  have hsent : ((n.vote c s d v).checkPrepared c s d v).HasSent
      (.prepare ⟨v, s, d, ((n.vote c s d v).checkPrepared c s d v).id⟩) := by
    refine HasSent.mono ?_ hchecked.sent
    rw [hchecked.id]
    exact ⟨_, List.mem_append_right _ (List.mem_singleton_self _), rfl⟩
  exact (Relation.ReflTransGen.head hvote hchecked).tail (Acts.enter hsent)

theorem onPrepare_runs
    {m : Vote}
    (he : e = some (.prepare m))
    (hprimary : D .primaryVote ∨ (m.view = n.view → m.senderID ≠ primary c m.view))
    (hstale : D .stalePrepare ∨ (m.view = n.view →
      (n.count m).isPrepared c m.sequence m.digest m.view = true →
        n.prePreparedView.get? m.sequence = some m.view)) :
    Runs c D e ⟨n, []⟩ ⟨n.onPrepare c m, []⟩ := by
  unfold onPrepare
  split
  case isTrue => exact Relation.ReflTransGen.refl
  case isFalse hview =>
    rw [not_not] at hview
    refine Relation.ReflTransGen.head
      (Acts.count he hview (hprimary.imp_right fun h => h hview)) ?_
    show Runs c D e ⟨n.count m, []⟩
      ⟨(n.count m).checkPrepared c m.sequence m.digest m.view, []⟩
    exact checkPrepared_runs (hstale.imp_right fun h hprepared => ⟨hview, h hview hprepared⟩)

theorem onCommit_runs
    {m : Vote}
    (he : e = some (.commit m)) :
    Runs c D e ⟨n, []⟩ ⟨n.onCommit c m, []⟩ := by
  unfold onCommit
  split
  case isTrue => exact Relation.ReflTransGen.refl
  case isFalse hview =>
    exact Relation.ReflTransGen.head (Acts.countCommit he (not_not.mp hview)) (tryCommit_runs _)

theorem get?_accept (n : Node) (s : ℤ) (d : String) (v : ℤ) :
    (n.accept s d v).prePrepareReceived.get? s = some d ∧
      (n.accept s d v).prePreparedView.get? s = some v := by
  simp [Node.accept, Dict.get?_set]

theorem onPrePrepare_runs
    {m : PrePrepare}
    (he : e = some (.prePrepare m))
    (hother : m.senderID ≠ n.id)
    (hearly : D .earlyAccept ∨ (m.view = n.view → m.senderID = primary c m.view →
      n.activeView = true))
    (hnull : D .nullDigest ∨ (m.view = n.view → m.senderID = primary c m.view →
      m.digest ≠ "null")) :
    Runs c D e ⟨n, []⟩ ⟨n.onPrePrepare c m, []⟩ := by
  unfold onPrePrepare
  split
  case isTrue => exact Relation.ReflTransGen.refl
  case isFalse hview =>
    rw [not_not] at hview
    split
    case isTrue => exact Relation.ReflTransGen.refl
    case isFalse hsender =>
      rw [not_not] at hsender
      split
      case isTrue => exact Relation.ReflTransGen.refl
      case isFalse hconflict =>
        rw [Bool.not_eq_true] at hconflict
        obtain ⟨hdigest, hcurrent⟩ := get?_accept n m.sequence m.digest m.view
        refine Relation.ReflTransGen.head (Acts.accept he hview hsender hother hconflict
          (hearly.imp_right fun h => h hview hsender)
          (hnull.imp_right fun h => h hview hsender)) ?_
        simp only
        split
        case isTrue =>
          refine enterPreparePhase_runs (Acts.vote hview ?_ hdigest hcurrent)
            (Or.inr fun _ => ⟨hview, hcurrent⟩)
          intro heq
          exact hother (hsender.trans heq)
        case isFalse =>
          exact Relation.ReflTransGen.single (Acts.await he hview hsender hother hdigest hcurrent)

theorem assign_runs
    {m : Request}
    (he : e = some (.request m))
    (hactive : n.activeView = true)
    (hprimary : primary c n.view = n.id)
    (hnull : D .nullDigest ∨ m.digest ≠ "null") :
    Runs c D e ⟨n, []⟩ ⟨n.assign c m, []⟩ := by
  unfold assign
  split
  case isTrue => exact Relation.ReflTransGen.refl
  case isFalse =>
    let n₁ : Node := { n with assignedRequests := insert m.digest n.assignedRequests }
    have hquiet : Quiet n n₁ := ⟨_, _, _, _, _, _, rfl⟩
    exact Relation.ReflTransGen.head (Acts.quiet hquiet)
      (Relation.ReflTransGen.single (Acts.propose (n := n₁) he hactive hprimary hnull))

theorem onBackupRequest_runs
    {m : Request}
    (hfit : Fit c D n)
    (hstale : D .stalePrepare ∨ ∀ p ∈ n.pendingPrePrepares.get? m.digest,
      (n.vote c p.sequence p.digest p.view).isPrepared c p.sequence p.digest p.view = true →
        p.view = n.view) :
    Runs c D e ⟨n, []⟩ ⟨n.onBackupRequest c m, []⟩ := by
  unfold onBackupRequest
  split
  case h_1 => exact quiet_runs (startTimerIfNeeded_quiet n)
  case h_2 p hp =>
    -- The timer is started first; the pending PRE-PREPARE does not matter for it.
    obtain ⟨active, htimer⟩ : ∃ active, ({ n with
        pendingPrePrepares := n.pendingPrePrepares.erase m.digest } : Node).startTimerIfNeeded c =
        { n with
          timerActive := active
          pendingPrePrepares := n.pendingPrePrepares.erase m.digest } := by
      unfold startTimerIfNeeded isPrimary
      repeat' split
      all_goals exact ⟨_, rfl⟩
    let n₁ : Node := { n with timerActive := active }
    have hquiet : Quiet n n₁ := ⟨_, _, _, _, _, _, rfl⟩
    rw [htimer]
    refine Relation.ReflTransGen.head (Acts.quiet hquiet)
      (enterPreparePhase_runs (Acts.resume (n := n₁) hp) ?_)
    rcases hfit.sane with hall | ⟨-, hsane⟩
    · exact Or.inl (hall _)
    · refine hstale.imp_right fun hstale hprepared => ?_
      have hview := hstale p hp hprepared
      exact ⟨hview, (hsane.pending _ p hp).2 hview⟩

theorem onRequest_runs
    {m : Request}
    (he : e = some (.request m))
    (hfit : Fit c D n)
    (hnull : D .nullDigest ∨ (n.activeView = true → primary c n.view = n.id → m.digest ≠ "null"))
    (hstale : D .stalePrepare ∨ ∀ p ∈ n.pendingPrePrepares.get? m.digest,
      (n.vote c p.sequence p.digest p.view).isPrepared c p.sequence p.digest p.view = true →
        p.view = n.view) :
    Runs c D e ⟨n, []⟩ ⟨n.onRequest c m, []⟩ := by
  unfold onRequest
  split
  case h_1 => exact quiet_runs (sendReply_quiet _ _ _)
  case h_2 =>
    have hlogged : Runs c D e ⟨n, []⟩
        ⟨{ n with requestLog := n.requestLog.set m.digest m }, []⟩ :=
      quiet_runs ⟨_, _, _, _, _, _, rfl⟩
    refine hlogged.trans ?_
    simp only
    split
    case isTrue => exact Relation.ReflTransGen.refl
    case isFalse hactive =>
      rw [Bool.not_eq_false] at hactive
      split
      case isTrue hprimary =>
        have hself : primary c n.view = n.id := (of_decide_eq_true hprimary).symm
        exact assign_runs he hactive hself (hnull.imp_right fun h => h hactive hself)
      case isFalse => exact onBackupRequest_runs (hfit.runs hlogged) hstale

end Phases

/-! ## View changes -/

section Entries

/-- The node is still in its view, as active as before, with the same NEW-VIEW
messages pending. -/
def SameView (n n' : Node) : Prop :=
  n'.view = n.view ∧ n'.activeView = n.activeView ∧ n'.pendingNewView = n.pendingNewView

theorem Quiet.sameView (h : Quiet n n') : SameView n n' := by
  obtain ⟨_, _, _, _, _, _, rfl⟩ := h
  exact ⟨rfl, rfl, rfl⟩

theorem SameView.trans
    {n'' : Node}
    (h : SameView n n')
    (h' : SameView n' n'') :
    SameView n n'' :=
  ⟨h'.1.trans h.1, h'.2.1.trans h.2.1, h'.2.2.trans h.2.2⟩

theorem tryCommit_sameView (n : Node) : SameView n (n.tryCommit c s d v) := by
  unfold tryCommit
  repeat' split
  case isFalse => exact (execute_quiet _ _).sameView
  all_goals exact ⟨rfl, rfl, rfl⟩

theorem checkPrepared_sameView (n : Node) : SameView n (n.checkPrepared c s d v) := by
  unfold checkPrepared
  split
  case isTrue => exact tryCommit_sameView _
  case isFalse => exact ⟨rfl, rfl, rfl⟩

theorem enterPreparePhase_sameView (n : Node) : SameView n (n.enterPreparePhase c s d v) :=
  checkPrepared_sameView _

variable {u : ℤ}

theorem processEntry_sameView (n : Node) (x : XEntry) : SameView n (processEntry c u n x) := by
  unfold processEntry
  split
  case isTrue => exact ⟨rfl, rfl, rfl⟩
  case isFalse =>
    simp only
    generalize (if n.requestLog.contains x.digest = true then n.requestLog
      else n.requestLog.set x.digest ⟨0, x.digest, x.payload, 0⟩) = requests
    split
    case isTrue => exact ⟨rfl, rfl, rfl⟩
    case isFalse => exact enterPreparePhase_sameView _

/-- The entries are those of a NEW-VIEW message that the node has sent. -/
def Leads (n : Node) (u : ℤ) (entries : List XEntry) : Prop :=
  ∃ m, n.HasSent (.newView m) ∧ m.senderID = n.id ∧ m.view = u ∧ ∀ x ∈ entries, x ∈ m.xSet

theorem processEntry_runs
    {x : XEntry}
    (hview : n.view = u)
    (hlead : primary c u = n.id → n.Leads u (x :: r)) :
    Runs c D e ⟨n, x :: r⟩ ⟨processEntry c u n x, r⟩ := by
  unfold processEntry
  split
  case isTrue hnull => exact Relation.ReflTransGen.single (Acts.skip hnull)
  case isFalse hdigest =>
    subst hview
    simp only
    generalize (if n.requestLog.contains x.digest = true then n.requestLog
      else n.requestLog.set x.digest ⟨0, x.digest, x.payload, 0⟩) = requests
    let n₁ : Node := { n with requestLog := requests }
    have hquiet : Quiet n n₁ := ⟨_, _, _, _, _, _, rfl⟩
    refine Relation.ReflTransGen.head (Acts.quiet hquiet)
      (Relation.ReflTransGen.head (Acts.adopt (n := n₁) hdigest) ?_)
    obtain ⟨hreceived, hcurrent⟩ := get?_accept n₁ x.sequence x.digest n.view
    split
    case isTrue hprimary =>
      obtain ⟨m, hsent, hsender, hm, hx⟩ := hlead (of_decide_eq_true hprimary).symm
      let n₂ : Node := { n₁.accept x.sequence x.digest n.view with
        assignedRequests := insert x.digest n.assignedRequests }
      have hassigned : Quiet (n₁.accept x.sequence x.digest n.view) n₂ := ⟨_, _, _, _, _, _, rfl⟩
      have hpropose := Acts.repropose (c := c) (D := D) (e := e) (n := n₂) (r := r) hsent hsender hm
        (hx x (by simp)) hdigest
      rw [hm] at hpropose
      exact Relation.ReflTransGen.head (Acts.quiet hassigned)
        (Relation.ReflTransGen.single hpropose)
    case isFalse hbackup =>
      refine enterPreparePhase_runs (Acts.vote rfl ?_ hreceived hcurrent)
        (Or.inr fun _ => ⟨rfl, hcurrent⟩)
      intro heq
      exact hbackup (decide_eq_true heq.symm)

theorem foldl_processEntry_runs
    {entries : List XEntry}
    (hview : n.view = u)
    (hlead : primary c u = n.id → n.Leads u entries) :
    Runs c D e ⟨n, entries⟩ ⟨entries.foldl (processEntry c u) n, []⟩ := by
  induction entries generalizing n with
  | nil => exact Relation.ReflTransGen.refl
  | cons x rest ih =>
      rw [List.foldl_cons]
      have hhead : Runs c D e ⟨n, x :: rest⟩ ⟨processEntry c u n x, rest⟩ :=
        processEntry_runs hview hlead
      refine hhead.trans (ih ((processEntry_sameView n x).1.trans hview) ?_)
      have hid : (processEntry c u n x).id = n.id := hhead.id
      intro hprimary
      obtain ⟨m, hsent, hsender, hm, hx⟩ := hlead (hprimary.trans hid)
      exact ⟨m, hsent.mono hhead.sent, hsender.trans hid.symm, hm,
        fun y hy => hx y (List.mem_cons_of_mem _ hy)⟩

theorem foldl_processEntry_sameView (entries : List XEntry) (n : Node) :
    SameView n (entries.foldl (processEntry c u) n) := by
  induction entries generalizing n with
  | nil => exact ⟨rfl, rfl, rfl⟩
  | cons x rest ih =>
      rw [List.foldl_cons]
      exact (processEntry_sameView n x).trans (ih _)

end Entries

section NewViews

variable {u : ℤ} {m : NewView}

theorem mem_values_of_stored
    {S : Dict ℤ ViewChange} {vc : ViewChange}
    (h : vc ∈ S.values) :
    ∃ k, S.get? k = some vc := by
  obtain ⟨p, hp, rfl⟩ := List.mem_map.mp h
  exact ⟨p.1, Dict.get?_of_mem_entries hp⟩

theorem stored_of_qualified
    {k : ℤ} {vc : ViewChange}
    (h : (n.qualified c u).get? k = some vc) :
    n.stored u k = some vc := by
  unfold qualified at h
  rw [Dict.get?_filter, Option.filter_eq_some_iff] at h
  exact h.1

/-- The NEW-VIEW message of the primary has the support of its quorum. -/
theorem supports_newViewMessage
    (hquorum : quorumSize c.F ≤ (n.qualified c u).size)
    (hcomplete : (decisionProcedure c.F o (n.qualified c u)).complete = true) :
    n.Supports c (n.qualified c u) (n.newViewMessage c o u) where
  quorum := hquorum
  stored _ _ h := stored_of_qualified h
  agrees := ⟨o, agreesWith_xEntries _ hcomplete hcomplete fun _ => rfl⟩

theorem covers_newViewMessage
    (hcomplete : (decisionProcedure c.F o (n.qualified c u)).complete = true) :
    Covers (n.qualified c u) (n.newViewMessage c o u) := by
  intro seq hseq
  obtain ⟨digest, hdigest⟩ := decisions_of_complete hcomplete hseq
  exact exists_mem_xEntries hdigest

/-- A view that is not the current one, or that the node waits for, has no
accepted PRE-PREPARE of the node when the node leads it. -/
theorem Fit.respects_own
    (hfit : Fit c D n)
    (hprimary : primary c m.view = n.id)
    (hopen : ¬(n.activeView = true ∧ n.view = m.view))
    (hview : D .regress ∨ n.view ≤ m.view) :
    D .contradiction ∨ n.Respects m := by
  rcases hfit.sane with hall | ⟨hD, hsane⟩
  · exact Or.inl (hall _)
  right
  intro x _ _ hx
  have hle := hsane.bounded _ _ hx
  have heq : n.view = m.view := le_antisymm (hview.resolve_left hD) hle
  rw [← heq] at hprimary hx
  refine absurd hx (hsane.own hprimary ?_ _)
  rw [← Bool.not_eq_true]
  exact fun hactive => hopen ⟨hactive, heq⟩

theorem processNewView_runs
    (hopen : ¬(n.activeView = true ∧ n.view = m.view))
    (hlead : primary c m.view = n.id → n.HasSent (.newView m) ∧ m.senderID = n.id) :
    Runs c D e ⟨n.activate m, m.xSet⟩ ⟨n.processNewView c m, []⟩ := by
  unfold processNewView
  rw [if_neg hopen]
  refine foldl_processEntry_runs rfl ?_
  intro hprimary
  obtain ⟨hsent, hsender⟩ := hlead hprimary
  exact ⟨m, hsent, hsender, rfl, fun _ hx => hx⟩

theorem tryBuildNewView_runs
    (hfit : Fit c D n)
    (hview : D .regress ∨ n.view ≤ u) :
    Runs c D e ⟨n, []⟩ ⟨n.tryBuildNewView c o u, []⟩ := by
  unfold tryBuildNewView
  split
  case isTrue => exact Relation.ReflTransGen.refl
  case isFalse hprimary =>
    rw [not_not] at hprimary
    split
    case isTrue => exact Relation.ReflTransGen.refl
    case isFalse hfresh =>
      split
      case isTrue => exact Relation.ReflTransGen.refl
      case isFalse hquorum =>
        rw [not_lt] at hquorum
        split
        case isTrue => exact Relation.ReflTransGen.refl
        case isFalse hcomplete =>
          rw [Bool.not_eq_false] at hcomplete
          have hsupports := supports_newViewMessage (o := o) hquorum hcomplete
          have hcovers := covers_newViewMessage (o := o) hcomplete
          show Runs c D e ⟨n, []⟩ ⟨(n.announce c (n.newViewMessage c o u)).processNewView c
            (n.newViewMessage c o u), []⟩
          by_cases hopen : n.activeView = true ∧ n.view = u
          · have hskip : (n.announce c (n.newViewMessage c o u)).processNewView c
                (n.newViewMessage c o u) = n.announce c (n.newViewMessage c o u) := if_pos hopen
            rw [hskip]
            exact Relation.ReflTransGen.single (Acts.announce hprimary rfl hfresh hsupports
              hcovers hopen.1 hopen.2.symm)
          · refine Relation.ReflTransGen.head (Acts.lead hprimary rfl hfresh hsupports hcovers hopen
              hview (hfit.respects_own hprimary hopen hview)) ?_
            refine processNewView_runs hopen fun _ => ⟨?_, rfl⟩
            exact ⟨_, List.mem_append_right _ (List.mem_singleton_self _), rfl⟩

theorem processNewView_spec (n : Node) (m : NewView) :
    (n.processNewView c m).view = m.view ∧ (n.processNewView c m).activeView = true ∧
      (n.processNewView c m).pendingNewView = n.pendingNewView := by
  unfold processNewView
  split
  case isTrue h => exact ⟨h.2, h.1, rfl⟩
  case isFalse => exact foldl_processEntry_sameView _ _

/-- The node has not changed, or it is active in the new view. -/
theorem tryBuildNewView_spec (n : Node) :
    n.tryBuildNewView c o u = n ∨ (n.tryBuildNewView c o u).view = u ∧
      (n.tryBuildNewView c o u).activeView = true ∧
        (n.tryBuildNewView c o u).pendingNewView = n.pendingNewView := by
  unfold tryBuildNewView
  repeat' split
  case isFalse => exact Or.inr (processNewView_spec _ _)
  all_goals exact Or.inl rfl

theorem foldl_collect
    {k : ℤ} {vc : ViewChange} (vSet : List VCEntry) (S : Dict ℤ ViewChange)
    (hS : S.get? k = some vc → n.stored u k = some vc)
    (h : (vSet.foldl (fun S v =>
      match n.referenced u v with
      | none => S
      | some vcMsg => S.set v.replicaID vcMsg) S).get? k = some vc) :
    n.stored u k = some vc := by
  induction vSet generalizing S with
  | nil => exact hS h
  | cons v rest ih =>
      rw [List.foldl_cons] at h
      refine ih _ ?_ h
      intro hget
      split at hget
      case h_1 => exact hS hget
      case h_2 vcMsg href =>
        rw [Dict.get?_set] at hget
        split at hget
        case isTrue hk =>
          cases hget
          unfold referenced at href
          rw [Option.filter_eq_some_iff] at href
          rw [hk]
          exact href.1
        case isFalse => exact hS hget

theorem stored_of_collect
    {k : ℤ} {vc : ViewChange} {vSet : List VCEntry}
    (h : (n.collect u vSet).get? k = some vc) :
    n.stored u k = some vc :=
  foldl_collect vSet Dict.empty (fun h => by cases h) h

theorem fetchMissing_runs (missing : List VCEntry) :
    Runs c D e ⟨n, []⟩ ⟨n.fetchMissing c m missing, []⟩ := by
  unfold fetchMissing
  induction missing generalizing n with
  | nil => exact Relation.ReflTransGen.refl
  | cons v rest ih =>
      rw [List.foldl_cons]
      refine Relation.ReflTransGen.trans ?_ ih
      unfold sendTo
      split
      case isTrue => exact Relation.ReflTransGen.refl
      case isFalse => exact Relation.ReflTransGen.single (Acts.fetch rfl)

/-- Starting a view change is a sequence of effects. -/
def Restarts (c : Config) (D : Defect → Prop) (e : Option Message) (again : Node → Node) : Prop :=
  ∀ n, Fit c D n → Runs c D e ⟨n, []⟩ ⟨again n, []⟩

theorem rejectPendingNewView_runs
    (hagain : Restarts c D e again)
    (hfit : Fit c D n) :
    Runs c D e ⟨n, []⟩ ⟨n.rejectPendingNewView again u, []⟩ := by
  have hdrop : Runs c D e ⟨n, []⟩
      ⟨{ n with pendingNewView := n.pendingNewView.erase u }, []⟩ :=
    Relation.ReflTransGen.single Acts.drop
  unfold rejectPendingNewView
  simp only
  split
  case isTrue => exact hdrop
  case isFalse => exact hdrop.trans (hagain _ (hfit.runs hdrop))

/-- A NEW-VIEW message that the node looks at keeps what it has accepted. -/
def Accords (D : Defect → Prop) (n : Node) (u : ℤ) : Prop :=
  D .contradiction ∨ ∀ m, n.pendingNewView.get? u = some m → n.view = u →
    n.activeView = false → n.Respects m

theorem Accords.respects
    (h : Accords D n u)
    (hfit : Fit c D n)
    (hm : n.pendingNewView.get? u = some m)
    (hopen : ¬(n.activeView = true ∧ n.view = m.view))
    (hview : n.view ≤ u) :
    D .contradiction ∨ n.Respects m := by
  rcases hfit.sane with hall | ⟨-, hsane⟩
  · exact Or.inl (hall _)
  refine h.imp_right fun h => ?_
  have heq : m.view = u := (hfit.held u m hm).1
  rcases hview.lt_or_eq with hlt | hsame
  · intro x _ _ hx
    have hle := hsane.bounded _ _ hx
    have hle' : m.view ≤ n.view := hle
    omega
  · refine h m hm hsame ?_
    rw [← Bool.not_eq_true]
    exact fun hactive => hopen ⟨hactive, hsame.trans heq.symm⟩

theorem tryVerifyNewView_runs
    (hagain : Restarts c D e again)
    (hfit : Fit c D n)
    (haccords : Accords D n u) :
    Runs c D e ⟨n, []⟩ ⟨n.tryVerifyNewView c again o u, []⟩ := by
  unfold tryVerifyNewView
  split
  case h_1 => exact Relation.ReflTransGen.refl
  case h_2 m hm =>
    split
    case isTrue => exact Relation.ReflTransGen.refl
    case isFalse hview =>
      rw [not_lt] at hview
      simp only
      split
      case isTrue => exact fetchMissing_runs _
      case isFalse =>
        split
        case isTrue => exact rejectPendingNewView_runs hagain hfit
        case isFalse hquorum =>
          rw [not_lt] at hquorum
          split
          case isTrue => exact rejectPendingNewView_runs hagain hfit
          case isFalse hagrees =>
            rw [Bool.not_eq_false] at hagrees
            obtain ⟨rfl, hsender, hother, hstrict⟩ := hfit.held _ m hm
            by_cases hopen : n.activeView = true ∧ n.view = m.view
            · have hskip : ({ n with
                  pendingNewView := n.pendingNewView.erase m.view } : Node).processNewView c m =
                  { n with pendingNewView := n.pendingNewView.erase m.view } := if_pos hopen
              rw [hskip]
              exact Relation.ReflTransGen.single Acts.drop
            · have hsupports : n.Supports c (n.collect m.view m.vSet) m :=
                ⟨hquorum, fun _ _ h => stored_of_collect h, o, hagrees⟩
              have hcovers : D .looseX ∨ Covers (n.collect m.view m.vSet) m :=
                hstrict.imp_right fun h _ hseq => covers_of_agreesWith hagrees h.1 h.2 hseq
              refine Relation.ReflTransGen.head (Acts.install hm hsupports hcovers hopen hview
                (haccords.respects hfit hm hopen hview)) ?_
              refine processNewView_runs hopen ?_
              intro hprimary
              exact absurd (hsender.trans hprimary) hother

theorem acknowledge_runs (vc : ViewChange) :
    Runs c D e ⟨n, []⟩ ⟨n.acknowledge c vc, []⟩ := by
  unfold acknowledge
  split
  case isTrue => exact Relation.ReflTransGen.refl
  case isFalse =>
    unfold sendTo
    split
    case isTrue => exact Relation.ReflTransGen.refl
    case isFalse => exact Relation.ReflTransGen.single (Acts.acknowledge rfl)

theorem acknowledge_spec (n : Node) (vc : ViewChange) :
    ∃ sent, n.acknowledge c vc = { n with sent := sent } := by
  unfold acknowledge sendTo
  repeat' split
  all_goals exact ⟨_, rfl⟩

theorem onViewChange_runs
    {vc : ViewChange} {o' : Orders}
    (hagain : Restarts c D e again)
    (hfit : Fit c D n)
    (horigin : e = some (.viewChange vc) ∨ vc.senderID = n.id ∧ n.HasSent (.viewChange vc))
    (haccords : Accords D n vc.view) :
    Runs c D e ⟨n, []⟩ ⟨n.onViewChange c again o o' vc, []⟩ := by
  unfold onViewChange
  split
  case isTrue => exact Relation.ReflTransGen.refl
  case isFalse hview =>
    rw [not_lt] at hview
    split
    case isTrue => exact Relation.ReflTransGen.refl
    case isFalse =>
      split
      case isTrue => exact Relation.ReflTransGen.refl
      case isFalse hfresh =>
        rw [Dict.contains, Bool.not_eq_true, Option.isSome_eq_false_iff,
          Option.isNone_iff_eq_none] at hfresh
        have hstore : Runs c D e ⟨n, []⟩ ⟨(n.storeViewChange vc).acknowledge c vc, []⟩ :=
          Relation.ReflTransGen.head (Acts.store horigin hfresh) (acknowledge_runs vc)
        obtain ⟨sent, hsent⟩ := acknowledge_spec (c := c) (n.storeViewChange vc) vc
        simp only
        rw [hsent] at hstore ⊢
        have hfit' := hfit.runs hstore
        have hbuild := tryBuildNewView_runs (e := e) (o := o) (u := vc.view) hfit' (Or.inr hview)
        refine hstore.trans (hbuild.trans ?_)
        refine tryVerifyNewView_runs hagain (hfit'.runs hbuild) ?_
        refine haccords.imp_right fun haccords => ?_
        rcases tryBuildNewView_spec (c := c) (o := o) (u := vc.view)
          { n.storeViewChange vc with sent := sent } with hsame | ⟨-, hactive, -⟩
        · rw [hsame]
          exact haccords
        · intro m _ _ hwaiting
          rw [hactive] at hwaiting
          cases hwaiting

/-- A view that the node enters by giving up the one before has no accepted
PRE-PREPARE yet. -/
theorem accords_leaveView
    {vc : ViewChange}
    (hfit : Fit c D n) :
    Accords D (n.leaveView.broadcast c (.viewChange vc)) (n.view + 1) := by
  rcases hfit.sane with hall | ⟨-, hsane⟩
  · exact Or.inl (hall _)
  right
  intro m hm _ _ x _ _ hx
  have hle := hsane.bounded _ _ hx
  have heq : m.view = n.view + 1 := (hfit.held _ m hm).1
  have hle' : m.view ≤ n.view := hle
  omega

theorem startViewChange_runs (fuel : ℕ) (o : ℕ → Orders) :
    Restarts c D e (startViewChange c fuel o) := by
  induction fuel generalizing o with
  | zero => exact fun n _ => Relation.ReflTransGen.refl
  | succ fuel ih =>
      intro n hfit
      have hleave : Runs c D e ⟨n, []⟩
          ⟨n.leaveView.broadcast c (.viewChange (n.viewChangeMessage (o 0))), []⟩ :=
        Relation.ReflTransGen.single (Acts.leave (o 0))
      refine hleave.trans (onViewChange_runs (ih _) (hfit.runs hleave) (Or.inr ⟨rfl, ?_⟩)
        (accords_leaveView hfit))
      exact ⟨_, List.mem_append_right _ (List.mem_singleton_self _), rfl⟩

/-! The bound on the number of passes -/

theorem tryVerifyNewView_congr
    {again' : Node → Node}
    (h : ∀ m : Node, m.pendingNewView.size < n.pendingNewView.size → again m = again' m) :
    n.tryVerifyNewView c again o u = n.tryVerifyNewView c again' o u := by
  unfold tryVerifyNewView
  split
  case h_1 => rfl
  case h_2 m hm =>
    have hreject : n.rejectPendingNewView again u = n.rejectPendingNewView again' u := by
      unfold rejectPendingNewView
      simp only
      rw [h { n with pendingNewView := n.pendingNewView.erase u } (Dict.size_erase_lt hm)]
    rw [hreject]

theorem onViewChange_congr
    {again' : Node → Node} {vc : ViewChange} {o' : Orders}
    (h : ∀ m : Node, m.pendingNewView.size < n.pendingNewView.size → again m = again' m) :
    n.onViewChange c again o o' vc = n.onViewChange c again' o o' vc := by
  unfold onViewChange
  simp only
  obtain ⟨sent, hsent⟩ := acknowledge_spec (c := c) (n.storeViewChange vc) vc
  rw [hsent]
  have hpending : (tryBuildNewView c o { n.storeViewChange vc with sent := sent }
      vc.view).pendingNewView = n.pendingNewView := by
    rcases tryBuildNewView_spec (c := c) (o := o) (u := vc.view)
      { n.storeViewChange vc with sent := sent } with hsame | ⟨-, -, hpending⟩
    · rw [hsame]
      rfl
    · exact hpending
  have hverify := tryVerifyNewView_congr (c := c) (o := o') (u := vc.view) fun m hm =>
    h m (by rwa [hpending] at hm)
  rw [hverify]

/-- More passes than pending NEW-VIEW messages make no difference. -/
theorem startViewChange_eq
    {fuel fuel' : ℕ}
    (h : n.pendingNewView.size < fuel)
    (h' : n.pendingNewView.size < fuel') (o : ℕ → Orders) :
    n.startViewChange c fuel o = n.startViewChange c fuel' o := by
  induction fuel generalizing fuel' n o with
  | zero => omega
  | succ fuel ih =>
      cases fuel' with
      | zero => omega
      | succ fuel' =>
          refine onViewChange_congr ?_
          intro m hm
          change m.pendingNewView.size < n.pendingNewView.size at hm
          exact ih (by omega) (by omega) _

theorem changeView_runs (o : ℕ → Orders) : Restarts c D e (changeView c o) :=
  fun n => startViewChange_runs (n.pendingNewView.size + 1) o n

theorem tryBuildNewView_of_size_lt
    (h : n.id = primary c u → u ∉ n.newViewSent → (n.qualified c u).size < quorumSize c.F) :
    n.tryBuildNewView c o u = n := by
  unfold tryBuildNewView
  split
  case isTrue => rfl
  case isFalse hprimary =>
    split
    case isTrue => rfl
    case isFalse hfresh => exact if_pos (h (not_not.mp hprimary).symm hfresh)

theorem onViewChangeAck_runs
    {a : ViewChangeAck}
    (hfit : Fit c D n)
    (hregress : D .regress ∨ (a.view < n.view → n.id = primary c a.view →
      a.view ∉ n.newViewSent → ((n.acknowledged a).qualified c a.view).size < quorumSize c.F)) :
    Runs c D e ⟨n, []⟩ ⟨n.onViewChangeAck c o a, []⟩ := by
  unfold onViewChangeAck
  split
  case isTrue => exact Relation.ReflTransGen.refl
  case isFalse =>
    have hquiet : Quiet n (n.acknowledged a) := ⟨_, _, _, _, _, _, rfl⟩
    have hcounted := quiet_runs (c := c) (D := D) (e := e) (r := []) hquiet
    refine hcounted.trans ?_
    show Runs c D e ⟨n.acknowledged a, []⟩ ⟨(n.acknowledged a).tryBuildNewView c o a.view, []⟩
    rcases hregress with hD | hsmall
    · exact tryBuildNewView_runs (hfit.runs hcounted) (Or.inl hD)
    · rcases le_or_gt n.view a.view with hle | hlt
      · exact tryBuildNewView_runs (hfit.runs hcounted) (Or.inr hle)
      · rw [tryBuildNewView_of_size_lt (hsmall hlt)]

theorem onNewView_runs
    (he : e = some (.newView m))
    (hagain : Restarts c D e again)
    (hfit : Fit c D n)
    (hother : m.senderID ≠ n.id)
    (hstrict : D .looseX ∨ (m.senderID = primary c m.view → n.view ≤ m.view → Strict m))
    (hrespects : D .contradiction ∨ (m.view = n.view → n.Respects m)) :
    Runs c D e ⟨n, []⟩ ⟨n.onNewView c again o m, []⟩ := by
  unfold onNewView
  split
  case isTrue => exact Relation.ReflTransGen.refl
  case isFalse hsender =>
    split
    case isTrue => exact Relation.ReflTransGen.refl
    case isFalse hview =>
      rw [not_not] at hsender
      have hhold := Relation.ReflTransGen.single (Acts.hold (c := c) (D := D) (n := n) he hsender
        hother (hstrict.imp_right fun h => h hsender (not_lt.mp hview)))
      refine hhold.trans (tryVerifyNewView_runs hagain (hfit.runs hhold) ?_)
      refine hrespects.imp_right fun hrespects => ?_
      intro m' hm' hview _
      simp only [Dict.get?_set, if_true, Option.some.injEq] at hm'
      subst hm'
      exact hrespects hview.symm

theorem onFetchViewChange_runs (f : FetchViewChange) :
    Runs c D e ⟨n, []⟩ ⟨n.onFetchViewChange c f, []⟩ := by
  unfold onFetchViewChange
  split
  case h_1 => exact Relation.ReflTransGen.refl
  case h_2 vc hstored =>
    unfold sendTo
    split
    case isTrue => exact Relation.ReflTransGen.refl
    case isFalse => exact Relation.ReflTransGen.single (Acts.forward hstored)

end NewViews

/-! ## Every handler -/

section Handlers

/-- A received message does not come from the node itself, unless it forwards one
of its VIEW-CHANGE messages. -/
def Foreign (n : Node) (m : Message) : Prop :=
  (∀ p, m = .prePrepare p → p.senderID ≠ n.id) ∧ ∀ v, m = .newView v → v.senderID ≠ n.id

theorem handleMessage_runs
    {m : Message}
    (hfit : Fit c D n)
    (hforeign : n.Foreign m)
    (havoids : ∀ x, D x ∨ n.Avoids c m x)
    (o : ℕ → Orders) :
    Runs c D (some m) ⟨n, []⟩ ⟨n.handleMessage c o m, []⟩ := by
  cases m with
  | request r =>
      exact onRequest_runs rfl hfit ((havoids .nullDigest).imp_right fun h => h.1 r rfl)
        ((havoids .stalePrepare).imp_right fun h => h.2 r rfl)
  | prePrepare p =>
      exact onPrePrepare_runs rfl (hforeign.1 p rfl)
        ((havoids .earlyAccept).imp_right fun h => h p rfl)
        ((havoids .nullDigest).imp_right fun h => h.2 p rfl)
  | prepare v =>
      exact onPrepare_runs rfl ((havoids .primaryVote).imp_right fun h => h v rfl)
        ((havoids .stalePrepare).imp_right fun h => h.1 v rfl)
  | commit v => exact onCommit_runs rfl
  | viewChange vc =>
      refine onViewChange_runs (changeView_runs _) hfit (Or.inl rfl) ?_
      refine (havoids .contradiction).imp_right fun h => ?_
      intro m hm hview _
      exact h m hm ((hfit.held _ m hm).1.trans hview.symm)
  | viewChangeAck a =>
      exact onViewChangeAck_runs hfit ((havoids .regress).imp_right fun h => h a rfl)
  | newView m =>
      exact onNewView_runs rfl (changeView_runs _) hfit (hforeign.2 m rfl)
        ((havoids .looseX).imp_right fun h => h m rfl)
        ((havoids .contradiction).imp_right fun h => h m rfl)
  | fetchViewChange f => exact onFetchViewChange_runs f

theorem requestTimeout_runs
    (hfit : Fit c D n)
    (o : ℕ → Orders) :
    Runs c D none ⟨n, []⟩ ⟨n.requestTimeout c o, []⟩ := by
  have hquiet : Quiet n { n with timerActive := false } := ⟨_, _, _, _, _, _, rfl⟩
  have hstopped := quiet_runs (c := c) (D := D) (e := none) (r := []) hquiet
  exact hstopped.trans (changeView_runs o _ (hfit.runs hstopped))

end Handlers

end Node

end PbftSimulator
end DistributedConsensus
