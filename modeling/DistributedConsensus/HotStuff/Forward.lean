import DistributedConsensus.HotStuff.Tallies

/-!
# Basic HotStuff: views and locks

A replica takes the certificate of a PRE-COMMIT and the lock of a COMMIT whatever its own
are, so a late message of an old view sets them back.  The view is set back by a decision
of a view that was never entered: a negative one, or one that was skipped by a decision
with a partial signature.  As long as no such message is accepted, nothing moves back
(`locks_move_forward`).
-/

namespace DistributedConsensus
namespace HotStuff
namespace Replica

open Foundations

variable {Cmd : Type} [Application Cmd]

/-- The checks at the head of a phase handler pass. -/
def Accepted (cfg : Config) (m : Msg Cmd) (t : MsgType) : Prop :=
  m.sender = cfg.leader m.viewNumber ∧ matchingQc m.justify t m.viewNumber = true ∧
    verifyJustify cfg m.justify = true

omit [Application Cmd] in
theorem Accepts.accepted
    {cfg : Config} {m : Msg Cmd} {t : MsgType} {qc : QC}
    (h : Accepts cfg m t qc) :
    Accepted cfg m t := by
  refine ⟨h.sender, ?_, ?_⟩
  · simp [h.justify, matchingQc, h.type, h.view]
  · rw [h.justify]
    exact h.verified

/-- The vote is counted and completes a quorum. -/
def completes (cfg : Config) (r : Replica Cmd) (m : Msg Cmd) : Bool :=
  match m.partialSig, m.node with
  | some (rid, sig), some node =>
      (pyIndex (verifyKeys cfg.n) rid).any
          (fun vk => verifyVote vk m.type m.viewNumber node.hash sig) &&
        decide ((m.type, m.viewNumber, node.hash) ∉ r.formed) &&
        decide (cfg.quorum ≤ (r.votesWith m rid node).size)
  | _, _ => false

/-- The input is not of an old view: no certificate of an earlier view replaces the
prepared certificate or the lock, and a decision is of a view that was entered. -/
def Forward (cfg : Config) (r : Replica Cmd) : Input Cmd → Prop
  | .dispatch m =>
      (m.type = .preCommit → m.partialSig.isSome = false → Accepted cfg m .prepare →
        r.prepareQc.viewNumber ≤ m.viewNumber) ∧
      (m.type = .prepare → completes cfg r m = true →
        r.prepareQc.viewNumber ≤ m.viewNumber) ∧
      (m.type = .commit → m.partialSig.isSome = false → Accepted cfg m .preCommit →
        m.justify.any (fun qc => r.tree.has qc.nodeHash) = true →
        r.lockedQc.viewNumber ≤ m.viewNumber) ∧
      (m.type = .decide → Accepted cfg m .commit → 0 ≤ m.viewNumber ∧
        (m.partialSig.isSome = false ∨ m.viewNumber ≤ r.view))
  | _ => True

instance (cfg : Config) (m : Msg Cmd) (t : MsgType) : Decidable (Accepted cfg m t) :=
  inferInstanceAs (Decidable (_ ∧ _ ∧ _))

instance (cfg : Config) (r : Replica Cmd) (i : Input Cmd) : Decidable (Forward cfg r i) :=
  match i with
  | .dispatch _ => inferInstanceAs (Decidable (_ ∧ _ ∧ _ ∧ _))
  | .start => isTrue trivial
  | .submit _ => isTrue trivial
  | .timeout => isTrue trivial
  | .stop => isTrue trivial

/-! ## What moves -/

section Counters

variable {c c' c'' : Counters Cmd}

/-- Nothing has moved back. -/
structure Counters.Ahead (c c' : Counters Cmd) : Prop where
  view : c.view ≤ c'.view
  lockedQc : c.lockedQc.viewNumber ≤ c'.lockedQc.viewNumber
  prepareQc : c.prepareQc.viewNumber ≤ c'.prepareQc.viewNumber

/-- All earlier views have been left, and the decisions that are kept are of views that
have been entered. -/
structure Counters.Tracked (c : Counters Cmd) : Prop where
  nonneg : 0 ≤ c.view
  left : ∀ view, 0 ≤ view → view < c.view → view ∈ c.left
  deferred : ∀ m ∈ c.deferred, 0 ≤ m.viewNumber ∧ m.viewNumber ≤ c.view

theorem Counters.Ahead.refl (c : Counters Cmd) : c.Ahead c :=
  ⟨le_refl _, le_refl _, le_refl _⟩

theorem Counters.Ahead.trans
    (h : c.Ahead c')
    (h' : c'.Ahead c'') :
    c.Ahead c'' where
  view := le_trans h.view h'.view
  lockedQc := le_trans h.lockedQc h'.lockedQc
  prepareQc := le_trans h.prepareQc h'.prepareQc

/-- Leaving a view that was entered goes forward. -/
theorem Counters.Tracked.leave
    {view : Int}
    (h : c.Tracked)
    (hnonneg : 0 ≤ view)
    (hview : view ≤ c.view) :
    c.Ahead (c.leave view) ∧ (c.leave view).Tracked := by
  unfold Counters.leave
  split
  case isTrue => exact ⟨.refl c, h⟩
  case isFalse hnot =>
    have heq : view = c.view := by
      by_contra hne
      exact hnot (h.left view hnonneg (by omega))
    subst heq
    refine ⟨⟨Int.le_add_one hview, le_refl _, le_refl _⟩, Int.le_add_one hnonneg, ?_, ?_⟩
    · intro view' hnonneg' hlt
      rw [List.mem_insert_iff]
      by_cases hview' : view' = c.view
      · exact Or.inl hview'
      · refine Or.inr (h.left view' hnonneg' ?_)
        simp only at hlt
        omega
    · intro m hm
      have := h.deferred m hm
      simp only
      omega

/-- Entering a later view goes forward. -/
theorem Counters.Tracked.sync
    {view : Int}
    (h : c.Tracked)
    (hview : c.view < view) :
    c.Ahead (c.sync view) ∧ (c.sync view).Tracked := by
  have hnonneg := h.nonneg
  refine ⟨⟨le_of_lt hview, le_refl _, le_refl _⟩, ?_, ?_, ?_⟩
  · change 0 ≤ view
    omega
  · intro view' hnonneg' hlt
    have hlt : view' < view := hlt
    refine List.mem_append.mpr ?_
    by_cases hold : view' < c.view
    · exact Or.inr (h.left view' hnonneg' hold)
    · refine Or.inl (List.mem_map.mpr ⟨(view' - c.view).toNat, ?_, by omega⟩)
      rw [List.mem_range]
      omega
  · intro m hm
    have hkept := h.deferred m hm
    change 0 ≤ m.viewNumber ∧ m.viewNumber ≤ view
    omega

end Counters

/-! ## Steps -/

section Steps

variable {cfg : Config} {r r' s : Replica Cmd} {m : Msg Cmd}

/-- Forward, with the views left behind. -/
structure Advances (r r' : Replica Cmd) : Prop where
  ahead : r.counters.Ahead r'.counters
  tracked : r'.counters.Tracked

theorem Advances.of_eq
    (h : r.counters.Tracked)
    (heq : r'.counters = r.counters) :
    Advances r r' := by
  constructor
  · rw [heq]
    exact .refl _
  · rw [heq]
    exact h

theorem Advances.trans
    (h : Advances r s)
    (h' : Advances s r') :
    Advances r r' :=
  ⟨h.ahead.trans h'.ahead, h'.tracked⟩

/-- A new certificate that is not older. -/
theorem Advances.of_certificates
    {lockedQc prepareQc : QC}
    (h : r.counters.Tracked)
    (hlocked : r.lockedQc.viewNumber ≤ lockedQc.viewNumber)
    (hprepare : r.prepareQc.viewNumber ≤ prepareQc.viewNumber)
    {votes : Dict VoteKey (Dict Int (Msg Cmd))} {formed : List VoteKey}
    (heq : r'.counters = { r.counters with
      votes := votes, formed := formed, lockedQc := lockedQc, prepareQc := prepareQc }) :
    Advances r r' := by
  constructor
  · rw [heq]
    exact ⟨le_refl _, hlocked, hprepare⟩
  · rw [heq]
    exact ⟨h.nonneg, h.left, h.deferred⟩

/-- Counting a vote moves nothing. -/
theorem tally_frame (cfg : Config) (r : Replica Cmd) (m : Msg Cmd) :
    ∃ votes formed, (r.tally cfg m).2.counters =
      { r.counters with votes := votes, formed := formed } := by
  rcases counters_tally cfg r m with ⟨-, hsame⟩ | ⟨rid, sig, node, -, -, formed, hcounters⟩
  · exact ⟨r.votes, r.formed, hsame⟩
  · exact ⟨_, formed, hcounters⟩

/-- A quorum is completed as `completes` says. -/
theorem Counted.completes
    {rid : Int} {sig : Sig} {node : Node Cmd}
    (h : Counted cfg r m rid sig node)
    (hquorum : cfg.quorum ≤ (r.votesWith m rid node).size) :
    completes cfg r m = true := by
  obtain ⟨vk, hvk, hsig⟩ := h.signed
  simp [Replica.completes, h.partialSig, h.voted, hvk, hsig, verifyVote, h.fresh, hquorum]

theorem advances_onPrepareVote
    (h : r.counters.Tracked)
    (htallied : Tallied cfg r.counters)
    (hforward : completes cfg r m = true → r.prepareQc.viewNumber ≤ m.viewNumber) :
    Advances r (r.onPrepareVote cfg m) := by
  obtain ⟨votes, formed, hframe⟩ := tally_frame cfg r m
  rcases counters_onPrepareVote cfg r m with heq | ⟨winners, qc, hsome, hqc, heq⟩
  · exact .of_certificates h (le_refl _) (le_refl _) (heq.trans hframe)
  · obtain ⟨rid, sig, node, hcounted, hquorum, rfl⟩ := tally_eq_some hsome
    have hview : qc.viewNumber = m.viewNumber := by
      have hkey := htallied.buildQc_spec hcounted hqc
      simp only [Prod.mk.injEq] at hkey
      exact hkey.2.1
    have hle : r.prepareQc.viewNumber ≤ qc.viewNumber := by
      rw [hview]
      exact hforward (hcounted.completes hquorum)
    rw [hframe] at heq
    exact .of_certificates h (le_refl _) hle heq

theorem advances_onDecide
    (h : r.counters.Tracked)
    (hforward : Accepted cfg m .commit → 0 ≤ m.viewNumber ∧ m.viewNumber ≤ r.view) :
    Advances r (r.onDecide cfg m) := by
  rcases counters_onDecide cfg r m with heq | ⟨qc, haccepts, heq | heq⟩
  · exact .of_eq h heq
  · constructor
    · rw [heq]
      exact ⟨le_refl _, le_refl _, le_refl _⟩
    · rw [heq]
      refine ⟨h.nonneg, h.left, ?_⟩
      intro m' hm'
      rcases List.mem_append.mp hm' with hold | hnew
      · exact h.deferred m' hold
      · rw [List.mem_singleton] at hnew
        subst hnew
        exact hforward haccepts.accepted
  · have hview := hforward haccepts.accepted
    obtain ⟨hahead, htracked⟩ := h.leave hview.1 hview.2
    exact ⟨heq ▸ hahead, heq ▸ htracked⟩

/-- Decisions that were kept are of views that have been entered. -/
theorem advances_foldl_onDecide
    (ms : List (Msg Cmd))
    (h : r.counters.Tracked)
    (hforward : ∀ m ∈ ms, 0 ≤ m.viewNumber ∧ m.viewNumber ≤ r.view) :
    Advances r (ms.foldl (onDecide cfg) r) := by
  induction ms generalizing r with
  | nil => exact .of_eq h rfl
  | cons m ms ih =>
      have hfirst : Advances r (r.onDecide cfg m) :=
        advances_onDecide h fun _ => hforward m List.mem_cons_self
      refine hfirst.trans (ih hfirst.tracked ?_)
      intro m' hm'
      have hkept := hforward m' (List.mem_cons_of_mem _ hm')
      have hview : r.view ≤ (r.onDecide cfg m).view := hfirst.ahead.view
      omega

theorem advances_onSyncResp
    (h : r.counters.Tracked) :
    Advances r (r.onSyncResp cfg m) := by
  rcases counters_onSyncResp cfg r m with heq | ⟨s, hs, heq⟩
  · exact .of_eq h heq
  · have hretry : Advances r s := by
      constructor
      · rw [hs]
        exact ⟨le_refl _, le_refl _, le_refl _⟩
      · rw [hs]
        exact ⟨h.nonneg, h.left, fun _ hnil => nomatch hnil⟩
    rw [heq]
    refine hretry.trans (advances_foldl_onDecide _ hretry.tracked ?_)
    intro m' hm'
    rw [show s.view = r.view from congrArg Counters.view hs]
    exact h.deferred m' hm'

/-- The handler of a message goes forward. -/
theorem Handled.advances
    (hhandled : Handled cfg r m r')
    (h : r.counters.Tracked)
    (htallied : Tallied cfg r.counters)
    (hview : m.partialSig = none → m.type = .prepare ∨ m.type = .decide → m.viewNumber ≤ r.view)
    (hforward : Forward cfg r (.dispatch m)) :
    Advances r r' := by
  obtain ⟨hprepared, hquorum, hlocked, hdecided⟩ := hforward
  cases hhandled with
  | newView => exact .of_eq h (by simp)
  | prepareVote htype => exact advances_onPrepareVote h htallied (hquorum htype)
  | prepare htype hnone =>
      have hle := hview hnone (Or.inl htype)
      rcases counters_onPrepare cfg r m with heq | heq
      · exact .of_eq h heq
      · refine .of_eq h (heq.trans ?_)
        rw [max_eq_left hle]
        rfl
  | genericVote =>
      obtain ⟨votes, formed, hframe⟩ := tally_frame cfg r m
      exact .of_certificates h (le_refl _) (le_refl _)
        ((counters_onGenericVote cfg r m).trans hframe)
  | preCommit htype hnone =>
      rcases counters_onPreCommit cfg r m with heq | ⟨qc, haccepts, heq⟩
      · exact .of_eq h heq
      · have hle := hprepared htype (by simp [hnone]) haccepts.accepted
        rw [← haccepts.view] at hle
        exact .of_certificates h (le_refl _) hle heq
  | commit htype hnone =>
      rcases counters_onCommit cfg r m with heq | ⟨qc, haccepts, hhas, heq⟩
      · exact .of_eq h heq
      · have hle := hlocked htype (by simp [hnone]) haccepts.accepted
          (by simp [haccepts.justify, hhas])
        rw [← haccepts.view] at hle
        exact .of_certificates h hle (le_refl _) heq
  | decide htype =>
      refine advances_onDecide h fun haccepted => ?_
      obtain ⟨hnonneg, hnone | hle⟩ := hdecided htype haccepted
      · exact ⟨hnonneg, hview (by simpa using hnone) (Or.inr htype)⟩
      · exact ⟨hnonneg, hle⟩
  | syncReq => exact .of_eq h (by simp)
  | syncResp => exact advances_onSyncResp h
  | ignored => exact .of_eq h rfl

/-- **One step.**  A step that meets the condition goes forward. -/
theorem advances_step
    {i : Input Cmd}
    (h : r.counters.Tracked)
    (htallied : Tallied cfg r.counters)
    (hforward : Forward cfg r i)
    (hstep : r.step cfg i = some r') :
    Advances r r' := by
  cases occurs_of_step hstep with
  | start =>
      obtain ⟨hahead, htracked⟩ := h.leave (le_refl 0) h.nonneg
      constructor
      · rw [counters_advanceFrom]
        exact hahead
      · rw [counters_advanceFrom]
        exact htracked
  | dispatch m =>
      obtain ⟨s, hs, hview, hhandled⟩ :=
        dispatch_handled cfg { r with outbox := [], replies := [] } m
      rcases hs with rfl | ⟨hlt, rfl⟩
      · have hhere := hhandled.advances h htallied hview hforward
        exact ⟨hhere.ahead, hhere.tracked⟩
      · obtain ⟨hahead, htracked⟩ := h.sync hlt
        have hsync : Advances r
            (syncView cfg { r with outbox := [], replies := [] } m.viewNumber) :=
          ⟨hahead, htracked⟩
        refine hsync.trans (hhandled.advances htracked htallied hview ?_)
        obtain ⟨hprepared, hquorum, hlocked, hdecided⟩ := hforward
        exact ⟨hprepared, hquorum, hlocked, fun htype haccepted =>
          ⟨(hdecided htype haccepted).1, Or.inr (le_refl _)⟩⟩
  | submit cmd => exact .of_eq h (counters_submit cmd)
  | timeout view =>
      rcases counters_onTimeout cfg
          ({ r with outbox := [], replies := [], timer := none } : Replica Cmd) view with
        heq | ⟨rfl, heq⟩
      · exact .of_eq h heq
      · obtain ⟨hahead, htracked⟩ := h.leave h.nonneg (le_refl _)
        exact ⟨heq ▸ hahead, heq ▸ htracked⟩
  | stop => exact .of_eq h rfl

end Steps

/-! ## Runs -/

section Runs

variable {cfg : Config} {id : Nat} {sm : Option (Application.State Cmd)} {r r' : Replica Cmd}

theorem tracked_of_reachable
    (h : (exposed cfg id sm).Reachable (Forward cfg) r) :
    r.counters.Tracked := by
  refine System.Reachable.invariant (I := fun r => r.counters.Tracked) ?_ ?_ h
  · refine ⟨le_refl _, ?_, fun m hm => nomatch hm⟩
    intro view hnonneg hlt
    have hlt : view < 0 := hlt
    omega
  · intro r i r' hreach hinv hforward hstep
    have htallied := tallied_of_reachable (hreach.mono fun _ _ _ => trivial)
    exact (advances_step hinv htallied hforward hstep).tracked

/-- **Views and locks go forward.**  In a run whose inputs are not of old views, the view,
the view of the lock and the view of the prepared certificate never decrease. -/
theorem locks_move_forward
    (hreach : (exposed cfg id sm).Reachable (Forward cfg) r)
    (h : (exposed cfg id sm).Reaches (Forward cfg) r r') :
    r.view ≤ r'.view ∧ r.lockedQc.viewNumber ≤ r'.lockedQc.viewNumber ∧
      r.prepareQc.viewNumber ≤ r'.prepareQc.viewNumber := by
  have hahead : r.counters.Ahead r'.counters := by
    induction h with
    | refl => exact .refl _
    | tail hrun hforward hstep ih =>
        have hmiddle := hreach.trans hrun
        have htallied := tallied_of_reachable (hmiddle.mono fun _ _ _ => trivial)
        exact ih.trans
          (advances_step (tracked_of_reachable hmiddle) htallied hforward hstep).ahead
  exact ⟨hahead.view, hahead.lockedQc, hahead.prepareQc⟩

end Runs

/-- A block of a view below the genesis block. -/
def blockIn (view : Int) : Node String := createLeaf genesisHash "x" view

/-- The leader proposes the block of a view. -/
def proposalIn (view : Int) : Msg String where
  type := .prepare
  viewNumber := view
  sender := 0
  node := some (blockIn view)
  justify := some genesisQc
  partialSig := none
  payload := .none

/-- The leader starts a phase of a view with a certificate of replicas 0, 1 and 2. -/
def phaseIn (message certified : MsgType) (view : Int) : Msg String where
  type := message
  viewNumber := view
  sender := 0
  node := none
  justify := some ⟨certified, view, (blockIn view).hash,
    [0, 1, 2].map fun (k : Nat) => ((k : Int), signVote k certified view (blockIn view).hash)⟩
  partialSig := none
  payload := .none

/-- The replica locks the block of the first view, and then the block of the second. -/
theorem locks_move_forward_sample :
    ∃ r r' : Replica String,
      (exposed fourReplicas 3 none).Reachable (Forward fourReplicas) r ∧
      (exposed fourReplicas 3 none).Reaches (Forward fourReplicas) r r' ∧
      r.lockedQc.viewNumber = 1 ∧ r'.lockedQc.viewNumber = 2 ∧
      r.lockedQc.viewNumber ≤ r'.lockedQc.viewNumber := by
  obtain ⟨r, hreach, hlocked, hlater⟩ : ∃ r : Replica String,
      (exposed fourReplicas 3 none).Reaches (Forward fourReplicas) (new 3 none) r ∧
      r.lockedQc.viewNumber = 1 ∧
      ((exposed fourReplicas 3 none).exec (Forward fourReplicas) r
        [.dispatch (proposalIn 2), .dispatch (phaseIn .commit .preCommit 2)]).any
          (fun r' => decide (r'.lockedQc.viewNumber = 2)) = true := by
    refine System.exists_reaches_of_exec
      [.start, .dispatch (proposalIn 1), .dispatch (phaseIn .commit .preCommit 1)] ?_
    decide +kernel
  obtain ⟨r', hrun, hlocked'⟩ := System.exists_reaches_of_exec _ hlater
  exact ⟨r, r', hreach, hrun, hlocked, hlocked', (locks_move_forward hreach hrun).2.1⟩

/-- The messages of the first view arrive after those of the second. -/
theorem lock_moves_back :
    ∃ r r' : Replica String,
      (exposed fourReplicas 3 none).Reachable System.anyStep r ∧
      (exposed fourReplicas 3 none).Reaches System.anyStep r r' ∧
      r'.lockedQc.viewNumber < r.lockedQc.viewNumber ∧
      r'.prepareQc.viewNumber < r.prepareQc.viewNumber := by
  obtain ⟨r, hreach, ⟨hlocked, hprepared⟩, hlater⟩ : ∃ r : Replica String,
      (exposed fourReplicas 3 none).Reaches System.anyStep (new 3 none) r ∧
      (r.lockedQc.viewNumber = 2 ∧ r.prepareQc.viewNumber = 2) ∧
      ((exposed fourReplicas 3 none).exec System.anyStep r
        [.dispatch (phaseIn .preCommit .prepare 1), .dispatch (phaseIn .commit .preCommit 1)]).any
          (fun r' => decide (r'.lockedQc.viewNumber = 1 ∧ r'.prepareQc.viewNumber = 1)) =
        true := by
    refine System.exists_reaches_of_exec
      [.start, .dispatch (proposalIn 1), .dispatch (proposalIn 2),
        .dispatch (phaseIn .preCommit .prepare 2), .dispatch (phaseIn .commit .preCommit 2)] ?_
    decide +kernel
  obtain ⟨r', hrun, hlocked', hprepared'⟩ := System.exists_reaches_of_exec _ hlater
  exact ⟨r, r', hreach, hrun, by omega, by omega⟩

end Replica
end HotStuff
end DistributedConsensus
