import DistributedConsensus.RosPbft.AcrossViews
import DistributedConsensus.RosPbft.DeliveryOrder

/-!
# Emergency-stop PBFT: entering a view

A replica records votes under the keys of its own view only.  When it enters a view, at
the start or with a NEW-VIEW, nothing but the instance of the NEW-VIEW is kept there.
-/

namespace DistributedConsensus
namespace RosPbft

open Foundations

namespace PBFTReplica

variable {rs rs' : PBFTReplica} {key : MessageKey}

/-- No vote has been recorded. -/
structure VotesKept (rs rs' : PBFTReplica) : Prop where
  prepareSenders : rs'.prepareSenders = rs.prepareSenders
  pendingPrepares : ∀ m ∈ rs'.pendingPrepares, m ∈ rs.pendingPrepares
  prepareSent : rs'.prepareSent = rs.prepareSent
  preparedInstances : rs'.preparedInstances = rs.preparedInstances
  commitSenders : rs'.commitSenders = rs.commitSenders
  pendingCommits : ∀ m ∈ rs'.pendingCommits, m ∈ rs.pendingCommits
  commitSent : rs'.commitSent = rs.commitSent
  committedInstances : rs'.committedInstances = rs.committedInstances
  currentView : rs.currentView ≤ rs'.currentView

theorem VotesKept.of_eq
    (h : rs' = { rs with
      nextSequenceNumber := rs'.nextSequenceNumber
      emergencyStop := rs'.emergencyStop
      currentKey := rs'.currentKey
      cachedClientRequests := rs'.cachedClientRequests
      processedRequestIds := rs'.processedRequestIds
      instances := rs'.instances
      viewChangeMessages := rs'.viewChangeMessages
      viewChangeSent := rs'.viewChangeSent
      newViewSent := rs'.newViewSent
      recoveryPrePrepareSent := rs'.recoveryPrePrepareSent
      recoveryPrePrepareTimers := rs'.recoveryPrePrepareTimers
      acceptedNewViewPayloads := rs'.acceptedNewViewPayloads
      manualViewChangeTimer := rs'.manualViewChangeTimer
      progressTimeout := rs'.progressTimeout
      sent := rs'.sent }) :
    VotesKept rs rs' := by
  rw [h]
  exact ⟨rfl, fun _ hm => hm, rfl, rfl, rfl, fun _ hm => hm, rfl, rfl, le_rfl⟩

theorem VotesKept.refl (rs : PBFTReplica) : VotesKept rs rs := VotesKept.of_eq rfl

theorem VotesKept.trans {rs'' : PBFTReplica}
    (h : VotesKept rs rs')
    (h' : VotesKept rs' rs'') :
    VotesKept rs rs'' :=
  ⟨h'.prepareSenders.trans h.prepareSenders,
    fun m hm => h.pendingPrepares m (h'.pendingPrepares m hm), h'.prepareSent.trans h.prepareSent,
    h'.preparedInstances.trans h.preparedInstances, h'.commitSenders.trans h.commitSenders,
    fun m hm => h.pendingCommits m (h'.pendingCommits m hm), h'.commitSent.trans h.commitSent,
    h'.committedInstances.trans h.committedInstances, h.currentView.trans h'.currentView⟩

theorem armProgressTimeout_votesKept (rs : PBFTReplica) (requestId : String) :
    VotesKept rs (rs.armProgressTimeout requestId) := by
  obtain ⟨timeout, harm⟩ := armProgressTimeout_eq rs requestId
  rw [harm]
  exact VotesKept.of_eq rfl

theorem requestCallback_votesKept
    (digestOf : String → Bool → String) (rs : PBFTReplica) (m : PBFTMessage) :
    VotesKept rs (rs.requestCallback digestOf m) := by
  have hcached : ∀ rs₁, rs.validateAndCacheClientRequest digestOf m = some rs₁ →
      VotesKept rs rs₁ := by
    intro rs₁ h
    unfold validateAndCacheClientRequest at h
    split at h
    case isTrue => cases h
    case isFalse =>
      split at h
      case h_1 =>
        split at h
        case isTrue => cases h
        case isFalse =>
          obtain rfl := Option.some.inj h
          exact VotesKept.refl rs
      case h_2 =>
        obtain rfl := Option.some.inj h
        exact VotesKept.of_eq rfl
  have hprocess : ∀ rs₁ : PBFTReplica,
      VotesKept rs₁ (rs₁.processCachedRequestAsPrimary m.requestId) := by
    intro rs₁
    unfold processCachedRequestAsPrimary
    split
    case h_1 => exact VotesKept.refl rs₁
    case h_2 => exact VotesKept.trans (VotesKept.of_eq rfl) (armProgressTimeout_votesKept _ _)
  have hprimary : ∀ rs₁ : PBFTReplica, VotesKept rs₁
      (if rs₁.nodeId ≠ rs₁.primaryId then rs₁
      else if m.requestId ∈ rs₁.processedRequestIds then rs₁
      else rs₁.processCachedRequestAsPrimary m.requestId) := by
    intro rs₁
    split
    case isTrue => exact VotesKept.refl rs₁
    case isFalse =>
      split
      case isTrue => exact VotesKept.refl rs₁
      case isFalse => exact hprocess rs₁
  unfold requestCallback
  dsimp only
  split
  case h_1 => exact VotesKept.refl rs
  case h_2 rs₁ hcache =>
    refine (hcached rs₁ hcache).trans ?_
    have harm : VotesKept rs₁ (if rs.cachedClientRequests.contains m.requestId then rs₁
        else rs₁.armProgressTimeout m.requestId) := by
      split
      · exact VotesKept.refl rs₁
      · exact armProgressTimeout_votesKept rs₁ m.requestId
    exact harm.trans (hprimary _)

theorem viewChangeCallback_votesKept
    (maxFaulty : ℕ) (digestOf : String → Bool → String) (rs : PBFTReplica) (m : ViewChange) :
    VotesKept rs (rs.viewChangeCallback maxFaulty digestOf m) := by
  unfold viewChangeCallback maybePublishNewView
  repeat' split
  all_goals exact VotesKept.of_eq rfl

theorem initiateViewChange_votesKept
    (maxFaulty : ℕ) (digestOf : String → Bool → String) (rs : PBFTReplica) (newView : ℕ) :
    VotesKept rs (rs.initiateViewChange maxFaulty digestOf newView) := by
  unfold initiateViewChange
  split
  case isTrue => exact VotesKept.refl rs
  case isFalse =>
    split
    case isTrue => exact VotesKept.refl rs
    case isFalse =>
      split
      case h_1 => exact VotesKept.refl rs
      case h_2 m _ =>
        split
        case isTrue => exact VotesKept.refl rs
        case isFalse =>
          have hcall := viewChangeCallback_votesKept maxFaulty digestOf
            { rs with viewChangeSent := insert newView rs.viewChangeSent } m
          exact (VotesKept.of_eq rfl).trans (hcall.trans (VotesKept.of_eq rfl))


theorem newViewCallback_votesKept
    (maxFaulty : ℕ) (digestOf : String → Bool → String) (rs : PBFTReplica) (m : NewView) :
    VotesKept rs (rs.newViewCallback maxFaulty digestOf m) := by
  unfold newViewCallback
  split
  case isTrue => exact VotesKept.refl rs
  case isFalse =>
    split
    case h_1 => exact VotesKept.refl rs
    case h_2 content sequenceNumber hvalid =>
      have hview := (validateNewViewMessage_eq_some.mp hvalid).1
      dsimp only
      unfold activateNewView
      split
      case isTrue => exact VotesKept.of_eq rfl
      case isFalse =>
        split
        case isTrue => exact VotesKept.of_eq rfl
        case isFalse =>
          obtain ⟨timeout, harm⟩ := armProgressTimeout_eq (installView maxFaulty { rs with
            acceptedNewViewPayloads := rs.acceptedNewViewPayloads ++ [m] } m.newView content
              sequenceNumber) content.requestId
          dsimp only
          rw [harm]
          have hinstall : VotesKept rs { installView maxFaulty { rs with
              acceptedNewViewPayloads := rs.acceptedNewViewPayloads ++ [m] } m.newView content
                sequenceNumber with progressTimeout := timeout } :=
            ⟨rfl, fun _ hp => List.mem_of_mem_filter hp, rfl, rfl, rfl,
              fun _ hp => List.mem_of_mem_filter hp, rfl, rfl, hview.le⟩
          unfold scheduleRecoveryPrePrepare
          repeat' split
          all_goals first | exact hinstall | exact hinstall.trans (VotesKept.of_eq rfl)

/-- No votes are kept under the keys of later views. -/
def Ahead (rs : PBFTReplica) : Prop := ∀ key, rs.currentView < key.1 → rs.Untouched key

theorem Untouched.of_votesKept
    (h : rs.Untouched key)
    (hkept : VotesKept rs rs') :
    rs'.Untouched key := by
  constructor
  · rw [hkept.prepareSenders]
    exact h.prepareSenders
  · exact fun m hm => h.pendingPrepares m (hkept.pendingPrepares m hm)
  · rw [hkept.prepareSent]
    exact h.prepareSent
  · rw [hkept.preparedInstances]
    exact h.prepared
  · rw [hkept.commitSenders]
    exact h.commitSenders
  · exact fun m hm => h.pendingCommits m (hkept.pendingCommits m hm)
  · rw [hkept.commitSent]
    exact h.commitSent
  · rw [hkept.committedInstances]
    exact h.committed

theorem Ahead.of_votesKept
    (h : rs.Ahead)
    (hkept : VotesKept rs rs') :
    rs'.Ahead :=
  fun key hkey => (h key (hkept.currentView.trans_lt hkey)).of_votesKept hkept

theorem Untouched.of_within
    {key' : MessageKey}
    (h : rs.Untouched key)
    (hwithin : Within key' rs rs')
    (hkey : key ≠ key') :
    rs'.Untouched key := by
  have hslot := hwithin.others key hkey
  simp only [slot, Slot.mk.injEq, decide_eq_decide] at hslot
  obtain ⟨-, hprepares, hpending, hsent, hprepared, hcommits, hpending', hsent', hcommitted⟩ := hslot
  have hbuffer : ∀ ms ms' : List PBFTMessage, ms'.filter (·.key = key) = ms.filter (·.key = key) →
      (∀ m ∈ ms, m.key ≠ key) → ∀ m ∈ ms', m.key ≠ key := by
    intro ms ms' heq hms m hm hmkey
    have hmem : m ∈ ms'.filter (·.key = key) := List.mem_filter.mpr ⟨hm, by simpa using hmkey⟩
    rw [heq] at hmem
    exact hms m (List.mem_of_mem_filter hmem) hmkey
  exact ⟨hprepares.trans h.prepareSenders, hbuffer _ _ hpending h.pendingPrepares,
    fun hs => h.prepareSent (hsent.mp hs), fun hp => h.prepared (hprepared.mp hp),
    hcommits.trans h.commitSenders, hbuffer _ _ hpending' h.pendingCommits,
    fun hs => h.commitSent (hsent'.mp hs), fun hc => h.committed (hcommitted.mp hc)⟩

/-- The callback of a vote: the message is ignored or its key belongs to the view. -/
theorem receive_vote_cases
    (maxFaulty : ℕ) (digestOf : String → Bool → String) {x : Message}
    (hkey : x.key = some key)
    (rs : PBFTReplica) :
    rs.receive maxFaulty digestOf x = rs ∨ key.1 = rs.currentView := by
  by_cases hvalid : rs.Valid maxFaulty digestOf x
  · right
    obtain ⟨key', hkey', hview⟩ := hvalid.exists_key
    rw [hkey] at hkey'
    obtain rfl := Option.some.inj hkey'
    exact hview
  · left
    cases x with
    | prePrepare m => exact if_pos (Bool.eq_false_of_not_eq_true hvalid)
    | prepare m => exact if_pos (Bool.eq_false_of_not_eq_true hvalid)
    | commit m => exact if_pos (Bool.eq_false_of_not_eq_true hvalid)
    | request | viewChange | newView => cases hkey

theorem Ahead.vote
    (maxFaulty : ℕ) (digestOf : String → Bool → String) {x : Message}
    (h : rs.Ahead)
    (hkey : x.key = some key) :
    (rs.receive maxFaulty digestOf x).Ahead ∧
      (rs.receive maxFaulty digestOf x).currentView = rs.currentView := by
  have hwithin : Within key rs (rs.receive maxFaulty digestOf x) :=
    receive_within maxFaulty digestOf hkey
  refine ⟨fun k hk => ?_, hwithin.currentView⟩
  rcases receive_vote_cases maxFaulty digestOf hkey rs with heq | hview
  · rw [heq] at hk ⊢
    exact h k hk
  · rw [hwithin.currentView] at hk
    refine (h k hk).of_within hwithin ?_
    rintro rfl
    exact absurd hview (Nat.ne_of_gt hk)

end PBFTReplica

variable {D : Deployment}

/-- No callback records a vote of a later view. -/
theorem PBFTReplica.Ahead.handle
    {rs : PBFTReplica}
    (h : rs.Ahead) (e : Event) :
    (rs.handle D e).Ahead ∧ ((rs.handle D e).currentView = rs.currentView ∨
      VotesKept rs (rs.handle D e)) := by
  have hkeep : ∀ rs', VotesKept rs rs' → rs'.Ahead ∧
      (rs'.currentView = rs.currentView ∨ VotesKept rs rs') :=
    fun rs' hkept => ⟨h.of_votesKept hkept, Or.inr hkept⟩
  cases e with
  | deliver x =>
      cases x with
      | prePrepare m =>
          have hvote := h.vote D.f D.digestOf (x := .prePrepare m) rfl
          exact ⟨hvote.1, Or.inl hvote.2⟩
      | prepare m =>
          have hvote := h.vote D.f D.digestOf (x := .prepare m) rfl
          exact ⟨hvote.1, Or.inl hvote.2⟩
      | commit m =>
          have hvote := h.vote D.f D.digestOf (x := .commit m) rfl
          exact ⟨hvote.1, Or.inl hvote.2⟩
      | request m => exact hkeep _ (requestCallback_votesKept D.digestOf rs m)
      | viewChange m => exact hkeep _ (viewChangeCallback_votesKept D.f D.digestOf rs m)
      | newView m => exact hkeep _ (newViewCallback_votesKept D.f D.digestOf rs m)
  | progressTimeout =>
      refine hkeep _ ?_
      simp only [PBFTReplica.handle, progressTimeoutCallback]
      repeat' split
      all_goals first
        | exact VotesKept.of_eq rfl
        | exact (VotesKept.of_eq rfl).trans (initiateViewChange_votesKept D.f D.digestOf _ _)
  | manualViewChange =>
      refine hkeep _ ?_
      simp only [PBFTReplica.handle, manualViewChangeTimerCallback]
      split
      · exact VotesKept.of_eq rfl
      · exact (VotesKept.of_eq rfl).trans (initiateViewChange_votesKept D.f D.digestOf _ _)
  | recovery key =>
      refine hkeep _ ?_
      simp only [PBFTReplica.handle, publishRecoveryPrePrepare]
      repeat' split
      all_goals first
        | exact VotesKept.of_eq rfl
        | exact (VotesKept.of_eq rfl).trans (armProgressTimeout_votesKept _ _)

theorem PBFTReplica.ahead_foldl (i : ℤ) (p : Parameters) (es : List Event) :
    (es.foldl (fun rs e => rs.handle D e) (init D.f i p)).Ahead := by
  induction es using List.reverseRecOn with
  | nil => exact fun key _ => untouched_init D.f i p key
  | append_singleton es e ih =>
      rw [List.foldl_append, List.foldl_cons, List.foldl_nil]
      exact (ih.handle e).1

/-- **A view is entered without votes**, whatever has happened before. -/
theorem PBFTReplica.entered_handle (i : ℤ) (p : Parameters) (es : List Event) (e : Event) :
    let rs := es.foldl (fun rs e => rs.handle D e) (init D.f i p)
    rs.currentView < (rs.handle D e).currentView → (rs.handle D e).Entered := by
  intro rs hlt key hkey
  have hahead : rs.Ahead := ahead_foldl i p es
  rcases (hahead.handle e).2 with hsame | hkept
  · rw [hsame] at hlt
    exact absurd hlt (lt_irrefl _)
  · refine (hahead key ?_).of_votesKept hkept
    rw [hkey]
    exact hlt

/-- A PREPARE of view 1 comes before the NEW-VIEW and is not kept. -/
theorem PBFTReplica.entered_handle_early :
    let rs := (init 1 2 ⟨0, none, true⟩).handle Cluster.allCorrect
      (Cluster.prepareBy 3 1 1 Cluster.requestA)
    (rs.handle Cluster.allCorrect (.deliver (.newView Cluster.newViewA))).Entered :=
  entered_handle 2 ⟨0, none, true⟩ [Cluster.prepareBy 3 1 1 Cluster.requestA] _ (by decide +kernel)

end RosPbft
end DistributedConsensus
