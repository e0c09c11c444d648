import DistributedConsensus.RosPbft.Certificates

/-!
# Emergency-stop PBFT: what a replica shows to others

Observers see a replica through its PREPAREs, its COMMITs and its status messages, which
name the key that the replica works on and the emergency stop that it has executed.  A
callback about one key changes this data in one of a few ways (`Shows`).

A correct replica shows only what is so: the key it works on belongs to its view, it has
executed an emergency stop once it has committed anything, and its PREPAREs are for the
instances that it has adopted (`Faithful`).
-/

namespace DistributedConsensus
namespace RosPbft

open Foundations

variable {D : Deployment}

namespace PBFTReplica

variable {maxFaulty : ℕ} {digestOf : String → Bool → String} {key : MessageKey}
  {rs rs' rs'' : PBFTReplica}

/-! ## A callback about one key -/

section Callbacks

/-- What a callback about a key may do to the data that others see. -/
structure Shows (key : MessageKey) (rs rs' : PBFTReplica) : Prop where
  currentView : rs'.currentView = rs.currentView
  instances : rs'.instances = rs.instances
  currentKey : rs'.currentKey = rs.currentKey ∨ rs'.currentKey = some key
  executed : rs'.committedInstances = rs.committedInstances ∧
      rs'.emergencyStop = rs.emergencyStop ∨
    ∃ content, rs.instances.get? key = some content ∧
      rs'.emergencyStop = content.emergencyStop
  prepares : ∀ m, .prepare m ∈ rs'.sent →
    .prepare m ∈ rs.sent ∨ rs.instances.get? m.key = some m.content

/-- The data that others see, and what it is about. -/
def seen (rs : PBFTReplica) :=
  (rs.currentView, rs.instances, rs.currentKey, rs.committedInstances, rs.emergencyStop, rs.sent)

theorem Shows.of_seen
    (h : rs'.seen = rs.seen) :
    Shows key rs rs' := by
  simp only [seen, Prod.mk.injEq] at h
  obtain ⟨hview, hinstances, hkey, hcommitted, hstop, hsent⟩ := h
  exact ⟨hview, hinstances, Or.inl hkey, Or.inl ⟨hcommitted, hstop⟩, fun _ hm => Or.inl (hsent ▸ hm)⟩

theorem Shows.refl (key : MessageKey) (rs : PBFTReplica) : Shows key rs rs := Shows.of_seen rfl

/-- The replica turns to the key. -/
theorem Shows.of_turn
    (h : rs'.seen = { rs with currentKey := some key }.seen) :
    Shows key rs rs' := by
  have hshows : Shows key { rs with currentKey := some key } rs' := Shows.of_seen h
  refine ⟨hshows.currentView, hshows.instances, Or.inr ?_, hshows.executed, hshows.prepares⟩
  exact hshows.currentKey.elim id id

/-- A callback may return early. -/
theorem Shows.guard
    {c : Prop} [Decidable c]
    (h : ¬ c → Shows key rs rs') :
    Shows key rs (if c then rs else rs') := by
  split
  case isTrue => exact Shows.refl key rs
  case isFalse hc => exact h hc

theorem Shows.trans
    (h : Shows key rs rs')
    (h' : Shows key rs' rs'') :
    Shows key rs rs'' where
  currentView := h'.currentView.trans h.currentView
  instances := h'.instances.trans h.instances
  currentKey := by
    rcases h'.currentKey with hsame | hnew
    · rw [hsame]
      exact h.currentKey
    · exact Or.inr hnew
  executed := by
    rcases h'.executed with ⟨hsame, hstop⟩ | ⟨content, hget, hstop⟩
    · rw [hsame, hstop]
      exact h.executed
    · exact Or.inr ⟨content, h.instances ▸ hget, hstop⟩
  prepares m hm := by
    rcases h'.prepares m hm with hold | hget
    · exact h.prepares m hold
    · exact Or.inr (h.instances ▸ hget)

/-- A message is published that is no PREPARE, or one for an adopted instance. -/
theorem Shows.publish
    {m : Message}
    (h : Shows key rs rs')
    (hm : ∀ p, m = .prepare p → rs.instances.get? p.key = some p.content) :
    Shows key rs (rs'.publish m) where
  currentView := h.currentView
  instances := h.instances
  currentKey := h.currentKey
  executed := h.executed
  prepares p hp := by
    rcases List.mem_append.mp hp with hold | hnew
    · exact h.prepares p hold
    · exact Or.inr (hm p (List.mem_singleton.mp hnew).symm)

theorem armProgressTimeout_shows (key : MessageKey) (rs : PBFTReplica) (requestId : String) :
    Shows key rs (rs.armProgressTimeout requestId) := by
  obtain ⟨timeout, htimeout⟩ := armProgressTimeout_eq rs requestId
  rw [htimeout]
  exact Shows.of_seen rfl

theorem evaluateCommitted_shows (maxFaulty : ℕ) (key : MessageKey) (rs : PBFTReplica) :
    Shows key rs (rs.evaluateCommitted maxFaulty key) := by
  unfold evaluateCommitted
  refine Shows.guard fun _ => Shows.guard fun _ => Shows.guard fun _ => ?_
  split
  case h_1 => exact Shows.refl key rs
  case h_2 content hget =>
    exact ⟨rfl, rfl, Or.inr rfl, Or.inr ⟨content, hget, rfl⟩, fun _ h => Or.inl h⟩

theorem bufferEarlyCommit_shows (m : PBFTMessage) (rs : PBFTReplica) :
    Shows m.key rs (rs.bufferEarlyCommit m) := by
  unfold bufferEarlyCommit
  refine Shows.guard fun _ => ⟨rfl, rfl, ?_, Or.inl ⟨rfl, rfl⟩, fun _ h => Or.inl h⟩
  by_cases hstored : rs.instances.contains m.key
  · exact Or.inr (if_pos hstored)
  · exact Or.inl (if_neg hstored)

theorem acceptCommit_shows (maxFaulty : ℕ) (m : PBFTMessage) (rs : PBFTReplica) :
    Shows m.key rs (rs.acceptCommit maxFaulty m) := by
  unfold acceptCommit
  split
  case h_1 => exact Shows.refl m.key rs
  case h_2 =>
    refine Shows.guard fun _ => ?_
    split
    case isTrue => exact bufferEarlyCommit_shows m rs
    case isFalse =>
      refine Shows.guard fun _ => Shows.trans ?_ (evaluateCommitted_shows maxFaulty m.key _)
      exact Shows.of_turn rfl

/-- Handling the messages about one key one after the other. -/
theorem foldl_shows
    {handle : PBFTReplica → PBFTMessage → PBFTReplica} {pending : List PBFTMessage}
    (hhandle : ∀ m rs, Shows m.key rs (handle rs m)) :
    Shows key rs ((pending.filter (·.key = key)).foldl handle rs) := by
  induction pending generalizing rs with
  | nil => exact Shows.refl key rs
  | cons m pending ih =>
      rw [List.filter_cons]
      split
      case isTrue hkey =>
        have hm := hhandle m rs
        rw [of_decide_eq_true hkey] at hm
        exact hm.trans ih
      case isFalse => exact ih

theorem processPendingCommits_shows (maxFaulty : ℕ) (key : MessageKey) (rs : PBFTReplica) :
    Shows key rs (rs.processPendingCommits maxFaulty key) := by
  unfold processPendingCommits
  refine Shows.guard fun _ => ?_
  refine Shows.trans ?_ (foldl_shows (acceptCommit_shows maxFaulty))
  exact Shows.of_seen rfl

theorem sendCommit_shows (maxFaulty : ℕ) (key : MessageKey) (rs : PBFTReplica) :
    Shows key rs (rs.sendCommit maxFaulty key) := by
  unfold sendCommit
  refine Shows.guard fun _ => Shows.guard fun _ => ?_
  split
  case h_1 => exact Shows.refl key rs
  case h_2 content _ =>
    have hsent : Shows key rs { rs with commitSent := insert key rs.commitSent } :=
      Shows.of_seen rfl
    refine (hsent.trans
      (acceptCommit_shows maxFaulty (rs.outgoing PBFTMessage.commit key content) _)).publish ?_
    rintro p ⟨⟩

theorem commitCallback_shows (m : PBFTMessage) (rs : PBFTReplica) :
    Shows m.key rs (rs.commitCallback maxFaulty digestOf m) := by
  unfold commitCallback
  refine Shows.guard fun _ => ?_
  split
  case isTrue => exact bufferEarlyCommit_shows m rs
  case isFalse =>
    split
    case isTrue => exact bufferEarlyCommit_shows m rs
    case isFalse => exact acceptCommit_shows maxFaulty m rs

theorem evaluatePrepared_shows (maxFaulty : ℕ) (key : MessageKey) (rs : PBFTReplica) :
    Shows key rs (rs.evaluatePrepared maxFaulty key) := by
  unfold evaluatePrepared
  refine Shows.guard fun _ => Shows.guard fun _ => ?_
  split
  case h_1 => exact Shows.refl key rs
  case h_2 content _ =>
    have hprepared : Shows key rs { rs with
        preparedInstances := rs.preparedInstances ++ [key]
        currentKey := some key } := Shows.of_turn rfl
    exact ((hprepared.trans (armProgressTimeout_shows key _ content.requestId)).trans
      (processPendingCommits_shows maxFaulty key _)).trans (sendCommit_shows maxFaulty key _)

theorem acceptPrepare_shows (maxFaulty : ℕ) (m : PBFTMessage) (rs : PBFTReplica) :
    Shows m.key rs (rs.acceptPrepare maxFaulty m) := by
  unfold acceptPrepare
  split
  case h_1 => exact Shows.refl m.key rs
  case h_2 =>
    refine Shows.guard fun _ => Shows.guard fun _ =>
      Shows.trans ?_ (evaluatePrepared_shows maxFaulty m.key _)
    exact Shows.of_turn rfl

theorem processPendingPrepares_shows (maxFaulty : ℕ) (key : MessageKey) (rs : PBFTReplica) :
    Shows key rs (rs.processPendingPrepares maxFaulty key) := by
  unfold processPendingPrepares
  refine Shows.trans ?_ (foldl_shows (acceptPrepare_shows maxFaulty))
  exact Shows.of_seen rfl

theorem sendPrepare_shows (maxFaulty : ℕ) (key : MessageKey) (rs : PBFTReplica) :
    Shows key rs (rs.sendPrepare maxFaulty key) := by
  unfold sendPrepare
  refine Shows.guard fun _ => ?_
  split
  case h_1 => exact Shows.refl key rs
  case h_2 content hget =>
    have hsent : Shows key rs { rs with prepareSent := insert key rs.prepareSent } :=
      Shows.of_seen rfl
    refine (hsent.trans
      (acceptPrepare_shows maxFaulty (rs.outgoing PBFTMessage.prepare key content) _)).publish ?_
    rintro p ⟨⟩
    exact hget

theorem prepareCallback_shows (m : PBFTMessage) (rs : PBFTReplica) :
    Shows m.key rs (rs.prepareCallback maxFaulty digestOf m) := by
  unfold prepareCallback
  refine Shows.guard fun _ => ?_
  split
  case isTrue =>
    unfold bufferEarlyPrepare
    exact Shows.guard fun _ => Shows.of_seen rfl
  case isFalse => exact acceptPrepare_shows maxFaulty m rs

theorem maybePublishNewView_shows (key : MessageKey) (rs : PBFTReplica) (newView : ℕ) :
    Shows key rs (rs.maybePublishNewView maxFaulty digestOf newView) := by
  unfold maybePublishNewView
  refine Shows.guard fun _ => Shows.guard fun _ => Shows.guard fun _ => Shows.guard fun _ => ?_
  cases rs.buildNewViewMessage maxFaulty digestOf newView (rs.messagesForView newView) with
  | none => exact Shows.refl key rs
  | some m =>
      have hsent : Shows key rs { rs with newViewSent := insert newView rs.newViewSent } :=
        Shows.of_seen rfl
      refine hsent.publish ?_
      rintro p ⟨⟩

theorem viewChangeCallback_shows (key : MessageKey) (m : ViewChange) (rs : PBFTReplica) :
    Shows key rs (rs.viewChangeCallback maxFaulty digestOf m) := by
  unfold viewChangeCallback
  refine Shows.guard fun _ => Shows.guard fun _ => Shows.guard fun _ => Shows.guard fun _ => ?_
  refine Shows.trans ?_ (maybePublishNewView_shows key _ m.newView)
  exact Shows.of_seen rfl

theorem initiateViewChange_shows (key : MessageKey) (rs : PBFTReplica) (newView : ℕ) :
    Shows key rs (rs.initiateViewChange maxFaulty digestOf newView) := by
  unfold initiateViewChange
  refine Shows.guard fun _ => Shows.guard fun _ => ?_
  cases rs.buildViewChangeMessage maxFaulty newView with
  | none => exact Shows.refl key rs
  | some m =>
      have hsent : Shows key rs { rs with viewChangeSent := insert newView rs.viewChangeSent } :=
        Shows.of_seen rfl
      refine Shows.guard fun _ =>
        (hsent.trans (viewChangeCallback_shows key m _)).publish ?_
      rintro p ⟨⟩

theorem publishRecoveryPrePrepare_shows (key : MessageKey) (rs : PBFTReplica) :
    Shows key rs (rs.publishRecoveryPrePrepare key) := by
  have htimer : Shows key rs { rs with
      recoveryPrePrepareTimers := rs.recoveryPrePrepareTimers.erase key } := Shows.of_seen rfl
  unfold publishRecoveryPrePrepare
  simp only
  split_ifs
  · exact htimer
  · exact htimer
  · exact htimer
  · cases rs.instances.get? key with
    | none => exact htimer
    | some content =>
        have hsent : Shows key rs { rs with
            recoveryPrePrepareTimers := rs.recoveryPrePrepareTimers.erase key
            recoveryPrePrepareSent := insert key rs.recoveryPrePrepareSent
            currentKey := some key } := Shows.of_turn rfl
        refine Shows.trans (hsent.publish ?_) (armProgressTimeout_shows key _ content.requestId)
        rintro p ⟨⟩

theorem progressTimeoutCallback_shows (key : MessageKey) (rs : PBFTReplica) :
    Shows key rs (rs.progressTimeoutCallback maxFaulty digestOf) := by
  unfold progressTimeoutCallback
  split
  case h_1 => exact Shows.refl key rs
  case h_2 =>
    have htimer : Shows key rs { rs with progressTimeout := none } := Shows.of_seen rfl
    simp only
    split_ifs
    · exact htimer
    · exact htimer
    · exact htimer.trans (initiateViewChange_shows key _ _)

theorem manualViewChangeTimerCallback_shows (key : MessageKey) (rs : PBFTReplica) :
    Shows key rs (rs.manualViewChangeTimerCallback maxFaulty digestOf) := by
  have htimer : Shows key rs { rs with manualViewChangeTimer := false } := Shows.of_seen rfl
  unfold manualViewChangeTimerCallback
  simp only
  cases rs.parameters.manualViewChangeTarget with
  | none => exact htimer
  | some target => exact htimer.trans (initiateViewChange_shows key _ target)

end Callbacks

/-! ## Any callback -/

section Events

/-- What an event may do to the data that others see. -/
structure Reveals (rs rs' : PBFTReplica) : Prop where
  currentKey : rs'.currentKey = rs.currentKey ∧ rs'.currentView = rs.currentView ∨
    ∃ key, rs'.currentKey = some key ∧ key.1 = rs'.currentView
  executed : rs'.committedInstances = rs.committedInstances ∧
      rs'.emergencyStop = rs.emergencyStop ∨
    ∃ key content, rs'.instances.get? key = some content ∧
      rs'.emergencyStop = content.emergencyStop
  prepares : ∀ m, .prepare m ∈ rs'.sent →
    .prepare m ∈ rs.sent ∨ rs'.instances.get? m.key = some m.content

/-- A callback about a key of the current view, after the instances may have grown. -/
theorem Shows.reveals
    {rs₀ : PBFTReplica}
    (h : Shows key rs rs')
    (hkey : rs.currentKey = rs₀.currentKey ∨ rs.currentKey = some key)
    (hview : key.1 = rs.currentView)
    (hcurrent : rs.currentView = rs₀.currentView)
    (hcommitted : rs.committedInstances = rs₀.committedInstances)
    (hstop : rs.emergencyStop = rs₀.emergencyStop)
    (hsent : ∀ m, .prepare m ∈ rs.sent → .prepare m ∈ rs₀.sent) :
    Reveals rs₀ rs' where
  currentKey := by
    have hnew : some key = rs'.currentKey →
        ∃ key, rs'.currentKey = some key ∧ key.1 = rs'.currentView := by
      intro heq
      exact ⟨key, heq.symm, hview.trans h.currentView.symm⟩
    rcases h.currentKey with hsame | hchanged
    · rcases hkey with hold | hset
      · exact Or.inl ⟨hsame.trans hold, h.currentView.trans hcurrent⟩
      · exact Or.inr (hnew (hsame.trans hset).symm)
    · exact Or.inr (hnew hchanged.symm)
  executed := by
    rcases h.executed with ⟨hsame, hunchanged⟩ | ⟨content, hget, hexecuted⟩
    · exact Or.inl ⟨hsame.trans hcommitted, hunchanged.trans hstop⟩
    · exact Or.inr ⟨key, content, h.instances ▸ hget, hexecuted⟩
  prepares m hm := by
    rcases h.prepares m hm with hold | hget
    · exact Or.inl (hsent m hold)
    · exact Or.inr (h.instances ▸ hget)

theorem Shows.reveals_self
    (h : Shows key rs rs')
    (hview : key.1 = rs.currentView) :
    Reveals rs rs' :=
  h.reveals (Or.inl rfl) hview rfl rfl rfl fun _ hm => hm

theorem Reveals.of_seen
    (h : rs'.seen = rs.seen) :
    Reveals rs rs' :=
  (@Shows.of_seen (rs.currentView, 0) rs rs' h).reveals_self rfl

theorem Reveals.refl (rs : PBFTReplica) : Reveals rs rs := Reveals.of_seen rfl

theorem processCachedRequestAsPrimary_reveals (rs : PBFTReplica) (requestId : String) :
    Reveals rs (rs.processCachedRequestAsPrimary requestId) := by
  unfold processCachedRequestAsPrimary
  cases rs.cachedClientRequests.get? requestId with
  | none => exact Reveals.refl rs
  | some content =>
      refine (armProgressTimeout_shows (rs.currentView, rs.nextSequenceNumber) _
        content.requestId).reveals (Or.inr rfl) rfl rfl rfl rfl ?_
      intro m hm
      rcases List.mem_append.mp hm with hold | hnew
      · exact hold
      · cases List.mem_singleton.mp hnew

/-- A request is put into the cache and nothing else happens. -/
theorem validateAndCacheClientRequest_eq
    {m : PBFTMessage}
    (h : rs.validateAndCacheClientRequest digestOf m = some rs') :
    ∃ cached, rs' = { rs with cachedClientRequests := cached } := by
  unfold validateAndCacheClientRequest at h
  split at h
  case isTrue => cases h
  case isFalse =>
    split at h
    case h_1 =>
      split_ifs at h
      cases h
      exact ⟨rs.cachedClientRequests, rfl⟩
    case h_2 =>
      cases h
      exact ⟨_, rfl⟩

theorem requestCallback_reveals (m : PBFTMessage) (rs : PBFTReplica) :
    Reveals rs (rs.requestCallback digestOf m) := by
  unfold requestCallback
  cases hcache : rs.validateAndCacheClientRequest digestOf m with
  | none => exact Reveals.refl rs
  | some rs₁ =>
      -- before the primary numbers the request, only the cache and the timer change
      have hquiet : ∃ cached timeout, (if rs.cachedClientRequests.contains m.requestId then rs₁
          else rs₁.armProgressTimeout m.requestId) =
          { rs with cachedClientRequests := cached, progressTimeout := timeout } := by
        obtain ⟨cached, rfl⟩ := validateAndCacheClientRequest_eq hcache
        split
        · exact ⟨cached, rs.progressTimeout, rfl⟩
        · obtain ⟨timeout, htimeout⟩ := armProgressTimeout_eq
            { rs with cachedClientRequests := cached } m.requestId
          exact ⟨cached, timeout, htimeout⟩
      obtain ⟨cached, timeout, hcached⟩ := hquiet
      simp only [hcached]
      split_ifs
      · exact Reveals.of_seen rfl
      · exact Reveals.of_seen rfl
      · obtain ⟨hkey, hexecuted, hprepares⟩ := processCachedRequestAsPrimary_reveals
          { rs with cachedClientRequests := cached, progressTimeout := timeout } m.requestId
        exact ⟨hkey, hexecuted, hprepares⟩

theorem prePrepareCallback_reveals (m : PBFTMessage) (rs : PBFTReplica) :
    Reveals rs (rs.prePrepareCallback maxFaulty digestOf m) := by
  unfold prePrepareCallback
  split
  case isTrue => exact Reveals.refl rs
  case isFalse hvalid =>
    rw [Bool.not_eq_false, validPrePrepare, decide_eq_true_iff] at hvalid
    obtain ⟨-, -, -, hview, -⟩ := hvalid
    cases hstore : rs.storeInstance m with
    | none => exact Reveals.refl rs
    | some rs₁ =>
        have hstored : ∃ instances timeout,
            rs₁ = { rs with instances := instances, progressTimeout := timeout } := by
          unfold storeInstance at hstore
          split at hstore
          case h_1 =>
            split_ifs at hstore
            cases hstore
            exact ⟨rs.instances, rs.progressTimeout, rfl⟩
          case h_2 =>
            cases hstore
            obtain ⟨timeout, htimeout⟩ := armProgressTimeout_eq
              { rs with instances := rs.instances.set m.key m.content } m.requestId
            exact ⟨_, timeout, htimeout⟩
        obtain ⟨instances, timeout, rfl⟩ := hstored
        have hprocessed := processPendingPrepares_shows maxFaulty m.key
          { rs with instances := instances, progressTimeout := timeout, currentKey := some m.key }
        simp only
        split_ifs
        · exact (hprocessed.trans (sendPrepare_shows maxFaulty m.key _)).reveals (Or.inr rfl)
            hview rfl rfl rfl fun _ hm => hm
        · exact hprocessed.reveals (Or.inr rfl) hview rfl rfl rfl fun _ hm => hm

theorem prepareCallback_reveals (m : PBFTMessage) (rs : PBFTReplica) :
    Reveals rs (rs.prepareCallback maxFaulty digestOf m) := by
  by_cases hvalid : rs.validPrepare maxFaulty digestOf m = false
  · rw [prepareCallback, if_pos hvalid]
    exact Reveals.refl rs
  · rw [Bool.not_eq_false, validPrepare, decide_eq_true_iff] at hvalid
    exact (prepareCallback_shows m rs).reveals_self hvalid.2.2.1

theorem commitCallback_reveals (m : PBFTMessage) (rs : PBFTReplica) :
    Reveals rs (rs.commitCallback maxFaulty digestOf m) := by
  by_cases hvalid : rs.validCommit maxFaulty digestOf m = false
  · rw [commitCallback, if_pos hvalid]
    exact Reveals.refl rs
  · rw [Bool.not_eq_false, validCommit, decide_eq_true_iff] at hvalid
    exact (commitCallback_shows m rs).reveals_self hvalid.2.2.1

/-- A new view is entered at the key of its request. -/
theorem newViewCallback_reveals (m : NewView) (rs : PBFTReplica) :
    Reveals rs (rs.newViewCallback maxFaulty digestOf m) := by
  unfold newViewCallback
  split
  case isTrue => exact Reveals.refl rs
  case isFalse =>
    cases rs.validateNewViewMessage maxFaulty digestOf m with
    | none => exact Reveals.refl rs
    | some selected =>
        obtain ⟨content, sequenceNumber⟩ := selected
        simp only
        unfold activateNewView
        split_ifs
        · exact Reveals.of_seen rfl
        · exact Reveals.of_seen rfl
        · obtain ⟨timeout, htimeout⟩ := armProgressTimeout_eq
            ({ rs with acceptedNewViewPayloads := rs.acceptedNewViewPayloads ++ [m] }.installView
              maxFaulty m.newView content sequenceNumber) content.requestId
          simp only [htimeout]
          unfold scheduleRecoveryPrePrepare
          split_ifs <;>
            exact ⟨Or.inr ⟨_, rfl, rfl⟩, Or.inl ⟨rfl, rfl⟩, fun _ h => Or.inl h⟩

/-- What any event does to the data that others see. -/
theorem handle_reveals (rs : PBFTReplica) (e : Event) :
    Reveals rs (rs.handle D e) := by
  have hview : ((rs.currentView, 0) : MessageKey).1 = rs.currentView := rfl
  cases e with
  | deliver m =>
      cases m with
      | request m => exact requestCallback_reveals m rs
      | prePrepare m => exact prePrepareCallback_reveals m rs
      | prepare m => exact prepareCallback_reveals m rs
      | commit m => exact commitCallback_reveals m rs
      | viewChange m => exact (viewChangeCallback_shows _ m rs).reveals_self hview
      | newView m => exact newViewCallback_reveals m rs
  | progressTimeout => exact (progressTimeoutCallback_shows _ rs).reveals_self hview
  | manualViewChange => exact (manualViewChangeTimerCallback_shows _ rs).reveals_self hview
  | recovery key =>
      by_cases hkey : key.1 = rs.currentView
      · exact (publishRecoveryPrePrepare_shows key rs).reveals_self hkey
      · have hquiet : Reveals rs (rs.publishRecoveryPrePrepare key) := by
          unfold publishRecoveryPrePrepare
          simp only [if_pos hkey]
          split_ifs <;> exact Reveals.of_seen rfl
        exact hquiet

end Events

/-! ## Correct replicas -/

/-- What a correct replica shows is so. -/
structure Faithful (rs : PBFTReplica) : Prop where
  currentKey : ∀ key, rs.currentKey = some key → key.1 = rs.currentView
  executed : rs.committedInstances ≠ [] → rs.emergencyStop = true
  prepares : ∀ m, .prepare m ∈ rs.sent → rs.instances.get? m.key = some m.content

theorem faithful_init (i : ℤ) (parameters : Parameters) :
    (init D.f i parameters).Faithful where
  currentKey := nofun
  executed := fun h => absurd rfl h
  prepares := nofun

/-- An event keeps a replica faithful, whose instances are checked and stay. -/
theorem Faithful.reveals
    (h : rs.Faithful)
    (hreveals : Reveals rs rs')
    (hgrows : Grows rs rs')
    (hchecked : ∀ key content, rs'.instances.get? key = some content →
      content.emergencyStop = true) :
    rs'.Faithful where
  currentKey key hkey := by
    rcases hreveals.currentKey with ⟨hsame, hview⟩ | ⟨key', hkey', hview⟩
    · rw [hview]
      exact h.currentKey key (hsame.symm.trans hkey)
    · obtain rfl := Option.some.inj (hkey'.symm.trans hkey)
      exact hview
  executed hsome := by
    rcases hreveals.executed with ⟨hsame, hstop⟩ | ⟨key, content, hget, hstop⟩
    · rw [hstop]
      rw [hsame] at hsome
      exact h.executed hsome
    · rw [hstop]
      exact hchecked key content hget
  prepares m hm := by
    rcases hreveals.prepares m hm with hold | hget
    · exact hgrows.instances _ _ (h.prepares m hold)
    · exact hget

theorem handle_evidence
    (h : rs.evidence.Sound D.f D.digestOf)
    (e : Event) :
    (rs.handle D e).evidence.Sound D.f D.digestOf := by
  cases e with
  | deliver m => exact receive_sound h m
  | progressTimeout =>
      rw [handle, progressTimeoutCallback_evidence]
      exact h
  | manualViewChange =>
      rw [handle, manualViewChangeTimerCallback_evidence]
      exact h
  | recovery key =>
      rw [handle, publishRecoveryPrePrepare_evidence]
      exact h

end PBFTReplica

namespace Cluster

variable {w w' : Cluster} {i j : ℤ} {ok : Cluster → ℤ × Event → Prop}

/-- What the replicas of a run show. -/
structure Shown (D : Deployment) (w : Cluster) (i : ℤ) : Prop where
  orderly : w.Orderly D i
  evidence : (w i).evidence.Sound D.f D.digestOf
  faithful : (w i).Faithful

theorem reachable_shown
    (h : (cluster D).Reachable ok w) :
    ∀ i, D.IsCorrect i → w.Shown D i := by
  have hall : ∀ i, D.IsCorrect i → (w i).evidence.Sound D.f D.digestOf ∧ (w i).Faithful := by
    refine Nodes.reachable_invariant (N := nodes D) (R := fun _ _ => True)
      (I := fun w i => D.IsCorrect i → (w i).evidence.Sound D.f D.digestOf ∧ (w i).Faithful)
      (fun _ => trivial) ?_ ?_ ?_ h
    · intro i hi
      have hvalid : PBFTReplica.validSender D.f i = true := by
        rw [PBFTReplica.validSender, decide_eq_true_iff]
        exact hi.1
      exact ⟨evidence_init hvalid, PBFTReplica.faithful_init i _⟩
    · intro w i e hreach hw _ henabled
      refine ⟨trivial, fun _ hi => ?_⟩
      obtain ⟨hevidence, hfaithful⟩ := hw i hi
      obtain ⟨hgrows, -⟩ := handle_orderly (reachable_orderly hreach) henabled
      rw [Function.update_self]
      have hsound := PBFTReplica.handle_evidence hevidence e
      exact ⟨hsound, hfaithful.reveals (PBFTReplica.handle_reveals (w i) e) hgrows
        fun key content hget => (hsound.instances key content hget).2.2.2⟩
    · intro w w' i _ hsame hi hcorrect
      rw [hsame]
      exact hi hcorrect
  intro i hi
  exact ⟨reachable_orderly h i, (hall i hi).1, (hall i hi).2⟩

/-- A committed key has an instance, and it is one of an emergency stop. -/
theorem Shown.exists_committed
    {key : MessageKey}
    (h : w.Shown D i)
    (hkey : key ∈ (w i).committedInstances) :
    ∃ content, (w i).Committed key content ∧ content.emergencyStop = true := by
  have hquorum := h.orderly.orderly.quorum key hkey
  have hpos : 0 < ((w i).commitSenders.getD key ∅).card :=
    lt_of_lt_of_le (Nat.succ_pos _) hquorum
  obtain ⟨j, hj⟩ := Finset.card_pos.mp hpos
  obtain ⟨content, hget, -⟩ := h.orderly.orderly.senders key j hj
  exact ⟨content, ⟨hkey, hget⟩, (h.evidence.instances key content hget).2.2.2⟩

/-- The PREPAREs and COMMITs of a correct replica are for its instances. -/
theorem Shown.instance_of_sent
    {m : PBFTMessage}
    (h : w.Shown D i)
    (hm : .prepare m ∈ (w i).sent ∨ .commit m ∈ (w i).sent) :
    (w i).instances.get? m.key = some m.content := by
  rcases hm with hprepare | hcommit
  · exact h.faithful.prepares m hprepare
  · exact (h.orderly.orderly.commits m hcommit).2

/-- A step of the cluster is progress at every replica. -/
theorem extends_of_step
    {l : ℤ × Event}
    (hreach : (cluster D).Reachable ok w)
    (hstep : (cluster D).step w l = some w') :
    Nodes.Extends PBFTReplica.Grows w w' := by
  obtain ⟨henabled, rfl⟩ := Nodes.step_spec hstep
  exact Nodes.extends_update PBFTReplica.Grows.refl
    (handle_orderly (reachable_orderly hreach) henabled).1

end Cluster

end RosPbft
end DistributedConsensus
