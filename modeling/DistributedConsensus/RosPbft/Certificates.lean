import DistributedConsensus.RosPbft.InView
import DistributedConsensus.RosPbft.Tallies

/-!
# Emergency-stop PBFT: certificates of a replica

What a replica has prepared ends up in the certificate of its VIEW-CHANGE, possibly many
views later.  The certificate draws on the part of the state that is called the evidence
here.  Whatever arrives, in any order, the evidence stays sound: a key that is prepared
has an adopted, checked request and PREPAREs of enough distinct backups of its view.

A replica can therefore build its VIEW-CHANGE for every later view, and every replica
accepts the certificate (`view_change_certificate_valid`).
-/

namespace DistributedConsensus
namespace RosPbft

open Foundations

namespace PBFTReplica

/-! ## The evidence -/

/-- What certificates are made of, and what it depends on. -/
structure Evidence where
  nodeId : ℤ
  currentView : ℕ
  primaryId : ℤ
  nextSequenceNumber : ℕ
  cachedClientRequests : Dict String PBFTInstance
  instances : Dict MessageKey PBFTInstance
  prepareSenders : Dict MessageKey (List ℤ)
  pendingPrepares : List PBFTMessage
  preparedInstances : List MessageKey

def evidence (rs : PBFTReplica) : Evidence where
  nodeId := rs.nodeId
  currentView := rs.currentView
  primaryId := rs.primaryId
  nextSequenceNumber := rs.nextSequenceNumber
  cachedClientRequests := rs.cachedClientRequests
  instances := rs.instances
  prepareSenders := rs.prepareSenders
  pendingPrepares := rs.pendingPrepares
  preparedInstances := rs.preparedInstances

/-- The sender is a backup of the view. -/
def BackupOf (maxFaulty view : ℕ) (senderId : ℤ) : Prop :=
  validSender maxFaulty senderId = true ∧ senderId ≠ primaryForView maxFaulty view

/-- Everything the evidence holds has been checked. -/
structure Evidence.Sound (maxFaulty : ℕ) (digestOf : String → Bool → String) (ev : Evidence) :
    Prop where
  nodeId : validSender maxFaulty ev.nodeId = true
  primaryId : ev.primaryId = primaryForView maxFaulty ev.currentView
  numbered : ev.nextSequenceNumber ≠ 0
  cached : ∀ requestId content, ev.cachedClientRequests.get? requestId = some content →
    ValidContent digestOf content
  instances : ∀ key content, ev.instances.get? key = some content →
    key.2 ≠ 0 ∧ ValidContent digestOf content
  nodup : ∀ key, (ev.prepareSenders.getD key []).Nodup
  senders : ∀ key, ∀ senderId ∈ ev.prepareSenders.getD key [], BackupOf maxFaulty key.1 senderId
  pending : ∀ m ∈ ev.pendingPrepares, BackupOf maxFaulty m.view m.senderId
  prepared : ∀ key ∈ ev.preparedInstances,
    prepareThreshold maxFaulty ≤ (ev.prepareSenders.getD key []).length

section Frames

variable (maxFaulty : ℕ) (digestOf : String → Bool → String) (rs : PBFTReplica)

@[simp] theorem publish_evidence (m : Message) : (rs.publish m).evidence = rs.evidence := rfl

@[simp] theorem armProgressTimeout_evidence (requestId : String) :
    (rs.armProgressTimeout requestId).evidence = rs.evidence := by
  unfold armProgressTimeout
  split_ifs <;> rfl

@[simp] theorem evaluateCommitted_evidence (key : MessageKey) :
    (rs.evaluateCommitted maxFaulty key).evidence = rs.evidence := by
  unfold evaluateCommitted
  split
  · rfl
  · split
    · rfl
    · split
      · rfl
      · cases rs.instances.get? key <;> rfl

@[simp] theorem bufferEarlyCommit_evidence (m : PBFTMessage) :
    (rs.bufferEarlyCommit m).evidence = rs.evidence := by
  unfold bufferEarlyCommit
  split_ifs <;> rfl

@[simp] theorem acceptCommit_evidence (m : PBFTMessage) :
    (rs.acceptCommit maxFaulty m).evidence = rs.evidence := by
  unfold acceptCommit
  cases rs.instances.get? m.key with
  | none => rfl
  | some content =>
      simp only
      split
      · rfl
      · split
        · exact bufferEarlyCommit_evidence rs m
        · split
          · rfl
          · exact evaluateCommitted_evidence maxFaulty _ m.key

@[simp] theorem foldl_acceptCommit_evidence (pending : List PBFTMessage) :
    (pending.foldl (fun rs m => rs.acceptCommit maxFaulty m) rs).evidence = rs.evidence := by
  induction pending generalizing rs with
  | nil => rfl
  | cons m pending ih => simp [ih]

@[simp] theorem processPendingCommits_evidence (key : MessageKey) :
    (rs.processPendingCommits maxFaulty key).evidence = rs.evidence := by
  unfold processPendingCommits
  split
  · rfl
  · exact foldl_acceptCommit_evidence maxFaulty _ _

@[simp] theorem sendCommit_evidence (key : MessageKey) :
    (rs.sendCommit maxFaulty key).evidence = rs.evidence := by
  unfold sendCommit
  split
  · rfl
  · split
    · rfl
    · cases rs.instances.get? key with
      | none => rfl
      | some content => exact acceptCommit_evidence maxFaulty _ _

@[simp] theorem commitCallback_evidence (m : PBFTMessage) :
    (rs.commitCallback maxFaulty digestOf m).evidence = rs.evidence := by
  unfold commitCallback
  split_ifs <;> simp

@[simp] theorem maybePublishNewView_evidence (newView : ℕ) :
    (rs.maybePublishNewView maxFaulty digestOf newView).evidence = rs.evidence := by
  unfold maybePublishNewView
  split
  · rfl
  · split
    · rfl
    · split
      · rfl
      · split
        · rfl
        · cases rs.buildNewViewMessage maxFaulty digestOf newView
            (rs.messagesForView newView) <;> rfl

@[simp] theorem viewChangeCallback_evidence (m : ViewChange) :
    (rs.viewChangeCallback maxFaulty digestOf m).evidence = rs.evidence := by
  unfold viewChangeCallback
  split_ifs
  · rfl
  · rfl
  · rfl
  · rfl
  · exact maybePublishNewView_evidence maxFaulty digestOf _ _

@[simp] theorem initiateViewChange_evidence (newView : ℕ) :
    (rs.initiateViewChange maxFaulty digestOf newView).evidence = rs.evidence := by
  unfold initiateViewChange
  split_ifs
  · rfl
  · rfl
  · cases rs.buildViewChangeMessage maxFaulty newView with
    | none => rfl
    | some m =>
        simp only
        split_ifs
        · rfl
        · exact viewChangeCallback_evidence maxFaulty digestOf _ m

@[simp] theorem scheduleRecoveryPrePrepare_evidence (key : MessageKey) :
    (rs.scheduleRecoveryPrePrepare key).evidence = rs.evidence := by
  unfold scheduleRecoveryPrePrepare
  split_ifs <;> rfl

@[simp] theorem publishRecoveryPrePrepare_evidence (key : MessageKey) :
    (rs.publishRecoveryPrePrepare key).evidence = rs.evidence := by
  unfold publishRecoveryPrePrepare
  simp only
  split
  · rfl
  · split
    · rfl
    · split
      · rfl
      · cases rs.instances.get? key with
        | none => rfl
        | some content => exact armProgressTimeout_evidence _ _

@[simp] theorem progressTimeoutCallback_evidence :
    (rs.progressTimeoutCallback maxFaulty digestOf).evidence = rs.evidence := by
  unfold progressTimeoutCallback
  cases rs.progressTimeout with
  | none => rfl
  | some monitored =>
      simp only
      split
      · rfl
      · split
        · rfl
        · exact initiateViewChange_evidence maxFaulty digestOf _ _

@[simp] theorem manualViewChangeTimerCallback_evidence :
    (rs.manualViewChangeTimerCallback maxFaulty digestOf).evidence = rs.evidence := by
  unfold manualViewChangeTimerCallback
  simp only
  cases rs.parameters.manualViewChangeTarget with
  | none => rfl
  | some target => exact initiateViewChange_evidence maxFaulty digestOf _ target

end Frames

section Preserved

variable {maxFaulty : ℕ} {digestOf : String → Bool → String} {rs : PBFTReplica}
  {key : MessageKey} {content : PBFTInstance} {m : PBFTMessage}

/-- A checked request under a positive sequence number. -/
theorem Evidence.Sound.adopt
    {ev : Evidence}
    (h : ev.Sound maxFaulty digestOf)
    (key : MessageKey)
    (hkey : key.2 ≠ 0)
    (hcontent : ValidContent digestOf content) :
    { ev with instances := ev.instances.set key content }.Sound maxFaulty digestOf := by
  refine { h with instances := fun key' content' hget => ?_ }
  rw [Dict.get?_set] at hget
  split_ifs at hget with heq
  · rw [heq, ← Option.some.inj hget]
    exact ⟨hkey, hcontent⟩
  · exact h.instances key' content' hget

/-- Another backup is counted. -/
theorem Evidence.Sound.count
    {ev : Evidence} {senderId : ℤ}
    (h : ev.Sound maxFaulty digestOf)
    (key : MessageKey)
    (hsender : BackupOf maxFaulty key.1 senderId)
    (hnew : senderId ∉ ev.prepareSenders.getD key []) :
    { ev with
      prepareSenders := ev.prepareSenders.set key
        (ev.prepareSenders.getD key [] ++ [senderId]) }.Sound maxFaulty digestOf := by
  refine { h with nodup := fun key' => ?_, senders := fun key' senderId' hmem => ?_,
                  prepared := fun key' hprepared => ?_ }
  · simp only [Dict.getD_set]
    split_ifs
    · rw [← List.concat_eq_append]
      exact List.Nodup.concat hnew (h.nodup key)
    · exact h.nodup key'
  · simp only [Dict.getD_set] at hmem
    split_ifs at hmem with heq
    · rcases List.mem_append.mp hmem with hold | hlast
      · rw [heq]
        exact h.senders key senderId' hold
      · rw [heq, List.mem_singleton.mp hlast]
        exact hsender
    · exact h.senders key' senderId' hmem
  · have hbefore := h.prepared key' hprepared
    simp only [Dict.getD_set]
    split_ifs with heq
    · rw [List.length_append]
      rw [heq] at hbefore
      omega
    · exact hbefore

theorem Evidence.Sound.prepare
    {ev : Evidence}
    (h : ev.Sound maxFaulty digestOf)
    (hlength : prepareThreshold maxFaulty ≤ (ev.prepareSenders.getD key []).length) :
    { ev with preparedInstances := ev.preparedInstances ++ [key] }.Sound maxFaulty digestOf := by
  refine { h with prepared := fun key' hprepared => ?_ }
  rcases List.mem_append.mp hprepared with hold | hlast
  · exact h.prepared key' hold
  · rw [List.mem_singleton.mp hlast]
    exact hlength

theorem Evidence.Sound.wait
    {ev : Evidence}
    (h : ev.Sound maxFaulty digestOf)
    (pendingPrepares : List PBFTMessage)
    (hpending : ∀ m ∈ pendingPrepares,
      m ∈ ev.pendingPrepares ∨ BackupOf maxFaulty m.view m.senderId) :
    { ev with pendingPrepares := pendingPrepares }.Sound maxFaulty digestOf :=
  { h with pending := fun m hm => (hpending m hm).elim (h.pending m) id }

theorem Evidence.Sound.cache
    {ev : Evidence}
    (h : ev.Sound maxFaulty digestOf)
    (requestId : String)
    (hcontent : ValidContent digestOf content) :
    { ev with cachedClientRequests := ev.cachedClientRequests.set requestId content }.Sound
      maxFaulty digestOf := by
  refine { h with cached := fun requestId' content' hget => ?_ }
  rw [Dict.get?_set] at hget
  split_ifs at hget
  · rw [← Option.some.inj hget]
    exact hcontent
  · exact h.cached requestId' content' hget

/-- A key becomes prepared when enough backups have been counted. -/
theorem evaluatePrepared_sound
    (h : rs.evidence.Sound maxFaulty digestOf)
    (key : MessageKey) :
    (rs.evaluatePrepared maxFaulty key).evidence.Sound maxFaulty digestOf := by
  unfold evaluatePrepared
  split
  · exact h
  · split
    case isTrue => exact h
    case isFalse hlength =>
      cases rs.instances.get? key with
      | none => exact h
      | some content =>
          simp only [sendCommit_evidence, processPendingCommits_evidence,
            armProgressTimeout_evidence]
          exact h.prepare (Nat.le_of_not_lt hlength)

theorem acceptPrepare_sound
    (h : rs.evidence.Sound maxFaulty digestOf)
    (hm : BackupOf maxFaulty m.view m.senderId) :
    (rs.acceptPrepare maxFaulty m).evidence.Sound maxFaulty digestOf := by
  unfold acceptPrepare
  cases rs.instances.get? m.key with
  | none => exact h
  | some content =>
      simp only
      split
      · exact h
      · split
        case isTrue => exact h
        case isFalse hnew => exact evaluatePrepared_sound (h.count m.key hm hnew) m.key

theorem foldl_acceptPrepare_sound
    (pending : List PBFTMessage) (rs : PBFTReplica)
    (h : rs.evidence.Sound maxFaulty digestOf)
    (hpending : ∀ m ∈ pending, BackupOf maxFaulty m.view m.senderId) :
    (pending.foldl (fun rs m => rs.acceptPrepare maxFaulty m) rs).evidence.Sound
      maxFaulty digestOf := by
  induction pending generalizing rs with
  | nil => exact h
  | cons m pending ih =>
      exact ih _ (acceptPrepare_sound h (hpending m List.mem_cons_self))
        fun m' hm' => hpending m' (List.mem_cons_of_mem m hm')

theorem processPendingPrepares_sound
    (h : rs.evidence.Sound maxFaulty digestOf)
    (key : MessageKey) :
    (rs.processPendingPrepares maxFaulty key).evidence.Sound maxFaulty digestOf := by
  refine foldl_acceptPrepare_sound _ _ ?_ fun m hm => h.pending m (List.mem_of_mem_filter hm)
  exact h.wait _ fun m hm => Or.inl (List.mem_of_mem_filter hm)

/-- A backup counts its own PREPARE. -/
theorem sendPrepare_sound
    (h : rs.evidence.Sound maxFaulty digestOf)
    (hview : key.1 = rs.currentView)
    (hbackup : rs.nodeId ≠ rs.primaryId) :
    (rs.sendPrepare maxFaulty key).evidence.Sound maxFaulty digestOf := by
  unfold sendPrepare
  split
  · exact h
  · cases rs.instances.get? key with
    | none => exact h
    | some content =>
        have hsent : ({ rs with prepareSent := insert key rs.prepareSent } :
            PBFTReplica).evidence.Sound maxFaulty digestOf := h
        refine acceptPrepare_sound hsent ⟨h.nodeId, ?_⟩
        change rs.nodeId ≠ primaryForView maxFaulty key.1
        rw [hview]
        exact fun heq => hbackup (heq.trans h.primaryId.symm)

theorem prepareCallback_sound
    (h : rs.evidence.Sound maxFaulty digestOf)
    (m : PBFTMessage) :
    (rs.prepareCallback maxFaulty digestOf m).evidence.Sound maxFaulty digestOf := by
  unfold prepareCallback
  split
  case isTrue => exact h
  case isFalse hvalid =>
    rw [Bool.not_eq_false, validPrepare, decide_eq_true_iff] at hvalid
    obtain ⟨-, -, hview, -, hsender, hprimary, -, -⟩ := hvalid
    have hm : BackupOf maxFaulty m.view m.senderId := by
      refine ⟨hsender, fun heq => hprimary ?_⟩
      rw [heq, hview]
      exact h.primaryId.symm
    split
    · unfold bufferEarlyPrepare
      split
      · exact h
      · refine h.wait _ fun p hp => ?_
        rcases List.mem_append.mp hp with hold | hlast
        · exact Or.inl hold
        · rw [List.mem_singleton.mp hlast]
          exact Or.inr hm
    · exact acceptPrepare_sound h hm

theorem prePrepareCallback_sound
    (h : rs.evidence.Sound maxFaulty digestOf)
    (m : PBFTMessage) :
    (rs.prePrepareCallback maxFaulty digestOf m).evidence.Sound maxFaulty digestOf := by
  unfold prePrepareCallback
  split
  case isTrue => exact h
  case isFalse hvalid =>
    rw [Bool.not_eq_false, validPrePrepare, decide_eq_true_iff] at hvalid
    obtain ⟨-, -, -, hview, hnumber, hid, hdigest, hstop⟩ := hvalid
    cases hstore : rs.storeInstance m with
    | none => exact h
    | some rs₁ =>
        -- the request is stored now, or was stored before
        have hstored : rs₁.evidence.Sound maxFaulty digestOf ∧
            rs₁.currentView = rs.currentView := by
          unfold storeInstance at hstore
          cases hget : rs.instances.get? m.key with
          | some existing =>
              simp only [hget] at hstore
              split_ifs at hstore
              rw [← Option.some.inj hstore]
              exact ⟨h, rfl⟩
          | none =>
              simp only [hget] at hstore
              rw [← Option.some.inj hstore]
              rw [armProgressTimeout_evidence]
              obtain ⟨timeout, htimeout⟩ := armProgressTimeout_eq
                { rs with instances := rs.instances.set m.key m.content } m.requestId
              exact ⟨h.adopt m.key hnumber ⟨hid, hdigest, hstop⟩, by rw [htimeout]⟩
        obtain ⟨hsound, hsame⟩ := hstored
        have hwithin := processPendingPrepares_within maxFaulty m.key
          { rs₁ with currentKey := some m.key }
        have hcurrent : ({ rs₁ with currentKey := some m.key } :
            PBFTReplica).evidence.Sound maxFaulty digestOf := hsound
        have hprocessed := processPendingPrepares_sound hcurrent m.key
        simp only
        split
        case isTrue hbackup =>
          refine sendPrepare_sound hprocessed ?_ hbackup
          rw [hwithin.currentView]
          exact hview.trans hsame.symm
        case isFalse => exact hprocessed

theorem processCachedRequestAsPrimary_sound
    (h : rs.evidence.Sound maxFaulty digestOf)
    (requestId : String) :
    (rs.processCachedRequestAsPrimary requestId).evidence.Sound maxFaulty digestOf := by
  unfold processCachedRequestAsPrimary
  cases hget : rs.cachedClientRequests.get? requestId with
  | none => exact h
  | some content =>
      simp only [armProgressTimeout_evidence, publish_evidence]
      have hadopted := h.adopt (rs.currentView, rs.nextSequenceNumber) h.numbered
        (h.cached requestId content hget)
      exact { hadopted with numbered := Nat.succ_ne_zero _ }

theorem requestCallback_sound
    (h : rs.evidence.Sound maxFaulty digestOf)
    (m : PBFTMessage) :
    (rs.requestCallback digestOf m).evidence.Sound maxFaulty digestOf := by
  unfold requestCallback
  cases hcache : rs.validateAndCacheClientRequest digestOf m with
  | none => exact h
  | some rs₁ =>
      have hcached : rs₁.evidence.Sound maxFaulty digestOf := by
        unfold validateAndCacheClientRequest at hcache
        split at hcache
        case isTrue => cases hcache
        case isFalse hvalid =>
          rw [Bool.not_eq_false, validClientRequest, decide_eq_true_iff] at hvalid
          obtain ⟨-, -, -, -, -, hid, hdigest, hstop⟩ := hvalid
          cases hget : rs.cachedClientRequests.get? m.requestId with
          | some existing =>
              simp only [hget] at hcache
              split_ifs at hcache
              rw [← Option.some.inj hcache]
              exact h
          | none =>
              simp only [hget] at hcache
              rw [← Option.some.inj hcache]
              exact h.cache m.requestId ⟨hid, hdigest, hstop⟩
      -- only the primary goes on with a request that is not processed yet
      have hfinish : ∀ rs₂ : PBFTReplica, rs₂.evidence.Sound maxFaulty digestOf →
          (if rs₂.nodeId ≠ rs₂.primaryId then rs₂
            else if m.requestId ∈ rs₂.processedRequestIds then rs₂
            else rs₂.processCachedRequestAsPrimary m.requestId).evidence.Sound
            maxFaulty digestOf := by
        intro rs₂ h₂
        split_ifs
        · exact h₂
        · exact h₂
        · exact processCachedRequestAsPrimary_sound h₂ m.requestId
      refine hfinish _ ?_
      split
      · exact hcached
      · rw [armProgressTimeout_evidence]
        exact hcached

/-- A new view is entered with its request. -/
theorem newViewCallback_sound
    (h : rs.evidence.Sound maxFaulty digestOf)
    (m : NewView) :
    (rs.newViewCallback maxFaulty digestOf m).evidence.Sound maxFaulty digestOf := by
  unfold newViewCallback
  split
  · exact h
  · cases hvalidate : rs.validateNewViewMessage maxFaulty digestOf m with
    | none => exact h
    | some selected =>
        obtain ⟨-, hformed, -, rfl⟩ := validateNewViewMessage_eq_some.mp hvalidate
        simp only
        unfold activateNewView
        split
        · exact h
        · split
          · exact h
          · have hinstalled : (({ rs with
                acceptedNewViewPayloads := rs.acceptedNewViewPayloads ++ [m] }.installView
                maxFaulty m.newView m.content m.selectedSequenceNumber).evidence).Sound
                maxFaulty digestOf := by
              have hwait := h.wait (rs.pendingPrepares.filter (m.newView ≤ ·.key.1))
                fun p hp => Or.inl (List.mem_of_mem_filter hp)
              have hadopted := (hwait.cache m.content.requestId hformed.content).adopt
                (m.newView, m.selectedSequenceNumber) hformed.sequenceNumber hformed.content
              exact { hadopted with
                primaryId := rfl
                numbered := Nat.ne_of_gt (lt_of_lt_of_le (Nat.succ_pos _) (le_max_right _ _)) }
            simp only
            split
            · rw [scheduleRecoveryPrePrepare_evidence, armProgressTimeout_evidence]
              exact hinstalled
            · rw [armProgressTimeout_evidence]
              exact hinstalled

theorem receive_sound
    (h : rs.evidence.Sound maxFaulty digestOf)
    (m : Message) :
    (rs.receive maxFaulty digestOf m).evidence.Sound maxFaulty digestOf := by
  cases m with
  | request m => exact requestCallback_sound h m
  | prePrepare m => exact prePrepareCallback_sound h m
  | prepare m => exact prepareCallback_sound h m
  | commit m =>
      change (rs.commitCallback maxFaulty digestOf m).evidence.Sound maxFaulty digestOf
      rw [commitCallback_evidence]
      exact h
  | viewChange m =>
      change (rs.viewChangeCallback maxFaulty digestOf m).evidence.Sound maxFaulty digestOf
      rw [viewChangeCallback_evidence]
      exact h
  | newView m => exact newViewCallback_sound h m

end Preserved

/-! ## The certificate -/

section Building

variable {maxFaulty : ℕ} {digestOf : String → Bool → String} {rs : PBFTReplica} {newView : ℕ}

theorem newerKey_eq (key key' : MessageKey) :
    newerKey key key' = key ∨ newerKey key key' = key' := by
  unfold newerKey
  split_ifs
  · exact Or.inr rfl
  · exact Or.inl rfl

/-- The newest key is one of the keys. -/
theorem mem_of_newestKey
    {keys : List MessageKey} {key : MessageKey}
    (h : newestKey keys = some key) :
    key ∈ keys := by
  have hfold : ∀ (keys : List MessageKey) (first : MessageKey),
      keys.foldl newerKey first ∈ first :: keys := by
    intro keys
    induction keys with
    | nil => exact fun first => List.mem_cons_self
    | cons key' keys ih =>
        intro first
        have hmem := ih (newerKey first key')
        rcases List.mem_cons.mp hmem with heq | hlater
        · rw [List.foldl_cons, heq]
          rcases newerKey_eq first key' with hfirst | hsecond
          · rw [hfirst]
            exact List.mem_cons_self
          · rw [hsecond]
            exact List.mem_cons_of_mem _ List.mem_cons_self
        · exact List.mem_cons_of_mem _ (List.mem_cons_of_mem _ hlater)
  cases keys with
  | nil => cases h
  | cons first keys =>
      cases h
      exact hfold keys first

/-- The selected instance is prepared in a view before the new one. -/
theorem selectPreparedInstanceForViewChange_spec
    {key : MessageKey} {content : PBFTInstance}
    (h : rs.selectPreparedInstanceForViewChange newView = some (key, content)) :
    key ∈ rs.preparedInstances ∧ key.1 < newView ∧ rs.instances.get? key = some content := by
  unfold selectPreparedInstanceForViewChange at h
  simp only at h
  split at h
  case h_1 => cases h
  case h_2 key' hnewest =>
    rw [Option.map_eq_some_iff] at h
    obtain ⟨content', hget, heq⟩ := h
    cases heq
    obtain ⟨hprepared, hcandidate⟩ := List.mem_filter.mp (mem_of_newestKey hnewest)
    rw [decide_eq_true_iff] at hcandidate
    exact ⟨hprepared, hcandidate.2.2, hget⟩

/-- From sound evidence a valid VIEW-CHANGE is built. -/
theorem Evidence.Sound.exists_viewChange
    (h : rs.evidence.Sound maxFaulty digestOf)
    (hnew : rs.currentView < newView) :
    ∃ m, rs.buildViewChangeMessage maxFaulty newView = some m ∧
      validateViewChangeCertificate maxFaulty digestOf m = true := by
  unfold buildViewChangeMessage
  rw [if_neg (Nat.not_le.mpr hnew)]
  cases hselect : rs.selectPreparedInstanceForViewChange newView with
  | none => exact ⟨_, rfl, by simp [validateViewChangeCertificate]⟩
  | some selected =>
      obtain ⟨key, content⟩ := selected
      obtain ⟨hprepared, hbefore, hget⟩ := selectPreparedInstanceForViewChange_spec hselect
      obtain ⟨hnumber, hid, hdigest, hstop⟩ := h.instances key content hget
      have hperm : (sortedSenders (rs.prepareSenders.getD key [])).Perm
          (rs.prepareSenders.getD key []) :=
        List.perm_insertionSort _ _
      have hlength : prepareThreshold maxFaulty ≤
          (sortedSenders (rs.prepareSenders.getD key [])).length := by
        rw [hperm.length_eq]
        exact h.prepared key hprepared
      simp only
      rw [if_neg (Nat.not_lt.mpr hlength)]
      refine ⟨_, rfl, ?_⟩
      unfold validateViewChangeCertificate
      rw [if_neg (by simp), decide_eq_true_iff]
      refine ⟨hbefore, hnumber, hid, hstop, hdigest, ?_, hlength, fun senderId hmem => ?_⟩
      · exact hperm.nodup_iff.mpr (h.nodup key)
      · exact h.senders key senderId (hperm.mem_iff.mp hmem)

end Building

end PBFTReplica

/-! ## Runs of one replica -/

/-- One correct replica.  What reaches it is arbitrary, and a timer fires only while it
runs. -/
def replica (maxFaulty : ℕ) (digestOf : String → Bool → String) (nodeId : ℤ)
    (parameters : Parameters) : System PBFTReplica Event where
  init := PBFTReplica.init maxFaulty nodeId parameters
  step rs
    | .deliver m => some (rs.receive maxFaulty digestOf m)
    | .progressTimeout =>
        if rs.progressTimeout.isSome then some (rs.progressTimeoutCallback maxFaulty digestOf)
        else none
    | .manualViewChange =>
        if rs.manualViewChangeTimer then some (rs.manualViewChangeTimerCallback maxFaulty digestOf)
        else none
    | .recovery key =>
        if key ∈ rs.recoveryPrePrepareTimers then some (rs.publishRecoveryPrePrepare key)
        else none

section Runs

open PBFTReplica

variable {maxFaulty : ℕ} {digestOf : String → Bool → String} {nodeId : ℤ}
  {parameters : Parameters} {rs rs' : PBFTReplica}

theorem evidence_init
    (hid : validSender maxFaulty nodeId = true) :
    (PBFTReplica.init maxFaulty nodeId parameters).evidence.Sound maxFaulty digestOf where
  nodeId := hid
  primaryId := rfl
  numbered := Nat.one_ne_zero
  cached := fun _ _ hget => nomatch hget
  instances := fun _ _ hget => nomatch hget
  nodup := fun _ => List.nodup_nil
  senders := fun _ _ hmem => nomatch hmem
  pending := fun _ hmem => nomatch hmem
  prepared := fun _ hmem => nomatch hmem

/-- Every event keeps the evidence sound. -/
theorem evidence_step
    {event : Event}
    (h : rs.evidence.Sound maxFaulty digestOf)
    (hstep : (replica maxFaulty digestOf nodeId parameters).step rs event = some rs') :
    rs'.evidence.Sound maxFaulty digestOf := by
  cases event with
  | deliver m =>
      rw [← Option.some.inj hstep]
      exact receive_sound h m
  | progressTimeout =>
      simp only [replica, Option.ite_none_right_eq_some] at hstep
      rw [← Option.some.inj hstep.2, progressTimeoutCallback_evidence]
      exact h
  | manualViewChange =>
      simp only [replica, Option.ite_none_right_eq_some] at hstep
      rw [← Option.some.inj hstep.2, manualViewChangeTimerCallback_evidence]
      exact h
  | recovery key =>
      simp only [replica, Option.ite_none_right_eq_some] at hstep
      rw [← Option.some.inj hstep.2, publishRecoveryPrePrepare_evidence]
      exact h

theorem reachable_evidence
    (hid : validSender maxFaulty nodeId = true)
    (h : (replica maxFaulty digestOf nodeId parameters).Reachable System.anyStep rs) :
    rs.evidence.Sound maxFaulty digestOf :=
  System.Reachable.invariant (I := fun rs => rs.evidence.Sound maxFaulty digestOf)
    (evidence_init hid) (fun _ _ _ _ hs _ hstep => evidence_step hs hstep) h

/-- A correct replica can change its view whatever it has received: for every later view it
builds a VIEW-CHANGE, and the check of the certificate, which does not depend on the
receiver, accepts it. -/
theorem view_change_certificate_valid
    (hid : validSender maxFaulty nodeId = true)
    (h : (replica maxFaulty digestOf nodeId parameters).Reachable System.anyStep rs)
    {newView : ℕ}
    (hnew : rs.currentView < newView) :
    ∃ m, rs.buildViewChangeMessage maxFaulty newView = some m ∧
      validateViewChangeCertificate maxFaulty digestOf m = true :=
  (reachable_evidence hid h).exists_viewChange hnew

/-- A backup prepares a request with its own PREPARE and an early one of replica 2. -/
theorem view_change_certificate_valid_sample :
    ∃ rs, (replica 1 Cluster.digestOf 1 ⟨0, none, true⟩).Reachable System.anyStep rs ∧
      rs.preparedInstances = [(0, 1)] ∧
      ∃ m, rs.buildViewChangeMessage 1 1 = some m ∧
        validateViewChangeCertificate 1 Cluster.digestOf m = true := by
  obtain ⟨rs, hreach, hprepared, hview⟩ : ∃ rs,
      (replica 1 Cluster.digestOf 1 ⟨0, none, true⟩).Reachable System.anyStep rs ∧
      rs.preparedInstances = [(0, 1)] ∧ rs.currentView < 1 := by
    refine System.exists_reaches_of_exec
      [Cluster.prepareBy 2 0 1 Cluster.requestA, Cluster.prePrepareBy 0 0 1 Cluster.requestA] ?_
    decide +kernel
  exact ⟨rs, hreach, hprepared,
    view_change_certificate_valid (by decide) hreach (by simpa using hview)⟩

end Runs

end RosPbft
end DistributedConsensus
