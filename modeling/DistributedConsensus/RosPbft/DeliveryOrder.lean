import DistributedConsensus.RosPbft.Tallies

/-!
# Emergency-stop PBFT: the order of the messages

Inside a view the PRE-PREPAREs, PREPAREs and COMMITs that a replica receives leave
the same records in whatever order they arrive and however often they are repeated,
as long as no sender contradicts itself under a key.
-/

namespace DistributedConsensus
namespace RosPbft

open Foundations

section Deliveries

/-- The PRE-PREPAREs of a sequence of messages. -/
def prePreparesOf (ms : List Message) : List PBFTMessage :=
  ms.filterMap fun | .prePrepare m => some m | _ => none

/-- The PREPAREs of a sequence of messages. -/
def preparesOf (ms : List Message) : List PBFTMessage :=
  ms.filterMap fun | .prepare m => some m | _ => none

/-- The COMMITs of a sequence of messages. -/
def commitsOf (ms : List Message) : List PBFTMessage :=
  ms.filterMap fun | .commit m => some m | _ => none

/-- The key that a PRE-PREPARE, PREPARE or COMMIT is about. -/
def Message.key : Message → Option MessageKey
  | .prePrepare m | .prepare m | .commit m => some m.key
  | _ => none

variable {ms : List Message} {m : PBFTMessage}

@[simp] theorem mem_prePreparesOf : m ∈ prePreparesOf ms ↔ .prePrepare m ∈ ms := by
  rw [prePreparesOf, List.mem_filterMap]
  constructor
  · rintro ⟨x, hx, heq⟩
    cases x <;> simp_all
  · intro hm
    exact ⟨_, hm, rfl⟩

@[simp] theorem mem_preparesOf : m ∈ preparesOf ms ↔ .prepare m ∈ ms := by
  rw [preparesOf, List.mem_filterMap]
  constructor
  · rintro ⟨x, hx, heq⟩
    cases x <;> simp_all
  · intro hm
    exact ⟨_, hm, rfl⟩

@[simp] theorem mem_commitsOf : m ∈ commitsOf ms ↔ .commit m ∈ ms := by
  rw [commitsOf, List.mem_filterMap]
  constructor
  · rintro ⟨x, hx, heq⟩
    cases x <;> simp_all
  · intro hm
    exact ⟨_, hm, rfl⟩

end Deliveries

namespace PBFTReplica

variable {maxFaulty : ℕ} {digestOf : String → Bool → String} {rs rs' : PBFTReplica}
  {key : MessageKey} {content : PBFTInstance} {m : PBFTMessage} {ms : List Message}
  {stored : Option PBFTInstance}

/-- A message that passes the checks of its callback. -/
def Valid (maxFaulty : ℕ) (digestOf : String → Bool → String) (rs : PBFTReplica) :
    Message → Prop
  | .prePrepare m => rs.validPrePrepare digestOf m = true
  | .prepare m => rs.validPrepare maxFaulty digestOf m = true
  | .commit m => rs.validCommit maxFaulty digestOf m = true
  | _ => False

instance : ∀ x, Decidable (rs.Valid maxFaulty digestOf x)
  | .prePrepare _ | .prepare _ | .commit _ => inferInstanceAs (Decidable (_ = true))
  | .request _ | .viewChange _ | .newView _ => inferInstanceAs (Decidable False)

/-- No sender contradicts itself under a key. -/
structure Unambiguous (ms : List Message) : Prop where
  prePrepares : ∀ m ∈ prePreparesOf ms, ∀ m' ∈ prePreparesOf ms, m.key = m'.key →
    m.content = m'.content
  prepares : OneVote (preparesOf ms)
  commits : OneVote (commitsOf ms)

/-- Valid PRE-PREPAREs, PREPAREs and COMMITs of senders that do not contradict
themselves. -/
structure Consistent (maxFaulty : ℕ) (digestOf : String → Bool → String) (rs : PBFTReplica)
    (ms : List Message) : Prop extends Unambiguous ms where
  valid : ∀ m ∈ ms, rs.Valid maxFaulty digestOf m

/-- Nothing but an instance is kept under the key. -/
structure Untouched (rs : PBFTReplica) (key : MessageKey) : Prop where
  prepareSenders : rs.prepareSenders.get? key = none
  pendingPrepares : ∀ m ∈ rs.pendingPrepares, m.key ≠ key
  prepareSent : key ∉ rs.prepareSent
  prepared : key ∉ rs.preparedInstances
  commitSenders : rs.commitSenders.get? key = none
  pendingCommits : ∀ m ∈ rs.pendingCommits, m.key ≠ key
  commitSent : key ∉ rs.commitSent
  committed : key ∉ rs.committedInstances

/-- The replica has received no votes of its view yet. -/
def Entered (rs : PBFTReplica) : Prop := ∀ key, key.1 = rs.currentView → rs.Untouched key

/-- The key has no instance, and the PREPAREs `P` and the COMMITs `Q` have been
received. -/
structure Early (key : MessageKey) (P Q : List PBFTMessage) (rs : PBFTReplica) : Prop where
  prepareSenders : rs.prepareSenders.get? key = none
  prepared : key ∉ rs.preparedInstances
  pending : ∀ content, votesFor key content rs.pendingPrepares = votesFor key content P
  waits : Waits key Q rs

/-- The own PREPARE for the key, if it was sent. -/
def ownPrepare (rs : PBFTReplica) (key : MessageKey) : Finset ℤ :=
  if key ∈ rs.prepareSent then {rs.nodeId} else ∅

/-- The state of a key after a sequence of messages.  `stored` is the instance that it
had before them. -/
structure Settled (maxFaulty : ℕ) (key : MessageKey) (stored : Option PBFTInstance)
    (ms : List Message) (rs : PBFTReplica) : Prop where
  content : ∀ content, rs.instances.get? key = some content ↔ stored = some content ∨
    stored = none ∧ ∃ m, .prePrepare m ∈ ms ∧ m.key = key ∧ m.content = content
  prepareSent : key ∈ rs.prepareSent ↔ rs.nodeId ≠ rs.primaryId ∧
    ∃ m, .prePrepare m ∈ ms ∧ m.key = key ∧ rs.instances.get? key = some m.content
  received : ∀ p ∈ rs.pendingPrepares, p.key = key → p ∈ preparesOf ms
  early : rs.instances.get? key = none → Early key (preparesOf ms) (commitsOf ms) rs
  counting : ∀ content, rs.instances.get? key = some content →
    Counting maxFaulty key content (votesFor key content (preparesOf ms) ∪ rs.ownPrepare key)
      (commitsOf ms) rs

section Callbacks

theorem bufferEarlyCommit_waits
    {Q : List PBFTMessage}
    (h : Waits m.key Q rs)
    (hone : OneVote (Q ++ [m])) :
    Waits m.key (Q ++ [m]) (rs.bufferEarlyCommit m) := by
  unfold bufferEarlyCommit
  split
  case isTrue hbuffered =>
    refine ⟨h.commitSenders, h.commitSent, h.committed, fun content => ?_, fun p hp hkey =>
      List.mem_append_left _ (h.received p hp hkey)⟩
    have hsame : votesFor m.key content (rs.pendingCommits ++ [m])
        = votesFor m.key content rs.pendingCommits :=
      votesFor_of_buffered (hone.mono (by simp)) h.received hbuffered
    rw [votesFor_append, h.pending, ← votesFor_append] at hsame
    rw [h.pending, hsame]
  case isFalse =>
    refine ⟨h.commitSenders, h.commitSent, h.committed, fun content => ?_, fun p hp hkey => ?_⟩
    · simp only [votesFor_append, h.pending]
    · rcases List.mem_append.mp hp with hp | hp
      · exact List.mem_append_left _ (h.received p hp hkey)
      · exact List.mem_append_right _ hp

theorem commitCallback_within
    (maxFaulty : ℕ) (digestOf : String → Bool → String) (m : PBFTMessage) (rs : PBFTReplica) :
    CommitsWithin m.key rs (rs.commitCallback maxFaulty digestOf m) := by
  unfold commitCallback
  split
  case isTrue => exact CommitsWithin.refl m.key rs
  case isFalse =>
    split
    case isTrue => exact bufferEarlyCommit_within m rs
    case isFalse =>
      split
      case isTrue => exact bufferEarlyCommit_within m rs
      case isFalse => exact acceptCommit_within maxFaulty m rs

theorem Counting.commitCallback
    {T : Finset ℤ} {Q : List PBFTMessage}
    (h : Counting maxFaulty m.key content T Q rs)
    (hvalid : rs.validCommit maxFaulty digestOf m = true)
    (hone : OneVote (Q ++ [m])) :
    Counting maxFaulty m.key content T (Q ++ [m]) (rs.commitCallback maxFaulty digestOf m) := by
  have hframe := commitCallback_within maxFaulty digestOf m rs
  refine ⟨⟨?_, ?_, ?_, ?_, ?_, ?_, ?_⟩, ?_⟩
  · rw [hframe.instances]
    exact h.stored
  · rw [hframe.prepareSenders]
    exact h.nodup
  · rw [hframe.prepareSenders]
    exact h.senders
  · rw [hframe.prepareSenders]
    exact h.entry
  · rw [hframe.preparedInstances]
    exact h.reached
  · rw [hframe.preparedInstances]
    intro hopen
    unfold PBFTReplica.commitCallback
    rw [if_neg (by rw [hvalid]; exact nofun), if_pos hopen, ite_self]
    exact bufferEarlyCommit_waits (h.waits hopen) hone
  · rw [hframe.preparedInstances, hframe.nodeId]
    intro hprepared
    have hstored : rs.instances.contains m.key ≠ false := by
      intro hnone
      rw [get?_eq_none_of_contains, h.stored] at hnone
      cases hnone
    unfold PBFTReplica.commitCallback
    rw [if_neg (by rw [hvalid]; exact nofun), if_neg hstored, if_neg (not_not.mpr hprepared)]
    have hclosed := (h.closed hprepared).acceptCommit rfl
    rw [votesFor_append, votesFor_cons, votesFor_nil, Finset.union_empty, Finset.union_comm]
    by_cases hsame : m.content = content
    · rw [if_pos hsame, Finset.insert_comm] at hclosed
      rw [if_pos ⟨rfl, hsame⟩, ← Finset.insert_eq]
      exact hclosed
    · rw [if_neg hsame] at hclosed
      rw [if_neg fun hm => hsame hm.2, Finset.empty_union]
      exact hclosed
  · rw [hframe.preparedInstances]
    exact h.noticed

theorem Settled.commitCallback
    (h : Settled maxFaulty m.key stored ms rs)
    (hvalid : rs.validCommit maxFaulty digestOf m = true)
    (hone : OneVote (commitsOf (ms ++ [.commit m]))) :
    Settled maxFaulty m.key stored (ms ++ [.commit m])
      (rs.commitCallback maxFaulty digestOf m) := by
  have hframe := commitCallback_within maxFaulty digestOf m rs
  have hP : preparesOf (ms ++ [.commit m]) = preparesOf ms := by simp [preparesOf]
  have hQ : commitsOf (ms ++ [.commit m]) = commitsOf ms ++ [m] := by simp [commitsOf]
  rw [hQ] at hone
  constructor
  · intro content
    rw [hframe.instances, h.content]
    simp
  · rw [hframe.prepareSent, hframe.nodeId, hframe.primaryId, hframe.instances, h.prepareSent]
    simp
  · rw [hframe.pendingPrepares, hP]
    exact h.received
  · rw [hframe.instances, hP, hQ]
    intro hnone
    have hearly := h.early hnone
    unfold PBFTReplica.commitCallback
    rw [if_neg (by rw [hvalid]; exact nofun), if_pos (get?_eq_none_of_contains.mpr hnone)]
    have hbuffer := bufferEarlyCommit_within m rs
    refine ⟨?_, ?_, ?_, bufferEarlyCommit_waits hearly.waits hone⟩
    · rw [hbuffer.prepareSenders]
      exact hearly.prepareSenders
    · rw [hbuffer.preparedInstances]
      exact hearly.prepared
    · rw [hbuffer.pendingPrepares]
      exact hearly.pending
  · rw [hframe.instances, hP, hQ]
    intro content hstored
    have hown : (rs.commitCallback maxFaulty digestOf m).ownPrepare m.key
        = rs.ownPrepare m.key := by
      unfold ownPrepare
      rw [hframe.prepareSent, hframe.nodeId]
    rw [hown]
    exact (h.counting content hstored).commitCallback hvalid hone

theorem bufferEarlyPrepare_eq (m : PBFTMessage) (rs : PBFTReplica) :
    ∃ pending, rs.bufferEarlyPrepare m = { rs with pendingPrepares := pending } ∧
      (∀ p ∈ pending, p ∈ rs.pendingPrepares ∨ p = m) ∧
      ∀ k, k ≠ m.key → pending.filter (·.key = k) = rs.pendingPrepares.filter (·.key = k) := by
  unfold bufferEarlyPrepare
  split
  case isTrue => exact ⟨rs.pendingPrepares, rfl, fun _ hp => Or.inl hp, fun _ _ => rfl⟩
  case isFalse =>
    refine ⟨rs.pendingPrepares ++ [m], rfl, fun p hp => ?_, fun k hk =>
      filter_key_append_of_ne _ hk⟩
    rcases List.mem_append.mp hp with hp | hp
    · exact Or.inl hp
    · exact Or.inr (List.mem_singleton.mp hp)

theorem votesFor_bufferEarlyPrepare
    {P : List PBFTMessage}
    (hone : OneVote (P ++ [m]))
    (hpending : ∀ content, votesFor m.key content rs.pendingPrepares = votesFor m.key content P)
    (hreceived : ∀ p ∈ rs.pendingPrepares, p.key = m.key → p ∈ P)
    (content : PBFTInstance) :
    votesFor m.key content (rs.bufferEarlyPrepare m).pendingPrepares
      = votesFor m.key content (P ++ [m]) := by
  unfold bufferEarlyPrepare
  split
  case isTrue hbuffered =>
    have hsame : votesFor m.key content (rs.pendingPrepares ++ [m])
        = votesFor m.key content rs.pendingPrepares :=
      votesFor_of_buffered (hone.mono (by simp)) hreceived hbuffered
    rw [votesFor_append, hpending, ← votesFor_append] at hsame
    rw [hpending, hsame]
  case isFalse => simp only [votesFor_append, hpending]

theorem prepareCallback_within
    (maxFaulty : ℕ) (digestOf : String → Bool → String) (m : PBFTMessage) (rs : PBFTReplica) :
    Within m.key rs (rs.prepareCallback maxFaulty digestOf m) ∧
      (rs.prepareCallback maxFaulty digestOf m).instances = rs.instances ∧
      (rs.prepareCallback maxFaulty digestOf m).prepareSent = rs.prepareSent ∧
      ∀ p ∈ (rs.prepareCallback maxFaulty digestOf m).pendingPrepares,
        p ∈ rs.pendingPrepares ∨ p = m := by
  unfold prepareCallback
  split
  case isTrue => exact ⟨Within.refl m.key rs, rfl, rfl, fun _ hp => Or.inl hp⟩
  case isFalse =>
    split
    case isTrue =>
      obtain ⟨pending, heq, hmem, hfilter⟩ := bufferEarlyPrepare_eq m rs
      rw [heq]
      refine ⟨⟨rfl, rfl, rfl, fun k hk => ?_⟩, rfl, rfl, hmem⟩
      simp only [slot, hfilter k hk]
    case isFalse =>
      have hframe := acceptPrepare_within maxFaulty m rs
      refine ⟨hframe.toWithin, hframe.instances, hframe.prepareSent, fun p hp => Or.inl ?_⟩
      rw [hframe.pendingPrepares] at hp
      exact hp

theorem Settled.prepareCallback
    (h : Settled maxFaulty m.key stored ms rs)
    (hvalid : rs.validPrepare maxFaulty digestOf m = true)
    (hone : OneVote (preparesOf (ms ++ [.prepare m]))) :
    Settled maxFaulty m.key stored (ms ++ [.prepare m])
      (rs.prepareCallback maxFaulty digestOf m) := by
  obtain ⟨hframe, hinstances, hsent, hmem⟩ :=
    prepareCallback_within maxFaulty digestOf m rs
  have hP : preparesOf (ms ++ [.prepare m]) = preparesOf ms ++ [m] := by simp [preparesOf]
  have hQ : commitsOf (ms ++ [.prepare m]) = commitsOf ms := by simp [commitsOf]
  rw [hP] at hone
  constructor
  · intro content
    rw [hinstances, h.content]
    simp
  · rw [hsent, hframe.nodeId, hframe.primaryId, hinstances, h.prepareSent]
    simp
  · intro p hp hkey
    rw [hP]
    rcases hmem p hp with hp | rfl
    · exact List.mem_append_left _ (h.received p hp hkey)
    · exact List.mem_append_right _ (List.mem_singleton.mpr rfl)
  · rw [hinstances, hP, hQ]
    intro hnone
    have hearly := h.early hnone
    unfold PBFTReplica.prepareCallback
    rw [if_neg (by rw [hvalid]; exact nofun), if_pos (get?_eq_none_of_contains.mpr hnone)]
    have hvotes := votesFor_bufferEarlyPrepare hone hearly.pending h.received
    obtain ⟨pending, heq, -, -⟩ := bufferEarlyPrepare_eq m rs
    rw [heq] at hvotes ⊢
    exact ⟨hearly.prepareSenders, hearly.prepared, hvotes,
      hearly.waits.congr ⟨rfl, rfl, rfl, Iff.rfl, rfl, rfl, Iff.rfl, Iff.rfl⟩⟩
  · rw [hinstances, hP, hQ]
    intro content hstored
    have hown : (rs.prepareCallback maxFaulty digestOf m).ownPrepare m.key
        = rs.ownPrepare m.key := by
      unfold ownPrepare
      rw [hsent, hframe.nodeId]
    rw [hown]
    have hsome : rs.instances.contains m.key ≠ false := by
      intro hnone
      rw [get?_eq_none_of_contains, hstored] at hnone
      cases hnone
    have hcounting := (h.counting content hstored).acceptPrepare rfl
    unfold PBFTReplica.prepareCallback
    rw [if_neg (by rw [hvalid]; exact nofun), if_neg hsome, votesFor_append, votesFor_cons,
      votesFor_nil, Finset.union_empty, Finset.union_right_comm, Finset.union_comm]
    by_cases hsame : m.content = content
    · rw [if_pos hsame] at hcounting
      rw [if_pos ⟨rfl, hsame⟩, ← Finset.insert_eq]
      exact hcounting
    · rw [if_neg hsame] at hcounting
      rw [if_neg fun hm => hsame hm.2, Finset.empty_union]
      exact hcounting

/-- The part of `pre_prepare_callback` after the instance is stored. -/
theorem answer_within
    (maxFaulty : ℕ) {rs : PBFTReplica}
    (hstored : rs.instances.get? key = some content) :
    VotesWithin key { rs with
        pendingPrepares := rs.pendingPrepares.filter (·.key ≠ key)
        prepareSent := if rs.nodeId ≠ rs.primaryId then insert key rs.prepareSent
          else rs.prepareSent }
      (let rs := rs.processPendingPrepares maxFaulty key
      if rs.nodeId ≠ rs.primaryId then rs.sendPrepare maxFaulty key else rs) := by
  have hframe := processPendingPrepares_within maxFaulty key rs
  have hnode : (rs.processPendingPrepares maxFaulty key).nodeId = rs.nodeId := hframe.nodeId
  have hprimary : (rs.processPendingPrepares maxFaulty key).primaryId = rs.primaryId :=
    hframe.primaryId
  have hsent : (rs.processPendingPrepares maxFaulty key).prepareSent = rs.prepareSent :=
    hframe.prepareSent
  have hget : (rs.processPendingPrepares maxFaulty key).instances.get? key = some content := by
    rw [hframe.instances]
    exact hstored
  dsimp only
  rw [hnode, hprimary]
  split
  case isFalse => exact hframe
  case isTrue =>
    by_cases hdone : key ∈ rs.prepareSent
    · have heq : (rs.processPendingPrepares maxFaulty key).sendPrepare maxFaulty key
          = rs.processPendingPrepares maxFaulty key := by
        unfold sendPrepare
        rw [if_pos (by rw [hsent]; exact hdone)]
      rw [heq, Finset.insert_eq_of_mem hdone]
      exact hframe
    · have hsend := sendPrepare_within maxFaulty (by rw [hsent]; exact hdone) hget
      refine ⟨⟨hsend.nodeId.trans hnode, hsend.currentView.trans hframe.currentView,
        hsend.primaryId.trans hprimary, fun k hk => ?_⟩, hsend.instances.trans hframe.instances,
        hsend.pendingPrepares.trans hframe.pendingPrepares, ?_⟩
      · rw [hsend.others k hk]
        have hother := hframe.others k hk
        simp only [slot, Slot.mk.injEq, Finset.mem_insert, hk, false_or] at hother ⊢
        exact hother
      · rw [hsend.prepareSent, hsent]

theorem Counting.answer
    {T : Finset ℤ} {Q : List PBFTMessage}
    (h : Counting maxFaulty key content T Q rs)
    (hown : key ∈ rs.prepareSent → rs.nodeId ∈ T) :
    Counting maxFaulty key content
      (T ∪ votesFor key content rs.pendingPrepares ∪
        if rs.nodeId ≠ rs.primaryId then {rs.nodeId} else ∅) Q
      (let rs := rs.processPendingPrepares maxFaulty key
      if rs.nodeId ≠ rs.primaryId then rs.sendPrepare maxFaulty key else rs) := by
  have hframe := processPendingPrepares_within maxFaulty key rs
  have hnode : (rs.processPendingPrepares maxFaulty key).nodeId = rs.nodeId := hframe.nodeId
  have hprimary : (rs.processPendingPrepares maxFaulty key).primaryId = rs.primaryId :=
    hframe.primaryId
  have hsent : (rs.processPendingPrepares maxFaulty key).prepareSent = rs.prepareSent :=
    hframe.prepareSent
  have hall := h.processPendingPrepares
  dsimp only
  rw [hnode, hprimary]
  split
  case isFalse =>
    rw [Finset.union_empty]
    exact hall
  case isTrue =>
    rw [Finset.union_comm _ {rs.nodeId}, ← Finset.insert_eq]
    by_cases hdone : key ∈ rs.prepareSent
    · unfold PBFTReplica.sendPrepare
      rw [if_pos (by rw [hsent]; exact hdone),
        Finset.insert_eq_of_mem (Finset.mem_union_left _ (hown hdone))]
      exact hall
    · have hsend := hall.sendPrepare (by rw [hsent]; exact hdone)
      rw [hnode] at hsend
      exact hsend

theorem storeInstance_eq_none
    (h : rs.storeInstance m = none) :
    ∃ existing, rs.instances.get? m.key = some existing ∧ existing ≠ m.content := by
  unfold storeInstance at h
  split at h
  case h_1 existing hget =>
    split at h
    case isTrue hne => exact ⟨existing, hget, hne⟩
    case isFalse => cases h
  case h_2 => cases h

theorem storeInstance_eq_some
    (h : rs.storeInstance m = some rs') :
    rs.instances.get? m.key = some m.content ∧ rs' = rs ∨
      rs.instances.get? m.key = none ∧ ∃ timeout, rs' = { rs with
        instances := rs.instances.set m.key m.content
        progressTimeout := timeout } := by
  unfold storeInstance at h
  split at h
  case h_1 existing hget =>
    split at h
    case isTrue => cases h
    case isFalse hsame =>
      obtain rfl := Option.some.inj h
      rw [not_not.mp hsame] at hget
      exact Or.inl ⟨hget, rfl⟩
  case h_2 hget =>
    obtain ⟨timeout, harm⟩ := armProgressTimeout_eq
      { rs with instances := rs.instances.set m.key m.content } m.requestId
    rw [harm] at h
    exact Or.inr ⟨hget, timeout, (Option.some.inj h).symm⟩

theorem storeInstance_within
    (h : rs.storeInstance m = some rs') :
    Within m.key rs rs' ∧ rs'.instances.get? m.key = some m.content ∧
      rs'.pendingPrepares = rs.pendingPrepares ∧ rs'.prepareSent = rs.prepareSent := by
  rcases storeInstance_eq_some h with ⟨hget, rfl⟩ | ⟨-, timeout, rfl⟩
  · exact ⟨Within.refl m.key rs', hget, rfl, rfl⟩
  · refine ⟨⟨rfl, rfl, rfl, fun k hk => ?_⟩, ?_, rfl, rfl⟩
    · simp only [slot, Dict.get?_set, if_neg hk]
    · rw [Dict.get?_set, if_pos rfl]

theorem prePrepareCallback_within
    (maxFaulty : ℕ) (digestOf : String → Bool → String) (m : PBFTMessage) (rs : PBFTReplica) :
    Within m.key rs (rs.prePrepareCallback maxFaulty digestOf m) := by
  unfold prePrepareCallback
  split
  case isTrue => exact Within.refl m.key rs
  case isFalse =>
    cases hstore : rs.storeInstance m with
    | none => exact Within.refl m.key rs
    | some rs₁ =>
        obtain ⟨hwithin, hget, -, -⟩ := storeInstance_within hstore
        have hget' : { rs₁ with currentKey := some m.key }.instances.get? m.key
            = some m.content := hget
        have hanswer := (answer_within maxFaulty hget').toWithin
        refine hwithin.trans ⟨hanswer.nodeId, hanswer.currentView, hanswer.primaryId, ?_⟩
        intro k hk
        refine (hanswer.others k hk).trans ?_
        simp only [slot, filter_key_filter_of_ne _ hk]
        split
        · simp [hk]
        · rfl

/-- The PREPAREs that waited for the instance are the ones that have arrived. -/
theorem Settled.storeInstance
    (h : Settled maxFaulty m.key stored ms rs)
    (hstore : rs.storeInstance m = some rs') :
    ∃ T, Counting maxFaulty m.key m.content T (commitsOf ms) rs' ∧
      T ∪ votesFor m.key m.content rs.pendingPrepares
        = votesFor m.key m.content (preparesOf ms) ∪ rs.ownPrepare m.key ∧
      (m.key ∈ rs.prepareSent → rs.nodeId ∈ T) := by
  rcases storeInstance_eq_some hstore with ⟨hget, rfl⟩ | ⟨hnone, timeout, rfl⟩
  · refine ⟨_, h.counting m.content hget, ?_, fun hsent => ?_⟩
    · have hsub : votesFor m.key m.content rs'.pendingPrepares
          ⊆ votesFor m.key m.content (preparesOf ms) := by
        intro sender hsender
        obtain ⟨p, hp, hkey, hp'⟩ := mem_votesFor.mp hsender
        exact mem_votesFor.mpr ⟨p, h.received p hp hkey, hkey, hp'⟩
      exact Finset.union_eq_left.mpr (hsub.trans Finset.subset_union_left)
    · rw [ownPrepare, if_pos hsent]
      exact Finset.mem_union_right _ (Finset.mem_singleton_self _)
  · have hearly := h.early hnone
    have hunsent : m.key ∉ rs.prepareSent := by
      rw [h.prepareSent, hnone]
      rintro ⟨-, p, -, -, hp⟩
      cases hp
    refine ⟨∅, ⟨⟨?_, ?_, ?_, ?_, ?_, ?_, ?_⟩, ?_⟩, ?_, fun hsent => absurd hsent hunsent⟩
    · rw [Dict.get?_set, if_pos rfl]
    · simp [Dict.getD, hearly.prepareSenders]
    · simp [Dict.getD, hearly.prepareSenders]
    · simp [hearly.prepareSenders]
    · exact fun hprepared => absurd hprepared hearly.prepared
    · intro
      exact ⟨hearly.waits.commitSenders, hearly.waits.commitSent, hearly.waits.committed,
        hearly.waits.pending, hearly.waits.received⟩
    · exact fun hprepared => absurd hprepared hearly.prepared
    · exact fun hempty => absurd hempty Finset.not_nonempty_empty
    · rw [Finset.empty_union, hearly.pending, ownPrepare, if_neg hunsent, Finset.union_empty]

/-- An instance is not replaced. -/
theorem Settled.content_prePrepare
    (h : Settled maxFaulty m.key stored ms rs)
    (hone : ∀ p, .prePrepare p ∈ ms → p.key = m.key → p.content = m.content)
    (content : PBFTInstance) :
    (stored = some content ∨ stored = none ∧
        ∃ p, .prePrepare p ∈ ms ++ [.prePrepare m] ∧ p.key = m.key ∧ p.content = content) ↔
      rs.instances.get? m.key = some content ∨
        rs.instances.get? m.key = none ∧ m.content = content := by
  rw [h.content]
  constructor
  · rintro (hstored | ⟨hnone, p, hp, hkey, hcontent⟩)
    · exact Or.inl (Or.inl hstored)
    · rcases List.mem_append.mp hp with hp | hp
      · exact Or.inl (Or.inr ⟨hnone, p, hp, hkey, hcontent⟩)
      · obtain rfl : p = m := by simpa using hp
        cases hget : rs.instances.get? p.key with
        | none => exact Or.inr ⟨rfl, hcontent⟩
        | some existing =>
            rcases (h.content existing).mp hget with hstored | ⟨-, q, hq, hqkey, hqcontent⟩
            · rw [hnone] at hstored
              cases hstored
            · refine Or.inl (Or.inr ⟨hnone, q, hq, hqkey, ?_⟩)
              rw [hone q hq hqkey, hcontent]
  · rintro ((hstored | ⟨hnone, p, hp, hkey, hcontent⟩) | ⟨hget, hcontent⟩)
    · exact Or.inl hstored
    · exact Or.inr ⟨hnone, p, List.mem_append_left _ hp, hkey, hcontent⟩
    · refine Or.inr ⟨?_, m, List.mem_append_right _ (List.mem_singleton.mpr rfl), rfl, hcontent⟩
      cases hstored : stored with
      | none => rfl
      | some c =>
          have hc := (h.content c).mpr (Or.inl hstored)
          rw [hget] at hc
          cases hc

/-- A PRE-PREPARE with other contents than the stored one changes nothing. -/
theorem Settled.prePrepare_conflicting
    {existing : PBFTInstance}
    (h : Settled maxFaulty m.key stored ms rs)
    (hget : rs.instances.get? m.key = some existing)
    (hne : existing ≠ m.content)
    (hone : ∀ p, .prePrepare p ∈ ms → p.key = m.key → p.content = m.content) :
    Settled maxFaulty m.key stored (ms ++ [.prePrepare m]) rs := by
  have hP : preparesOf (ms ++ [.prePrepare m]) = preparesOf ms := by simp [preparesOf]
  have hQ : commitsOf (ms ++ [.prePrepare m]) = commitsOf ms := by simp [commitsOf]
  constructor
  · intro content
    rw [h.content_prePrepare hone, hget]
    simp
  · rw [h.prepareSent, hget]
    simp [hne]
  · rw [hP]
    exact h.received
  · rw [hget]
    exact nofun
  · rw [hP, hQ]
    exact h.counting

theorem Settled.prePrepareCallback
    (h : Settled maxFaulty m.key stored ms rs)
    (hvalid : rs.validPrePrepare digestOf m = true)
    (hone : ∀ p, .prePrepare p ∈ ms → p.key = m.key → p.content = m.content) :
    Settled maxFaulty m.key stored (ms ++ [.prePrepare m])
      (rs.prePrepareCallback maxFaulty digestOf m) := by
  have hP : preparesOf (ms ++ [.prePrepare m]) = preparesOf ms := by simp [preparesOf]
  have hQ : commitsOf (ms ++ [.prePrepare m]) = commitsOf ms := by simp [commitsOf]
  have hcontent := h.content_prePrepare hone
  unfold PBFTReplica.prePrepareCallback
  rw [if_neg (by rw [hvalid]; exact nofun)]
  cases hstore : rs.storeInstance m with
  | none =>
      obtain ⟨existing, hget, hne⟩ := storeInstance_eq_none hstore
      exact h.prePrepare_conflicting hget hne hone
  | some rs₁ =>
      obtain ⟨hwithin, hget, hpending, hsent⟩ := storeInstance_within hstore
      obtain ⟨T, hcounting, hT, hown⟩ := h.storeInstance hstore
      dsimp only
      set rs₂ : PBFTReplica := { rs₁ with currentKey := some m.key } with hrs₂
      have hget₂ : rs₂.instances.get? m.key = some m.content := hget
      have hframe := answer_within maxFaulty hget₂
      have hcounting₂ : Counting maxFaulty m.key m.content T (commitsOf ms) rs₂ :=
        hcounting.congr ⟨rfl, rfl, rfl, Iff.rfl, rfl, rfl, Iff.rfl, Iff.rfl⟩
      have hresult := hcounting₂.answer (by
        change m.key ∈ rs₁.prepareSent → rs₁.nodeId ∈ T
        rw [hsent, hwithin.nodeId]
        exact hown)
      dsimp only at hframe hresult
      generalize hrs' : (if (rs₂.processPendingPrepares maxFaulty m.key).nodeId
        ≠ (rs₂.processPendingPrepares maxFaulty m.key).primaryId
        then (rs₂.processPendingPrepares maxFaulty m.key).sendPrepare maxFaulty m.key
        else rs₂.processPendingPrepares maxFaulty m.key) = rs' at hframe hresult ⊢
      have hnode : rs'.nodeId = rs.nodeId := hframe.nodeId.trans hwithin.nodeId
      have hprimary : rs'.primaryId = rs.primaryId := hframe.primaryId.trans hwithin.primaryId
      have hget' : rs'.instances.get? m.key = some m.content := by
        rw [hframe.instances]
        exact hget
      have hsent' : m.key ∈ rs'.prepareSent ↔ rs.nodeId ≠ rs.primaryId := by
        have heq : rs'.prepareSent = if rs.nodeId ≠ rs.primaryId then insert m.key rs.prepareSent
            else rs.prepareSent := by
          rw [hframe.prepareSent, ← hsent, ← hwithin.nodeId, ← hwithin.primaryId]
        rw [heq]
        split
        case isTrue hne => exact iff_of_true (Finset.mem_insert_self _ _) hne
        case isFalse hprim => exact iff_of_false (fun hs => hprim (h.prepareSent.mp hs).1) hprim
      constructor
      · intro content
        rw [hcontent, hget']
        rcases storeInstance_eq_some hstore with ⟨hold, -⟩ | ⟨hold, -⟩
        · simp [hold]
        · simp [hold]
      · rw [hsent', hnode, hprimary, hget']
        refine ⟨fun hne => ⟨hne, m, ?_, rfl, rfl⟩, fun hne => hne.1⟩
        exact List.mem_append_right _ (List.mem_singleton.mpr rfl)
      · intro p hp hkey
        rw [hframe.pendingPrepares] at hp
        simp [hkey] at hp
      · rw [hget']
        exact nofun
      · intro content hcontent'
        rw [hget'] at hcontent'
        obtain rfl := Option.some.inj hcontent'
        rw [hP, hQ]
        have hvotes : T ∪ votesFor m.key m.content rs₂.pendingPrepares ∪
              (if rs₂.nodeId ≠ rs₂.primaryId then {rs₂.nodeId} else ∅)
            = votesFor m.key m.content (preparesOf ms) ∪ rs'.ownPrepare m.key := by
          have hnode₂ : rs₂.nodeId = rs.nodeId := hwithin.nodeId
          have hprimary₂ : rs₂.primaryId = rs.primaryId := hwithin.primaryId
          rw [show rs₂.pendingPrepares = rs.pendingPrepares from hpending, hT, hnode₂, hprimary₂,
            Finset.union_assoc, ownPrepare, ownPrepare, hnode]
          by_cases hne : rs.nodeId ≠ rs.primaryId
          · rw [if_pos hne, if_pos (hsent'.mpr hne)]
            split <;> simp
          · rw [if_neg hne, if_neg fun hs => hne (hsent'.mp hs),
              if_neg fun hs => hne (h.prepareSent.mp hs).1, Finset.union_empty]
        rw [hvotes] at hresult
        exact hresult

end Callbacks

section Runs

theorem Untouched.settled
    (h : rs.Untouched key) :
    Settled maxFaulty key (rs.instances.get? key) [] rs := by
  have hvotes : ∀ (ms : List PBFTMessage) (content : PBFTInstance), (∀ m ∈ ms, m.key ≠ key) →
      votesFor key content ms = ∅ := by
    intro ms content hms
    refine Finset.eq_empty_of_forall_notMem fun sender hsender => ?_
    obtain ⟨m, hm, hkey, -⟩ := mem_votesFor.mp hsender
    exact hms m hm hkey
  have hwaits : Waits key [] rs := by
    refine ⟨h.commitSenders, h.commitSent, h.committed, fun content => ?_, fun p hp hkey => ?_⟩
    · exact hvotes _ content h.pendingCommits
    · exact absurd hkey (h.pendingCommits p hp)
  constructor
  · simp
  · exact iff_of_false h.prepareSent fun ⟨_, m, hm, _⟩ => List.not_mem_nil hm
  · exact fun p hp hkey => absurd hkey (h.pendingPrepares p hp)
  · intro
    exact ⟨h.prepareSenders, h.prepared, fun content => hvotes _ content h.pendingPrepares,
      hwaits⟩
  · intro content hstored
    have hempty : votesFor key content (preparesOf []) ∪ rs.ownPrepare key = ∅ := by
      rw [ownPrepare, if_neg h.prepareSent]
      rfl
    rw [hempty]
    refine ⟨⟨hstored, ?_, ?_, ?_, fun hprepared => absurd hprepared h.prepared, fun _ => hwaits,
      fun hprepared => absurd hprepared h.prepared⟩, fun hT => absurd hT Finset.not_nonempty_empty⟩
    · simp [Dict.getD, h.prepareSenders]
    · simp [Dict.getD, h.prepareSenders]
    · simp [h.prepareSenders]

/-- A callback for another key does not matter. -/
theorem Settled.congr
    {key' : MessageKey}
    (h : Settled maxFaulty key stored ms rs)
    (hwithin : Within key' rs rs')
    (hkey : key ≠ key') :
    Settled maxFaulty key stored ms rs' := by
  have hslot := hwithin.others key hkey
  have htally := SameTally.of_slot hwithin.nodeId hslot
  have hget := htally.stored
  have hsent : key ∈ rs'.prepareSent ↔ key ∈ rs.prepareSent :=
    decide_eq_decide.mp (congrArg Slot.prepareSent hslot)
  have hpending : rs'.pendingPrepares.filter (·.key = key)
      = rs.pendingPrepares.filter (·.key = key) := congrArg Slot.pendingPrepares hslot
  have hown : rs'.ownPrepare key = rs.ownPrepare key := by
    simp only [ownPrepare, hsent, hwithin.nodeId]
  constructor
  · intro content
    rw [hget, h.content]
  · rw [hsent, hget, hwithin.nodeId, hwithin.primaryId, h.prepareSent]
  · intro p hp hp'
    have hmem : p ∈ rs'.pendingPrepares.filter (·.key = key) :=
      List.mem_filter.mpr ⟨hp, by simpa using hp'⟩
    rw [hpending] at hmem
    exact h.received p (List.mem_of_mem_filter hmem) hp'
  · rw [hget]
    intro hnone
    have hearly := h.early hnone
    refine ⟨htally.prepareSenders.trans hearly.prepareSenders, ?_, fun content => ?_,
      hearly.waits.congr htally⟩
    · rw [htally.prepared]
      exact hearly.prepared
    · rw [← votesFor_filter_key, hpending, votesFor_filter_key]
      exact hearly.pending content
  · rw [hget, hown]
    exact fun content hstored => (h.counting content hstored).congr htally

theorem Unambiguous.mono
    {ms' : List Message}
    (h : Unambiguous ms)
    (hsub : ms' ⊆ ms) :
    Unambiguous ms' := by
  refine ⟨?_, h.prepares.mono ?_, h.commits.mono ?_⟩
  · intro m hm m' hm'
    rw [mem_prePreparesOf] at hm hm'
    exact h.prePrepares m (mem_prePreparesOf.mpr (hsub hm)) m' (mem_prePreparesOf.mpr (hsub hm'))
  · intro m hm
    rw [mem_preparesOf] at hm ⊢
    exact hsub hm
  · intro m hm
    rw [mem_commitsOf] at hm ⊢
    exact hsub hm

theorem Consistent.mono
    {ms' : List Message}
    (h : Consistent maxFaulty digestOf rs ms)
    (hsub : ms' ⊆ ms) :
    Consistent maxFaulty digestOf rs ms' :=
  ⟨h.toUnambiguous.mono hsub, fun m hm => h.valid m (hsub hm)⟩

theorem Valid.exists_key
    {x : Message}
    (h : rs.Valid maxFaulty digestOf x) :
    ∃ key, x.key = some key ∧ key.1 = rs.currentView := by
  cases x with
  | prePrepare m =>
      rw [Valid, validPrePrepare, decide_eq_true_eq] at h
      exact ⟨m.key, rfl, h.2.2.2.1⟩
  | prepare m =>
      rw [Valid, validPrepare, decide_eq_true_eq] at h
      exact ⟨m.key, rfl, h.2.2.1⟩
  | commit m =>
      rw [Valid, validCommit, decide_eq_true_eq] at h
      exact ⟨m.key, rfl, h.2.2.1⟩
  | request | viewChange | newView => exact h.elim

theorem Valid.congr
    {key' : MessageKey} {x : Message}
    (h : rs.Valid maxFaulty digestOf x)
    (hwithin : Within key' rs rs') :
    rs'.Valid maxFaulty digestOf x := by
  cases x with
  | prePrepare m =>
      simpa only [Valid, validPrePrepare, hwithin.nodeId, hwithin.primaryId,
        hwithin.currentView] using h
  | prepare m =>
      simpa only [Valid, validPrepare, hwithin.nodeId, hwithin.primaryId,
        hwithin.currentView] using h
  | commit m =>
      simpa only [Valid, validCommit, hwithin.nodeId, hwithin.currentView] using h
  | request | viewChange | newView => exact h.elim

theorem receive_within
    (maxFaulty : ℕ) (digestOf : String → Bool → String) {x : Message}
    (hkey : x.key = some key) :
    Within key rs (rs.receive maxFaulty digestOf x) := by
  cases x with
  | prePrepare m =>
      obtain rfl := Option.some.inj hkey
      exact prePrepareCallback_within maxFaulty digestOf m rs
  | prepare m =>
      obtain rfl := Option.some.inj hkey
      exact (prepareCallback_within maxFaulty digestOf m rs).1
  | commit m =>
      obtain rfl := Option.some.inj hkey
      exact (commitCallback_within maxFaulty digestOf m rs).toWithin
  | request | viewChange | newView => cases hkey

theorem Settled.receive
    {x : Message}
    (h : Settled maxFaulty key stored ms rs)
    (hvalid : rs.Valid maxFaulty digestOf x)
    (hone : Unambiguous (ms ++ [x]))
    (hkey : x.key = some key) :
    Settled maxFaulty key stored (ms ++ [x]) (rs.receive maxFaulty digestOf x) := by
  have hlast : x ∈ ms ++ [x] := List.mem_append_right _ (List.mem_singleton.mpr rfl)
  cases x with
  | prePrepare m =>
      obtain rfl := Option.some.inj hkey
      refine h.prePrepareCallback hvalid fun p hp hpkey => ?_
      exact hone.prePrepares p (mem_prePreparesOf.mpr (List.mem_append_left _ hp)) m
        (mem_prePreparesOf.mpr hlast) hpkey
  | prepare m =>
      obtain rfl := Option.some.inj hkey
      exact h.prepareCallback hvalid hone.prepares
  | commit m =>
      obtain rfl := Option.some.inj hkey
      exact h.commitCallback hvalid hone.commits
  | request | viewChange | newView => cases hkey

/-- The messages with the key. -/
def withKey (key : MessageKey) (ms : List Message) : List Message :=
  ms.filter fun m => m.key = some key

/-- Receiving valid messages keeps the configuration. -/
theorem foldl_receive_within
    (hcons : Consistent maxFaulty digestOf rs ms) :
    let rs' := ms.foldl (receive maxFaulty digestOf) rs
    (∀ key, key.1 ≠ rs.currentView → rs'.slot key = rs.slot key) ∧
      (∀ x, rs.Valid maxFaulty digestOf x → rs'.Valid maxFaulty digestOf x) ∧
      rs'.nodeId = rs.nodeId ∧ rs'.primaryId = rs.primaryId := by
  induction ms using List.reverseRecOn with
  | nil => exact ⟨fun _ _ => rfl, fun _ h => h, rfl, rfl⟩
  | append_singleton ms x ih =>
      obtain ⟨hslot, hvalid, hnode, hprimary⟩ := ih (hcons.mono (by simp))
      obtain ⟨key, hkey, hview⟩ := (hcons.valid x (by simp)).exists_key
      have hwithin : Within key (ms.foldl (receive maxFaulty digestOf) rs) _ :=
        receive_within maxFaulty digestOf hkey
      simp only [List.foldl_append, List.foldl_cons, List.foldl_nil]
      refine ⟨fun k hk => ?_, fun y hy => (hvalid y hy).congr hwithin,
        hwithin.nodeId.trans hnode, hwithin.primaryId.trans hprimary⟩
      have hne : k ≠ key := by
        rintro rfl
        exact hk hview
      exact (hwithin.others k hne).trans (hslot k hk)

/-- What a sequence of messages leaves under a key. -/
theorem settled_foldl
    (huntouched : rs.Untouched key)
    (hcons : Consistent maxFaulty digestOf rs ms) :
    Settled maxFaulty key (rs.instances.get? key) (withKey key ms)
      (ms.foldl (receive maxFaulty digestOf) rs) := by
  induction ms using List.reverseRecOn with
  | nil => exact huntouched.settled
  | append_singleton ms x ih =>
      have hbefore : Consistent maxFaulty digestOf rs ms := hcons.mono (by simp)
      have h := ih hbefore
      obtain ⟨-, hvalid, -, -⟩ := foldl_receive_within hbefore
      obtain ⟨key', hkey, -⟩ := (hcons.valid x (by simp)).exists_key
      rw [withKey, List.filter_append, List.foldl_append, List.foldl_cons, List.foldl_nil]
      by_cases hsame : key' = key
      · subst hsame
        rw [List.filter_cons_of_pos (by simpa using hkey), List.filter_nil]
        refine h.receive (hvalid x (hcons.valid x (by simp))) (hcons.toUnambiguous.mono ?_) hkey
        intro y hy
        rcases List.mem_append.mp hy with hy | hy
        · exact List.mem_append_left _ (List.mem_of_mem_filter hy)
        · exact List.mem_append_right _ hy
      · rw [List.filter_cons_of_neg (by rw [hkey]; simpa using hsame), List.filter_nil,
          List.append_nil]
        exact h.congr (receive_within maxFaulty digestOf hkey) (Ne.symm hsame)

/-- The same votes are recorded under the key. -/
structure SameRecords (key : MessageKey) (rs rs' : PBFTReplica) : Prop where
  preparedInstances : key ∈ rs.preparedInstances ↔ key ∈ rs'.preparedInstances
  committedInstances : key ∈ rs.committedInstances ↔ key ∈ rs'.committedInstances
  prepareSenders : (rs.prepareSenders.get? key).map List.toFinset
    = (rs'.prepareSenders.get? key).map List.toFinset
  commitSenders : rs.commitSenders.get? key = rs'.commitSenders.get? key

/-- The entry of the counted PREPAREs. -/
theorem Tallied.prepareSenders_eq
    {T : Finset ℤ} {Q : List PBFTMessage}
    (h : Tallied maxFaulty key content T Q rs) :
    (rs.prepareSenders.get? key).map List.toFinset = if T.Nonempty then some T else none := by
  have hsenders := h.senders
  have hentry := h.entry
  unfold Dict.getD at hsenders
  cases hget : rs.prepareSenders.get? key with
  | none =>
      rw [hget] at hsenders
      rw [← hsenders]
      rfl
  | some senders =>
      rw [hget] at hsenders hentry
      have hT : senders.toFinset = T := hsenders
      have hne : T.Nonempty := by
        rw [← hT, List.toFinset_nonempty_iff]
        rintro rfl
        exact hentry rfl
      rw [if_pos hne, ← hT]
      rfl

/-- The entry of the counted COMMITs. -/
theorem Tallied.commitSenders_eq
    {T : Finset ℤ} {Q : List PBFTMessage}
    (h : Tallied maxFaulty key content T Q rs) :
    rs.commitSenders.get? key = if key ∈ rs.preparedInstances
      then some (insert rs.nodeId (votesFor key content Q)) else none := by
  split
  case isTrue hprepared =>
    have hsenders := (h.closed hprepared).senders
    unfold Dict.getD at hsenders
    cases hget : rs.commitSenders.get? key with
    | none =>
        rw [hget] at hsenders
        exact absurd hsenders.symm (Finset.insert_ne_empty _ _)
    | some senders =>
        rw [hget] at hsenders
        exact congrArg some hsenders
  case isFalse hopen => exact (h.waits hopen).commitSenders

theorem Counting.prepared_iff
    {T : Finset ℤ} {Q : List PBFTMessage}
    (h : Counting maxFaulty key content T Q rs) :
    key ∈ rs.preparedInstances ↔ T.Nonempty ∧ prepareThreshold maxFaulty ≤ T.card :=
  ⟨h.reached, fun hmany => h.noticed hmany.1 hmany.2⟩

theorem Tallied.committed_iff
    {T : Finset ℤ} {Q : List PBFTMessage}
    (h : Tallied maxFaulty key content T Q rs) :
    key ∈ rs.committedInstances ↔ key ∈ rs.preparedInstances ∧
      commitThreshold maxFaulty ≤ (insert rs.nodeId (votesFor key content Q)).card := by
  constructor
  · intro hdone
    have hprepared : key ∈ rs.preparedInstances := by
      by_contra hopen
      exact (h.waits hopen).committed hdone
    exact ⟨hprepared, (h.closed hprepared).committed.mp hdone⟩
  · rintro ⟨hprepared, hmany⟩
    exact (h.closed hprepared).committed.mpr hmany

/-- The records of a key depend on the set of the messages. -/
theorem Settled.sameRecords
    {ms' : List Message}
    (h : Settled maxFaulty key stored ms rs)
    (h' : Settled maxFaulty key stored ms' rs')
    (hms : ∀ x, x ∈ ms ↔ x ∈ ms')
    (hnode : rs.nodeId = rs'.nodeId)
    (hprimary : rs.primaryId = rs'.primaryId) :
    SameRecords key rs rs' := by
  have hget : rs.instances.get? key = rs'.instances.get? key := by
    refine Option.ext fun content => ?_
    rw [h.content, h'.content]
    simp only [hms]
  have hown : rs.ownPrepare key = rs'.ownPrepare key := by
    have hsent : key ∈ rs.prepareSent ↔ key ∈ rs'.prepareSent := by
      rw [h.prepareSent, h'.prepareSent, hget, hnode, hprimary]
      simp only [hms]
    simp only [ownPrepare, hsent, hnode]
  cases hstored : rs.instances.get? key with
  | none =>
      have hearly := h.early hstored
      have hearly' := h'.early (hget ▸ hstored)
      refine ⟨iff_of_false hearly.prepared hearly'.prepared,
        iff_of_false hearly.waits.committed hearly'.waits.committed, ?_, ?_⟩
      · rw [hearly.prepareSenders, hearly'.prepareSenders]
      · rw [hearly.waits.commitSenders, hearly'.waits.commitSenders]
  | some content =>
      have hcount := h.counting content hstored
      have hcount' := h'.counting content (hget ▸ hstored)
      have hP : votesFor key content (preparesOf ms') = votesFor key content (preparesOf ms) :=
        votesFor_congr fun m => by rw [mem_preparesOf, mem_preparesOf, hms]
      have hQ : votesFor key content (commitsOf ms') = votesFor key content (commitsOf ms) :=
        votesFor_congr fun m => by rw [mem_commitsOf, mem_commitsOf, hms]
      have hprepared : key ∈ rs.preparedInstances ↔ key ∈ rs'.preparedInstances := by
        rw [hcount.prepared_iff, hcount'.prepared_iff, hP, hown]
      refine ⟨hprepared, ?_, ?_, ?_⟩
      · rw [hcount.committed_iff, hcount'.committed_iff, hprepared, hQ, hnode]
      · rw [hcount.prepareSenders_eq, hcount'.prepareSenders_eq, hP, hown]
      · rw [hcount.commitSenders_eq, hcount'.commitSenders_eq, hQ, hnode]
        simp only [hprepared]

/-- **The order of delivery does not matter inside a view.**  Two sequences of the same
valid messages, in any order and with any repetitions, leave the same records. -/
theorem sameRecords_of_sameMessages
    {ms' : List Message}
    (hentered : rs.Entered)
    (hcons : Consistent maxFaulty digestOf rs ms)
    (hms : ∀ x, x ∈ ms ↔ x ∈ ms')
    (key : MessageKey) :
    SameRecords key (ms.foldl (receive maxFaulty digestOf) rs)
      (ms'.foldl (receive maxFaulty digestOf) rs) := by
  have hcons' : Consistent maxFaulty digestOf rs ms' := hcons.mono fun x hx => (hms x).mpr hx
  obtain ⟨hslot, -, hnode, hprimary⟩ := foldl_receive_within hcons
  obtain ⟨hslot', -, hnode', hprimary'⟩ := foldl_receive_within hcons'
  by_cases hview : key.1 = rs.currentView
  · have hsame : ∀ x, x ∈ withKey key ms ↔ x ∈ withKey key ms' := by
      intro x
      simp only [withKey, List.mem_filter, hms]
    exact (settled_foldl (hentered key hview) hcons).sameRecords
      (settled_foldl (hentered key hview) hcons') hsame (hnode.trans hnode'.symm)
      (hprimary.trans hprimary'.symm)
  · -- The messages are about the keys of the view only.
    have hkept := (hslot key hview).trans (hslot' key hview).symm
    simp only [slot, Slot.mk.injEq, decide_eq_decide] at hkept
    obtain ⟨-, hprepares, -, -, hprepared, hcommits, -, -, hcommitted⟩ := hkept
    exact ⟨hprepared, hcommitted, congrArg _ hprepares, hcommits⟩

/-- A replica starts without votes. -/
theorem untouched_init (maxFaulty : ℕ) (i : ℤ) (p : Parameters) (key : MessageKey) :
    (init maxFaulty i p).Untouched key :=
  ⟨rfl, nofun, Finset.notMem_empty key, List.not_mem_nil, rfl, nofun, Finset.notMem_empty key,
    List.not_mem_nil⟩

end Runs

section Example

/-- Replica 1 of four replicas, in view 0. -/
def replicaOne : PBFTReplica := init 1 1 ⟨0, none, false⟩

/-- A message of view 0 about the request `stop`. -/
def stopMessage (messageType : ℕ) (sender : ℤ) : PBFTMessage :=
  ⟨messageType, sender, -1, 0, 1, "stop", "stop", true⟩

/-- The messages in the order of the phases. -/
def inOrder : List Message :=
  [.prePrepare (stopMessage 1 0), .prepare (stopMessage 2 2), .prepare (stopMessage 2 3),
    .commit (stopMessage 3 0), .commit (stopMessage 3 3)]

/-- The COMMITs overtake everything, and some messages arrive twice. -/
def shuffled : List Message :=
  [.commit (stopMessage 3 3), .prepare (stopMessage 2 3), .commit (stopMessage 3 0),
    .prePrepare (stopMessage 1 0), .commit (stopMessage 3 3), .prepare (stopMessage 2 2),
    .prePrepare (stopMessage 1 0)]

theorem sameRecords_shuffled :
    (0, 1) ∈ (inOrder.foldl (receive 1 fun id _ => id) replicaOne).committedInstances ∧
      ∀ key, SameRecords key (inOrder.foldl (receive 1 fun id _ => id) replicaOne)
        (shuffled.foldl (receive 1 fun id _ => id) replicaOne) := by
  have hone : Unambiguous inOrder :=
    ⟨by decide, by unfold OneVote; decide, by unfold OneVote; decide⟩
  have hcons : Consistent 1 (fun id _ => id) replicaOne inOrder := ⟨hone, by decide⟩
  have hms : ∀ x, x ∈ inOrder ↔ x ∈ shuffled := by
    intro x
    simp only [inOrder, shuffled, List.mem_cons, List.not_mem_nil, or_false]
    tauto
  exact ⟨by decide +kernel,
    sameRecords_of_sameMessages (fun key _ => untouched_init 1 1 ⟨0, none, false⟩ key) hcons hms⟩

end Example

end PBFTReplica

end RosPbft
end DistributedConsensus
