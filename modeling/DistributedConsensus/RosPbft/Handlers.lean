import DistributedConsensus.RosPbft.ViewChange
import Mathlib.Logic.Relation

/-!
# Emergency-stop PBFT: what a callback may do

The callbacks have few effects on the data that safety depends on: a replica
caches a request, adopts an instance, counts a COMMIT, decides to send its own,
commits, and installs a view.  `Acts` lists them with their conditions, and every
callback is a sequence of them.

The conditions refer to the received message `e`, to the instances that may be
adopted (`A`), to the keys that the replica may vote for (`L`) and to the COMMITs
that may be counted (`C`).
-/

namespace DistributedConsensus
namespace RosPbft

open Foundations

namespace PBFTReplica

/-- The request was checked before it was cached. -/
def ValidContent (digestOf : String → Bool → String) (content : PBFTInstance) : Prop :=
  content.requestId ≠ "" ∧ validDigest digestOf content = true ∧ content.emergencyStop = true

/-- The instance that the message makes the replica adopt: as the primary that
numbers a request, as a replica that has none under the key of a PRE-PREPARE, or
in a new view. -/
def adopts (maxFaulty : ℕ) (digestOf : String → Bool → String) (rs : PBFTReplica) :
    Message → Option (MessageKey × PBFTInstance)
  | .request m =>
      if rs.validClientRequest digestOf m = true ∧ rs.nodeId = rs.primaryId ∧
          m.requestId ∉ rs.processedRequestIds then
        some ((rs.currentView, rs.nextSequenceNumber), m.content)
      else none
  | .prePrepare m =>
      if rs.validPrePrepare digestOf m = true ∧ rs.instances.contains m.key = false then
        some (m.key, m.content)
      else none
  | .newView m =>
      (rs.validateNewViewMessage maxFaulty digestOf m).map fun p => ((m.newView, p.2), p.1)
  | _ => none

/-- Nothing that safety depends on has changed. -/
structure Quiet (rs rs' : PBFTReplica) : Prop where
  nodeId : rs'.nodeId = rs.nodeId
  currentView : rs'.currentView = rs.currentView
  primaryId : rs'.primaryId = rs.primaryId
  nextSequenceNumber : rs'.nextSequenceNumber = rs.nextSequenceNumber
  cachedClientRequests : rs'.cachedClientRequests = rs.cachedClientRequests
  instances : rs'.instances = rs.instances
  commitSenders : rs'.commitSenders = rs.commitSenders
  pendingCommits : ∀ m ∈ rs'.pendingCommits, m ∈ rs.pendingCommits
  commitSent : rs'.commitSent = rs.commitSent
  committedInstances : rs'.committedInstances = rs.committedInstances
  viewChangeSent : rs.viewChangeSent ⊆ rs'.viewChangeSent
  acceptedNewViewPayloads : rs'.acceptedNewViewPayloads = rs.acceptedNewViewPayloads
  sent : rs'.sent = rs.sent

/-- The effects of a callback. -/
inductive Acts (maxFaulty : ℕ) (digestOf : String → Bool → String) (e : Option Message)
    (A : MessageKey → PBFTInstance → Prop) (L : MessageKey → Prop) (C : PBFTMessage → Prop)
    (rs : PBFTReplica) : PBFTReplica → Prop
  | quiet {rs' : PBFTReplica} : Quiet rs rs' → Acts maxFaulty digestOf e A L C rs rs'
  | cache {content : PBFTInstance} : ValidContent digestOf content →
      Acts maxFaulty digestOf e A L C rs { rs with
        cachedClientRequests := rs.cachedClientRequests.set content.requestId content }
  | assign {content : PBFTInstance} : rs.nodeId = rs.primaryId →
      A (rs.currentView, rs.nextSequenceNumber) content →
      Acts maxFaulty digestOf e A L C rs ({ rs with
        nextSequenceNumber := rs.nextSequenceNumber + 1
        instances := rs.instances.set (rs.currentView, rs.nextSequenceNumber) content }.publish
          (.prePrepare (rs.outgoing PBFTMessage.prePrepare
            (rs.currentView, rs.nextSequenceNumber) content)))
  | store {m : PBFTMessage} : e = some (.prePrepare m) → m.senderId = rs.primaryId →
      m.view = rs.currentView → rs.instances.get? m.key = none → A m.key m.content →
      Acts maxFaulty digestOf e A L C rs { rs with
        instances := rs.instances.set m.key m.content }
  | recover {m : PBFTMessage} : m.senderId = rs.nodeId →
      rs.instances.get? m.key = some m.content →
      Acts maxFaulty digestOf e A L C rs (rs.publish (.prePrepare m))
  | prepare {m : PBFTMessage} : m.senderId = rs.nodeId →
      Acts maxFaulty digestOf e A L C rs (rs.publish (.prepare m))
  | buffer {m : PBFTMessage} : C m →
      Acts maxFaulty digestOf e A L C rs { rs with pendingCommits := rs.pendingCommits ++ [m] }
  | count {m : PBFTMessage} : C m ∨ m.senderId = rs.nodeId ∧ m.key ∈ rs.commitSent →
      rs.instances.get? m.key = some m.content →
      Acts maxFaulty digestOf e A L C rs { rs with
        commitSenders := rs.commitSenders.set m.key
          (insert m.senderId (rs.commitSenders.getD m.key ∅)) }
  | vote {key : MessageKey} {content : PBFTInstance} : rs.instances.get? key = some content →
      key ∉ rs.commitSent → L key →
      Acts maxFaulty digestOf e A L C rs { rs with commitSent := insert key rs.commitSent }
  | sendCommit {m : PBFTMessage} : m.senderId = rs.nodeId →
      rs.instances.get? m.key = some m.content → m.key ∈ rs.commitSent →
      Acts maxFaulty digestOf e A L C rs (rs.publish (.commit m))
  | commit {key : MessageKey} :
      commitThreshold maxFaulty ≤ (rs.commitSenders.getD key ∅).card →
      Acts maxFaulty digestOf e A L C rs { rs with
        committedInstances := rs.committedInstances ++ [key] }
  | suspect {m : ViewChange} : m.senderId = rs.nodeId →
      Acts maxFaulty digestOf e A L C rs (rs.publish (.viewChange m))
  | lead {newView : ℕ} {proof : List ViewChange} {m : NewView} :
      rs.buildNewViewMessage maxFaulty digestOf newView proof = some m →
      Acts maxFaulty digestOf e A L C rs
        ({ rs with newViewSent := insert newView rs.newViewSent }.publish (.newView m))
  | install {m : NewView} {content : PBFTInstance} {sequenceNumber : ℕ} :
      e = some (.newView m) →
      rs.validateNewViewMessage maxFaulty digestOf m = some (content, sequenceNumber) →
      A (m.newView, sequenceNumber) content →
      (∀ existing, rs.instances.get? (m.newView, sequenceNumber) = some existing →
        existing = content) →
      Acts maxFaulty digestOf e A L C rs
        ({ rs with acceptedNewViewPayloads := rs.acceptedNewViewPayloads ++ [m] }.installView
          maxFaulty m.newView content sequenceNumber)
  | refuse {m : NewView} {content : PBFTInstance} {sequenceNumber : ℕ} :
      rs.validateNewViewMessage maxFaulty digestOf m = some (content, sequenceNumber) →
      ((∃ existing, rs.instances.get? (m.newView, sequenceNumber) = some existing ∧
          existing ≠ content) ∨
        ∃ existing, rs.cachedClientRequests.get? content.requestId = some existing ∧
          existing ≠ content) →
      Acts maxFaulty digestOf e A L C rs { rs with
        acceptedNewViewPayloads := rs.acceptedNewViewPayloads ++ [m] }

/-- A sequence of effects. -/
abbrev Runs (maxFaulty : ℕ) (digestOf : String → Bool → String) (e : Option Message)
    (A : MessageKey → PBFTInstance → Prop) (L : MessageKey → Prop) (C : PBFTMessage → Prop) :
    PBFTReplica → PBFTReplica → Prop :=
  Relation.ReflTransGen (Acts maxFaulty digestOf e A L C)

variable {maxFaulty : ℕ} {digestOf : String → Bool → String} {e : Option Message}
  {A : MessageKey → PBFTInstance → Prop} {L : MessageKey → Prop} {C : PBFTMessage → Prop}
  {rs rs' : PBFTReplica}

theorem Quiet.refl (rs : PBFTReplica) : Quiet rs rs :=
  ⟨rfl, rfl, rfl, rfl, rfl, rfl, rfl, fun _ h => h, rfl, rfl, subset_rfl, rfl, rfl⟩

theorem quiet_runs (h : Quiet rs rs') : Runs maxFaulty digestOf e A L C rs rs' :=
  Relation.ReflTransGen.single (Acts.quiet h)

section Frames

/-- The COMMITs that wait may be counted. -/
def Waiting (C : PBFTMessage → Prop) (rs : PBFTReplica) : Prop := ∀ m ∈ rs.pendingCommits, C m

theorem Acts.waiting
    (hact : Acts maxFaulty digestOf e A L C rs rs')
    (h : Waiting C rs) :
    Waiting C rs' := by
  cases hact with
  | quiet hq => exact fun m hm => h m (hq.pendingCommits m hm)
  | buffer hm =>
      intro p hp
      rcases List.mem_append.mp hp with hp | hp
      · exact h p hp
      · rw [List.mem_singleton.mp hp]
        exact hm
  | install => exact fun m hm => h m (List.mem_of_mem_filter hm)
  | _ => exact h

theorem Runs.waiting
    (hruns : Runs maxFaulty digestOf e A L C rs rs')
    (h : Waiting C rs) :
    Waiting C rs' := by
  induction hruns with
  | refl => exact h
  | tail _ hact ih => exact hact.waiting ih

theorem Acts.commitSent
    (hact : Acts maxFaulty digestOf e A L C rs rs') :
    rs.commitSent ⊆ rs'.commitSent := by
  cases hact with
  | quiet hq => exact hq.commitSent.ge
  | vote => exact Finset.subset_insert _ _
  | _ => exact subset_rfl

theorem Runs.commitSent
    (hruns : Runs maxFaulty digestOf e A L C rs rs') :
    rs.commitSent ⊆ rs'.commitSent := by
  induction hruns with
  | refl => exact subset_rfl
  | tail _ hact ih => exact ih.trans hact.commitSent

theorem Acts.nodeId
    (hact : Acts maxFaulty digestOf e A L C rs rs') :
    rs'.nodeId = rs.nodeId := by
  cases hact with
  | quiet hq => exact hq.nodeId
  | _ => rfl

theorem Runs.nodeId
    (hruns : Runs maxFaulty digestOf e A L C rs rs') :
    rs'.nodeId = rs.nodeId := by
  induction hruns with
  | refl => rfl
  | tail _ hact ih => exact hact.nodeId.trans ih

theorem armProgressTimeout_quiet (rs : PBFTReplica) (requestId : String) :
    Quiet rs (rs.armProgressTimeout requestId) := by
  unfold armProgressTimeout
  split
  case isTrue => exact Quiet.refl rs
  case isFalse =>
    split
    case isTrue => exact Quiet.refl rs
    case isFalse => exact ⟨rfl, rfl, rfl, rfl, rfl, rfl, rfl, fun _ h => h, rfl, rfl, subset_rfl,
      rfl, rfl⟩

theorem armProgressTimeout_processed (rs : PBFTReplica) (requestId : String) :
    (rs.armProgressTimeout requestId).processedRequestIds = rs.processedRequestIds := by
  unfold armProgressTimeout
  repeat' split
  all_goals rfl

/-- A callback that touches only the data of the PREPARE phase and the timers. -/
theorem quiet_of_eq
    (h : rs' = { rs with
      currentKey := rs'.currentKey
      processedRequestIds := rs'.processedRequestIds
      prepareSenders := rs'.prepareSenders
      pendingPrepares := rs'.pendingPrepares
      prepareSent := rs'.prepareSent
      preparedInstances := rs'.preparedInstances
      viewChangeMessages := rs'.viewChangeMessages
      recoveryPrePrepareSent := rs'.recoveryPrePrepareSent
      recoveryPrePrepareTimers := rs'.recoveryPrePrepareTimers
      manualViewChangeTimer := rs'.manualViewChangeTimer
      progressTimeout := rs'.progressTimeout
      emergencyStop := rs'.emergencyStop }) :
    Quiet rs rs' := by
  rw [h]
  exact ⟨rfl, rfl, rfl, rfl, rfl, rfl, rfl, fun _ h => h, rfl, rfl, subset_rfl, rfl, rfl⟩

end Frames

section Commits

theorem evaluateCommitted_runs (key : MessageKey) (rs : PBFTReplica) :
    Runs maxFaulty digestOf e A L C rs (rs.evaluateCommitted maxFaulty key) := by
  unfold evaluateCommitted
  split
  case isTrue => exact Relation.ReflTransGen.refl
  case isFalse =>
    split
    case isTrue => exact Relation.ReflTransGen.refl
    case isFalse =>
      split
      case isTrue => exact Relation.ReflTransGen.refl
      case isFalse hquorum =>
        split
        case h_1 => exact Relation.ReflTransGen.refl
        case h_2 =>
          exact Relation.ReflTransGen.head (Acts.commit (not_lt.mp hquorum))
            (quiet_runs (quiet_of_eq rfl))

theorem bufferEarlyCommit_runs
    {m : PBFTMessage}
    (hm : C m) :
    Runs maxFaulty digestOf e A L C rs (rs.bufferEarlyCommit m) := by
  unfold bufferEarlyCommit
  split
  case isTrue => exact Relation.ReflTransGen.refl
  case isFalse =>
    exact Relation.ReflTransGen.head (Acts.buffer hm) (quiet_runs (quiet_of_eq rfl))

theorem acceptCommit_runs
    {m : PBFTMessage}
    (hm : C m ∨ m.senderId = rs.nodeId ∧ m.key ∈ rs.commitSent ∧ m.key ∈ rs.preparedInstances) :
    Runs maxFaulty digestOf e A L C rs (rs.acceptCommit maxFaulty m) := by
  unfold acceptCommit
  split
  case h_1 => exact Relation.ReflTransGen.refl
  case h_2 content hget =>
    split
    case isTrue => exact Relation.ReflTransGen.refl
    case isFalse hsame =>
      rw [not_not] at hsame
      split
      case isTrue hopen =>
        exact bufferEarlyCommit_runs (hm.resolve_right fun h => hopen h.2.2)
      case isFalse =>
        split
        case isTrue => exact Relation.ReflTransGen.refl
        case isFalse =>
          refine Relation.ReflTransGen.head (Acts.count (hm.imp_right fun h => ⟨h.1, h.2.1⟩) ?_)
            (Relation.ReflTransGen.trans (quiet_runs (quiet_of_eq rfl))
              (evaluateCommitted_runs _ _))
          rw [hsame]
          exact hget

theorem foldl_acceptCommit_runs
    {pending : List PBFTMessage}
    (hpending : ∀ m ∈ pending, C m) :
    Runs maxFaulty digestOf e A L C rs
      (pending.foldl (fun rs m => rs.acceptCommit maxFaulty m) rs) := by
  induction pending generalizing rs with
  | nil => exact Relation.ReflTransGen.refl
  | cons m pending ih =>
      rw [List.foldl_cons]
      exact Relation.ReflTransGen.trans (acceptCommit_runs (Or.inl (hpending m (by simp))))
        (ih fun p hp => hpending p (List.mem_cons_of_mem _ hp))

theorem processPendingCommits_runs
    (key : MessageKey)
    (hwaiting : Waiting C rs) :
    Runs maxFaulty digestOf e A L C rs (rs.processPendingCommits maxFaulty key) := by
  unfold processPendingCommits
  split
  case isTrue => exact Relation.ReflTransGen.refl
  case isFalse =>
    refine Relation.ReflTransGen.head (Acts.quiet ?_)
      (foldl_acceptCommit_runs fun m hm => hwaiting m (List.mem_of_mem_filter hm))
    exact ⟨rfl, rfl, rfl, rfl, rfl, rfl, rfl, fun m hm => List.mem_of_mem_filter hm, rfl, rfl,
      subset_rfl, rfl, rfl⟩

/-- The instances and the own votes stay. -/
structure SameVotes (rs rs' : PBFTReplica) : Prop where
  nodeId : rs'.nodeId = rs.nodeId
  instances : rs'.instances = rs.instances
  commitSent : rs'.commitSent = rs.commitSent

theorem evaluateCommitted_sameVotes (maxFaulty : ℕ) (rs : PBFTReplica) (key : MessageKey) :
    SameVotes rs (rs.evaluateCommitted maxFaulty key) := by
  unfold evaluateCommitted
  repeat' split
  all_goals exact ⟨rfl, rfl, rfl⟩

theorem bufferEarlyCommit_sameVotes (m : PBFTMessage) :
    SameVotes rs (rs.bufferEarlyCommit m) := by
  unfold bufferEarlyCommit
  split <;> exact ⟨rfl, rfl, rfl⟩

theorem acceptCommit_sameVotes (m : PBFTMessage) :
    SameVotes rs (rs.acceptCommit maxFaulty m) := by
  unfold acceptCommit
  split
  case h_1 => exact ⟨rfl, rfl, rfl⟩
  case h_2 =>
    split
    case isTrue => exact ⟨rfl, rfl, rfl⟩
    case isFalse =>
      split
      case isTrue => exact bufferEarlyCommit_sameVotes m
      case isFalse =>
        split
        case isTrue => exact ⟨rfl, rfl, rfl⟩
        case isFalse =>
          obtain ⟨hnode, hinstances, hsent⟩ := evaluateCommitted_sameVotes maxFaulty
            { rs with
              commitSenders := rs.commitSenders.set m.key
                (insert m.senderId (rs.commitSenders.getD m.key ∅))
              currentKey := some m.key } m.key
          exact ⟨hnode, hinstances, hsent⟩

theorem sendCommit_runs
    {key : MessageKey}
    (hL : key ∉ rs.commitSent → L key) :
    Runs maxFaulty digestOf e A L C rs (rs.sendCommit maxFaulty key) := by
  unfold sendCommit
  split
  case isTrue => exact Relation.ReflTransGen.refl
  case isFalse hfresh =>
    split
    case isTrue => exact Relation.ReflTransGen.refl
    case isFalse hprepared =>
      rw [not_not] at hprepared
      split
      case h_1 => exact Relation.ReflTransGen.refl
      case h_2 content hget =>
        have hown : key ∈ insert key rs.commitSent := Finset.mem_insert_self key rs.commitSent
        -- The own COMMIT is counted before it is published.
        have hcount : Runs maxFaulty digestOf e A L C
            { rs with commitSent := insert key rs.commitSent }
            ({ rs with commitSent := insert key rs.commitSent }.acceptCommit maxFaulty
              (rs.outgoing PBFTMessage.commit key content)) :=
          acceptCommit_runs (m := rs.outgoing PBFTMessage.commit key content)
            (Or.inr ⟨rfl, hown, hprepared⟩)
        obtain ⟨hnode, hinstances, hsent⟩ : SameVotes
            { rs with commitSent := insert key rs.commitSent }
            ({ rs with commitSent := insert key rs.commitSent }.acceptCommit maxFaulty
              (rs.outgoing PBFTMessage.commit key content)) :=
          acceptCommit_sameVotes _
        refine Relation.ReflTransGen.head (Acts.vote hget hfresh (hL hfresh))
          (Relation.ReflTransGen.tail hcount (Acts.sendCommit hnode.symm ?_ ?_))
        · rw [hinstances]
          exact hget
        · rw [hsent]
          exact hown

end Commits

section Prepares

theorem evaluatePrepared_runs
    {key : MessageKey}
    (hwaiting : Waiting C rs)
    (hL : key ∉ rs.commitSent → L key) :
    Runs maxFaulty digestOf e A L C rs (rs.evaluatePrepared maxFaulty key) := by
  unfold evaluatePrepared
  split
  case isTrue => exact Relation.ReflTransGen.refl
  case isFalse =>
    split
    case isTrue => exact Relation.ReflTransGen.refl
    case isFalse =>
      split
      case h_1 => exact Relation.ReflTransGen.refl
      case h_2 content _ =>
        -- The key becomes prepared and the timer is armed.
        have hprepared : Runs maxFaulty digestOf e A L C rs ({ rs with
            preparedInstances := rs.preparedInstances ++ [key]
            currentKey := some key }.armProgressTimeout content.requestId) :=
          Relation.ReflTransGen.head (Acts.quiet (quiet_of_eq rfl))
            (quiet_runs (armProgressTimeout_quiet _ _))
        have hcounted : Runs maxFaulty digestOf e A L C rs _ := hprepared.trans
          (processPendingCommits_runs key (hprepared.waiting hwaiting))
        exact hcounted.trans
          (sendCommit_runs fun hfresh => hL fun hsent => hfresh (hcounted.commitSent hsent))

theorem acceptPrepare_runs
    {m : PBFTMessage}
    (hwaiting : Waiting C rs)
    (hL : m.key ∉ rs.commitSent → L m.key) :
    Runs maxFaulty digestOf e A L C rs (rs.acceptPrepare maxFaulty m) := by
  unfold acceptPrepare
  split
  case h_1 => exact Relation.ReflTransGen.refl
  case h_2 =>
    split
    case isTrue => exact Relation.ReflTransGen.refl
    case isFalse =>
      split
      case isTrue => exact Relation.ReflTransGen.refl
      case isFalse =>
        exact Relation.ReflTransGen.head (Acts.quiet (quiet_of_eq rfl))
          (evaluatePrepared_runs hwaiting hL)

theorem foldl_acceptPrepare_runs
    {pending : List PBFTMessage} (key : MessageKey)
    (hkey : ∀ m ∈ pending, m.key = key)
    (hwaiting : Waiting C rs)
    (hL : key ∉ rs.commitSent → L key) :
    Runs maxFaulty digestOf e A L C rs
      (pending.foldl (fun rs m => rs.acceptPrepare maxFaulty m) rs) := by
  induction pending generalizing rs with
  | nil => exact Relation.ReflTransGen.refl
  | cons m pending ih =>
      rw [List.foldl_cons]
      have hhead : Runs maxFaulty digestOf e A L C rs (rs.acceptPrepare maxFaulty m) := by
        refine acceptPrepare_runs hwaiting ?_
        rw [hkey m (by simp)]
        exact hL
      exact hhead.trans (ih (fun p hp => hkey p (List.mem_cons_of_mem _ hp))
        (hhead.waiting hwaiting) fun hfresh => hL fun hsent => hfresh (hhead.commitSent hsent))

theorem processPendingPrepares_runs
    (key : MessageKey)
    (hwaiting : Waiting C rs)
    (hL : key ∉ rs.commitSent → L key) :
    Runs maxFaulty digestOf e A L C rs (rs.processPendingPrepares maxFaulty key) := by
  unfold processPendingPrepares
  refine Relation.ReflTransGen.head (Acts.quiet (quiet_of_eq rfl))
    (foldl_acceptPrepare_runs key ?_ hwaiting hL)
  intro m hm
  exact of_decide_eq_true (List.mem_filter.mp hm).2

theorem sendPrepare_runs
    {key : MessageKey}
    (hwaiting : Waiting C rs)
    (hL : key ∉ rs.commitSent → L key) :
    Runs maxFaulty digestOf e A L C rs (rs.sendPrepare maxFaulty key) := by
  unfold sendPrepare
  split
  case isTrue => exact Relation.ReflTransGen.refl
  case isFalse =>
    split
    case h_1 => exact Relation.ReflTransGen.refl
    case h_2 content _ =>
      have haccept : Runs maxFaulty digestOf e A L C rs
          ({ rs with prepareSent := insert key rs.prepareSent }.acceptPrepare maxFaulty
            (rs.outgoing PBFTMessage.prepare key content)) :=
        Relation.ReflTransGen.head (Acts.quiet (quiet_of_eq rfl))
          (acceptPrepare_runs (m := rs.outgoing PBFTMessage.prepare key content) hwaiting hL)
      exact Relation.ReflTransGen.tail haccept (Acts.prepare haccept.nodeId.symm)

end Prepares

section Callbacks

theorem commitCallback_runs
    {m : PBFTMessage}
    (hC : validSender maxFaulty m.senderId = true → C m) :
    Runs maxFaulty digestOf e A L C rs (rs.commitCallback maxFaulty digestOf m) := by
  unfold commitCallback
  split
  case isTrue => exact Relation.ReflTransGen.refl
  case isFalse hvalid =>
    rw [Bool.not_eq_false, validCommit, decide_eq_true_iff] at hvalid
    have hm := hC hvalid.2.2.2.2.1
    split
    case isTrue => exact bufferEarlyCommit_runs hm
    case isFalse =>
      split
      case isTrue => exact bufferEarlyCommit_runs hm
      case isFalse => exact acceptCommit_runs (Or.inl hm)

theorem prepareCallback_runs
    {m : PBFTMessage}
    (hwaiting : Waiting C rs)
    (hL : m.view = rs.currentView → m.key ∉ rs.commitSent → L m.key) :
    Runs maxFaulty digestOf e A L C rs (rs.prepareCallback maxFaulty digestOf m) := by
  unfold prepareCallback
  split
  case isTrue => exact Relation.ReflTransGen.refl
  case isFalse hvalid =>
    rw [Bool.not_eq_false, validPrepare, decide_eq_true_iff] at hvalid
    split
    case isTrue =>
      unfold bufferEarlyPrepare
      split
      case isTrue => exact Relation.ReflTransGen.refl
      case isFalse => exact quiet_runs (quiet_of_eq rfl)
    case isFalse => exact acceptPrepare_runs hwaiting (hL hvalid.2.2.1)

theorem get?_eq_none_of_contains
    {K V : Type*} [DecidableEq K] {d : Dict K V} {k : K} :
    d.contains k = false ↔ d.get? k = none := by
  unfold Dict.contains
  rw [Option.isSome_eq_false_iff, Option.isNone_iff_eq_none]

theorem prePrepareCallback_runs
    {m : PBFTMessage}
    (he : e = some (.prePrepare m))
    (hA : ∀ key content, rs.adopts maxFaulty digestOf (.prePrepare m) = some (key, content) →
      A key content)
    (hwaiting : Waiting C rs)
    (hL : m.view = rs.currentView → m.key ∉ rs.commitSent → L m.key) :
    Runs maxFaulty digestOf e A L C rs (rs.prePrepareCallback maxFaulty digestOf m) := by
  unfold prePrepareCallback
  split
  case isTrue => exact Relation.ReflTransGen.refl
  case isFalse hvalid =>
    rw [Bool.not_eq_false] at hvalid
    have hchecks := hvalid
    rw [validPrePrepare, decide_eq_true_iff] at hchecks
    obtain ⟨-, hsender, -, hview, -⟩ := hchecks
    -- What follows once the instance is stored.
    have hrest : ∀ rs₁ : PBFTReplica, Runs maxFaulty digestOf e A L C rs rs₁ →
        Runs maxFaulty digestOf e A L C rs
          (let rs₂ := { rs₁ with currentKey := some m.key }.processPendingPrepares maxFaulty m.key
          if rs₂.nodeId ≠ rs₂.primaryId then rs₂.sendPrepare maxFaulty m.key else rs₂) := by
      intro rs₁ h₁
      have hL₁ : m.key ∉ rs₁.commitSent → L m.key :=
        fun hfresh => hL hview fun hsent => hfresh (h₁.commitSent hsent)
      have hkey : Runs maxFaulty digestOf e A L C rs { rs₁ with currentKey := some m.key } :=
        Relation.ReflTransGen.tail h₁ (Acts.quiet (quiet_of_eq rfl))
      have h₂ : Runs maxFaulty digestOf e A L C rs _ := hkey.trans
        (processPendingPrepares_runs m.key (hkey.waiting hwaiting) hL₁)
      dsimp only
      split
      case isTrue =>
        exact h₂.trans (sendPrepare_runs (h₂.waiting hwaiting)
          fun hfresh => hL hview fun hsent => hfresh (h₂.commitSent hsent))
      case isFalse => exact h₂
    unfold storeInstance
    cases hget : rs.instances.get? m.key with
    | some existing =>
        dsimp only
        by_cases hsame : existing ≠ m.content
        · rw [if_pos hsame]
        · rw [if_neg hsame]
          exact hrest rs Relation.ReflTransGen.refl
    | none =>
        have hadopts : A m.key m.content := by
          refine hA _ _ ?_
          rw [adopts, if_pos ⟨hvalid, get?_eq_none_of_contains.mpr hget⟩]
        exact hrest _ (Relation.ReflTransGen.head (Acts.store he hsender hview hget hadopts)
          (quiet_runs (armProgressTimeout_quiet _ _)))

theorem requestCallback_runs
    {m : PBFTMessage}
    (hA : ∀ key content, rs.adopts maxFaulty digestOf (.request m) = some (key, content) →
      A key content) :
    Runs maxFaulty digestOf e A L C rs (rs.requestCallback digestOf m) := by
  -- The primary numbers the request that is now cached.
  have hrest : ∀ rs₁ : PBFTReplica, rs.validClientRequest digestOf m = true →
      rs₁.cachedClientRequests.get? m.requestId = some m.content →
      rs₁.nodeId = rs.nodeId → rs₁.primaryId = rs.primaryId → rs₁.currentView = rs.currentView →
      rs₁.nextSequenceNumber = rs.nextSequenceNumber →
      rs₁.processedRequestIds = rs.processedRequestIds →
      Runs maxFaulty digestOf e A L C rs₁
        (if rs₁.nodeId ≠ rs₁.primaryId then rs₁
        else if m.requestId ∈ rs₁.processedRequestIds then rs₁
        else rs₁.processCachedRequestAsPrimary m.requestId) := by
    intro rs₁ hvalid hcached hnode hprimary hview hnext hprocessed
    split
    case isTrue => exact Relation.ReflTransGen.refl
    case isFalse hself =>
      split
      case isTrue => exact Relation.ReflTransGen.refl
      case isFalse hnew =>
        rw [not_not] at hself
        have hadopts : A (rs₁.currentView, rs₁.nextSequenceNumber) m.content := by
          refine hA _ _ ?_
          rw [hnode, hprimary] at hself
          rw [hprocessed] at hnew
          rw [adopts, if_pos ⟨hvalid, hself, hnew⟩, hview, hnext]
        unfold processCachedRequestAsPrimary
        rw [hcached]
        exact Relation.ReflTransGen.head (Acts.assign hself hadopts)
          (Relation.ReflTransGen.head (Acts.quiet (quiet_of_eq rfl))
            (quiet_runs (armProgressTimeout_quiet _ _)))
  -- A new request arms the timer.
  have harm : ∀ (b : Bool) (rs₁ : PBFTReplica), rs.validClientRequest digestOf m = true →
      rs₁.cachedClientRequests.get? m.requestId = some m.content →
      rs₁.nodeId = rs.nodeId → rs₁.primaryId = rs.primaryId → rs₁.currentView = rs.currentView →
      rs₁.nextSequenceNumber = rs.nextSequenceNumber →
      rs₁.processedRequestIds = rs.processedRequestIds →
      Runs maxFaulty digestOf e A L C rs₁
        (let rs₂ := if b then rs₁ else rs₁.armProgressTimeout m.requestId
        if rs₂.nodeId ≠ rs₂.primaryId then rs₂
        else if m.requestId ∈ rs₂.processedRequestIds then rs₂
        else rs₂.processCachedRequestAsPrimary m.requestId) := by
    intro b rs₁ hvalid hcached hnode hprimary hview hnext hprocessed
    cases b with
    | true => exact hrest rs₁ hvalid hcached hnode hprimary hview hnext hprocessed
    | false =>
        have hquiet := armProgressTimeout_quiet rs₁ m.requestId
        refine Relation.ReflTransGen.head (Acts.quiet hquiet) (hrest _ hvalid ?_
          (hquiet.nodeId.trans hnode) (hquiet.primaryId.trans hprimary)
          (hquiet.currentView.trans hview) (hquiet.nextSequenceNumber.trans hnext)
          ((armProgressTimeout_processed rs₁ m.requestId).trans hprocessed))
        rw [hquiet.cachedClientRequests]
        exact hcached
  unfold requestCallback validateAndCacheClientRequest
  cases hvalid : rs.validClientRequest digestOf m with
  | false => exact Relation.ReflTransGen.refl
  | true =>
      cases hget : rs.cachedClientRequests.get? m.requestId with
      | some existing =>
          dsimp only
          by_cases hsame : existing ≠ m.content
          · rw [if_neg (by simp), if_pos hsame]
          · rw [if_neg (by simp), if_neg hsame]
            rw [not_not] at hsame
            subst hsame
            exact harm _ rs hvalid hget rfl rfl rfl rfl rfl
      | none =>
          have hcontent : ValidContent digestOf m.content := by
            have hchecks := hvalid
            rw [validClientRequest, decide_eq_true_iff] at hchecks
            exact hchecks.2.2.2.2.2
          dsimp only
          rw [if_neg (by simp)]
          refine Relation.ReflTransGen.head (Acts.cache hcontent)
            (harm _ _ hvalid ?_ rfl rfl rfl rfl rfl)
          rw [Dict.get?_set]
          exact if_pos rfl

end Callbacks

section ViewChanges

theorem maybePublishNewView_runs (newView : ℕ) (rs : PBFTReplica) :
    Runs maxFaulty digestOf e A L C rs (rs.maybePublishNewView maxFaulty digestOf newView) := by
  unfold maybePublishNewView
  split
  case isTrue => exact Relation.ReflTransGen.refl
  case isFalse =>
    split
    case isTrue => exact Relation.ReflTransGen.refl
    case isFalse =>
      split
      case isTrue => exact Relation.ReflTransGen.refl
      case isFalse =>
        split
        case isTrue => exact Relation.ReflTransGen.refl
        case isFalse =>
          split
          case h_1 => exact Relation.ReflTransGen.refl
          case h_2 m hbuild => exact Relation.ReflTransGen.single (Acts.lead hbuild)

theorem viewChangeCallback_runs (m : ViewChange) (rs : PBFTReplica) :
    Runs maxFaulty digestOf e A L C rs (rs.viewChangeCallback maxFaulty digestOf m) := by
  unfold viewChangeCallback
  split
  case isTrue => exact Relation.ReflTransGen.refl
  case isFalse =>
    split
    case isTrue => exact Relation.ReflTransGen.refl
    case isFalse =>
      split
      case isTrue => exact Relation.ReflTransGen.refl
      case isFalse =>
        split
        case isTrue => exact Relation.ReflTransGen.refl
        case isFalse =>
          exact Relation.ReflTransGen.head (Acts.quiet (quiet_of_eq rfl))
            (maybePublishNewView_runs _ _)

theorem buildViewChangeMessage_senderId
    {newView : ℕ} {m : ViewChange}
    (h : rs.buildViewChangeMessage maxFaulty newView = some m) :
    m.senderId = rs.nodeId := by
  unfold buildViewChangeMessage at h
  split at h
  case isTrue => cases h
  case isFalse =>
    split at h
    case h_1 =>
      obtain rfl := Option.some.inj h
      rfl
    case h_2 =>
      dsimp only at h
      split at h
      case isTrue => cases h
      case isFalse =>
        obtain rfl := Option.some.inj h
        rfl

theorem initiateViewChange_runs (newView : ℕ) (rs : PBFTReplica) :
    Runs maxFaulty digestOf e A L C rs (rs.initiateViewChange maxFaulty digestOf newView) := by
  unfold initiateViewChange
  split
  case isTrue => exact Relation.ReflTransGen.refl
  case isFalse =>
    split
    case isTrue => exact Relation.ReflTransGen.refl
    case isFalse =>
      split
      case h_1 => exact Relation.ReflTransGen.refl
      case h_2 m hbuild =>
        split
        case isTrue => exact Relation.ReflTransGen.refl
        case isFalse =>
          have hquiet : Quiet rs { rs with viewChangeSent := insert newView rs.viewChangeSent } :=
            ⟨rfl, rfl, rfl, rfl, rfl, rfl, rfl, fun _ h => h, rfl, rfl, Finset.subset_insert _ _,
              rfl, rfl⟩
          have hcall : Runs maxFaulty digestOf e A L C rs _ :=
            (quiet_runs hquiet).trans (viewChangeCallback_runs m _)
          refine Relation.ReflTransGen.tail hcall (Acts.suspect ?_)
          exact (buildViewChangeMessage_senderId hbuild).trans hcall.nodeId.symm

theorem scheduleRecoveryPrePrepare_quiet (key : MessageKey) (rs : PBFTReplica) :
    Quiet rs (rs.scheduleRecoveryPrePrepare key) := by
  unfold scheduleRecoveryPrePrepare
  repeat' split
  all_goals first | exact Quiet.refl _ | exact quiet_of_eq rfl

/-- The checks of a NEW-VIEW that do not refer to the state of the receiver. -/
structure WellFormed (maxFaulty : ℕ) (digestOf : String → Bool → String) (m : NewView) : Prop where
  sender : m.senderId = primaryForView maxFaulty m.newView
  proof : validProof maxFaulty digestOf m.newView m.viewChangeMessages = true
  selected : m.hasSelectedRequest = true
  sequenceNumber : m.selectedSequenceNumber ≠ 0
  content : ValidContent digestOf m.content

/-- The receiver expects the selection of the NEW-VIEW. -/
def Expects (rs : PBFTReplica) (m : NewView) : Prop :=
  ∃ expected, rs.selectRequestForNewView m.viewChangeMessages = some expected ∧
    m.selectedFromPreparedCertificate = expected.fromPreparedCertificate ∧
    m.selectedPreparedView = expected.preparedView ∧ m.content = expected.content ∧
    (expected.fromPreparedCertificate = true →
      m.selectedSequenceNumber = expected.sequenceNumber) ∧
    (expected.fromPreparedCertificate = false → m.selectedPreparedView = 0)

theorem validateNewViewMessage_eq_some
    {m : NewView} {p : PBFTInstance × ℕ} :
    rs.validateNewViewMessage maxFaulty digestOf m = some p ↔
      rs.currentView < m.newView ∧ WellFormed maxFaulty digestOf m ∧ rs.Expects m ∧
        p = (m.content, m.selectedSequenceNumber) := by
  unfold validateNewViewMessage Expects
  simp only [Option.ite_none_left_eq_some, not_le, not_not, Bool.not_eq_false]
  cases hselect : rs.selectRequestForNewView m.viewChangeMessages with
  | none => simp
  | some expected =>
      simp only [Option.ite_none_left_eq_some, not_not, Option.some.injEq, not_and]
      constructor
      · rintro ⟨hview, hsender, hproof, hselected, hid, hseq, hstop, hdigest, hfrom, hprepared,
          hcontent, hsame, hzero, rfl⟩
        exact ⟨hview, ⟨hsender, hproof, hselected, hseq, hid, hdigest, hstop⟩,
          ⟨expected, rfl, hfrom, hprepared, hcontent, hsame, hzero⟩, rfl⟩
      · rintro ⟨hview, ⟨hsender, hproof, hselected, hseq, hid, hdigest, hstop⟩,
          ⟨expected', rfl, hfrom, hprepared, hcontent, hsame, hzero⟩, rfl⟩
        exact ⟨hview, hsender, hproof, hselected, hid, hseq, hstop, hdigest, hfrom, hprepared,
          hcontent, hsame, hzero, rfl⟩

theorem newViewCallback_runs
    {m : NewView}
    (he : e = some (.newView m))
    (hA : ∀ key content, rs.adopts maxFaulty digestOf (.newView m) = some (key, content) →
      A key content) :
    Runs maxFaulty digestOf e A L C rs (rs.newViewCallback maxFaulty digestOf m) := by
  unfold newViewCallback
  split
  case isTrue => exact Relation.ReflTransGen.refl
  case isFalse =>
    split
    case h_1 => exact Relation.ReflTransGen.refl
    case h_2 content sequenceNumber hvalid =>
      dsimp only
      unfold activateNewView
      split
      case isTrue hconflict =>
        refine Relation.ReflTransGen.single (Acts.refuse hvalid (Or.inl ?_))
        simpa [Option.any_eq_true] using hconflict
      case isFalse hinstance =>
        split
        case isTrue hconflict =>
          refine Relation.ReflTransGen.single (Acts.refuse hvalid (Or.inr ?_))
          simpa [Option.any_eq_true] using hconflict
        case isFalse =>
          have hadopts : A (m.newView, sequenceNumber) content := by
            refine hA _ _ ?_
            rw [adopts, hvalid]
            rfl
          have hfree : ∀ existing, rs.instances.get? (m.newView, sequenceNumber) =
              some existing → existing = content := by
            intro existing hexisting
            by_contra hne
            refine hinstance ?_
            change (rs.instances.get? _).any _ = true
            rw [hexisting]
            simpa using hne
          refine Relation.ReflTransGen.head (Acts.install he hvalid hadopts hfree)
            (Relation.ReflTransGen.head
              (Acts.quiet (armProgressTimeout_quiet _ content.requestId)) ?_)
          dsimp only
          split
          case isTrue => exact quiet_runs (scheduleRecoveryPrePrepare_quiet _ _)
          case isFalse => exact Relation.ReflTransGen.refl

theorem publishRecoveryPrePrepare_runs (key : MessageKey) (rs : PBFTReplica) :
    Runs maxFaulty digestOf e A L C rs (rs.publishRecoveryPrePrepare key) := by
  unfold publishRecoveryPrePrepare
  have herase : Runs maxFaulty digestOf e A L C rs { rs with
      recoveryPrePrepareTimers := rs.recoveryPrePrepareTimers.erase key } :=
    quiet_runs (quiet_of_eq rfl)
  dsimp only
  split
  case isTrue => exact herase
  case isFalse =>
    split
    case isTrue => exact herase
    case isFalse =>
      split
      case isTrue => exact herase
      case isFalse =>
        split
        case h_1 => exact herase
        case h_2 content hget =>
          exact Relation.ReflTransGen.head (Acts.recover
              (m := rs.outgoing PBFTMessage.prePrepare key content) rfl hget)
            (Relation.ReflTransGen.head (Acts.quiet (quiet_of_eq rfl))
              (quiet_runs (armProgressTimeout_quiet _ _)))

theorem progressTimeoutCallback_runs (rs : PBFTReplica) :
    Runs maxFaulty digestOf e A L C rs (rs.progressTimeoutCallback maxFaulty digestOf) := by
  unfold progressTimeoutCallback
  split
  case h_1 => exact Relation.ReflTransGen.refl
  case h_2 =>
    have hstop : Runs maxFaulty digestOf e A L C rs { rs with progressTimeout := none } :=
      quiet_runs (quiet_of_eq rfl)
    dsimp only
    split
    case isTrue => exact hstop
    case isFalse =>
      split
      case isTrue => exact hstop
      case isFalse => exact hstop.trans (initiateViewChange_runs _ _)

theorem manualViewChangeTimerCallback_runs (rs : PBFTReplica) :
    Runs maxFaulty digestOf e A L C rs (rs.manualViewChangeTimerCallback maxFaulty digestOf) := by
  unfold manualViewChangeTimerCallback
  have hstop : Runs maxFaulty digestOf e A L C rs { rs with manualViewChangeTimer := false } :=
    quiet_runs (quiet_of_eq rfl)
  dsimp only
  split
  case h_1 => exact hstop
  case h_2 target _ => exact hstop.trans (initiateViewChange_runs _ _)

end ViewChanges

/-- Receiving a message is a sequence of effects. -/
theorem receive_runs
    {m : Message}
    (hA : ∀ key content, rs.adopts maxFaulty digestOf m = some (key, content) → A key content)
    (hwaiting : Waiting C rs)
    (hL : ∀ p, m = .prePrepare p ∨ m = .prepare p → p.view = rs.currentView →
      p.key ∉ rs.commitSent → L p.key)
    (hC : ∀ p, m = .commit p → validSender maxFaulty p.senderId = true → C p) :
    Runs maxFaulty digestOf (some m) A L C rs (rs.receive maxFaulty digestOf m) := by
  cases m with
  | request m => exact requestCallback_runs hA
  | prePrepare m => exact prePrepareCallback_runs rfl hA hwaiting (hL m (Or.inl rfl))
  | prepare m => exact prepareCallback_runs hwaiting (hL m (Or.inr rfl))
  | commit m => exact commitCallback_runs (hC m rfl)
  | viewChange m => exact viewChangeCallback_runs m rs
  | newView m => exact newViewCallback_runs rfl hA

end PBFTReplica

end RosPbft
end DistributedConsensus
