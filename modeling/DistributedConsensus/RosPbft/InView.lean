import DistributedConsensus.RosPbft.Cluster

/-!
# Emergency-stop PBFT: agreement inside a view

A correct replica never replaces an instance and sends at most one COMMIT for a
key, for the instance that it has there.  Every counted COMMIT of a correct
replica is such a vote.  Two commit quorums for one key share a correct replica,
so that they are for one request.

A primary numbers requests with a counter.  Its number is fresh because all its
instances of the current view come from the counter, or from the NEW-VIEW that
began the view and moved the counter past it.
-/

namespace DistributedConsensus
namespace RosPbft

open Foundations

variable {D : Deployment}

namespace PBFTReplica

variable {K K' : ℤ → MessageKey → PBFTInstance → Prop} {e : Option Message}
  {A : MessageKey → PBFTInstance → Prop} {L : MessageKey → Prop} {C : PBFTMessage → Prop}
  {rs rs' rs'' : PBFTReplica}

/-- The replica has decided to send its COMMIT for the instance. -/
def HasVoted (rs : PBFTReplica) (key : MessageKey) (content : PBFTInstance) : Prop :=
  key ∈ rs.commitSent ∧ rs.instances.get? key = some content

instance (rs : PBFTReplica) (key : MessageKey) (content : PBFTInstance) :
    Decidable (rs.HasVoted key content) :=
  inferInstanceAs (Decidable (_ ∧ _))

/-- The replica has committed the request under the key. -/
def Committed (rs : PBFTReplica) (key : MessageKey) (content : PBFTInstance) : Prop :=
  key ∈ rs.committedInstances ∧ rs.instances.get? key = some content

instance (rs : PBFTReplica) (key : MessageKey) (content : PBFTInstance) :
    Decidable (rs.Committed key content) :=
  inferInstanceAs (Decidable (_ ∧ _))

section Progress

/-- What a replica has published, adopted and voted for stays, and its view does
not decrease. -/
structure Grows (rs rs' : PBFTReplica) : Prop where
  nodeId : rs'.nodeId = rs.nodeId
  currentView : rs.currentView ≤ rs'.currentView
  instances : ∀ key content, rs.instances.get? key = some content →
    rs'.instances.get? key = some content
  commitSent : rs.commitSent ⊆ rs'.commitSent
  committedInstances : rs.committedInstances ⊆ rs'.committedInstances
  viewChangeSent : rs.viewChangeSent ⊆ rs'.viewChangeSent
  sent : rs.sent ⊆ rs'.sent

theorem Grows.refl (rs : PBFTReplica) : Grows rs rs :=
  ⟨rfl, le_refl _, fun _ _ h => h, subset_rfl, List.Subset.refl _, subset_rfl, List.Subset.refl _⟩

theorem Grows.trans
    (h : Grows rs rs')
    (h' : Grows rs' rs'') :
    Grows rs rs'' where
  nodeId := h'.nodeId.trans h.nodeId
  currentView := h.currentView.trans h'.currentView
  instances := fun key content hget => h'.instances key content (h.instances key content hget)
  commitSent := h.commitSent.trans h'.commitSent
  committedInstances := List.Subset.trans h.committedInstances h'.committedInstances
  viewChangeSent := h.viewChangeSent.trans h'.viewChangeSent
  sent := List.Subset.trans h.sent h'.sent

theorem HasVoted.mono
    {key : MessageKey} {content : PBFTInstance}
    (hgrows : Grows rs rs')
    (h : rs.HasVoted key content) :
    rs'.HasVoted key content :=
  ⟨hgrows.commitSent h.1, hgrows.instances _ _ h.2⟩

/-- Storing under a free key, or the same instance again. -/
theorem get?_set_of_free
    {key key' : MessageKey} {content content' : PBFTInstance}
    (hfree : ∀ existing, rs.instances.get? key = some existing → existing = content)
    (h : rs.instances.get? key' = some content') :
    (rs.instances.set key content).get? key' = some content' := by
  rw [Dict.get?_set]
  split
  case isTrue heq =>
    subst heq
    rw [hfree content' h]
  case isFalse => exact h

end Progress

section Votes

/-- The sender is a replica that has voted for the instance, according to `K` or
as the replica itself. -/
def Voted (D : Deployment) (K : ℤ → MessageKey → PBFTInstance → Prop) (rs : PBFTReplica) (j : ℤ)
    (key : MessageKey) (content : PBFTInstance) : Prop :=
  validSender D.f j = true ∧ (K j key content ∨ j = rs.nodeId ∧ rs.HasVoted key content)

theorem Voted.mono
    {j : ℤ} {key : MessageKey} {content : PBFTInstance}
    (hgrows : Grows rs rs')
    (h : rs.Voted D K j key content) :
    rs'.Voted D K j key content :=
  ⟨h.1, h.2.imp_right fun ⟨hj, hvoted⟩ => ⟨hj.trans hgrows.nodeId.symm, hvoted.mono hgrows⟩⟩

theorem Voted.imp
    {j : ℤ} {key : MessageKey} {content : PBFTInstance}
    (hK : K j key content → K' j key content)
    (h : rs.Voted D K j key content) :
    rs.Voted D K' j key content :=
  ⟨h.1, h.2.imp_left hK⟩

/-- The invariant of a correct replica.  `K` tells which replicas have voted. -/
structure Orderly (D : Deployment) (K : ℤ → MessageKey → PBFTInstance → Prop) (rs : PBFTReplica) :
    Prop where
  primary : rs.primaryId = primaryForView D.f rs.currentView
  views : ∀ key content, rs.instances.get? key = some content → key.1 ≤ rs.currentView
  fresh : rs.nodeId = rs.primaryId → ∀ key content, rs.instances.get? key = some content →
    key.1 = rs.currentView → key.2 < rs.nextSequenceNumber
  commits : ∀ m, .commit m ∈ rs.sent → rs.HasVoted m.key m.content
  prePrepares : ∀ m, .prePrepare m ∈ rs.sent → rs.instances.get? m.key = some m.content
  voted : ∀ key ∈ rs.commitSent, ∃ content, rs.instances.get? key = some content
  pending : ∀ m ∈ rs.pendingCommits, rs.Voted D K m.senderId m.key m.content
  senders : ∀ key, ∀ j ∈ rs.commitSenders.getD key ∅, ∃ content,
    rs.instances.get? key = some content ∧ rs.Voted D K j key content
  quorum : ∀ key ∈ rs.committedInstances,
    commitThreshold D.f ≤ (rs.commitSenders.getD key ∅).card

theorem orderly_init (i : ℤ) (parameters : Parameters) :
    Orderly D K (init D.f i parameters) where
  primary := rfl
  views := fun _ _ h => absurd h (by simp [init, Dict.get?, Dict.empty])
  fresh := fun _ _ _ h => absurd h (by simp [init, Dict.get?, Dict.empty])
  commits := fun _ h => absurd h List.not_mem_nil
  prePrepares := fun _ h => absurd h List.not_mem_nil
  voted := fun _ h => absurd h (Finset.notMem_empty _)
  pending := fun _ h => absurd h List.not_mem_nil
  senders := fun key j h => absurd h (by simp [init])
  quorum := fun _ h => absurd h List.not_mem_nil

theorem Orderly.imp
    (hK : ∀ j key content, K j key content → K' j key content)
    (h : rs.Orderly D K) :
    rs.Orderly D K' :=
  { h with
    pending := fun m hm => (h.pending m hm).imp (hK _ _ _)
    senders := fun key j hj => by
      obtain ⟨content, hget, hvoted⟩ := h.senders key j hj
      exact ⟨content, hget, hvoted.imp (hK _ _ _)⟩ }

end Votes

section Effects

/-- The counter of a primary gives a fresh number. -/
theorem Orderly.free
    (h : rs.Orderly D K)
    (hprimary : rs.nodeId = rs.primaryId) :
    rs.instances.get? (rs.currentView, rs.nextSequenceNumber) = none := by
  cases hget : rs.instances.get? (rs.currentView, rs.nextSequenceNumber) with
  | none => rfl
  | some content => exact absurd (h.fresh hprimary _ _ hget rfl) (lt_irrefl _)

theorem Acts.grows
    (hact : Acts D.f D.digestOf e A L C rs rs')
    (h : rs.Orderly D K) :
    Grows rs rs' := by
  have hfree : ∀ key content, rs.instances.get? key = none → ∀ existing : PBFTInstance,
      rs.instances.get? key = some existing → existing = content := by
    intro key content hnone existing hexisting
    rw [hnone] at hexisting
    cases hexisting
  cases hact with
  | quiet hq =>
      refine ⟨hq.nodeId, hq.currentView.ge, ?_, hq.commitSent.ge, ?_, hq.viewChangeSent, ?_⟩
      · rw [hq.instances]
        exact fun _ _ hget => hget
      · rw [hq.committedInstances]
        exact List.Subset.refl _
      · rw [hq.sent]
        exact List.Subset.refl _
  | cache | buffer | count | refuse => exact { Grows.refl rs with }
  | assign hprimary =>
      exact { Grows.refl rs with
        instances := fun _ _ => get?_set_of_free (hfree _ _ (h.free hprimary))
        sent := List.subset_append_left _ _ }
  | store _ _ _ hnone =>
      exact { Grows.refl rs with
        instances := fun _ _ => get?_set_of_free (hfree _ _ hnone) }
  | recover | prepare | sendCommit | suspect | lead =>
      exact { Grows.refl rs with sent := List.subset_append_left _ _ }
  | vote => exact { Grows.refl rs with commitSent := Finset.subset_insert _ _ }
  | commit => exact { Grows.refl rs with committedInstances := List.subset_append_left _ _ }
  | install _ hvalid _ hsame =>
      exact { Grows.refl rs with
        currentView := (validateNewViewMessage_eq_some.mp hvalid).1.le
        instances := fun _ _ => get?_set_of_free hsame }

/-- A message that is new after an effect. -/
theorem Acts.new_message
    {m : PBFTMessage}
    (hact : Acts D.f D.digestOf e A L C rs rs') :
    (.commit m ∈ rs'.sent → .commit m ∈ rs.sent ∨ rs'.HasVoted m.key m.content) ∧
      (.prePrepare m ∈ rs'.sent → .prePrepare m ∈ rs.sent ∨
        rs'.instances.get? m.key = some m.content) := by
  cases hact with
  | quiet hq =>
      rw [hq.sent]
      exact ⟨Or.inl, Or.inl⟩
  | assign =>
      refine ⟨fun hm => Or.inl ?_, fun hm => ?_⟩
      · simpa [publish] using hm
      · rcases List.mem_append.mp hm with hm | hm
        · exact Or.inl hm
        · obtain rfl := Message.prePrepare.inj (List.mem_singleton.mp hm)
          right
          change (rs.instances.set _ _).get? _ = _
          rw [Dict.get?_set]
          exact if_pos rfl
  | recover _ hget =>
      refine ⟨fun hm => Or.inl ?_, fun hm => ?_⟩
      · simpa [publish] using hm
      · rcases List.mem_append.mp hm with hm | hm
        · exact Or.inl hm
        · obtain rfl := Message.prePrepare.inj (List.mem_singleton.mp hm)
          exact Or.inr hget
  | sendCommit _ hget hsent =>
      refine ⟨fun hm => ?_, fun hm => Or.inl ?_⟩
      · rcases List.mem_append.mp hm with hm | hm
        · exact Or.inl hm
        · obtain rfl := Message.commit.inj (List.mem_singleton.mp hm)
          exact Or.inr ⟨hsent, hget⟩
      · simpa [publish] using hm
  | prepare | suspect | lead =>
      exact ⟨fun hm => Or.inl (by simpa [publish] using hm),
        fun hm => Or.inl (by simpa [publish] using hm)⟩
  | _ => exact ⟨Or.inl, Or.inl⟩

/-- A vote that is new after an effect. -/
theorem Acts.new_vote
    {key : MessageKey}
    (hact : Acts D.f D.digestOf e A L C rs rs')
    (h : key ∈ rs'.commitSent) :
    key ∈ rs.commitSent ∨ L key ∧ ∃ content, rs.instances.get? key = some content := by
  cases hact with
  | quiet hq =>
      rw [hq.commitSent] at h
      exact Or.inl h
  | vote hget _ hL =>
      rcases Finset.mem_insert.mp h with rfl | h
      · exact Or.inr ⟨hL, _, hget⟩
      · exact Or.inl h
  | _ => exact Or.inl h

/-- A counted sender that is new after an effect. -/
theorem Acts.new_sender
    {key : MessageKey} {j : ℤ}
    (hact : Acts D.f D.digestOf e A L C rs rs')
    (h : j ∈ rs'.commitSenders.getD key ∅) :
    j ∈ rs.commitSenders.getD key ∅ ∨ ∃ m, m.senderId = j ∧ m.key = key ∧
      (C m ∨ m.senderId = rs.nodeId ∧ m.key ∈ rs.commitSent) ∧
      rs.instances.get? m.key = some m.content := by
  cases hact with
  | quiet hq =>
      rw [hq.commitSenders] at h
      exact Or.inl h
  | count hm hget =>
      change j ∈ (rs.commitSenders.set _ _).getD key ∅ at h
      rw [Dict.getD_set] at h
      split at h
      case isTrue heq =>
        subst heq
        rcases Finset.mem_insert.mp h with rfl | h
        · exact Or.inr ⟨_, rfl, rfl, hm, hget⟩
        · exact Or.inl h
      case isFalse => exact Or.inl h
  | _ => exact Or.inl h

/-- Counted senders stay. -/
theorem Acts.senders_subset
    (hact : Acts D.f D.digestOf e A L C rs rs') (key : MessageKey) :
    rs.commitSenders.getD key ∅ ⊆ rs'.commitSenders.getD key ∅ := by
  cases hact with
  | quiet hq => rw [hq.commitSenders]
  | count =>
      change _ ⊆ (rs.commitSenders.set _ _).getD key ∅
      rw [Dict.getD_set]
      split
      case isTrue heq =>
        subst heq
        exact Finset.subset_insert _ _
      case isFalse => exact subset_rfl
  | _ => exact subset_rfl

/-- A waiting COMMIT that is new after an effect. -/
theorem Acts.new_pending
    {m : PBFTMessage}
    (hact : Acts D.f D.digestOf e A L C rs rs')
    (h : m ∈ rs'.pendingCommits) :
    m ∈ rs.pendingCommits ∨ C m := by
  cases hact with
  | quiet hq => exact Or.inl (hq.pendingCommits m h)
  | buffer hm =>
      rcases List.mem_append.mp h with h | h
      · exact Or.inl h
      · rw [List.mem_singleton.mp h]
        exact Or.inr hm
  | install => exact Or.inl (List.mem_of_mem_filter h)
  | _ => exact Or.inl h

/-- A committed key that is new after an effect. -/
theorem Acts.new_commit
    {key : MessageKey}
    (hact : Acts D.f D.digestOf e A L C rs rs')
    (h : key ∈ rs'.committedInstances) :
    key ∈ rs.committedInstances ∨
      commitThreshold D.f ≤ (rs'.commitSenders.getD key ∅).card := by
  cases hact with
  | quiet hq =>
      rw [hq.committedInstances] at h
      exact Or.inl h
  | commit hquorum =>
      rcases List.mem_append.mp h with h | h
      · exact Or.inl h
      · rw [List.mem_singleton.mp h]
        exact Or.inr hquorum
  | _ => exact Or.inl h

/-- An instance that is new after an effect. -/
theorem Acts.new_instance
    {key : MessageKey} {content : PBFTInstance}
    (hact : Acts D.f D.digestOf e A L C rs rs')
    (h : rs'.instances.get? key = some content) :
    rs.instances.get? key = some content ∨ A key content ∧ key.1 = rs'.currentView := by
  have hset : ∀ key' content', A key' content' → key'.1 = rs'.currentView →
      (rs.instances.set key' content').get? key = some content →
      rs.instances.get? key = some content ∨ A key content ∧ key.1 = rs'.currentView := by
    intro key' content' hA hview hget
    rw [Dict.get?_set] at hget
    split at hget
    case isTrue heq =>
      subst heq
      obtain rfl := Option.some.inj hget
      exact Or.inr ⟨hA, hview⟩
    case isFalse => exact Or.inl hget
  cases hact with
  | quiet hq =>
      rw [hq.instances] at h
      exact Or.inl h
  | assign _ hA => exact hset _ _ hA rfl h
  | store _ _ hview _ hA => exact hset _ _ hA hview h
  | install _ _ hA => exact hset _ _ hA rfl h
  | _ => exact Or.inl h

/-- The counter stays ahead of the instances of a primary. -/
theorem Acts.fresh
    (hown : ∀ m, e = some (.prePrepare m) → m.senderId = rs.nodeId →
      rs.instances.get? m.key = some m.content)
    (hact : Acts D.f D.digestOf e A L C rs rs')
    (h : rs.Orderly D K)
    (hprimary : rs'.nodeId = rs'.primaryId)
    {key : MessageKey} {content : PBFTInstance}
    (hget : rs'.instances.get? key = some content)
    (hview : key.1 = rs'.currentView) :
    key.2 < rs'.nextSequenceNumber := by
  cases hact with
  | quiet hq =>
      rw [hq.nodeId, hq.primaryId] at hprimary
      rw [hq.instances] at hget
      rw [hq.currentView] at hview
      rw [hq.nextSequenceNumber]
      exact h.fresh hprimary key content hget hview
  | assign =>
      change (rs.instances.set _ _).get? key = _ at hget
      change key.2 < rs.nextSequenceNumber + 1
      rw [Dict.get?_set] at hget
      split at hget
      case isTrue heq =>
        rw [heq]
        exact Nat.lt_succ_self _
      case isFalse => exact Nat.lt_succ_of_lt (h.fresh hprimary key content hget hview)
  | store he hsender _ hnone =>
      -- A primary has the instances of its own PRE-PREPAREs.
      have hsome := hown _ he (hsender.trans hprimary.symm)
      rw [hnone] at hsome
      cases hsome
  | @install m _ _ _ hvalid =>
      change (rs.instances.set _ _).get? key = _ at hget
      rw [Dict.get?_set] at hget
      split at hget
      case isTrue heq =>
        rw [heq]
        exact lt_max_of_lt_right (Nat.lt_succ_self _)
      case isFalse =>
        have hle := h.views key content hget
        have hlt := (validateNewViewMessage_eq_some.mp hvalid).1
        change key.1 = m.newView at hview
        omega
  | _ => exact h.fresh hprimary key content hget hview

/-- One effect of a callback. -/
theorem Orderly.acts
    (hown : ∀ m, e = some (.prePrepare m) → m.senderId = rs.nodeId →
      rs.instances.get? m.key = some m.content)
    (hC : ∀ m, C m → validSender D.f m.senderId = true ∧ K m.senderId m.key m.content)
    (hnode : validSender D.f rs.nodeId = true)
    (hact : Acts D.f D.digestOf e A L C rs rs')
    (h : rs.Orderly D K) :
    rs'.Orderly D K := by
  have hgrows := hact.grows h
  constructor
  · cases hact with
    | quiet hq =>
        rw [hq.primaryId, hq.currentView]
        exact h.primary
    | install => rfl
    | _ => exact h.primary
  · intro key content hget
    rcases hact.new_instance hget with hold | ⟨-, hview⟩
    · exact (h.views key content hold).trans hgrows.currentView
    · exact hview.le
  · exact fun hprimary key content hget hview => hact.fresh hown h hprimary hget hview
  · intro m hm
    rcases hact.new_message.1 hm with hold | hnew
    · exact (h.commits m hold).mono hgrows
    · exact hnew
  · intro m hm
    rcases hact.new_message.2 hm with hold | hnew
    · exact hgrows.instances _ _ (h.prePrepares m hold)
    · exact hnew
  · intro key hkey
    have hsome : ∃ content, rs.instances.get? key = some content := by
      rcases hact.new_vote hkey with hold | ⟨-, hnew⟩
      · exact h.voted key hold
      · exact hnew
    obtain ⟨content, hget⟩ := hsome
    exact ⟨content, hgrows.instances _ _ hget⟩
  · intro m hm
    rcases hact.new_pending hm with hold | hnew
    · exact (h.pending m hold).mono hgrows
    · exact ⟨(hC m hnew).1, Or.inl (hC m hnew).2⟩
  · intro key j hj
    rcases hact.new_sender hj with hold | ⟨m, rfl, rfl, hevidence, hget⟩
    · obtain ⟨content, hget, hvoted⟩ := h.senders key j hold
      exact ⟨content, hgrows.instances _ _ hget, hvoted.mono hgrows⟩
    · refine ⟨m.content, hgrows.instances _ _ hget, Voted.mono hgrows ?_⟩
      rcases hevidence with hm | ⟨hself, hsent⟩
      · exact ⟨(hC m hm).1, Or.inl (hC m hm).2⟩
      · exact ⟨by rw [hself]; exact hnode, Or.inr ⟨hself, hsent, hget⟩⟩
  · intro key hkey
    rcases hact.new_commit hkey with hold | hnew
    · exact (h.quorum key hold).trans (Finset.card_le_card (hact.senders_subset key))
    · exact hnew

/-- A callback keeps the invariant. -/
theorem Orderly.runs
    (hown : ∀ m, e = some (.prePrepare m) → m.senderId = rs.nodeId →
      rs.instances.get? m.key = some m.content)
    (hC : ∀ m, C m → validSender D.f m.senderId = true ∧ K m.senderId m.key m.content)
    (hnode : validSender D.f rs.nodeId = true)
    (hruns : Runs D.f D.digestOf e A L C rs rs')
    (h : rs.Orderly D K) :
    Grows rs rs' ∧ rs'.Orderly D K := by
  induction hruns with
  | refl => exact ⟨Grows.refl _, h⟩
  | tail _ hact ih =>
      obtain ⟨hgrows, horderly⟩ := ih
      refine ⟨hgrows.trans (hact.grows horderly), horderly.acts ?_ hC ?_ hact⟩
      · intro m he hself
        rw [hgrows.nodeId] at hself
        exact hgrows.instances _ _ (hown m he hself)
      · rw [hgrows.nodeId]
        exact hnode

end Effects

end PBFTReplica

namespace Cluster

variable {w w' : Cluster} {i j : ℤ} {e : Event} {ok : Cluster → ℤ × Event → Prop}

/-- The votes that a COMMIT may stand for: everything for a faulty replica. -/
def votes (D : Deployment) (w : Cluster) (j : ℤ) (key : MessageKey) (content : PBFTInstance) :
    Prop :=
  D.IsCorrect j → (w j).HasVoted key content

/-- The invariant of a replica in a cluster. -/
structure Orderly (D : Deployment) (w : Cluster) (i : ℤ) : Prop where
  nodeId : (w i).nodeId = i
  orderly : (w i).Orderly D (w.votes D)

theorem votes_mono
    {key : MessageKey} {content : PBFTInstance}
    (hext : Nodes.Extends PBFTReplica.Grows w w')
    (h : w.votes D j key content) :
    w'.votes D j key content :=
  fun hj => (h hj).mono (hext j)

/-- The COMMITs that a replica may count in a step. -/
def Countable (D : Deployment) (w : Cluster) (m : PBFTMessage) : Prop :=
  PBFTReplica.validSender D.f m.senderId = true ∧ w.votes D m.senderId m.key m.content

/-- What a replica counts in a step stands for a vote. -/
theorem countable_of_genuine
    {m : PBFTMessage}
    (hw : ∀ j, w.Orderly D j)
    (hgenuine : w.Genuine D (.commit m))
    (hvalid : PBFTReplica.validSender D.f m.senderId = true) :
    w.Countable D m :=
  ⟨hvalid, fun hj => (hw _).orderly.commits m (hgenuine hj)⟩

/-- The waiting COMMITs of a replica may be counted. -/
theorem waiting
    (h : w.Orderly D i) :
    PBFTReplica.Waiting (w.Countable D) (w i) := by
  intro m hm
  obtain ⟨hvalid, hvoted⟩ := h.orderly.pending m hm
  refine ⟨hvalid, ?_⟩
  rcases hvoted with hvoted | ⟨hself, hvoted⟩
  · exact hvoted
  · intro _
    rw [h.nodeId] at hself
    rw [hself]
    exact hvoted

/-- The effects of an event at a replica, with the instances that it may adopt
and the keys that it may vote for. -/
theorem handle_runs
    {A : MessageKey → PBFTInstance → Prop} {L : MessageKey → Prop}
    (hw : ∀ j, w.Orderly D j)
    (henabled : w.Enabled D i e)
    (hA : ∀ m ∈ e.message, ∀ key content,
      (w i).adopts D.f D.digestOf m = some (key, content) → A key content)
    (hL : ∀ p, e.message = some (.prePrepare p) ∨ e.message = some (.prepare p) →
      p.view = (w i).currentView → p.key ∉ (w i).commitSent → L p.key) :
    PBFTReplica.Runs D.f D.digestOf e.message A L (w.Countable D) (w i) ((w i).handle D e) := by
  refine PBFTReplica.handle_runs hA (waiting (hw i)) hL ?_
  intro p hp hvalid
  cases e with
  | deliver m =>
      obtain rfl := Option.some.inj hp
      exact countable_of_genuine hw henabled.2 hvalid
  | progressTimeout | manualViewChange | recovery => cases hp

/-- A replica has the instance of a PRE-PREPARE that it receives from itself. -/
theorem own_prePrepare
    {m : PBFTMessage}
    (hi : w.Orderly D i)
    (henabled : w.Enabled D i e)
    (hm : e.message = some (.prePrepare m))
    (hself : m.senderId = (w i).nodeId) :
    (w i).instances.get? m.key = some m.content := by
  rw [hi.nodeId] at hself
  cases e with
  | deliver p =>
      obtain rfl := Option.some.inj hm
      have hpublished := henabled.2
      change D.IsCorrect m.senderId → Message.prePrepare m ∈ (w m.senderId).sent at hpublished
      rw [hself] at hpublished
      exact hi.orderly.prePrepares m (hpublished henabled.1)
  | progressTimeout | manualViewChange | recovery => cases hm

theorem validSender_nodeId
    (hi : w.Orderly D i)
    (henabled : w.Enabled D i e) :
    PBFTReplica.validSender D.f (w i).nodeId = true := by
  rw [hi.nodeId, PBFTReplica.validSender, decide_eq_true_iff]
  exact (Enabled.isCorrect henabled).1

/-- An event keeps the invariant of its replica. -/
theorem handle_orderly
    (hw : ∀ j, w.Orderly D j)
    (henabled : w.Enabled D i e) :
    PBFTReplica.Grows (w i) ((w i).handle D e) ∧ ((w i).handle D e).Orderly D (w.votes D) :=
  PBFTReplica.Orderly.runs (fun _ => own_prePrepare (hw i) henabled) (fun _ hm => hm)
    (validSender_nodeId (hw i) henabled)
    (handle_runs (A := fun _ _ => True) (L := fun _ => True) hw henabled
      (fun _ _ _ _ _ => trivial) (fun _ _ _ _ => trivial))
    (hw i).orderly

theorem reachable_orderly
    (h : (cluster D).Reachable ok w) :
    ∀ i, w.Orderly D i := by
  refine Nodes.reachable_invariant (N := nodes D) (R := PBFTReplica.Grows)
    (I := fun w i => Cluster.Orderly D w i) PBFTReplica.Grows.refl ?_ ?_ ?_ h
  · exact fun i => ⟨rfl, PBFTReplica.orderly_init i _⟩
  · intro w i e _ hw _ henabled
    obtain ⟨hgrows, horderly⟩ := handle_orderly hw henabled
    refine ⟨hgrows, fun hext => ⟨?_, ?_⟩⟩
    · rw [Function.update_self]
      exact hgrows.nodeId.trans (hw i).nodeId
    · rw [Function.update_self]
      exact horderly.imp fun j key content => votes_mono hext
  · intro w w' i hext hsame hi
    refine ⟨?_, ?_⟩
    · rw [hsame]
      exact hi.nodeId
    · rw [hsame]
      exact hi.orderly.imp fun j key content => votes_mono hext

/-- The quorum behind a committed request: replicas that have voted for it. -/
theorem exists_quorum
    (hi : w.Orderly D i)
    {key : MessageKey} {content : PBFTInstance}
    (h : (w i).Committed key content) :
    ∃ Q : Finset ℤ, PBFTReplica.commitThreshold D.f ≤ Q.card ∧
      (∀ j ∈ Q, PBFTReplica.validSender D.f j = true) ∧
      ∀ j ∈ Q, D.IsCorrect j → (w j).HasVoted key content := by
  refine ⟨(w i).commitSenders.getD key ∅, hi.orderly.quorum key h.1, ?_, ?_⟩
  · intro j hj
    obtain ⟨-, -, hvalid, -⟩ := hi.orderly.senders key j hj
    exact hvalid
  · intro j hj hcorrect
    obtain ⟨content', hget, -, hvoted⟩ := hi.orderly.senders key j hj
    rw [h.2] at hget
    obtain rfl := Option.some.inj hget
    rcases hvoted with hvoted | ⟨hself, hvoted⟩
    · exact hvoted hcorrect
    · rw [hi.nodeId] at hself
      rw [hself]
      exact hvoted

/-- Agreement inside a view: no two correct replicas commit different requests
under one key. -/
theorem committed_agree
    (hreach : (cluster D).Reachable ok w)
    {p q : ℤ} {key : MessageKey} {content content' : PBFTInstance}
    (hp : (w p).Committed key content)
    (hq : (w q).Committed key content') :
    content = content' := by
  have hw := reachable_orderly hreach
  obtain ⟨A, hcardA, hvalidA, hvotesA⟩ := exists_quorum (hw p) hp
  obtain ⟨B, hcardB, hvalidB, hvotesB⟩ := exists_quorum (hw q) hq
  obtain ⟨j, hjA, hjB, hj⟩ := D.exists_correct_inter hvalidA hvalidB hcardA hcardB
  have hget := (hvotesA j hjA hj).2
  rw [(hvotesB j hjB hj).2] at hget
  exact (Option.some.inj hget).symm

section Runs

def digestOf (requestId : String) (_ : Bool) : String := "#" ++ requestId

def requestA : PBFTInstance := ⟨"A", "#A", true⟩

def requestB : PBFTInstance := ⟨"B", "#B", true⟩

/-- A message to all replicas. -/
def broadcast (messageType : ℕ) (senderId : ℤ) (view sequenceNumber : ℕ) (content : PBFTInstance) :
    PBFTMessage :=
  ⟨messageType, senderId, -1, view, sequenceNumber, content.requestId, content.requestDigest,
    content.emergencyStop⟩

def prePrepareBy (j : ℤ) (view sequenceNumber : ℕ) (content : PBFTInstance) : Event :=
  .deliver (.prePrepare (broadcast PBFTMessage.prePrepare j view sequenceNumber content))

def prepareBy (j : ℤ) (view sequenceNumber : ℕ) (content : PBFTInstance) : Event :=
  .deliver (.prepare (broadcast PBFTMessage.prepare j view sequenceNumber content))

def commitBy (j : ℤ) (view sequenceNumber : ℕ) (content : PBFTInstance) : Event :=
  .deliver (.commit (broadcast PBFTMessage.commit j view sequenceNumber content))

/-- Four replicas with timers, of which the primary of view 0 is faulty. -/
def faultyPrimary : Deployment where
  f := 1
  faulty := {0}
  digestOf := digestOf
  parameters := fun _ => ⟨0, none, true⟩
  faulty_le := by decide

/-- The primary proposes A to replicas 1 and 2 and B to replica 3; its COMMIT for
A completes a quorum. -/
theorem committed_agree_faultyPrimary :
    ∃ w, (cluster faultyPrimary).Reachable System.anyStep w ∧
      (w 1).Committed (0, 1) requestA ∧ (w 2).Committed (0, 1) requestA ∧
        (w 3).instances.get? (0, 1) = some requestB ∧ requestA = requestA := by
  obtain ⟨w, hreach, h1, h2, h3⟩ : ∃ w, (cluster faultyPrimary).Reachable System.anyStep w ∧
      (w 1).Committed (0, 1) requestA ∧ (w 2).Committed (0, 1) requestA ∧
      (w 3).instances.get? (0, 1) = some requestB := by
    refine System.exists_reaches_of_exec
      [(1, prePrepareBy 0 0 1 requestA), (2, prePrepareBy 0 0 1 requestA),
        (3, prePrepareBy 0 0 1 requestB), (2, prepareBy 1 0 1 requestA),
        (1, commitBy 0 0 1 requestA), (1, commitBy 2 0 1 requestA), (1, prepareBy 2 0 1 requestA),
        (2, commitBy 1 0 1 requestA), (2, commitBy 0 0 1 requestA)] ?_
    decide +kernel
  exact ⟨w, hreach, h1, h2, h3, committed_agree hreach h1 h2⟩

end Runs

end Cluster

end RosPbft
end DistributedConsensus
