import DistributedConsensus.RosPbft.Handlers

/-!
# Emergency-stop PBFT: the votes under a key

What a replica keeps under a key depends on the messages with this key alone.  While
the key has no instance its PREPAREs wait, and while it is not prepared its COMMITs
wait.  Then they are counted, with the vote of the replica itself.

`Tallied` says what has been counted of which votes.  The callbacks call each other;
each of them counts the votes that it is given, and nothing else.
-/

namespace DistributedConsensus
namespace RosPbft

open Foundations

namespace PBFTReplica

variable {maxFaulty : ℕ} {digestOf : String → Bool → String} {rs rs' rs'' : PBFTReplica}
  {key : MessageKey} {content : PBFTInstance} {m : PBFTMessage}

section Votes

/-- The senders of the messages for the request under the key. -/
def votesFor (key : MessageKey) (content : PBFTInstance) (ms : List PBFTMessage) : Finset ℤ :=
  ((ms.filter fun m => m.key = key ∧ m.content = content).map (·.senderId)).toFinset

variable {ms ms' : List PBFTMessage}

theorem mem_votesFor {sender : ℤ} :
    sender ∈ votesFor key content ms ↔
      ∃ m ∈ ms, m.key = key ∧ m.content = content ∧ m.senderId = sender := by
  simp only [votesFor, List.mem_toFinset, List.mem_map, List.mem_filter, decide_eq_true_eq]
  constructor
  · rintro ⟨m, ⟨hm, hkey, hcontent⟩, hsender⟩
    exact ⟨m, hm, hkey, hcontent, hsender⟩
  · rintro ⟨m, hm, hkey, hcontent, hsender⟩
    exact ⟨m, ⟨hm, hkey, hcontent⟩, hsender⟩

@[simp] theorem votesFor_nil : votesFor key content [] = ∅ := by
  rfl

theorem votesFor_cons (m : PBFTMessage) (ms : List PBFTMessage) :
    votesFor key content (m :: ms) =
      (if m.key = key ∧ m.content = content then {m.senderId} else ∅) ∪
        votesFor key content ms := by
  unfold votesFor
  by_cases hm : m.key = key ∧ m.content = content
  · rw [List.filter_cons_of_pos (by simpa using hm), if_pos hm]
    rw [List.map_cons, List.toFinset_cons, Finset.insert_eq]
  · rw [List.filter_cons_of_neg (by simpa using hm), if_neg hm, Finset.empty_union]

theorem votesFor_append (ms ms' : List PBFTMessage) :
    votesFor key content (ms ++ ms') = votesFor key content ms ∪ votesFor key content ms' := by
  induction ms with
  | nil => simp
  | cons m ms ih => rw [List.cons_append, votesFor_cons, votesFor_cons, ih, Finset.union_assoc]

/-- Only the messages with the key count. -/
theorem votesFor_filter_key (ms : List PBFTMessage) :
    votesFor key content (ms.filter (·.key = key)) = votesFor key content ms := by
  ext sender
  simp only [mem_votesFor, List.mem_filter, decide_eq_true_eq]
  constructor
  · rintro ⟨m, ⟨hm, -⟩, h⟩
    exact ⟨m, hm, h⟩
  · rintro ⟨m, hm, hkey, h⟩
    exact ⟨m, ⟨hm, hkey⟩, hkey, h⟩

theorem votesFor_congr
    (h : ∀ m, m ∈ ms ↔ m ∈ ms') :
    votesFor key content ms = votesFor key content ms' := by
  ext sender
  simp only [mem_votesFor, h]

/-- A sender does not vote for two requests under one key. -/
def OneVote (ms : List PBFTMessage) : Prop :=
  ∀ m ∈ ms, ∀ m' ∈ ms, m.key = m'.key → m.senderId = m'.senderId → m.content = m'.content

theorem OneVote.mono
    (h : OneVote ms)
    (hsub : ms' ⊆ ms) :
    OneVote ms' :=
  fun m hm m' hm' => h m (hsub hm) m' (hsub hm')

/-- A message that does not change a buffer is in it. -/
theorem votesFor_of_buffered
    (hone : OneVote (m :: ms))
    (hsub : ∀ p ∈ ms', p.key = m.key → p ∈ ms)
    (hbuffered : ms'.any (fun p => p.key = m.key ∧ p.senderId = m.senderId) = true) :
    votesFor key content (ms' ++ [m]) = votesFor key content ms' := by
  rw [List.any_eq_true] at hbuffered
  obtain ⟨p, hp, hsame⟩ := hbuffered
  simp only [decide_eq_true_eq] at hsame
  have hcontent : p.content = m.content :=
    hone p (List.mem_cons_of_mem _ (hsub p hp hsame.1)) m List.mem_cons_self hsame.1 hsame.2
  rw [votesFor_append, votesFor_cons, votesFor_nil, Finset.union_empty]
  split
  case isTrue hm =>
    refine Finset.union_eq_left.mpr (Finset.singleton_subset_iff.mpr ?_)
    exact mem_votesFor.mpr ⟨p, hp, hsame.1.trans hm.1, hcontent.trans hm.2, hsame.2⟩
  case isFalse => rw [Finset.union_empty]

end Votes

section Slots

/-- What a replica keeps under a key. -/
structure Slot where
  content : Option PBFTInstance
  prepareSenders : Option (List ℤ)
  pendingPrepares : List PBFTMessage
  prepareSent : Bool
  prepared : Bool
  commitSenders : Option (Finset ℤ)
  pendingCommits : List PBFTMessage
  commitSent : Bool
  committed : Bool

def slot (rs : PBFTReplica) (key : MessageKey) : Slot where
  content := rs.instances.get? key
  prepareSenders := rs.prepareSenders.get? key
  pendingPrepares := rs.pendingPrepares.filter (·.key = key)
  prepareSent := decide (key ∈ rs.prepareSent)
  prepared := decide (key ∈ rs.preparedInstances)
  commitSenders := rs.commitSenders.get? key
  pendingCommits := rs.pendingCommits.filter (·.key = key)
  commitSent := decide (key ∈ rs.commitSent)
  committed := decide (key ∈ rs.committedInstances)

/-- Nothing has changed but under the key. -/
structure Within (key : MessageKey) (rs rs' : PBFTReplica) : Prop where
  nodeId : rs'.nodeId = rs.nodeId
  currentView : rs'.currentView = rs.currentView
  primaryId : rs'.primaryId = rs.primaryId
  others : ∀ k, k ≠ key → rs'.slot k = rs.slot k

theorem Within.refl (key : MessageKey) (rs : PBFTReplica) : Within key rs rs :=
  ⟨rfl, rfl, rfl, fun _ _ => rfl⟩

theorem Within.trans
    (h : Within key rs rs')
    (h' : Within key rs' rs'') :
    Within key rs rs'' :=
  ⟨h'.nodeId.trans h.nodeId, h'.currentView.trans h.currentView, h'.primaryId.trans h.primaryId,
    fun k hk => (h'.others k hk).trans (h.others k hk)⟩

/-- Only the votes under the key have changed. -/
structure VotesWithin (key : MessageKey) (rs rs' : PBFTReplica) : Prop
    extends Within key rs rs' where
  instances : rs'.instances = rs.instances
  pendingPrepares : rs'.pendingPrepares = rs.pendingPrepares
  prepareSent : rs'.prepareSent = rs.prepareSent

theorem VotesWithin.refl (key : MessageKey) (rs : PBFTReplica) : VotesWithin key rs rs :=
  ⟨Within.refl key rs, rfl, rfl, rfl⟩

theorem VotesWithin.trans
    (h : VotesWithin key rs rs')
    (h' : VotesWithin key rs' rs'') :
    VotesWithin key rs rs'' :=
  ⟨h.toWithin.trans h'.toWithin, h'.instances.trans h.instances,
    h'.pendingPrepares.trans h.pendingPrepares, h'.prepareSent.trans h.prepareSent⟩

/-- Only the COMMIT phase of the key has changed. -/
structure CommitsWithin (key : MessageKey) (rs rs' : PBFTReplica) : Prop
    extends VotesWithin key rs rs' where
  prepareSenders : rs'.prepareSenders = rs.prepareSenders
  preparedInstances : rs'.preparedInstances = rs.preparedInstances

theorem CommitsWithin.refl (key : MessageKey) (rs : PBFTReplica) : CommitsWithin key rs rs :=
  ⟨VotesWithin.refl key rs, rfl, rfl⟩

theorem CommitsWithin.trans
    (h : CommitsWithin key rs rs')
    (h' : CommitsWithin key rs' rs'') :
    CommitsWithin key rs rs'' :=
  ⟨h.toVotesWithin.trans h'.toVotesWithin, h'.prepareSenders.trans h.prepareSenders,
    h'.preparedInstances.trans h.preparedInstances⟩

/-- The progress timer does not matter. -/
theorem armProgressTimeout_eq (rs : PBFTReplica) (requestId : String) :
    ∃ timeout, rs.armProgressTimeout requestId = { rs with progressTimeout := timeout } := by
  unfold armProgressTimeout
  split
  · exact ⟨rs.progressTimeout, rfl⟩
  · split
    · exact ⟨rs.progressTimeout, rfl⟩
    · exact ⟨_, rfl⟩

theorem filter_key_append_of_ne
    {k : MessageKey}
    (ms : List PBFTMessage)
    (hk : k ≠ m.key) :
    (ms ++ [m]).filter (·.key = k) = ms.filter (·.key = k) := by
  rw [List.filter_append, List.filter_cons_of_neg (by simpa using hk.symm), List.filter_nil,
    List.append_nil]

theorem filter_key_filter_of_ne
    {k : MessageKey}
    (ms : List PBFTMessage)
    (hk : k ≠ key) :
    (ms.filter (·.key ≠ key)).filter (·.key = k) = ms.filter (·.key = k) := by
  rw [List.filter_filter]
  refine List.filter_congr fun m _ => ?_
  by_cases hm : m.key = k
  · simp [hm, hk]
  · simp [hm]

end Slots

section CommitFrames

theorem evaluateCommitted_within (maxFaulty : ℕ) (key : MessageKey) (rs : PBFTReplica) :
    CommitsWithin key rs (rs.evaluateCommitted maxFaulty key) := by
  unfold evaluateCommitted
  split
  case isTrue => exact CommitsWithin.refl key rs
  case isFalse =>
    split
    case isTrue => exact CommitsWithin.refl key rs
    case isFalse =>
      split
      case isTrue => exact CommitsWithin.refl key rs
      case isFalse =>
        split
        case h_1 => exact CommitsWithin.refl key rs
        case h_2 =>
          refine ⟨⟨⟨rfl, rfl, rfl, fun k hk => ?_⟩, rfl, rfl, rfl⟩, rfl, rfl⟩
          simp [slot, hk]

theorem bufferEarlyCommit_within (m : PBFTMessage) (rs : PBFTReplica) :
    CommitsWithin m.key rs (rs.bufferEarlyCommit m) := by
  unfold bufferEarlyCommit
  split
  case isTrue => exact CommitsWithin.refl m.key rs
  case isFalse =>
    refine ⟨⟨⟨rfl, rfl, rfl, fun k hk => ?_⟩, rfl, rfl, rfl⟩, rfl, rfl⟩
    simp only [slot, filter_key_append_of_ne _ hk]

theorem acceptCommit_within (maxFaulty : ℕ) (m : PBFTMessage) (rs : PBFTReplica) :
    CommitsWithin m.key rs (rs.acceptCommit maxFaulty m) := by
  unfold acceptCommit
  split
  case h_1 => exact CommitsWithin.refl m.key rs
  case h_2 =>
    split
    case isTrue => exact CommitsWithin.refl m.key rs
    case isFalse =>
      split
      case isTrue => exact bufferEarlyCommit_within m rs
      case isFalse =>
        split
        case isTrue => exact CommitsWithin.refl m.key rs
        case isFalse =>
          refine CommitsWithin.trans ?_ (evaluateCommitted_within maxFaulty m.key _)
          refine ⟨⟨⟨rfl, rfl, rfl, fun k hk => ?_⟩, rfl, rfl, rfl⟩, rfl, rfl⟩
          simp only [slot, Dict.get?_set, if_neg hk]

theorem foldl_acceptCommit_within
    (maxFaulty : ℕ) {pending : List PBFTMessage}
    (hpending : ∀ m ∈ pending, m.key = key)
    (rs : PBFTReplica) :
    CommitsWithin key rs (pending.foldl (fun rs m => rs.acceptCommit maxFaulty m) rs) := by
  induction pending generalizing rs with
  | nil => exact CommitsWithin.refl key rs
  | cons m pending ih =>
      rw [List.foldl_cons]
      have hm := acceptCommit_within maxFaulty m rs
      rw [hpending m List.mem_cons_self] at hm
      exact hm.trans (ih (fun p hp => hpending p (List.mem_cons_of_mem _ hp)) _)

theorem processPendingCommits_within (maxFaulty : ℕ) (key : MessageKey) (rs : PBFTReplica) :
    CommitsWithin key rs (rs.processPendingCommits maxFaulty key) := by
  unfold processPendingCommits
  split
  case isTrue => exact CommitsWithin.refl key rs
  case isFalse =>
    refine CommitsWithin.trans ?_ (foldl_acceptCommit_within maxFaulty ?_ _)
    · refine ⟨⟨⟨rfl, rfl, rfl, fun k hk => ?_⟩, rfl, rfl, rfl⟩, rfl, rfl⟩
      simp only [slot, filter_key_filter_of_ne _ hk]
    · intro m hm
      simpa using (List.mem_filter.mp hm).2

theorem sendCommit_within (maxFaulty : ℕ) (key : MessageKey) (rs : PBFTReplica) :
    CommitsWithin key rs (rs.sendCommit maxFaulty key) := by
  unfold sendCommit
  split
  case isTrue => exact CommitsWithin.refl key rs
  case isFalse =>
    split
    case isTrue => exact CommitsWithin.refl key rs
    case isFalse =>
      split
      case h_1 => exact CommitsWithin.refl key rs
      case h_2 content _ =>
        have hsent : CommitsWithin key rs { rs with commitSent := insert key rs.commitSent } := by
          refine ⟨⟨⟨rfl, rfl, rfl, fun k hk => ?_⟩, rfl, rfl, rfl⟩, rfl, rfl⟩
          simp [slot, hk]
        have haccept := hsent.trans
          (acceptCommit_within maxFaulty
            (rs.outgoing PBFTMessage.commit key content) _)
        exact ⟨⟨⟨haccept.nodeId, haccept.currentView, haccept.primaryId, haccept.others⟩,
          haccept.instances, haccept.pendingPrepares, haccept.prepareSent⟩,
          haccept.prepareSenders, haccept.preparedInstances⟩

theorem processPendingCommits_commitSent (maxFaulty : ℕ) (key : MessageKey) (rs : PBFTReplica) :
    (rs.processPendingCommits maxFaulty key).commitSent = rs.commitSent := by
  have hfold : ∀ (pending : List PBFTMessage) (rs : PBFTReplica),
      (pending.foldl (fun rs m => rs.acceptCommit maxFaulty m) rs).commitSent = rs.commitSent := by
    intro pending
    induction pending with
    | nil => exact fun _ => rfl
    | cons m pending ih => exact fun rs => (ih _).trans (acceptCommit_sameVotes m).commitSent
  unfold processPendingCommits
  split
  · rfl
  · exact hfold _ _

end CommitFrames

section CommitPhase

variable {S : Finset ℤ}

/-- The key is prepared, and `S` are the counted senders of COMMITs. -/
structure Closed (maxFaulty : ℕ) (key : MessageKey) (content : PBFTInstance) (S : Finset ℤ)
    (rs : PBFTReplica) : Prop where
  stored : rs.instances.get? key = some content
  prepared : key ∈ rs.preparedInstances
  senders : rs.commitSenders.getD key ∅ = S
  committed : key ∈ rs.committedInstances ↔ commitThreshold maxFaulty ≤ S.card

theorem evaluateCommitted_closed
    (hcontent : rs.instances.get? key = some content)
    (hprepared : key ∈ rs.preparedInstances)
    (hsenders : rs.commitSenders.getD key ∅ = S)
    (hcommitted : key ∈ rs.committedInstances → commitThreshold maxFaulty ≤ S.card) :
    Closed maxFaulty key content S (rs.evaluateCommitted maxFaulty key) := by
  unfold evaluateCommitted
  split
  case isTrue hdone =>
    exact ⟨hcontent, hprepared, hsenders, fun _ => hcommitted hdone, fun _ => hdone⟩
  case isFalse hopen =>
    rw [hsenders, hcontent]
    split
    case isTrue hfew =>
      refine ⟨hcontent, hprepared, hsenders, fun hdone => absurd hdone hopen, fun hle => ?_⟩
      omega
    case isFalse hmany =>
      refine ⟨hcontent, hprepared, hsenders, fun _ => not_lt.mp hmany, fun _ => ?_⟩
      exact List.mem_append_right _ (List.mem_singleton.mpr rfl)

theorem Closed.acceptCommit
    (h : Closed maxFaulty key content S rs)
    (hkey : m.key = key) :
    Closed maxFaulty key content (if m.content = content then insert m.senderId S else S)
      (rs.acceptCommit maxFaulty m) := by
  subst hkey
  unfold PBFTReplica.acceptCommit
  rw [h.stored]
  dsimp only
  by_cases hsame : m.content = content
  · rw [if_neg (not_not.mpr hsame), if_neg (not_not.mpr h.prepared), h.senders, if_pos hsame]
    split
    case isTrue hold =>
      rw [Finset.insert_eq_of_mem hold]
      exact h
    case isFalse =>
      refine evaluateCommitted_closed h.stored h.prepared ?_ fun hdone => ?_
      · rw [Dict.getD_set, if_pos rfl]
      · exact (h.committed.mp hdone).trans (Finset.card_le_card (Finset.subset_insert _ _))
  · rw [if_pos hsame, if_neg hsame]
    exact h

theorem Closed.foldl_acceptCommit
    {pending : List PBFTMessage}
    (h : Closed maxFaulty key content S rs)
    (hpending : ∀ m ∈ pending, m.key = key) :
    Closed maxFaulty key content (S ∪ votesFor key content pending)
      (pending.foldl (fun rs m => rs.acceptCommit maxFaulty m) rs) := by
  induction pending generalizing rs S with
  | nil =>
      rw [votesFor_nil, Finset.union_empty]
      exact h
  | cons m pending ih =>
      have hkey := hpending m List.mem_cons_self
      have hrest := ih (h.acceptCommit hkey) fun p hp => hpending p (List.mem_cons_of_mem _ hp)
      rw [List.foldl_cons, votesFor_cons, ← Finset.union_assoc]
      by_cases hsame : m.content = content
      · rw [if_pos hsame] at hrest
        rw [if_pos ⟨hkey, hsame⟩, Finset.union_comm S, ← Finset.insert_eq]
        exact hrest
      · rw [if_neg hsame] at hrest
        rw [if_neg fun hm => hsame hm.2, Finset.union_empty]
        exact hrest

theorem Closed.processPendingCommits
    (h : Closed maxFaulty key content S rs) :
    Closed maxFaulty key content (S ∪ votesFor key content rs.pendingCommits)
      (rs.processPendingCommits maxFaulty key) := by
  unfold PBFTReplica.processPendingCommits
  rw [if_neg (not_not.mpr h.prepared), ← votesFor_filter_key]
  refine Closed.foldl_acceptCommit ⟨h.stored, h.prepared, h.senders, h.committed⟩ ?_
  intro m hm
  simpa using (List.mem_filter.mp hm).2

theorem Closed.sendCommit
    (h : Closed maxFaulty key content S rs)
    (hsent : key ∉ rs.commitSent) :
    Closed maxFaulty key content (insert rs.nodeId S) (rs.sendCommit maxFaulty key) := by
  unfold PBFTReplica.sendCommit
  rw [if_neg hsent, if_neg (not_not.mpr h.prepared), h.stored]
  have hopen : Closed maxFaulty key content S { rs with commitSent := insert key rs.commitSent } :=
    ⟨h.stored, h.prepared, h.senders, h.committed⟩
  have hown := hopen.acceptCommit (m := rs.outgoing PBFTMessage.commit key content) rfl
  rw [if_pos (show (rs.outgoing PBFTMessage.commit key content).content = content from rfl)] at hown
  exact ⟨hown.stored, hown.prepared, hown.senders, hown.committed⟩

end CommitPhase

section PreparePhase

variable {T : Finset ℤ} {Q : List PBFTMessage}

/-- The COMMITs `Q` have been received and none is counted. -/
structure Waits (key : MessageKey) (Q : List PBFTMessage) (rs : PBFTReplica) : Prop where
  commitSenders : rs.commitSenders.get? key = none
  commitSent : key ∉ rs.commitSent
  committed : key ∉ rs.committedInstances
  pending : ∀ content, votesFor key content rs.pendingCommits = votesFor key content Q
  received : ∀ p ∈ rs.pendingCommits, p.key = key → p ∈ Q

/-- The key has an instance, the counted senders of PREPAREs are `T`, and the COMMITs `Q`
have been received. -/
structure Tallied (maxFaulty : ℕ) (key : MessageKey) (content : PBFTInstance) (T : Finset ℤ)
    (Q : List PBFTMessage) (rs : PBFTReplica) : Prop where
  stored : rs.instances.get? key = some content
  nodup : (rs.prepareSenders.getD key []).Nodup
  senders : (rs.prepareSenders.getD key []).toFinset = T
  entry : rs.prepareSenders.get? key ≠ some []
  reached : key ∈ rs.preparedInstances → T.Nonempty ∧ prepareThreshold maxFaulty ≤ T.card
  waits : key ∉ rs.preparedInstances → Waits key Q rs
  closed : key ∈ rs.preparedInstances →
    Closed maxFaulty key content (insert rs.nodeId (votesFor key content Q)) rs

/-- The quorum of PREPAREs has been noticed. -/
structure Counting (maxFaulty : ℕ) (key : MessageKey) (content : PBFTInstance) (T : Finset ℤ)
    (Q : List PBFTMessage) (rs : PBFTReplica) : Prop
    extends Tallied maxFaulty key content T Q rs where
  noticed : T.Nonempty → prepareThreshold maxFaulty ≤ T.card → key ∈ rs.preparedInstances

/-- The votes under the key are the same. -/
structure SameTally (key : MessageKey) (rs rs' : PBFTReplica) : Prop where
  nodeId : rs'.nodeId = rs.nodeId
  stored : rs'.instances.get? key = rs.instances.get? key
  prepareSenders : rs'.prepareSenders.get? key = rs.prepareSenders.get? key
  prepared : key ∈ rs'.preparedInstances ↔ key ∈ rs.preparedInstances
  commitSenders : rs'.commitSenders.get? key = rs.commitSenders.get? key
  pendingCommits : rs'.pendingCommits.filter (·.key = key) = rs.pendingCommits.filter (·.key = key)
  commitSent : key ∈ rs'.commitSent ↔ key ∈ rs.commitSent
  committed : key ∈ rs'.committedInstances ↔ key ∈ rs.committedInstances

theorem SameTally.of_slot
    (hnode : rs'.nodeId = rs.nodeId)
    (h : rs'.slot key = rs.slot key) :
    SameTally key rs rs' := by
  simp only [slot, Slot.mk.injEq, decide_eq_decide] at h
  obtain ⟨hstored, hprepares, -, -, hprepared, hcommits, hpending, hsent, hcommitted⟩ := h
  exact ⟨hnode, hstored, hprepares, hprepared, hcommits, hpending, hsent, hcommitted⟩

theorem Waits.congr
    (h : Waits key Q rs)
    (hsame : SameTally key rs rs') :
    Waits key Q rs' := by
  constructor
  · rw [hsame.commitSenders]
    exact h.commitSenders
  · rw [hsame.commitSent]
    exact h.commitSent
  · rw [hsame.committed]
    exact h.committed
  · intro content
    rw [← votesFor_filter_key, hsame.pendingCommits, votesFor_filter_key]
    exact h.pending content
  · intro p hp hkey
    have hmem : p ∈ rs'.pendingCommits.filter (·.key = key) :=
      List.mem_filter.mpr ⟨hp, by simpa using hkey⟩
    rw [hsame.pendingCommits] at hmem
    exact h.received p (List.mem_of_mem_filter hmem) hkey

theorem Closed.congr {S : Finset ℤ}
    (h : Closed maxFaulty key content S rs)
    (hsame : SameTally key rs rs') :
    Closed maxFaulty key content S rs' := by
  refine ⟨hsame.stored.trans h.stored, hsame.prepared.mpr h.prepared, ?_,
    hsame.committed.trans h.committed⟩
  rw [Dict.getD, hsame.commitSenders]
  exact h.senders

theorem Tallied.congr
    (h : Tallied maxFaulty key content T Q rs)
    (hsame : SameTally key rs rs') :
    Tallied maxFaulty key content T Q rs' := by
  have hget : rs'.prepareSenders.getD key [] = rs.prepareSenders.getD key [] := by
    rw [Dict.getD, hsame.prepareSenders]
    rfl
  constructor
  · exact hsame.stored.trans h.stored
  · rw [hget]
    exact h.nodup
  · rw [hget]
    exact h.senders
  · rw [hsame.prepareSenders]
    exact h.entry
  · exact fun hprepared => h.reached (hsame.prepared.mp hprepared)
  · exact fun hopen => (h.waits fun hprepared => hopen (hsame.prepared.mpr hprepared)).congr hsame
  · intro hprepared
    rw [hsame.nodeId]
    exact (h.closed (hsame.prepared.mp hprepared)).congr hsame

theorem Counting.congr
    (h : Counting maxFaulty key content T Q rs)
    (hsame : SameTally key rs rs') :
    Counting maxFaulty key content T Q rs' :=
  ⟨h.toTallied.congr hsame, fun hT hmany => hsame.prepared.mpr (h.noticed hT hmany)⟩

theorem Tallied.length_senders
    (h : Tallied maxFaulty key content T Q rs) :
    (rs.prepareSenders.getD key []).length = T.card := by
  rw [← h.senders, List.toFinset_card_of_nodup h.nodup]

theorem Tallied.evaluatePrepared
    (h : Tallied maxFaulty key content T Q rs)
    (hT : T.Nonempty) :
    Counting maxFaulty key content T Q (rs.evaluatePrepared maxFaulty key) := by
  unfold PBFTReplica.evaluatePrepared
  split
  case isTrue hprepared => exact ⟨h, fun _ _ => hprepared⟩
  case isFalse hopen =>
    rw [h.length_senders]
    split
    case isTrue hfew => exact ⟨h, fun _ hmany => absurd hmany (not_le.mpr hfew)⟩
    case isFalse hmany =>
      rw [h.stored]
      dsimp only
      -- The COMMITs that waited are counted, and then the own one.
      have hwaits := h.waits hopen
      obtain ⟨timeout, harm⟩ := armProgressTimeout_eq { rs with
        preparedInstances := rs.preparedInstances ++ [key]
        currentKey := some key } content.requestId
      rw [harm]
      set rs₁ : PBFTReplica := { rs with
        preparedInstances := rs.preparedInstances ++ [key]
        currentKey := some key
        progressTimeout := timeout } with hrs₁
      have hmem : key ∈ rs₁.preparedInstances :=
        List.mem_append_right _ (List.mem_singleton.mpr rfl)
      have hclosed : Closed maxFaulty key content ∅ rs₁ := by
        refine ⟨h.stored, hmem, ?_, fun hdone => absurd hdone hwaits.committed, fun hle => ?_⟩
        · change (rs.commitSenders.get? key).getD ∅ = ∅
          rw [hwaits.commitSenders]
          rfl
        · rw [Finset.card_empty] at hle
          exact absurd hle (by unfold commitThreshold; omega)
      have hframe := processPendingCommits_within maxFaulty key rs₁
      have hall := hclosed.processPendingCommits
      rw [Finset.empty_union, show rs₁.pendingCommits = rs.pendingCommits from rfl,
        hwaits.pending] at hall
      have hown := hall.sendCommit (by
        rw [processPendingCommits_commitSent]
        exact hwaits.commitSent)
      have hboth := hframe.trans (sendCommit_within maxFaulty key _)
      have hkept : ((rs₁.processPendingCommits maxFaulty key).sendCommit maxFaulty key).prepareSenders
          = rs.prepareSenders := hboth.prepareSenders
      have hdone := hown.prepared
      rw [hframe.nodeId] at hown
      refine ⟨⟨hown.stored, ?_, ?_, ?_, fun _ => ⟨hT, not_lt.mp hmany⟩,
        fun hnot => absurd hdone hnot, fun _ => ?_⟩, fun _ _ => hdone⟩
      · rw [hkept]
        exact h.nodup
      · rw [hkept]
        exact h.senders
      · rw [hkept]
        exact h.entry
      · rw [hboth.nodeId]
        exact hown

theorem Counting.acceptPrepare
    (h : Counting maxFaulty key content T Q rs)
    (hkey : m.key = key) :
    Counting maxFaulty key content (if m.content = content then insert m.senderId T else T) Q
      (rs.acceptPrepare maxFaulty m) := by
  subst hkey
  unfold PBFTReplica.acceptPrepare
  rw [h.stored]
  dsimp only
  by_cases hsame : m.content = content
  · rw [if_neg (not_not.mpr hsame), if_pos hsame]
    have hmem : m.senderId ∈ rs.prepareSenders.getD m.key [] ↔ m.senderId ∈ T := by
      rw [← h.senders, List.mem_toFinset]
    split
    case isTrue hold =>
      rw [Finset.insert_eq_of_mem (hmem.mp hold)]
      exact h
    case isFalse hnew =>
      refine Tallied.evaluatePrepared ?_ (Finset.insert_nonempty _ _)
      have hset : ∀ x, (rs.prepareSenders.set m.key x).getD m.key [] = x := by
        intro x
        rw [Dict.getD_set, if_pos rfl]
      constructor
      · exact h.stored
      · rw [hset, List.nodup_append]
        refine ⟨h.nodup, List.nodup_singleton _, ?_⟩
        rintro x hx _ hy rfl
        rw [List.mem_singleton.mp hy] at hx
        exact hnew hx
      · rw [hset, List.toFinset_append, h.senders, Finset.union_comm]
        rfl
      · rw [Dict.get?_set, if_pos rfl]
        simp
      · intro hprepared
        obtain ⟨-, hmany⟩ := h.reached hprepared
        exact ⟨Finset.insert_nonempty _ _,
          hmany.trans (Finset.card_le_card (Finset.subset_insert _ _))⟩
      · intro hopen
        have hwaits := h.waits hopen
        exact ⟨hwaits.commitSenders, hwaits.commitSent, hwaits.committed, hwaits.pending,
          hwaits.received⟩
      · intro hprepared
        have hclosed := h.closed hprepared
        exact ⟨hclosed.stored, hclosed.prepared, hclosed.senders, hclosed.committed⟩
  · rw [if_pos hsame, if_neg hsame]
    exact h

theorem Counting.foldl_acceptPrepare
    {pending : List PBFTMessage}
    (h : Counting maxFaulty key content T Q rs)
    (hpending : ∀ m ∈ pending, m.key = key) :
    Counting maxFaulty key content (T ∪ votesFor key content pending) Q
      (pending.foldl (fun rs m => rs.acceptPrepare maxFaulty m) rs) := by
  induction pending generalizing rs T with
  | nil =>
      rw [votesFor_nil, Finset.union_empty]
      exact h
  | cons m pending ih =>
      have hkey := hpending m List.mem_cons_self
      have hrest := ih (h.acceptPrepare hkey) fun p hp => hpending p (List.mem_cons_of_mem _ hp)
      rw [List.foldl_cons, votesFor_cons, ← Finset.union_assoc]
      by_cases hsame : m.content = content
      · rw [if_pos hsame] at hrest
        rw [if_pos ⟨hkey, hsame⟩, Finset.union_comm T, ← Finset.insert_eq]
        exact hrest
      · rw [if_neg hsame] at hrest
        rw [if_neg fun hm => hsame hm.2, Finset.union_empty]
        exact hrest

theorem Counting.processPendingPrepares
    (h : Counting maxFaulty key content T Q rs) :
    Counting maxFaulty key content (T ∪ votesFor key content rs.pendingPrepares) Q
      (rs.processPendingPrepares maxFaulty key) := by
  unfold PBFTReplica.processPendingPrepares
  rw [← votesFor_filter_key]
  refine Counting.foldl_acceptPrepare (h.congr ⟨rfl, rfl, rfl, Iff.rfl, rfl, rfl, Iff.rfl, Iff.rfl⟩)
    ?_
  intro m hm
  simpa using (List.mem_filter.mp hm).2

theorem Counting.sendPrepare
    (h : Counting maxFaulty key content T Q rs)
    (hsent : key ∉ rs.prepareSent) :
    Counting maxFaulty key content (insert rs.nodeId T) Q (rs.sendPrepare maxFaulty key) := by
  unfold PBFTReplica.sendPrepare
  rw [if_neg hsent, h.stored]
  have hopen : Counting maxFaulty key content T Q
      { rs with prepareSent := insert key rs.prepareSent } :=
    h.congr ⟨rfl, rfl, rfl, Iff.rfl, rfl, rfl, Iff.rfl, Iff.rfl⟩
  have hown := hopen.acceptPrepare (m := rs.outgoing PBFTMessage.prepare key content) rfl
  rw [if_pos (show (rs.outgoing PBFTMessage.prepare key content).content = content from rfl)]
    at hown
  exact hown.congr ⟨rfl, rfl, rfl, Iff.rfl, rfl, rfl, Iff.rfl, Iff.rfl⟩

end PreparePhase

section PrepareFrames

theorem evaluatePrepared_within (maxFaulty : ℕ) (key : MessageKey) (rs : PBFTReplica) :
    VotesWithin key rs (rs.evaluatePrepared maxFaulty key) := by
  unfold evaluatePrepared
  split
  case isTrue => exact VotesWithin.refl key rs
  case isFalse =>
    split
    case isTrue => exact VotesWithin.refl key rs
    case isFalse =>
      split
      case h_1 => exact VotesWithin.refl key rs
      case h_2 content _ =>
        obtain ⟨timeout, harm⟩ := armProgressTimeout_eq { rs with
          preparedInstances := rs.preparedInstances ++ [key]
          currentKey := some key } content.requestId
        dsimp only
        rw [harm]
        have hprepared : VotesWithin key rs { rs with
            preparedInstances := rs.preparedInstances ++ [key]
            currentKey := some key
            progressTimeout := timeout } := by
          refine ⟨⟨rfl, rfl, rfl, fun k hk => ?_⟩, rfl, rfl, rfl⟩
          simp [slot, hk]
        exact hprepared.trans ((processPendingCommits_within maxFaulty key _).trans
          (sendCommit_within maxFaulty key _)).toVotesWithin

theorem acceptPrepare_within (maxFaulty : ℕ) (m : PBFTMessage) (rs : PBFTReplica) :
    VotesWithin m.key rs (rs.acceptPrepare maxFaulty m) := by
  unfold acceptPrepare
  split
  case h_1 => exact VotesWithin.refl m.key rs
  case h_2 =>
    split
    case isTrue => exact VotesWithin.refl m.key rs
    case isFalse =>
      split
      case isTrue => exact VotesWithin.refl m.key rs
      case isFalse =>
        refine VotesWithin.trans ?_ (evaluatePrepared_within maxFaulty m.key _)
        refine ⟨⟨rfl, rfl, rfl, fun k hk => ?_⟩, rfl, rfl, rfl⟩
        simp only [slot, Dict.get?_set, if_neg hk]

theorem foldl_acceptPrepare_within
    (maxFaulty : ℕ) {pending : List PBFTMessage}
    (hpending : ∀ m ∈ pending, m.key = key)
    (rs : PBFTReplica) :
    VotesWithin key rs (pending.foldl (fun rs m => rs.acceptPrepare maxFaulty m) rs) := by
  induction pending generalizing rs with
  | nil => exact VotesWithin.refl key rs
  | cons m pending ih =>
      rw [List.foldl_cons]
      have hm := acceptPrepare_within maxFaulty m rs
      rw [hpending m List.mem_cons_self] at hm
      exact hm.trans (ih (fun p hp => hpending p (List.mem_cons_of_mem _ hp)) _)

/-- The buffer of the key is emptied. -/
theorem processPendingPrepares_within (maxFaulty : ℕ) (key : MessageKey) (rs : PBFTReplica) :
    VotesWithin key { rs with pendingPrepares := rs.pendingPrepares.filter (·.key ≠ key) }
      (rs.processPendingPrepares maxFaulty key) := by
  unfold processPendingPrepares
  refine foldl_acceptPrepare_within maxFaulty ?_ _
  intro m hm
  simpa using (List.mem_filter.mp hm).2

/-- The own PREPARE is sent once. -/
theorem sendPrepare_within
    (maxFaulty : ℕ) {rs : PBFTReplica}
    (hsent : key ∉ rs.prepareSent)
    (hstored : rs.instances.get? key = some content) :
    VotesWithin key { rs with prepareSent := insert key rs.prepareSent }
      (rs.sendPrepare maxFaulty key) := by
  unfold sendPrepare
  rw [if_neg hsent, hstored]
  have haccept := acceptPrepare_within maxFaulty (rs.outgoing PBFTMessage.prepare key content)
    { rs with prepareSent := insert key rs.prepareSent }
  exact ⟨⟨haccept.nodeId, haccept.currentView, haccept.primaryId, haccept.others⟩,
    haccept.instances, haccept.pendingPrepares, haccept.prepareSent⟩

end PrepareFrames

end PBFTReplica

end RosPbft
end DistributedConsensus
