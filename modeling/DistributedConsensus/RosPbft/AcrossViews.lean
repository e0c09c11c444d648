import DistributedConsensus.RosPbft.InView

/-!
# Emergency-stop PBFT: agreement across views

A VIEW-CHANGE leaves out what its sender has committed, so that a new primary
may give the sequence number of a committed request to another one: correct
replicas can disagree.

They agree in the runs in which the instances that are adopted respect what may
have been committed, and replicas take no part in a view that they have asked to
leave.  Then, for an instance of some view, at most `f` correct replicas have
voted or may still vote for another request under its sequence number in an
earlier view.
-/

namespace DistributedConsensus
namespace RosPbft

open Foundations

variable {D : Deployment}

namespace PBFTReplica

variable {K : ℤ → MessageKey → PBFTInstance → Prop} {e : Option Message}
  {A : MessageKey → PBFTInstance → Prop} {L : MessageKey → Prop} {C : PBFTMessage → Prop}
  {rs rs' : PBFTReplica}

/-- The votes of a callback are allowed ones. -/
theorem Runs.new_vote
    {key : MessageKey}
    (hruns : Runs D.f D.digestOf e A L C rs rs')
    (h : key ∈ rs'.commitSent) :
    key ∈ rs.commitSent ∨ L key := by
  induction hruns with
  | refl => exact Or.inl h
  | tail _ hact ih =>
      rcases hact.new_vote h with hold | ⟨hL, -⟩
      · exact ih hold
      · exact Or.inr hL

/-- The instances of a callback are allowed ones. -/
theorem Runs.new_instance
    {key : MessageKey} {content : PBFTInstance}
    (hruns : Runs D.f D.digestOf e A L C rs rs')
    (h : rs'.instances.get? key = some content) :
    rs.instances.get? key = some content ∨ A key content := by
  induction hruns with
  | refl => exact Or.inl h
  | tail _ hact ih =>
      rcases hact.new_instance h with hold | ⟨hA, -⟩
      · exact ih hold
      · exact Or.inr hA

end PBFTReplica

/-- The message of a PRE-PREPARE or a PREPARE, which may complete a quorum. -/
def Message.phase : Message → Option PBFTMessage
  | .prePrepare m | .prepare m => some m
  | _ => none

namespace Cluster

variable {w : Cluster} {i j k : ℤ} {e : Event}

/-- The replica may still vote for the request: it has not left the view nor
asked for a later one, and has no other instance under the key. -/
def MayVote (w : Cluster) (k : ℤ) (v s : ℕ) (content : PBFTInstance) : Prop :=
  (w k).currentView ≤ v ∧ (∀ newView ∈ (w k).viewChangeSent, newView ≤ v) ∧
    ∀ existing, (w k).instances.get? (v, s) = some existing → existing = content

/-- At most `f` correct replicas have voted or may still vote for the request. -/
def Closed (D : Deployment) (w : Cluster) (v s : ℕ) (content : PBFTInstance) : Prop :=
  ∀ Q : Finset ℤ, (∀ k ∈ Q, D.IsCorrect k ∧
    ((w k).HasVoted (v, s) content ∨ w.MayVote k v s content)) → Q.card ≤ D.f

/-- The same when replica `i` leaves the view. -/
def ClosedWithout (D : Deployment) (w : Cluster) (i : ℤ) (v s : ℕ) (content : PBFTInstance) :
    Prop :=
  ∀ Q : Finset ℤ, (∀ k ∈ Q, D.IsCorrect k ∧
    ((w k).HasVoted (v, s) content ∨ k ≠ i ∧ w.MayVote k v s content)) → Q.card ≤ D.f

/-- The condition on a step.  An instance is adopted only when no other request
may have been committed under its sequence number in an earlier view, and a
replica that has asked for a later view handles no message that may make it vote
in its present one. -/
def Respects (D : Deployment) (w : Cluster) (l : ℤ × Event) : Prop :=
  (∀ m ∈ l.2.message, ∀ p ∈ (w l.1).adopts D.f D.digestOf m, ∀ v < p.1.1, ∀ content ≠ p.2,
    w.ClosedWithout D l.1 v p.1.2 content) ∧
  ∀ m ∈ l.2.message, ∀ p ∈ m.phase, p.view = (w l.1).currentView →
    p.key ∉ (w l.1).commitSent → ∀ newView ∈ (w l.1).viewChangeSent, newView ≤ p.view

/-- The instances that the event may make the replica adopt. -/
def Adoptable (D : Deployment) (w : Cluster) (i : ℤ) (e : Event) (key : MessageKey)
    (content : PBFTInstance) : Prop :=
  ∃ m ∈ e.message, (w i).adopts D.f D.digestOf m = some (key, content)

/-- The keys that the event may make the replica vote for, in a run that
respects earlier views. -/
structure Votable (D : Deployment) (w : Cluster) (i : ℤ) (e : Event) (key : MessageKey) : Prop where
  view : key.1 = (w i).currentView
  present : ∀ newView ∈ (w i).viewChangeSent, newView ≤ key.1
  adopted : ∀ key' content, w.Adoptable D i e key' content → key'.1 = key.1

theorem handle_runs_of_respects
    (hw : ∀ j, w.Orderly D j)
    (henabled : w.Enabled D i e)
    (hok : w.Respects D (i, e)) :
    PBFTReplica.Runs D.f D.digestOf e.message (w.Adoptable D i e) (w.Votable D i e)
      (w.Countable D) (w i) ((w i).handle D e) := by
  refine handle_runs hw henabled (fun m hm key content h => ⟨m, hm, h⟩) ?_
  intro p hp hview hfresh
  have hphase : ∃ m ∈ e.message, p ∈ m.phase := by
    rcases hp with hp | hp
    · exact ⟨_, hp, rfl⟩
    · exact ⟨_, hp, rfl⟩
  obtain ⟨m, hm, hmp⟩ := hphase
  refine ⟨hview, fun newView hnew => hok.2 m hm p hmp hview hfresh newView hnew, ?_⟩
  rintro key' content ⟨m', hm', hadopts⟩
  -- The message adopts an instance under its own key, if any.
  rcases hp with hp | hp
  · rw [hp] at hm'
    obtain rfl := Option.some.inj hm'
    rw [PBFTReplica.adopts] at hadopts
    split at hadopts
    case isTrue =>
      obtain ⟨rfl, -⟩ := Prod.mk.inj (Option.some.inj hadopts)
      rfl
    case isFalse => cases hadopts
  · rw [hp] at hm'
    obtain rfl := Option.some.inj hm'
    cases hadopts

/-- What a replica may still vote for was open to it before. -/
theorem mayVote_of_grows
    {w' : Cluster} {v s : ℕ} {content : PBFTInstance}
    (hgrows : PBFTReplica.Grows (w k) (w' k))
    (h : w'.MayVote k v s content) :
    w.MayVote k v s content :=
  ⟨hgrows.currentView.trans h.1, fun newView hnew => h.2.1 newView (hgrows.viewChangeSent hnew),
    fun existing hexisting => h.2.2 existing (hgrows.instances _ _ hexisting)⟩

/-- A vote was there before the step, or could be cast. -/
theorem voted_of_after
    {v s : ℕ} {content : PBFTInstance}
    (hw : ∀ j, w.Orderly D j)
    (henabled : w.Enabled D i e)
    (hok : w.Respects D (i, e))
    (h : ((w i).handle D e).HasVoted (v, s) content) :
    (w i).HasVoted (v, s) content ∨
      w.Votable D i e (v, s) ∧ w.MayVote i v s content := by
  have hgrows := (handle_orderly hw henabled).1
  rcases (handle_runs_of_respects hw henabled hok).new_vote h.1 with hold | hvotable
  · obtain ⟨existing, hexisting⟩ := (hw i).orderly.voted _ hold
    have hsame := hgrows.instances _ _ hexisting
    rw [h.2] at hsame
    obtain rfl := Option.some.inj hsame
    exact Or.inl ⟨hold, hexisting⟩
  · refine Or.inr ⟨hvotable, hvotable.view.ge, hvotable.present, ?_⟩
    intro existing hexisting
    have hsame := hgrows.instances _ _ hexisting
    rw [h.2] at hsame
    exact (Option.some.inj hsame).symm

/-- What is closed stays closed. -/
theorem Closed.after
    {v s : ℕ} {content : PBFTInstance}
    (hw : ∀ j, w.Orderly D j)
    (henabled : w.Enabled D i e)
    (hok : w.Respects D (i, e))
    (h : w.Closed D v s content) :
    (w.after D i e).Closed D v s content := by
  intro Q hQ
  refine h Q fun k hk => ⟨(hQ k hk).1, ?_⟩
  have hk := (hQ k hk).2
  by_cases hki : k = i
  · subst hki
    have hself : w.after D k e k = (w k).handle D e := Function.update_self _ _ _
    rcases hk with hvoted | hmay
    · rw [hself] at hvoted
      exact (voted_of_after hw henabled hok hvoted).imp_right And.right
    · refine Or.inr (mayVote_of_grows ?_ hmay)
      rw [hself]
      exact (handle_orderly hw henabled).1
  · have hother : w.after D i e k = w k := Function.update_of_ne hki _ _
    unfold MayVote at hk ⊢
    rwa [hother] at hk

/-- An adopted instance closes the earlier views. -/
theorem ClosedWithout.after
    {v s : ℕ} {content content' : PBFTInstance} {key : MessageKey}
    (hw : ∀ j, w.Orderly D j)
    (henabled : w.Enabled D i e)
    (hok : w.Respects D (i, e))
    (hadopted : w.Adoptable D i e key content')
    (hlt : v < key.1)
    (hview : key.1 ≤ ((w i).handle D e).currentView)
    (h : w.ClosedWithout D i v s content) :
    (w.after D i e).Closed D v s content := by
  intro Q hQ
  refine h Q fun k hk => ⟨(hQ k hk).1, ?_⟩
  have hk := (hQ k hk).2
  by_cases hki : k = i
  · subst hki
    have hself : w.after D k e k = (w k).handle D e := Function.update_self _ _ _
    rcases hk with hvoted | ⟨hle, -⟩
    · rw [hself] at hvoted
      rcases voted_of_after hw henabled hok hvoted with hold | ⟨hvotable, -⟩
      · exact Or.inl hold
      · -- The replica votes in the view of the adopted instance.
        have hsame := hvotable.adopted key content' hadopted
        change key.1 = v at hsame
        omega
    · rw [hself] at hle
      omega
  · have hother : w.after D i e k = w k := Function.update_of_ne hki _ _
    unfold MayVote at hk
    rw [hother] at hk
    exact hk.imp_right fun hmay => ⟨hki, hmay⟩

/-- For every instance of a view, the earlier views are closed to other requests
under its sequence number. -/
theorem reachable_closed
    (hreach : (cluster D).Reachable (Respects D) w)
    {key : MessageKey} {content : PBFTInstance}
    (hget : (w j).instances.get? key = some content) :
    ∀ v < key.1, ∀ content' ≠ content, w.Closed D v key.2 content' := by
  have hinv : ∀ j key content, (w j).instances.get? key = some content →
      ∀ v < key.1, ∀ content' ≠ content, w.Closed D v key.2 content' := by
    refine System.Reachable.invariant (S := cluster D)
      (I := fun w => ∀ j key content, (w j).instances.get? key = some content →
        ∀ v < key.1, ∀ content' ≠ content, Closed D w v key.2 content') ?_ ?_ hreach
    · intro j key content hget
      exact absurd hget (by simp [cluster, Nodes.system, nodes, PBFTReplica.init, Dict.get?,
        Dict.empty])
    · rintro w ⟨i, e⟩ w' hreach hclosed hok hstep
      obtain ⟨henabled, rfl⟩ := Nodes.step_spec hstep
      change w.Enabled D i e at henabled
      have hw := reachable_orderly hreach
      intro j key content hget v hv content' hne
      change ((w.after D i e) j).instances.get? key = some content at hget
      change (w.after D i e).Closed D v key.2 content'
      by_cases hji : j = i
      · subst hji
        have hself : w.after D j e j = (w j).handle D e := Function.update_self _ _ _
        rw [hself] at hget
        have horderly := (handle_orderly hw henabled).2
        rcases (handle_runs_of_respects hw henabled hok).new_instance hget with hold | hadopted
        · exact (hclosed j key content hold v hv content' hne).after hw henabled hok
        · obtain ⟨m, hm, hadopts⟩ := hadopted
          exact ClosedWithout.after hw henabled hok ⟨m, hm, hadopts⟩ hv
            (horderly.views key content hget) (hok.1 m hm (key, content) hadopts v hv content' hne)
      · rw [after, Function.update_of_ne hji] at hget
        exact (hclosed j key content hget v hv content' hne).after hw henabled hok
  exact hinv j key content hget

/-- A committed request is not closed. -/
theorem not_closed_of_committed
    (hi : w.Orderly D i)
    {v s : ℕ} {content : PBFTInstance}
    (h : (w i).Committed (v, s) content) :
    ¬ w.Closed D v s content := by
  intro hclosed
  obtain ⟨Q, hcard, hvalid, hvotes⟩ := exists_quorum hi h
  have hle := hclosed (Q \ D.faulty) fun k hk => by
    rw [Finset.mem_sdiff] at hk
    have hvalid' := hvalid k hk.1
    rw [PBFTReplica.validSender, decide_eq_true_iff] at hvalid'
    have hcorrect : D.IsCorrect k := ⟨hvalid', hk.2⟩
    exact ⟨hcorrect, Or.inl (hvotes k hk.1 hcorrect)⟩
  have hsdiff := Finset.le_card_sdiff D.faulty Q
  have hfaulty := D.faulty_le
  unfold PBFTReplica.commitThreshold at hcard
  omega

/-- Agreement across views: when the steps respect what may have been committed
in earlier views, no two replicas commit different requests at one sequence
number. -/
theorem committed_agree_across
    (hreach : (cluster D).Reachable (Respects D) w)
    {p q : ℤ} {v v' s : ℕ} {content content' : PBFTInstance}
    (hp : (w p).Committed (v, s) content)
    (hq : (w q).Committed (v', s) content') :
    content = content' := by
  have hw := reachable_orderly hreach
  rcases lt_trichotomy v v' with hlt | rfl | hlt
  · by_contra hne
    exact not_closed_of_committed (hw p) hp (reachable_closed hreach hq.2 v hlt _ hne)
  · exact committed_agree hreach hp hq
  · by_contra hne
    exact not_closed_of_committed (hw q) hq (reachable_closed hreach hp.2 v' hlt _ (Ne.symm hne))

section Runs

/-- Four correct replicas with timers. -/
def allCorrect : Deployment where
  f := 1
  faulty := ∅
  digestOf := digestOf
  parameters := fun _ => ⟨0, none, true⟩
  faulty_le := by decide

/-- A client request that reaches a replica in view 0. -/
def requestOf (content : PBFTInstance) : Event :=
  .deliver (.request (broadcast PBFTMessage.request (-1) 0 0 content))

/-- The primary of view 0 numbers A and the other replicas adopt it. -/
def proposeRun : List (ℤ × Event) :=
  [(0, requestOf requestA), (1, prePrepareBy 0 0 1 requestA), (2, prePrepareBy 0 0 1 requestA),
    (3, prePrepareBy 0 0 1 requestA)]

/-- Replicas 0, 1 and 2 become prepared, and replica 0 commits A in view 0. -/
def firstCommitRun : List (ℤ × Event) :=
  [(1, prepareBy 2 0 1 requestA), (2, prepareBy 1 0 1 requestA), (0, prepareBy 1 0 1 requestA),
    (0, prepareBy 2 0 1 requestA), (0, commitBy 1 0 1 requestA), (0, commitBy 2 0 1 requestA)]

/-- The VIEW-CHANGE of a replica that has a PREPARED certificate for A. -/
def preparedChangeA (j : ℤ) : ViewChange := ⟨j, 1, true, 0, 1, "A", "#A", true, [1, 2]⟩

/-- The VIEW-CHANGE of a replica without a certificate. -/
def emptyChange (j : ℤ) : ViewChange := ⟨j, 1, false, 0, 0, "", "", false, []⟩

/-- The NEW-VIEW that carries A over to view 1. -/
def newViewA : NewView :=
  ⟨1, 1, [preparedChangeA 1, preparedChangeA 2, emptyChange 3], true, true, 0, 1, "A", "#A", true⟩

/-- View 1 begins with a request, and replica 1 commits it there. -/
def secondViewRun (m : NewView) (content : PBFTInstance) : List (ℤ × Event) :=
  [1, 2, 3].map (fun i => (i, Event.deliver (.newView m))) ++
    [(1, .recovery (1, 1)), (2, prePrepareBy 1 1 1 content), (3, prePrepareBy 1 1 1 content),
      (1, prepareBy 2 1 1 content), (1, prepareBy 3 1 1 content), (2, prepareBy 3 1 1 content),
      (3, prepareBy 2 1 1 content), (1, commitBy 2 1 1 content), (1, commitBy 3 1 1 content)]

/-- The replicas that an instance is adopted among have it in all earlier views,
and none has asked for a later view. -/
def Unopposed (D : Deployment) (w : Cluster) (l : ℤ × Event) : Prop :=
  (∀ m ∈ l.2.message, ∀ p ∈ (w l.1).adopts D.f D.digestOf m, ∀ v < p.1.1, ∀ k < D.n,
    (w k).instances.get? (v, p.1.2) = some p.2) ∧
  ∀ m ∈ l.2.message, ∀ p ∈ m.phase, p.view = (w l.1).currentView →
    p.key ∉ (w l.1).commitSent → ∀ newView ∈ (w l.1).viewChangeSent, newView ≤ p.view

instance (w : Cluster) (l : ℤ × Event) : Decidable (Unopposed D w l) := by
  unfold Unopposed
  infer_instance

theorem respects_of_unopposed
    {l : ℤ × Event}
    (h : w.Unopposed D l) :
    w.Respects D l := by
  refine ⟨?_, h.2⟩
  intro m hm p hp v hv content hne Q hQ
  -- Nobody has voted or may vote for another request.
  have hempty : Q = ∅ := by
    refine Finset.eq_empty_of_forall_notMem fun k hk => ?_
    obtain ⟨⟨⟨hnonneg, hlt⟩, -⟩, hvote⟩ := hQ k hk
    obtain ⟨i, rfl⟩ := Int.eq_ofNat_of_zero_le hnonneg
    have hget := h.1 m hm p hp v hv i (by omega)
    rcases hvote with ⟨-, hvoted⟩ | ⟨-, -, -, hopen⟩
    · rw [hget] at hvoted
      exact hne (Option.some.inj hvoted).symm
    · exact hne (hopen _ hget).symm
  rw [hempty]
  exact Nat.zero_le _

/-- A is committed in view 0 and, after a view change, in view 1. -/
theorem committed_agree_across_allCorrect :
    ∃ w, (cluster allCorrect).Reachable (Respects allCorrect) w ∧
      (w 0).Committed (0, 1) requestA ∧ (w 1).Committed (1, 1) requestA ∧
        requestA = requestA := by
  obtain ⟨w, hreach, h0, h1⟩ : ∃ w, (cluster allCorrect).Reachable (Unopposed allCorrect) w ∧
      (w 0).Committed (0, 1) requestA ∧ (w 1).Committed (1, 1) requestA := by
    refine System.exists_reaches_of_exec
      (proposeRun ++ firstCommitRun ++
        [(1, .progressTimeout), (2, .progressTimeout), (3, .progressTimeout),
          (1, .deliver (.viewChange (preparedChangeA 2))),
          (1, .deliver (.viewChange (emptyChange 3)))] ++
        secondViewRun newViewA requestA) ?_
    decide +kernel
  have hreach' : (cluster allCorrect).Reachable (Respects allCorrect) w :=
    System.Reaches.mono (fun w l => respects_of_unopposed) hreach
  exact ⟨w, hreach', h0, h1, committed_agree_across hreach' h0 h1⟩

/-- All replicas commit A in view 0. -/
def allCommitRun : List (ℤ × Event) :=
  firstCommitRun ++ [(3, prepareBy 1 0 1 requestA)] ++
    [(1, commitBy 0 0 1 requestA), (1, commitBy 2 0 1 requestA), (2, commitBy 0 0 1 requestA),
      (2, commitBy 1 0 1 requestA), (3, commitBy 0 0 1 requestA), (3, commitBy 1 0 1 requestA)]

/-- B reaches all replicas and gets the next number, but no PREPARE arrives. -/
def stalledRun : List (ℤ × Event) :=
  [0, 1, 2, 3].map (fun i => (i, requestOf requestB)) ++
    [1, 2, 3].map fun i => (i, prePrepareBy 0 0 2 requestB)

/-- The NEW-VIEW that gives B the first number of the new primary. -/
def newViewB : NewView :=
  ⟨1, 1, [emptyChange 1, emptyChange 2, emptyChange 3], true, false, 0, 1, "B", "#B", true⟩

/-- Correct replicas commit different requests at one sequence number. -/
theorem committed_differ_across :
    allCorrect.faulty = ∅ ∧ ∃ w, (cluster allCorrect).Reachable System.anyStep w ∧
      (w 0).Committed (0, 1) requestA ∧ (w 1).Committed (1, 1) requestB ∧
        requestA ≠ requestB := by
  obtain ⟨w, hreach, h0, h1⟩ : ∃ w, (cluster allCorrect).Reachable System.anyStep w ∧
      (w 0).Committed (0, 1) requestA ∧ (w 1).Committed (1, 1) requestB := by
    refine System.exists_reaches_of_exec
      (proposeRun ++ allCommitRun ++ stalledRun ++
        [(1, .progressTimeout), (2, .progressTimeout), (3, .progressTimeout),
          (1, .deliver (.viewChange (emptyChange 2))),
          (1, .deliver (.viewChange (emptyChange 3)))] ++
        secondViewRun newViewB requestB) ?_
    decide +kernel
  exact ⟨rfl, w, hreach, h0, h1, by decide⟩

end Runs

end Cluster

end RosPbft
end DistributedConsensus
