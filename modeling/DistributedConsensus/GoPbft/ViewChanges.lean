import DistributedConsensus.GoPbft.Ensemble

/-!
# PBFT: which replicas may still vote in a view

A replica that has left a view, or that has stopped in it and has no NEW-VIEW
message for it under way, never sends a COMMIT in the view again.  A replica
that has stopped in a view can resume it when the NEW-VIEW message arrives: the
primary of the view sends that message also to itself.
-/

namespace DistributedConsensus
namespace GoPbft

open Foundations

variable {D : Deployment}

namespace Cluster

variable {w : Cluster} {i j : ℕ} {e : Event}

/-- A NEW-VIEW message of the view is under way to the replica. -/
def Pending (D : Deployment) (w : Cluster) (v : ℤ) (j : ℕ) : Prop :=
  ∃ (k : ℕ) (b : Multicast) (proofs : List ℕ),
    (w (primaryFor v D.n)).rs.sent[k]? = some b ∧
      b.msg = ⟨primaryFor v D.n, .newView v proofs⟩ ∧ j ∈ b.recipients ∧
      (primaryFor v D.n, k) ∉ (w j).received

/-- The replica may still send COMMITs in the view: it has not reached the view,
it is active in it, or it has stopped in it and a NEW-VIEW is under way. -/
def MayVote (D : Deployment) (w : Cluster) (v : ℤ) (j : ℕ) : Prop :=
  (w j).rs.view < v ∨ (w j).rs.view = v ∧ ((w j).rs.active = true ∨ w.Pending D v j)

/-- The state after an event. -/
abbrev after (D : Deployment) (w : Cluster) (i : ℕ) (e : Event) : Cluster :=
  Function.update w i ((w i).handle D e)

/-- The proposal that an event makes. -/
def Proposes (D : Deployment) (w : Cluster) (i : ℕ) (e : Event) (v s : ℤ) (d : String) : Prop :=
  ∃ m, e.message i = some m ∧ (w i).rs.proposal D.n D.digestOf m = some (v, s, d)

theorem course
    (hw : w.Sound D)
    (henabled : w.Enabled D i e) :
    RunState.Course D.n (w.Arrives D i e) (w.Proposes D i e) (w i).rs ((w i).handle D e).rs :=
  (Replica.handle_runs (R := fun _ => True) hw henabled (fun _ _ _ _ => trivial)
    fun m hm _ _ _ h => ⟨m, hm, h⟩).course

section AllCorrect

theorem handle_eq (x : Replica) (e : Event) :
    x.handle D e = x.react D.n D.digestOf e := by
  cases e <;> rfl

theorem after_eq : w.after D i e = w.next D.n D.digestOf i e := by
  rw [after, next, handle_eq]

/-- Without faulty replicas no message is forged. -/
theorem ready_of_enabled
    (hall : D.faulty = ∅)
    (h : w.Enabled D i e) :
    w.Ready D.n i e := by
  cases e with
  | request => exact h.1
  | deliver => exact ⟨h.1.1, h.2⟩
  | timeout => exact ⟨h.1.1, h.2⟩
  | forge m =>
      have hfaulty := h.2
      rw [hall] at hfaulty
      cases hfaulty

/-- A cluster without faulty replicas is an ensemble. -/
theorem ensemble_of_cluster
    {ok : Cluster → ℕ × Event → Prop}
    (hall : D.faulty = ∅)
    (hreach : (cluster D).Reachable ok w) :
    (ensemble D.n D.digestOf).Reachable System.anyStep w := by
  unfold System.Reachable at hreach
  induction hreach with
  | refl => exact System.Reaches.refl _
  | @tail w w' l _ _ hstep ih =>
      obtain ⟨henabled, rfl⟩ := Nodes.step_spec hstep
      refine System.Reaches.tail (l := l) ih trivial ?_
      have hnext := Nodes.step_of_enabled (N := replicas D.n D.digestOf)
        (ready_of_enabled hall henabled)
      rw [show (nodes D).handle l.1 (w l.1) l.2 = (w l.1).react D.n D.digestOf l.2 from
        handle_eq (w l.1) l.2]
      exact hnext

/-- A replica that could not vote in a view any more still cannot. -/
theorem mayVote_of_after
    {ok : Cluster → ℕ × Event → Prop} {v : ℤ}
    (hall : D.faulty = ∅)
    (hreach : (cluster D).Reachable ok w)
    (henabled : w.Enabled D i e)
    (h : (w.after D i e).MayVote D v j) :
    w.MayVote D v j := by
  rw [after_eq] at h
  exact mayAct_of_next (steady (ensemble_of_cluster hall hreach))
    (ready_of_enabled hall henabled) h

end AllCorrect

/-- A new COMMIT is of a view in which its replica could vote, and comes with no
proposal. -/
theorem commit_of_after
    {v s : ℤ} {d : String}
    (hw : w.Sound D)
    (henabled : w.Enabled D i e)
    (h : (w.after D i e j).rs.HasSent (.commit v s d)) :
    (w j).rs.HasSent (.commit v s d) ∨ w.MayVote D v j ∧ j = i ∧
      ∀ v' s' d', ¬ w.Proposes D i e v' s' d' := by
  by_cases hj : j = i
  · subst hj
    rw [after, Function.update_self] at h
    -- What the replica does with the message of the event.
    have hreceive : ∀ m, e.message j = some m →
        ((w j).rs.receive D.n D.digestOf m).HasSent (.commit v s d) →
        (w j).rs.HasSent (.commit v s d) ∨ w.MayVote D v j ∧ j = j ∧
          ∀ v' s' d', ¬ w.Proposes D j e v' s' d' := by
      intro m hmessage hsent
      rcases RunState.commit_of_receive hsent with hold | ⟨hactive, rfl, hphase⟩
      · exact Or.inl hold
      · refine Or.inr ⟨Or.inr ⟨rfl, Or.inl hactive⟩, rfl, ?_⟩
        rintro v' s' d' ⟨m', hm', hproposal⟩
        obtain rfl := Option.some.inj (hm'.symm.trans hmessage)
        rcases hphase with hphase | ⟨req, hphase⟩
        · simp [RunState.proposal, hphase] at hproposal
        · simp [RunState.proposal, hphase] at hproposal
    cases e with
    | request req =>
        have hsent : ((w j).rs.receive D.n D.digestOf ⟨(w j).rs.id, .request req⟩).HasSent
            (.commit v s d) := h
        rw [hw.ids] at hsent
        exact hreceive _ rfl hsent
    | deliver k b => exact hreceive b.msg rfl h
    | forge m => exact hreceive m rfl h
    | timeout =>
        left
        obtain ⟨b, hb, hmsg⟩ := h
        have hcourse := course hw henabled
        obtain ⟨extra, hextra, hallowed⟩ := hcourse.sent
        rw [hcourse.id] at hmsg
        rw [hextra] at hb
        rcases List.mem_append.mp hb with hb | hb
        · exact ⟨b, hb, hmsg⟩
        · have hkind := (hallowed b hb).2
          rw [hmsg] at hkind
          obtain ⟨_, ⟨hm, -⟩ | ⟨_, hm, -⟩⟩ := hkind
          · cases hm
          · cases hm
  · left
    rwa [after, Function.update_of_ne hj] at h

end Cluster

end GoPbft
end DistributedConsensus
