import DistributedConsensus.Foundations.Nodes
import DistributedConsensus.Foundations.Quorum
import DistributedConsensus.RosPbft.Handlers
import Mathlib.Data.Int.Interval

/-!
# Emergency-stop PBFT: replicas and topics

The replicas and the topics between them.  A published message reaches any
replica any number of times, after any delay or never, the publisher included.
Nobody publishes under the id of a correct replica but itself; what carries
another sender id is arbitrary, the requests of the clients included.
-/

namespace DistributedConsensus
namespace RosPbft

open Foundations

/-- The parameters of a run: `3f+1` replicas of which at most `f` are faulty. -/
structure Deployment where
  f : ℕ
  faulty : Finset ℤ
  digestOf : String → Bool → String
  parameters : ℤ → Parameters
  faulty_le : faulty.card ≤ f

/-- The number of replicas. -/
def Deployment.n (D : Deployment) : ℕ := PBFTReplica.replicaCount D.f

inductive Event where
  | deliver (m : Message)
  | progressTimeout
  | manualViewChange
  | recovery (key : MessageKey)

/-- The message that an event hands to the replica. -/
def Event.message : Event → Option Message
  | .deliver m => some m
  | _ => none

/-- The replicas by their ids. -/
abbrev Cluster := ℤ → PBFTReplica

variable (D : Deployment)

/-- The replica follows the protocol. -/
def Deployment.IsCorrect (i : ℤ) : Prop := (0 ≤ i ∧ i < D.n) ∧ i ∉ D.faulty

instance (i : ℤ) : Decidable (D.IsCorrect i) := inferInstanceAs (Decidable (_ ∧ _))

/-- A message that may arrive: its sender is not a correct replica, or has
published it. -/
def Cluster.Genuine (w : Cluster) (m : Message) : Prop :=
  D.IsCorrect m.senderId → m ∈ (w m.senderId).sent

instance (w : Cluster) (m : Message) : Decidable (w.Genuine D m) :=
  inferInstanceAs (Decidable (_ → _))

/-- The event can happen at the replica. -/
def Cluster.Enabled (w : Cluster) (i : ℤ) : Event → Prop
  | .deliver m => D.IsCorrect i ∧ w.Genuine D m
  | .progressTimeout => D.IsCorrect i ∧ (w i).progressTimeout.isSome = true
  | .manualViewChange => D.IsCorrect i ∧ (w i).manualViewChangeTimer = true
  | .recovery key => D.IsCorrect i ∧ key ∈ (w i).recoveryPrePrepareTimers

instance (w : Cluster) (i : ℤ) : ∀ e, Decidable (w.Enabled D i e)
  | .deliver _ => inferInstanceAs (Decidable (_ ∧ _))
  | .progressTimeout => inferInstanceAs (Decidable (_ ∧ _))
  | .manualViewChange => inferInstanceAs (Decidable (_ ∧ _))
  | .recovery _ => inferInstanceAs (Decidable (_ ∧ _))

/-- One callback. -/
def PBFTReplica.handle (rs : PBFTReplica) : Event → PBFTReplica
  | .deliver m => rs.receive D.f D.digestOf m
  | .progressTimeout => rs.progressTimeoutCallback D.f D.digestOf
  | .manualViewChange => rs.manualViewChangeTimerCallback D.f D.digestOf
  | .recovery key => rs.publishRecoveryPrePrepare key

/-- The replicas as a network. -/
def nodes : Nodes ℤ PBFTReplica Event where
  start := fun i => PBFTReplica.init D.f i (D.parameters i)
  Enabled := fun w i e => Cluster.Enabled D w i e
  handle := fun _ rs e => rs.handle D e

instance (w : ℤ → PBFTReplica) (i : ℤ) (e : Event) : Decidable ((nodes D).Enabled w i e) :=
  inferInstanceAs (Decidable (Cluster.Enabled D w i e))

/-- The runs of a deployment. -/
def cluster : System Cluster (ℤ × Event) := (nodes D).system

/-- The cluster after an event. -/
def Cluster.after (w : Cluster) (i : ℤ) (e : Event) : Cluster :=
  Function.update w i ((w i).handle D e)

variable {D}

/-- Two commit quorums share a correct replica. -/
theorem Deployment.exists_correct_inter
    {A B : Finset ℤ}
    (hA : ∀ j ∈ A, PBFTReplica.validSender D.f j = true)
    (hB : ∀ j ∈ B, PBFTReplica.validSender D.f j = true)
    (hcardA : PBFTReplica.commitThreshold D.f ≤ A.card)
    (hcardB : PBFTReplica.commitThreshold D.f ≤ B.card) :
    ∃ j ∈ A, j ∈ B ∧ D.IsCorrect j := by
  have hvalid : ∀ j, PBFTReplica.validSender D.f j = true ↔ 0 ≤ j ∧ j < D.n := by
    intro j
    rw [PBFTReplica.validSender, decide_eq_true_iff, n]
  have hsub : A ∪ B ⊆ Finset.Ico (0 : ℤ) D.n := by
    intro j hj
    rw [Finset.mem_Ico]
    rcases Finset.mem_union.mp hj with hj | hj
    · exact (hvalid j).mp (hA j hj)
    · exact (hvalid j).mp (hB j hj)
  have hunion := Finset.card_le_card hsub
  rw [Int.card_Ico] at hunion
  have hinter := Finset.card_union_add_card_inter A B
  have hfaulty := D.faulty_le
  unfold PBFTReplica.commitThreshold at hcardA hcardB
  unfold n PBFTReplica.replicaCount at hunion
  have hbig : D.faulty.card < (A ∩ B).card := by omega
  obtain ⟨j, hj, hc⟩ := exists_correct_of_card_lt hbig
  rw [Finset.mem_inter] at hj
  exact ⟨j, hj.1, hj.2, (hvalid j).mp (hA j hj.1), hc⟩

theorem Cluster.Enabled.isCorrect
    {w : Cluster} {i : ℤ} {e : Event}
    (h : w.Enabled D i e) :
    D.IsCorrect i := by
  cases e with
  | deliver | progressTimeout | manualViewChange | recovery => exact h.1

/-- Handling an event is a sequence of effects. -/
theorem PBFTReplica.handle_runs
    {A : MessageKey → PBFTInstance → Prop} {L : MessageKey → Prop} {C : PBFTMessage → Prop}
    {rs : PBFTReplica} {e : Event}
    (hA : ∀ m ∈ e.message, ∀ key content, rs.adopts D.f D.digestOf m = some (key, content) →
      A key content)
    (hwaiting : Waiting C rs)
    (hL : ∀ p, e.message = some (.prePrepare p) ∨ e.message = some (.prepare p) →
      p.view = rs.currentView → p.key ∉ rs.commitSent → L p.key)
    (hC : ∀ p, e.message = some (.commit p) → validSender D.f p.senderId = true → C p) :
    Runs D.f D.digestOf e.message A L C rs (rs.handle D e) := by
  cases e with
  | deliver m =>
      refine receive_runs (hA m rfl) hwaiting ?_ ?_
      · rintro p (rfl | rfl)
        · exact hL p (Or.inl rfl)
        · exact hL p (Or.inr rfl)
      · rintro p rfl
        exact hC p rfl
  | progressTimeout => exact progressTimeoutCallback_runs rs
  | manualViewChange => exact manualViewChangeTimerCallback_runs rs
  | recovery key => exact publishRecoveryPrePrepare_runs key rs

end RosPbft
end DistributedConsensus
