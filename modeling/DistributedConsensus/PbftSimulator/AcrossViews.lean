import DistributedConsensus.PbftSimulator.Prepared
import DistributedConsensus.PbftSimulator.Reports

/-!
# PBFT simulator: agreement across views

A quorum of COMMITs for a digest in a view and the VIEW-CHANGE messages for a later
view share a correct node, which reports the digest.  By induction on the view,
nothing else may be accepted for the sequence number in any later view.
-/

namespace DistributedConsensus
namespace PbftSimulator

open Foundations

namespace Node

variable {c : Config} {X : Defect → Prop} {e : Option Message} {n : Node} {s s' : Stage}

/-- What a node has committed, it has counted a quorum of COMMITs for. -/
def Counted (c : Config) (n : Node) : Prop :=
  ∀ q d, (q, d) ∈ n.log → ∃ v, quorumSize c.F ≤ (n.commitVotes.getD (q, v, d) ∅).card

theorem Counted.acts
    (hact : Acts c X e s s')
    (h : s.node.Counted c) :
    s'.node.Counted c := by
  intro q d hlog
  have hkeep : (q, d) ∈ s.node.log →
      ∃ v, quorumSize c.F ≤ (s'.node.commitVotes.getD (q, v, d) ∅).card := by
    intro hlog
    obtain ⟨v, hv⟩ := h q d hlog
    exact ⟨v, hv.trans (Finset.card_le_card (hact.commitVotes _))⟩
  cases hact with
  | quiet hq =>
      obtain ⟨_, _, _, _, _, _, rfl⟩ := hq
      exact h q d hlog
  | commit hquorum _ _ _ =>
      rcases List.mem_append.mp hlog with hlog | hlog
      · exact hkeep hlog
      · cases List.mem_singleton.mp hlog
        exact ⟨_, hquorum⟩
  | _ => exact hkeep hlog

theorem Counted.runs
    (hruns : Runs c X e s s')
    (h : s.node.Counted c) :
    s'.node.Counted c := by
  induction hruns with
  | refl => exact h
  | tail _ hact ih => exact ih.acts hact

end Node

namespace Cluster

variable {D : Deployment} {L : List Defect} {w w' : Cluster} {i j u v q : ℤ} {d d' : String}
  {e : Event}

/-- The missing checks that agreement depends on. -/
def acrossViewsDefects : List Defect :=
  [.stalePrepare, .earlyAccept, .contradiction, .regress, .looseX, .nullDigest]

/-- The reports and commits of a correct node in a run that avoids the defects. -/
structure Reporting (D : Deployment) (w : Cluster) (i : ℤ) : Prop where
  truthful : D.IsCorrect i → Node.Truthful D.config (w.Genuine D) ⟨w i, []⟩
  counted : (w i).Counted D.config

theorem reachable_reporting
    (hreach : (cluster D).Reachable (Avoiding D acrossViewsDefects) w) :
    ∀ i, w.Reporting D i := by
  refine Nodes.reachable_invariant (N := nodes D) (R := Grows)
    (I := fun w i => Cluster.Reporting D w i) Grows.refl ?_ ?_ ?_ hreach
  · exact fun i => ⟨fun _ => Node.truthful_new i _, fun _ _ h => absurd h List.not_mem_nil⟩
  · intro w i e hreach hw havoids henabled
    have hsound := reachable_sound (Or.inr (by decide)) hreach
    have horderly := reachable_orderly (by decide) (by decide) hreach
    have hruns := handle_runs hsound havoids henabled
    have hcorrect := Enabled.isCorrect henabled
    refine ⟨⟨hruns.id, hruns.sent⟩, fun hext => ⟨fun _ => ?_, ?_⟩⟩
    · have htruthful := ((hw i).truthful hcorrect).runs (by decide) (by decide) (by decide)
        (by decide) (by decide) (by decide) (receivable hsound henabled) hruns
        ((horderly i).kept hcorrect)
      rw [Function.update_self]
      exact htruthful.imp fun m => Genuine.mono hext
    · rw [Function.update_self]
      exact (hw i).counted.runs hruns
  · intro w w' i hext hsame hi
    refine ⟨fun hcorrect => ?_, ?_⟩
    · rw [hsame]
      exact (hi.truthful hcorrect).imp fun m => Genuine.mono hext
    · rw [hsame]
      exact hi.counted

/-- Replicas that have sent a COMMIT, as far as they are correct. -/
structure Chosen (D : Deployment) (w : Cluster) (v q : ℤ) (d : String) (Q : Finset ℤ) : Prop where
  quorum : quorumSize D.f ≤ Q.card
  replicas : ∀ j ∈ Q, D.IsReplica j
  commits : ∀ j ∈ Q, D.IsCorrect j → (w j).HasSent (.commit ⟨v, q, d, j⟩)

theorem exists_chosen
    (horderly : w.Orderly D acrossViewsDefects i)
    (hw : w.Reporting D i)
    (hi : D.IsCorrect i)
    (h : (q, d) ∈ (w i).log) :
    ∃ v Q, Chosen D w v q d Q := by
  obtain ⟨v, hquorum⟩ := hw.counted q d h
  have hgenuine : ∀ j ∈ (w i).commitVotes.getD (q, v, d) ∅,
      w.Genuine D (.commit ⟨v, q, d, j⟩) := fun j hj =>
    Genuine.of_known horderly.id hi ((horderly.kept hi).authentic.commits q v d j hj)
  exact ⟨v, _, hquorum, fun j hj => (hgenuine j hj).1, fun j hj => (hgenuine j hj).2⟩

/-- What the genuine VIEW-CHANGE messages for a view permit. -/
def May (D : Deployment) (w : Cluster) (q u : ℤ) (d : String) : Prop :=
  u ≤ 0 ∨ ∃ S : Dict ℤ ViewChange, quorumSize D.f ≤ S.size ∧
    (∀ k vc, S.get? k = some vc →
      vc.view = u ∧ vc.senderID = k ∧ w.Genuine D (.viewChange vc)) ∧
    Permits D.f S q d

theorem may_of_admissible
    (hid : (w i).id = i)
    (hi : D.IsCorrect i)
    (h : (w i).Admissible D.config (w.Genuine D) u q d) :
    May D w q u d := by
  refine h.imp_right ?_
  rintro ⟨S, hbacked, hpermits⟩
  refine ⟨S, hbacked.quorum, fun k vc hvc => ?_, hpermits⟩
  obtain ⟨hview, hsender, hknown⟩ := hbacked.known k vc hvc
  exact ⟨hview, hsender, Genuine.of_known hid hi hknown⟩

/-- What the VIEW-CHANGE message of a replica reports. -/
def reportOf (S : Dict ℤ ViewChange) (q i : ℤ) : Report String :=
  match S.get? i with
  | some vc => vc.report q
  | none => ⟨[], []⟩

theorem reportOf_eq
    {S : Dict ℤ ViewChange} {vc : ViewChange}
    (h : S.get? i = some vc) :
    reportOf S q i = vc.report q := by
  unfold reportOf
  rw [h]

/-- A correct replica that has sent a COMMIT reports its digest. -/
theorem covers_of_chosen
    {Q : Finset ℤ} {S : Dict ℤ ViewChange}
    (horderly : ∀ j, w.Orderly D acrossViewsDefects j)
    (hw : ∀ j, w.Reporting D j)
    (hchosen : Chosen D w v q d Q)
    (hlt : v < u)
    (hbefore : ∀ u', v < u' → u' < u → ∀ d', May D w q u' d' → d' = d)
    (hS : ∀ k vc, S.get? k = some vc →
      vc.view = u ∧ vc.senderID = k ∧ w.Genuine D (.viewChange vc))
    (hj : j ∈ Q)
    (hcorrect : D.IsCorrect j)
    (hmem : ∃ vc, S.get? j = some vc) :
    (reportOf S q j).Covers v d := by
  obtain ⟨vc, hvc⟩ := hmem
  obtain ⟨rfl, hsender, hgenuine⟩ := hS j vc hvc
  have hid := (horderly j).id
  have hsent : (w j).HasSent (.viewChange vc) := by
    rw [← hsender] at hcorrect ⊢
    exact hgenuine.2 hcorrect
  have hcommit := hchosen.commits j hj hcorrect
  obtain ⟨⟨p, hp, hq⟩, hall⟩ := ((hw j).truthful hcorrect).covers vc v q d hsent
    (hsender.trans hid.symm) (by rw [hid]; exact hcommit) hlt
  rw [reportOf_eq hvc]
  refine ⟨List.ne_nil_of_mem (ViewChange.mem_report.mpr ⟨p, hp, hq, rfl⟩), ?_⟩
  intro x hx
  obtain ⟨p', hp', hq', rfl⟩ := ViewChange.mem_report.mp hx
  obtain ⟨hle, a, hle', hlt', hadmissible, hsame⟩ := hall p' hp' hq'
  refine ⟨hle, ?_⟩
  rcases (hle.trans hle').lt_or_eq with hlater | heq
  · exact hbefore a hlater hlt' _ (may_of_admissible hid hcorrect hadmissible)
  · exact hsame heq.symm

/-- What a correct replica has pre-prepared in a later view has the digest. -/
theorem truthful_of_chosen
    {S : Dict ℤ ViewChange} {x : ℤ × String}
    (horderly : ∀ j, w.Orderly D acrossViewsDefects j)
    (hw : ∀ j, w.Reporting D j)
    (hbefore : ∀ u', v < u' → u' < u → ∀ d', May D w q u' d' → d' = d)
    (hS : ∀ k vc, S.get? k = some vc →
      vc.view = u ∧ vc.senderID = k ∧ w.Genuine D (.viewChange vc))
    (hcorrect : D.IsCorrect j)
    (hx : x ∈ (reportOf S q j).prePrepared)
    (hlt : v < x.1) :
    x.2 = d := by
  unfold reportOf at hx
  split at hx
  case h_2 => cases hx
  case h_1 vc hvc =>
    obtain ⟨rfl, hsender, hgenuine⟩ := hS j vc hvc
    have hid := (horderly j).id
    have hsent : (w j).HasSent (.viewChange vc) := by
      rw [← hsender] at hcorrect ⊢
      exact hgenuine.2 hcorrect
    obtain ⟨p, hp, rfl, rfl⟩ := ViewChange.mem_report.mp hx
    obtain ⟨a, hle, hlt', hadmissible⟩ := ((hw j).truthful hcorrect).reports vc hsent
      (hsender.trans hid.symm) p (Or.inr hp)
    exact hbefore a (lt_of_lt_of_le hlt hle) hlt' _ (may_of_admissible hid hcorrect hadmissible)

/-- A set with more members than there are faulty replicas. -/
theorem exists_correct_of_weak
    {Q : Finset ℤ}
    (hQ : ∀ j ∈ Q, D.IsReplica j)
    (hcard : weakSize D.f ≤ Q.card) :
    ∃ j ∈ Q, D.IsCorrect j := by
  unfold weakSize at hcard
  have hle := D.faulty_le
  have hbig : D.faulty.card < Q.card := by omega
  obtain ⟨j, hj, hcorrect⟩ := exists_correct_of_card_lt hbig
  exact ⟨j, hj, hQ j hj, hcorrect⟩

/-- Only the chosen digest may be accepted in a later view. -/
theorem eq_of_may
    {Q : Finset ℤ}
    (horderly : ∀ j, w.Orderly D acrossViewsDefects j)
    (hw : ∀ j, w.Reporting D j)
    (hchosen : Chosen D w v q d Q)
    (hu : v < u)
    (hmay : May D w q u d') :
    d' = d := by
  obtain ⟨k, hk, -, hcorrect⟩ := D.exists_correct_inter hchosen.replicas hchosen.replicas
    hchosen.quorum hchosen.quorum
  have hcommit := hchosen.commits k hk hcorrect
  obtain ⟨hv, hnull, -⟩ := ((hw k).truthful hcorrect).commits v q d (by
    rw [(horderly k).id]
    exact hcommit)
  refine Report.eq_of_later ?_ hu hmay
  intro u hu hbefore d' hmay
  rcases hmay with hzero | ⟨S, hsize, hS, hpermits⟩
  · omega
  -- The senders of the messages that satisfy a condition.
  have hreplica : ∀ p, ∀ k ∈ S.keysWhere p, D.IsReplica k := by
    intro p k hk
    obtain ⟨vc, hvc, -⟩ := Dict.mem_keysWhere.mp hk
    obtain ⟨-, rfl, hgenuine⟩ := hS k vc hvc
    exact hgenuine.1
  have hcovers : ∀ p, ∀ k ∈ S.keysWhere p, k ∈ Q → D.IsCorrect k →
      (reportOf S q k).Covers v d := by
    intro p k hk hkQ hcorrect
    obtain ⟨vc, hvc, -⟩ := Dict.mem_keysWhere.mp hk
    exact covers_of_chosen horderly hw hchosen hu hbefore hS hkQ hcorrect ⟨vc, hvc⟩
  let IsQuorum (A : Finset ℤ) : Prop := quorumSize D.f ≤ A.card ∧ ∀ j ∈ A, D.IsReplica j
  have hinter : ∀ A B, IsQuorum A → IsQuorum B → ∃ i ∈ A, i ∈ B ∧ D.IsCorrect i :=
    fun A B hA hB => D.exists_correct_inter hA.2 hB.2 hA.1 hB.1
  let IsWeak (A : Finset ℤ) : Prop := weakSize D.f ≤ A.card ∧ ∀ j ∈ A, D.IsReplica j
  have hweak : ∀ A, IsWeak A → ∃ i ∈ A, D.IsCorrect i :=
    fun A hA => exists_correct_of_weak hA.2 hA.1
  have hQ : IsQuorum Q := ⟨hchosen.quorum, hchosen.replicas⟩
  rcases hpermits with ⟨m, hm, p, hp, hA, hdigest⟩ | hB
  · unfold conditionA at hA
    rw [Bool.and_eq_true, decide_eq_true_iff, decide_eq_true_iff, ← Dict.card_keysWhere,
      ← Dict.card_keysWhere] at hA
    have hsupports : ∀ k ∈ S.keysWhere (ViewChange.supports q p),
        (reportOf S q k).Supports p.view p.digest := by
      intro k hk
      obtain ⟨vc, hvc, hsupports⟩ := Dict.mem_keysWhere.mp hk
      rw [reportOf_eq hvc]
      exact ViewChange.supports_iff.mp hsupports
    have hvouches : ∀ k ∈ S.keysWhere (ViewChange.vouches q p),
        (reportOf S q k).Vouches p.view p.digest := by
      intro k hk
      obtain ⟨vc, hvc, hvouches⟩ := Dict.mem_keysWhere.mp hk
      rw [reportOf_eq hvc]
      exact ViewChange.vouches_iff.mp hvouches
    have heq : p.digest = d := Report.eq_of_supports hinter hweak hQ (hcovers _)
      (fun k _ hcorrect x hx hlt => truthful_of_chosen horderly hw hbefore hS hcorrect hx hlt)
      ⟨hA.1, hreplica _⟩ hsupports ⟨hA.2, hreplica _⟩ hvouches
    rcases hdigest with hdigest | hdigest
    · exact hdigest.symm.trans heq
    · exact absurd (heq.symm.trans hdigest) hnull
  · unfold conditionB at hB
    rw [decide_eq_true_iff, ← Dict.card_keysWhere] at hB
    refine absurd ?_ (Report.not_forall_nil hinter hQ (hcovers _) ⟨hB, hreplica _⟩)
    intro k hk
    obtain ⟨vc, hvc, hlacks⟩ := Dict.mem_keysWhere.mp hk
    rw [reportOf_eq hvc]
    exact ViewChange.lacks_iff.mp hlacks

/-- Two chosen digests for a sequence number, the second in a later view. -/
theorem eq_of_chosen
    {Q Q' : Finset ℤ}
    (horderly : ∀ j, w.Orderly D acrossViewsDefects j)
    (hw : ∀ j, w.Reporting D j)
    (hchosen : Chosen D w v q d Q)
    (hchosen' : Chosen D w u q d' Q')
    (hle : v ≤ u) :
    d' = d := by
  obtain ⟨k, hk, hk', hcorrect⟩ := D.exists_correct_inter hchosen.replicas hchosen'.replicas
    hchosen.quorum hchosen'.quorum
  have hid := (horderly k).id
  have hcommit := hchosen.commits k hk hcorrect
  have hcommit' := hchosen'.commits k hk' hcorrect
  rcases hle.lt_or_eq with hlt | rfl
  · obtain ⟨-, -, hadmissible, -⟩ := ((hw k).truthful hcorrect).commits u q d' (by rwa [hid])
    exact eq_of_may horderly hw hchosen hlt (may_of_admissible hid hcorrect hadmissible)
  · exact ((horderly k).kept hcorrect).certified.unique v q d' d (by rwa [hid]) (by rwa [hid])

/-- Agreement: no two correct nodes commit different digests with one sequence
number. -/
theorem logs_agree
    (hreach : (cluster D).Reachable (Avoiding D acrossViewsDefects) w)
    (hi : D.IsCorrect i)
    (hj : D.IsCorrect j)
    (h : (q, d) ∈ (w i).log)
    (h' : (q, d') ∈ (w j).log) :
    d = d' := by
  have horderly := reachable_orderly (by decide) (by decide) hreach
  have hw := reachable_reporting hreach
  obtain ⟨v, Q, hchosen⟩ := exists_chosen (horderly i) (hw i) hi h
  obtain ⟨u, Q', hchosen'⟩ := exists_chosen (horderly j) (hw j) hj h'
  rcases le_total v u with hle | hle
  · exact (eq_of_chosen horderly hw hchosen hchosen' hle).symm
  · exact eq_of_chosen horderly hw hchosen' hchosen hle

section Runs

/-- The primary of view 1 is faulty. -/
def faultySuccessor : Deployment := oneFaulty 1 (by decide)

/-- Replicas 0, 2 and 3 become prepared for request A in view 0. -/
def prepareA : List (ℤ × Event) :=
  [(0, requests requestA), (2, requests requestA), (3, requests requestA),
    (2, receives 0 (.prePrepare ⟨0, 1, "a", 0, "a"⟩)),
    (3, receives 0 (.prePrepare ⟨0, 1, "a", 0, "a"⟩)),
    (2, receives 3 (.prepare ⟨0, 1, "a", 3⟩)), (3, receives 2 (.prepare ⟨0, 1, "a", 2⟩)),
    (0, receives 2 (.prepare ⟨0, 1, "a", 2⟩)), (0, receives 3 (.prepare ⟨0, 1, "a", 3⟩)),
    (2, receives 0 (.commit ⟨0, 1, "a", 0⟩)), (2, receives 3 (.commit ⟨0, 1, "a", 3⟩))]

/-- Replica 2 commits A and gives up view 0 with replica 3.  Both accept request B
from the primary of view 1 without a NEW-VIEW, and replica 3 commits it. -/
theorem not_logs_agree :
    ∃ w, (cluster faultySuccessor).Reachable System.anyStep w ∧
      faultySuccessor.IsCorrect 2 ∧ faultySuccessor.IsCorrect 3 ∧
        (1, "a") ∈ (w 2).log ∧ (1, "b") ∈ (w 3).log := by
  refine System.exists_reaches_of_exec (prepareA ++
    [(2, requests requestB), (3, requests requestB), (2, step .requestTimeout),
      (3, step .requestTimeout), (2, proposes 1 1 1 requestB), (3, proposes 1 1 1 requestB),
      (3, receives 2 (.prepare ⟨1, 1, "b", 2⟩)), (2, receives 3 (.prepare ⟨1, 1, "b", 3⟩)),
      (3, receives 2 (.commit ⟨1, 1, "b", 2⟩)),
      (3, step (.forge (.commit ⟨1, 1, "b", 1⟩)))]) ?_
  decide +kernel

/-- Replicas 2 and 3 commit A in view 0. -/
theorem logs_agree_faultySuccessor :
    ∃ w, (cluster faultySuccessor).Reachable (Avoiding faultySuccessor acrossViewsDefects) w ∧
      (1, "a") ∈ (w 2).log ∧ (1, "a") ∈ (w 3).log ∧ "a" = "a" := by
  obtain ⟨w, hreach, h2, h3⟩ :
      ∃ w, (cluster faultySuccessor).Reachable (Avoiding faultySuccessor acrossViewsDefects) w ∧
        (1, "a") ∈ (w 2).log ∧ (1, "a") ∈ (w 3).log := by
    refine System.exists_reaches_of_exec (prepareA ++
      [(3, receives 0 (.commit ⟨0, 1, "a", 0⟩)), (3, receives 2 (.commit ⟨0, 1, "a", 2⟩))]) ?_
    decide +kernel
  exact ⟨w, hreach, h2, h3, logs_agree hreach (by decide) (by decide) h2 h3⟩

end Runs

end Cluster

end PbftSimulator
end DistributedConsensus
