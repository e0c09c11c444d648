import DistributedConsensus.PbftSimulator.InView

/-!
# PBFT simulator: agreement on prepared certificates

Two sets of `2f` PREPAREs of backups share a correct node when the primary is
faulty; when it is correct, each has one, and the primary has proposed one digest.
-/

namespace DistributedConsensus
namespace PbftSimulator

open Foundations

namespace Cluster

variable {D : Deployment} {L : List Defect} {w w' : Cluster} {i j v q : ℤ} {d : String} {e : Event}

/-- The missing checks that prepared certificates depend on. -/
def inViewDefects : List Defect := [.primaryVote, .contradiction, .regress]

/-- A quorum of VIEW-CHANGE messages for a view has one of a correct node. -/
theorem one_le_view_of_supports
    {n : Node} {S : Dict ℤ ViewChange} {m : NewView}
    (hw : ∀ j, w.Orderly D L j)
    (hn : D.IsCorrect n.id)
    (hauthentic : n.Authentic (w.Genuine D))
    (hforward : n.Forward)
    (h : n.Supports D.config S m) :
    1 ≤ m.view := by
  let Q := S.keysWhere fun _ => true
  have hreplica : ∀ k ∈ Q, D.IsReplica k := by
    intro k hk
    obtain ⟨vc, hvc, -⟩ := Dict.mem_keysWhere.mp hk
    obtain ⟨-, rfl, hknown⟩ := hauthentic.stored _ _ _ (h.stored k vc hvc)
    rcases hknown with hgenuine | ⟨hself, -⟩
    · exact hgenuine.1
    · change vc.senderID = n.id at hself
      rw [hself]
      exact hn.1
  have hcard : quorumSize D.f ≤ Q.card := by
    have hsize := h.quorum
    rwa [Dict.card_keysWhere, List.countP_true, Dict.length_values]
  obtain ⟨k, hk, -, hcorrect⟩ := D.exists_correct_inter hreplica hreplica hcard hcard
  obtain ⟨vc, hvc, -⟩ := Dict.mem_keysWhere.mp hk
  obtain ⟨hview, rfl, hknown⟩ := hauthentic.stored _ _ _ (h.stored k vc hvc)
  rw [← hview]
  rcases hknown with hgenuine | ⟨hself, hsent⟩
  · exact (((hw _).kept hcorrect).forward.viewChanges vc (hgenuine.2 hcorrect)
      (hw _).id.symm).1
  · exact (hforward.viewChanges vc hsent hself).1

/-- The votes and proposals of a correct node in a run that avoids the defects. -/
structure Agreeing (D : Deployment) (w : Cluster) (i : ℤ) : Prop where
  loyal : D.IsCorrect i → Node.Loyal D.config (w.Genuine D) ⟨w i, []⟩
  leader : D.IsCorrect i → (w i).Leader D.config

theorem reachable_agreeing
    (hreach : (cluster D).Reachable (Avoiding D inViewDefects) w) :
    ∀ i, w.Agreeing D i := by
  refine Nodes.reachable_invariant (N := nodes D) (R := Grows)
    (I := fun w i => Cluster.Agreeing D w i) Grows.refl ?_ ?_ ?_ hreach
  · exact fun i => ⟨fun _ => Node.loyal_new i _, fun _ => Node.leader_new i _⟩
  · intro w i e hreach hw havoids henabled
    have hsound := reachable_sound (Or.inr (by decide)) hreach
    have horderly := reachable_orderly (by decide) (by decide) hreach
    have hruns := handle_runs hsound havoids henabled
    have hcorrect := Enabled.isCorrect henabled
    refine ⟨⟨hruns.id, hruns.sent⟩, fun hext => ?_⟩
    have hboth := ((horderly i).kept hcorrect).loyal_runs (by decide) (by decide) (by decide)
      (receivable hsound henabled) ?_ hruns ((hw i).loyal hcorrect) ((hw i).leader hcorrect)
    · refine ⟨fun _ => ?_, fun _ => ?_⟩
      · rw [Function.update_self]
        exact hboth.1.imp fun m => Genuine.mono hext
      · rw [Function.update_self]
        exact hboth.2
    · intro n' hid hauthentic hforward S m hsupports
      refine one_le_view_of_supports horderly ?_ hauthentic hforward hsupports
      rw [hid]
      change D.IsCorrect (w i).id
      rw [(horderly i).id]
      exact hcorrect
  · intro w w' i hext hsame hi
    refine ⟨fun hcorrect => ?_, fun hcorrect => ?_⟩
    · rw [hsame]
      exact (hi.loyal hcorrect).imp fun m => Genuine.mono hext
    · rw [hsame]
      exact hi.leader hcorrect

/-- The PREPAREs behind a COMMIT: `2f` backups, and the correct ones have voted. -/
theorem exists_voters
    (horderly : w.Orderly D inViewDefects i)
    (hw : w.Agreeing D i)
    (hi : D.IsCorrect i)
    (h : (w i).HasSent (.commit ⟨v, q, d, i⟩)) :
    ∃ Q : Finset ℤ, 2 * D.f ≤ Q.card ∧ (∀ j ∈ Q, D.IsReplica j ∧ j ≠ Node.primary D.config v) ∧
      ∀ j ∈ Q, D.IsCorrect j → (w j).HasSent (.prepare ⟨v, q, d, j⟩) := by
  have hkept := horderly.kept hi
  have hgenuine : ∀ j ∈ (w i).prepareVotes.getD (q, v, d) ∅,
      w.Genuine D (.prepare ⟨v, q, d, j⟩) := fun j hj =>
    Genuine.of_known horderly.id hi (hkept.authentic.prepares q v d j hj)
  refine ⟨(w i).prepareVotes.getD (q, v, d) ∅, ?_, ?_, ?_⟩
  · exact (hkept.certified.votes v q d (by rw [horderly.id]; exact h)).2
  · exact fun j hj => ⟨(hgenuine j hj).1, (hw.loyal hi).voters q v d j hj⟩
  · exact fun j hj hcorrect => (hgenuine j hj).2 hcorrect

theorem endorsed_of_sent
    (hid : (w j).id = j)
    (h : (w j).HasSent (.prepare ⟨v, q, d, j⟩)) :
    (w j).Endorsed v q d := by
  refine Or.inl ?_
  rw [hid]
  exact h

/-- A correct primary has proposed what a correct backup has voted for. -/
theorem hasProposed_of_sent
    (horderly : w.Orderly D inViewDefects j)
    (hw : w.Agreeing D j)
    (hj : D.IsCorrect j)
    (hprimary : Node.primary D.config v ∉ D.faulty)
    (h : (w j).HasSent (.prepare ⟨v, q, d, j⟩)) :
    D.IsCorrect (Node.primary D.config v) ∧
      (w (Node.primary D.config v)).HasProposed v q d := by
  obtain ⟨m, hknown, hsender, hproposes⟩ :=
    (hw.loyal hj).proposed v q d (endorsed_of_sent horderly.id h)
  have hgenuine := Genuine.of_known horderly.id hj hknown
  rw [← hsender] at hprimary ⊢
  have hcorrect : D.IsCorrect m.senderID := ⟨hgenuine.1, hprimary⟩
  exact ⟨hcorrect, m, hgenuine.2 hcorrect, hproposes⟩

/-- Two sets of `2f` backups of a faulty primary share a correct node. -/
theorem exists_correct_backup
    {Q Q' : Finset ℤ} {p : ℤ}
    (hf : 1 ≤ D.f)
    (hp : p ∈ D.faulty)
    (hQ : ∀ j ∈ Q, D.IsReplica j ∧ j ≠ p)
    (hQ' : ∀ j ∈ Q', D.IsReplica j ∧ j ≠ p)
    (hcard : 2 * D.f ≤ Q.card)
    (hcard' : 2 * D.f ≤ Q'.card) :
    ∃ j ∈ Q, j ∈ Q' ∧ D.IsCorrect j := by
  have hsub : Q ∪ Q' ⊆ (Finset.Ico (0 : ℤ) (3 * D.f + 1)).erase p := by
    intro j hj
    rw [Finset.mem_erase, Finset.mem_Ico]
    exact ((Finset.mem_union.mp hj).elim (hQ j) (hQ' j)).symm
  have hunion := Finset.card_le_card hsub
  rw [Finset.card_erase_of_mem (Finset.mem_Ico.mpr (D.faulty_mem p hp)), Int.card_Ico] at hunion
  have hinter := Finset.card_union_add_card_inter Q Q'
  have hfaulty := Finset.card_erase_add_one hp
  have hle := D.faulty_le
  have hbig : (D.faulty.erase p).card < (Q ∩ Q').card := by omega
  obtain ⟨j, hj, hcorrect⟩ := exists_correct_of_card_lt hbig
  rw [Finset.mem_inter] at hj
  refine ⟨j, hj.1, hj.2, (hQ j hj.1).1, fun hfaulty => hcorrect ?_⟩
  exact Finset.mem_erase.mpr ⟨(hQ j hj.1).2, hfaulty⟩

theorem exists_correct_voter
    {Q : Finset ℤ}
    (hf : 1 ≤ D.f)
    (hQ : ∀ j ∈ Q, D.IsReplica j)
    (hcard : 2 * D.f ≤ Q.card) :
    ∃ j ∈ Q, D.IsCorrect j := by
  have hle := D.faulty_le
  have hbig : D.faulty.card < Q.card := by omega
  obtain ⟨j, hj, hcorrect⟩ := exists_correct_of_card_lt hbig
  exact ⟨j, hj, hQ j hj, hcorrect⟩

/-- Prepared certificates agree: no two correct nodes send COMMITs for different
digests with one view and sequence number. -/
theorem commits_agree
    (hreach : (cluster D).Reachable (Avoiding D inViewDefects) w)
    {d' : String}
    (hi : D.IsCorrect i)
    (hj : D.IsCorrect j)
    (h : (w i).HasSent (.commit ⟨v, q, d, i⟩))
    (h' : (w j).HasSent (.commit ⟨v, q, d', j⟩)) :
    d = d' := by
  have horderly := reachable_orderly (by decide) (by decide) hreach
  have hw := reachable_agreeing hreach
  rcases Nat.eq_zero_or_pos D.f with hf | hf
  · -- There is only one replica.
    have hij : i = j := by
      obtain ⟨⟨hi0, hi1⟩, -⟩ := hi
      obtain ⟨⟨hj0, hj1⟩, -⟩ := hj
      omega
    subst hij
    have hid := (horderly i).id
    exact ((horderly i).kept hi).certified.unique v q d d' (by rwa [hid]) (by rwa [hid])
  obtain ⟨Q, hcard, hQ, hvotes⟩ := exists_voters (horderly i) (hw i) hi h
  obtain ⟨Q', hcard', hQ', hvotes'⟩ := exists_voters (horderly j) (hw j) hj h'
  by_cases hprimary : Node.primary D.config v ∈ D.faulty
  · obtain ⟨k, hk, hk', hcorrect⟩ := exists_correct_backup hf hprimary hQ hQ' hcard hcard'
    exact ((hw k).loyal hcorrect).unique v q d d'
      (endorsed_of_sent (horderly k).id (hvotes k hk hcorrect))
      (endorsed_of_sent (horderly k).id (hvotes' k hk' hcorrect))
  · obtain ⟨k, hk, hcorrect⟩ := exists_correct_voter hf (fun k hk => (hQ k hk).1) hcard
    obtain ⟨k', hk', hcorrect'⟩ := exists_correct_voter hf (fun k hk => (hQ' k hk).1) hcard'
    obtain ⟨hp, hproposed⟩ := hasProposed_of_sent (horderly k) (hw k) hcorrect hprimary
      (hvotes k hk hcorrect)
    obtain ⟨-, hproposed'⟩ := hasProposed_of_sent (horderly k') (hw k') hcorrect' hprimary
      (hvotes' k' hk' hcorrect')
    exact ((hw _).leader hp).unique v q d d' hproposed hproposed'

section Runs

/-- Four replicas of which one is faulty. -/
def oneFaulty (j : ℤ) (h : 0 ≤ j ∧ j < 4) : Deployment where
  f := 1
  faulty := {j}
  clients := {100}
  faulty_mem := by
    intro k hk
    rw [Finset.mem_singleton.mp hk]
    exact h
  faulty_le := (Finset.card_singleton j).le

def step (input : Input) : Event := ⟨input, fun _ => .insertion⟩

def requestA : Request := ⟨100, "a", "a", 1⟩

def requestB : Request := ⟨100, "b", "b", 2⟩

/-- The node receives a request of a client. -/
def requests (r : Request) : Event := step (.request r)

/-- The node receives a PRE-PREPARE of a faulty primary. -/
def proposes (j v q : ℤ) (r : Request) : Event :=
  step (.forge (.prePrepare ⟨v, q, r.digest, j, r.payload⟩))

/-- The node receives a PREPARE of a faulty node. -/
def forgesPrepare (j v q : ℤ) (d : String) : Event := step (.forge (.prepare ⟨v, q, d, j⟩))

/-- The node receives a message that a correct node has sent to all others. -/
def receives (j : ℤ) (m : Message) : Event := step (.deliver j ⟨Node.peers ⟨4, 1⟩ j, m⟩)

/-- The primary of view 0 is faulty. -/
def faultyPrimary : Deployment := oneFaulty 0 (by decide)

/-- The primary sends different proposals to replicas 1 and 2, and to each of them
a PREPARE for its own. -/
theorem not_commits_agree :
    ∃ w, (cluster faultyPrimary).Reachable System.anyStep w ∧
      faultyPrimary.IsCorrect 1 ∧ faultyPrimary.IsCorrect 2 ∧
        (w 1).HasSent (.commit ⟨0, 1, "a", 1⟩) ∧ (w 2).HasSent (.commit ⟨0, 1, "b", 2⟩) := by
  refine System.exists_reaches_of_exec
    [(1, requests requestA), (2, requests requestB), (1, proposes 0 0 1 requestA),
      (2, proposes 0 0 1 requestB), (1, forgesPrepare 0 0 1 "a"),
      (2, forgesPrepare 0 0 1 "b")] ?_
  decide +kernel

/-- Replicas 1 and 2 become prepared with each other's PREPAREs. -/
theorem commits_agree_faultyPrimary :
    ∃ w, (cluster faultyPrimary).Reachable (Avoiding faultyPrimary inViewDefects) w ∧
      (w 1).HasSent (.commit ⟨0, 1, "a", 1⟩) ∧ (w 2).HasSent (.commit ⟨0, 1, "a", 2⟩) ∧
        "a" = "a" := by
  obtain ⟨w, hreach, h1, h2⟩ :
      ∃ w, (cluster faultyPrimary).Reachable (Avoiding faultyPrimary inViewDefects) w ∧
        (w 1).HasSent (.commit ⟨0, 1, "a", 1⟩) ∧ (w 2).HasSent (.commit ⟨0, 1, "a", 2⟩) := by
    refine System.exists_reaches_of_exec
      [(1, requests requestA), (2, requests requestA), (1, proposes 0 0 1 requestA),
        (2, proposes 0 0 1 requestA), (1, receives 2 (.prepare ⟨0, 1, "a", 2⟩)),
        (2, receives 1 (.prepare ⟨0, 1, "a", 1⟩))] ?_
    decide +kernel
  exact ⟨w, hreach, h1, h2, commits_agree hreach (by decide) (by decide) h1 h2⟩

end Runs

end Cluster

end PbftSimulator
end DistributedConsensus
