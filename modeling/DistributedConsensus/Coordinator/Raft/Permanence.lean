import DistributedConsensus.Coordinator.Raft.Safety

/-!
# Raft: committed entries are permanent

What one node has committed is kept by the cluster: along every further run, through
elections, crashes and conflicting leaders, a majority of the logs begins with it, every
node that commits as far has committed the same entries, and so does the log of every
leader whose term is not behind the terms that were reached when the entry was committed
(`committed_entries_survive`).

A leader of an older term that has not noticed its successors may lack the entry, so the
last condition cannot be dropped.
-/

namespace DistributedConsensus
namespace Raft

open Foundations
open Foundations.ReplicatedLog

variable {ι : Type} [Fintype ι] [DecidableEq ι] {M : Membership ι} {w w' : World ι}
  {a : History ι} {T : Nat} {m : List RaftLogEntry}

/-- A chosen log stays chosen along a run. -/
theorem exists_linked_chosen
    (hinv : Inv RaftLogEntry.term a)
    (hperm : Permanent RaftLogEntry.term a)
    (hlinked : Linked w a)
    (hchosen : Chosen RaftLogEntry.term a T m)
    (hrun : (cluster M).Reaches AppendsAsLeader w w') :
    ∃ a', Inv RaftLogEntry.term a' ∧ Permanent RaftLogEntry.term a' ∧ Linked w' a' ∧
      Chosen RaftLogEntry.term a' T m := by
  induction hrun with
  | refl => exact ⟨a, hinv, hperm, hlinked, hchosen⟩
  | tail _ hok hstep ih =>
      obtain ⟨a₁, hinv₁, hperm₁, hlinked₁, hchosen₁⟩ := ih
      obtain ⟨i, a₂, hacts, hlinked₂⟩ := hlinked₁.step hinv₁ hok hstep
      exact ⟨a₂, hacts.inv hinv₁, hacts.permanent hinv₁ hperm₁, hlinked₂,
        hchosen₁.mono hacts.isLocal⟩

omit [DecidableEq ι] in
/-- A log that is committed far enough begins with a chosen log's initial part. -/
theorem NodeLinked.isPrefix_of_committed
    {j : ι} {n : Node ι} {l : List RaftLogEntry}
    (hinv : Inv RaftLogEntry.term a)
    (hperm : Permanent RaftLogEntry.term a)
    (h : NodeLinked a j n)
    (hchosen : Chosen RaftLogEntry.term a T m)
    (hl : l <+: m)
    (hlength : l.length ≤ n.commitIndex) :
    l <+: n.logStore.entries := by
  have htake : n.logStore.entries.take n.commitIndex <+: n.logStore.entries :=
    List.take_prefix _ _
  have hconfirmed : Confirmed RaftLogEntry.term a l := Or.inr ⟨T, m, hchosen, hl⟩
  rcases hconfirmed.comparable hinv hperm h.confirmed with hpre | hpre
  · exact hpre.trans htake
  · -- both have the length of the commit index
    have hsame : (n.logStore.entries.take n.commitIndex).length = l.length := by
      refine le_antisymm hpre.length_le ?_
      rw [List.length_take_of_le h.commit_le]
      exact hlength
    rw [← hpre.eq_of_length hsame]
    exact htake

/-- A leader that is not older than a chosen log has it. -/
theorem NodeLinked.isPrefix_of_leader
    {j : ι} {n : Node ι}
    (hinv : Inv RaftLogEntry.term a)
    (hperm : Permanent RaftLogEntry.term a)
    (h : NodeLinked a j n)
    (hchosen : Chosen RaftLogEntry.term a T m)
    (hrole : n.role = .leader)
    (hterm : T ≤ n.currentTerm) :
    m <+: n.logStore.entries := by
  have hlead := h.leader hrole
  rw [← h.log]
  rcases hterm.lt_or_eq with hlt | heq
  · exact (hchosen.carried hperm).leaders j _ _ hlead hlt
  · -- the leader of the term of the chosen log is the node itself
    obtain ⟨⟨-, -, c, hc⟩, -⟩ := hchosen
    rw [heq] at hc
    obtain rfl := hinv.lead_unique hc hlead
    exact hinv.lead_log c _ m hc h.term

/-- **Committed entries survive.**  What a node has committed is at the beginning of a
majority of the logs in every later state, and at the beginning of the log of every node
that has committed as much or leads a term that is not behind. -/
theorem committed_entries_survive
    {i : ι} {logIndex : Nat}
    (hw : (cluster M).Reachable AppendsAsLeader w)
    (hrun : (cluster M).Reaches AppendsAsLeader w w')
    (hi : logIndex ≤ (w.nodes i).commitIndex) :
    logIndex ≤ (w.nodes i).logStore.entries.length ∧
    (∃ Q : Finset ι, Fintype.card ι < 2 * Q.card ∧ ∀ v ∈ Q,
      (w.nodes i).logStore.entries.take logIndex <+: (w'.nodes v).logStore.entries) ∧
    ∀ j, (logIndex ≤ (w'.nodes j).commitIndex ∨
        (w'.nodes j).role = .leader ∧ ∀ k, (w.nodes k).currentTerm ≤ (w'.nodes j).currentTerm) →
      (w.nodes i).logStore.entries.take logIndex <+: (w'.nodes j).logStore.entries := by
  obtain ⟨a, hinv, hperm, hlinked⟩ := exists_linked hw
  have hle : logIndex ≤ (w.nodes i).logStore.entries.length := hi.trans (hlinked.nodes i).commit_le
  refine ⟨hle, ?_⟩
  have hpart : (w.nodes i).logStore.entries.take logIndex <+:
      (w.nodes i).logStore.entries.take (w.nodes i).commitIndex := List.take_prefix_take_left hi
  rcases (hlinked.nodes i).confirmed with hnil | ⟨T, m, hchosen, hpre⟩
  · rw [hnil, List.prefix_nil] at hpart
    rw [hpart]
    refine ⟨⟨Finset.univ, ?_, fun v _ => List.nil_prefix⟩, fun j _ => List.nil_prefix⟩
    have hpos : 0 < Fintype.card ι := Fintype.card_pos_iff.mpr ⟨i⟩
    rw [Finset.card_univ]
    omega
  · have hl := hpart.trans hpre
    obtain ⟨a', hinv', hperm', hlinked', hchosen'⟩ :=
      exists_linked_chosen hinv hperm hlinked hchosen hrun
    obtain ⟨-, Q, hmaj, hQ⟩ := id hchosen'
    refine ⟨⟨Q, hmaj, fun v hv => ?_⟩, ?_⟩
    · rw [← (hlinked'.nodes v).log]
      exact hl.trans ((hchosen'.carried hperm').supporters v (hQ v hv))
    · rintro j (hcommit | ⟨hrole, hterms⟩)
      · refine (hlinked'.nodes j).isPrefix_of_committed hinv' hperm' hchosen' hl ?_
        rw [List.length_take_of_le hle]
        exact hcommit
      · -- a supporter had reached the term of the chosen log
        obtain ⟨-, Q₀, hmaj₀, hQ₀⟩ := hchosen
        obtain ⟨v, hv, -⟩ := hmaj₀.exists_inter hmaj₀
        have hT := hinv.le_of_supports (hQ₀ v hv)
        rw [(hlinked.nodes v).term] at hT
        exact hl.trans ((hlinked'.nodes j).isPrefix_of_leader hinv' hperm' hchosen' hrole
          (hT.trans (hterms v)))

/-- The leader crashes after its commit, and a node with the entry is elected. -/
def failover : List (Label (Fin 3)) :=
  [.restart 0, .beginElection 1, .requestVotes 1, .handleRequestVote 2 ⟨2, 1, 1, 1⟩,
    .finishElection 1 (fun p => if p = 2 then some ⟨2, true⟩ else none)]

theorem committed_entries_survive_failover :
    ∃ w w' : World (Fin 3), (cluster (fullMesh 3)).Reachable AppendsAsLeader w ∧
      (cluster (fullMesh 3)).Reaches AppendsAsLeader w w' ∧ 1 ≤ (w.nodes 0).commitIndex ∧
      (w'.nodes 1).role = .leader ∧ (w'.nodes 1).currentTerm = 2 ∧
      (w.nodes 0).logStore.entries.take 1 <+: (w'.nodes 1).logStore.entries := by
  have hrun : ∃ w, (cluster (fullMesh 3)).Reaches AppendsAsLeader initialWorld w ∧
      1 ≤ (w.nodes 0).commitIndex ∧ (∀ k, (w.nodes k).currentTerm ≤ 2) ∧
      ((cluster (fullMesh 3)).exec AppendsAsLeader w failover).any (fun w' =>
        decide ((w'.nodes 1).role = .leader ∧ (w'.nodes 1).currentTerm = 2)) = true := by
    refine System.exists_reaches_of_exec commitRun ?_
    decide +kernel
  obtain ⟨w, hw, hcommit, hterms, hafter⟩ := hrun
  obtain ⟨w', hw', hrole, hterm⟩ := System.exists_reaches_of_exec failover hafter
  refine ⟨w, w', hw, hw', hcommit, hrole, hterm, ?_⟩
  refine (committed_entries_survive hw hw' hcommit).2.2 1 (Or.inr ⟨hrole, ?_⟩)
  rw [hterm]
  exact hterms

end Raft
end DistributedConsensus
