import DistributedConsensus.Tendermint.Agreement
import DistributedConsensus.Tendermint.Proposers

/-!
# Tendermint: one precommitted value in a round

`validate` admits every total power above 3f, and with a total power above
3f+1 two quorums of power 2f+1 need not share a correct node.  A proposer that
sends two proposals can then have both of them precommitted.

In one round at most one value gets a quorum of precommits when any two quorums
share a correct node, or when the Byzantine nodes have no voting power: then
the proposer of the round is correct, and a correct node precommits only the
value that it has proposed.
-/

namespace DistributedConsensus
namespace Tendermint

open Foundations

variable {cfg : SimConfig} {hash : String → String}

namespace Node

variable {P P' : Message → Prop} {n n' : Node}

/-- The message is a proposal of the value id by the proposer of the round. -/
def Proposes (cfg : SimConfig) (hash : String → String) (h r : ℤ) (x : String) (p : Message) :
    Prop :=
  p.type = .proposal ∧ p.height = h ∧ p.round = r ∧ p.sender = cfg.proposer h r ∧
    valueId hash p.value = some x

/-- The heights are not negative, and every precommitted value was proposed in
a message with the property `P`. -/
structure Backed (cfg : SimConfig) (hash : String → String) (P : Message → Prop) (n : Node) :
    Prop where
  nonneg : 0 ≤ n.h
  sent_nonneg : ∀ m ∈ n.sent, 0 ≤ m.height
  proposed : ∀ m ∈ n.sent, ∀ x, m.Precommits x →
    ∃ p, P p ∧ Proposes cfg hash m.height m.round x p

namespace Backed

theorem mono
    (hsub : ∀ m, P m → P' m)
    (hn : Backed cfg hash P n) :
    Backed cfg hash P' n where
  nonneg := hn.nonneg
  sent_nonneg := hn.sent_nonneg
  proposed := by
    intro m hm x hx
    obtain ⟨p, hp, hproposes⟩ := hn.proposed m hm x hx
    exact ⟨p, hsub p hp, hproposes⟩

/-- New messages that are backed as well. -/
theorem extend
    (hn : Backed cfg hash P n)
    (hh : n.h ≤ n'.h)
    (hsent : ∀ m ∈ n'.sent, m ∈ n.sent ∨ m.height = n'.h ∧
      ∀ x, m.Precommits x → ∃ p, P p ∧ Proposes cfg hash m.height m.round x p) :
    Backed cfg hash P n' := by
  have hnonneg := hn.nonneg
  constructor
  · omega
  · intro m hm
    rcases hsent m hm with hold | ⟨hheight, -⟩
    · exact hn.sent_nonneg m hold
    · omega
  · intro m hm x hx
    rcases hsent m hm with hold | ⟨-, hproposed⟩
    · exact hn.proposed m hold x hx
    · exact hproposed x hx

/-- A message of the current height that does not precommit a value. -/
theorem broadcast
    {t : MessageType} {value vid : Option String} {vr : ℤ} {s : Step}
    (hn : Backed cfg hash P n)
    (hvote : t ≠ .precommit ∨ vid = none) :
    Backed cfg hash P { n.broadcast t value vid vr with step := s } := by
  refine hn.extend (le_refl _) ?_
  intro m hm
  simp only [Node.broadcast, List.mem_append, List.mem_singleton] at hm
  rcases hm with hold | rfl
  · exact Or.inl hold
  · refine Or.inr ⟨rfl, ?_⟩
    rintro x ⟨ht, hx⟩
    rcases hvote with hne | hnil
    · exact absurd ht hne
    · change vid = some x at hx
      rw [hnil] at hx
      cases hx

theorem acts
    (hlog : ∀ m ∈ n.messageLog, P m)
    (hact : Acts cfg hash n n')
    (hn : Backed cfg hash P n) :
    Backed cfg hash P n' := by
  cases hact with
  | quiet hq =>
      refine hn.extend (le_of_eq hq.h.symm) ?_
      rw [hq.sent]
      exact fun m hm => Or.inl hm
  | prevoteNil => exact hn.broadcast (Or.inr rfl)
  | prevote => exact hn.broadcast (Or.inl (by decide))
  | precommitNil => exact hn.broadcast (Or.inr rfl)
  | @precommit v _ hproposed _ =>
      obtain ⟨p, hfind, hv⟩ := hproposed
      have hfound := List.find?_some hfind
      simp only [decide_eq_true_eq] at hfound
      obtain ⟨ht, hh, hr, hs⟩ := hfound
      refine hn.extend (le_refl _) ?_
      intro m hm
      simp only [Node.lock, sendPrecommit, Node.broadcast, List.mem_append,
        List.mem_singleton] at hm
      rcases hm with hold | rfl
      · exact Or.inl hold
      · refine Or.inr ⟨rfl, ?_⟩
        rintro x ⟨-, hx⟩
        obtain rfl := Option.some.inj hx
        exact ⟨p, hlog p (List.mem_of_find?_eq_some hfind), ht, hh, hr, hs, by rw [hv]; rfl⟩
  | @enter r _ =>
      have hh := (startRound_frame cfg hash n r).2.1
      refine hn.extend (le_of_eq hh.symm) ?_
      intro m hm
      rcases startRound_sent hm with hold | ⟨ht, hheight⟩
      · exact Or.inl hold
      · refine Or.inr ⟨hheight.trans hh.symm, ?_⟩
        rintro x ⟨hprecommit, -⟩
        rw [ht] at hprecommit
        cases hprecommit
  | @decide v _ =>
      have hh := (decideValue_frame cfg hash n (some v)).2.1
      refine hn.extend (by omega) ?_
      intro m hm
      rcases decideValue_sent hm with hold | ⟨ht, hheight⟩
      · exact Or.inl hold
      · refine Or.inr ⟨hheight.trans hh.symm, ?_⟩
        rintro x ⟨hprecommit, -⟩
        rw [ht] at hprecommit
        cases hprecommit

end Backed

theorem backed_new (i : ℕ) :
    Backed cfg hash P ((Node.new i).startRound cfg hash 0) := by
  have hnew : Backed cfg hash P (Node.new i) := by
    constructor
    · exact le_refl _
    all_goals
      intro m hm
      cases hm
  have hlog : ∀ m ∈ ({ Node.new i with round := -1 } : Node).messageLog, P m := by
    intro m hm
    cases hm
  have hbefore : Backed cfg hash P { Node.new i with round := -1 } :=
    ⟨hnew.nonneg, hnew.sent_nonneg, hnew.proposed⟩
  exact hbefore.acts hlog (Acts.enter (r := 0) neg_one_lt_zero)

end Node

namespace Cluster

variable {w : Cluster} {h r : ℤ} {x y : String}

/-- The value id gets PRECOMMIT messages from senders with the power of a
quorum. -/
def Precommitted (cfg : SimConfig) (w : Cluster) (h r : ℤ) (x : String) : Prop :=
  ∃ log : List Message, (∀ m ∈ log, w.Genuine cfg m) ∧
    hasQuorum cfg log .precommit h r (some (some x)) = true

/-- Every precommitted value was proposed by the proposer of the round. -/
theorem reachable_backed
    (hreach : (cluster cfg hash).Reachable System.anyStep w) :
    ∀ i, cfg.IsCorrect i → (w i).Backed cfg hash (w.Genuine cfg) := by
  refine (reachable_invariant (I := fun w n => n.Backed cfg hash (w.Genuine cfg))
    ?_ ?_ ?_ ?_ hreach).2
  · exact fun w i _ => Node.backed_new i
  · exact fun w w' n hext hn => hn.mono fun m hm => hm.mono hext
  · exact fun w n l hn => ⟨hn.nonneg, hn.sent_nonneg, hn.proposed⟩
  · exact fun w n n' _ hlog hn hact => hn.acts hlog hact

/-- A value precommitted by a quorum with correct power was proposed. -/
theorem exists_proposal
    (hvalidate : cfg.validate = true)
    (hreach : (cluster cfg hash).Reachable System.anyStep w)
    (hbyz : ∀ i ∈ cfg.byzantine, cfg.powerOf i = 0)
    (hx : w.Precommitted cfg h r x) :
    0 ≤ h ∧ 0 ≤ r ∧ ∃ p, w.Genuine cfg p ∧ Node.Proposes cfg hash h r x p := by
  obtain ⟨hsound, hnodes⟩ := reachable_voting hvalidate hreach
  obtain ⟨log, hlog, hquorum⟩ := hx
  obtain ⟨Q, hQ, hvotes⟩ := hsound.voted hvalidate hlog hquorum
  obtain ⟨i, hi, hpos⟩ := hQ.exists_pos hvalidate
  have hcorrect : i ∉ cfg.byzantine := by
    intro hmem
    have hzero := hbyz i hmem
    omega
  obtain ⟨m, hm, ht, rfl, rfl, hid⟩ := hvotes i hi hcorrect
  have hi' := hsound.isCorrect hm
  have hbacked := reachable_backed hreach i hi'
  exact ⟨hbacked.sent_nonneg m hm, (hnodes i hi').1.round_nonneg m hm,
    hbacked.proposed m hm x ⟨ht, hid⟩⟩

/-- In one height and round at most one value id gets a quorum of precommits,
when any two quorums share a correct node or the Byzantine nodes have no voting
power. -/
theorem precommits_agree
    (hvalidate : cfg.validate = true)
    (hcond : cfg.QuorumsIntersect ∨ ∀ i ∈ cfg.byzantine, cfg.powerOf i = 0)
    (hreach : (cluster cfg hash).Reachable System.anyStep w)
    (hx : w.Precommitted cfg h r x)
    (hy : w.Precommitted cfg h r y) :
    x = y := by
  obtain ⟨hsound, hnodes⟩ := reachable_voting hvalidate hreach
  rcases hcond with hinter | hbyz
  · have hvoting : ∀ i, cfg.IsCorrect i → (w i).Voting hash (w.Voted cfg .prevote) :=
      fun i hi => (hnodes i hi).1
    have hrecord := record_sound hinter hsound hvoting h
    obtain ⟨log, hlog, hquorum⟩ := hx
    obtain ⟨log', hlog', hquorum'⟩ := hy
    exact hrecord.precommitted_unique_round (hsound.voted hvalidate hlog hquorum)
      (hsound.voted hvalidate hlog' hquorum')
  · -- The proposer is correct, so both values come from its one proposal.
    obtain ⟨hh, hr, p, hp, ht, hph, hpr, hps, hpx⟩ := exists_proposal hvalidate hreach hbyz hx
    obtain ⟨-, -, q, hq, ht', hqh, hqr, hqs, hqy⟩ := exists_proposal hvalidate hreach hbyz hy
    have hpower := cfg.powerOf_proposer_pos hvalidate hh hr
    have hcorrect : cfg.proposer h r ∉ cfg.byzantine := by
      intro hmem
      have hzero := hbyz _ hmem
      omega
    have hsent : p ∈ (w (cfg.proposer h r)).sent := by
      rw [← hps] at hcorrect ⊢
      exact hp.resolve_left hcorrect
    have hsent' : q ∈ (w (cfg.proposer h r)).sent := by
      rw [← hqs] at hcorrect ⊢
      exact hq.resolve_left hcorrect
    have honce := (hnodes _ (hsound.isCorrect hsent)).1.once p hsent q hsent'
      (ht.trans ht'.symm) (hph.trans hqh.symm) (hpr.trans hqr.symm)
    rw [honce, hqy] at hpx
    exact (Option.some.inj hpx).symm

theorem precommits_agree_fourNodes :
    ∃ w, (cluster fourNodes id).Reachable System.anyStep w ∧ w.Precommitted fourNodes 0 0 "A" ∧
      ∀ y, w.Precommitted fourNodes 0 0 y → "A" = y := by
  obtain ⟨w, hreach, hsent⟩ : ∃ w, (cluster fourNodes id).Reachable System.anyStep w ∧
      ∀ i ∈ [1, 2, 3], (⟨.precommit, 0, 0, i, none, some "A", -1⟩ : Message) ∈ (w i).sent := by
    refine System.exists_reaches_of_exec fourNodesRun ?_
    decide +kernel
  have hx : w.Precommitted fourNodes 0 0 "A" := by
    refine ⟨[1, 2, 3].map fun i => ⟨.precommit, 0, 0, i, none, some "A", -1⟩, ?_, by decide⟩
    intro m hm
    obtain ⟨i, hi, rfl⟩ := List.mem_map.mp hm
    exact Or.inr (hsent i hi)
  have hinter : fourNodes.QuorumsIntersect :=
    SimConfig.quorumsIntersect_of_totalPower (by decide) (by decide)
  exact ⟨w, hreach, hx, fun y hy => precommits_agree (by decide) (Or.inl hinter) hreach hx hy⟩

section Split

/-- Seven nodes of which node 0, the proposer of the first round, is Byzantine,
with `f = 1`: a quorum has three nodes. -/
def sevenNodes : SimConfig := ⟨7, 1, 1, [], [], [0]⟩

/-- Node 0 proposes A to the nodes 1, 2, 3 and B to the nodes 4, 5, 6. -/
def splitRun : List Iteration :=
  let proposal (v : String) : Message := ⟨.proposal, 0, 0, 0, some v, some v, -1⟩
  let prevotes (ids : List ℕ) (v : String) : List Message :=
    ids.map fun i => ⟨.prevote, 0, 0, i, none, some v, -1⟩
  let iteration (received : List Message) (i : ℕ) : Iteration :=
    ⟨i, received, fun _ => false, fun _ _ => 0⟩
  [1, 2, 3].map (iteration [proposal "A"]) ++ [4, 5, 6].map (iteration [proposal "B"]) ++
    [1, 2, 3].map (iteration (prevotes [1, 2, 3] "A")) ++
    [4, 5, 6].map (iteration (prevotes [4, 5, 6] "B"))

/-- An accepted configuration with a run in which two values get a quorum of
precommits in one round. -/
theorem precommitted_split :
    sevenNodes.validate = true ∧ ∃ w, (cluster sevenNodes id).Reachable System.anyStep w ∧
      w.Precommitted sevenNodes 0 0 "A" ∧ w.Precommitted sevenNodes 0 0 "B" := by
  obtain ⟨w, hreach, hA, hB⟩ : ∃ w, (cluster sevenNodes id).Reachable System.anyStep w ∧
      (∀ i ∈ [1, 2, 3], (⟨.precommit, 0, 0, i, none, some "A", -1⟩ : Message) ∈ (w i).sent) ∧
      (∀ i ∈ [4, 5, 6], (⟨.precommit, 0, 0, i, none, some "B", -1⟩ : Message) ∈ (w i).sent) := by
    refine System.exists_reaches_of_exec splitRun ?_
    decide +kernel
  refine ⟨by decide, w, hreach,
    ⟨[1, 2, 3].map fun i => ⟨.precommit, 0, 0, i, none, some "A", -1⟩, ?_, by decide⟩,
    ⟨[4, 5, 6].map fun i => ⟨.precommit, 0, 0, i, none, some "B", -1⟩, ?_, by decide⟩⟩
  · intro m hm
    obtain ⟨i, hi, rfl⟩ := List.mem_map.mp hm
    exact Or.inr (hA i hi)
  · intro m hm
    obtain ⟨i, hi, rfl⟩ := List.mem_map.mp hm
    exact Or.inr (hB i hi)

end Split

end Cluster

end Tendermint
end DistributedConsensus
