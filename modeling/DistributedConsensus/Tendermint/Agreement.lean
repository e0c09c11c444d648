import DistributedConsensus.Tendermint.Cluster
import DistributedConsensus.Tendermint.Voting

/-!
# Tendermint: agreement

What holds in every reachable cluster.  Every message in a log is genuine, so a
quorum in a log is a quorum of votes that correct nodes have sent; every
correct node satisfies its voting invariant with respect to these votes; and
every decision has a quorum of precommits.

When any two quorums share a correct node, the votes of one height are sound in
the sense of `RoundLocks`, and all decisions on a height are equal.
-/

namespace DistributedConsensus
namespace Tendermint

open Foundations

variable {cfg : SimConfig} {hash : String → String}

namespace Cluster

/-- A quorum whose correct members have sent a vote for the value id. -/
def Voted (cfg : SimConfig) (w : Cluster) (t : MessageType) (h r : ℤ) (x : String) : Prop :=
  ∃ Q, cfg.IsQuorum Q ∧ ∀ i ∈ Q, i ∉ cfg.byzantine →
    ∃ m ∈ (w i).sent, m.type = t ∧ m.height = h ∧ m.round = r ∧ m.valueId = some x

/-- Every node of `w'` has sent what it has sent in `w`. -/
def Extends (w w' : Cluster) : Prop := ∀ i, (w i).sent ⊆ (w' i).sent

variable {w w' : Cluster}

theorem Voted.mono
    {t : MessageType} {h r : ℤ} {x : String}
    (hext : w.Extends w')
    (hvoted : w.Voted cfg t h r x) :
    w'.Voted cfg t h r x := by
  obtain ⟨Q, hQ, hvotes⟩ := hvoted
  refine ⟨Q, hQ, fun i hi hc => ?_⟩
  obtain ⟨m, hm, hvote⟩ := hvotes i hi hc
  exact ⟨m, hext i hm, hvote⟩

/-- Nodes have their own ids, only correct nodes act, and logs hold genuine
messages. -/
structure Sound (cfg : SimConfig) (w : Cluster) : Prop where
  ids : ∀ i, (w i).id = i
  idle : ∀ i, ¬ cfg.IsCorrect i → (w i).sent = []
  genuine : ∀ i, ∀ m ∈ (w i).messageLog, w.Genuine cfg m

/-- Only correct nodes have sent something. -/
theorem Sound.isCorrect
    {i : ℕ} {m : Message}
    (hw : w.Sound cfg)
    (hm : m ∈ (w i).sent) :
    cfg.IsCorrect i := by
  by_contra hnot
  rw [hw.idle i hnot] at hm
  cases hm

/-- The senders of a quorum of genuine messages. -/
theorem Sound.isQuorum
    {log : List Message} {t : MessageType} {h r : ℤ} {vid : Option (Option String)}
    (hvalidate : cfg.validate = true)
    (hw : w.Sound cfg)
    (hlog : ∀ m ∈ log, w.Genuine cfg m)
    (hquorum : hasQuorum cfg log t h r vid = true) :
    cfg.IsQuorum (voters log t h r vid) := by
  obtain ⟨-, -, hbyz, hcrashed, -⟩ := SimConfig.validate_spec hvalidate
  refine ⟨?_, of_decide_eq_true hquorum⟩
  intro i hi
  simp only [voters, List.mem_toFinset, List.mem_map, List.mem_filter] at hi
  obtain ⟨m, ⟨hm, -⟩, rfl⟩ := hi
  rcases hlog m hm with hmem | hsent
  · exact ⟨hbyz _ hmem, fun hc => hcrashed _ hc hmem⟩
  · have hcorrect := hw.isCorrect hsent
    exact ⟨hcorrect.1, hcorrect.2.1⟩

/-- A quorum in a log was sent. -/
theorem Sound.voted
    {log : List Message} {t : MessageType} {h r : ℤ} {x : String}
    (hvalidate : cfg.validate = true)
    (hw : w.Sound cfg)
    (hlog : ∀ m ∈ log, w.Genuine cfg m)
    (hquorum : hasQuorum cfg log t h r (some (some x)) = true) :
    w.Voted cfg t h r x := by
  refine ⟨_, hw.isQuorum hvalidate hlog hquorum, ?_⟩
  intro i hi hc
  simp only [voters, List.mem_toFinset, List.mem_map, List.mem_filter, decide_eq_true_eq] at hi
  obtain ⟨m, ⟨hm, ht, hh, hr, hx⟩, rfl⟩ := hi
  exact ⟨m, (hlog m hm).resolve_left hc, ht, hh, hr, hx _ rfl⟩

/-- The induction over the runs: a property of a correct node that holds
initially, is kept by every effect on a log of genuine messages, and does not
depend on the log. -/
theorem reachable_invariant
    {I : Cluster → Node → Prop}
    (hinit : ∀ w i, cfg.IsCorrect i → I w ((Node.new i).startRound cfg hash 0))
    (hmono : ∀ w w' n, w.Extends w' → I w n → I w' n)
    (hlog : ∀ w n l, I w n → I w { n with messageLog := l })
    (hacts : ∀ w n n', w.Sound cfg → (∀ m ∈ n.messageLog, w.Genuine cfg m) → I w n →
      Node.Acts cfg hash n n' → I w n')
    (hreach : (cluster cfg hash).Reachable System.anyStep w) :
    w.Sound cfg ∧ ∀ i, cfg.IsCorrect i → I w (w i) := by
  refine System.Reachable.invariant (I := fun w => w.Sound cfg ∧ ∀ i, cfg.IsCorrect i → I w (w i))
    ?_ ?_ hreach
  · refine ⟨⟨fun i => ?_, fun i hi => ?_, fun i m hm => ?_⟩, fun i hi => ?_⟩
    · simp only [cluster, Cluster.init]
      split
      case isTrue => exact (Node.startRound_frame _ _ _ 0).1
      case isFalse => rfl
    · simp only [cluster, Cluster.init, hi, if_false]
      rfl
    · simp only [cluster, Cluster.init] at hm
      split at hm
      case isTrue =>
        rw [(Node.startRound_frame _ _ _ 0).2.2.2.1] at hm
        cases hm
      case isFalse => cases hm
    · simp only [cluster, Cluster.init, hi, if_true]
      exact hinit _ i hi
  · rintro w l w' - ⟨hsound, hnodes⟩ - hstep
    obtain ⟨hcorrect, hreceived, rfl⟩ := step_spec hstep
    -- The iteration keeps the property with respect to the votes before it.
    have hgenuine : ∀ m ∈ (w l.node).messageLog ++ l.received, w.Genuine cfg m := by
      intro m hm
      rcases List.mem_append.mp hm with hold | hnew
      · exact hsound.genuine _ m hold
      · exact hreceived m hnew
    obtain ⟨hid, hsent, hlog', hn⟩ := Node.Runs.invariant (P := w.Genuine cfg) (I := I w)
      (fun n n' hlog hn hact => hacts w n n' hsound hlog hn hact)
      (Node.iterate_runs l.received l.due l.rank (w l.node)) hgenuine
      (hlog w _ _ (hnodes _ hcorrect))
    generalize (w l.node).iterate cfg hash l.received l.due l.rank = n at *
    have hext : w.Extends (Function.update w l.node n) := by
      intro i
      by_cases hi : i = l.node
      · subst hi
        rw [Function.update_self]
        exact hsent
      · rw [Function.update_of_ne hi]
        exact fun _ hm => hm
    refine ⟨⟨fun i => ?_, fun i hnot => ?_, fun i m hm => ?_⟩, fun i hi => ?_⟩
    all_goals by_cases hi' : i = l.node
    · subst hi'
      rw [Function.update_self]
      exact hid.trans (hsound.ids _)
    · rw [Function.update_of_ne hi']
      exact hsound.ids i
    · subst hi'
      exact absurd hcorrect hnot
    · rw [Function.update_of_ne hi']
      exact hsound.idle i hnot
    · subst hi'
      rw [Function.update_self] at hm
      exact (hlog' m hm).mono hext
    · rw [Function.update_of_ne hi'] at hm
      exact (hsound.genuine i m hm).mono hext
    · subst hi'
      rw [Function.update_self]
      exact hmono _ _ _ hext hn
    · rw [Function.update_of_ne hi']
      exact hmono _ _ _ hext (hnodes i hi)

end Cluster

namespace Node

variable {K K' : ℤ → ℤ → String → Prop} {n n' : Node}

/-- Every decision has a quorum of precommits, according to `K`. -/
def Decided (hash : String → String) (K : ℤ → ℤ → String → Prop) (n : Node) : Prop :=
  ∀ h v, n.decisions.get? h = some v → ∃ s r, v = some s ∧ K h r (hash s)

theorem Decided.mono
    (hsub : ∀ h r x, K h r x → K' h r x)
    (hn : n.Decided hash K) :
    n.Decided hash K' := by
  intro h v hv
  obtain ⟨s, r, rfl, hK⟩ := hn h v hv
  exact ⟨s, r, rfl, hsub _ _ _ hK⟩

theorem Decided.acts
    (hK : ∀ h r x, hasQuorum cfg n.messageLog .precommit h r (some (some x)) = true → K h r x)
    (hact : Acts cfg hash n n')
    (hn : n.Decided hash K) :
    n'.Decided hash K := by
  intro h v hv
  cases hact with
  | quiet hq =>
      rw [hq.decisions] at hv
      exact hn h v hv
  | prevoteNil | prevote | precommitNil | precommit => exact hn h v hv
  | enter =>
      rw [(startRound_frame cfg hash n _).2.2.1] at hv
      exact hn h v hv
  | @decide s hdecidable =>
      obtain ⟨r, hquorum, -⟩ := hdecidable
      rw [(decideValue_frame cfg hash n _).2.2.1, Dict.get?_set] at hv
      split at hv
      case isTrue hh =>
        obtain rfl := Option.some.inj hv
        exact ⟨s, r, rfl, hK _ _ _ (hh ▸ hquorum)⟩
      case isFalse => exact hn h v hv

theorem voting_new (i : ℕ) :
    Voting hash K ((Node.new i).startRound cfg hash 0) := by
  have hnew : Voting hash K (Node.new i) := by
    constructor
    · exact le_refl _
    all_goals
      intro m hm
      cases hm
  refine hnew.startRound (le_refl _) ?_ ?_
  · intro m hm
    cases hm
  · rintro r ⟨v, hv, -⟩
    cases hv

theorem decided_new (i : ℕ) :
    Decided hash K ((Node.new i).startRound cfg hash 0) := by
  intro h v hv
  rw [(startRound_frame cfg hash (Node.new i) 0).2.2.1] at hv
  cases hv

end Node

namespace Cluster

variable {w : Cluster}

/-- The voting invariant and the decisions of the correct nodes. -/
theorem reachable_voting
    (hvalidate : cfg.validate = true)
    (hreach : (cluster cfg hash).Reachable System.anyStep w) :
    w.Sound cfg ∧ ∀ i, cfg.IsCorrect i →
      (w i).Voting hash (w.Voted cfg .prevote) ∧ (w i).Decided hash (w.Voted cfg .precommit) := by
  refine reachable_invariant (I := fun w n => n.Voting hash (w.Voted cfg .prevote) ∧
    n.Decided hash (w.Voted cfg .precommit)) ?_ ?_ ?_ ?_ hreach
  · exact fun w i _ => ⟨Node.voting_new i, Node.decided_new i⟩
  · intro w w' n hext hn
    exact ⟨hn.1.mono fun h r x hx => hx.mono hext, hn.2.mono fun h r x hx => hx.mono hext⟩
  · rintro w n l ⟨hv, hd⟩
    exact ⟨⟨hv.nonneg, hv.sender, hv.round_nonneg, hv.before, hv.once, hv.justified, hv.locked,
      hv.carried⟩, hd⟩
  · intro w n n' hsound hlog hn hact
    exact ⟨hn.1.acts (fun h r x hq => hsound.voted hvalidate hlog hq) hact,
      hn.2.acts (fun h r x hq => hsound.voted hvalidate hlog hq) hact⟩

/-- The votes for value ids in one height. -/
def record (w : Cluster) (h : ℤ) : RoundLocks.Record ℕ String where
  prevotes i r x := ∃ m ∈ (w i).sent, m.type = .prevote ∧ m.height = h ∧ m.round = r ∧
    m.valueId = some x
  precommits i r x := ∃ m ∈ (w i).sent, m.type = .precommit ∧ m.height = h ∧ m.round = r ∧
    m.valueId = some x

/-- The votes of one height are sound. -/
theorem record_sound
    (hinter : cfg.QuorumsIntersect)
    (hsound : w.Sound cfg)
    (hvoting : ∀ i, cfg.IsCorrect i → (w i).Voting hash (w.Voted cfg .prevote))
    (h : ℤ) :
    RoundLocks.Sound (SimConfig.quorumSystem hinter) (w.record h) where
  prevote_unique := by
    rintro i - r x y ⟨m, hm, ht, hh, hr, hx⟩ ⟨m', hm', ht', hh', hr', hy⟩
    have honce := (hvoting i (hsound.isCorrect hm)).once m hm m' hm' (ht.trans ht'.symm)
      (hh.trans hh'.symm) (hr.trans hr'.symm)
    rw [← honce, hx] at hy
    exact Option.some.inj hy
  precommit_prevoted := by
    rintro i - r x ⟨m, hm, ht, rfl, rfl, hx⟩
    exact (hvoting i (hsound.isCorrect hm)).justified m hm x ⟨ht, hx⟩
  prevote_carried := by
    rintro i - r x s y ⟨m, hm, ht, rfl, rfl, hx⟩ ⟨m', hm', ht', hh, rfl, hy⟩ hlt
    obtain ⟨q, hle, hq, hvoted⟩ := (hvoting i (hsound.isCorrect hm)).carried m hm m' hm' x y
      ⟨ht, hx⟩ ⟨ht', hy⟩ hh.symm hlt
    rw [hh] at hvoted
    exact ⟨q, hle, hq, hvoted⟩

/-- Agreement: with a total voting power of 3f+1 no two correct nodes decide
differently on one height. -/
theorem decisions_agree
    (hvalidate : cfg.validate = true)
    (htotal : cfg.totalPower = 3 * cfg.f + 1)
    (hreach : (cluster cfg hash).Reachable System.anyStep w)
    (hinj : Set.InjOn hash {v | ∃ i h, (w i).decisions.get? h = some (some v)})
    {p q : ℕ} {h : ℤ} {v v' : Option String}
    (hp : cfg.IsCorrect p)
    (hq : cfg.IsCorrect q)
    (hv : (w p).decisions.get? h = some v)
    (hv' : (w q).decisions.get? h = some v') :
    v = v' := by
  obtain ⟨hsound, hnodes⟩ := reachable_voting hvalidate hreach
  have hinter := SimConfig.quorumsIntersect_of_totalPower hvalidate htotal
  have hvoting : ∀ i, cfg.IsCorrect i → (w i).Voting hash (w.Voted cfg .prevote) :=
    fun i hi => (hnodes i hi).1
  have hrecord := record_sound hinter hsound hvoting h
  obtain ⟨s, r, rfl, hs⟩ := (hnodes p hp).2 h v hv
  obtain ⟨s', r', rfl, hs'⟩ := (hnodes q hq).2 h v' hv'
  have hid : hash s = hash s' := hrecord.precommitted_unique hs hs'
  exact congrArg some (hinj ⟨p, h, hv⟩ ⟨q, h, hv'⟩ hid)

section Run

/-- Four nodes, of which node 0, the proposer of the first round, is Byzantine. -/
def fourNodes : SimConfig := ⟨4, 1, 1, [], [], [0]⟩

/-- Nodes 1, 2 and 3 vote for a proposal; nodes 1 and 2 decide. -/
def fourNodesRun : List Iteration :=
  let proposal : Message := ⟨.proposal, 0, 0, 0, some "A", some "A", -1⟩
  let votes (t : MessageType) : List Message :=
    [1, 2, 3].map fun i => ⟨t, 0, 0, i, none, some "A", -1⟩
  let iteration (i : ℕ) (received : List Message) : Iteration :=
    ⟨i, received, fun _ => false, fun _ _ => 0⟩
  [1, 2, 3].map (fun i => iteration i [proposal]) ++
    [1, 2, 3].map (fun i => iteration i (votes .prevote)) ++
    [1, 2].map (fun i => iteration i (votes .precommit))

theorem decisions_agree_fourNodes :
    ∃ w, (cluster fourNodes id).Reachable System.anyStep w ∧
      (w 1).decisions.get? 0 = some (some "A") ∧
      (w 1).decisions.get? 0 = (w 2).decisions.get? 0 := by
  obtain ⟨w, hreach, h1, h2⟩ : ∃ w, (cluster fourNodes id).Reachable System.anyStep w ∧
      (w 1).decisions.get? 0 = some (some "A") ∧
      (w 2).decisions.get? 0 = some (some "A") := by
    refine System.exists_reaches_of_exec fourNodesRun ?_
    decide +kernel
  have hagree : some "A" = some "A" := decisions_agree (by decide) (by decide) hreach
    (Set.injOn_id _) (p := 1) (q := 2) (by decide) (by decide) h1 h2
  exact ⟨w, hreach, h1, h1.trans ((congrArg some hagree).trans h2.symm)⟩

end Run

end Cluster

end Tendermint
end DistributedConsensus
