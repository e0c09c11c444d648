import DistributedConsensus.Foundations.Nodes
import DistributedConsensus.Foundations.Quorum
import DistributedConsensus.RustTendermint.Voting

/-!
# Rust Tendermint: agreement

The nodes `0, …, n - 1`, fewer than a third of them faulty, over a network that
delays, repeats, reorders and loses messages.  A faulty node sends anything under
its own id.

The quorum `2n/3 + 1` is computed in `u32`.  As long as `2n` fits, two quorums
share a correct node; as long as the rounds and heights of the correct nodes fit,
a correct node casts each vote once.  Then two nodes that commit at one height
commit the same value, whatever the rounds.
-/

namespace DistributedConsensus
namespace RustTendermint

open Foundations

/-- The number of nodes and the faulty ones. -/
structure Deployment where
  totalNodes : UInt32
  faulty : Finset NodeId
  faulty_lt : ∀ i ∈ faulty, i < totalNodes
  few_faulty : 3 * faulty.card < totalNodes.toNat

/-- The nodes by their ids. -/
abbrev Cluster := NodeId → Process

variable (D : Deployment)

def Deployment.IsCorrect (i : NodeId) : Prop := i < D.totalNodes ∧ i ∉ D.faulty

instance (i : NodeId) : Decidable (D.IsCorrect i) := inferInstanceAs (Decidable (_ ∧ _))

/-- A faulty node is the sender, or the sender has broadcast the message. -/
def Cluster.Genuine (w : Cluster) (m : Message) : Prop :=
  m.sender ∈ D.faulty ∨ .broadcast m ∈ (w m.sender).requests

instance (w : Cluster) (m : Message) : Decidable (w.Genuine D m) :=
  inferInstanceAs (Decidable (_ ∨ _))

/-- The event can happen at the node. -/
def Cluster.Enabled (w : Cluster) (i : NodeId) : Event → Prop
  | .plDeliver m => D.IsCorrect i ∧ w.Genuine D m
  | .timeout => D.IsCorrect i

instance (w : Cluster) (i : NodeId) : ∀ e, Decidable (w.Enabled D i e)
  | .plDeliver _ => inferInstanceAs (Decidable (_ ∧ _))
  | .timeout => inferInstanceAs (Decidable (D.IsCorrect i))

/-- The nodes as a network. -/
def nodes : Nodes NodeId Process Event where
  start := fun i => Process.boot i D.totalNodes .standard
  Enabled := fun w i e => Cluster.Enabled D w i e
  handle := fun _ p e => p.handle e

instance (w : NodeId → Process) (i : NodeId) (e : Event) : Decidable ((nodes D).Enabled w i e) :=
  inferInstanceAs (Decidable (Cluster.Enabled D w i e))

/-- The runs of a deployment. -/
def cluster : System Cluster (NodeId × Event) := (nodes D).system

/-- The step does not make a counter of the node wrap around. -/
def CountsOn (w : Cluster) (l : NodeId × Event) : Prop := (w l.1).consensus.CountsOn l.2

instance (w : Cluster) (l : NodeId × Event) : Decidable (CountsOn w l) :=
  inferInstanceAs (Decidable ((w l.1).consensus.CountsOn l.2))

/-- Correct nodes that have committed at one height have committed one value. -/
def Cluster.Agree (w : Cluster) : Prop :=
  ∀ i j, D.IsCorrect i → D.IsCorrect j → ∀ h x y,
    (h, x) ∈ (w i).consensus.committed → (h, y) ∈ (w j).consensus.committed → x = y

/-! ## Quorums -/

theorem quorumSize_eq {n : UInt32} (hn : 2 * n.toNat < 2 ^ 32) :
    quorumSize n = 2 * n.toNat / 3 + 1 := by
  have hfits : n.toNat * 2 % 2 ^ 32 = 2 * n.toNat := by
    rw [mul_comm, Nat.mod_eq_of_lt hn]
  unfold quorumSize
  simp only [UInt32.toNat_add, UInt32.toNat_div, UInt32.toNat_mul, UInt32.reduceToNat, hfits]
  omega

variable {D}

/-- The quorums of a deployment in which `2n` does not overflow. -/
def Deployment.quorums (hn : 2 * D.totalNodes.toNat < 2 ^ 32) : QuorumSystem NodeId where
  faulty := { i | i ∈ D.faulty }
  IsQuorum Q := (∀ i ∈ Q, i < D.totalNodes) ∧ quorumSize D.totalNodes ≤ Q.card
  inter := by
    rintro A B ⟨hA, hcardA⟩ ⟨hB, hcardB⟩
    have hsub : A ∪ B ⊆ (Finset.range D.totalNodes.toNat).image UInt32.ofNat := by
      intro i hi
      have hlt : i < D.totalNodes := (Finset.mem_union.mp hi).elim (hA i) (hB i)
      rw [UInt32.lt_iff_toNat_lt] at hlt
      rw [Finset.mem_image]
      exact ⟨i.toNat, Finset.mem_range.mpr hlt, UInt32.ofNat_toNat⟩
    have hunion : (A ∪ B).card ≤ D.totalNodes.toNat :=
      (Finset.card_le_card hsub).trans (Finset.card_image_le.trans (Finset.card_range _).le)
    have hinter := Finset.card_union_add_card_inter A B
    have hfew := D.few_faulty
    rw [quorumSize_eq hn] at hcardA hcardB
    have hbig : D.faulty.card < (A ∩ B).card := by omega
    obtain ⟨i, hi, hcorrect⟩ := exists_correct_of_card_lt hbig
    rw [Finset.mem_inter] at hi
    exact ⟨i, hi.1, hi.2, hcorrect⟩

namespace Process

variable {p p' : Process} {e : Event}

/-- What no effect changes, and that requests are never taken back. -/
structure Grows (p p' : Process) : Prop where
  id : p'.consensus.id = p.consensus.id
  behavior : p'.consensus.behavior = p.consensus.behavior
  totalNodes : p'.consensus.totalNodes = p.consensus.totalNodes
  requests : p.requests <+: p'.requests

theorem Grows.refl (p : Process) : Grows p p := ⟨rfl, rfl, rfl, List.prefix_refl _⟩

theorem Grows.trans
    {p'' : Process}
    (h : Grows p p')
    (h' : Grows p' p'') :
    Grows p p'' :=
  ⟨h'.id.trans h.id, h'.behavior.trans h.behavior, h'.totalNodes.trans h.totalNodes,
    h.requests.trans h'.requests⟩

theorem Grows.ballots (h : Grows p p') : p.ballots ⊆ p'.ballots := by
  obtain ⟨new, hnew⟩ := h.requests
  unfold Process.ballots
  rw [← hnew, List.filterMap_append, List.map_append]
  exact List.subset_append_left _ _

theorem grows_startRound
    {c : ConsensusState} {reqs : List PlRequest}
    (hp : p.consensus.behavior = .standard)
    (hid : p.consensus.id = c.id)
    (hbehavior : p.consensus.behavior = c.behavior)
    (htotal : p.consensus.totalNodes = c.totalNodes)
    (hreqs : p.requests = reqs)
    (round : Round) :
    Grows ⟨c, reqs⟩ (p.startRound round) := by
  obtain ⟨new, heq, -⟩ := startRound_spec hp round
  rw [heq]
  exact ⟨hid, hbehavior, htotal, ⟨new, by rw [hreqs]⟩⟩

theorem Acts.grows
    (hp : p.consensus.behavior = .standard)
    (hact : Acts e p p') :
    Grows p p' := by
  cases hact with
  | hear _ _ _ => exact ⟨rfl, rfl, rfl, List.prefix_refl _⟩
  | prevote _ _ => exact ⟨rfl, rfl, rfl, List.prefix_append _ _⟩
  | @precommit c reqs value _ _ =>
      cases value with
      | none => exact ⟨rfl, rfl, rfl, List.prefix_append _ _⟩
      | some x => exact ⟨rfl, rfl, rfl, List.prefix_append _ _⟩
  | commit _ _ => exact ⟨rfl, rfl, rfl, List.prefix_refl _⟩
  | nextRound _ _ => exact grows_startRound hp rfl rfl rfl rfl _
  | @nextHeight c reqs _ _ =>
      exact grows_startRound (p := ⟨c.nextHeight, reqs⟩) (c := c) hp rfl rfl rfl rfl 0

/-- A node names itself as the sender of its messages. -/
def Signed (p : Process) : Prop :=
  ∀ m, PlRequest.broadcast m ∈ p.requests → m.sender = p.consensus.id

theorem signed_startRound
    (hp : p.consensus.behavior = .standard)
    (h : p.Signed)
    (round : Round) :
    (p.startRound round).Signed := by
  obtain ⟨new, heq, hnew⟩ := startRound_spec hp round
  rw [heq]
  intro m hm
  rcases List.mem_append.mp hm with hold | hm
  · exact h m hold
  · obtain ⟨proposal, heq', hsender⟩ := hnew _ hm
    cases heq'
    exact hsender

theorem Signed.acts
    (hp : p.consensus.behavior = .standard)
    (hact : Acts e p p')
    (h : p.Signed) :
    p'.Signed := by
  have hvote : ∀ {c : ConsensusState} {reqs : List PlRequest} {m : Message} {t : VoteType}
      {value : Option Value},
      (∀ m, PlRequest.broadcast m ∈ reqs → m.sender = c.id) →
      PlRequest.broadcast m ∈ reqs ++ [.broadcast (.vote (c.ownVote t value))] →
      m.sender = c.id := by
    intro c reqs m t value hold hm
    rcases List.mem_append.mp hm with hm | hm
    · exact hold m hm
    · rw [List.mem_singleton] at hm
      injection hm with hm
      subst hm
      rfl
  cases hact with
  | hear _ _ _ => exact h
  | prevote _ _ => exact fun m hm => hvote h hm
  | @precommit c reqs value _ _ =>
      cases value with
      | none => exact fun m hm => hvote h hm
      | some x => exact fun m hm => hvote h hm
  | commit _ _ => exact h
  | nextRound _ _ => exact signed_startRound hp h _
  | @nextHeight c reqs _ _ => exact signed_startRound (p := ⟨c.nextHeight, reqs⟩) hp h 0

end Process

/-! ## The invariant of a run -/

namespace Cluster

variable {w w' : Cluster} {i : NodeId} {e : Event} {hn : 2 * D.totalNodes.toNat < 2 ^ 32}

/-- The votes of all nodes. -/
def ballots (w : Cluster) : NodeId → List (RoundVoter.Ballot Value) := fun i => (w i).ballots

/-- The node has its own id and follows the protocol; nodes that are not correct have
cast no votes. -/
structure Sound (D : Deployment) (w : Cluster) (i : NodeId) : Prop where
  id : (w i).consensus.id = i
  behavior : (w i).consensus.behavior = .standard
  totalNodes : (w i).consensus.totalNodes = D.totalNodes
  idle : ¬D.IsCorrect i → ∀ vote, ¬(w i).HasVoted vote

/-- What a node has heard, voted and committed, relative to the votes that all nodes
have cast. -/
structure Upright (hn : 2 * D.totalNodes.toNat < 2 ^ 32) (w : Cluster) (p : Process) : Prop where
  signed : p.Signed
  tallied : Process.Tallied (fun vote => w.Genuine D (.vote vote)) p.consensus
  legal : p.voter.Legal (RoundVoter.Prevoted (D.quorums hn) w.ballots)
  committed : ∀ h x, (h, x) ∈ p.consensus.committed →
    ∃ r, RoundVoter.Precommitted (D.quorums hn) w.ballots (h.toNat : ℤ) r x
  recorded : p.consensus.step = .commit → ∃ x, (p.consensus.height, x) ∈ p.consensus.committed

theorem Genuine.mono
    {m : Message}
    (hext : Nodes.Extends Process.Grows w w')
    (h : w.Genuine D m) :
    w'.Genuine D m :=
  h.imp_right fun hm => (hext _).requests.subset hm

theorem Enabled.isCorrect (h : w.Enabled D i e) : D.IsCorrect i := by
  cases e with
  | plDeliver => exact h.1
  | timeout => exact h

/-- Votes of the senders of stored votes for a value are a quorum of votes. -/
theorem voted_of_reachesQuorum
    {c : ConsensusState} {t : VoteType} {x : Value}
    (hw : ∀ j, w.Sound D j)
    (htotal : c.totalNodes = D.totalNodes)
    (htallied : Process.Tallied (fun vote => w.Genuine D (.vote vote)) c)
    (hquorum : c.reachesQuorum t (some x)) :
    ∃ Q : Finset NodeId, (D.quorums hn).IsQuorum Q ∧ ∀ i ∈ Q, i ∉ D.faulty →
      ⟨t.kind, c.height.toNat, c.round.toNat, some x⟩ ∈ w.ballots i := by
  have hgenuine : ∀ i ∈ Process.supporters c t (some x),
      i ∈ D.faulty ∨ (w i).HasVoted ⟨t, c.height, c.round, some x, i⟩ :=
    fun i hi => htallied.of_mem_supporters hi
  refine ⟨Process.supporters c t (some x), ⟨?_, ?_⟩, ?_⟩
  · intro i hi
    rcases hgenuine i hi with hfaulty | hvoted
    · exact D.faulty_lt i hfaulty
    · by_contra hlt
      exact (hw i).idle (fun hcorrect => hlt hcorrect.1) _ hvoted
  · rw [Process.card_supporters, ← htotal]
    exact hquorum
  · intro i hi hcorrect
    exact ((hgenuine i hi).resolve_left hcorrect).mem_ballots

theorem Upright.mono
    {p : Process}
    (hext : Nodes.Extends Process.Grows w w')
    (h : Upright hn w p) :
    Upright hn w' p where
  signed := h.signed
  tallied := h.tallied.mono fun vote => Genuine.mono hext
  legal := h.legal.mono fun _ _ _ hx => hx.mono fun i => (hext i).ballots
  committed height x hx := by
    obtain ⟨r, hr⟩ := h.committed height x hx
    exact ⟨r, hr.mono fun i => (hext i).ballots⟩
  recorded := h.recorded

theorem committed_startRound
    {p : Process}
    (hp : p.consensus.behavior = .standard) (round : Round) :
    (p.startRound round).consensus.committed = p.consensus.committed ∧
      (p.startRound round).consensus.step = .propose := by
  obtain ⟨new, heq, -⟩ := Process.startRound_spec hp round
  rw [heq]
  exact ⟨rfl, rfl⟩

/-- One effect, relative to the votes that were cast before the event. -/
theorem Upright.acts
    {p p' : Process}
    (hw : ∀ j, w.Sound D j)
    (hp : p.consensus.behavior = .standard)
    (htotal : p.consensus.totalNodes = D.totalNodes)
    (hknown : ∀ vote, e = .plDeliver (.vote vote) → w.Genuine D (.vote vote))
    (hact : Process.Acts e p p')
    (h : Upright hn w p) :
    Upright hn w p' := by
  refine ⟨h.signed.acts hp hact, h.tallied.acts hp hknown hact, ?_, ?_, ?_⟩
  · have hvoter := hact.voter (K := RoundVoter.Prevoted (D.quorums hn) w.ballots) hp
      fun x hquorum => voted_of_reachesQuorum hw htotal h.tallied hquorum
    rcases hvoter with heq | hvoter
    · rw [heq]
      exact h.legal
    · exact h.legal.acts hvoter
  · intro height x hx
    cases hact with
    | @commit c reqs value _ hquorum =>
        rcases List.mem_append.mp hx with hold | hx
        · exact h.committed height x hold
        · obtain ⟨rfl, rfl⟩ := Prod.mk.inj (List.mem_singleton.mp hx)
          exact ⟨c.round.toNat, voted_of_reachesQuorum hw htotal h.tallied hquorum⟩
    | @precommit c reqs value _ _ =>
        cases value with
        | none => exact h.committed height x hx
        | some y => exact h.committed height x hx
    | nextRound _ _ =>
        rw [(committed_startRound hp _).1] at hx
        exact h.committed height x hx
    | @nextHeight c reqs _ _ =>
        rw [(committed_startRound (p := ⟨c.nextHeight, reqs⟩) hp _).1] at hx
        exact h.committed height x hx
    | hear _ _ _ => exact h.committed height x hx
    | prevote _ _ => exact h.committed height x hx
  · intro hstep
    cases hact with
    | hear _ _ _ => exact h.recorded hstep
    | commit _ _ => exact ⟨_, List.mem_append_right _ (List.mem_singleton_self _)⟩
    | prevote _ _ => cases hstep
    | precommit _ _ => cases hstep
    | nextRound _ _ =>
        rw [(committed_startRound hp _).2] at hstep
        cases hstep
    | @nextHeight c reqs _ _ =>
        rw [(committed_startRound (p := ⟨c.nextHeight, reqs⟩) hp _).2] at hstep
        cases hstep

theorem Upright.runs
    {p p' : Process}
    (hw : ∀ j, w.Sound D j)
    (hp : p.consensus.behavior = .standard)
    (htotal : p.consensus.totalNodes = D.totalNodes)
    (hknown : ∀ vote, e = .plDeliver (.vote vote) → w.Genuine D (.vote vote))
    (hruns : Process.Runs e p p')
    (h : Upright hn w p) :
    Process.Grows p p' ∧ Upright hn w p' := by
  induction hruns with
  | refl => exact ⟨.refl _, h⟩
  | tail _ hact ih =>
      have hbehavior := ih.1.behavior.trans hp
      exact ⟨ih.1.trans (hact.grows hbehavior),
        ih.2.acts hw hbehavior (ih.1.totalNodes.trans htotal) hknown hact⟩

/-- What holds of every node in every run without a wrapped counter. -/
structure Safe (hn : 2 * D.totalNodes.toNat < 2 ^ 32) (w : Cluster) (i : NodeId) : Prop where
  sound : w.Sound D i
  upright : w.Upright hn (w i)

theorem safe_start (i : NodeId) : Safe hn (nodes D).start i := by
  obtain ⟨new, heq, hnew⟩ := Process.startRound_spec
    (p := ⟨ConsensusState.new i D.totalNodes .standard, []⟩) rfl 0
  have hboot : (nodes D).start i =
      ⟨(ConsensusState.new i D.totalNodes .standard).enterRound 0, new⟩ :=
    (Process.boot_eq_startRound i _).trans heq
  have hidle : ∀ vote, ¬((nodes D).start i).HasVoted vote := by
    intro vote hvote
    rw [hboot] at hvote
    obtain ⟨m, hm, -⟩ := hnew _ hvote
    cases hm
  have hvotes : ((nodes D).start i).voter.votes = [] := by
    show (((nodes D).start i).requests.filterMap PlRequest.vote?).map Vote.ballot = []
    rw [List.map_eq_nil_iff, List.eq_nil_iff_forall_not_mem]
    exact fun vote hvote => hidle vote (Process.hasVoted_iff.mpr hvote)
  refine ⟨?_, ⟨?_, ?_, RoundVoter.Voter.legal_of_votes_eq_nil hvotes, ?_, ?_⟩⟩
  · refine ⟨?_, ?_, ?_, fun _ => hidle⟩
    all_goals rw [hboot]
    all_goals rfl
  · rw [hboot]
    intro m hm
    obtain ⟨proposal, heq', hsender⟩ := hnew _ hm
    cases heq'
    exact hsender
  · rw [hboot]
    exact Process.tallied_enterRound _ _ 0
  · rw [hboot]
    intro _ _ h
    cases h
  · rw [hboot]
    intro h
    cases h

theorem reachable_safe (hreach : (cluster D).Reachable CountsOn w) : ∀ i, Safe hn w i := by
  refine Nodes.reachable_invariant (N := nodes D) (R := Process.Grows)
    (I := fun w i => Safe hn w i) Process.Grows.refl safe_start ?_ ?_ hreach
  · intro w i e _ hw hcounts henabled
    have hi := (hw i).sound
    have hknown : ∀ vote, e = .plDeliver (.vote vote) → Genuine D w (.vote vote) := by
      rintro vote rfl
      exact henabled.2
    obtain ⟨hgrows, hupright⟩ := (hw i).upright.runs (fun j => (hw j).sound) hi.behavior
      hi.totalNodes hknown (Process.handle_runs hi.behavior hcounts)
    refine ⟨hgrows, fun hext => ⟨⟨?_, ?_, ?_, ?_⟩, ?_⟩⟩
    · rw [Function.update_self]
      exact hgrows.id.trans hi.id
    · rw [Function.update_self]
      exact hgrows.behavior.trans hi.behavior
    · rw [Function.update_self]
      exact hgrows.totalNodes.trans hi.totalNodes
    · exact fun hnot => absurd (Enabled.isCorrect henabled) hnot
    · rw [Function.update_self]
      exact hupright.mono hext
  · intro w w' i hext hsame hi
    refine ⟨⟨?_, ?_, ?_, ?_⟩, ?_⟩
    · rw [hsame]
      exact hi.sound.id
    · rw [hsame]
      exact hi.sound.behavior
    · rw [hsame]
      exact hi.sound.totalNodes
    · rw [hsame]
      exact hi.sound.idle
    · rw [hsame]
      exact hi.upright.mono hext

end Cluster

/-- **Agreement.**  When `2n` fits into `u32` and no correct node leaves the last
round or height, two correct nodes that commit at one height commit one value. -/
theorem commit_values_agree
    (D : Deployment)
    (hn : 2 * D.totalNodes.toNat < 2 ^ 32)
    {w : Cluster}
    (hreach : (cluster D).Reachable CountsOn w) :
    w.Agree D := by
  intro i j _ _ h x y hx hy
  have hsafe : ∀ i, Cluster.Safe hn w i := Cluster.reachable_safe hreach
  obtain ⟨r, hr⟩ := (hsafe i).upright.committed h x hx
  obtain ⟨s, hs⟩ := (hsafe j).upright.committed h y hy
  exact @RoundVoter.precommitted_unique _ _ _ (fun i => (w i).voter) _ _ _ _ _
    (fun i _ => (hsafe i).upright.legal) hr hs

/-! ## Concrete runs -/

section Runs

variable (n : UInt32) (v : Value)

/-- The proposal of node 1, which is the proposer of the first round. -/
def firstProposal : Event := .plDeliver (.proposal ⟨1, 0, v, none, 1⟩)

def firstVote (t : VoteType) (i : NodeId) : Event := .plDeliver (.vote ⟨t, 1, 0, some v, i⟩)

/-- A node commits a value with the votes of the given nodes. -/
def commitRun (i : NodeId) (voters : List NodeId) : List (NodeId × Event) :=
  (i, firstProposal v) ::
    (voters.map fun j => (i, firstVote v .prevote j)) ++
    voters.map fun j => (i, firstVote v .precommit j)

end Runs

/-- Four nodes, one of them faulty. -/
def fourNodes : Deployment where
  totalNodes := 4
  faulty := {1}
  faulty_lt := by
    intro i hi
    rw [Finset.mem_singleton.mp hi]
    decide
  few_faulty := by decide

/-- The runs are not vacuous: two nodes commit. -/
theorem commit_values_agree_fourNodes :
    ∃ w, (cluster fourNodes).Reachable CountsOn w ∧
      (1, ⟨"a"⟩) ∈ (w 0).consensus.committed ∧ (1, ⟨"a"⟩) ∈ (w 2).consensus.committed ∧
      w.Agree fourNodes := by
  obtain ⟨w, hreach, h0, h2⟩ : ∃ w, (cluster fourNodes).Reachable CountsOn w ∧
      (1, ⟨"a"⟩) ∈ (w 0).consensus.committed ∧ (1, ⟨"a"⟩) ∈ (w 2).consensus.committed := by
    refine System.exists_reaches_of_exec
      [(0, firstProposal ⟨"a"⟩), (2, firstProposal ⟨"a"⟩),
        (0, firstVote ⟨"a"⟩ .prevote 0), (0, firstVote ⟨"a"⟩ .prevote 1),
        (0, firstVote ⟨"a"⟩ .prevote 2), (2, firstVote ⟨"a"⟩ .prevote 0),
        (2, firstVote ⟨"a"⟩ .prevote 1), (2, firstVote ⟨"a"⟩ .prevote 2),
        (0, firstVote ⟨"a"⟩ .precommit 0), (0, firstVote ⟨"a"⟩ .precommit 1),
        (0, firstVote ⟨"a"⟩ .precommit 2), (2, firstVote ⟨"a"⟩ .precommit 0),
        (2, firstVote ⟨"a"⟩ .precommit 1), (2, firstVote ⟨"a"⟩ .precommit 2)] ?_
    decide +kernel
  exact ⟨w, hreach, h0, h2, commit_values_agree fourNodes (by decide) hreach⟩

/-- The quorum of `2 ^ 31` nodes is one node. -/
def manyNodes : Deployment where
  totalNodes := 2147483648
  faulty := {1}
  faulty_lt := by
    intro i hi
    rw [Finset.mem_singleton.mp hi]
    decide
  few_faulty := by decide

/-- A faulty proposer makes two correct nodes commit different values. -/
theorem not_commit_values_agree :
    ¬∀ (D : Deployment) (w : Cluster), (cluster D).Reachable System.anyStep w → w.Agree D := by
  intro hall
  obtain ⟨w, hreach, h0, h2⟩ : ∃ w, (cluster manyNodes).Reachable System.anyStep w ∧
      (1, ⟨"a"⟩) ∈ (w 0).consensus.committed ∧ (1, ⟨"b"⟩) ∈ (w 2).consensus.committed := by
    refine System.exists_reaches_of_exec
      (commitRun ⟨"a"⟩ 0 [1] ++ commitRun ⟨"b"⟩ 2 [1]) ?_
    decide +kernel
  have heq := hall manyNodes w hreach 0 2 (by decide) (by decide) _ _ _ h0 h2
  exact absurd heq (by decide)

end RustTendermint
end DistributedConsensus
