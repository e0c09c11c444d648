import DistributedConsensus.Foundations.Nodes
import DistributedConsensus.Foundations.Quorum
import DistributedConsensus.GoPbft.Handlers
import Mathlib.Data.Fintype.Fin

/-!
# PBFT: a cluster of 3f+1 replicas

The replicas and the perfect links between them: every multicast reaches each of
its recipients at most once, in any order and after any delay.  A faulty replica
sends arbitrary messages under its own id.  Clients send any requests to any
replicas, any number of times.
-/

namespace DistributedConsensus
namespace GoPbft

open Foundations

/-- The parameters of a run: `3f+1` replicas of which at most `f` are faulty. -/
structure Deployment where
  f : ℕ
  faulty : Finset ℕ
  digestOf : ClientRequest → String
  faulty_lt : ∀ i ∈ faulty, i < 3 * f + 1
  faulty_le : faulty.card ≤ f

/-- The number of replicas. -/
def Deployment.n (D : Deployment) : ℕ := 3 * D.f + 1

/-- A replica with the messages that its links have delivered: the sender and
the position of the multicast in what the sender has sent. -/
structure Replica where
  rs : RunState
  received : List (ℕ × ℕ)

inductive Event where
  | request (req : ClientRequest)
  | deliver (k : ℕ) (b : Multicast)
  | forge (m : PBFTMessage)
  | timeout

/-- The replicas by their ids. -/
abbrev Cluster := ℕ → Replica

variable (D : Deployment)

/-- The replica follows the protocol. -/
def Deployment.IsCorrect (i : ℕ) : Prop := i < D.n ∧ i ∉ D.faulty

instance (i : ℕ) : Decidable (D.IsCorrect i) := inferInstanceAs (Decidable (_ ∧ _))

/-- The event can happen at the replica. -/
def Cluster.Enabled (w : Cluster) (i : ℕ) : Event → Prop
  | .request _ => D.IsCorrect i
  | .deliver k b =>
      D.IsCorrect i ∧ (w b.msg.sender).rs.sent[k]? = some b ∧ i ∈ b.recipients ∧
        (b.msg.sender, k) ∉ (w i).received
  | .forge m => D.IsCorrect i ∧ m.sender ∈ D.faulty
  | .timeout => D.IsCorrect i ∧ (w i).rs.timer = true

instance (w : Cluster) (i : ℕ) : ∀ e, Decidable (w.Enabled D i e)
  | .request _ => inferInstanceAs (Decidable (D.IsCorrect i))
  | .deliver _ _ => inferInstanceAs (Decidable (_ ∧ _ ∧ _ ∧ _))
  | .forge _ => inferInstanceAs (Decidable (_ ∧ _))
  | .timeout => inferInstanceAs (Decidable (_ ∧ _))

/-- One pass of the loop of `Run`. -/
def Replica.handle (x : Replica) : Event → Replica
  | .request req => { x with rs := x.rs.receive D.n D.digestOf ⟨x.rs.id, .request req⟩ }
  | .deliver k b =>
      ⟨x.rs.receive D.n D.digestOf b.msg, (b.msg.sender, k) :: x.received⟩
  | .forge m => { x with rs := x.rs.receive D.n D.digestOf m }
  | .timeout => { x with rs := x.rs.onTimeout D.n }

/-- The message that an event hands to the replica. -/
def Event.message (id : ℕ) : Event → Option PBFTMessage
  | .request req => some ⟨id, .request req⟩
  | .deliver _ b => some b.msg
  | .forge m => some m
  | .timeout => none

/-- The replicas as a network. -/
def nodes : Nodes ℕ Replica Event where
  start := fun i => ⟨RunState.new i, []⟩
  Enabled := fun w i e => Cluster.Enabled D w i e
  handle := fun _ x e => x.handle D e

instance (w : ℕ → Replica) (i : ℕ) (e : Event) : Decidable ((nodes D).Enabled w i e) :=
  inferInstanceAs (Decidable (Cluster.Enabled D w i e))

/-- The runs of a deployment. -/
def cluster : System Cluster (ℕ × Event) := (nodes D).system

/-- The replica has multicast a message of this kind. -/
def RunState.HasSent (rs : RunState) (kind : Kind) : Prop :=
  ∃ b ∈ rs.sent, b.msg = ⟨rs.id, kind⟩

/-- A message that the replica may receive: multicast to it by its sender, or
made up by a faulty replica. -/
def Cluster.Genuine (w : Cluster) (i : ℕ) (m : PBFTMessage) : Prop :=
  m.sender ∈ D.faulty ∨
    D.IsCorrect m.sender ∧ ∃ b ∈ (w m.sender).rs.sent, b.msg = m ∧ i ∈ b.recipients

variable {D}

theorem Deployment.maxFaulty_n : maxFaulty D.n = D.f := by
  unfold maxFaulty n
  omega

theorem Deployment.quorumSize_n : quorumSize D.n = 2 * D.f + 1 := by
  unfold quorumSize
  rw [maxFaulty_n]

/-- Two quorums share a correct replica. -/
theorem Deployment.exists_correct_inter
    {A B : Finset ℕ}
    (hA : A ⊆ Finset.range D.n)
    (hB : B ⊆ Finset.range D.n)
    (hcardA : quorumSize D.n ≤ A.card)
    (hcardB : quorumSize D.n ≤ B.card) :
    ∃ i ∈ A, i ∈ B ∧ i ∉ D.faulty := by
  have hunion : (A ∪ B).card ≤ D.n := by
    have hsub := Finset.card_le_card (Finset.union_subset hA hB)
    rwa [Finset.card_range] at hsub
  have hinter := Finset.card_union_add_card_inter A B
  have hfaulty := D.faulty_le
  rw [quorumSize_n] at hcardA hcardB
  unfold n at hunion
  have hbig : D.faulty.card < (A ∩ B).card := by omega
  obtain ⟨i, hi, hc⟩ := exists_correct_of_card_lt hbig
  rw [Finset.mem_inter] at hi
  exact ⟨i, hi.1, hi.2, hc⟩

namespace RunState

variable {n : ℕ} {digestOf : ClientRequest → String} {P : PBFTMessage → Prop}
  {R : LogEntry → Prop} {Q : ℤ → ℤ → String → Prop} {rs rs' : RunState}

@[simp] theorem hasSent_broadcast
    {recipients : List ℕ} {kind kind' : Kind} :
    (rs.broadcast recipients kind).HasSent kind' ↔ rs.HasSent kind' ∨ kind' = kind := by
  simp only [HasSent, broadcast, List.mem_append, List.mem_singleton]
  constructor
  · rintro ⟨b, hb | rfl, hmsg⟩
    · exact Or.inl ⟨b, hb, hmsg⟩
    · exact Or.inr (PBFTMessage.mk.inj hmsg).2.symm
  · rintro (⟨b, hb, hmsg⟩ | rfl)
    · exact ⟨b, Or.inl hb, hmsg⟩
    · exact ⟨_, Or.inr rfl, rfl⟩

theorem hasSent_congr
    {kind : Kind}
    (hid : rs'.id = rs.id)
    (hsent : rs'.sent = rs.sent) :
    rs'.HasSent kind ↔ rs.HasSent kind := by
  unfold HasSent
  rw [hid, hsent]

/-- What a replica has handed to the network grows, under its own id, and its
view does not decrease. -/
structure Grows (rs rs' : RunState) : Prop where
  id : rs'.id = rs.id
  view : rs.view ≤ rs'.view
  sent : ∃ extra, rs'.sent = rs.sent ++ extra ∧ ∀ b ∈ extra, b.msg.sender = rs.id

theorem Grows.of_sent_eq
    (hid : rs'.id = rs.id)
    (hview : rs.view ≤ rs'.view)
    (hsent : rs'.sent = rs.sent) :
    Grows rs rs' :=
  ⟨hid, hview, [], by rw [hsent, List.append_nil], by simp⟩

theorem Grows.refl (rs : RunState) : Grows rs rs := Grows.of_sent_eq rfl (le_refl _) rfl

theorem Grows.trans
    {rs'' : RunState}
    (h : Grows rs rs')
    (h' : Grows rs' rs'') :
    Grows rs rs'' := by
  obtain ⟨extra, hextra, hsender⟩ := h.sent
  obtain ⟨extra', hextra', hsender'⟩ := h'.sent
  refine ⟨h'.id.trans h.id, h.view.trans h'.view, extra ++ extra', ?_, ?_⟩
  · rw [hextra', hextra, List.append_assoc]
  · intro b hb
    rcases List.mem_append.mp hb with hb | hb
    · exact hsender b hb
    · exact (hsender' b hb).trans h.id

theorem Grows.hasSent
    {kind : Kind}
    (h : Grows rs rs')
    (hsent : rs.HasSent kind) :
    rs'.HasSent kind := by
  obtain ⟨extra, hextra, -⟩ := h.sent
  obtain ⟨b, hb, hmsg⟩ := hsent
  refine ⟨b, ?_, ?_⟩
  · rw [hextra]
    exact List.mem_append_left _ hb
  · rw [h.id]
    exact hmsg

theorem Acts.grows
    (h : Acts n digestOf P R Q rs rs') :
    Grows rs rs' := by
  cases h with
  | quiet hq => exact Grows.of_sent_eq hq.id hq.view.ge hq.sent
  | suspect => exact ⟨rfl, le_refl _, _, rfl, by simp [castViewChangeVote]⟩
  | lead _ hlt _ => exact ⟨rfl, hlt.le, _, rfl, by simp [enterView]⟩
  | follow _ hle => exact Grows.of_sent_eq rfl hle rfl
  | propose => exact ⟨rfl, le_refl _, _, List.append_assoc _ _ _, by simp [broadcast]⟩
  | accept | fire => exact ⟨rfl, le_refl _, _, rfl, by simp⟩
  | votePrepare | voteCommit | commit | execute => exact Grows.of_sent_eq rfl (le_refl _) rfl

theorem Runs.grows
    (h : Runs n digestOf P R Q rs rs') :
    Grows rs rs' := by
  induction h with
  | refl => exact Grows.refl _
  | tail _ hact ih => exact ih.trans hact.grows

end RunState

/-- Replicas have their own ids and sign with them, and only correct replicas
act. -/
structure Cluster.Sound (D : Deployment) (w : Cluster) : Prop where
  ids : ∀ i, (w i).rs.id = i
  senders : ∀ i, ∀ b ∈ (w i).rs.sent, b.msg.sender = i
  correct : ∀ i, (w i).rs.sent ≠ [] → D.IsCorrect i

/-- The message that the event hands to the replica. -/
def Cluster.Arrives (D : Deployment) (w : Cluster) (i : ℕ) (e : Event) (m : PBFTMessage) : Prop :=
  e.message i = some m ∧ w.Genuine D i m

/-- Handling an event is a sequence of effects. -/
theorem Replica.handle_runs
    {R : LogEntry → Prop} {Q : ℤ → ℤ → String → Prop} {w : Cluster} {i : ℕ} {e : Event}
    (hw : w.Sound D)
    (henabled : w.Enabled D i e)
    (hR : ∀ m ∈ e.message i, ∀ entry ∈ (w i).rs.rewritten D.n m, R entry)
    (hQ : ∀ m ∈ e.message i, ∀ v s d,
      (w i).rs.proposal D.n D.digestOf m = some (v, s, d) → Q v s d) :
    RunState.Runs D.n D.digestOf (w.Arrives D i e) R Q (w i).rs ((w i).handle D e).rs := by
  cases e with
  | request req =>
      have hpropose : ∀ v s d, (w i).rs.proposal D.n D.digestOf ⟨(w i).rs.id, .request req⟩ =
          some (v, s, d) → Q v s d := by
        rw [hw.ids]
        exact fun v s d => hQ _ rfl v s d
      exact RunState.handleClientRequest_runs hpropose
  | deliver k b =>
      obtain ⟨-, hget, hi, -⟩ := henabled
      have hmem := List.mem_of_getElem? hget
      refine RunState.receive_runs ?_ (hR _ rfl) fun v s d => hQ _ rfl v s d
      exact ⟨rfl, Or.inr ⟨hw.correct _ (List.ne_nil_of_mem hmem), b, hmem, rfl, hi⟩⟩
  | forge m =>
      exact RunState.receive_runs ⟨rfl, Or.inl henabled.2⟩ (hR _ rfl) fun v s d => hQ _ rfl v s d
  | timeout => exact RunState.onTimeout_runs _

theorem Cluster.Enabled.isCorrect
    {w : Cluster} {i : ℕ} {e : Event}
    (h : w.Enabled D i e) :
    D.IsCorrect i := by
  cases e with
  | request => exact h
  | deliver | forge | timeout => exact h.1

/-- A replica after an event. -/
theorem Replica.handle_grows
    {w : Cluster} {i : ℕ} {e : Event}
    (hw : w.Sound D)
    (henabled : w.Enabled D i e) :
    RunState.Grows (w i).rs ((w i).handle D e).rs :=
  (handle_runs (R := fun _ => True) (Q := fun _ _ _ => True) hw henabled (fun _ _ _ _ => trivial)
    (fun _ _ _ _ _ _ => trivial)).grows

theorem Cluster.sound
    {ok : Cluster → ℕ × Event → Prop} {w : Cluster}
    (h : (cluster D).Reachable ok w) :
    w.Sound D := by
  have key : ∀ i, (w i).rs.id = i ∧ (∀ b ∈ (w i).rs.sent, b.msg.sender = i) ∧
      ((w i).rs.sent ≠ [] → D.IsCorrect i) := by
    refine Nodes.reachable_invariant (N := nodes D) (R := fun _ _ => True)
      (I := fun w i => (w i).rs.id = i ∧ (∀ b ∈ (w i).rs.sent, b.msg.sender = i) ∧
        ((w i).rs.sent ≠ [] → D.IsCorrect i)) (fun _ => trivial) ?_ ?_ ?_ h
    · exact fun i => ⟨rfl, by simp [nodes, RunState.new], fun h => absurd rfl h⟩
    · rintro w i e - hw - henabled
      refine ⟨trivial, fun _ => ?_⟩
      rw [Function.update_self]
      obtain ⟨hid, -, extra, hextra, hsender⟩ := Replica.handle_grows (D := D)
        ⟨fun j => (hw j).1, fun j => (hw j).2.1, fun j => (hw j).2.2⟩ henabled
      obtain ⟨hid', hsenders, -⟩ := hw i
      refine ⟨hid.trans hid', ?_, fun _ => Enabled.isCorrect henabled⟩
      intro b hb
      change b ∈ ((w i).handle D e).rs.sent at hb
      rw [hextra] at hb
      rcases List.mem_append.mp hb with hb | hb
      · exact hsenders b hb
      · exact (hsender b hb).trans hid'
    · intro w w' i _ heq hi
      rw [heq]
      exact hi
  exact ⟨fun i => (key i).1, fun i => (key i).2.1, fun i => (key i).2.2⟩

end GoPbft
end DistributedConsensus
