import DistributedConsensus.Foundations.Nodes
import DistributedConsensus.Foundations.Quorum
import DistributedConsensus.PbftSimulator.Evidence
import Mathlib.Data.Int.Interval

/-!
# PBFT simulator: the cluster

The nodes and their channels.  A message reaches each of its recipients after any
delay, any number of times or never.  A faulty replica sends anything under its
own id, and every request reaches any node at any time.
-/

namespace DistributedConsensus
namespace PbftSimulator

open Foundations

/-- The parameters of a run: `3f+1` replicas of which at most `f` are faulty. -/
structure Deployment where
  f : ℕ
  faulty : Finset ℤ
  clients : Finset ℤ
  faulty_mem : ∀ j ∈ faulty, 0 ≤ j ∧ j < 3 * f + 1
  faulty_le : faulty.card ≤ f

/-- What makes a node act. -/
inductive Input where
  /-- A packet of a correct node. -/
  | deliver (j : ℤ) (p : Packet)
  /-- A message of a faulty node. -/
  | forge (m : Message)
  | request (r : Request)
  | requestTimeout
  | viewChangeTimeout

/-- An input, and the orders in which the handler iterates over maps. -/
structure Event where
  input : Input
  orders : ℕ → Orders

/-- The message that the node receives. -/
def Input.message : Input → Option Message
  | deliver _ p => some p.msg
  | forge m => some m
  | request r => some (.request r)
  | requestTimeout | viewChangeTimeout => none

/-- The nodes by their ids. -/
abbrev Cluster := ℤ → Node

variable (D : Deployment)

def Deployment.config : Config := ⟨3 * D.f + 1, D.f⟩

def Deployment.IsReplica (i : ℤ) : Prop := 0 ≤ i ∧ i < 3 * D.f + 1

instance (i : ℤ) : Decidable (D.IsReplica i) := inferInstanceAs (Decidable (_ ∧ _))

/-- The replica follows the protocol. -/
def Deployment.IsCorrect (i : ℤ) : Prop := D.IsReplica i ∧ i ∉ D.faulty

instance (i : ℤ) : Decidable (D.IsCorrect i) := inferInstanceAs (Decidable (_ ∧ _))

/-- The input can happen at the node. -/
def Cluster.Enabled (w : Cluster) (i : ℤ) : Input → Prop
  | .deliver j p => D.IsCorrect i ∧ D.IsCorrect j ∧ p ∈ (w j).sent ∧ i ∈ p.recipients
  | .forge m => D.IsCorrect i ∧ m.senderID ∈ D.faulty
  | .request _ => D.IsCorrect i
  | .requestTimeout => D.IsCorrect i ∧ (w i).timerActive = true
  | .viewChangeTimeout => D.IsCorrect i ∧ (w i).activeView = false

instance (w : Cluster) (i : ℤ) : ∀ e, Decidable (w.Enabled D i e)
  | .deliver _ _ => inferInstanceAs (Decidable (_ ∧ _))
  | .forge _ => inferInstanceAs (Decidable (_ ∧ _))
  | .request _ => inferInstanceAs (Decidable (D.IsCorrect i))
  | .requestTimeout => inferInstanceAs (Decidable (_ ∧ _))
  | .viewChangeTimeout => inferInstanceAs (Decidable (_ ∧ _))

/-- One step of a node. -/
def Node.handle (n : Node) (e : Event) : Node :=
  match e.input.message with
  | some m => n.handleMessage D.config e.orders m
  | none =>
      match e.input with
      | .requestTimeout => n.requestTimeout D.config e.orders
      | _ => n.changeView D.config e.orders

/-- The nodes as a network. -/
def nodes : Nodes ℤ Node Event where
  start := fun i => Node.new i D.clients
  Enabled := fun w i e => Cluster.Enabled D w i e.input
  handle := fun _ n e => n.handle D e

instance (w : ℤ → Node) (i : ℤ) (e : Event) : Decidable ((nodes D).Enabled w i e) :=
  inferInstanceAs (Decidable (Cluster.Enabled D w i e.input))

/-- The runs of a deployment. -/
def cluster : System Cluster (ℤ × Event) := (nodes D).system

/-- The cluster after an event. -/
def Cluster.after (w : Cluster) (i : ℤ) (e : Event) : Cluster :=
  Function.update w i ((w i).handle D e)

/-- The step relies on none of the missing checks in the list. -/
def Avoiding (L : List Defect) (w : Cluster) (l : ℤ × Event) : Prop :=
  ∀ m ∈ l.2.input.message, ∀ x ∈ L, (w l.1).Avoids D.config m x

instance (L : List Defect) (w : Cluster) (l : ℤ × Event) : Decidable (Avoiding D L w l) :=
  inferInstanceAs (Decidable (∀ m ∈ l.2.input.message, ∀ x ∈ L, _))

/-- The sender is a replica, and a correct one has sent the message. -/
def Cluster.Genuine (w : Cluster) (m : Message) : Prop :=
  D.IsReplica m.senderID ∧ (D.IsCorrect m.senderID → (w m.senderID).HasSent m)

variable {D} {L : List Defect}

/-- Two sets of at least `2f+1` replicas share a correct one. -/
theorem Deployment.exists_correct_inter
    {Q Q' : Finset ℤ}
    (hQ : ∀ j ∈ Q, D.IsReplica j)
    (hQ' : ∀ j ∈ Q', D.IsReplica j)
    (hcard : quorumSize D.f ≤ Q.card)
    (hcard' : quorumSize D.f ≤ Q'.card) :
    ∃ j ∈ Q, j ∈ Q' ∧ D.IsCorrect j := by
  have hsub : Q ∪ Q' ⊆ Finset.Ico (0 : ℤ) (3 * D.f + 1) := by
    intro j hj
    rw [Finset.mem_Ico]
    exact (Finset.mem_union.mp hj).elim (hQ j) (hQ' j)
  have hunion := Finset.card_le_card hsub
  rw [Int.card_Ico] at hunion
  have hinter := Finset.card_union_add_card_inter Q Q'
  have hfaulty := D.faulty_le
  unfold quorumSize at hcard hcard'
  have hbig : D.faulty.card < (Q ∩ Q').card := by omega
  obtain ⟨j, hj, hcorrect⟩ := exists_correct_of_card_lt hbig
  rw [Finset.mem_inter] at hj
  exact ⟨j, hj.1, hj.2, hQ j hj.1, hcorrect⟩

namespace Cluster

variable {w w' : Cluster} {i : ℤ} {e : Event} {ok : Cluster → ℤ × Event → Prop}

theorem Enabled.isCorrect
    {e : Input}
    (h : w.Enabled D i e) :
    D.IsCorrect i := by
  cases e with
  | request => exact h
  | deliver | forge | requestTimeout | viewChangeTimeout => exact h.1

/-- The invariant of a node that every run keeps. -/
structure Sound (D : Deployment) (L : List Defect) (w : Cluster) (i : ℤ) : Prop where
  id : (w i).id = i
  fit : (w i).Fit D.config (· ∉ L)
  authentic : (w i).Authentic (w.Genuine D)

/-- A node that follows the protocol has only genuine messages of its own. -/
theorem Genuine.of_known
    {m : Message}
    (hid : (w i).id = i)
    (hcorrect : D.IsCorrect i)
    (h : (w i).Known (w.Genuine D) m) :
    w.Genuine D m := by
  rcases h with hgenuine | ⟨hself, hsent⟩
  · exact hgenuine
  · rw [hid] at hself
    exact ⟨by rw [hself]; exact hcorrect.1, fun _ => by rw [hself]; exact hsent⟩

/-- A message that arrives is a request or genuine. -/
theorem receivable
    (hw : ∀ j, w.Sound D L j)
    (henabled : w.Enabled D i e.input) :
    Node.Receivable (w.Genuine D) e.input.message := by
  intro m hm
  obtain ⟨input, orders⟩ := e
  cases input with
  | deliver j p =>
      obtain rfl := Option.some.inj hm
      obtain ⟨-, hj, hp, -⟩ := henabled
      exact Or.inr (Genuine.of_known (hw j).id hj ((hw j).authentic.sent _ ⟨p, hp, rfl⟩))
  | forge m' =>
      obtain rfl := Option.some.inj hm
      exact Or.inr ⟨D.faulty_mem _ henabled.2, fun h => absurd henabled.2 h.2⟩
  | request r =>
      obtain rfl := Option.some.inj hm
      exact Or.inl ⟨r, rfl⟩
  | requestTimeout | viewChangeTimeout => cases hm

/-- No PRE-PREPARE or NEW-VIEW comes back to the node that has sent it. -/
theorem senderID_ne
    {m : Message}
    (hw : ∀ j, w.Sound D L j)
    (henabled : w.Enabled D i e.input)
    (hm : e.input.message = some m)
    (hproposes : m.proposes = true) :
    m.senderID ≠ (w i).id := by
  obtain ⟨input, orders⟩ := e
  rw [(hw i).id]
  cases input with
  | deliver j p =>
      obtain rfl := Option.some.inj hm
      obtain ⟨-, -, hp, hi⟩ := henabled
      obtain ⟨hsender, hrecipients⟩ := (hw j).authentic.own p hp hproposes
      rw [hsender]
      intro hij
      rw [hij] at hrecipients
      exact hrecipients hi
  | forge m' =>
      obtain rfl := Option.some.inj hm
      intro hself
      rw [← hself] at henabled
      exact henabled.1.2 henabled.2
  | request r =>
      obtain rfl := Option.some.inj hm
      cases hproposes
  | requestTimeout | viewChangeTimeout => cases hm

/-- A step of a node is a sequence of effects. -/
theorem handle_runs
    (hw : ∀ j, w.Sound D L j)
    (havoids : Avoiding D L w (i, e))
    (henabled : w.Enabled D i e.input) :
    Node.Runs D.config (· ∉ L) e.input.message ⟨w i, []⟩ ⟨(w i).handle D e, []⟩ := by
  unfold Node.handle
  cases hm : e.input.message with
  | some m =>
      refine Node.handleMessage_runs (hw i).fit ⟨?_, ?_⟩ ?_ _
      · rintro p rfl
        exact senderID_ne hw henabled hm rfl
      · rintro v rfl
        exact senderID_ne hw henabled hm rfl
      · intro x
        by_cases hx : x ∈ L
        · exact Or.inr (havoids m hm x hx)
        · exact Or.inl hx
  | none =>
      simp only
      split
      case h_1 => exact Node.requestTimeout_runs (hw i).fit _
      case h_2 => exact Node.changeView_runs _ _ (hw i).fit

/-- The progress of a node: it keeps its id and what it has sent. -/
def Grows (n n' : Node) : Prop := n'.id = n.id ∧ n.sent <+: n'.sent

theorem Grows.refl (n : Node) : Grows n n := ⟨rfl, List.prefix_refl _⟩

theorem Genuine.mono
    {m : Message}
    (hext : Nodes.Extends Grows w w')
    (h : w.Genuine D m) :
    w'.Genuine D m :=
  ⟨h.1, fun hcorrect => (h.2 hcorrect).mono (hext _).2⟩

theorem fit_new (hL : L = [] ∨ .regress ∈ L) (id : ℤ) :
    (Node.new id D.clients).Fit D.config (· ∉ L) where
  held _ _ h := by cases h
  sane := by
    refine hL.imp (fun hL x => ?_) fun hL => ⟨not_not.mpr hL, ?_⟩
    · rw [hL]
      exact List.not_mem_nil
    refine ⟨?_, ?_, ?_, fun h => absurd rfl h⟩
    · intro _ _ h
      cases h
    · intro _ _ h
      cases h
    · intro _ h
      cases h

theorem reachable_sound
    (hL : L = [] ∨ .regress ∈ L)
    (hreach : (cluster D).Reachable (Avoiding D L) w) :
    ∀ i, w.Sound D L i := by
  refine Nodes.reachable_invariant (N := nodes D) (R := Grows)
    (I := fun w i => Cluster.Sound D L w i) Grows.refl ?_ ?_ ?_ hreach
  · exact fun i => ⟨rfl, fit_new hL i, Node.authentic_new i _⟩
  · intro w i e _ hw havoids henabled
    have hruns := handle_runs hw havoids henabled
    refine ⟨⟨hruns.id, hruns.sent⟩, fun hext => ?_⟩
    have hauthentic := (hw i).authentic.runs (receivable hw henabled) hruns
    refine ⟨?_, ?_, ?_⟩
    · rw [Function.update_self]
      exact hruns.id.trans (hw i).id
    · rw [Function.update_self]
      exact (hw i).fit.runs hruns
    · rw [Function.update_self]
      exact hauthentic.imp fun m => Genuine.mono hext
  · intro w w' i hext hsame hi
    refine ⟨?_, ?_, ?_⟩
    · rw [hsame]
      exact hi.id
    · rw [hsame]
      exact hi.fit
    · rw [hsame]
      exact hi.authentic.imp fun m => Genuine.mono hext

end Cluster

end PbftSimulator
end DistributedConsensus
