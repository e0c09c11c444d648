import DistributedConsensus.GoPbft.Courses

/-!
# PBFT: any number of correct replicas

The replicas of `Cluster` without faulty ones among them.  A replica that has left a view,
or that has stopped in it and has no NEW-VIEW message for it under way, never acts in the
view again.
-/

namespace DistributedConsensus
namespace GoPbft

open Foundations

section Model

variable (n : ℕ) (digestOf : ClientRequest → String)

/-- The event can happen at one of `n` correct replicas. -/
def Cluster.Ready (w : Cluster) (i : ℕ) : Event → Prop
  | .request _ => i < n
  | .deliver k b =>
      i < n ∧ (w b.msg.sender).rs.sent[k]? = some b ∧ i ∈ b.recipients ∧
        (b.msg.sender, k) ∉ (w i).received
  | .forge _ => False
  | .timeout => i < n ∧ (w i).rs.timer = true

instance (w : Cluster) (i : ℕ) : ∀ e, Decidable (w.Ready n i e)
  | .request _ => inferInstanceAs (Decidable (i < n))
  | .deliver _ _ => inferInstanceAs (Decidable (_ ∧ _ ∧ _ ∧ _))
  | .forge _ => inferInstanceAs (Decidable False)
  | .timeout => inferInstanceAs (Decidable (_ ∧ _))

/-- One pass of the loop of `Run`. -/
def Replica.react (x : Replica) : Event → Replica
  | .request req => { x with rs := x.rs.receive n digestOf ⟨x.rs.id, .request req⟩ }
  | .deliver k b => ⟨x.rs.receive n digestOf b.msg, (b.msg.sender, k) :: x.received⟩
  | .forge m => { x with rs := x.rs.receive n digestOf m }
  | .timeout => { x with rs := x.rs.onTimeout n }

/-- The correct replicas as a network. -/
def replicas : Nodes ℕ Replica Event where
  start := fun i => ⟨RunState.new i, []⟩
  Enabled := fun w i e => Cluster.Ready n w i e
  handle := fun _ x e => x.react n digestOf e

instance (w : ℕ → Replica) (i : ℕ) (e : Event) :
    Decidable ((replicas n digestOf).Enabled w i e) :=
  inferInstanceAs (Decidable (Cluster.Ready n w i e))

/-- The runs of `n` correct replicas. -/
def ensemble : System Cluster (ℕ × Event) := (replicas n digestOf).system

end Model

namespace Cluster

variable {n : ℕ} {digestOf : ClientRequest → String} {w : Cluster} {i j : ℕ} {e : Event}

section Steady

/-- What holds of every replica of an ensemble. -/
structure Steady (n : ℕ) (w : Cluster) (i : ℕ) : Prop where
  id : (w i).rs.id = i
  senders : ∀ b ∈ (w i).rs.sent, b.msg.sender = i
  lt : (w i).rs.sent ≠ [] → i < n
  nonneg : 0 ≤ (w i).rs.view
  primary : (w i).rs.view ≤ (w (primaryFor (w i).rs.view n)).rs.view
  newView : ∀ v proofs, (w i).rs.HasSent (.newView v proofs) → v ≤ (w i).rs.view

/-- The event hands over a message that was sent to the replica. -/
def Brings (w : Cluster) (i : ℕ) (e : Event) (m : PBFTMessage) : Prop :=
  e.message i = some m ∧ ∃ b ∈ (w m.sender).rs.sent, b.msg = m ∧ i ∈ b.recipients

theorem Ready.lt
    (h : w.Ready n i e) :
    i < n := by
  cases e with
  | request => exact h
  | deliver | timeout => exact h.1
  | forge => exact h.elim

/-- Handling an event is a sequence of effects. -/
theorem react_runs
    {R : LogEntry → Prop} {Q : ℤ → ℤ → String → Prop}
    (hid : (w i).rs.id = i)
    (hready : w.Ready n i e)
    (hR : ∀ m ∈ e.message i, ∀ entry ∈ (w i).rs.rewritten n m, R entry)
    (hQ : ∀ m ∈ e.message i, ∀ v s d,
      (w i).rs.proposal n digestOf m = some (v, s, d) → Q v s d) :
    RunState.Runs n digestOf (w.Brings i e) R Q (w i).rs ((w i).react n digestOf e).rs := by
  cases e with
  | request req =>
      have hpropose : ∀ v s d, (w i).rs.proposal n digestOf ⟨(w i).rs.id, .request req⟩ =
          some (v, s, d) → Q v s d := by
        rw [hid]
        exact fun v s d => hQ _ rfl v s d
      exact RunState.handleClientRequest_runs hpropose
  | deliver k b =>
      obtain ⟨-, hget, hi, -⟩ := hready
      exact RunState.receive_runs ⟨rfl, b, List.mem_of_getElem? hget, rfl, hi⟩ (hR _ rfl)
        fun v s d => hQ _ rfl v s d
  | forge => exact hready.elim
  | timeout => exact RunState.onTimeout_runs _

/-- The state after an event. -/
abbrev next (n : ℕ) (digestOf : ClientRequest → String) (w : Cluster) (i : ℕ) (e : Event) :
    Cluster :=
  Function.update w i ((w i).react n digestOf e)

/-- The event makes the replica propose the digest. -/
def Proposing (n : ℕ) (digestOf : ClientRequest → String) (w : Cluster) (i : ℕ) (e : Event)
    (v s : ℤ) (d : String) : Prop :=
  ∃ m, e.message i = some m ∧ (w i).rs.proposal n digestOf m = some (v, s, d)

theorem react_course
    (digestOf : ClientRequest → String)
    (hid : (w i).rs.id = i)
    (hready : w.Ready n i e) :
    RunState.Course n (w.Brings i e) (w.Proposing n digestOf i e) (w i).rs
      ((w i).react n digestOf e).rs :=
  (react_runs (R := fun _ => True) hid hready (fun _ _ _ _ => trivial)
    fun m hm _ _ _ h => ⟨m, hm, h⟩).course

theorem react_grows
    (hid : (w i).rs.id = i)
    (hready : w.Ready n i e) :
    RunState.Grows (w i).rs ((w i).react n digestOf e).rs :=
  (@react_runs n digestOf w i e (fun _ => True) (fun _ _ _ => True) hid hready
    (fun _ _ _ _ => trivial) fun _ _ _ _ _ _ => trivial).grows

/-- The replica after the event. -/
theorem steady_next
    (hw : ∀ j, w.Steady n j)
    (hready : w.Ready n i e)
    (hext : Nodes.Extends (fun x y : Replica => RunState.Grows x.rs y.rs) w
      (w.next n digestOf i e)) :
    (w.next n digestOf i e).Steady n i := by
  have hcourse := react_course digestOf (hw i).id hready
  have hself : w.next n digestOf i e i = (w i).react n digestOf e := Function.update_self _ _ _
  have hle := hcourse.view_le
  have hnonneg := (hw i).nonneg
  obtain ⟨extra, hextra, hallowed⟩ := hcourse.sent
  constructor
  · rw [hself, hcourse.id]
    exact (hw i).id
  · intro b hb
    rw [hself, hextra] at hb
    rcases List.mem_append.mp hb with hb | hb
    · exact (hw i).senders b hb
    · exact (hallowed b hb).1.trans (hw i).id
  · exact fun _ => hready.lt
  · rw [hself]
    omega
  · rw [hself]
    rcases hcourse.view with heq | hprimary | ⟨proofs, -, b, hb, hmsg, -⟩
    · rw [heq]
      exact (hw i).primary.trans (hext _).view
    · rw [hprimary, (hw i).id, hself]
    · have hsent : (w (primaryFor ((w i).react n digestOf e).rs.view n)).rs.HasSent
          (.newView ((w i).react n digestOf e).rs.view proofs) :=
        ⟨b, hb, by rw [(hw _).id]; exact hmsg⟩
      exact ((hw _).newView _ _ hsent).trans (hext _).view
  · intro v proofs
    rw [hself]
    rintro ⟨b, hb, hmsg⟩
    rw [hextra] at hb
    rcases List.mem_append.mp hb with hb | hb
    · have hold := (hw i).newView v proofs ⟨b, hb, by rw [← hcourse.id]; exact hmsg⟩
      omega
    · have hkind := (hallowed b hb).2
      rw [hmsg] at hkind
      exact hkind.2

theorem steady
    {ok : Cluster → ℕ × Event → Prop}
    (hreach : (ensemble n digestOf).Reachable ok w)
    (i : ℕ) :
    w.Steady n i := by
  refine Nodes.reachable_invariant (N := replicas n digestOf)
    (R := fun x y => RunState.Grows x.rs y.rs)
    (I := fun w i => Steady n w i) (fun x => RunState.Grows.refl x.rs) ?_ ?_ ?_ hreach i
  · refine fun i => ⟨rfl, by simp [replicas, RunState.new], fun h => absurd rfl h, le_refl _,
      le_refl _, ?_⟩
    rintro v proofs ⟨b, hb, -⟩
    cases hb
  · intro w i e _ hw _ hready
    exact ⟨react_grows (hw i).id hready, fun hext => steady_next hw hready hext⟩
  · intro w w' i hext heq hi
    constructor
    · rw [heq]
      exact hi.id
    · rw [heq]
      exact hi.senders
    · rw [heq]
      exact hi.lt
    · rw [heq]
      exact hi.nonneg
    · rw [heq]
      exact hi.primary.trans (hext _).view
    · rw [heq]
      exact hi.newView

end Steady

section Acting

/-- A NEW-VIEW message of the view is under way to the replica. -/
def Awaits (n : ℕ) (w : Cluster) (v : ℤ) (j : ℕ) : Prop :=
  ∃ (k : ℕ) (b : Multicast) (proofs : List ℕ),
    (w (primaryFor v n)).rs.sent[k]? = some b ∧
      b.msg = ⟨primaryFor v n, .newView v proofs⟩ ∧ j ∈ b.recipients ∧
      (primaryFor v n, k) ∉ (w j).received

/-- The replica may still act in the view: it has not reached the view, it is active in
it, or it has stopped in it and a NEW-VIEW is under way. -/
def MayAct (n : ℕ) (w : Cluster) (v : ℤ) (j : ℕ) : Prop :=
  (w j).rs.view < v ∨ (w j).rs.view = v ∧ ((w j).rs.active = true ∨ w.Awaits n v j)

/-- A NEW-VIEW that the event hands over was under way. -/
theorem awaits_of_brings
    {v : ℤ} {proofs : List ℕ}
    (hready : w.Ready n i e)
    (h : w.Brings i e ⟨primaryFor v n, .newView v proofs⟩) :
    w.Awaits n v i := by
  obtain ⟨hmessage, -⟩ := h
  cases e with
  | request req =>
      have hkind := congrArg PBFTMessage.kind (Option.some.inj hmessage)
      cases hkind
  | deliver k b =>
      obtain ⟨-, hget, hrecipient, hfresh⟩ := hready
      have hmsg : b.msg = ⟨primaryFor v n, .newView v proofs⟩ := Option.some.inj hmessage
      rw [hmsg] at hget hfresh
      exact ⟨k, b, proofs, hget, hmsg, hrecipient, hfresh⟩
  | forge => exact hready.elim
  | timeout => cases hmessage

/-- A replica that could not act in a view any more still cannot. -/
theorem mayAct_of_next
    {v : ℤ}
    (hw : ∀ j, w.Steady n j)
    (hready : w.Ready n i e)
    (h : (w.next n digestOf i e).MayAct n v j) :
    w.MayAct n v j := by
  have hcourse := react_course digestOf (hw i).id hready
  obtain ⟨extra, hextra, hallowed⟩ := hcourse.sent
  -- A NEW-VIEW that was already under way, or that the event sends.
  have hawaits : (w j).rs.view = v →
      (∀ p, p ∉ ((w.next n digestOf i e) j).received → p ∉ (w j).received) →
      (w.next n digestOf i e).Awaits n v j → w.Awaits n v j := by
    rintro hview hreceived ⟨k, b, proofs, hget, hmsg, hj, hnew⟩
    refine ⟨k, b, proofs, ?_, hmsg, hj, hreceived _ hnew⟩
    by_cases hp : primaryFor v n = i
    · rw [hp, next, Function.update_self, hextra] at hget
      rw [hp]
      rcases lt_or_ge k (w i).rs.sent.length with hlt | hge
      · rwa [List.getElem?_append_left hlt] at hget
      · -- The primary has reached the view before.
        rw [List.getElem?_append_right hge] at hget
        have hkind := (hallowed b (List.mem_of_getElem? hget)).2
        rw [hmsg] at hkind
        have hprimary := (hw j).primary
        rw [hview, hp] at hprimary
        have hlt := hkind.1
        omega
    · rwa [next, Function.update_of_ne hp] at hget
  by_cases hj : j = i
  · subst hj
    have hself : w.next n digestOf j e j = (w j).react n digestOf e := Function.update_self _ _ _
    have hle := hcourse.view_le
    unfold MayAct at h
    rw [hself] at h
    rcases h with hlt | ⟨heq, hactive⟩
    · exact Or.inl (by omega)
    · rcases hle.lt_or_eq with hlt | hsame
      · exact Or.inl (by omega)
      · refine Or.inr ⟨hsame.trans heq, ?_⟩
        rcases hactive with hactive | hpend
        · rcases hcourse.active hactive with hold | hlt | ⟨proofs, hbrings⟩
          · exact Or.inl hold
          · omega
          · rw [heq] at hbrings
            exact Or.inr (awaits_of_brings hready hbrings)
        · refine Or.inr (hawaits (hsame.trans heq) ?_ hpend)
          intro p hp
          rw [hself] at hp
          cases e with
          | deliver k b => exact fun hmem => hp (List.mem_cons_of_mem _ hmem)
          | request | forge | timeout => exact hp
  · have hother : w.next n digestOf i e j = w j := Function.update_of_ne hj _ _
    unfold MayAct at h
    rw [hother] at h
    rcases h with hlt | ⟨heq, hactive | hpend⟩
    · exact Or.inl hlt
    · exact Or.inr ⟨heq, Or.inl hactive⟩
    · refine Or.inr ⟨heq, Or.inr (hawaits heq ?_ hpend)⟩
      rw [hother]
      exact fun _ hp => hp

/-- A new COMMIT is of a view in which its replica is active. -/
theorem commit_of_next
    {v s : ℤ} {d : String}
    (hid : (w i).rs.id = i)
    (hready : w.Ready n i e)
    (h : (w.next n digestOf i e j).rs.HasSent (.commit v s d)) :
    (w j).rs.HasSent (.commit v s d) ∨ w.MayAct n v j := by
  by_cases hj : j = i
  · subst hj
    rw [next, Function.update_self] at h
    cases e with
    | request req =>
        rcases RunState.commit_of_receive h with hold | ⟨-, -, hkind | ⟨_, hkind⟩⟩
        · exact Or.inl hold
        · cases hkind
        · cases hkind
    | deliver k b =>
        rcases RunState.commit_of_receive h with hold | ⟨hactive, rfl, -⟩
        · exact Or.inl hold
        · exact Or.inr (Or.inr ⟨rfl, Or.inl hactive⟩)
    | forge => exact hready.elim
    | timeout =>
        have hcourse := react_course digestOf hid hready
        obtain ⟨extra, hextra, hallowed⟩ := hcourse.sent
        obtain ⟨b, hb, hmsg⟩ := h
        rw [hcourse.id] at hmsg
        rw [hextra] at hb
        rcases List.mem_append.mp hb with hb | hb
        · exact Or.inl ⟨b, hb, hmsg⟩
        · have hkind := (hallowed b hb).2
          rw [hmsg] at hkind
          obtain ⟨_, ⟨hm, -⟩ | ⟨_, hm, -⟩⟩ := hkind
          · cases hm
          · cases hm
  · left
    rwa [next, Function.update_of_ne hj] at h

end Acting

end Cluster

end GoPbft
end DistributedConsensus
