import DistributedConsensus.PbftSimulator.Executions
import DistributedConsensus.PbftSimulator.RecordInvariants

/-!
# PBFT simulator: who holds the VIEW-CHANGE messages of a new view

The primary of a new view names the VIEW-CHANGE messages that enough replicas have
acknowledged.  It counts its own acknowledgement, it does not compare the digest of
an acknowledgement with the message that it has stored itself, and its own message
needs no acknowledgement.  In the runs where the counted acknowledgements are enough
without all this, `f+1` correct replicas hold each message that is named.
-/

namespace DistributedConsensus
namespace PbftSimulator

open Foundations

section Defs

variable (D : Deployment)

/-- The node once it has recorded the message of an event. -/
def Cluster.recording (w : Cluster) (i : ℤ) (e : Input) : Node :=
  match e.message with
  | some m => (w i).noted D.config m
  | none => w i

/-- The event can make the node give up its view. -/
def Node.MayResign (n : Node) (e : Input) : Prop := ∀ m ∈ e.message, (n.looksAt m).isSome = true

instance (n : Node) (e : Input) : Decidable (n.MayResign e) :=
  inferInstanceAs (Decidable (∀ m ∈ e.message, (n.looksAt m).isSome = true))

/-- The primary, the sender, and the replicas whose counted acknowledgement is for
exactly this message; a faulty replica acknowledges anything. -/
def Cluster.vouchers (w : Cluster) (n : Node) (u j : ℤ) (vc : ViewChange) : Finset ℤ :=
  insert n.id (insert j ((n.viewChangeAckCount.getD (u, j) ∅).filter fun k =>
    k ∈ D.faulty ∨ D.IsCorrect k ∧ (w k).stored u j = some vc))

/-- The messages that are enough for a NEW-VIEW message have been acknowledged by a
quorum. -/
def Cluster.QuorumVouches (w : Cluster) (n : Node) : Prop :=
  ∀ u ∈ n.viewChangeLog.keys, Node.primary D.config u = n.id → u ∉ n.newViewSent →
    quorumSize D.f ≤ (n.qualified D.config u).size →
      ∀ x ∈ (n.qualified D.config u).entries, quorumSize D.f ≤ (w.vouchers D n u x.1 x.2).card

instance (w : Cluster) (n : Node) : Decidable (w.QuorumVouches D n) :=
  inferInstanceAs (Decidable (∀ u ∈ n.viewChangeLog.keys, _ → _ → _ →
    ∀ x ∈ (n.qualified D.config u).entries, _))

/-- The own message of the node does not complete a quorum. -/
def OwnNotNeeded (n : Node) : Prop :=
  D.f = 0 ∨ ∀ u ∈ n.viewChangeLog.keys, n.view < u → Node.primary D.config u = n.id →
    u ∉ n.newViewSent → n.stored u n.id = none → (n.qualified D.config u).size < 2 * D.f

instance (n : Node) : Decidable (OwnNotNeeded D n) :=
  inferInstanceAs (Decidable (_ ∨ ∀ u ∈ n.viewChangeLog.keys, _ → _ → _ → _ → _))

/-- The step relies on acknowledgements of exactly the messages that it names. -/
def Vouched (w : Cluster) (l : ℤ × Event) : Prop :=
  w.QuorumVouches D (w.recording D l.1 l.2.input) ∧
    ((w l.1).MayResign l.2.input → OwnNotNeeded D (w.recording D l.1 l.2.input))

instance (w : Cluster) (l : ℤ × Event) : Decidable (Vouched D w l) :=
  inferInstanceAs (Decidable (_ ∧ (_ → _)))

/-- The step relies on such acknowledgements, and no node returns to a view that it
has given up. -/
def Attested (w : Cluster) (l : ℤ × Event) : Prop :=
  Avoiding D [.regress] w l ∧ Vouched D w l

instance (w : Cluster) (l : ℤ × Event) : Decidable (Attested D w l) :=
  inferInstanceAs (Decidable (_ ∧ _))

/-- The ids of the replicas. -/
def Deployment.replicas : Finset ℤ := (Finset.range (3 * D.f + 1)).image fun k : ℕ => (k : ℤ)

/-- The correct replicas that hold the message. -/
def Cluster.holders (w : Cluster) (u j : ℤ) (vc : ViewChange) : Finset ℤ :=
  D.replicas.filter fun k => k ∉ D.faulty ∧ (w k).stored u j = some vc

/-- Of each message that a NEW-VIEW message of the node names, `f+1` correct
replicas hold the one that the node has stored. -/
def Cluster.Provable (w : Cluster) (p : ℤ) : Prop :=
  ∀ m, (w p).HasSent (.newView m) → ∀ x ∈ m.vSet, ∃ vc, (w p).stored m.view x.replicaID = some vc ∧
    viewChangeDigest vc = x.digest ∧ D.f + 1 ≤ (w.holders D m.view x.replicaID vc).card

end Defs

namespace Cluster

variable {D : Deployment} {w w' : Cluster} {i p u j : ℤ} {e : Event} {vc : ViewChange}

theorem mem_replicas {k : ℤ} : k ∈ D.replicas ↔ D.IsReplica k := by
  unfold Deployment.replicas Deployment.IsReplica
  rw [Finset.mem_image]
  constructor
  · rintro ⟨l, hl, rfl⟩
    rw [Finset.mem_range] at hl
    omega
  · rintro ⟨hnonneg, hlt⟩
    exact ⟨k.toNat, by rw [Finset.mem_range]; omega, by omega⟩

theorem mem_holders {k : ℤ} :
    k ∈ w.holders D u j vc ↔ D.IsCorrect k ∧ (w k).stored u j = some vc := by
  unfold holders Deployment.IsCorrect
  rw [Finset.mem_filter, mem_replicas, and_assoc]

/-- A node handles an event after it has recorded its message. -/
theorem handle_moves
    (hw : ∀ j, w.Sound D [.regress] j)
    (havoids : Avoiding D [.regress] w (i, e)) :
    Node.Moves D.config ((w i).MayResign e.input) (w.recording D i e.input)
      ((w i).handle D e) := by
  have hkeyed : (w i).Keyed := fun v m hm => ((hw i).fit.held v m hm).1
  unfold Node.handle recording Node.MayResign
  cases hm : e.input.message with
  | some m =>
      have hmoves := Node.handleMessage_moves (c := D.config) (o := e.orders) hkeyed
        (havoids m hm .regress List.mem_cons_self)
      have hiff : ((w i).looksAt m).isSome = true ↔
          ∀ m' ∈ some m, ((w i).looksAt m').isSome = true := by simp
      rwa [propext hiff] at hmoves
  | none =>
      have hresign : ∀ m' ∈ (none : Option Message), ((w i).looksAt m').isSome = true := nofun
      simp only
      split
      case h_1 =>
        have hstopped : Node.SameRecords (w i) { w i with timerActive := false } :=
          ⟨rfl, rfl, rfl, rfl, rfl, fun _ hp _ => hp⟩
        exact hstopped.moves.trans (Node.changeView_moves hresign _ _ hkeyed)
      case h_2 => exact Node.changeView_moves hresign _ _ hkeyed

/-- A received VIEW-CHANGE message in the name of the node is one that it has sent. -/
theorem sent_of_received
    (hw : ∀ j, w.Sound D [.regress] j)
    (henabled : w.Enabled D i e.input)
    (hm : e.input.message = some (.viewChange vc))
    (hself : vc.senderID = (w i).id) :
    (w i).HasSent (.viewChange vc) := by
  rcases receivable hw henabled _ hm with ⟨r, hr⟩ | hgenuine
  · cases hr
  · rw [(hw i).id] at hself
    have hsent := hgenuine.2
    change D.IsCorrect vc.senderID → (w vc.senderID).HasSent (.viewChange vc) at hsent
    rw [hself] at hsent
    exact hsent henabled.isCorrect

theorem recording_recorded
    (hw : ∀ j, w.Sound D [.regress] j)
    (henabled : w.Enabled D i e.input)
    (h : (w i).Recorded) :
    (w.recording D i e.input).Recorded := by
  unfold recording
  cases hm : e.input.message with
  | none => exact h
  | some m =>
      refine h.noted fun vc hvc hself => ?_
      rw [hvc] at hm
      exact sent_of_received hw henabled hm hself

/-- Stored VIEW-CHANGE messages stay. -/
def Holds (n n' : Node) : Prop := ∀ u j vc, n.stored u j = some vc → n'.stored u j = some vc

theorem Holds.refl (n : Node) : Holds n n := fun _ _ _ h => h

/-- What recording a message keeps. -/
theorem recording_spec (w : Cluster) (i : ℤ) (e : Input) :
    (w.recording D i e).id = (w i).id ∧ Holds (w i) (w.recording D i e) ∧
      ∀ m, (w.recording D i e).HasSent (.newView m) → (w i).HasSent (.newView m) := by
  unfold recording
  cases hm : e.message with
  | none => exact ⟨rfl, Holds.refl _, fun _ h => h⟩
  | some m =>
      obtain ⟨⟨hid, -, -, -, hsent⟩, hlog⟩ := Node.noted_spec (c := D.config) (w i) m
      refine ⟨hid, fun u j vc hvc => ?_, fun m' hm' => ?_⟩
      · rcases hlog with hlog | ⟨vc', -, -, -, hnone, hlog⟩
        · change ((w i).noted D.config m).stored u j = some vc
          rw [Node.stored_of_logOf (hlog u)]
          exact hvc
        · have hstored : ((w i).noted D.config m).stored u j =
              ((w i).storeViewChange vc').stored u j := Node.stored_of_logOf (hlog u)
          show ((w i).noted D.config m).stored u j = some vc
          rw [hstored, Node.stored_storeViewChange_of_ne]
          · exact hvc
          · rintro ⟨rfl, rfl⟩
            rw [hvc] at hnone
            cases hnone
      · obtain ⟨p, hp, hmsg⟩ := hm'
        exact ⟨p, hsent p hp (by rw [hmsg]; rfl), hmsg⟩

theorem holders_mono
    (hext : Nodes.Extends Holds w w') :
    w.holders D u j vc ⊆ w'.holders D u j vc := by
  intro k hk
  rw [mem_holders] at hk ⊢
  exact ⟨hk.1, hext k u j vc hk.2⟩

theorem Provable.mono
    (h : w.Provable D p)
    (hext : Nodes.Extends Holds w w')
    (hsent : ∀ m, (w' p).HasSent (.newView m) → (w p).HasSent (.newView m)) :
    w'.Provable D p := by
  intro m hm x hx
  obtain ⟨vc, hstored, hdigest, hcard⟩ := h m (hsent m hm) x hx
  exact ⟨vc, hext p _ _ _ hstored, hdigest, hcard.trans (Finset.card_le_card (holders_mono hext))⟩

/-- The view of a message that the node names has an entry in its log. -/
theorem mem_keys_of_size_pos
    {n : Node}
    (h : 0 < (n.qualified D.config u).size) :
    u ∈ n.viewChangeLog.keys := by
  by_contra hnone
  have hlog : n.viewChangeLog.getD u Dict.empty = Dict.empty := by
    unfold Dict.getD
    rw [(Dict.get?_eq_none_iff _ _).mpr hnone]
    rfl
  unfold Node.qualified at h
  rw [hlog] at h
  exact absurd h (lt_irrefl 0)

/-- A new entry qualifies at most one more message. -/
theorem size_qualified_le
    {n n' : Node}
    (hid : n'.id = n.id)
    (hacks : n'.viewChangeAckCount = n.viewChangeAckCount)
    (hnone : n.stored u n.id = none)
    (hlog : n'.logOf u = (n.logOf u).set n.id vc) :
    (n'.qualified D.config u).size ≤ (n.qualified D.config u).size + 1 := by
  unfold Node.qualified
  change (Dict.filter (n'.logOf u) _).size ≤ (Dict.filter (n.logOf u) _).size + 1
  rw [hlog, hid, hacks]
  unfold Dict.filter Dict.size
  simp only
  have hnew : (n.logOf u).get? n.id = none := hnone
  rw [Dict.entries_set_of_get?_eq_none hnew, List.filter_append, List.length_append]
  refine Nat.add_le_add_left ?_ _
  exact List.length_filter_le _ [(n.id, vc)]

/-- The correct ones of a quorum that vouches for a message hold it. -/
theorem le_card_holders
    {n : Node}
    (hquorum : quorumSize D.f ≤ (w.vouchers D n u j vc).card)
    (hext : Nodes.Extends Holds w w')
    (hprimary : D.IsCorrect n.id ∧ (w' n.id).stored u j = some vc)
    (hsender : j ∉ D.faulty → D.IsCorrect j ∧ (w' j).stored u j = some vc) :
    D.f + 1 ≤ (w'.holders D u j vc).card := by
  have hsub : w.vouchers D n u j vc ⊆ w'.holders D u j vc ∪ D.faulty := by
    intro k hk
    by_cases hfaulty : k ∈ D.faulty
    · exact Finset.mem_union_right _ hfaulty
    refine Finset.mem_union_left _ (mem_holders.mpr ?_)
    rcases Finset.mem_insert.mp hk with rfl | hk
    · exact hprimary
    rcases Finset.mem_insert.mp hk with rfl | hk
    · exact hsender hfaulty
    · obtain ⟨hcorrect, hstored⟩ := (Finset.mem_filter.mp hk).2.resolve_left hfaulty
      exact ⟨hcorrect, hext k u j vc hstored⟩
  have hcard := (Finset.card_le_card hsub).trans (Finset.card_union_le _ _)
  have hfaulty := D.faulty_le
  unfold quorumSize at hquorum
  omega

/-- A correct replica holds the message that another node has stored for it. -/
theorem stored_of_correct
    (hw : ∀ i, w.Sound D [.regress] i)
    (hrecorded : ∀ i, (w i).Recorded)
    (hi : D.IsCorrect i)
    (hstored : (w i).stored u j = some vc)
    (hj : j ∉ D.faulty) :
    D.IsCorrect j ∧ (w j).stored u j = some vc := by
  obtain ⟨hview, hsender, hcorrect⟩ := (hrecorded i).stored u j vc hstored
  have hgenuine : w.Genuine D (.viewChange vc) :=
    Genuine.of_known (hw i).id hi ((hw i).authentic.stored u j vc hstored).2.2
  have hreplica : D.IsCorrect j := ⟨by rw [← hsender]; exact hgenuine.1, hj⟩
  have hsent : (w j).HasSent (.viewChange vc) := by
    have hsent := hgenuine.2
    change D.IsCorrect vc.senderID → (w vc.senderID).HasSent (.viewChange vc) at hsent
    rw [hsender] at hsent
    exact hsent hreplica
  have hown := ((hrecorded j).sent vc hsent (hsender.trans (hw j).id.symm)).2 hcorrect
  rw [hview, (hw j).id] at hown
  exact ⟨hreplica, hown⟩

/-- The invariant of the runs that rely on acknowledgements of exactly the messages
that are named. -/
structure Accountable (D : Deployment) (w : Cluster) (i : ℤ) : Prop where
  recorded : (w i).Recorded
  provable : D.IsCorrect i → w.Provable D i

/-- A new NEW-VIEW message names messages that enough correct replicas hold. -/
theorem provable_step
    (hi : D.IsCorrect i)
    (hid : (w i).id = i)
    (hvouched : Vouched D w (i, e))
    (hmoves : Node.Moves D.config ((w i).MayResign e.input) (w.recording D i e.input)
      ((w i).handle D e))
    (hext : Nodes.Extends Holds w (Cluster.after D w i e))
    (hsound : ∀ j, (Cluster.after D w i e).Sound D [.regress] j)
    (hrecorded : ∀ j, (Cluster.after D w i e j).Recorded)
    (h : w.Provable D i) :
    (Cluster.after D w i e).Provable D i := by
  have hafter : Cluster.after D w i e i = (w i).handle D e := Function.update_self _ _ _
  obtain ⟨hquorums, hown⟩ : w.QuorumVouches D (w.recording D i e.input) ∧
      ((w i).MayResign e.input → OwnNotNeeded D (w.recording D i e.input)) := hvouched
  obtain ⟨hid₀, -, hsent₀⟩ := recording_spec (D := D) w i e.input
  intro m hm x hx
  rw [hafter] at hm
  rcases hmoves.new_newView hm with hold | ⟨n₁, o, u, hmoves₁, hretains₁, hprimary, hfresh, hquorum, rfl⟩
  · obtain ⟨vc, hstored, hdigest, hcard⟩ := h m (hsent₀ m hold) x hx
    exact ⟨vc, hext i _ _ _ hstored, hdigest, hcard.trans (Finset.card_le_card (holders_mono hext))⟩
  · have hretains := hmoves₁.retains
    have hid₁ : n₁.id = i := hretains.id.trans (hid₀.trans hid)
    obtain ⟨q, hq, rfl⟩ := List.mem_map.mp hx
    have hqualified : (n₁.qualified D.config u).get? q.1 = some q.2 := Dict.mem_inOrder.mp hq
    have hstored : (Cluster.after D w i e i).stored u q.1 = some q.2 := by
      rw [hafter]
      exact hretains₁.stored _ _ _ (Node.stored_of_qualified hqualified)
    refine ⟨q.2, hstored, rfl, ?_⟩
    rcases Nat.eq_zero_or_pos D.f with hzero | hpos
    · -- Without faults the primary is enough.
      rw [hzero]
      exact Finset.card_pos.mpr ⟨i, mem_holders.mpr ⟨hi, hstored⟩⟩
    rcases hmoves₁.logOf u with hlog | ⟨hresign, hview, hnone, vc, hlog⟩
    · have hsame : n₁.qualified D.config u = (w.recording D i e.input).qualified D.config u := by
        unfold Node.qualified
        rw [hretains.id, hretains.acks]
        exact congrArg (fun log => Dict.filter log _) hlog
      rw [hsame] at hquorum hqualified
      have hkey := mem_keys_of_size_pos (D := D) (u := u)
        (lt_of_lt_of_le (Nat.succ_pos _) hquorum)
      have hvouchers := hquorums u hkey (hprimary.trans hretains.id)
        (fun hmem => hfresh (hretains.newViewSent hmem)) hquorum q (Dict.mem_entries_of_get? hqualified)
      refine le_card_holders hvouchers hext ?_
        (stored_of_correct hsound hrecorded hi hstored)
      rw [hid₀, hid]
      exact ⟨hi, hstored⟩
    · -- The own message is not what completes the quorum.
      have hsize := size_qualified_le (D := D) hretains.id hretains.acks hnone hlog
      have hlarge : 2 * D.f ≤ ((w.recording D i e.input).qualified D.config u).size := by
        unfold quorumSize at hquorum
        change 2 * D.f + 1 ≤ _ at hquorum
        omega
      have hsome : 0 < ((w.recording D i e.input).qualified D.config u).size := by omega
      have hsmall := (hown hresign).resolve_left (by omega) u (mem_keys_of_size_pos hsome) hview
        (hprimary.trans hretains.id) (fun hmem => hfresh (hretains.newViewSent hmem)) hnone
      omega

theorem reachable_accountable
    (hreach : (cluster D).Reachable (Attested D) w) :
    ∀ i, w.Accountable D i := by
  have hweak : ∀ w, (cluster D).Reachable (Attested D) w →
      ∀ i, w.Sound D [.regress] i := fun w h =>
    reachable_sound (Or.inr List.mem_cons_self) (System.Reaches.mono (fun _ _ h => h.1) h)
  refine Nodes.reachable_invariant (N := nodes D) (R := Holds)
    (I := fun w i => Cluster.Accountable D w i) Holds.refl ?_ ?_ ?_ hreach
  · intro i
    refine ⟨Node.recorded_new i _, fun _ m hm => ?_⟩
    obtain ⟨_, hp, -⟩ := hm
    cases hp
  · intro w i e hreach hw hok henabled
    have hsound := hweak w hreach
    have hmoves := handle_moves hsound hok.1
    have hholds : Holds (w i) ((w i).handle D e) := fun u j vc hvc =>
      hmoves.retains.stored u j vc ((recording_spec w i e.input).2.1 u j vc hvc)
    refine ⟨hholds, fun hext => ?_⟩
    have hrecorded : ((w i).handle D e).Recorded :=
      (recording_recorded hsound henabled (hw i).recorded).moves hmoves
    have hafter : ∀ j, (Cluster.after D w i e j).Recorded := by
      intro j
      by_cases hj : j = i
      · subst hj
        rw [Cluster.after, Function.update_self]
        exact hrecorded
      · rw [Cluster.after, Function.update_of_ne hj]
        exact (hw j).recorded
    refine ⟨hafter i, fun hi => ?_⟩
    refine provable_step hi (hsound i).id hok.2 hmoves hext ?_ hafter ((hw i).provable hi)
    exact hweak _ (System.Reaches.tail hreach hok (Nodes.step_of_enabled henabled))
  · intro w w' i hext hsame hi
    refine ⟨by rw [hsame]; exact hi.recorded, fun hcorrect => ?_⟩
    refine (hi.provable hcorrect).mono hext fun m hm => ?_
    rwa [hsame] at hm

/-- In the runs that rely on acknowledgements of exactly the named messages, `f+1`
correct replicas hold each VIEW-CHANGE message that a NEW-VIEW message names. -/
theorem newView_provable
    (hreach : (cluster D).Reachable (Attested D) w)
    {m : NewView} {x : VCEntry}
    (hp : D.IsCorrect p)
    (hm : (w p).HasSent (.newView m))
    (hx : x ∈ m.vSet) :
    ∃ vc, (w p).stored m.view x.replicaID = some vc ∧ viewChangeDigest vc = x.digest ∧
      D.f + 1 ≤ (w.holders D m.view x.replicaID vc).card :=
  (reachable_accountable hreach p).provable hp m hm x hx

section Runs

/-- The VIEW-CHANGE message for view 1 of a replica that has prepared nothing. -/
def emptyViewChange (j : ℤ) : ViewChange := ⟨1, j, [], []⟩

/-- Replicas 1, 2 and 3 give up view 0 and receive each other's VIEW-CHANGE messages;
the primary of view 1 receives the acknowledgements of replicas 2 and 3. -/
theorem newView_provable_faultyPrimary :
    ∃ w, (cluster faultyPrimary).Reachable (Attested faultyPrimary) w ∧
      ∃ vc, (w 1).stored 1 3 = some vc ∧ 2 ≤ (w.holders faultyPrimary 1 3 vc).card := by
  obtain ⟨w, hreach, m, hm, hview, x, hx, hreplica⟩ :
      ∃ w, (cluster faultyPrimary).Reachable (Attested faultyPrimary) w ∧
        ∃ m, (w 1).HasSent (.newView m) ∧ m.view = 1 ∧ ∃ x ∈ m.vSet, x.replicaID = 3 := by
    obtain ⟨w, hreach, hsent⟩ :
        ∃ w, (cluster faultyPrimary).Reachable (Attested faultyPrimary) w ∧
          (w 1).HasSent (.newView ⟨1, 1,
            [1, 2, 3].map fun j => ⟨j, viewChangeDigest (emptyViewChange j)⟩, []⟩) := by
      refine System.exists_reaches_of_exec ([1, 2, 3].map (fun i => (i, requests requestA)) ++
        [1, 2, 3].map (fun i => (i, step .requestTimeout)) ++
        [(2, 1), (3, 1), (1, 2), (3, 2), (1, 3), (2, 3)].map
          (fun l => (l.1, receives l.2 (.viewChange (emptyViewChange l.2)))) ++
        [(2, 1), (3, 1), (3, 2), (2, 3)].map
          (fun l => (1, receivesAck l.1 (emptyViewChange l.2)))) ?_
      decide +kernel
    exact ⟨w, hreach, _, hsent, rfl, ⟨3, viewChangeDigest (emptyViewChange 3)⟩, by decide, rfl⟩
  obtain ⟨vc, hstored, -, hcard⟩ := newView_provable hreach (by decide) hm hx
  rw [hview, hreplica] at hstored hcard
  exact ⟨w, hreach, vc, hstored, hcard⟩

/-- Replica 3 is faulty and sends its VIEW-CHANGE message to the primary only.  The
acknowledgement of the primary itself is enough, and nobody else holds the message. -/
theorem not_newView_provable :
    ∃ w, (cluster (oneFaulty 3 (by decide))).Reachable System.anyStep w ∧
      (oneFaulty 3 (by decide)).IsCorrect 1 ∧
      ¬w.Provable (oneFaulty 3 (by decide)) 1 := by
  obtain ⟨w, hreach, hsent, hstored, hcard⟩ :
      ∃ w, (cluster (oneFaulty 3 (by decide))).Reachable System.anyStep w ∧
        (w 1).HasSent (.newView ⟨1, 1,
          [1, 2, 3].map fun j => ⟨j, viewChangeDigest (emptyViewChange j)⟩, []⟩) ∧
        (w 1).stored 1 3 = some (emptyViewChange 3) ∧
        (w.holders (oneFaulty 3 (by decide)) 1 3 (emptyViewChange 3)).card = 1 := by
    refine System.exists_reaches_of_exec ([1, 2].map (fun i => (i, requests requestA)) ++
      [1, 2].map (fun i => (i, step .requestTimeout)) ++
      [(1, receives 2 (.viewChange (emptyViewChange 2))),
        (1, receivesAck 1 (emptyViewChange 2)),
        (1, step (.forge (.viewChange (emptyViewChange 3)))),
        (1, receivesAck 1 (emptyViewChange 3))]) ?_
    decide +kernel
  refine ⟨w, hreach, by decide, fun hprovable => ?_⟩
  obtain ⟨vc, hvc, -, hholders⟩ := hprovable _ hsent ⟨3, viewChangeDigest (emptyViewChange 3)⟩
    (by decide)
  obtain rfl : emptyViewChange 3 = vc := Option.some.inj (hstored.symm.trans hvc)
  change 2 ≤ (w.holders (oneFaulty 3 (by decide)) 1 3 (emptyViewChange 3)).card at hholders
  omega

end Runs

end Cluster

end PbftSimulator
end DistributedConsensus
