import DistributedConsensus.PbftSimulator.Effects

/-!
# PBFT simulator: the evidence that a node has

What a node stores and counts goes back to messages that it has received or sent.
`K` tells which messages may be received; it does not hold for a message that
names a correct node which has not sent it.
-/

namespace DistributedConsensus
namespace PbftSimulator

open Foundations

/-- A PRE-PREPARE or a NEW-VIEW. -/
def Message.proposes : Message → Bool
  | prePrepare _ | newView _ => true
  | _ => false

namespace Node

variable {c : Config} {D : Defect → Prop} {e : Option Message} {K K' : Message → Prop} {n n' : Node}
  {s s' : Stage}

/-- The message may be received, or the node has sent it in its own name. -/
def Known (K : Message → Prop) (n : Node) (m : Message) : Prop :=
  K m ∨ m.senderID = n.id ∧ n.HasSent m

theorem Known.imp
    {m : Message}
    (hK : K m → K' m)
    (h : n.Known K m) :
    n.Known K' m :=
  h.imp_left hK

theorem Known.acts
    {m : Message}
    (hact : Acts c D e s s')
    (h : s.node.Known K m) :
    s'.node.Known K m :=
  h.imp_right fun ⟨hid, hsent⟩ => ⟨hid.trans hact.id.symm, hsent.mono hact.sent⟩

/-- What the node has sent, stored and counted. -/
structure Authentic (K : Message → Prop) (n : Node) : Prop where
  sent : ∀ m, n.HasSent m → n.Known K m
  own : ∀ p ∈ n.sent, p.msg.proposes = true → p.msg.senderID = n.id ∧ n.id ∉ p.recipients
  prepares : ∀ q v d, ∀ j ∈ n.prepareVotes.getD (q, v, d) ∅, n.Known K (.prepare ⟨v, q, d, j⟩)
  commits : ∀ q v d, ∀ j ∈ n.commitVotes.getD (q, v, d) ∅, n.Known K (.commit ⟨v, q, d, j⟩)
  stored : ∀ u j vc, n.stored u j = some vc →
    vc.view = u ∧ vc.senderID = j ∧ n.Known K (.viewChange vc)
  pending : ∀ v m, n.pendingNewView.get? v = some m → n.Known K (.newView m)

theorem authentic_new (id : ℤ) (clients : Finset ℤ) : Authentic K (Node.new id clients) where
  sent _ h := by
    obtain ⟨_, hp, -⟩ := h
    cases hp
  own _ h := absurd h List.not_mem_nil
  prepares _ _ _ _ h := absurd h (Finset.notMem_empty _)
  commits _ _ _ _ h := absurd h (Finset.notMem_empty _)
  stored _ _ _ h := by cases h
  pending _ _ h := by cases h

theorem Authentic.imp
    (hK : ∀ m, K m → K' m)
    (h : n.Authentic K) :
    n.Authentic K' where
  sent m hm := (h.sent m hm).imp (hK m)
  own := h.own
  prepares q v d j hj := (h.prepares q v d j hj).imp (hK _)
  commits q v d j hj := (h.commits q v d j hj).imp (hK _)
  stored u j vc hvc := by
    obtain ⟨hview, hsender, hknown⟩ := h.stored u j vc hvc
    exact ⟨hview, hsender, hknown.imp (hK _)⟩
  pending v m hm := (h.pending v m hm).imp (hK _)

/-! ## What is new after an effect -/

theorem not_mem_peers (id : ℤ) : id ∉ peers c id := by
  simp [peers]

/-- A packet that is new after an effect is the node's own, or a forwarded
VIEW-CHANGE message. -/
theorem Acts.new_packet
    {p : Packet}
    (hact : Acts c D e s s')
    (hp : p ∈ s'.node.sent) :
    p ∈ s.node.sent ∨
      (p.msg.senderID = s.node.id ∧
        (p.msg.proposes = true → s.node.id ∉ p.recipients)) ∨
      ∃ u j vc, p.msg = .viewChange vc ∧ s.node.stored u j = some vc := by
  have happend : ∀ {sent : List Packet} {q : Packet}, p ∈ sent ++ [q] → p ∈ sent ∨ p = q := by
    intro sent q h
    rw [List.mem_append, List.mem_singleton] at h
    exact h
  cases hact with
  | quiet hq =>
      obtain ⟨_, _, _, _, _, _, rfl⟩ := hq
      exact Or.inl hp
  | acknowledge hsender | fetch hsender =>
      refine (happend hp).imp_right fun h => Or.inl ?_
      subst h
      exact ⟨hsender, fun h => by cases h⟩
  | forward hstored =>
      refine (happend hp).imp_right fun h => Or.inr ?_
      subst h
      exact ⟨_, _, _, rfl, hstored⟩
  | propose | repropose =>
      refine (happend hp).imp_right fun h => Or.inl ?_
      subst h
      exact ⟨rfl, fun _ => not_mem_peers _⟩
  | vote | resume | prepare | leave =>
      refine (happend hp).imp_right fun h => Or.inl ?_
      subst h
      exact ⟨rfl, fun h => by cases h⟩
  | announce _ hsender | lead _ hsender =>
      refine (happend hp).imp_right fun h => Or.inl ?_
      subst h
      exact ⟨hsender, fun _ => not_mem_peers _⟩
  | _ => exact Or.inl hp

theorem mem_recordVote
    {votes : Votes} {q q' v v' i j : ℤ} {d d' : String}
    (h : j ∈ (recordVote votes q v d i).getD (q', v', d') ∅) :
    j ∈ votes.getD (q', v', d') ∅ ∨ q' = q ∧ v' = v ∧ d' = d ∧ j = i := by
  unfold recordVote at h
  rw [Dict.getD_set] at h
  split at h
  case isTrue heq =>
    obtain ⟨rfl, rfl, rfl⟩ : q' = q ∧ v' = v ∧ d' = d := by simpa using heq
    rcases Finset.mem_insert.mp h with rfl | h
    · exact Or.inr ⟨rfl, rfl, rfl, rfl⟩
    · exact Or.inl h
  case isFalse => exact Or.inl h

/-- A PREPARE that is newly counted. -/
theorem Acts.new_prepare
    {q v j : ℤ} {d : String}
    (hact : Acts c D e s s')
    (h : j ∈ s'.node.prepareVotes.getD (q, v, d) ∅) :
    j ∈ s.node.prepareVotes.getD (q, v, d) ∅ ∨
      (e = some (.prepare ⟨v, q, d, j⟩) ∧ (D .primaryVote ∨ j ≠ primary c v)) ∨
      j = s.node.id ∧ s'.node.HasSent (.prepare ⟨v, q, d, j⟩) := by
  cases hact with
  | quiet hq =>
      obtain ⟨_, _, _, _, _, _, rfl⟩ := hq
      exact Or.inl h
  | vote | resume =>
      refine (mem_recordVote h).imp_right fun ⟨hq, hv, hd, hj⟩ => Or.inr ?_
      subst hq hv hd hj
      exact ⟨rfl, _, List.mem_append_right _ (List.mem_singleton_self _), rfl⟩
  | count he _ hprimary =>
      refine (mem_recordVote h).imp_right fun ⟨hq, hv, hd, hj⟩ => Or.inl ?_
      subst hq hv hd hj
      exact ⟨he, hprimary⟩
  | _ => exact Or.inl h

/-- A COMMIT that is newly counted. -/
theorem Acts.new_commitVote
    {q v j : ℤ} {d : String}
    (hact : Acts c D e s s')
    (h : j ∈ s'.node.commitVotes.getD (q, v, d) ∅) :
    j ∈ s.node.commitVotes.getD (q, v, d) ∅ ∨ e = some (.commit ⟨v, q, d, j⟩) ∨
      j = s.node.id ∧ s'.node.HasSent (.commit ⟨v, q, d, j⟩) := by
  cases hact with
  | quiet hq =>
      obtain ⟨_, _, _, _, _, _, rfl⟩ := hq
      exact Or.inl h
  | prepare =>
      refine (mem_recordVote h).imp_right fun ⟨hq, hv, hd, hj⟩ => Or.inr ?_
      subst hq hv hd hj
      exact ⟨rfl, _, List.mem_append_right _ (List.mem_singleton_self _), rfl⟩
  | countCommit he _ =>
      refine (mem_recordVote h).imp_right fun ⟨hq, hv, hd, hj⟩ => Or.inl ?_
      subst hq hv hd hj
      exact he
  | _ => exact Or.inl h

theorem get?_storeViewChange
    {vc : ViewChange} {u j : ℤ} :
    (n.storeViewChange vc).stored u j =
      if u = vc.view ∧ j = vc.senderID then some vc else n.stored u j := by
  unfold storeViewChange stored
  rw [Dict.getD_set]
  by_cases hu : u = vc.view
  · rw [if_pos hu, Dict.get?_set, hu]
    simp
  · rw [if_neg hu, if_neg fun h => hu h.1]

/-- A VIEW-CHANGE message that is newly stored. -/
theorem Acts.new_stored
    {u j : ℤ} {vc : ViewChange}
    (hact : Acts c D e s s')
    (h : s'.node.stored u j = some vc) :
    s.node.stored u j = some vc ∨ vc.view = u ∧ vc.senderID = j ∧
      (e = some (.viewChange vc) ∨ j = s.node.id ∧ s.node.HasSent (.viewChange vc)) := by
  cases hact with
  | quiet hq =>
      obtain ⟨_, _, _, _, _, _, rfl⟩ := hq
      exact Or.inl h
  | store horigin _ =>
      rw [get?_storeViewChange] at h
      split at h
      case isTrue heq =>
        obtain rfl := Option.some.inj h
        exact Or.inr ⟨heq.1.symm, heq.2.symm, by rwa [heq.2]⟩
      case isFalse => exact Or.inl h
  | _ => exact Or.inl h

/-- A NEW-VIEW message that is newly pending. -/
theorem Acts.new_pending
    {v : ℤ} {m : NewView}
    (hact : Acts c D e s s')
    (h : s'.node.pendingNewView.get? v = some m) :
    s.node.pendingNewView.get? v = some m ∨ e = some (.newView m) := by
  have herase : ∀ {u : ℤ}, (s.node.pendingNewView.erase u).get? v = some m →
      s.node.pendingNewView.get? v = some m := by
    intro u hget
    rw [Dict.get?_erase] at hget
    split at hget
    case isTrue => cases hget
    case isFalse => exact hget
  cases hact with
  | quiet hq =>
      obtain ⟨_, _, _, _, _, _, rfl⟩ := hq
      exact Or.inl h
  | hold he _ _ =>
      simp only [Dict.get?_set] at h
      split at h
      case isTrue =>
        obtain rfl := Option.some.inj h
        exact Or.inr he
      case isFalse => exact Or.inl h
  | drop => exact Or.inl (herase h)
  | install => exact Or.inl (herase h)
  | _ => exact Or.inl h

/-! ## Evidence of the whole node -/

/-- The event of a step is a request or a message that may be received. -/
def Receivable (K : Message → Prop) (e : Option Message) : Prop :=
  ∀ m, e = some m → (∃ r, m = .request r) ∨ K m

theorem Receivable.known
    {m : Message}
    (he : Receivable K e)
    (hm : e = some m)
    (hrequest : ∀ r, m ≠ .request r) :
    K m := by
  rcases he m hm with ⟨r, hr⟩ | hK
  · exact absurd hr (hrequest r)
  · exact hK

theorem Authentic.acts
    (he : Receivable K e)
    (hact : Acts c D e s s')
    (h : s.node.Authentic K) :
    s'.node.Authentic K where
  sent m hm := by
    obtain ⟨p, hp, rfl⟩ := hm
    rcases hact.new_packet hp with hold | ⟨hsender, -⟩ | ⟨u, j, vc, hmsg, hstored⟩
    · exact (h.sent _ ⟨p, hold, rfl⟩).acts hact
    · exact Or.inr ⟨hsender.trans hact.id.symm, p, hp, rfl⟩
    · rw [hmsg]
      exact (h.stored u j vc hstored).2.2.acts hact
  own p hp hproposes := by
    rw [hact.id]
    rcases hact.new_packet hp with hold | ⟨hsender, hrecipients⟩ | ⟨u, j, vc, hmsg, -⟩
    · exact h.own p hold hproposes
    · exact ⟨hsender, hrecipients hproposes⟩
    · rw [hmsg] at hproposes
      cases hproposes
  prepares q v d j hj := by
    rcases hact.new_prepare hj with hold | ⟨hm, -⟩ | ⟨hself, hsent⟩
    · exact (h.prepares q v d j hold).acts hact
    · exact Or.inl (he.known hm nofun)
    · exact Or.inr ⟨hself.trans hact.id.symm, hsent⟩
  commits q v d j hj := by
    rcases hact.new_commitVote hj with hold | hm | ⟨hself, hsent⟩
    · exact (h.commits q v d j hold).acts hact
    · exact Or.inl (he.known hm nofun)
    · exact Or.inr ⟨hself.trans hact.id.symm, hsent⟩
  stored u j vc hvc := by
    rcases hact.new_stored hvc with hold | ⟨hview, hsender, hm | ⟨hself, hsent⟩⟩
    · obtain ⟨hview, hsender, hknown⟩ := h.stored u j vc hold
      exact ⟨hview, hsender, hknown.acts hact⟩
    · exact ⟨hview, hsender, Or.inl (he.known hm nofun)⟩
    · refine ⟨hview, hsender, Or.inr ⟨?_, hsent.mono hact.sent⟩⟩
      exact hsender.trans (hself.trans hact.id.symm)
  pending v m hm := by
    rcases hact.new_pending hm with hold | hm
    · exact (h.pending v m hold).acts hact
    · exact Or.inl (he.known hm nofun)

/-- The node has sent what it may receive in its own name. -/
def Faithful (K : Message → Prop) (n : Node) : Prop := ∀ m, K m → m.senderID = n.id → n.HasSent m

theorem Faithful.acts
    (hact : Acts c D e s s')
    (h : s.node.Faithful K) :
    s'.node.Faithful K := by
  intro m hm hself
  rw [hact.id] at hself
  exact (h m hm hself).mono hact.sent

theorem Faithful.sent_of_known
    {m : Message}
    (h : n.Faithful K)
    (hknown : n.Known K m)
    (hself : m.senderID = n.id) :
    n.HasSent m :=
  hknown.elim (fun hm => h m hm hself) And.right

theorem Authentic.runs
    (he : Receivable K e)
    (hruns : Runs c D e s s')
    (h : s.node.Authentic K) :
    s'.node.Authentic K := by
  induction hruns with
  | refl => exact h
  | tail _ hact ih => exact ih.acts he hact

end Node

end PbftSimulator
end DistributedConsensus
