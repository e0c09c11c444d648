import DistributedConsensus.PbftSimulator.Records

/-!
# PBFT simulator: what the records of a node guarantee

A stored VIEW-CHANGE message is never replaced.  The messages that are stored for a
view change only with a received message, or when the node gives up its view for
it.  A node that never returns to an earlier view sends one VIEW-CHANGE message of
its own for a view and stores it, if it passes the checks.
-/

namespace DistributedConsensus
namespace PbftSimulator

open Foundations

namespace Node

variable {c : Config} {n n' n'' : Node} {u v : ℤ}

variable {b : Prop} {j : ℤ} {vc : ViewChange}

section Logs

/-- The VIEW-CHANGE messages that are stored for a view. -/
def logOf (n : Node) (u : ℤ) : Dict ℤ ViewChange := n.viewChangeLog.getD u Dict.empty

theorem SameRecords.logOf (h : SameRecords n n') (u : ℤ) : n'.logOf u = n.logOf u := by
  unfold Node.logOf
  rw [h.viewChangeLog]

theorem logOf_storeViewChange :
    (n.storeViewChange vc).logOf u =
      if u = vc.view then (n.logOf u).set vc.senderID vc else n.logOf u := by
  unfold logOf storeViewChange
  rw [Dict.getD_set]
  split
  case isTrue hu => rw [hu]
  case isFalse => rfl

/-- Giving up a view stores the own VIEW-CHANGE message of the next one, if none is
stored. -/
theorem logOf_resign (o : Orders) (u : ℤ) :
    (n.resign c o).logOf u = n.logOf u ∨
      u = n.view + 1 ∧ n.stored u n.id = none ∧ ∃ vc, (n.resign c o).logOf u =
        (n.logOf u).set n.id vc := by
  unfold resign
  dsimp only
  split
  case isFalse => exact Or.inl rfl
  case isTrue haccepted =>
    rw [logOf_storeViewChange]
    split
    case isFalse => exact Or.inl rfl
    case isTrue hu =>
      refine Or.inr ⟨hu, ?_, _, rfl⟩
      rw [hu]
      exact haccepted.2

/-- What every effect keeps. -/
structure Retains (n n' : Node) : Prop where
  id : n'.id = n.id
  view : n.view ≤ n'.view
  acks : n'.viewChangeAckCount = n.viewChangeAckCount
  newViewSent : n.newViewSent ⊆ n'.newViewSent
  stored : ∀ u j vc, n.stored u j = some vc → n'.stored u j = some vc

theorem Retains.refl (n : Node) : Retains n n :=
  ⟨rfl, le_refl _, rfl, fun _ h => h, fun _ _ _ h => h⟩

theorem Retains.trans
    (h : Retains n n')
    (h' : Retains n' n'') :
    Retains n n'' where
  id := h'.id.trans h.id
  view := h.view.trans h'.view
  acks := h'.acks.trans h.acks
  newViewSent := h.newViewSent.trans h'.newViewSent
  stored u j vc hvc := h'.stored u j vc (h.stored u j vc hvc)

theorem stored_of_logOf
    (h : n'.logOf u = n.logOf u) :
    n'.stored u j = n.stored u j :=
  congrArg (fun log => log.get? j) h

theorem sent_resign (o : Orders) :
    (n.resign c o).sent = n.sent ++ [⟨peers c n.id, .viewChange (n.viewChangeMessage o)⟩] := by
  unfold resign
  dsimp only
  split
  case isTrue => rfl
  case isFalse => rfl

theorem resign_retains (o : Orders) : Retains n (n.resign c o) := by
  obtain ⟨hview, hid, -⟩ := resign_spec (c := c) (n := n) o
  refine ⟨hid, by omega, ?_, ?_, fun u j vc hvc => ?_⟩
  · unfold resign
    dsimp only
    split
    all_goals rfl
  · unfold resign
    dsimp only
    split
    all_goals exact fun _ h => h
  · rcases logOf_resign (c := c) (n := n) o u with hsame | ⟨-, hnone, own, hset⟩
    · rw [stored_of_logOf hsame]
      exact hvc
    · change ((n.resign c o).logOf u).get? j = some vc
      rw [hset, Dict.get?_set]
      split
      case isTrue hj =>
        rw [hj, hnone] at hvc
        cases hvc
      case isFalse => exact hvc

theorem Changes.retains (h : Changes c b n n') : Retains n n' := by
  cases h with
  | enter hle hsame =>
      refine ⟨hsame.id, ?_, hsame.viewChangeAckCount, ?_, fun u j vc hvc => ?_⟩
      · rw [hsame.view]
        exact hle
      · rw [hsame.newViewSent]
      · rw [stored_of_logOf (hsame.logOf u)]
        exact hvc
  | forward => exact ⟨rfl, le_refl _, rfl, fun _ h => h, fun _ _ _ h => h⟩
  | announce =>
      exact ⟨rfl, le_refl _, rfl, fun _ h => Finset.mem_insert_of_mem h, fun _ _ _ h => h⟩
  | resign => exact resign_retains _

theorem Moves.retains (h : Moves c b n n') : Retains n n' := by
  induction h with
  | refl => exact Retains.refl n
  | tail _ hchange ih => exact ih.trans hchange.retains

/-- The messages stored for a view change only when the node gives up its view for
it, and then only by its own one. -/
theorem Moves.logOf (h : Moves c b n n') (u : ℤ) :
    n'.logOf u = n.logOf u ∨
      b ∧ n.view < u ∧ n.stored u n.id = none ∧ ∃ vc, n'.logOf u = (n.logOf u).set n.id vc := by
  induction h with
  | refl => exact Or.inl rfl
  | @tail n₁ n₂ hmoves hchange ih =>
      have hretains : Retains n n₁ := Moves.retains hmoves
      have hsame : n₂.logOf u = n₁.logOf u → n₂.logOf u = n.logOf u ∨
          b ∧ n.view < u ∧ n.stored u n.id = none ∧
            ∃ vc, n₂.logOf u = (n.logOf u).set n.id vc := by
        intro hlog
        rwa [hlog]
      cases hchange with
      | enter _ hrecords => exact hsame (hrecords.logOf u)
      | forward | announce => exact hsame rfl
      | resign hb =>
          rcases logOf_resign (c := c) (n := n₁) _ u with hlog | ⟨hu, hnone, vc, hlog⟩
          · exact hsame hlog
          · have hview := hretains.view
            rw [hretains.id] at hnone hlog
            rcases ih with hold | ⟨-, -, -, vc', hold⟩
            · refine Or.inr ⟨hb, by omega, ?_, vc, ?_⟩
              · rw [← stored_of_logOf hold]
                exact hnone
              · rw [hlog, hold]
            · -- The own message of the view would be stored already.
              have hstored : n₁.stored u n.id = some vc' := by
                change (n₁.logOf u).get? n.id = some vc'
                rw [hold, Dict.get?_set, if_pos rfl]
              rw [hstored] at hnone
              cases hnone

end Logs

section Invariants

/-- A NEW-VIEW message that is newly sent is built from what the node has stored at
that moment. -/
theorem Moves.new_newView
    {m : NewView}
    (h : Moves c b n n')
    (hm : n'.HasSent (.newView m)) :
    n.HasSent (.newView m) ∨ ∃ n₁ o u, Moves c b n n₁ ∧ Retains n₁ n' ∧ primary c u = n₁.id ∧
      u ∉ n₁.newViewSent ∧ quorumSize c.F ≤ (n₁.qualified c u).size ∧
        m = n₁.newViewMessage c o u := by
  induction h with
  | refl => exact Or.inl hm
  | @tail n₁ n₂ hmoves hchange ih =>
      have hretains : Retains n₁ n₂ := hchange.retains
      have hold : n₁.HasSent (.newView m) → n.HasSent (.newView m) ∨ ∃ n₁ o u, Moves c b n n₁ ∧
          Retains n₁ n₂ ∧ primary c u = n₁.id ∧ u ∉ n₁.newViewSent ∧
            quorumSize c.F ≤ (n₁.qualified c u).size ∧ m = n₁.newViewMessage c o u := by
        intro hsent
        refine (ih hsent).imp_right ?_
        rintro ⟨n₀, o, u, hmoves₀, hretains₀, hspec⟩
        exact ⟨n₀, o, u, hmoves₀, hretains₀.trans hretains, hspec⟩
      cases hchange with
      | enter _ hsame =>
          obtain ⟨p, hp, hmsg⟩ := hm
          exact hold ⟨p, hsame.sent p hp (by rw [hmsg]; rfl), hmsg⟩
      | forward =>
          obtain ⟨p, hp, hmsg⟩ := hm
          rcases List.mem_append.mp hp with hp | hp
          · exact hold ⟨p, hp, hmsg⟩
          · rw [List.mem_singleton.mp hp] at hmsg
            cases hmsg
      | @announce o u hprimary hfresh hquorum =>
          obtain ⟨p, hp, hmsg⟩ := hm
          rcases List.mem_append.mp hp with hp | hp
          · exact hold ⟨p, hp, hmsg⟩
          · rw [List.mem_singleton.mp hp] at hmsg
            cases hmsg
            exact Or.inr ⟨n₁, o, u, hmoves, hretains, hprimary, hfresh, hquorum, rfl⟩
      | resign =>
          obtain ⟨p, hp, hmsg⟩ := hm
          rw [sent_resign] at hp
          rcases List.mem_append.mp hp with hp | hp
          · exact hold ⟨p, hp, hmsg⟩
          · rw [List.mem_singleton.mp hp] at hmsg
            cases hmsg

/-- The records agree with what the node has sent. -/
structure Recorded (n : Node) : Prop where
  stored : ∀ u j vc, n.stored u j = some vc →
    vc.view = u ∧ vc.senderID = j ∧ correctViewChange vc = true
  own : ∀ u vc, n.stored u n.id = some vc → u ≤ n.view
  sent : ∀ vc, n.HasSent (.viewChange vc) → vc.senderID = n.id →
    vc.view ≤ n.view ∧ (correctViewChange vc = true → n.stored vc.view n.id = some vc)

theorem recorded_new (id : ℤ) (clients : Finset ℤ) : Recorded (Node.new id clients) where
  stored _ _ _ h := by cases h
  own _ _ h := by cases h
  sent _ h _ := by
    obtain ⟨_, hp, -⟩ := h
    cases hp

/-- Storing a message and counting an acknowledgement. -/
theorem Recorded.same
    (h : Recorded n)
    (hid : n'.id = n.id)
    (hview : n.view ≤ n'.view)
    (hlog : ∀ u, n'.logOf u = n.logOf u)
    (hsent : ∀ vc, n'.HasSent (.viewChange vc) → n.HasSent (.viewChange vc) ∨
      ∃ u j, n.stored u j = some vc) :
    Recorded n' where
  stored u j vc hvc := h.stored u j vc (by rwa [← stored_of_logOf (hlog u)])
  own u vc hvc := by
    rw [stored_of_logOf (hlog u), hid] at hvc
    exact (h.own u vc hvc).trans hview
  sent vc hvc hself := by
    rw [hid] at hself
    rw [stored_of_logOf (hlog vc.view), hid]
    rcases hsent vc hvc with hold | ⟨u, j, hstored⟩
    · exact ⟨(h.sent vc hold hself).1.trans hview, (h.sent vc hold hself).2⟩
    · obtain ⟨rfl, rfl, -⟩ := h.stored u j vc hstored
      rw [hself] at hstored
      exact ⟨(h.own _ vc hstored).trans hview, fun _ => hstored⟩

theorem stored_storeViewChange_of_ne
    (h : ¬(u = vc.view ∧ j = vc.senderID)) :
    (n.storeViewChange vc).stored u j = n.stored u j := by
  rw [get?_storeViewChange, if_neg h]

theorem Recorded.resign
    (h : Recorded n)
    (o : Orders) :
    Recorded (n.resign c o) := by
  -- No own message of the next view is stored or sent yet.
  have hfresh : n.stored (n.view + 1) n.id = none := by
    cases hstored : n.stored (n.view + 1) n.id with
    | none => rfl
    | some vc =>
        have hle := h.own _ vc hstored
        omega
  obtain ⟨hview, hid, -⟩ := resign_spec (c := c) (n := n) o
  have hretains : Retains n (n.resign c o) := resign_retains o
  have hlog : ∀ u j vc, (n.resign c o).stored u j = some vc → n.stored u j = some vc ∨
      vc = n.viewChangeMessage o ∧ correctViewChange vc = true ∧ u = n.view + 1 ∧ j = n.id := by
    intro u j vc hvc
    unfold Node.resign at hvc
    dsimp only at hvc
    split at hvc
    case isFalse => exact Or.inl hvc
    case isTrue haccepted =>
      rw [get?_storeViewChange] at hvc
      split at hvc
      case isFalse => exact Or.inl hvc
      case isTrue heq =>
        obtain rfl := Option.some.inj hvc
        exact Or.inr ⟨rfl, haccepted.1, heq.1, heq.2⟩
  refine ⟨fun u j vc hvc => ?_, fun u vc hvc => ?_, fun vc hvc hself => ?_⟩
  · rcases hlog u j vc hvc with hold | ⟨rfl, hcorrect, rfl, rfl⟩
    · exact h.stored u j vc hold
    · exact ⟨rfl, rfl, hcorrect⟩
  · rw [hid] at hvc
    rw [hview]
    rcases hlog u n.id vc hvc with hold | ⟨-, -, rfl, -⟩
    · have hle := h.own u vc hold
      omega
    · omega
  · obtain ⟨p, hp, hmsg⟩ := hvc
    rw [sent_resign] at hp
    rw [hid] at hself ⊢
    rw [hview]
    rcases List.mem_append.mp hp with hp | hp
    · obtain ⟨hle, hstored⟩ := h.sent vc ⟨p, hp, hmsg⟩ hself
      exact ⟨by omega, fun hcorrect => hretains.stored _ _ _ (hstored hcorrect)⟩
    · rw [List.mem_singleton.mp hp] at hmsg
      obtain rfl := Message.viewChange.inj hmsg
      refine ⟨le_refl _, fun hcorrect => ?_⟩
      unfold Node.resign
      dsimp only
      have haccepted : correctViewChange (n.viewChangeMessage o) = true ∧
          n.stored (n.viewChangeMessage o).view (n.viewChangeMessage o).senderID = none :=
        ⟨hcorrect, hfresh⟩
      rw [if_pos haccepted, get?_storeViewChange, if_pos ⟨rfl, rfl⟩]

theorem Recorded.changes
    (h : Recorded n)
    (hchange : Changes c b n n') :
    Recorded n' := by
  cases hchange with
  | enter hle hsame =>
      refine h.same hsame.id ?_ (fun u => hsame.logOf u) fun vc hvc => Or.inl ?_
      · rw [hsame.view]
        exact hle
      · obtain ⟨p, hp, hmsg⟩ := hvc
        exact ⟨p, hsame.sent p hp (by rw [hmsg]; rfl), hmsg⟩
  | @forward to' u j vc hstored =>
      refine h.same rfl (le_refl _) (fun _ => rfl) fun vc' hvc' => ?_
      obtain ⟨p, hp, hmsg⟩ := hvc'
      rcases List.mem_append.mp hp with hp | hp
      · exact Or.inl ⟨p, hp, hmsg⟩
      · rw [List.mem_singleton.mp hp] at hmsg
        obtain rfl := Message.viewChange.inj hmsg
        exact Or.inr ⟨u, j, hstored⟩
  | announce =>
      refine h.same rfl (le_refl _) (fun _ => rfl) fun vc' hvc' => ?_
      obtain ⟨p, hp, hmsg⟩ := hvc'
      rcases List.mem_append.mp hp with hp | hp
      · exact Or.inl ⟨p, hp, hmsg⟩
      · rw [List.mem_singleton.mp hp] at hmsg
        cases hmsg
  | resign => exact h.resign _

theorem Recorded.moves
    (h : Recorded n)
    (hmoves : Moves c b n n') :
    Recorded n' := by
  induction hmoves with
  | refl => exact h
  | tail _ hchange ih => exact ih.changes hchange

/-- What noting a received message does to the records. -/
theorem noted_spec (n : Node) (m : Message) :
    ((n.noted c m).id = n.id ∧ (n.noted c m).view = n.view ∧
      (n.noted c m).newViewSent = n.newViewSent ∧
      (n.noted c m).pendingNewView = n.pendingNewView ∧
      (∀ p ∈ (n.noted c m).sent, p.msg.changesView = true → p ∈ n.sent)) ∧
    ((∀ u, (n.noted c m).logOf u = n.logOf u) ∨
      ∃ vc, m = .viewChange vc ∧ correctViewChange vc = true ∧ n.view ≤ vc.view ∧
        n.stored vc.view vc.senderID = none ∧
        ∀ u, (n.noted c m).logOf u = (n.storeViewChange vc).logOf u) := by
  cases m with
  | viewChange vc =>
      unfold noted
      dsimp only
      split
      case isTrue => exact ⟨⟨rfl, rfl, rfl, rfl, fun _ hp _ => hp⟩, Or.inl fun _ => rfl⟩
      case isFalse haccepted =>
        rw [not_or, not_or, not_lt, Bool.not_eq_false] at haccepted
        have hnone : n.stored vc.view vc.senderID = none := by
          have hcontains := haccepted.2.2
          rw [Dict.contains, Bool.not_eq_true, Option.isSome_eq_false_iff,
            Option.isNone_iff_eq_none] at hcontains
          exact hcontains
        have hack : SameRecords (n.storeViewChange vc) ((n.storeViewChange vc).acknowledge c vc) := by
          unfold acknowledge
          split
          case isTrue => exact SameRecords.refl _
          case isFalse => exact sendTo_sameRecords rfl
        have hpending : ((n.storeViewChange vc).acknowledge c vc).pendingNewView =
            n.pendingNewView := by
          obtain ⟨sent, hsent⟩ := acknowledge_spec (c := c) (n.storeViewChange vc) vc
          rw [hsent]
          rfl
        exact ⟨⟨hack.id, hack.view, hack.newViewSent, hpending, hack.sent⟩,
          Or.inr ⟨vc, rfl, haccepted.2.1, haccepted.1, hnone, hack.logOf⟩⟩
  | viewChangeAck a =>
      unfold noted
      dsimp only
      split
      all_goals exact ⟨⟨rfl, rfl, rfl, rfl, fun _ hp _ => hp⟩, Or.inl fun _ => rfl⟩
  | _ => exact ⟨⟨rfl, rfl, rfl, rfl, fun _ hp _ => hp⟩, Or.inl fun _ => rfl⟩

theorem Recorded.noted
    {m : Message}
    (h : Recorded n)
    (hown : ∀ vc, m = .viewChange vc → vc.senderID = n.id → n.HasSent (.viewChange vc)) :
    Recorded (n.noted c m) := by
  obtain ⟨⟨hid, hview, -, -, hsent⟩, hlog⟩ := noted_spec (c := c) n m
  have hsent' : ∀ vc, (n.noted c m).HasSent (.viewChange vc) → n.HasSent (.viewChange vc) := by
    rintro vc ⟨p, hp, hmsg⟩
    exact ⟨p, hsent p hp (by rw [hmsg]; rfl), hmsg⟩
  rcases hlog with hlog | ⟨vc, rfl, hcorrect, hle, hnone, hlog⟩
  · exact h.same hid hview.ge hlog fun vc hvc => Or.inl (hsent' vc hvc)
  · -- An own message that passes the checks is stored already.
    have hother : vc.senderID ≠ n.id := by
      intro hself
      have hstored := (h.sent vc (hown vc rfl hself) hself).2 hcorrect
      rw [hself, hstored] at hnone
      cases hnone
    have hstored : ∀ u j, (n.noted c (.viewChange vc)).stored u j =
        (n.storeViewChange vc).stored u j := fun u j => stored_of_logOf (hlog u)
    refine ⟨fun u j vc' hvc' => ?_, fun u vc' hvc' => ?_, fun vc' hvc' hself => ?_⟩
    · rw [hstored, get?_storeViewChange] at hvc'
      split at hvc'
      case isTrue heq =>
        obtain rfl := Option.some.inj hvc'
        exact ⟨heq.1.symm, heq.2.symm, hcorrect⟩
      case isFalse => exact h.stored u j vc' hvc'
    · rw [hstored, hid, stored_storeViewChange_of_ne fun heq => hother heq.2.symm] at hvc'
      rw [hview]
      exact h.own u vc' hvc'
    · rw [hid] at hself
      rw [hstored, hid, stored_storeViewChange_of_ne fun heq => hother heq.2.symm, hview]
      exact h.sent vc' (hsent' vc' hvc') hself

end Invariants

end Node

end PbftSimulator
end DistributedConsensus
