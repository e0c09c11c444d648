import DistributedConsensus.PbftSimulator.Acceptance
import DistributedConsensus.PbftSimulator.Cluster

/-!
# PBFT simulator: prepared certificates

A node sends its COMMIT after `2f` PREPAREs.  When the PREPAREs of the primary do
not count, two such sets of votes share a correct node, or the primary is correct
and proposes one digest only.

A correct primary numbers requests with a counter that is ahead of its proposals,
and sends one NEW-VIEW for a view.
-/

namespace DistributedConsensus
namespace PbftSimulator

open Foundations

/-- The message proposes the digest for the sequence number in the view. -/
def Message.Proposes (v q : ℤ) (d : String) : Message → Prop
  | prePrepare m => m.view = v ∧ m.sequence = q ∧ m.digest = d
  | newView m => m.view = v ∧ d ≠ "null" ∧ ∃ x ∈ m.xSet, x.sequence = q ∧ x.digest = d
  | _ => False

theorem Message.proposes_of_proposes
    {v q : ℤ} {d : String} {m : Message}
    (h : m.Proposes v q d) :
    m.proposes = true := by
  cases m with
  | prePrepare | newView => rfl
  | _ => exact h.elim

namespace Node

variable {c : Config} {X : Defect → Prop} {e : Option Message} {K K' : Message → Prop}
  {n n' : Node} {s s' : Stage} {v q : ℤ} {d : String}

/-! ## COMMITs -/

/-- A COMMIT that is new after an effect. -/
theorem Acts.new_commit
    (hact : Acts c X e s s')
    (h : s'.node.HasSent (.commit ⟨v, q, d, s'.node.id⟩)) :
    s.node.HasSent (.commit ⟨v, q, d, s.node.id⟩) ∨
      s'.node = s.node.setPrepared c q d v ∧ s.node.isPrepared c q d v = true ∧
        (X .stalePrepare ∨ v = s.node.view ∧ s.node.prePreparedView.get? q = some v) := by
  obtain ⟨p, hp, hmsg⟩ := h
  rw [hact.id] at hmsg
  have hold : ∀ {sent : List Packet} {x : Packet}, p ∈ sent ++ [x] →
      x.msg ≠ .commit ⟨v, q, d, s.node.id⟩ → p ∈ sent := by
    intro sent x h hx
    rcases List.mem_append.mp h with h | h
    · exact h
    · rw [List.mem_singleton.mp h] at hmsg
      exact absurd hmsg hx
  cases hact with
  | quiet hq =>
      obtain ⟨_, _, _, _, _, _, rfl⟩ := hq
      exact Or.inl ⟨p, hp, hmsg⟩
  | prepare hprepared hcurrent =>
      rcases List.mem_append.mp hp with hp | hp
      · exact Or.inl ⟨p, hp, hmsg⟩
      · rw [List.mem_singleton.mp hp] at hmsg
        cases hmsg
        exact Or.inr ⟨rfl, hprepared, hcurrent⟩
  | acknowledge | fetch | forward | propose | vote | resume | leave | announce | lead | repropose =>
      exact Or.inl ⟨p, hold hp nofun, hmsg⟩
  | _ => exact Or.inl ⟨p, hp, hmsg⟩

theorem isPrepared_iff :
    n.isPrepared c q d v = true ↔ n.prePrepareReceived.get? q = some d ∧
      (q, v) ∉ n.commitSent ∧ 2 * c.F ≤ countVotes n.prepareVotes q v d := by
  simp [isPrepared, and_assoc]

theorem recordVote_mono (votes : Votes) (q v : ℤ) (d : String) (j : ℤ) (key : ℤ × ℤ × String) :
    votes.getD key ∅ ⊆ (recordVote votes q v d j).getD key ∅ := by
  unfold recordVote
  rw [Dict.getD_set]
  split
  case isTrue heq =>
    subst heq
    exact Finset.subset_insert _ _
  case isFalse => exact subset_rfl

theorem Acts.prepareVotes (hact : Acts c X e s s') (key : ℤ × ℤ × String) :
    s.node.prepareVotes.getD key ∅ ⊆ s'.node.prepareVotes.getD key ∅ := by
  cases hact with
  | quiet hq =>
      obtain ⟨_, _, _, _, _, _, rfl⟩ := hq
      exact subset_rfl
  | vote | resume | count => exact recordVote_mono _ _ _ _ _ _
  | _ => exact subset_rfl

theorem Acts.commitVotes (hact : Acts c X e s s') (key : ℤ × ℤ × String) :
    s.node.commitVotes.getD key ∅ ⊆ s'.node.commitVotes.getD key ∅ := by
  cases hact with
  | quiet hq =>
      obtain ⟨_, _, _, _, _, _, rfl⟩ := hq
      exact subset_rfl
  | prepare | countCommit => exact recordVote_mono _ _ _ _ _ _
  | _ => exact subset_rfl

theorem Acts.commitSent (hact : Acts c X e s s') : s.node.commitSent ⊆ s'.node.commitSent := by
  cases hact with
  | quiet hq =>
      obtain ⟨_, _, _, _, _, _, rfl⟩ := hq
      exact subset_rfl
  | prepare => exact Finset.subset_insert _ _
  | _ => exact subset_rfl

/-- A COMMIT has its votes, and there is one for a sequence number and a view. -/
structure Certified (c : Config) (n : Node) : Prop where
  votes : ∀ v q d, n.HasSent (.commit ⟨v, q, d, n.id⟩) →
    (q, v) ∈ n.commitSent ∧ 2 * c.F ≤ (n.prepareVotes.getD (q, v, d) ∅).card
  unique : ∀ v q d d', n.HasSent (.commit ⟨v, q, d, n.id⟩) →
    n.HasSent (.commit ⟨v, q, d', n.id⟩) → d = d'

theorem certified_new (id : ℤ) (clients : Finset ℤ) : Certified c (Node.new id clients) where
  votes _ _ _ h := by
    obtain ⟨_, hp, -⟩ := h
    cases hp
  unique _ _ _ _ h := by
    obtain ⟨_, hp, -⟩ := h
    cases hp

theorem Certified.acts
    (hact : Acts c X e s s')
    (h : s.node.Certified c) :
    s'.node.Certified c where
  votes v q d hsent := by
    rcases hact.new_commit hsent with hold | ⟨heq, hprepared, -⟩
    · obtain ⟨hmem, hcard⟩ := h.votes v q d hold
      exact ⟨hact.commitSent hmem, hcard.trans (Finset.card_le_card (hact.prepareVotes _))⟩
    · rw [heq]
      exact ⟨Finset.mem_insert_self _ _, (isPrepared_iff.mp hprepared).2.2⟩
  unique v q d d' hsent hsent' := by
    rcases hact.new_commit hsent with hold | ⟨-, hprepared, -⟩ <;>
    rcases hact.new_commit hsent' with hold' | ⟨-, hprepared', -⟩
    · exact h.unique v q d d' hold hold'
    · exact absurd (h.votes v q d hold).1 (isPrepared_iff.mp hprepared').2.1
    · exact absurd (h.votes v q d' hold').1 (isPrepared_iff.mp hprepared).2.1
    · have hreceived := (isPrepared_iff.mp hprepared).1
      rw [(isPrepared_iff.mp hprepared').1] at hreceived
      exact (Option.some.inj hreceived).symm

/-! ## The views of a node -/

/-- The node is in no negative view, and gives up a view for a positive one. -/
structure Forward (n : Node) : Prop where
  view : 0 ≤ n.view
  viewChanges : ∀ vc, n.HasSent (.viewChange vc) → vc.senderID = n.id →
    1 ≤ vc.view ∧ vc.view ≤ n.view

theorem forward_new (id : ℤ) (clients : Finset ℤ) : Forward (Node.new id clients) where
  view := le_refl 0
  viewChanges _ h := by
    obtain ⟨_, hp, -⟩ := h
    cases hp

/-- A VIEW-CHANGE message in the node's name that is new after an effect. -/
theorem Acts.new_viewChange
    {vc : ViewChange}
    (hact : Acts c X e s s')
    (h : s'.node.HasSent (.viewChange vc)) :
    s.node.HasSent (.viewChange vc) ∨ (∃ u j, s.node.stored u j = some vc) ∨
      ∃ o, vc = s.node.viewChangeMessage o ∧
        s'.node = s.node.leaveView.broadcast c (.viewChange vc) := by
  obtain ⟨p, hp, hmsg⟩ := h
  have hold : ∀ {sent : List Packet} {x : Packet}, p ∈ sent ++ [x] →
      x.msg ≠ .viewChange vc → p ∈ sent := by
    intro sent x h hx
    rcases List.mem_append.mp h with h | h
    · exact h
    · rw [List.mem_singleton.mp h] at hmsg
      exact absurd hmsg hx
  cases hact with
  | quiet hq =>
      obtain ⟨_, _, _, _, _, _, rfl⟩ := hq
      exact Or.inl ⟨p, hp, hmsg⟩
  | forward hstored =>
      rcases List.mem_append.mp hp with hp | hp
      · exact Or.inl ⟨p, hp, hmsg⟩
      · rw [List.mem_singleton.mp hp] at hmsg
        cases hmsg
        exact Or.inr (Or.inl ⟨_, _, hstored⟩)
  | leave o =>
      rcases List.mem_append.mp hp with hp | hp
      · exact Or.inl ⟨p, hp, hmsg⟩
      · rw [List.mem_singleton.mp hp] at hmsg
        cases hmsg
        exact Or.inr (Or.inr ⟨o, rfl, rfl⟩)
  | acknowledge | fetch | propose | vote | resume | prepare | announce | lead | repropose =>
      exact Or.inl ⟨p, hold hp nofun, hmsg⟩
  | _ => exact Or.inl ⟨p, hp, hmsg⟩

theorem Acts.view_le
    (hregress : ¬X .regress)
    (hact : Acts c X e s s') :
    s.node.view ≤ s'.node.view := by
  rcases hact.stage with ⟨hview, -, -⟩ | ⟨-, hview, -⟩ | ⟨S, m, hbegins⟩
  · exact hview.ge
  · rw [hview]
    exact (Int.lt_succ _).le
  · rw [hbegins.view]
    exact hbegins.le.resolve_left hregress

theorem Forward.acts
    (hregress : ¬X .regress)
    (hauthentic : s.node.Authentic K)
    (hfaithful : s.node.Faithful K)
    (hact : Acts c X e s s')
    (h : s.node.Forward) :
    s'.node.Forward where
  view := h.view.trans (hact.view_le hregress)
  viewChanges vc hsent hself := by
    have hle := hact.view_le hregress
    have hkeep : s.node.HasSent (.viewChange vc) → 1 ≤ vc.view ∧ vc.view ≤ s'.node.view := by
      intro hsent
      rw [hact.id] at hself
      exact (h.viewChanges vc hsent hself).imp_right fun hvc => hvc.trans hle
    rcases hact.new_viewChange hsent with hold | ⟨u, j, hstored⟩ | ⟨o, rfl, heq⟩
    · exact hkeep hold
    · rw [hact.id] at hself
      exact hkeep (hfaithful.sent_of_known (hauthentic.stored u j vc hstored).2.2 hself)
    · rw [heq]
      have hview := h.view
      exact ⟨show 1 ≤ s.node.view + 1 by omega, le_refl _⟩

/-! ## What a primary proposes -/

/-- How a proposal is sent by an effect. -/
inductive Proposal (c : Config) (X : Defect → Prop) (e : Option Message) (s s' : Stage) :
    Message → Prop
  | number {p : PrePrepare} {r : Request} : e = some (.request r) → p.view = s.node.view →
      s.node.activeView = true → s.node.seqCounter < p.sequence →
      p.sequence ≤ s'.node.seqCounter → Proposal c X e s s' (.prePrepare p)
  | again {p : PrePrepare} {m : NewView} {x : XEntry} : s.node.HasSent (.newView m) →
      m.view = p.view → x ∈ m.xSet → x.sequence = p.sequence → x.digest = p.digest →
      p.digest ≠ "null" → Proposal c X e s s' (.prePrepare p)
  | begins {m : NewView} {S : Dict ℤ ViewChange} : Begins c X s.node s' S m → Covers S m →
      m.view ∉ s.node.newViewSent → m.view ∈ s'.node.newViewSent →
      Proposal c X e s s' (.newView m)
  | announce {m : NewView} {S : Dict ℤ ViewChange} : s.node.Supports c S m → Covers S m →
      s.node.activeView = true → m.view = s.node.view → primary c m.view = s.node.id →
      m.view ∉ s.node.newViewSent → Proposal c X e s s' (.newView m)

/-- A PRE-PREPARE or NEW-VIEW that is new after an effect. -/
theorem Acts.new_proposal
    {m : Message}
    (hact : Acts c X e s s')
    (h : s'.node.HasSent m)
    (hproposes : m.proposes = true) :
    s.node.HasSent m ∨
      s'.node.sent = s.node.sent ++ [⟨peers c s.node.id, m⟩] ∧ Proposal c X e s s' m := by
  have hstage := hact.stage
  obtain ⟨p, hp, rfl⟩ := h
  have hold : ∀ {sent : List Packet} {x : Packet}, p ∈ sent ++ [x] →
      x.msg.proposes = false → p ∈ sent := by
    intro sent x h hx
    rcases List.mem_append.mp h with h | h
    · exact h
    · rw [← List.mem_singleton.mp h, hproposes] at hx
      cases hx
  have hnew : ∀ {sent : List Packet} {x : Packet}, p ∈ sent ++ [x] → p ∈ sent ∨ p = x := by
    intro sent x h
    rw [List.mem_append, List.mem_singleton] at h
    exact h
  cases hact with
  | quiet hq =>
      obtain ⟨_, _, _, _, _, _, rfl⟩ := hq
      exact Or.inl ⟨p, hp, rfl⟩
  | @propose n m he hactive hprimary _ =>
      refine (hnew hp).imp (fun h => ⟨p, h, rfl⟩) fun h => ?_
      subst h
      exact ⟨rfl, .number he rfl hactive (Int.lt_succ _) (le_refl _)⟩
  | @announce n m S hprimary hsender hfresh hsupports hcovers hactive hview =>
      refine (hnew hp).imp (fun h => ⟨p, h, rfl⟩) fun h => ?_
      subst h
      exact ⟨rfl, .announce hsupports hcovers hactive hview hprimary hfresh⟩
  | @lead n m S hprimary hsender hfresh hsupports hcovers hwaits hle hrespects =>
      refine (hnew hp).imp (fun h => ⟨p, h, rfl⟩) fun h => ?_
      subst h
      refine ⟨rfl, .begins (S := S) ⟨rfl, rfl, rfl, hsupports, Or.inr hcovers, hrespects, hwaits,
        hle, rfl, rfl, fun x hx => sequence_le_foldl_max hx _, Or.inl ⟨hsender, hprimary, ?_⟩⟩
        hcovers hfresh (Finset.mem_insert_self _ _)⟩
      exact ⟨_, List.mem_append_right _ (List.mem_singleton_self _), rfl⟩
  | repropose hsent hsender hview hx hdigest =>
      refine (hnew hp).imp (fun h => ⟨p, h, rfl⟩) fun h => ?_
      subst h
      exact ⟨rfl, .again hsent rfl hx rfl rfl hdigest⟩
  | acknowledge | fetch | forward | vote | resume | prepare | leave =>
      exact Or.inl ⟨p, hold hp rfl, rfl⟩
  | _ => exact Or.inl ⟨p, hp, rfl⟩

theorem Acts.newViewSent (hact : Acts c X e s s') :
    s.node.newViewSent ⊆ s'.node.newViewSent := by
  cases hact with
  | quiet hq =>
      obtain ⟨_, _, _, _, _, _, rfl⟩ := hq
      exact subset_rfl
  | announce | lead => exact Finset.subset_insert _ _
  | _ => exact subset_rfl

/-- The node has proposed the digest. -/
def HasProposed (n : Node) (v q : ℤ) (d : String) : Prop := ∃ m, n.HasSent m ∧ m.Proposes v q d

/-- The proposals of a correct node. -/
structure Leader (c : Config) (n : Node) : Prop where
  newViews : ∀ m, n.HasSent (.newView m) → m.view ∈ n.newViewSent ∧
    ∀ x ∈ m.xSet, ∀ y ∈ m.xSet, x.sequence = y.sequence → x.digest = y.digest
  entered : n.activeView = true → primary c n.view = n.id → n.view = 0 ∨ n.view ∈ n.newViewSent
  proposed : ∀ v q d, n.HasProposed v q d →
    q ≤ n.seqCounter ∧ v ≤ n.view ∧ (v = n.view → n.activeView = true)
  unique : ∀ v q d d', n.HasProposed v q d → n.HasProposed v q d' → d = d'

theorem leader_new (id : ℤ) (clients : Finset ℤ) : Leader c (Node.new id clients) where
  newViews _ h := by
    obtain ⟨_, hp, -⟩ := h
    cases hp
  entered _ _ := Or.inl rfl
  proposed _ _ _ h := by
    obtain ⟨_, ⟨_, hp, -⟩, -⟩ := h
    cases hp
  unique _ _ _ _ h := by
    obtain ⟨_, ⟨_, hp, -⟩, -⟩ := h
    cases hp

/-- A node that is active in a view has no NEW-VIEW to send for it. -/
theorem Leader.no_announce
    {S : Dict ℤ ViewChange} {m : NewView}
    (h : n.Leader c)
    (hpositive : ∀ S m, n.Supports c S m → 1 ≤ m.view)
    (hsupports : n.Supports c S m)
    (hactive : n.activeView = true)
    (hview : m.view = n.view)
    (hprimary : primary c m.view = n.id) :
    m.view ∈ n.newViewSent := by
  have hm := hpositive S m hsupports
  rw [hview] at hm hprimary ⊢
  rcases h.entered hactive hprimary with hzero | hsent
  · omega
  · exact hsent

/-- An old proposal and a new one. -/
theorem Leader.unique_new
    {m : Message} {d' : String}
    (h : s.node.Leader c)
    (hpositive : ∀ S m, s.node.Supports c S m → 1 ≤ m.view)
    (hregress : ¬X .regress)
    (hold : s.node.HasProposed v q d)
    (hnew : Proposal c X e s s' m)
    (hproposes : m.Proposes v q d') :
    d = d' := by
  obtain ⟨hle, hview, hactive⟩ := h.proposed v q d hold
  cases hnew with
  | number _ _ _ hlt _ =>
      obtain ⟨-, rfl, -⟩ := hproposes
      omega
  | again hsent hmview hx hseq hdigest hnull =>
      obtain ⟨rfl, rfl, rfl⟩ := hproposes
      exact h.unique _ _ _ _ hold ⟨_, hsent, hmview, hnull, _, hx, hseq, hdigest⟩
  | begins hbegins _ _ _ =>
      obtain ⟨rfl, -, -⟩ := hproposes
      have hle' := hbegins.le.resolve_left hregress
      have heq := le_antisymm hview hle'
      exact absurd ⟨hactive heq, heq.symm⟩ hbegins.waits
  | announce hsupports _ hactive' hmview hprimary hfresh =>
      exact absurd (h.no_announce hpositive hsupports hactive' hmview hprimary) hfresh

theorem Leader.acts
    (hpositive : ∀ S m, s.node.Supports c S m → 1 ≤ m.view)
    (hregress : ¬X .regress)
    (hheld : Held c X s.node)
    (hact : Acts c X e s s')
    (h : s.node.Leader c) :
    s'.node.Leader c := by
  have hnewViews : ∀ m, s'.node.HasSent (.newView m) → m.view ∈ s'.node.newViewSent ∧
      ∀ x ∈ m.xSet, ∀ y ∈ m.xSet, x.sequence = y.sequence → x.digest = y.digest := by
    intro m hm
    rcases hact.new_proposal hm rfl with hold | ⟨-, hnew⟩
    · exact (h.newViews m hold).imp_left fun hmem => hact.newViewSent hmem
    · cases hnew with
      | begins hbegins _ _ hmem =>
          exact ⟨hmem, fun x hx y hy => hbegins.supports.digest_eq hx hy⟩
      | announce hsupports _ hactive hview hprimary hfresh =>
          exact absurd (h.no_announce hpositive hsupports hactive hview hprimary) hfresh
  refine ⟨hnewViews, ?_, ?_, ?_⟩
  · intro hactive hprimary
    rcases hact.stage with ⟨hview, hsame, -⟩ | ⟨-, -, hinactive⟩ | ⟨S, m, hbegins⟩
    · rw [hsame] at hactive
      rw [hview, hact.id] at hprimary
      rw [hview]
      exact (h.entered hactive hprimary).imp_right fun hmem => hact.newViewSent hmem
    · rw [hactive] at hinactive
      cases hinactive
    · rw [hbegins.view] at hprimary ⊢
      rcases hbegins.origin with ⟨-, -, hsent⟩ | hpending
      · exact Or.inr (hnewViews m hsent).1
      · obtain ⟨-, hsender, hother, -⟩ := hheld _ _ hpending
        rw [hact.id] at hprimary
        exact absurd (hsender.trans hprimary) hother
  · intro v q d ⟨m, hsent, hproposes⟩
    have hkeep : s.node.HasProposed v q d →
        q ≤ s'.node.seqCounter ∧ v ≤ s'.node.view ∧
          (v = s'.node.view → s'.node.activeView = true) := by
      intro hold
      obtain ⟨hle, hview, hactive⟩ := h.proposed v q d hold
      refine ⟨hle.trans hact.seqCounter, hview.trans (hact.view_le hregress), ?_⟩
      intro heq
      rcases hact.stage with ⟨hsame, hsame', -⟩ | ⟨-, hnext, -⟩ | ⟨S, m, hbegins⟩
      · rw [hsame']
        exact hactive (heq.trans hsame)
      · omega
      · exact hbegins.active
    rcases hact.new_proposal hsent (Message.proposes_of_proposes hproposes) with hold | ⟨-, hnew⟩
    · exact hkeep ⟨m, hold, hproposes⟩
    · cases hnew with
      | @number p _ _ hview hactive _ hle =>
          obtain ⟨rfl, rfl, rfl⟩ := hproposes
          refine ⟨hle, ?_, ?_⟩
          · rw [hview]
            exact hact.view_le hregress
          · intro heq
            rcases hact.stage with ⟨-, hsame, -⟩ | ⟨-, hnext, -⟩ | ⟨S, m, hbegins⟩
            · rw [hsame]
              exact hactive
            · omega
            · exact hbegins.active
      | again hsent₀ hmview hx hseq hdigest hnull =>
          obtain ⟨rfl, rfl, rfl⟩ := hproposes
          exact hkeep ⟨_, hsent₀, hmview, hnull, _, hx, hseq, hdigest⟩
      | begins hbegins _ _ _ =>
          obtain ⟨rfl, -, x, hx, rfl, -⟩ := hproposes
          exact ⟨hbegins.counter x hx, hbegins.view.ge, fun _ => hbegins.active⟩
      | announce hsupports _ hactive hview hprimary hfresh =>
          exact absurd (h.no_announce hpositive hsupports hactive hview hprimary) hfresh
  · intro v q d d' ⟨m, hsent, hproposes⟩ ⟨m', hsent', hproposes'⟩
    rcases hact.new_proposal hsent (Message.proposes_of_proposes hproposes) with
        hold | ⟨happend, hnew⟩ <;>
    rcases hact.new_proposal hsent' (Message.proposes_of_proposes hproposes') with
        hold' | ⟨happend', hnew'⟩
    · exact h.unique v q d d' ⟨m, hold, hproposes⟩ ⟨m', hold', hproposes'⟩
    · exact h.unique_new hpositive hregress ⟨m, hold, hproposes⟩ hnew' hproposes'
    · exact (h.unique_new hpositive hregress ⟨m', hold', hproposes'⟩ hnew hproposes).symm
    · -- One effect sends one message.
      rw [happend, List.append_cancel_left_eq] at happend'
      obtain rfl : m = m' := by simpa using happend'
      cases m with
      | prePrepare p => exact hproposes.2.2.symm.trans hproposes'.2.2
      | newView m =>
          obtain ⟨-, -, x, hx, hq, rfl⟩ := hproposes
          obtain ⟨-, -, y, hy, hq', rfl⟩ := hproposes'
          exact (hnewViews m hsent).2 x hx y hy (hq.trans hq'.symm)
      | _ => exact hproposes.elim

/-! ## What a backup votes for -/

/-- The node has voted for the digest, may vote for it, or has accepted it. -/
def Endorsed (n : Node) (v q : ℤ) (d : String) : Prop :=
  n.HasSent (.prepare ⟨v, q, d, n.id⟩) ∨
    (∃ key p, n.pendingPrePrepares.get? key = some p ∧ p.view = v ∧ p.sequence = q ∧
      p.digest = d) ∨
    n.Accepted v q d

theorem Steady.endorsed
    (h : Steady c s)
    (hendorsed : s.node.Endorsed v q d) :
    s.node.Keeps v q d := by
  rcases hendorsed with hvote | ⟨key, p, hp, rfl, rfl, rfl⟩ | haccepted
  · exact (h.prepares v q d hvote).2
  · exact (h.waiting key p hp).2
  · exact haccepted.keeps

/-- Only a digest that is accepted by the effect is newly endorsed. -/
theorem Acts.new_endorsed
    (hact : Acts c X e s s')
    (hsteady : Steady c s)
    (h : s'.node.Endorsed v q d) :
    s.node.Endorsed v q d ∨
      v = s.node.view ∧ Accepts s.node s'.node q d ∧ Origin c X e s s' q d := by
  rcases h with hvote | ⟨key, p, hp, rfl, rfl, rfl⟩ | haccepted
  · rcases hact.new_vote hvote with hold | ⟨-, -, haccepted⟩ | hwaiting
    · exact Or.inl (Or.inl hold)
    · exact Or.inl (Or.inr (Or.inr haccepted))
    · exact Or.inl (Or.inr (Or.inl hwaiting))
  · rcases hact.new_waiting hp with hold | ⟨-, -, haccepted⟩
    · exact Or.inl (Or.inr (Or.inl ⟨key, p, hold, rfl, rfl, rfl⟩))
    · exact Or.inl (Or.inr (Or.inr haccepted))
  · rcases hact.acceptance hsteady with ⟨hview, hreceived⟩ | ⟨q', d', haccepts, horigin⟩
    · unfold Accepted at haccepted
      rw [hview, hreceived] at haccepted
      exact Or.inl (Or.inr (Or.inr haccepted))
    · rcases haccepts.accepted_iff.mp haccepted with ⟨rfl, rfl, rfl⟩ | ⟨-, hold⟩
      · exact Or.inr ⟨rfl, haccepts, horigin⟩
      · exact Or.inl (Or.inr (Or.inr hold))

/-- The primary of the view has proposed the digest, as far as the node knows. -/
def Proposed (c : Config) (K : Message → Prop) (n : Node) (v q : ℤ) (d : String) : Prop :=
  ∃ m, n.Known K m ∧ m.senderID = primary c v ∧ m.Proposes v q d

theorem Proposed.acts
    (hact : Acts c X e s s')
    (h : s.node.Proposed c K v q d) :
    s'.node.Proposed c K v q d := by
  obtain ⟨m, hknown, hm⟩ := h
  exact ⟨m, hknown.acts hact, hm⟩

theorem Proposed.imp
    (hK : ∀ m, K m → K' m)
    (h : n.Proposed c K v q d) :
    n.Proposed c K' v q d := by
  obtain ⟨m, hknown, hm⟩ := h
  exact ⟨m, hknown.imp (hK m), hm⟩

/-- What a correct backup votes for, in a stage of a handler. -/
structure Loyal (c : Config) (K : Message → Prop) (s : Stage) : Prop where
  unique : ∀ v q d d', s.node.Endorsed v q d → s.node.Endorsed v q d' → d = d'
  proposed : ∀ v q d, s.node.Endorsed v q d → s.node.Proposed c K v q d
  entries : ∀ x ∈ s.rest, x.digest ≠ "null" →
    s.node.Proposed c K s.node.view x.sequence x.digest
  voters : ∀ q v d, ∀ j ∈ s.node.prepareVotes.getD (q, v, d) ∅, j ≠ primary c v

theorem not_endorsed_new
    {id : ℤ} {clients : Finset ℤ} :
    ¬(Node.new id clients).Endorsed v q d := by
  rintro (⟨_, hp, -⟩ | ⟨_, _, hp, -⟩ | ⟨hp, -⟩)
  · cases hp
  · cases hp
  · cases hp

theorem loyal_new (id : ℤ) (clients : Finset ℤ) : Loyal c K ⟨Node.new id clients, []⟩ where
  unique _ _ _ _ h := absurd h not_endorsed_new
  proposed _ _ _ h := absurd h not_endorsed_new
  entries _ h := absurd h List.not_mem_nil
  voters _ _ _ _ h := absurd h (Finset.notMem_empty _)

theorem Loyal.imp
    (hK : ∀ m, K m → K' m)
    (h : Loyal c K s) :
    Loyal c K' s where
  unique := h.unique
  proposed v q d hd := (h.proposed v q d hd).imp hK
  entries x hx hdigest := (h.entries x hx hdigest).imp hK
  voters := h.voters

/-- An endorsement of an earlier effect and a new one. -/
theorem Steady.endorsed_unique
    {d' : String}
    (h : Steady c s)
    (hold : s.node.Endorsed s.node.view q d)
    (haccepts : Accepts s.node s'.node q d') :
    d = d' := by
  obtain ⟨a, d₀, haccepted, hle, hsame⟩ := h.endorsed hold
  have heq : a = s.node.view := le_antisymm (h.bounded q a haccepted.1) hle
  rw [← hsame heq]
  rw [heq] at haccepted
  exact haccepts.same d₀ haccepted

theorem Origin.proposed
    (he : Receivable K e)
    (h : Loyal c K s)
    (hact : Acts c X e s s')
    (horigin : Origin c X e s s' q d) :
    s'.node.Proposed c K s.node.view q d := by
  cases horigin with
  | request _ _ hsent hprimary _ _ _ =>
      refine ⟨_, Or.inr ⟨?_, hsent⟩, hprimary.symm, rfl, rfl, rfl⟩
      exact hact.id.symm
  | prePrepare _ hm hview hq hd hsender _ _ _ =>
      exact ⟨_, Or.inl (he.known hm nofun), by rw [← hview]; exact hsender, hview, hq, hd⟩
  | @entry x hrest hq hd hdigest =>
      subst hq hd
      exact (h.entries x (by rw [hrest]; exact List.mem_cons_self) hdigest).acts hact

theorem Loyal.acts
    (hprimaryVote : ¬X .primaryVote)
    (he : Receivable K e)
    (hsteady : Steady c s)
    (hsteady' : Steady c s')
    (hheld : Held c X s.node)
    (hauthentic : s.node.Authentic K)
    (hact : Acts c X e s s')
    (h : Loyal c K s) :
    Loyal c K s' where
  unique v q d d' hd hd' := by
    rcases hact.new_endorsed hsteady hd with hold | ⟨rfl, haccepts, -⟩ <;>
    rcases hact.new_endorsed hsteady hd' with hold' | ⟨hv, haccepts', -⟩
    · exact h.unique v q d d' hold hold'
    · subst hv
      exact hsteady.endorsed_unique hold haccepts'
    · exact (hsteady.endorsed_unique hold' haccepts).symm
    · exact haccepts.accepted.unique haccepts'.accepted
  proposed v q d hd := by
    rcases hact.new_endorsed hsteady hd with hold | ⟨rfl, -, horigin⟩
    · exact (h.proposed v q d hold).acts hact
    · exact horigin.proposed he h hact
  entries x hx hdigest := by
    rcases hact.stage with ⟨hview, -, hsuffix⟩ | ⟨hnil, -, -⟩ | ⟨S, m, hbegins⟩
    · rw [hview]
      exact (h.entries x (hsuffix.subset hx) hdigest).acts hact
    · rw [hnil] at hx
      cases hx
    · rw [hbegins.rest] at hx
      have hproposes : (Message.newView m).Proposes s'.node.view x.sequence x.digest :=
        ⟨hbegins.view.symm, hdigest, x, hx, rfl, rfl⟩
      rw [hbegins.view] at hproposes ⊢
      rcases hbegins.origin with ⟨hsender, hprimary, hsent⟩ | hpending
      · exact ⟨.newView m, Or.inr ⟨hsender.trans hact.id.symm, hsent⟩,
          hsender.trans hprimary.symm, hproposes⟩
      · exact ⟨.newView m, (hauthentic.pending _ _ hpending).acts hact, (hheld _ _ hpending).2.1,
          hproposes⟩
  voters q v d j hj := by
    rcases hact.new_prepare hj with hold | ⟨-, hprimary⟩ | ⟨hself, hsent⟩
    · exact h.voters q v d j hold
    · exact hprimary.resolve_left hprimaryVote
    · subst hself
      rw [← hact.id] at hsent ⊢
      exact (hsteady'.prepares v q d hsent).1.symm

/-! ## All facts about a node that keeps its views -/

structure Kept (c : Config) (X : Defect → Prop) (K : Message → Prop) (s : Stage) : Prop where
  held : Held c X s.node
  authentic : s.node.Authentic K
  faithful : s.node.Faithful K
  steady : Steady c s
  certified : s.node.Certified c
  forward : s.node.Forward

theorem Kept.acts
    (hcontradiction : ¬X .contradiction)
    (hregress : ¬X .regress)
    (he : Receivable K e)
    (hact : Acts c X e s s')
    (h : Kept c X K s) :
    Kept c X K s' where
  held := hact.held h.held
  authentic := h.authentic.acts he hact
  faithful := h.faithful.acts hact
  steady := h.steady.acts hcontradiction hregress hact
  certified := h.certified.acts hact
  forward := h.forward.acts hregress h.authentic h.faithful hact

theorem Kept.runs
    (hcontradiction : ¬X .contradiction)
    (hregress : ¬X .regress)
    (he : Receivable K e)
    (hruns : Runs c X e s s')
    (h : Kept c X K s) :
    Kept c X K s' := by
  induction hruns with
  | refl => exact h
  | tail _ hact ih => exact ih.acts hcontradiction hregress he hact

theorem Kept.loyal_runs
    (hprimaryVote : ¬X .primaryVote)
    (hcontradiction : ¬X .contradiction)
    (hregress : ¬X .regress)
    (he : Receivable K e)
    (hpositive : ∀ n' : Node, n'.id = s.node.id → n'.Authentic K → n'.Forward →
      ∀ S m, n'.Supports c S m → 1 ≤ m.view)
    (hruns : Runs c X e s s')
    (h : Kept c X K s)
    (hloyal : Loyal c K s)
    (hleader : s.node.Leader c) :
    Loyal c K s' ∧ s'.node.Leader c := by
  induction hruns with
  | refl => exact ⟨hloyal, hleader⟩
  | tail hruns hact ih =>
      have hkept := h.runs hcontradiction hregress he hruns
      refine ⟨ih.1.acts hprimaryVote he hkept.steady
        (hkept.steady.acts hcontradiction hregress hact) hkept.held hkept.authentic hact, ?_⟩
      exact ih.2.acts (hpositive _ (Runs.id hruns) hkept.authentic hkept.forward) hregress hkept.held hact

end Node

namespace Cluster

variable {D : Deployment} {L : List Defect} {w w' : Cluster} {i j : ℤ} {e : Event}

/-- What a node knows is the same after progress of the others. -/
theorem kept_mono
    (hext : Nodes.Extends Grows w w')
    (hid : (w' i).id = i)
    (hcorrect : D.IsCorrect i)
    (h : Node.Kept D.config (· ∉ L) (w.Genuine D) ⟨w' i, []⟩) :
    Node.Kept D.config (· ∉ L) (w'.Genuine D) ⟨w' i, []⟩ where
  held := h.held
  authentic := h.authentic.imp fun m => Genuine.mono hext
  faithful m hm hself := by
    have hsender : m.senderID = i := hself.trans hid
    have hsent := hm.2 (by rw [hsender]; exact hcorrect)
    rwa [hsender] at hsent
  steady := h.steady
  certified := h.certified
  forward := h.forward

/-- The invariant of a correct node in a run without returns to earlier views. -/
structure Orderly (D : Deployment) (L : List Defect) (w : Cluster) (i : ℤ) : Prop where
  id : (w i).id = i
  kept : D.IsCorrect i → Node.Kept D.config (· ∉ L) (w.Genuine D) ⟨w i, []⟩

theorem kept_new
    (hid : (w i).id = i)
    (hnew : w i = Node.new i D.clients)
    (hcorrect : D.IsCorrect i) :
    Node.Kept D.config (· ∉ L) (w.Genuine D) ⟨w i, []⟩ where
  held := by
    rw [hnew]
    intro _ _ h
    cases h
  authentic := by
    rw [hnew]
    exact Node.authentic_new i _
  faithful m hm hself := by
    have hsender : m.senderID = i := hself.trans hid
    have hsent := hm.2 (by rw [hsender]; exact hcorrect)
    rwa [hsender] at hsent
  steady := by
    rw [hnew]
    exact Node.steady_new i _
  certified := by
    rw [hnew]
    exact Node.certified_new i _
  forward := by
    rw [hnew]
    exact Node.forward_new i _

theorem reachable_orderly
    (hcontradiction : .contradiction ∈ L)
    (hregress : .regress ∈ L)
    (hreach : (cluster D).Reachable (Avoiding D L) w) :
    ∀ i, w.Orderly D L i := by
  refine Nodes.reachable_invariant (N := nodes D) (R := Grows)
    (I := fun w i => Cluster.Orderly D L w i) Grows.refl ?_ ?_ ?_ hreach
  · exact fun i => ⟨rfl, fun hcorrect => kept_new rfl rfl hcorrect⟩
  · intro w i e hreach hw havoids henabled
    have hsound := reachable_sound (Or.inr hregress) hreach
    have hruns := handle_runs hsound havoids henabled
    have hcorrect := Enabled.isCorrect henabled
    refine ⟨⟨hruns.id, hruns.sent⟩, fun hext => ?_⟩
    have hid : (Cluster.after D w i e i).id = i := by
      rw [Cluster.after, Function.update_self]
      exact hruns.id.trans (hw i).id
    refine ⟨hid, fun _ => kept_mono hext hid hcorrect ?_⟩
    have hkept := ((hw i).kept hcorrect).runs (not_not.mpr hcontradiction) (not_not.mpr hregress)
      (receivable hsound henabled) hruns
    rw [Function.update_self]
    exact hkept
  · intro w w' i hext hsame hi
    refine ⟨?_, fun hcorrect => kept_mono hext ?_ hcorrect ?_⟩
    · rw [hsame]
      exact hi.id
    · rw [hsame]
      exact hi.id
    · rw [hsame]
      exact hi.kept hcorrect

end Cluster

end PbftSimulator
end DistributedConsensus
