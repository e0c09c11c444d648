import DistributedConsensus.Foundations.ViewReports
import DistributedConsensus.PbftSimulator.InView

/-!
# PBFT simulator: what a node reports when it gives up a view

A node that avoids the missing checks accepts in a view only what the VIEW-CHANGE
messages for the view permit.  Its own VIEW-CHANGE message reports what it has
sent COMMITs for, or something that was accepted in a later view.
-/

namespace DistributedConsensus
namespace PbftSimulator

open Foundations

/-! ## Reports -/

namespace ViewChange

variable {m : ViewChange} {q : ℤ}

/-- What the message says about a sequence number. -/
def report (m : ViewChange) (q : ℤ) : Report String where
  prepared := (m.pSet.filter fun p => decide (p.sequence = q)).map fun p => (p.view, p.digest)
  prePrepared := (m.qSet.filter fun p => decide (p.sequence = q)).map fun p => (p.view, p.digest)

theorem mem_report {l : List PQEntry} {x : ℤ × String} :
    x ∈ (l.filter fun p => decide (p.sequence = q)).map (fun p => (p.view, p.digest)) ↔
      ∃ p ∈ l, p.sequence = q ∧ x = (p.view, p.digest) := by
  rw [List.mem_map]
  constructor
  · rintro ⟨p, hp, rfl⟩
    rw [List.mem_filter, decide_eq_true_iff] at hp
    exact ⟨p, hp.1, hp.2, rfl⟩
  · rintro ⟨p, hp, hq, rfl⟩
    exact ⟨p, List.mem_filter.mpr ⟨hp, decide_eq_true hq⟩, rfl⟩

theorem supports_iff {c : PQEntry} :
    m.supports q c = true ↔ (m.report q).Supports c.view c.digest := by
  have hentry : ∀ p : PQEntry, (!(decide (p.sequence = q) &&
      !(decide (p.view < c.view) ||
        (decide (p.view = c.view) && decide (p.digest = c.digest))))) = true ↔
        (p.sequence = q → p.view < c.view ∨ p.view = c.view ∧ p.digest = c.digest) := by
    intro p
    simp
    grind
  unfold supports
  rw [List.all_eq_true]
  constructor
  · intro h x hx
    obtain ⟨p, hp, hq, rfl⟩ := mem_report.mp hx
    exact (hentry p).mp (h p hp) hq
  · intro h p hp
    rw [hentry]
    exact fun hq => h _ (mem_report.mpr ⟨p, hp, hq, rfl⟩)

theorem vouches_iff {c : PQEntry} :
    m.vouches q c = true ↔ (m.report q).Vouches c.view c.digest := by
  unfold vouches
  rw [List.any_eq_true]
  constructor
  · rintro ⟨p, hp, h⟩
    rw [Bool.and_eq_true, Bool.and_eq_true, decide_eq_true_iff, decide_eq_true_iff,
      decide_eq_true_iff] at h
    exact ⟨_, mem_report.mpr ⟨p, hp, h.1.1, rfl⟩, h.1.2, h.2⟩
  · rintro ⟨x, hx, hd, hv⟩
    obtain ⟨p, hp, hq, rfl⟩ := mem_report.mp hx
    refine ⟨p, hp, ?_⟩
    rw [Bool.and_eq_true, Bool.and_eq_true, decide_eq_true_iff, decide_eq_true_iff,
      decide_eq_true_iff]
    exact ⟨⟨hq, hd⟩, hv⟩

theorem lacks_iff : m.lacks q = true ↔ (m.report q).prepared = [] := by
  rw [List.eq_nil_iff_forall_not_mem]
  unfold lacks
  rw [Bool.not_eq_true', List.any_eq_false]
  constructor
  · intro h x hx
    obtain ⟨p, hp, hq, -⟩ := mem_report.mp hx
    exact h p hp (decide_eq_true hq)
  · intro h p hp hq
    exact h _ (mem_report.mpr ⟨p, hp, of_decide_eq_true hq, rfl⟩)

end ViewChange

/-! ## What a new view permits -/

section Permission

variable {F : ℕ} {o : Orders} {S : Dict ℤ ViewChange} {q : ℤ} {d : String}

/-- The digest satisfies condition A, or the sequence number is free. -/
def Permits (F : ℕ) (S : Dict ℤ ViewChange) (q : ℤ) (d : String) : Prop :=
  (∃ m ∈ S.values, ∃ p ∈ m.candidate q, conditionA F S.values q p = true ∧
      (p.digest = d ∨ p.digest = "null")) ∨
    conditionB F S.values q = true

/-- Every digest is permitted. -/
def Free (F : ℕ) (S : Dict ℤ ViewChange) (q : ℤ) : Prop := Permits F S q "null"

theorem Free.permits (h : Free F S q) : Permits F S q d := by
  rcases h with ⟨m, hm, p, hp, hA, hnull⟩ | hB
  · exact Or.inl ⟨m, hm, p, hp, hA, Or.inr (hnull.elim id id)⟩
  · exact Or.inr hB

theorem permits_of_decisions
    (h : (decisionProcedure F o S).decisions.get? q = some d) :
    Permits F S q d := by
  rcases decisions_spec h with ⟨m, hm, p, hp, hA, hd⟩ | ⟨-, hB⟩
  · exact Or.inl ⟨m, hm, p, hp, hA, Or.inl hd⟩
  · exact Or.inr hB

/-- A sequence number that no message mentions is free. -/
theorem free_of_not_mem
    (hquorum : quorumSize F ≤ S.size)
    (hq : q ∉ seqSet S.values) :
    Free F S q := by
  refine Or.inr ?_
  have hall : S.values.countP (ViewChange.lacks q) = S.values.length := by
    rw [List.countP_eq_length]
    intro m hm
    rw [ViewChange.lacks_iff, List.eq_nil_iff_forall_not_mem]
    intro x hx
    obtain ⟨p, hp, hseq, -⟩ := ViewChange.mem_report.mp hx
    exact hq (mem_seqSet.mpr ⟨m, hm, p, Or.inl hp, hseq⟩)
  unfold conditionB
  rw [decide_eq_true_iff, hall, Dict.length_values]
  exact hquorum

/-- An X set that covers the sequence numbers mentions no others. -/
theorem mem_seqSet_of_covers
    {xSet : List XEntry} {x : XEntry}
    (hagrees : (decisionProcedure F o S).agreesWith xSet = true)
    (hcovers : ∀ seq ∈ seqSet S.values, ∃ x ∈ xSet, x.sequence = seq)
    (hx : x ∈ xSet) :
    x.sequence ∈ seqSet S.values := by
  obtain ⟨hcomplete, hsize, -⟩ := Decision.agreesWith_spec hagrees
  have hsub : seqSet S.values ⊆ xSet.map XEntry.sequence := by
    intro seq hseq
    obtain ⟨y, hy, rfl⟩ := hcovers seq hseq
    exact List.mem_map_of_mem hy
  have hsubperm : (seqSet S.values).Subperm (xSet.map XEntry.sequence) :=
    (List.nodup_dedup _).subperm hsub
  have hperm := hsubperm.perm_of_length_le (by
    rw [List.length_map, ← hsize, size_of_complete hcomplete])
  exact hperm.symm.subset (List.mem_map_of_mem hx)

/-- An X set that covers all sequence numbers has the decisions. -/
theorem decisions_of_mem
    {xSet : List XEntry} {x : XEntry}
    (hagrees : (decisionProcedure F o S).agreesWith xSet = true)
    (hcovers : ∀ seq ∈ seqSet S.values, ∃ x ∈ xSet, x.sequence = seq)
    (hx : x ∈ xSet) :
    (decisionProcedure F o S).decisions.get? x.sequence = some x.digest := by
  obtain ⟨hcomplete, -, hall⟩ := Decision.agreesWith_spec hagrees
  obtain ⟨digest, hdigest⟩ := decisions_of_complete hcomplete
    (mem_seqSet_of_covers hagrees hcovers hx)
  have hsame := hall x hx
  unfold Dict.getD at hsame
  rw [hdigest] at hsame ⊢
  exact congrArg some hsame

end Permission

namespace Node

variable {c : Config} {X : Defect → Prop} {e : Option Message} {K K' : Message → Prop}
  {n n' : Node} {s s' : Stage} {u v q : ℤ} {d : String} {S : Dict ℤ ViewChange}

/-! ## What may be accepted in a view -/

/-- A quorum of VIEW-CHANGE messages for the view, as far as the node knows. -/
structure Backed (c : Config) (K : Message → Prop) (n : Node) (S : Dict ℤ ViewChange) (u : ℤ) :
    Prop where
  quorum : quorumSize c.F ≤ S.size
  known : ∀ k vc, S.get? k = some vc →
    vc.view = u ∧ vc.senderID = k ∧ n.Known K (.viewChange vc)

/-- The VIEW-CHANGE messages for the view permit the digest. -/
def Admissible (c : Config) (K : Message → Prop) (n : Node) (u q : ℤ) (d : String) : Prop :=
  u ≤ 0 ∨ ∃ S, n.Backed c K S u ∧ Permits c.F S q d

theorem Backed.acts (hact : Acts c X e s s') (h : s.node.Backed c K S u) :
    s'.node.Backed c K S u where
  quorum := h.quorum
  known k vc hvc := by
    obtain ⟨hview, hsender, hknown⟩ := h.known k vc hvc
    exact ⟨hview, hsender, hknown.acts hact⟩

theorem Backed.imp (hK : ∀ m, K m → K' m) (h : n.Backed c K S u) : n.Backed c K' S u where
  quorum := h.quorum
  known k vc hvc := by
    obtain ⟨hview, hsender, hknown⟩ := h.known k vc hvc
    exact ⟨hview, hsender, hknown.imp (hK _)⟩

theorem Admissible.acts (hact : Acts c X e s s') (h : s.node.Admissible c K u q d) :
    s'.node.Admissible c K u q d := by
  refine h.imp_right ?_
  rintro ⟨S, hbacked, hpermits⟩
  exact ⟨S, hbacked.acts hact, hpermits⟩

theorem Admissible.imp (hK : ∀ m, K m → K' m) (h : n.Admissible c K u q d) :
    n.Admissible c K' u q d := by
  refine h.imp_right ?_
  rintro ⟨S, hbacked, hpermits⟩
  exact ⟨S, hbacked.imp hK, hpermits⟩

theorem Supports.backed
    {m : NewView}
    (hauthentic : n.Authentic K)
    (h : n.Supports c S m) :
    n.Backed c K S m.view where
  quorum := h.quorum
  known k vc hvc := hauthentic.stored _ _ _ (h.stored k vc hvc)

/-! ## Effects on what is prepared -/

/-- A sequence number is newly prepared only in the current view, with what is
accepted there. -/
theorem Acts.preparation
    (hstale : ¬X .stalePrepare)
    (hact : Acts c X e s s') :
    (s'.node.preparedView = s.node.preparedView ∧ s'.node.preparedSent = s.node.preparedSent) ∨
      ∃ q v d, s'.node.preparedView = s.node.preparedView.set q v ∧
        s'.node.preparedSent = s.node.preparedSent.set q true ∧ v = s.node.view ∧
          s.node.Accepted v q d := by
  cases hact with
  | quiet hq =>
      obtain ⟨_, _, _, _, _, _, rfl⟩ := hq
      exact Or.inl ⟨rfl, rfl⟩
  | prepare hprepared hcurrent =>
      obtain ⟨hview, hcurrent⟩ := hcurrent.resolve_left hstale
      exact Or.inr ⟨_, _, _, rfl, rfl, hview, hcurrent, (isPrepared_iff.mp hprepared).1⟩
  | _ => exact Or.inl ⟨rfl, rfl⟩

/-- A sequence number newly enters the prepare phase with a vote or a proposal. -/
theorem Acts.new_entered
    (hact : Acts c X e s s')
    (h : s'.node.enteredPrePrepared.get? q = some v) :
    s.node.enteredPrePrepared.get? q = some v ∨
      (∃ d, s.node.HasSent (.prepare ⟨v, q, d, s.node.id⟩)) ∨ ∃ d, s'.node.Accepted v q d := by
  cases hact with
  | quiet hq =>
      obtain ⟨_, _, _, _, _, _, rfl⟩ := hq
      exact Or.inl h
  | @propose n m _ _ _ _ =>
      change (n.enteredPrePrepared.set (n.seqCounter + 1) n.view).get? q = some v at h
      rw [Dict.get?_set] at h
      split at h
      case isTrue hq =>
        obtain rfl := Option.some.inj h
        subst hq
        exact Or.inr (Or.inr ⟨m.digest, (get?_accept n _ m.digest n.view).symm⟩)
      case isFalse => exact Or.inl h
  | enter hsent =>
      simp only [Dict.get?_set] at h
      split at h
      case isTrue hq =>
        obtain rfl := Option.some.inj h
        subst hq
        exact Or.inr (Or.inl ⟨_, hsent⟩)
      case isFalse => exact Or.inl h
  | _ => exact Or.inl h

/-- An entry of the X set stays, names the NULL request, or is accepted. -/
theorem Acts.processed
    {x : XEntry}
    (hact : Acts c X e s s')
    (hx : x ∈ s.rest) :
    x ∈ s'.rest ∨ x.digest = "null" ∨
      s'.node.Accepted s.node.view x.sequence x.digest := by
  cases hact with
  | skip hnull =>
      rcases List.mem_cons.mp hx with rfl | hx
      · exact Or.inr (Or.inl hnull)
      · exact Or.inl hx
  | adopt =>
      rcases List.mem_cons.mp hx with rfl | hx
      · exact Or.inr (Or.inr (get?_accept _ _ _ _).symm)
      · exact Or.inl hx
  | propose | accept | await | resume | count | countCommit | leave | store | hold | drop
  | announce | lead | install => cases hx
  | _ => exact Or.inl hx

/-! ## Truthful reports -/

/-- What a node that avoids the missing checks accepts, prepares and reports. -/
structure Truthful (c : Config) (K : Message → Prop) (s : Stage) : Prop where
  accepted : ∀ u q d, s.node.Accepted u q d → d ≠ "null" ∧ s.node.Admissible c K u q d
  entries : ∀ x ∈ s.rest, x.digest ≠ "null" →
    s.node.Admissible c K s.node.view x.sequence x.digest
  installed : s.node.activeView = true → s.node.view ≤ 0 ∨
    ∃ S, s.node.Backed c K S s.node.view ∧ ∀ q, Free c.F S q ∨
      (∃ d, s.node.Accepted s.node.view q d) ∨ ∃ x ∈ s.rest, x.sequence = q ∧ x.digest ≠ "null"
  prepared : ∀ q v, s.node.preparedView.get? q = some v → ∃ d, s.node.Keeps v q d
  entered : ∀ q v, s.node.enteredPrePrepared.get? q = some v → ∃ d, s.node.Keeps v q d
  flagged : ∀ q, s.node.preparedSent.get? q = some true → ∃ v, s.node.preparedView.get? q = some v
  commits : ∀ v q d, s.node.HasSent (.commit ⟨v, q, d, s.node.id⟩) →
    0 ≤ v ∧ d ≠ "null" ∧ s.node.Admissible c K v q d ∧ s.node.Keeps v q d ∧
      s.node.preparedSent.get? q = some true ∧ ∃ pv, s.node.preparedView.get? q = some pv ∧ v ≤ pv
  reports : ∀ vc, s.node.HasSent (.viewChange vc) → vc.senderID = s.node.id →
    ∀ p, p ∈ vc.pSet ∨ p ∈ vc.qSet →
      ∃ a, p.view ≤ a ∧ a < vc.view ∧ s.node.Admissible c K a p.sequence p.digest
  covers : ∀ vc v q d, s.node.HasSent (.viewChange vc) → vc.senderID = s.node.id →
    s.node.HasSent (.commit ⟨v, q, d, s.node.id⟩) → v < vc.view →
      (∃ p ∈ vc.pSet, p.sequence = q) ∧ ∀ p ∈ vc.pSet, p.sequence = q → v ≤ p.view ∧
        ∃ a, p.view ≤ a ∧ a < vc.view ∧ s.node.Admissible c K a q p.digest ∧
          (a = v → p.digest = d)

/-- The current view of an active node permits every digest that it can accept. -/
theorem Truthful.admissible_of_active
    (h : Truthful c K s)
    (hactive : s.node.activeView = true)
    (hrest : s.rest = [])
    (hsame : ∀ d', s.node.Accepted s.node.view q d' → d' = d) :
    s.node.Admissible c K s.node.view q d := by
  rcases h.installed hactive with hzero | ⟨S, hbacked, hall⟩
  · exact Or.inl hzero
  · rcases hall q with hfree | ⟨d', haccepted⟩ | ⟨x, hx, -⟩
    · exact Or.inr ⟨S, hbacked, hfree.permits⟩
    · rw [← hsame d' haccepted]
      exact (h.accepted _ _ _ haccepted).2
    · rw [hrest] at hx
      cases hx

theorem Truthful.origin
    (hearly : ¬X .earlyAccept)
    (hnull : ¬X .nullDigest)
    (h : Truthful c K s)
    (haccepts : Accepts s.node s'.node q d)
    (horigin : Origin c X e s s' q d) :
    d ≠ "null" ∧ s.node.Admissible c K s.node.view q d := by
  cases horigin with
  | request hrest hactive _ _ _ _ hdigest =>
      exact ⟨hdigest.resolve_left hnull, h.admissible_of_active hactive hrest haccepts.same⟩
  | prePrepare hrest _ _ _ _ _ _ hactive hdigest =>
      exact ⟨hdigest.resolve_left hnull,
        h.admissible_of_active (hactive.resolve_left hearly) hrest haccepts.same⟩
  | @entry x hrest hq hd hdigest =>
      subst hq hd
      exact ⟨hdigest, h.entries x (by rw [hrest]; exact List.mem_cons_self) hdigest⟩

/-- A new view has an entry for every sequence number that is not free. -/
theorem Begins.free_or_entry
    {m : NewView}
    (hloose : ¬X .looseX)
    (h : Begins c X n s' S m)
    (q : ℤ) :
    Free c.F S q ∨ ∃ x ∈ m.xSet, x.sequence = q ∧ x.digest ≠ "null" := by
  by_cases hq : q ∈ seqSet S.values
  · obtain ⟨o, ho⟩ := h.supports.agrees
    have hcovers := h.covers.resolve_left hloose
    obtain ⟨x, hx, rfl⟩ := hcovers q hq
    by_cases hnull : x.digest = "null"
    · have hpermits := permits_of_decisions (decisions_of_mem ho hcovers hx)
      rw [hnull] at hpermits
      exact Or.inl hpermits
    · exact Or.inr ⟨x, hx, rfl, hnull⟩
  · exact Or.inl (free_of_not_mem h.supports.quorum hq)

theorem Begins.admissible
    {m : NewView} {x : XEntry}
    (hloose : ¬X .looseX)
    (hauthentic : n.Authentic K)
    (h : Begins c X n s' S m)
    (hx : x ∈ m.xSet) :
    n.Admissible c K m.view x.sequence x.digest := by
  obtain ⟨o, ho⟩ := h.supports.agrees
  exact Or.inr ⟨S, h.supports.backed hauthentic,
    permits_of_decisions (decisions_of_mem ho (h.covers.resolve_left hloose) hx)⟩

theorem mem_pSet
    {o : Orders} {p : PQEntry}
    (h : p ∈ n.pSet o) :
    n.preparedSent.get? p.sequence = some true ∧
      p.digest = n.prePrepareReceived.getD p.sequence "" ∧
      p.view = n.preparedView.getD p.sequence 0 := by
  unfold pSet at h
  rw [List.mem_map] at h
  obtain ⟨⟨q, b⟩, hmem, rfl⟩ := h
  rw [List.mem_filter] at hmem
  obtain ⟨hmem, rfl⟩ := hmem
  exact ⟨Dict.mem_inOrder.mp hmem, rfl, rfl⟩

theorem exists_mem_pSet
    (o : Orders)
    (h : n.preparedSent.get? q = some true) :
    ∃ p ∈ n.pSet o, p.sequence = q := by
  refine ⟨_, List.mem_map_of_mem (List.mem_filter.mpr ⟨Dict.mem_inOrder.mpr h, rfl⟩), rfl⟩

theorem mem_qSet
    {o : Orders} {p : PQEntry}
    (h : p ∈ n.qSet o) :
    n.enteredPrePrepared.get? p.sequence = some p.view ∧
      p.digest = n.prePrepareReceived.getD p.sequence "" := by
  unfold qSet at h
  rw [List.mem_map] at h
  obtain ⟨⟨q, v⟩, hmem, rfl⟩ := h
  exact ⟨Dict.mem_inOrder.mp hmem, rfl⟩

theorem getD_of_accepted
    (h : n.Accepted v q d) :
    n.prePrepareReceived.getD q "" = d := by
  unfold Dict.getD
  rw [h.2]
  rfl

/-- What a node reports when it leaves its view. -/
theorem Truthful.report
    {o : Orders} {p : PQEntry}
    (hsteady : Steady c s)
    (h : Truthful c K s)
    (hp : p ∈ s.node.pSet o ∨ p ∈ s.node.qSet o) :
    ∃ a, p.view ≤ a ∧ a < s.node.view + 1 ∧ s.node.Admissible c K a p.sequence p.digest := by
  have hkeeps : ∃ d, s.node.Keeps p.view p.sequence d := by
    rcases hp with hp | hp
    · obtain ⟨hflag, -, hview⟩ := mem_pSet hp
      obtain ⟨pv, hpv⟩ := h.flagged _ hflag
      unfold Dict.getD at hview
      rw [hpv] at hview
      change p.view = pv at hview
      rw [hview]
      exact h.prepared _ _ hpv
    · exact h.entered _ _ (mem_qSet hp).1
  have hdigest : p.digest = s.node.prePrepareReceived.getD p.sequence "" :=
    hp.elim (fun hp => (mem_pSet hp).2.1) (fun hp => (mem_qSet hp).2)
  obtain ⟨_, a, d, haccepted, hle, -⟩ := hkeeps
  rw [getD_of_accepted haccepted] at hdigest
  have hbound := hsteady.bounded _ _ haccepted.1
  refine ⟨a, hle, by omega, ?_⟩
  rw [hdigest]
  exact (h.accepted _ _ _ haccepted).2

/-- The P set covers what the node has sent a COMMIT for. -/
theorem Truthful.report_covers
    {o : Orders}
    (hsteady : Steady c s)
    (h : Truthful c K s)
    (hcommit : s.node.HasSent (.commit ⟨v, q, d, s.node.id⟩)) :
    (∃ p ∈ s.node.pSet o, p.sequence = q) ∧ ∀ p ∈ s.node.pSet o, p.sequence = q → v ≤ p.view ∧
      ∃ a, p.view ≤ a ∧ a < s.node.view + 1 ∧ s.node.Admissible c K a q p.digest ∧
        (a = v → p.digest = d) := by
  obtain ⟨-, -, -, hkeeps, hflag, pv, hpv, hle⟩ := h.commits v q d hcommit
  refine ⟨exists_mem_pSet o hflag, ?_⟩
  rintro p hp rfl
  obtain ⟨-, hdigest, hview⟩ := mem_pSet hp
  have hpview : p.view = pv := by
    unfold Dict.getD at hview
    rw [hpv] at hview
    exact hview
  obtain ⟨a, d', haccepted, -, hsame⟩ := hkeeps
  obtain ⟨_, a', d₀, haccepted', hle', -⟩ := h.prepared _ _ hpv
  -- There is one acceptance for the sequence number.
  have ha : a' = a := Option.some.inj (haccepted'.1.symm.trans haccepted.1)
  rw [getD_of_accepted haccepted] at hdigest
  have hbound := hsteady.bounded _ _ haccepted.1
  rw [hpview, hdigest]
  exact ⟨hle, a, by omega, by omega, (h.accepted _ _ _ haccepted).2, hsame⟩

theorem truthful_new (id : ℤ) (clients : Finset ℤ) :
    Truthful c K ⟨Node.new id clients, []⟩ where
  accepted _ _ _ h := by cases h.1
  entries _ h := absurd h List.not_mem_nil
  installed _ := Or.inl (le_refl 0)
  prepared _ _ h := by cases h
  entered _ _ h := by cases h
  flagged _ h := by cases h
  commits _ _ _ h := by
    obtain ⟨_, hp, -⟩ := h
    cases hp
  reports _ h := by
    obtain ⟨_, hp, -⟩ := h
    cases hp
  covers _ _ _ _ h := by
    obtain ⟨_, hp, -⟩ := h
    cases hp

theorem Truthful.imp
    (hK : ∀ m, K m → K' m)
    (h : Truthful c K s) :
    Truthful c K' s where
  accepted u q d hd := (h.accepted u q d hd).imp_right fun hd => hd.imp hK
  entries x hx hdigest := (h.entries x hx hdigest).imp hK
  installed hactive := by
    refine (h.installed hactive).imp_right ?_
    rintro ⟨S, hbacked, hall⟩
    exact ⟨S, hbacked.imp hK, hall⟩
  prepared := h.prepared
  entered := h.entered
  flagged := h.flagged
  commits v q d hcommit := by
    obtain ⟨hv, hd, hadmissible, hrest⟩ := h.commits v q d hcommit
    exact ⟨hv, hd, hadmissible.imp hK, hrest⟩
  reports vc hvc hself p hp := by
    obtain ⟨a, hle, hlt, hadmissible⟩ := h.reports vc hvc hself p hp
    exact ⟨a, hle, hlt, hadmissible.imp hK⟩
  covers vc v q d hvc hself hcommit hlt := by
    obtain ⟨hex, hall⟩ := h.covers vc v q d hvc hself hcommit hlt
    refine ⟨hex, fun p hp hq => ?_⟩
    obtain ⟨hle, a, hle', hlt', hadmissible, hsame⟩ := hall p hp hq
    exact ⟨hle, a, hle', hlt', hadmissible.imp hK, hsame⟩

section Step

variable (hstale : ¬X .stalePrepare)
variable (hearly : ¬X .earlyAccept)
variable (hregress : ¬X .regress)
variable (hloose : ¬X .looseX)
variable (hnull : ¬X .nullDigest)

include hearly hnull in
theorem Truthful.acts_accepted
    (hkept : Kept c X K s)
    (hact : Acts c X e s s')
    (h : Truthful c K s)
    (hd : s'.node.Accepted u q d) :
    d ≠ "null" ∧ s'.node.Admissible c K u q d := by
  rcases hact.acceptance hkept.steady with ⟨hview, hreceived⟩ | ⟨q', d', haccepts, horigin⟩
  · unfold Accepted at hd
    rw [hview, hreceived] at hd
    exact (h.accepted u q d hd).imp_right fun hd => hd.acts hact
  · rcases haccepts.accepted_iff.mp hd with ⟨rfl, rfl, rfl⟩ | ⟨-, hold⟩
    · exact (h.origin hearly hnull haccepts horigin).imp_right fun hd => hd.acts hact
    · exact (h.accepted u q d hold).imp_right fun hd => hd.acts hact

include hloose in
theorem Truthful.acts_entries
    {x : XEntry}
    (hkept : Kept c X K s)
    (hact : Acts c X e s s')
    (h : Truthful c K s)
    (hx : x ∈ s'.rest)
    (hdigest : x.digest ≠ "null") :
    s'.node.Admissible c K s'.node.view x.sequence x.digest := by
  rcases hact.stage with ⟨hview, -, hsuffix⟩ | ⟨hnil, -, -⟩ | ⟨S, m, hbegins⟩
  · rw [hview]
    exact (h.entries x (hsuffix.subset hx) hdigest).acts hact
  · rw [hnil] at hx
    cases hx
  · rw [hbegins.rest] at hx
    rw [hbegins.view]
    exact (hbegins.admissible hloose hkept.authentic hx).acts hact

include hloose in
theorem Truthful.acts_installed
    (hkept : Kept c X K s)
    (hact : Acts c X e s s')
    (h : Truthful c K s)
    (hactive : s'.node.activeView = true) :
    s'.node.view ≤ 0 ∨ ∃ S, s'.node.Backed c K S s'.node.view ∧ ∀ q, Free c.F S q ∨
      (∃ d, s'.node.Accepted s'.node.view q d) ∨
        ∃ x ∈ s'.rest, x.sequence = q ∧ x.digest ≠ "null" := by
  rcases hact.stage with ⟨hview, hsame, -⟩ | ⟨-, -, hinactive⟩ | ⟨S, m, hbegins⟩
  · rw [hsame] at hactive
    rw [hview]
    refine (h.installed hactive).imp_right ?_
    rintro ⟨S, hbacked, hall⟩
    refine ⟨S, hbacked.acts hact, fun q => ?_⟩
    rcases hall q with hfree | ⟨d, haccepted⟩ | ⟨x, hx, rfl, hdigest⟩
    · exact Or.inl hfree
    · refine Or.inr (Or.inl ?_)
      rcases hact.acceptance hkept.steady with ⟨hview', hreceived⟩ | ⟨q', d', haccepts, -⟩
      · refine ⟨d, ?_⟩
        unfold Accepted
        rw [hview', hreceived]
        exact haccepted
      · by_cases hq : q = q'
        · subst hq
          exact ⟨d', haccepts.accepted⟩
        · exact ⟨d, haccepts.accepted_iff.mpr (Or.inr ⟨hq, haccepted⟩)⟩
    · rcases hact.processed hx with hx | hnull | haccepted
      · exact Or.inr (Or.inr ⟨x, hx, rfl, hdigest⟩)
      · exact absurd hnull hdigest
      · exact Or.inr (Or.inl ⟨_, haccepted⟩)
  · rw [hactive] at hinactive
    cases hinactive
  · refine Or.inr ⟨S, ?_, fun q => ?_⟩
    · rw [hbegins.view]
      exact (hbegins.supports.backed hkept.authentic).acts hact
    · rw [hbegins.rest]
      exact (hbegins.free_or_entry hloose q).imp_right Or.inr

include hstale in
theorem Truthful.acts_commits
    (hkept : Kept c X K s)
    (hact : Acts c X e s s')
    (h : Truthful c K s)
    (hcommit : s'.node.HasSent (.commit ⟨v, q, d, s'.node.id⟩)) :
    0 ≤ v ∧ d ≠ "null" ∧ s'.node.Admissible c K v q d ∧ s'.node.Keeps v q d ∧
      s'.node.preparedSent.get? q = some true ∧
        ∃ pv, s'.node.preparedView.get? q = some pv ∧ v ≤ pv := by
  rcases hact.new_commit hcommit with hold | ⟨heq, hprepared, hcurrent⟩
  · obtain ⟨hv, hd, hadmissible, hkeeps, hflag, pv, hpv, hle⟩ := h.commits v q d hold
    refine ⟨hv, hd, hadmissible.acts hact, hact.keeps hkept.steady hkeeps, ?_⟩
    rcases hact.preparation hstale with ⟨hpview, hsent⟩ | ⟨q', v', d', hpview, hsent, hv', -⟩
    · rw [hpview, hsent]
      exact ⟨hflag, pv, hpv, hle⟩
    · rw [hpview, hsent, Dict.get?_set, Dict.get?_set]
      split
      case isTrue =>
        -- The sequence number is prepared once more, in the current view.
        obtain ⟨a, _, haccepted, hle', -⟩ := hkeeps
        have hbound := hkept.steady.bounded _ _ haccepted.1
        exact ⟨rfl, v', rfl, by omega⟩
      case isFalse => exact ⟨hflag, pv, hpv, hle⟩
  · obtain ⟨rfl, hview⟩ := hcurrent.resolve_left hstale
    have haccepted : s.node.Accepted s.node.view q d := ⟨hview, (isPrepared_iff.mp hprepared).1⟩
    obtain ⟨hd, hadmissible⟩ := h.accepted _ _ _ haccepted
    refine ⟨hkept.forward.view, hd, hadmissible.acts hact,
      hact.keeps hkept.steady haccepted.keeps, ?_, s.node.view, ?_, le_refl _⟩
    · rw [heq]
      change (s.node.preparedSent.set q true).get? q = some true
      rw [Dict.get?_set, if_pos rfl]
    · rw [heq]
      change (s.node.preparedView.set q s.node.view).get? q = some s.node.view
      rw [Dict.get?_set, if_pos rfl]

theorem Truthful.acts_reports
    {vc : ViewChange} {p : PQEntry}
    (hkept : Kept c X K s)
    (hact : Acts c X e s s')
    (h : Truthful c K s)
    (hvc : s'.node.HasSent (.viewChange vc))
    (hself : vc.senderID = s'.node.id)
    (hp : p ∈ vc.pSet ∨ p ∈ vc.qSet) :
    ∃ a, p.view ≤ a ∧ a < vc.view ∧ s'.node.Admissible c K a p.sequence p.digest := by
  rw [hact.id] at hself
  have hkeep : s.node.HasSent (.viewChange vc) →
      ∃ a, p.view ≤ a ∧ a < vc.view ∧ s'.node.Admissible c K a p.sequence p.digest := by
    intro hsent
    obtain ⟨a, hle, hlt, hadmissible⟩ := h.reports vc hsent hself p hp
    exact ⟨a, hle, hlt, hadmissible.acts hact⟩
  rcases hact.new_viewChange hvc with hold | ⟨u, j, hstored⟩ | ⟨o, rfl, -⟩
  · exact hkeep hold
  · exact hkeep (hkept.faithful.sent_of_known (hkept.authentic.stored u j vc hstored).2.2 hself)
  · obtain ⟨a, hle, hlt, hadmissible⟩ := h.report hkept.steady hp
    exact ⟨a, hle, hlt, hadmissible.acts hact⟩

include hstale in
theorem Truthful.acts_covers
    {vc : ViewChange}
    (hkept : Kept c X K s)
    (hact : Acts c X e s s')
    (h : Truthful c K s)
    (hvc : s'.node.HasSent (.viewChange vc))
    (hself : vc.senderID = s'.node.id)
    (hcommit : s'.node.HasSent (.commit ⟨v, q, d, s'.node.id⟩))
    (hlt : v < vc.view) :
    (∃ p ∈ vc.pSet, p.sequence = q) ∧ ∀ p ∈ vc.pSet, p.sequence = q → v ≤ p.view ∧
      ∃ a, p.view ≤ a ∧ a < vc.view ∧ s'.node.Admissible c K a q p.digest ∧
        (a = v → p.digest = d) := by
  have hmono : ((∃ p ∈ vc.pSet, p.sequence = q) ∧ ∀ p ∈ vc.pSet, p.sequence = q → v ≤ p.view ∧
      ∃ a, p.view ≤ a ∧ a < vc.view ∧ s.node.Admissible c K a q p.digest ∧
        (a = v → p.digest = d)) →
      (∃ p ∈ vc.pSet, p.sequence = q) ∧ ∀ p ∈ vc.pSet, p.sequence = q → v ≤ p.view ∧
        ∃ a, p.view ≤ a ∧ a < vc.view ∧ s'.node.Admissible c K a q p.digest ∧
          (a = v → p.digest = d) := by
    rintro ⟨hex, hall⟩
    refine ⟨hex, fun p hp hq => ?_⟩
    obtain ⟨hle, a, hle', hlt', hadmissible, hsame⟩ := hall p hp hq
    exact ⟨hle, a, hle', hlt', hadmissible.acts hact, hsame⟩
  rw [hact.id] at hself
  have hkeep : s.node.HasSent (.viewChange vc) →
      (∃ p ∈ vc.pSet, p.sequence = q) ∧ ∀ p ∈ vc.pSet, p.sequence = q → v ≤ p.view ∧
        ∃ a, p.view ≤ a ∧ a < vc.view ∧ s'.node.Admissible c K a q p.digest ∧
          (a = v → p.digest = d) := by
    intro hsent
    rcases hact.new_commit hcommit with hold | ⟨-, -, hcurrent⟩
    · exact hmono (h.covers vc v q d hsent hself hold hlt)
    · -- A COMMIT of the current view comes after the message.
      have hview := (hcurrent.resolve_left hstale).1
      have hle := (hkept.forward.viewChanges vc hsent hself).2
      omega
  rcases hact.new_viewChange hvc with hold | ⟨u, j, hstored⟩ | ⟨o, rfl, heq⟩
  · exact hkeep hold
  · exact hkeep (hkept.faithful.sent_of_known (hkept.authentic.stored u j vc hstored).2.2 hself)
  · refine hmono (h.report_covers hkept.steady ?_)
    rcases hact.new_commit hcommit with hold | ⟨heq', -, -⟩
    · exact hold
    · -- No effect sends both messages.
      have hactive := congrArg Node.view (heq.symm.trans heq')
      have hnext : s.node.view + 1 = s.node.view := hactive
      omega

include hstale hearly hloose hnull in
theorem Truthful.acts
    (hkept : Kept c X K s)
    (hact : Acts c X e s s')
    (h : Truthful c K s) :
    Truthful c K s' where
  accepted u q d hd := h.acts_accepted hearly hnull hkept hact hd
  entries x hx hdigest := h.acts_entries hloose hkept hact hx hdigest
  installed hactive := h.acts_installed hloose hkept hact hactive
  prepared q v hv := by
    rcases hact.preparation hstale with ⟨hview, -⟩ | ⟨q', v', d', hview, -, rfl, haccepted⟩
    · rw [hview] at hv
      obtain ⟨d, hkeeps⟩ := h.prepared q v hv
      exact ⟨d, hact.keeps hkept.steady hkeeps⟩
    · rw [hview, Dict.get?_set] at hv
      split at hv
      case isTrue hq =>
        obtain rfl := Option.some.inj hv
        subst hq
        exact ⟨d', hact.keeps hkept.steady haccepted.keeps⟩
      case isFalse =>
        obtain ⟨d, hkeeps⟩ := h.prepared q v hv
        exact ⟨d, hact.keeps hkept.steady hkeeps⟩
  entered q v hv := by
    rcases hact.new_entered hv with hold | ⟨d, hsent⟩ | ⟨d, haccepted⟩
    · obtain ⟨d, hkeeps⟩ := h.entered q v hold
      exact ⟨d, hact.keeps hkept.steady hkeeps⟩
    · exact ⟨d, hact.keeps hkept.steady (hkept.steady.prepares v q d hsent).2⟩
    · exact ⟨d, haccepted.keeps⟩
  flagged q hq := by
    rcases hact.preparation hstale with ⟨hview, hsent⟩ | ⟨q', v', d', hview, hsent, -, -⟩
    · rw [hsent] at hq
      rw [hview]
      exact h.flagged q hq
    · rw [hsent, Dict.get?_set] at hq
      rw [hview, Dict.get?_set]
      split
      case isTrue => exact ⟨v', rfl⟩
      case isFalse hne =>
        rw [if_neg hne] at hq
        exact h.flagged q hq
  commits v q d hcommit := h.acts_commits hstale hkept hact hcommit
  reports vc hvc hself p hp := h.acts_reports hkept hact hvc hself hp
  covers vc v q d hvc hself hcommit hlt :=
    h.acts_covers hstale hkept hact hvc hself hcommit hlt

include hstale hearly hregress hloose hnull in
/-- A step of a node. -/
theorem Truthful.runs
    (hcontradiction : ¬X .contradiction)
    (he : Receivable K e)
    (hruns : Runs c X e s s')
    (hkept : Kept c X K s)
    (h : Truthful c K s) :
    Truthful c K s' := by
  induction hruns with
  | refl => exact h
  | tail hruns hact ih =>
      exact ih.acts hstale hearly hloose hnull (hkept.runs hcontradiction hregress he hruns) hact

end Step

end Node

end PbftSimulator
end DistributedConsensus
