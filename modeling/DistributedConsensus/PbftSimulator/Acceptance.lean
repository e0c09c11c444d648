import DistributedConsensus.PbftSimulator.Evidence

/-!
# PBFT simulator: what a node has accepted

A node that keeps its views and the PRE-PREPAREs of a view accepts at most one
digest for a sequence number in a view.  What it has accepted, or prepared later,
is only replaced in a later view.
-/

namespace DistributedConsensus
namespace PbftSimulator

open Foundations

namespace Node

variable {c : Config} {D : Defect → Prop} {e : Option Message} {n n' : Node} {s s' : Stage}
  {q v : ℤ} {d : String}

/-- The digest stands for the sequence number since the view. -/
def Accepted (n : Node) (v q : ℤ) (d : String) : Prop :=
  n.prePreparedView.get? q = some v ∧ n.prePrepareReceived.get? q = some d

/-- The node has accepted the digest in the view, or something in a later one. -/
def Keeps (n : Node) (v q : ℤ) (d : String) : Prop :=
  ∃ a d', n.Accepted a q d' ∧ v ≤ a ∧ (a = v → d' = d)

theorem Accepted.keeps (h : n.Accepted v q d) : n.Keeps v q d :=
  ⟨v, d, h, le_refl v, fun _ => rfl⟩

theorem Accepted.unique
    {d' : String}
    (h : n.Accepted v q d)
    (h' : n.Accepted v q d') :
    d = d' :=
  Option.some.inj (h.2.symm.trans h'.2)

/-- A digest is accepted in the current view; it is the one that has been
accepted there before, if any. -/
structure Accepts (n n' : Node) (q : ℤ) (d : String) : Prop where
  view : n'.view = n.view
  prePreparedView : n'.prePreparedView = n.prePreparedView.set q n.view
  prePrepareReceived : n'.prePrepareReceived = n.prePrepareReceived.set q d
  same : ∀ d', n.Accepted n.view q d' → d' = d

theorem Accepts.accepted (h : Accepts n n' q d) : n'.Accepted n.view q d := by
  constructor
  · rw [h.prePreparedView, Dict.get?_set, if_pos rfl]
  · rw [h.prePrepareReceived, Dict.get?_set, if_pos rfl]

/-- What is accepted afterwards has been accepted before, or is the new digest. -/
theorem Accepts.accepted_iff
    {a q' : ℤ} {d' : String}
    (h : Accepts n n' q d) :
    n'.Accepted a q' d' ↔ q' = q ∧ a = n.view ∧ d' = d ∨ q' ≠ q ∧ n.Accepted a q' d' := by
  unfold Accepted
  rw [h.prePreparedView, h.prePrepareReceived, Dict.get?_set, Dict.get?_set]
  by_cases hq : q' = q
  · rw [if_pos hq, if_pos hq]
    constructor
    · rintro ⟨ha, hd⟩
      exact Or.inl ⟨hq, (Option.some.inj ha).symm, (Option.some.inj hd).symm⟩
    · rintro (⟨-, rfl, rfl⟩ | ⟨hne, -⟩)
      · exact ⟨rfl, rfl⟩
      · exact absurd hq hne
  · rw [if_neg hq, if_neg hq]
    constructor
    · exact fun h => Or.inr ⟨hq, h⟩
    · rintro (⟨heq, -, -⟩ | ⟨-, h⟩)
      · exact absurd heq hq
      · exact h

theorem Accepts.keeps
    {v' q' : ℤ} {d' : String}
    (hbounded : ∀ a, n.prePreparedView.get? q' = some a → a ≤ n.view)
    (haccepts : Accepts n n' q d)
    (h : n.Keeps v' q' d') :
    n'.Keeps v' q' d' := by
  obtain ⟨a, d₀, haccepted, hle, hsame⟩ := h
  by_cases hq : q' = q
  · subst hq
    have ha := hbounded a haccepted.1
    refine ⟨n.view, d, haccepts.accepted, hle.trans ha, fun hv => ?_⟩
    have heq : a = n.view := le_antisymm ha (by omega)
    subst heq
    rw [← haccepts.same d₀ haccepted]
    exact hsame hv
  · exact ⟨a, d₀, haccepts.accepted_iff.mpr (Or.inr ⟨hq, haccepted⟩), hle, hsame⟩

/-- What a node has accepted, in a stage of a handler. -/
structure Steady (c : Config) (s : Stage) : Prop extends Sane c s where
  received : ∀ q a, s.node.prePreparedView.get? q = some a →
    ∃ d, s.node.prePrepareReceived.get? q = some d
  counter : ∀ q a, s.node.prePreparedView.get? q = some a → primary c a = s.node.id →
    q ≤ s.node.seqCounter
  entries : ∀ x ∈ s.rest, x.sequence ≤ s.node.seqCounter
  consistent : ∀ x ∈ s.rest, x.digest ≠ "null" → ∀ d,
    s.node.Accepted s.node.view x.sequence d → d = x.digest
  functional : ∀ x ∈ s.rest, ∀ y ∈ s.rest, x.sequence = y.sequence → x.digest = y.digest
  waiting : ∀ key p, s.node.pendingPrePrepares.get? key = some p →
    primary c p.view ≠ s.node.id ∧ s.node.Keeps p.view p.sequence p.digest
  prepares : ∀ v q d, s.node.HasSent (.prepare ⟨v, q, d, s.node.id⟩) →
    primary c v ≠ s.node.id ∧ s.node.Keeps v q d

theorem steady_new (id : ℤ) (clients : Finset ℤ) : Steady c ⟨Node.new id clients, []⟩ where
  bounded _ _ h := by cases h
  pending _ _ h := by cases h
  own _ h := by cases h
  installing h := absurd rfl h
  received _ _ h := by cases h
  counter _ _ h := by cases h
  entries _ h := absurd h List.not_mem_nil
  consistent _ h := absurd h List.not_mem_nil
  functional _ h := absurd h List.not_mem_nil
  waiting _ _ h := by cases h
  prepares _ _ _ h := by
    obtain ⟨_, hp, -⟩ := h
    cases hp

/-- Where the digest comes from that a node accepts. -/
inductive Origin (c : Config) (D : Defect → Prop) (e : Option Message) (s s' : Stage) (q : ℤ)
    (d : String) : Prop
  | request {payload : String} : s.rest = [] → s.node.activeView = true →
      s'.node.HasSent (.prePrepare ⟨s.node.view, q, d, s.node.id, payload⟩) →
      primary c s.node.view = s.node.id → s.node.seqCounter < q → q ≤ s'.node.seqCounter →
      (D .nullDigest ∨ d ≠ "null") → Origin c D e s s' q d
  | prePrepare {m : PrePrepare} : s.rest = [] → e = some (.prePrepare m) →
      m.view = s.node.view → m.sequence = q → m.digest = d → m.senderID = primary c m.view →
      primary c s.node.view ≠ s.node.id → (D .earlyAccept ∨ s.node.activeView = true) →
      (D .nullDigest ∨ d ≠ "null") → Origin c D e s s' q d
  | entry {x : XEntry} : s.rest = x :: s'.rest → x.sequence = q → x.digest = d → d ≠ "null" →
      Origin c D e s s' q d

/-- An effect leaves alone what is accepted, or accepts a digest. -/
theorem Acts.acceptance
    (hact : Acts c D e s s')
    (h : Steady c s) :
    (s'.node.prePreparedView = s.node.prePreparedView ∧
        s'.node.prePrepareReceived = s.node.prePrepareReceived) ∨
      ∃ q d, Accepts s.node s'.node q d ∧ Origin c D e s s' q d := by
  cases hact with
  | quiet hq =>
      obtain ⟨_, _, _, _, _, _, rfl⟩ := hq
      exact Or.inl ⟨rfl, rfl⟩
  | @propose n m _ hactive hprimary hnull =>
      refine Or.inr ⟨n.seqCounter + 1, m.digest, ⟨rfl, rfl, rfl, ?_⟩, ?_⟩
      · intro d' hd'
        have hle := h.counter _ _ hd'.1 hprimary
        exact absurd hle (Int.lt_succ n.seqCounter).not_ge
      · exact .request rfl hactive ⟨_, List.mem_append_right _ (List.mem_singleton_self _), rfl⟩
          hprimary (Int.lt_succ n.seqCounter) (le_refl _) hnull
  | @accept n m he hview hsender hother hconflict hearly hnull =>
      refine Or.inr ⟨m.sequence, m.digest, ⟨rfl, ?_, rfl, ?_⟩, ?_⟩
      · exact congrArg (n.prePreparedView.set m.sequence) hview
      · intro d' hd'
        unfold conflicts at hconflict
        rw [hview, hd'.1, hd'.2] at hconflict
        simpa using hconflict
      · refine .prePrepare rfl he hview rfl rfl hsender ?_ hearly hnull
        rw [← hview, ← hsender]
        exact hother
  | @adopt n r x hdigest =>
      refine Or.inr ⟨x.sequence, x.digest, ⟨rfl, rfl, rfl, ?_⟩, .entry rfl rfl rfl hdigest⟩
      exact h.consistent x (by simp) hdigest
  | _ => exact Or.inl ⟨rfl, rfl⟩

/-- What a node keeps, it keeps after every effect. -/
theorem Acts.keeps
    {v q : ℤ} {d : String}
    (hact : Acts c D e s s')
    (h : Steady c s)
    (hkeeps : s.node.Keeps v q d) :
    s'.node.Keeps v q d := by
  rcases hact.acceptance h with ⟨hview, hreceived⟩ | ⟨q', d', haccepts, -⟩
  · unfold Keeps Accepted
    rw [hview, hreceived]
    exact hkeeps
  · exact haccepts.keeps (h.bounded q) hkeeps

/-- The node begins to install a view. -/
structure Begins (c : Config) (D : Defect → Prop) (n : Node) (s' : Stage) (S : Dict ℤ ViewChange)
    (m : NewView) : Prop where
  rest : s'.rest = m.xSet
  view : s'.node.view = m.view
  active : s'.node.activeView = true
  supports : n.Supports c S m
  covers : D .looseX ∨ Covers S m
  respects : D .contradiction ∨ n.Respects m
  waits : ¬(n.activeView = true ∧ n.view = m.view)
  le : D .regress ∨ n.view ≤ m.view
  prePreparedView : s'.node.prePreparedView = n.prePreparedView
  prePrepareReceived : s'.node.prePrepareReceived = n.prePrepareReceived
  counter : ∀ x ∈ m.xSet, x.sequence ≤ s'.node.seqCounter
  origin : (m.senderID = n.id ∧ primary c m.view = n.id ∧ s'.node.HasSent (.newView m)) ∨
    n.pendingNewView.get? m.view = some m

theorem le_foldl_max (entries : List XEntry) (k : ℤ) :
    k ≤ entries.foldl (fun counter x => max counter x.sequence) k := by
  induction entries generalizing k with
  | nil => exact le_refl k
  | cons x rest ih => exact (le_max_left k x.sequence).trans (ih _)

theorem sequence_le_foldl_max
    {entries : List XEntry} {x : XEntry}
    (hx : x ∈ entries) (k : ℤ) :
    x.sequence ≤ entries.foldl (fun counter x => max counter x.sequence) k := by
  induction entries generalizing k with
  | nil => cases hx
  | cons y rest ih =>
      rcases List.mem_cons.mp hx with rfl | hx
      · exact (le_max_right k x.sequence).trans (le_foldl_max rest _)
      · exact ih hx _

/-- The view changes when the node gives up a view or begins to install one; else
the entries that it has to process become fewer. -/
theorem Acts.stage (hact : Acts c D e s s') :
    (s'.node.view = s.node.view ∧ s'.node.activeView = s.node.activeView ∧ s'.rest <:+ s.rest) ∨
      (s'.rest = [] ∧ s'.node.view = s.node.view + 1 ∧ s'.node.activeView = false) ∨
      ∃ S m, Begins c D s.node s' S m := by
  cases hact with
  | quiet hq =>
      obtain ⟨_, _, _, _, _, _, rfl⟩ := hq
      exact Or.inl ⟨rfl, rfl, List.suffix_refl _⟩
  | leave => exact Or.inr (Or.inl ⟨rfl, rfl, rfl⟩)
  | @lead n m S hprimary hsender _ hsupports hcovers hwaits hle hrespects =>
      refine Or.inr (Or.inr ⟨S, m, rfl, rfl, rfl, hsupports, Or.inr hcovers, hrespects, hwaits, hle,
        rfl, rfl, fun x hx => sequence_le_foldl_max hx _, Or.inl ⟨hsender, hprimary, ?_⟩⟩)
      exact ⟨_, List.mem_append_right _ (List.mem_singleton_self _), rfl⟩
  | @install n m S hpending hsupports hcovers hwaits hle hrespects =>
      exact Or.inr (Or.inr ⟨S, m, rfl, rfl, rfl, hsupports, hcovers, hrespects, hwaits, Or.inr hle,
        rfl, rfl, fun x hx => sequence_le_foldl_max hx _, Or.inr hpending⟩)
  | skip | adopt => exact Or.inl ⟨rfl, rfl, List.suffix_cons _ _⟩
  | _ => exact Or.inl ⟨rfl, rfl, List.suffix_refl _⟩

theorem Acts.seqCounter (hact : Acts c D e s s') : s.node.seqCounter ≤ s'.node.seqCounter := by
  cases hact with
  | quiet hq =>
      obtain ⟨_, _, _, _, _, _, rfl⟩ := hq
      exact le_refl _
  | propose => exact (Int.lt_succ _).le
  | lead | install => exact le_foldl_max _ _
  | _ => exact le_refl _

/-- A PREPARE of the node that is new after an effect. -/
theorem Acts.new_vote
    {v q : ℤ} {d : String}
    (hact : Acts c D e s s')
    (h : s'.node.HasSent (.prepare ⟨v, q, d, s'.node.id⟩)) :
    s.node.HasSent (.prepare ⟨v, q, d, s.node.id⟩) ∨
      (primary c v ≠ s.node.id ∧ v = s.node.view ∧ s.node.Accepted v q d) ∨
      ∃ key p, s.node.pendingPrePrepares.get? key = some p ∧ p.view = v ∧ p.sequence = q ∧
        p.digest = d := by
  obtain ⟨p, hp, hmsg⟩ := h
  rw [hact.id] at hmsg
  have hold : ∀ {sent : List Packet} {x : Packet}, p ∈ sent ++ [x] →
      x.msg ≠ .prepare ⟨v, q, d, s.node.id⟩ → p ∈ sent := by
    intro sent x h hx
    rcases List.mem_append.mp h with h | h
    · exact h
    · rw [List.mem_singleton.mp h] at hmsg
      exact absurd hmsg hx
  cases hact with
  | quiet hq =>
      obtain ⟨_, _, _, _, _, _, rfl⟩ := hq
      exact Or.inl ⟨p, hp, hmsg⟩
  | vote hview hbackup hreceived hcurrent =>
      rcases List.mem_append.mp hp with hp | hp
      · exact Or.inl ⟨p, hp, hmsg⟩
      · rw [List.mem_singleton.mp hp] at hmsg
        cases hmsg
        exact Or.inr (Or.inl ⟨hbackup, hview, hcurrent, hreceived⟩)
  | resume hpending =>
      rcases List.mem_append.mp hp with hp | hp
      · exact Or.inl ⟨p, hp, hmsg⟩
      · rw [List.mem_singleton.mp hp] at hmsg
        cases hmsg
        exact Or.inr (Or.inr ⟨_, _, hpending, rfl, rfl, rfl⟩)
  | acknowledge | fetch | forward | propose | prepare | leave | announce | lead | repropose =>
      exact Or.inl ⟨p, hold hp nofun, hmsg⟩
  | _ => exact Or.inl ⟨p, hp, hmsg⟩

/-- A PRE-PREPARE that newly waits for its request. -/
theorem Acts.new_waiting
    {key : String} {p : PrePrepare}
    (hact : Acts c D e s s')
    (h : s'.node.pendingPrePrepares.get? key = some p) :
    s.node.pendingPrePrepares.get? key = some p ∨
      primary c p.view ≠ s.node.id ∧ p.view = s.node.view ∧
        s.node.Accepted p.view p.sequence p.digest := by
  cases hact with
  | quiet hq =>
      obtain ⟨_, _, _, _, _, _, rfl⟩ := hq
      exact Or.inl h
  | await _ hview hsender hother hreceived hcurrent =>
      simp only [Dict.get?_set] at h
      split at h
      case isTrue =>
        obtain rfl := Option.some.inj h
        exact Or.inr ⟨by rwa [← hsender], hview, hcurrent, hreceived⟩
      case isFalse => exact Or.inl h
  | @resume n key' p' _ =>
      change (n.pendingPrePrepares.erase key').get? key = some p at h
      rw [Dict.get?_erase] at h
      split at h
      case isTrue => cases h
      case isFalse => exact Or.inl h
  | _ => exact Or.inl h

theorem Supports.digest_eq
    {S : Dict ℤ ViewChange} {m : NewView} {x y : XEntry}
    (h : n.Supports c S m)
    (hx : x ∈ m.xSet)
    (hy : y ∈ m.xSet)
    (hseq : x.sequence = y.sequence) :
    x.digest = y.digest := by
  obtain ⟨o, ho⟩ := h.agrees
  exact Decision.digest_eq ho hx hy hseq

/-- One effect of a handler. -/
theorem Steady.acts
    (hcontradiction : ¬D .contradiction)
    (hregress : ¬D .regress)
    (hact : Acts c D e s s')
    (h : Steady c s) :
    Steady c s' where
  toSane := hact.sane hregress h.toSane
  received q a ha := by
    rcases hact.acceptance h with ⟨hview, hreceived⟩ | ⟨q', d', haccepts, -⟩
    · rw [hview] at ha
      rw [hreceived]
      exact h.received q a ha
    · rw [haccepts.prePreparedView, Dict.get?_set] at ha
      rw [haccepts.prePrepareReceived, Dict.get?_set]
      split
      case isTrue => exact ⟨d', rfl⟩
      case isFalse hq =>
        rw [if_neg hq] at ha
        exact h.received q a ha
  counter q a ha hprimary := by
    rw [hact.id] at hprimary
    rcases hact.acceptance h with ⟨hview, -⟩ | ⟨q', d', haccepts, horigin⟩
    · rw [hview] at ha
      exact (h.counter q a ha hprimary).trans hact.seqCounter
    · rw [haccepts.prePreparedView, Dict.get?_set] at ha
      split at ha
      case isFalse => exact (h.counter q a ha hprimary).trans hact.seqCounter
      case isTrue hq =>
        obtain rfl := Option.some.inj ha
        rw [hq]
        cases horigin with
        | request _ _ _ _ _ hle _ => exact hle
        | prePrepare _ _ _ _ _ _ hbackup _ _ => exact absurd hprimary hbackup
        | @entry x hrest hx _ _ =>
            rw [← hx]
            exact (h.entries x (by rw [hrest]; exact List.mem_cons_self)).trans hact.seqCounter
  entries x hx := by
    rcases hact.stage with ⟨-, -, hsuffix⟩ | ⟨hnil, -, -⟩ | ⟨S, m, hbegins⟩
    · exact (h.entries x (hsuffix.subset hx)).trans hact.seqCounter
    · rw [hnil] at hx
      cases hx
    · rw [hbegins.rest] at hx
      exact hbegins.counter x hx
  consistent x hx hdigest d hd := by
    rcases hact.stage with ⟨hview, -, hsuffix⟩ | ⟨hnil, -, -⟩ | ⟨S, m, hbegins⟩
    · rw [hview] at hd
      rcases hact.acceptance h with ⟨hsame, hreceived⟩ | ⟨q', d', haccepts, horigin⟩
      · unfold Accepted at hd
        rw [hsame, hreceived] at hd
        exact h.consistent x (hsuffix.subset hx) hdigest d hd
      · rcases haccepts.accepted_iff.mp hd with ⟨hq, -, hd⟩ | ⟨-, hold⟩
        · -- The new digest is that of the entry before.
          cases horigin with
          | request hnil | prePrepare hnil =>
              rw [hnil, List.suffix_nil] at hsuffix
              rw [hsuffix] at hx
              cases hx
          | @entry y hrest hy hy' _ =>
              rw [hd, ← hy']
              refine h.functional y ?_ x (hsuffix.subset hx) (hy.trans hq.symm)
              rw [hrest]
              exact List.mem_cons_self
        · exact h.consistent x (hsuffix.subset hx) hdigest d hold
    · rw [hnil] at hx
      cases hx
    · rw [hbegins.rest] at hx
      rw [hbegins.view] at hd
      unfold Accepted at hd
      rw [hbegins.prePreparedView, hbegins.prePrepareReceived] at hd
      have hsame := hbegins.respects.resolve_left hcontradiction x hx hdigest hd.1
      exact Option.some.inj (hd.2.symm.trans hsame)
  functional x hx y hy hseq := by
    rcases hact.stage with ⟨-, -, hsuffix⟩ | ⟨hnil, -, -⟩ | ⟨S, m, hbegins⟩
    · exact h.functional x (hsuffix.subset hx) y (hsuffix.subset hy) hseq
    · rw [hnil] at hx
      cases hx
    · rw [hbegins.rest] at hx hy
      exact hbegins.supports.digest_eq hx hy hseq
  waiting key p hp := by
    rw [hact.id]
    rcases hact.new_waiting hp with hold | ⟨hbackup, -, haccepted⟩
    · exact ⟨(h.waiting key p hold).1, hact.keeps h (h.waiting key p hold).2⟩
    · exact ⟨hbackup, hact.keeps h haccepted.keeps⟩
  prepares v q d hsent := by
    rw [hact.id]
    rcases hact.new_vote hsent with hold | ⟨hbackup, -, haccepted⟩ | ⟨key, p, hp, rfl, rfl, rfl⟩
    · exact ⟨(h.prepares v q d hold).1, hact.keeps h (h.prepares v q d hold).2⟩
    · exact ⟨hbackup, hact.keeps h haccepted.keeps⟩
    · exact ⟨(h.waiting key p hp).1, hact.keeps h (h.waiting key p hp).2⟩

end Node

end PbftSimulator
end DistributedConsensus
