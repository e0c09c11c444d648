import DistributedConsensus.Flooding.Cluster
import Mathlib.Logic.Relation
import Mathlib.Order.Bounds.Basic

/-!
# Flooding consensus: what processes know of the rounds

An event is a short sequence of effects of one process: it hears a proposal,
stops trusting a process, and makes at most one broadcast, which is partial only
if the process crashes.

The invariant of a process relates what it has heard to what was sent.  When it
learns of a crash only after the proposals of the crashed process, then it has
heard in every round that it has left all the complete broadcasts of that round.
-/

namespace DistributedConsensus
namespace Flooding

open Foundations

variable {P V : Type}

namespace ConsensusNode

variable {allIDs : Finset P} {n : ConsensusNode P V}

section Hear

variable [DecidableEq P] [LinearOrder V]

@[simp] theorem heardFrom_hear
    {r r' : ℕ} {sender : P} {values : Finset V} :
    (n.hear r sender values).heardFrom r' =
      if r' = r then insert sender (n.heardFrom r) else n.heardFrom r' :=
  Dict.getD_set _ _ _ _ _

@[simp] theorem known_hear
    {r r' : ℕ} {sender : P} {values : Finset V} :
    (n.hear r sender values).known r' =
      if r' = r then n.known r ∪ values else n.known r' :=
  Dict.getD_set _ _ _ _ _

theorem heardFrom_subset_hear
    {r r' : ℕ} {sender : P} {values : Finset V} :
    n.heardFrom r' ⊆ (n.hear r sender values).heardFrom r' := by
  rw [heardFrom_hear]
  split
  case isTrue hr =>
    rw [hr]
    exact Finset.subset_insert _ _
  case isFalse => exact Finset.Subset.refl _

theorem known_subset_hear
    {r r' : ℕ} {sender : P} {values : Finset V} :
    n.known r' ⊆ (n.hear r sender values).known r' := by
  rw [known_hear]
  split
  case isTrue hr =>
    rw [hr]
    exact Finset.subset_union_left
  case isFalse => exact Finset.Subset.refl _

end Hear

@[simp] theorem known_propose
    [LinearOrder V] {r : ℕ} {v : V} :
    (n.propose allIDs v).known r = if r = 1 then insert v (n.known 1) else n.known r :=
  Dict.getD_set _ _ _ _ _

@[simp] theorem known_advance
    {r : ℕ} :
    (n.advance allIDs).known r = if r = n.round + 1 then n.known n.round else n.known r :=
  Dict.getD_set _ _ _ _ _

theorem sent_propose [LinearOrder V] (v : V) :
    (n.propose allIDs v).sent =
      n.sent ++ [⟨allIDs, .proposal 1 n.id (insert v (n.known 1))⟩] := by
  simp [propose, broadcast, known, Dict.getD_set]

theorem sent_advance :
    (n.advance allIDs).sent =
      n.sent ++ [⟨allIDs, .proposal (n.round + 1) n.id (n.known n.round)⟩] := by
  simp [advance, broadcast, known, Dict.getD_set]

@[simp] theorem id_propose [LinearOrder V] {v : V} : (n.propose allIDs v).id = n.id := rfl

@[simp] theorem id_advance : (n.advance allIDs).id = n.id := rfl

@[simp] theorem id_decideMin [LinearOrder V] : (n.decideMin allIDs).id = n.id := rfl

@[simp] theorem id_adopt {d : Option V} : (n.adopt allIDs d).id = n.id := rfl

theorem ready_spec
    [DecidableEq P]
    (h : n.ready = true) :
    n.decision = none ∧ n.correct ⊆ n.heardFrom n.round :=
  of_decide_eq_true h

theorem settled_spec
    [DecidableEq P]
    (h : n.settled = true) :
    n.heardFrom n.round = n.heardFrom (n.round - 1) :=
  of_decide_eq_true h

/-- A node waits for its own proposal of a round that it has just entered, so
that one pass of the recursion is all there is. -/
theorem advanceLoop_eq
    [DecidableEq P] [LinearOrder V]
    (hself : n.id ∈ n.correct)
    (hown : n.id ∉ n.heardFrom (n.round + 1))
    (k : ℕ) :
    n.advanceLoop allIDs (k + 1) =
      if n.ready = false then n
      else if n.settled then n.decideMin allIDs
      else n.advance allIDs := by
  have hwait : (n.advance allIDs).ready = false := by
    unfold ready
    rw [decide_eq_false_iff_not]
    rintro ⟨-, hsub⟩
    exact hown (hsub hself)
  rw [advanceLoop]
  split
  case isTrue => rfl
  case isFalse =>
    split
    case isTrue => rfl
    case isFalse =>
      cases k with
      | zero => rfl
      | succ k => rw [advanceLoop, if_pos hwait]

end ConsensusNode

namespace Process

/-- The process has broadcast these values in the round, to some processes. -/
def Proposes (x : Process P V) (r : ℕ) (vals : Finset V) : Prop :=
  ∃ b ∈ x.sent, b.msg = .proposal r x.id vals

/-- The broadcast was sent to `p`. -/
def SendsTo (x : Process P V) (p : P) (r : ℕ) (vals : Finset V) : Prop :=
  ∃ b ∈ x.sent, b.msg = .proposal r x.id vals ∧ p ∈ b.recipients

/-- The broadcast of the round was sent to all processes. -/
def Complete (allIDs : Finset P) (x : Process P V) (r : ℕ) : Prop :=
  ∃ vals, ∃ b ∈ x.sent, b.msg = .proposal r x.id vals ∧ allIDs ⊆ b.recipients

theorem SendsTo.proposes
    {x : Process P V} {p : P} {r : ℕ} {vals : Finset V}
    (h : x.SendsTo p r vals) :
    x.Proposes r vals := by
  obtain ⟨b, hb, hmsg, -⟩ := h
  exact ⟨b, hb, hmsg⟩

theorem Complete.sendsTo
    {allIDs : Finset P} {x : Process P V} {p : P} {r : ℕ}
    (hp : p ∈ allIDs)
    (h : x.Complete allIDs r) :
    ∃ vals, x.SendsTo p r vals := by
  obtain ⟨vals, b, hb, hmsg, hall⟩ := h
  exact ⟨vals, b, hb, hmsg, hall hp⟩

/-- The process with a new state of its node, after a broadcast. -/
def utter (x : Process P V) (n : ConsensusNode P V) (recipients : Finset P)
    (m : ConsensusMessage P V) (crashed : Bool) : Process P V :=
  ⟨{ n with sent := x.sent ++ [⟨recipients, m⟩] }, crashed⟩

section Utter

variable {x : Process P V} {n : ConsensusNode P V} {recipients : Finset P} {crashed : Bool}
  {r r' : ℕ} {vals vals' : Finset V}

theorem proposes_utter_proposal
    (hid : n.id = x.id) :
    (x.utter n recipients (.proposal r x.id vals) crashed).Proposes r' vals' ↔
      x.Proposes r' vals' ∨ r' = r ∧ vals' = vals := by
  unfold Proposes utter
  simp only [List.mem_append, List.mem_singleton]
  rw [hid]
  constructor
  · rintro ⟨b, hb | rfl, hmsg⟩
    · exact Or.inl ⟨b, hb, hmsg⟩
    · simp only [ConsensusMessage.proposal.injEq, true_and] at hmsg
      exact Or.inr ⟨hmsg.1.symm, hmsg.2.symm⟩
  · rintro (⟨b, hb, hmsg⟩ | ⟨rfl, rfl⟩)
    · exact ⟨b, Or.inl hb, hmsg⟩
    · exact ⟨_, Or.inr rfl, rfl⟩

theorem proposes_utter_decided
    {s : P} {v : Option V}
    (hid : n.id = x.id) :
    (x.utter n recipients (.decided s v) crashed).Proposes r' vals' ↔ x.Proposes r' vals' := by
  unfold Proposes utter
  simp only [List.mem_append, List.mem_singleton]
  rw [hid]
  constructor
  · rintro ⟨b, hb | rfl, hmsg⟩
    · exact ⟨b, hb, hmsg⟩
    · cases hmsg
  · rintro ⟨b, hb, hmsg⟩
    exact ⟨b, Or.inl hb, hmsg⟩

end Utter

/-- What a process has broadcast stays, and a decision is final.  A process
broadcasts one proposal in a round, and none when it has crashed. -/
structure Grows (x x' : Process P V) : Prop where
  id : x'.id = x.id
  frozen : x.crashed = true → x' = x
  sent : x.sent ⊆ x'.sent
  once : ∀ r vals vals', x.Proposes r vals → x'.Proposes r vals' → x.Proposes r vals'
  decided : x.decision ≠ none → x'.decision = x.decision ∧ x'.round = x.round
  proposal : x.proposal ≠ none → x'.proposal = x.proposal

theorem Grows.refl (x : Process P V) : Grows x x :=
  ⟨rfl, fun _ => rfl, List.Subset.refl _, fun _ _ _ _ h => h, fun _ => ⟨rfl, rfl⟩, fun _ => rfl⟩

section Grows

variable {x x' : Process P V} {p : P} {r : ℕ} {vals : Finset V}

theorem Grows.proposes
    (h : Grows x x')
    (hx : x.Proposes r vals) :
    x'.Proposes r vals := by
  obtain ⟨b, hb, hmsg⟩ := hx
  exact ⟨b, h.sent hb, by rw [h.id]; exact hmsg⟩

theorem Grows.sendsTo
    (h : Grows x x')
    (hx : x.SendsTo p r vals) :
    x'.SendsTo p r vals := by
  obtain ⟨b, hb, hmsg, hp⟩ := hx
  exact ⟨b, h.sent hb, by rw [h.id]; exact hmsg, hp⟩

theorem Grows.complete
    {allIDs : Finset P}
    (h : Grows x x')
    (hx : x.Complete allIDs r) :
    x'.Complete allIDs r := by
  obtain ⟨vals, b, hb, hmsg, hall⟩ := hx
  exact ⟨vals, b, h.sent hb, by rw [h.id]; exact hmsg, hall⟩

end Grows

end Process

/-- The number is between the two others, in either order. -/
def Between (a b r : ℕ) : Prop := a ≤ r ∧ r ≤ b ∨ b ≤ r ∧ r ≤ a

namespace Cluster

section Invariants

variable [LinearOrder V] (allIDs : Finset P) (w : Cluster P V)

/-- The values that were proposed in the round. -/
def Values (r : ℕ) : Set V := {u | ∃ s ∈ allIDs, ∃ vals, (w s).Proposes r vals ∧ u ∈ vals}

/-- The value is decided by the rule of the round: every process has made its
proposal of the round, or has crashed before it was done with the round before,
and the value is the least that was proposed. -/
structure Ruled (r : ℕ) (v : V) : Prop where
  all : ∀ s ∈ allIDs, (∃ vals, (w s).Proposes r vals) ∨
    (w s).crashed = true ∧ ¬ (w s).Complete allIDs (r - 1)
  least : IsLeast (w.Values allIDs r) v

/-- A process has decided in the round, after its proposal of the round. -/
def Blocked (r : ℕ) : Prop :=
  ∃ s ∈ allIDs, (w s).decision ≠ none ∧ (w s).round = r ∧ (w s).Complete allIDs r

/-- What a process has broadcast itself. -/
structure Sound (p : P) (x : Process P V) : Prop where
  id : x.id = p
  self : p ∈ allIDs → p ∈ x.correct
  correct : x.correct ⊆ allIDs
  round : 0 < x.round
  rounds : ∀ r vals, x.Proposes r vals → p ∈ allIDs ∧ 0 < r ∧ r ≤ x.round ∧ x.proposal ≠ none
  unique : ∀ r vals vals', x.Proposes r vals → x.Proposes r vals' → vals = vals'
  proposed : x.proposal ≠ none → ∀ r, 0 < r → r ≤ x.round → ∃ vals, x.Proposes r vals
  complete : ∀ r vals, x.Proposes r vals → x.crashed = false ∨ r < x.round → x.Complete allIDs r

/-- What a process has heard from the others. -/
structure Informed (p : P) (x : Process P V) : Prop where
  zero : x.heardFrom 0 = allIDs
  heard : ∀ r, 0 < r → ∀ s ∈ x.heardFrom r, s ∈ allIDs ∧ ∃ vals, (w s).SendsTo p r vals
  noticed : ∀ s ∈ allIDs, s ∉ x.correct → (w s).crashed = true ∧
    ∀ r vals, (w s).SendsTo p r vals → s ∈ x.heardFrom r
  waited : ∀ r < x.round, x.correct ⊆ x.heardFrom r
  values : ∀ r, 0 < r → ∀ s ∈ x.heardFrom r, ∀ vals, (w s).Proposes r vals → vals ⊆ x.known r
  origin : ∀ r, 0 < r → ∀ u ∈ x.known r, ∃ s ∈ allIDs, (s ∈ x.heardFrom r ∨ s = p) ∧
    ∃ vals, (w s).Proposes r vals ∧ u ∈ vals

/-- What a process has decided, and why. -/
structure Justified (x : Process P V) : Prop where
  valid : ∀ r vals, x.Proposes r vals → ∀ u ∈ vals, ∃ s ∈ allIDs, (w s).proposal = some u
  announced : ∀ b ∈ x.sent, ∀ v, b.msg = .decided x.id (some v) → x.decision = some v
  decision : ∀ v, x.decision = some v →
    ∃ r₀, w.Ruled allIDs r₀ v ∧ ∀ r, Between r₀ x.round r → w.Blocked allIDs r

/-- The invariant of a process. -/
structure Inv (p : P) (x : Process P V) : Prop where
  sound : Sound allIDs p x
  informed : w.Informed allIDs p x
  justified : w.Justified allIDs x

end Invariants

section Progress

variable {allIDs : Finset P} {w w' : Cluster P V} {p : P} {x : Process P V}

theorem values_mono
    {r : ℕ}
    (hext : Nodes.Extends Process.Grows w w')
    (hall : ∀ s ∈ allIDs, (∃ vals, (w s).Proposes r vals) ∨ (w s).crashed = true) :
    w'.Values allIDs r = w.Values allIDs r := by
  ext u
  constructor
  · rintro ⟨s, hs, vals, hproposes, hu⟩
    refine ⟨s, hs, vals, ?_, hu⟩
    rcases hall s hs with ⟨vals', hold⟩ | hcrashed
    · exact (hext s).once r vals' vals hold hproposes
    · rwa [(hext s).frozen hcrashed] at hproposes
  · rintro ⟨s, hs, vals, hproposes, hu⟩
    exact ⟨s, hs, vals, (hext s).proposes hproposes, hu⟩

/-- A rule stays: no further process can propose in the round. -/
theorem Ruled.mono
    [LinearOrder V] {r : ℕ} {v : V}
    (hext : Nodes.Extends Process.Grows w w')
    (h : w.Ruled allIDs r v) :
    w'.Ruled allIDs r v where
  all := by
    intro s hs
    rcases h.all s hs with ⟨vals, hproposes⟩ | ⟨hcrashed, hpartial⟩
    · exact Or.inl ⟨vals, (hext s).proposes hproposes⟩
    · rw [(hext s).frozen hcrashed]
      exact Or.inr ⟨hcrashed, hpartial⟩
  least := by
    rw [values_mono hext fun s hs => (h.all s hs).imp_right And.left]
    exact h.least

theorem Blocked.mono
    {r : ℕ}
    (hext : Nodes.Extends Process.Grows w w')
    (h : w.Blocked allIDs r) :
    w'.Blocked allIDs r := by
  obtain ⟨s, hs, hdecision, hround, hcomplete⟩ := h
  obtain ⟨hsame, hstay⟩ := (hext s).decided hdecision
  exact ⟨s, hs, by rw [hsame]; exact hdecision, hstay.trans hround,
    (hext s).complete hcomplete⟩

theorem valid_mono
    {u : V}
    (hext : Nodes.Extends Process.Grows w w')
    (h : ∃ s ∈ allIDs, (w s).proposal = some u) :
    ∃ s ∈ allIDs, (w' s).proposal = some u := by
  obtain ⟨s, hs, hsome⟩ := h
  refine ⟨s, hs, ?_⟩
  rw [(hext s).proposal (by rw [hsome]; exact Option.some_ne_none u)]
  exact hsome

/-- The invariant of a process survives the progress of all. -/
theorem Inv.mono
    [LinearOrder V]
    (hext : Nodes.Extends Process.Grows w w')
    (h : w.Inv allIDs p x) :
    w'.Inv allIDs p x where
  sound := h.sound
  informed :=
    { h.informed with
      heard := fun r hr s hs => by
        obtain ⟨hall, vals, hsends⟩ := h.informed.heard r hr s hs
        exact ⟨hall, vals, (hext s).sendsTo hsends⟩
      noticed := fun s hs hnot => by
        obtain ⟨hcrashed, hheard⟩ := h.informed.noticed s hs hnot
        rw [(hext s).frozen hcrashed]
        exact ⟨hcrashed, hheard⟩
      values := fun r hr s hs vals hproposes => by
        obtain ⟨-, vals', hsends⟩ := h.informed.heard r hr s hs
        exact h.informed.values r hr s hs vals
          ((hext s).once r vals' vals hsends.proposes hproposes)
      origin := fun r hr u hu => by
        obtain ⟨s, hs, hfrom, vals, hproposes, hmem⟩ := h.informed.origin r hr u hu
        exact ⟨s, hs, hfrom, vals, (hext s).proposes hproposes, hmem⟩ }
  justified :=
    { h.justified with
      valid := fun r vals hproposes u hu =>
        valid_mono hext (h.justified.valid r vals hproposes u hu)
      decision := fun v hv => by
        obtain ⟨r₀, hruled, hblocked⟩ := h.justified.decision v hv
        exact ⟨r₀, hruled.mono hext, fun r hr => (hblocked r hr).mono hext⟩ }

end Progress

section Broadcasts

variable {allIDs : Finset P} {p : P} {x : Process P V}

/-- A process that is sound makes its proposal of the next round. -/
theorem Sound.utter_proposal
    {n : ConsensusNode P V} {recipients : Finset P} {crashed : Bool} {r₀ : ℕ} {vals₀ : Finset V}
    (h : Sound allIDs p x)
    (hp : p ∈ allIDs)
    (halive : x.crashed = false)
    (hid : n.id = x.id)
    (hcorrect : n.correct = x.correct)
    (hround : n.round = r₀)
    (hpos : 0 < r₀)
    (hfresh : ∀ r vals, x.Proposes r vals → r < r₀)
    (hproposed : ∀ r, 0 < r → r < r₀ → ∃ vals, x.Proposes r vals)
    (hproposal : n.proposal ≠ none)
    (hall : crashed = false → recipients = allIDs) :
    Sound allIDs p (x.utter n recipients (.proposal r₀ x.id vals₀) crashed) := by
  have hsplit := fun r vals => @Process.proposes_utter_proposal P V x n recipients crashed r₀ r
    vals₀ vals hid
  refine ⟨hid.trans h.id, fun hp => ?_, ?_, ?_, ?_, ?_, ?_, ?_⟩
  case refine_1 =>
    show p ∈ n.correct
    rw [hcorrect]
    exact h.self hp
  case refine_2 =>
    show n.correct ⊆ allIDs
    rw [hcorrect]
    exact h.correct
  case refine_3 =>
    show 0 < n.round
    omega
  case refine_4 =>
    intro r vals hproposes
    show p ∈ allIDs ∧ 0 < r ∧ r ≤ n.round ∧ n.proposal ≠ none
    rcases (hsplit r vals).mp hproposes with hproposes | ⟨rfl, -⟩
    · obtain ⟨-, hr, -, -⟩ := h.rounds r vals hproposes
      have hlt := hfresh r vals hproposes
      exact ⟨hp, hr, by omega, hproposal⟩
    · exact ⟨hp, hpos, by omega, hproposal⟩
  case refine_5 =>
    intro r vals vals' hfirst hsecond
    rcases (hsplit r vals).mp hfirst with hold | ⟨hr, hvals⟩
    · have hlt := hfresh r vals hold
      rcases (hsplit r vals').mp hsecond with hold' | ⟨hr, -⟩
      · exact h.unique r vals vals' hold hold'
      · omega
    · rcases (hsplit r vals').mp hsecond with hold' | ⟨-, hvals'⟩
      · have hlt := hfresh r vals' hold'
        omega
      · rw [hvals, hvals']
  case refine_6 =>
    intro _ r hr hle
    replace hle : r ≤ n.round := hle
    by_cases hlt : r < r₀
    · obtain ⟨vals, hproposes⟩ := hproposed r hr hlt
      exact ⟨vals, (hsplit r vals).mpr (Or.inl hproposes)⟩
    · exact ⟨vals₀, (hsplit r vals₀).mpr (Or.inr ⟨by omega, rfl⟩)⟩
  case refine_7 =>
    intro r vals hproposes hdone
    rcases (hsplit r vals).mp hproposes with hproposes | ⟨rfl, rfl⟩
    · obtain ⟨vals', b, hb, hmsg, hsub⟩ := h.complete r vals hproposes (Or.inl halive)
      refine ⟨vals', b, List.mem_append_left _ hb, ?_, hsub⟩
      show b.msg = .proposal r n.id vals'
      rw [hid]
      exact hmsg
    · have hup : crashed = false := by
        refine hdone.resolve_right fun hlt => ?_
        replace hlt : r < n.round := hlt
        omega
      refine ⟨vals, _, List.mem_append_right _ (List.mem_singleton.mpr rfl), ?_, ?_⟩
      · show ConsensusMessage.proposal r x.id vals = .proposal r n.id vals
        rw [hid]
      · show allIDs ⊆ recipients
        rw [hall hup]

theorem Sound.utter_decided
    {n : ConsensusNode P V} {recipients : Finset P} {crashed : Bool} {d : Option V}
    (h : Sound allIDs p x)
    (halive : x.crashed = false)
    (hid : n.id = x.id)
    (hcorrect : n.correct = x.correct)
    (hround : n.round = x.round)
    (hproposal : n.proposal = x.proposal) :
    Sound allIDs p (x.utter n recipients (.decided x.id d) crashed) := by
  have hsame := fun r vals => @Process.proposes_utter_decided P V x n recipients crashed r vals
    x.id d hid
  refine ⟨hid.trans h.id, fun hp => ?_, ?_, ?_, ?_, ?_, ?_, ?_⟩
  case refine_1 =>
    show p ∈ n.correct
    rw [hcorrect]
    exact h.self hp
  case refine_2 =>
    show n.correct ⊆ allIDs
    rw [hcorrect]
    exact h.correct
  case refine_3 =>
    show 0 < n.round
    rw [hround]
    exact h.round
  case refine_4 =>
    intro r vals hproposes
    show p ∈ allIDs ∧ 0 < r ∧ r ≤ n.round ∧ n.proposal ≠ none
    rw [hround, hproposal]
    exact h.rounds r vals ((hsame r vals).mp hproposes)
  case refine_5 =>
    intro r vals vals' hfirst hsecond
    exact h.unique r vals vals' ((hsame r vals).mp hfirst) ((hsame r vals').mp hsecond)
  case refine_6 =>
    intro hsome r hr hle
    replace hsome : n.proposal ≠ none := hsome
    replace hle : r ≤ n.round := hle
    rw [hproposal] at hsome
    rw [hround] at hle
    obtain ⟨vals, hproposes⟩ := h.proposed hsome r hr hle
    exact ⟨vals, (hsame r vals).mpr hproposes⟩
  case refine_7 =>
    intro r vals hproposes _
    obtain ⟨vals', b, hb, hmsg, hsub⟩ :=
      h.complete r vals ((hsame r vals).mp hproposes) (Or.inl halive)
    refine ⟨vals', b, List.mem_append_left _ hb, ?_, hsub⟩
    show b.msg = .proposal r n.id vals'
    rw [hid]
    exact hmsg

end Broadcasts

end Cluster

end Flooding
end DistributedConsensus
