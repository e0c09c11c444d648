import DistributedConsensus.Flooding.Effects
import Mathlib.Data.Fintype.Basic

/-!
# Flooding consensus: agreement

Decided values are ruled by rounds.  If two rounds rule, then some process has
decided in the round before the later one, and has made no proposal of the later
round although it was done with that before; so only one round rules.
-/

namespace DistributedConsensus
namespace Flooding

open Foundations

variable {P V : Type} [DecidableEq P]

namespace Process

variable {allIDs : Finset P} {x x' : Process P V} {n : ConsensusNode P V}

/-- A process with a new state of its node, or what is left of it after a crash. -/
inductive Ends (x : Process P V) (n : ConsensusNode P V) : Process P V → Prop
  | up : Ends x n { x with toConsensusNode := n }
  | down {k : ℕ} {reach : Finset P} :
      Ends x n
        { toConsensusNode := { n with
            sent := x.sent ++ cut reach k (n.sent.drop x.sent.length) }
          crashed := true }

theorem handle_ends
    [LinearOrder V] {e : Event P V} {i : Input P V}
    (h : e.input? = some i) :
    x.Ends (x.toConsensusNode.handle allIDs i) (x.handle allIDs e) := by
  cases e with
  | input j =>
      obtain rfl := Option.some.inj h
      exact Ends.up
  | crash j k reach =>
      obtain rfl : j = some i := h
      exact Ends.down

theorem Ends.quiet
    (h : x.Ends n x')
    (hquiet : n.sent = x.sent) :
    x' = { x with toConsensusNode := n } ∨ x' = { toConsensusNode := n, crashed := true } := by
  cases h with
  | up => exact Or.inl rfl
  | down =>
      refine Or.inr ?_
      rw [hquiet, List.drop_length, cut, List.append_nil, ← hquiet]

theorem Ends.emit
    {m : ConsensusMessage P V}
    (h : x.Ends n x')
    (halive : x.crashed = false)
    (hemit : n.sent = x.sent ++ [⟨allIDs, m⟩]) :
    ∃ recipients crashed, (crashed = false → recipients = allIDs) ∧
      x' = x.utter n recipients m crashed := by
  cases h with
  | up =>
      refine ⟨allIDs, false, fun _ => rfl, ?_⟩
      rw [utter, ← hemit, halive]
  | down =>
      rename_i k reach
      rw [hemit, List.drop_left]
      cases k with
      | zero => exact ⟨allIDs ∩ reach, true, nofun, rfl⟩
      | succ k =>
          refine ⟨allIDs, true, nofun, ?_⟩
          rw [cut, cut]
          rfl

end Process

namespace Cluster

variable [LinearOrder V] {allIDs : Finset P} {w w' : Cluster P V} {p : P} {x' : Process P V}

section Steps

theorem inv_update
    (hinv : ∀ q, w.Inv allIDs q (w q))
    (hp : p ∈ allIDs)
    (halive : (w p).crashed = false)
    (h : Acts allIDs w p x') :
    ∀ q, Inv allIDs (Function.update w p x') q (Function.update w p x' q) := by
  have hext : Nodes.Extends Process.Grows w (Function.update w p x') :=
    Nodes.extends_update Process.Grows.refl (h.grows (hinv p).sound halive)
  intro q
  by_cases hq : q = p
  · subst hq
    refine Inv.acts hinv hp halive hext ?_
    rw [Function.update_self]
    exact h
  · have hold := (hinv q).mono hext
    rw [Function.update_of_ne hq]
    exact hold

/-- The termination check is at most one effect, whether the process survives it
or not. -/
theorem inv_maybeAdvanceOrDecide
    (hinv : ∀ q, w.Inv allIDs q (w q))
    (hp : p ∈ allIDs)
    (halive : (w p).crashed = false)
    (hcovers : (w p).ready = true → (w p).settled = false →
      (w p).known ((w p).round + 1) ⊆ (w p).known (w p).round)
    (h : (w p).Ends ((w p).maybeAdvanceOrDecide allIDs) x') :
    ∀ q, Inv allIDs (Function.update w p x') q (Function.update w p x' q) := by
  have hself : (w p).id ∈ (w p).correct := by
    rw [(hinv p).sound.id]
    exact (hinv p).sound.self hp
  have hown : (w p).id ∉ (w p).heardFrom ((w p).round + 1) := by
    rw [(hinv p).sound.id]
    exact own_unheard (hinv p) (Nat.lt_succ_self _)
  rw [ConsensusNode.maybeAdvanceOrDecide, ConsensusNode.advanceLoop_eq hself hown] at h
  split at h
  case isTrue =>
    rcases h.quiet rfl with rfl | rfl
    · rw [Function.update_eq_self]
      exact hinv
    · exact inv_update hinv hp halive Acts.crash
  case isFalse hready =>
    replace hready : (w p).ready = true := by simpa using hready
    split at h
    case isTrue hsettled =>
      obtain ⟨recipients, crashed, -, rfl⟩ := h.emit halive rfl
      exact inv_update hinv hp halive (Acts.decide hready hsettled)
    case isFalse hsettled =>
      obtain ⟨recipients, crashed, hall, rfl⟩ := h.emit halive ConsensusNode.sent_advance
      exact inv_update hinv hp halive
        (Acts.advance hready (hcovers hready (by simpa using hsettled)) hall)

/-- The process after an effect that is silent, at which the input ends. -/
theorem inv_stop
    {n : ConsensusNode P V}
    (hinv : ∀ q, w.Inv allIDs q (w q))
    (hp : p ∈ allIDs)
    (halive : (w p).crashed = false)
    (hact : Acts allIDs w p { w p with toConsensusNode := n })
    (hsent : n.sent = (w p).sent)
    (h : (w p).Ends n x') :
    ∀ q, Inv allIDs (Function.update w p x') q (Function.update w p x' q) := by
  have hmid := inv_update hinv hp halive hact
  rcases h.quiet hsent with rfl | rfl
  · exact hmid
  · have hkeep := inv_update hmid hp (by rw [Function.update_self]; exact halive) Acts.crash
    rw [Function.update_self, Function.update_idem] at hkeep
    exact hkeep

/-- The process after an effect that is silent and the termination check. -/
theorem inv_check
    {n : ConsensusNode P V}
    (hinv : ∀ q, w.Inv allIDs q (w q))
    (hp : p ∈ allIDs)
    (halive : (w p).crashed = false)
    (hact : Acts allIDs w p { w p with toConsensusNode := n })
    (hsent : n.sent = (w p).sent)
    (hcovers : n.ready = true → n.settled = false → n.known (n.round + 1) ⊆ n.known n.round)
    (h : (w p).Ends (n.maybeAdvanceOrDecide allIDs) x') :
    ∀ q, Inv allIDs (Function.update w p x') q (Function.update w p x' q) := by
  have hmid := inv_update hinv hp halive hact
  have hidem : Function.update (Function.update w p { w p with toConsensusNode := n }) p x' =
      Function.update w p x' := Function.update_idem ..
  rw [← hidem]
  refine inv_maybeAdvanceOrDecide hmid hp ?_ ?_ ?_
  all_goals rw [Function.update_self]
  · exact halive
  · exact hcovers
  · cases h with
    | up => exact Process.Ends.up
    | down =>
        rw [← hsent]
        exact Process.Ends.down

/-- Every event keeps the invariants. -/
theorem inv_handle
    {e : Event P V}
    (hinv : ∀ q, w.Inv allIDs q (w q))
    (hresp : w.Respects (p, e))
    (henabled : w.Enabled allIDs p e) :
    ∀ q, Inv allIDs (Function.update w p ((w p).handle allIDs e)) q
      (Function.update w p ((w p).handle allIDs e) q) := by
  obtain ⟨hp, halive, harrives⟩ := henabled
  obtain ⟨hcovers, hnotice⟩ := hresp
  cases hinput : e.input? with
  | none =>
      cases e with
      | input i => cases hinput
      | crash j k reach =>
          obtain rfl : j = none := hinput
          exact inv_update hinv hp halive Acts.crash
  | some i =>
      have hends : (w p).Ends ((w p).toConsensusNode.handle allIDs i) ((w p).handle allIDs e) :=
        Process.handle_ends hinput
      replace harrives := harrives i hinput
      replace hcovers := hcovers i hinput
      generalize (w p).handle allIDs e = x' at hends ⊢
      cases i with
      | propose v =>
          obtain ⟨recipients, crashed, hall, rfl⟩ :=
            hends.emit halive (ConsensusNode.sent_propose v)
          exact inv_update hinv hp halive (Acts.propose harrives hall)
      | crashDetected q =>
          by_cases hq : q ∈ (w p).correct
          · rw [ConsensusNode.handle, if_pos hq] at hends
            rw [ConsensusNode.checked, if_pos hq] at hcovers
            have hheard : ∀ r vals, (w q).SendsTo p r vals → q ∈ (w p).heardFrom r := by
              rintro r vals ⟨b, hb, hmsg, hto⟩
              rw [(hinv q).sound.id] at hmsg
              exact hnotice q hinput b hb hto r vals hmsg
            exact inv_check hinv hp halive (Acts.suspect harrives hheard) rfl
              (hcovers _ rfl) hends
          · rw [ConsensusNode.handle, if_neg hq] at hends
            rcases hends.quiet rfl with rfl | rfl
            · rw [Function.update_eq_self]
              exact hinv
            · exact inv_update hinv hp halive Acts.crash
      | message m =>
          obtain ⟨b, hb, hmsg, hto⟩ := harrives
          cases m with
          | proposal r s vals =>
              have hsends : (w s).SendsTo p r vals := by
                refine ⟨b, hb, ?_, hto⟩
                rw [(hinv s).sound.id]
                exact hmsg
              rw [ConsensusNode.handle] at hends
              by_cases hr : r = (w p).round
              · rw [ConsensusNode.checked, if_pos hr] at hcovers
                rw [if_pos hr] at hends
                exact inv_check hinv hp halive (Acts.hear hsends) rfl (hcovers _ rfl) hends
              · rw [if_neg hr] at hends
                exact inv_stop hinv hp halive (Acts.hear hsends) rfl hends
          | decided s d =>
              rw [ConsensusNode.handle] at hends
              split at hends
              case isTrue hadopts =>
                obtain ⟨recipients, crashed, -, rfl⟩ := hends.emit halive rfl
                exact inv_update hinv hp halive (Acts.adopt hadopts.1 hadopts.2 ⟨b, hb, hmsg⟩)
              case isFalse =>
                rcases hends.quiet rfl with rfl | rfl
                · rw [Function.update_eq_self]
                  exact hinv
                · exact inv_update hinv hp halive Acts.crash

end Steps

section Runs

theorem inv_new :
    ∀ q, Inv allIDs (nodes allIDs V).start q ((nodes allIDs V).start q) := by
  intro q
  have hsilent : ∀ r vals, ¬ ((nodes allIDs V).start q).Proposes r vals := by
    rintro r vals ⟨b, hb, -⟩
    exact absurd hb List.not_mem_nil
  have hheard : ∀ r > 0, ((nodes allIDs V).start q).heardFrom r = ∅ := by
    intro r hr
    show (Dict.empty.set 0 allIDs).getD r ∅ = ∅
    rw [Dict.getD_set, if_neg (by omega)]
    rfl
  refine ⟨⟨rfl, id, Finset.Subset.refl _, Nat.one_pos, ?_, ?_, ?_, ?_⟩, ⟨?_, ?_, ?_, ?_, ?_, ?_⟩,
    ⟨?_, ?_, nofun⟩⟩
  case refine_1 => exact fun r vals h => absurd h (hsilent r vals)
  case refine_2 => exact fun r vals _ h => absurd h (hsilent r vals)
  case refine_3 => exact fun h => absurd rfl h
  case refine_4 => exact fun r vals h => absurd h (hsilent r vals)
  case refine_5 =>
    show (Dict.empty.set 0 allIDs).getD 0 ∅ = allIDs
    rw [Dict.getD_set, if_pos rfl]
  case refine_6 =>
    intro r hr s hs
    rw [hheard r hr] at hs
    exact absurd hs (Finset.notMem_empty s)
  case refine_7 => exact fun s hs hnot => absurd hs hnot
  case refine_8 =>
    intro r hr
    obtain rfl : r = 0 := Nat.lt_one_iff.mp hr
    show allIDs ⊆ (Dict.empty.set 0 allIDs).getD 0 ∅
    rw [Dict.getD_set, if_pos rfl]
  case refine_9 =>
    intro r hr s hs
    rw [hheard r hr] at hs
    exact absurd hs (Finset.notMem_empty s)
  case refine_10 => exact fun r hr u hu => absurd hu (Finset.notMem_empty u)
  case refine_11 => exact fun r vals h => absurd h (hsilent r vals)
  case refine_12 => exact fun b hb => absurd hb List.not_mem_nil

/-- The invariants hold in all runs of steps that meet the condition. -/
theorem inv_reachable
    (h : (cluster allIDs V).Reachable Cluster.Respects w) :
    ∀ p, w.Inv allIDs p (w p) := by
  refine System.Reachable.invariant (I := fun w => ∀ p, w.Inv allIDs p (w p)) inv_new ?_ h
  intro w l w' _ hinv hresp hstep
  obtain ⟨henabled, rfl⟩ := Nodes.step_spec hstep
  exact inv_handle hinv hresp henabled

/-- In every run in which processes that enter a round have received early only
values that they know, and notice crashes only after the proposals that were sent
to them, processes that are up agree, and all decided values were proposed. -/
theorem agreement_of_respects
    (h : (cluster allIDs V).Reachable Cluster.Respects w) :
    (∀ p ∈ allIDs, ∀ q ∈ allIDs, (w p).crashed = false → (w q).crashed = false →
      ∀ v v', (w p).decision = some v → (w q).decision = some v' → v = v') ∧
    ∀ p v, (w p).decision = some v → ∃ s ∈ allIDs, (w s).proposal = some v := by
  have hinv := inv_reachable h
  constructor
  · intro p hp q hq halive halive' v v' hv hv'
    obtain ⟨r₁, hruled₁, hblocked₁⟩ := (hinv p).justified.decision v hv
    obtain ⟨r₂, hruled₂, hblocked₂⟩ := (hinv q).justified.decision v' hv'
    have hpq := round_le_of_trusts hinv (trusts_of_alive hinv (p := q) hp halive)
    have hqp := round_le_of_trusts hinv (trusts_of_alive hinv (p := p) hq halive')
    rcases le_total r₁ r₂ with hle | hle
    · exact ruled_unique hinv hle hpq hruled₁ hruled₂ hblocked₁ hblocked₂
    · exact (ruled_unique hinv hle hqp hruled₂ hruled₁ hblocked₂ hblocked₁).symm
  · intro p v hv
    obtain ⟨r₀, hruled, -⟩ := (hinv p).justified.decision v hv
    obtain ⟨s, hs, vals, hproposes, hmem⟩ := hruled.least.1
    exact (hinv s).justified.valid r₀ vals hproposes v hmem

end Runs

section Examples

def proposalBy {k : ℕ} (p : Fin k) (r : ℕ) (values : Finset ℕ) : Event (Fin k) ℕ :=
  .input (.message (.proposal r p values))

def crashOf {k : ℕ} (p : Fin k) : Event (Fin k) ℕ := .input (.crashDetected p)

/-- The proposal of a crashing process reaches process 1 only, which passes the
value on in the second round. -/
theorem agreement_partial_broadcast :
    ∃ w, (cluster (Finset.univ : Finset (Fin 4)) ℕ).Reachable Cluster.Respects w ∧
      (w 1).decision = some 0 ∧ (∀ v, (w 2).decision = some v → v = 0) ∧
        ∃ s ∈ Finset.univ, (w s).proposal = some 0 := by
  have hrun : ∃ w, (cluster (Finset.univ : Finset (Fin 4)) ℕ).Reachable Cluster.Respects w ∧
      (w 1).crashed = false ∧ (w 2).crashed = false ∧ (w 1).decision = some 0 := by
    refine System.exists_reaches_of_exec
      [(1, .input (.propose 1)), (2, .input (.propose 2)),
        (0, .crash (some (.propose 0)) 0 {1}), (3, .crash none 0 ∅),
        (1, proposalBy 0 1 {0}), (1, proposalBy 1 1 {1}), (1, proposalBy 2 1 {2}),
        (2, proposalBy 1 1 {1}), (2, proposalBy 2 1 {2}), (2, crashOf 0), (2, crashOf 3),
        (1, crashOf 0), (1, crashOf 3),
        (2, proposalBy 1 2 {0, 1, 2}), (2, proposalBy 2 2 {1, 2}),
        (1, .input (.message (.decided 2 (some 0))))] ?_
    decide +kernel
  obtain ⟨w, hreach, hup, hup', hdecision⟩ := hrun
  obtain ⟨hagree, hvalid⟩ := agreement_of_respects hreach
  refine ⟨w, hreach, hdecision, fun v hv => ?_, hvalid 1 0 hdecision⟩
  exact (hagree 1 (Finset.mem_univ 1) 2 (Finset.mem_univ 2) hup hup' 0 v hdecision hv).symm

/-- **A lost value.**  Process 4 receives the proposal of process 2 for the second
round, which carries the value 0, while it is in the first round.  When it enters
the second round, its own values replace those. -/
theorem exists_disagreement :
    ∃ w, (cluster (Finset.univ : Finset (Fin 5)) ℕ).Reachable System.anyStep w ∧
      (w 3).crashed = false ∧ (w 4).crashed = false ∧
        (w 3).decision = some 0 ∧ (w 4).decision = some 2 := by
  refine System.exists_reaches_of_exec
    [(2, .input (.propose 2)), (3, .input (.propose 3)), (4, .input (.propose 4)),
      (0, .crash (some (.propose 0)) 0 {2}), (1, .crash none 0 ∅),
      (2, proposalBy 0 1 {0}), (2, proposalBy 2 1 {2}), (2, proposalBy 3 1 {3}),
      (2, proposalBy 4 1 {4}), (2, crashOf 0), (2, crashOf 1),
      (4, proposalBy 2 2 {0, 2, 3, 4}),
      (4, proposalBy 2 1 {2}), (4, proposalBy 3 1 {3}), (4, proposalBy 4 1 {4}),
      (4, crashOf 0), (4, crashOf 1),
      (3, proposalBy 2 1 {2}), (3, proposalBy 3 1 {3}), (3, proposalBy 4 1 {4}),
      (3, crashOf 0), (3, crashOf 1),
      (3, proposalBy 2 2 {0, 2, 3, 4}), (3, proposalBy 3 2 {2, 3, 4}),
      (3, proposalBy 4 2 {2, 3, 4}),
      (4, proposalBy 3 2 {2, 3, 4}), (4, proposalBy 4 2 {2, 3, 4})] ?_
  decide +kernel

end Examples

end Cluster

end Flooding
end DistributedConsensus
