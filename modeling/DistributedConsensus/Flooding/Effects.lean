import DistributedConsensus.Flooding.Rounds

/-!
# Flooding consensus: the effects of an event

An event is a sequence of effects of one process, and every effect keeps the
invariants of all processes.  The condition on steps enters in two places: a
crash is noticed after the proposals of the crashed process, and the values of a
new round cover those that were received early.
-/

namespace DistributedConsensus
namespace Flooding

open Foundations

variable {P V : Type} [LinearOrder V]

namespace Cluster

/-- The effects of a process.  Its last broadcast may be partial. -/
inductive Acts [DecidableEq P] (allIDs : Finset P) (w : Cluster P V) (p : P) : Process P V → Prop
  | crash : Acts allIDs w p { w p with crashed := true }
  | hear {r : ℕ} {s : P} {vals : Finset V}
      (hsends : (w s).SendsTo p r vals) :
      Acts allIDs w p { w p with toConsensusNode := (w p).hear r s vals }
  | suspect {q : P}
      (hcrashed : (w q).crashed = true)
      (hheard : ∀ r vals, (w q).SendsTo p r vals → q ∈ (w p).heardFrom r) :
      Acts allIDs w p { w p with toConsensusNode := (w p).suspect q }
  | propose {v : V} {recipients : Finset P} {crashed : Bool}
      (hnone : (w p).proposal = none)
      (hall : crashed = false → recipients = allIDs) :
      Acts allIDs w p ((w p).utter ((w p).propose allIDs v) recipients
        (.proposal 1 (w p).id (insert v ((w p).known 1))) crashed)
  | advance {recipients : Finset P} {crashed : Bool}
      (hready : (w p).ready = true)
      (hcovers : (w p).known ((w p).round + 1) ⊆ (w p).known (w p).round)
      (hall : crashed = false → recipients = allIDs) :
      Acts allIDs w p ((w p).utter ((w p).advance allIDs) recipients
        (.proposal ((w p).round + 1) (w p).id ((w p).known (w p).round)) crashed)
  | decide {recipients : Finset P} {crashed : Bool}
      (hready : (w p).ready = true)
      (hsettled : (w p).settled = true) :
      Acts allIDs w p ((w p).utter ((w p).decideMin allIDs) recipients
        (.decided (w p).id (minValue ((w p).known (w p).round))) crashed)
  | adopt {s : P} {v : Option V} {recipients : Finset P} {crashed : Bool}
      (hs : s ∈ (w p).correct)
      (hundecided : (w p).decision = none)
      (hannounced : ∃ b ∈ (w s).sent, b.msg = .decided s v) :
      Acts allIDs w p ((w p).utter ((w p).adopt allIDs v) recipients
        (.decided (w p).id v) crashed)

variable {allIDs : Finset P} {w w' : Cluster P V} {p : P} {x x' : Process P V}

section Progress

/-- An effect is progress. -/
theorem Acts.grows
    [DecidableEq P]
    (hsound : Sound allIDs p (w p))
    (halive : (w p).crashed = false)
    (h : Acts allIDs w p x') :
    (w p).Grows x' := by
  have hfrozen : ∀ y : Process P V, (w p).crashed = true → y = w p := by
    intro y hcrashed
    rw [halive] at hcrashed
    cases hcrashed
  have hsent : ∀ b : Broadcast P V, (w p).sent ⊆ (w p).sent ++ [b] :=
    fun b => List.subset_append_left _ _
  cases h with
  | crash => exact { Process.Grows.refl (w p) with frozen := hfrozen _ }
  | hear hsends => exact { Process.Grows.refl (w p) with frozen := hfrozen _ }
  | suspect hcrashed hheard => exact { Process.Grows.refl (w p) with frozen := hfrozen _ }
  | propose hnone hall =>
      refine ⟨rfl, hfrozen _, hsent _, ?_, fun _ => ⟨rfl, rfl⟩, fun hsome => ?_⟩
      · intro r vals vals' hold _
        exact absurd hnone (hsound.rounds r vals hold).2.2.2
      · exact absurd hnone hsome
  | advance hready hcovers hall =>
      refine ⟨rfl, hfrozen _, hsent _, ?_, fun hsome => ?_, fun _ => rfl⟩
      · intro r vals vals' hold hnew
        rcases (Process.proposes_utter_proposal ConsensusNode.id_advance).mp hnew with hnew | ⟨hr, -⟩
        · exact hnew
        · have := (hsound.rounds r vals hold).2.2.1
          omega
      · exact absurd (ConsensusNode.ready_spec hready).1 hsome
  | decide hready hsettled =>
      refine ⟨rfl, hfrozen _, hsent _, ?_, fun hsome => ?_, fun _ => rfl⟩
      · intro r vals vals' _ hnew
        exact (Process.proposes_utter_decided ConsensusNode.id_decideMin).mp hnew
      · exact absurd (ConsensusNode.ready_spec hready).1 hsome
  | adopt hs hundecided hannounced =>
      refine ⟨rfl, hfrozen _, hsent _, ?_, fun hsome => ?_, fun _ => rfl⟩
      · intro r vals vals' _ hnew
        exact (Process.proposes_utter_decided ConsensusNode.id_adopt).mp hnew
      · exact absurd hundecided hsome

end Progress

section Proposals

/-- A process that has not proposed waits for itself in the first round. -/
theorem round_eq_one
    (h : w.Inv allIDs p (w p))
    (hp : p ∈ allIDs)
    (hnone : (w p).proposal = none) :
    (w p).round = 1 := by
  have hpos := h.sound.round
  by_contra hne
  have hself := h.informed.waited 1 (by omega) (h.sound.self hp)
  obtain ⟨-, vals, hsends⟩ := h.informed.heard 1 Nat.one_pos p hself
  exact (h.sound.rounds 1 vals hsends.proposes).2.2.2 hnone

/-- The node has not heard its own proposal of a later round. -/
theorem own_unheard
    {r : ℕ}
    (h : w.Inv allIDs p (w p))
    (hr : (w p).round < r) :
    p ∉ (w p).heardFrom r := by
  intro hmem
  obtain ⟨-, vals, hsends⟩ := h.informed.heard r (by omega) p hmem
  have hle := (h.sound.rounds r vals hsends.proposes).2.2.1
  omega

end Proposals

section Decisions

variable (hinv : ∀ q, w.Inv allIDs q (w q))

include hinv

/-- A process is at most one round ahead of those that it trusts. -/
theorem round_le_of_trusts
    {q : P}
    (htrusts : q ∈ (w p).correct) :
    (w p).round ≤ (w q).round + 1 := by
  by_cases hfirst : (w p).round ≤ 1
  · omega
  · have hheard := (hinv p).informed.waited ((w p).round - 1) (by omega) htrusts
    obtain ⟨-, vals, hsends⟩ := (hinv p).informed.heard _ (by omega) q hheard
    have hle := ((hinv q).sound.rounds _ vals hsends.proposes).2.2.1
    omega

/-- Processes that are up are trusted. -/
theorem trusts_of_alive
    {q : P}
    (hq : q ∈ allIDs)
    (halive : (w q).crashed = false) :
    q ∈ (w p).correct := by
  by_contra hnot
  rw [((hinv p).informed.noticed q hq hnot).1] at halive
  cases halive

/-- What the least value of a settled round rules. -/
theorem ruled_of_settled
    [DecidableEq P] {v : V}
    (hp : p ∈ allIDs)
    (hready : (w p).ready = true)
    (hsettled : (w p).settled = true)
    (hmin : minValue ((w p).known (w p).round) = some v) :
    w.Ruled allIDs (w p).round v := by
  obtain ⟨-, hsub⟩ := ConsensusNode.ready_spec hready
  have hsame := ConsensusNode.settled_spec hsettled
  have hpos := (hinv p).sound.round
  obtain ⟨hmem, hmin⟩ := minValue_eq_some hmin
  -- Whoever has not been heard crashed before it was done with the round before.
  have hsilent : ∀ s ∈ allIDs, s ∉ (w p).heardFrom (w p).round →
      (w s).crashed = true ∧ ¬ (w s).Complete allIDs ((w p).round - 1) := by
    intro s hs hnot
    obtain ⟨hcrashed, hheard⟩ := (hinv p).informed.noticed s hs fun h => hnot (hsub h)
    refine ⟨hcrashed, fun hcomplete => hnot ?_⟩
    obtain ⟨vals, hsends⟩ := hcomplete.sendsTo hp
    rw [hsame]
    exact hheard _ vals hsends
  refine ⟨?_, ?_, ?_⟩
  · intro s hs
    by_cases hheard : s ∈ (w p).heardFrom (w p).round
    · obtain ⟨-, vals, hsends⟩ := (hinv p).informed.heard _ hpos s hheard
      exact Or.inl ⟨vals, hsends.proposes⟩
    · exact Or.inr (hsilent s hs hheard)
  · obtain ⟨s, hs, -, vals, hproposes, hv⟩ := (hinv p).informed.origin _ hpos v hmem
    exact ⟨s, hs, vals, hproposes, hv⟩
  · rintro u ⟨s, hs, vals, hproposes, hu⟩
    have hheard : s ∈ (w p).heardFrom (w p).round := by
      by_contra hnot
      have hpartial := (hsilent s hs hnot).2
      obtain ⟨-, -, hle, hown⟩ := (hinv s).sound.rounds _ vals hproposes
      by_cases hfirst : (w p).round - 1 = 0
      · rw [hsame, hfirst, (hinv p).informed.zero] at hnot
        exact hnot hs
      · obtain ⟨vals', hbefore⟩ :=
          (hinv s).sound.proposed hown ((w p).round - 1) (by omega) (by omega)
        exact hpartial ((hinv s).sound.complete _ vals' hbefore (Or.inr (by omega)))
    exact hmin u ((hinv p).informed.values _ hpos s hheard vals hproposes hu)


/-- Only one round rules. -/
theorem ruled_unique
    {p q : P} {r₁ r₂ : ℕ} {v₁ v₂ : V}
    (hle : r₁ ≤ r₂)
    (hclose : (w q).round ≤ (w p).round + 1)
    (hruled₁ : w.Ruled allIDs r₁ v₁)
    (hruled₂ : w.Ruled allIDs r₂ v₂)
    (hblocked₁ : ∀ r, Between r₁ (w p).round r → w.Blocked allIDs r)
    (hblocked₂ : ∀ r, Between r₂ (w q).round r → w.Blocked allIDs r) :
    v₁ = v₂ := by
  rcases hle.lt_or_eq with hlt | rfl
  · -- The process that has decided in the round before the later one is left out.
    have hblocked : w.Blocked allIDs (r₂ - 1) := by
      by_cases hp : r₂ - 1 ≤ (w p).round
      · refine hblocked₁ (r₂ - 1) (Or.inl ⟨?_, hp⟩)
        omega
      · refine hblocked₂ (r₂ - 1) (Or.inr ⟨?_, ?_⟩)
        · omega
        · omega
    obtain ⟨s, hs, -, hround, hcomplete⟩ := hblocked
    rcases hruled₂.all s hs with ⟨vals, hproposes⟩ | ⟨-, hpartial⟩
    · have hlate := (hinv s).sound.rounds r₂ vals hproposes
      omega
    · exact absurd hcomplete hpartial
  · exact hruled₁.least.unique hruled₂.least

end Decisions

section Keeping

variable (hext : Nodes.Extends Process.Grows w w')
  (hinv : ∀ q, w.Inv allIDs q (w q))

include hext hinv

/-- Every value that a process knows was proposed. -/
theorem known_valid
    {r : ℕ} {u : V}
    (hr : 0 < r)
    (hu : u ∈ (w p).known r) :
    ∃ s ∈ allIDs, (w' s).proposal = some u := by
  obtain ⟨s, -, -, vals, hproposes, hmem⟩ := (hinv p).informed.origin r hr u hu
  exact valid_mono hext ((hinv s).justified.valid r vals hproposes u hmem)

theorem inv_crash
    (halive : (w p).crashed = false) :
    w'.Inv allIDs p { w p with crashed := true } := by
  have hold := (hinv p).mono hext
  refine ⟨{ hold.sound with complete := ?_ }, { hold.informed with }, { hold.justified with }⟩
  intro r vals hproposes _
  exact hold.sound.complete r vals hproposes (Or.inl halive)

theorem inv_propose
    {v : V} {recipients : Finset P} {crashed : Bool}
    (hp : p ∈ allIDs)
    (halive : (w p).crashed = false)
    (hself : w' p = (w p).utter ((w p).propose allIDs v) recipients
      (.proposal 1 (w p).id (insert v ((w p).known 1))) crashed)
    (hnone : (w p).proposal = none)
    (hall : crashed = false → recipients = allIDs) :
    w'.Inv allIDs p (w' p) := by
  have hold := (hinv p).mono hext
  have hround := round_eq_one (hinv p) hp hnone
  have hmake : (w' p).Proposes 1 (insert v ((w p).known 1)) := by
    rw [hself, Process.proposes_utter_proposal ConsensusNode.id_propose]
    exact Or.inr ⟨rfl, rfl⟩
  have hproposal : (w' p).proposal = some v := by
    rw [hself]
    rfl
  have hknown : ∀ r, (w p).known r ⊆ (w' p).known r := by
    intro r
    rw [hself]
    show _ ⊆ ((w p).propose allIDs v).known r
    rw [ConsensusNode.known_propose]
    split
    case isTrue hr =>
      rw [hr]
      exact Finset.subset_insert _ _
    case isFalse => exact Finset.Subset.refl _
  rw [hself] at hmake hproposal hknown ⊢
  refine ⟨?_, { hold.informed with values := ?_, origin := ?_ },
    { hold.justified with valid := ?_, announced := ?_ }⟩
  case refine_1 =>
    refine hold.sound.utter_proposal hp halive rfl rfl hround Nat.one_pos ?_ ?_ ?_ hall
    · intro r vals hproposes
      exact absurd hnone (hold.sound.rounds r vals hproposes).2.2.2
    · intro r hr hlt
      omega
    · exact Option.some_ne_none v
  case refine_2 =>
    intro r hr s hs vals hproposes
    exact (hold.informed.values r hr s hs vals hproposes).trans (hknown r)
  case refine_3 =>
    intro r hr u hu
    replace hu : u ∈ ((w p).propose allIDs v).known r := hu
    rw [ConsensusNode.known_propose] at hu
    split at hu
    case isTrue hr1 =>
      subst hr1
      exact ⟨p, hp, Or.inr rfl, _, by rw [hself]; exact hmake, hu⟩
    case isFalse => exact hold.informed.origin r hr u hu
  case refine_4 =>
    intro r vals hproposes u hu
    rw [Process.proposes_utter_proposal ConsensusNode.id_propose] at hproposes
    rcases hproposes with hproposes | ⟨rfl, rfl⟩
    · exact hold.justified.valid r vals hproposes u hu
    · rcases Finset.mem_insert.mp hu with rfl | hu
      · exact ⟨p, hp, by rw [hself]; exact hproposal⟩
      · exact known_valid hext hinv Nat.one_pos hu
  case refine_5 =>
    intro b hb u hmsg
    rcases List.mem_append.mp hb with hb | hb
    · exact hold.justified.announced b hb u hmsg
    · obtain rfl := List.mem_singleton.mp hb
      cases hmsg

/-- A process that takes a decision blocks the round that it is in. -/
theorem blocked_of_decides
    {n : ConsensusNode P V} {recipients : Finset P} {crashed : Bool}
    {m : ConsensusMessage P V} {vals : Finset V}
    (hp : p ∈ allIDs)
    (halive : (w p).crashed = false)
    (hself : w' p = (w p).utter n recipients m crashed)
    (hround : n.round = (w p).round)
    (hdecision : n.decision ≠ none)
    (hproposes : (w p).Proposes (w p).round vals) :
    w'.Blocked allIDs (w p).round := by
  refine ⟨p, hp, ?_, ?_, ?_⟩
  · rw [hself]
    exact hdecision
  · rw [hself]
    exact hround
  · exact (hext p).complete ((hinv p).sound.complete _ vals hproposes (Or.inl halive))

/-- The one who announced the decision is at most one round away, so that no
round is left out between it and the process. -/
theorem inv_adopt
    {s : P} {d : Option V} {recipients : Finset P} {crashed : Bool}
    (hp : p ∈ allIDs)
    (halive : (w p).crashed = false)
    (hself : w' p = (w p).utter ((w p).adopt allIDs d) recipients (.decided (w p).id d) crashed)
    (hs : s ∈ (w p).correct)
    (hundecided : (w p).decision = none)
    (hannounced : ∃ b ∈ (w s).sent, b.msg = .decided s d) :
    w'.Inv allIDs p (w' p) := by
  have hold := (hinv p).mono hext
  rw [hself]
  refine ⟨?_, { hold.informed with }, ?_, ?_, ?_⟩
  · exact hold.sound.utter_decided halive rfl rfl rfl rfl
  · intro r vals hproposes u hu
    rw [Process.proposes_utter_decided ConsensusNode.id_adopt] at hproposes
    exact hold.justified.valid r vals hproposes u hu
  · intro b hb u hmsg
    rcases List.mem_append.mp hb with hb | hb
    · rw [hold.justified.announced b hb u hmsg] at hundecided
      cases hundecided
    · obtain rfl := List.mem_singleton.mp hb
      simp only [ConsensusMessage.decided.injEq] at hmsg
      exact hmsg.2
  · intro v hv
    obtain rfl : d = some v := hv
    obtain ⟨b, hb, hmsg⟩ := hannounced
    obtain ⟨r₀, hruled, hblocked⟩ := (hinv s).justified.decision v
      ((hinv s).justified.announced b hb v (by rw [(hinv s).sound.id]; exact hmsg))
    refine ⟨r₀, hruled.mono hext, fun r hr => ?_⟩
    replace hr : Between r₀ (w p).round r := hr
    have hahead := round_le_of_trusts hinv hs
    have hbehind := round_le_of_trusts hinv (trusts_of_alive hinv (p := s) hp halive)
    by_cases hown : r = (w p).round
    · obtain ⟨vals, hproposes⟩ : ∃ vals, (w p).Proposes (w p).round vals := by
        rcases hruled.all p hp with ⟨vals, hproposes⟩ | ⟨hcrashed, -⟩
        · have hsome := (hold.sound.rounds r₀ vals hproposes).2.2.2
          exact hold.sound.proposed hsome _ hold.sound.round le_rfl
        · rw [halive] at hcrashed
          cases hcrashed
      rw [hown]
      exact blocked_of_decides hext hinv hp halive hself rfl (Option.some_ne_none v) hproposes
    · refine (hblocked r ?_).mono hext
      unfold Between at hr ⊢
      omega

variable [DecidableEq P]

theorem inv_hear
    {r : ℕ} {s : P} {vals : Finset V}
    (hsends : (w s).SendsTo p r vals) :
    w'.Inv allIDs p { w p with toConsensusNode := (w p).hear r s vals } := by
  have hold := (hinv p).mono hext
  obtain ⟨hs, hr, -, -⟩ := (hinv s).sound.rounds r vals hsends.proposes
  refine ⟨{ hold.sound with }, ⟨?_, ?_, ?_, ?_, ?_, ?_⟩, { hold.justified with }⟩
  case refine_1 =>
    have hne : 0 ≠ r := by omega
    rw [ConsensusNode.heardFrom_hear, if_neg hne]
    exact hold.informed.zero
  case refine_2 =>
    intro r' hr' s' hs'
    rw [ConsensusNode.heardFrom_hear] at hs'
    split at hs'
    case isTrue hsame =>
      subst hsame
      rcases Finset.mem_insert.mp hs' with rfl | hs'
      · exact ⟨hs, vals, (hext _).sendsTo hsends⟩
      · exact hold.informed.heard _ hr' s' hs'
    case isFalse => exact hold.informed.heard r' hr' s' hs'
  case refine_3 =>
    intro s' hs' hnot
    obtain ⟨hcrashed, hheard⟩ := hold.informed.noticed s' hs' hnot
    exact ⟨hcrashed, fun r' vals' hsends' =>
      ConsensusNode.heardFrom_subset_hear (hheard r' vals' hsends')⟩
  case refine_4 =>
    intro r' hr'
    exact (hold.informed.waited r' hr').trans ConsensusNode.heardFrom_subset_hear
  case refine_5 =>
    intro r' hr' s' hs' vals' hproposes
    rw [ConsensusNode.heardFrom_hear] at hs'
    split at hs'
    case isTrue hsame =>
      subst hsame
      rcases Finset.mem_insert.mp hs' with rfl | hs'
      · have hproposes := (hext _).once _ vals vals' hsends.proposes hproposes
        rw [(hinv _).sound.unique _ vals' vals hproposes hsends.proposes,
          ConsensusNode.known_hear, if_pos rfl]
        exact Finset.subset_union_right
      · exact (hold.informed.values _ hr' s' hs' vals' hproposes).trans
          ConsensusNode.known_subset_hear
    case isFalse =>
      exact (hold.informed.values r' hr' s' hs' vals' hproposes).trans
        ConsensusNode.known_subset_hear
  case refine_6 =>
    have hof : ∀ r' > 0, ∀ u ∈ (w p).known r', ∃ s' ∈ allIDs,
        (s' ∈ ((w p).hear r s vals).heardFrom r' ∨ s' = p) ∧
          ∃ vals', (w' s').Proposes r' vals' ∧ u ∈ vals' := by
      intro r' hr' u hu
      obtain ⟨s', hs', hfrom, hvals⟩ := hold.informed.origin r' hr' u hu
      exact ⟨s', hs', hfrom.imp_left fun h => ConsensusNode.heardFrom_subset_hear h, hvals⟩
    intro r' hr' u hu
    rw [ConsensusNode.known_hear] at hu
    split at hu
    case isTrue hsame =>
      subst hsame
      rcases Finset.mem_union.mp hu with hu | hu
      · exact hof _ hr' u hu
      · refine ⟨s, hs, Or.inl ?_, vals, (hext s).proposes hsends.proposes, hu⟩
        rw [ConsensusNode.heardFrom_hear, if_pos rfl]
        exact Finset.mem_insert_self _ _
    case isFalse => exact hof r' hr' u hu

theorem inv_suspect
    {q : P}
    (halive : (w p).crashed = false)
    (hcrashed : (w q).crashed = true)
    (hheard : ∀ r vals, (w q).SendsTo p r vals → q ∈ (w p).heardFrom r) :
    w'.Inv allIDs p { w p with toConsensusNode := (w p).suspect q } := by
  have hold := (hinv p).mono hext
  have hne : p ≠ q := by
    rintro rfl
    rw [halive] at hcrashed
    cases hcrashed
  have hsub : ((w p).suspect q).correct ⊆ (w p).correct := Finset.erase_subset _ _
  refine ⟨{ hold.sound with
      self := fun hp => Finset.mem_erase.mpr ⟨hne, hold.sound.self hp⟩
      correct := hsub.trans hold.sound.correct },
    { hold.informed with
      noticed := ?_
      waited := fun r hr => hsub.trans (hold.informed.waited r hr) },
    { hold.justified with }⟩
  intro s hs hnot
  by_cases hsq : s = q
  · subst hsq
    rw [(hext s).frozen hcrashed]
    exact ⟨hcrashed, hheard⟩
  · exact hold.informed.noticed s hs fun hmem => hnot (Finset.mem_erase.mpr ⟨hsq, hmem⟩)

theorem inv_advance
    {recipients : Finset P} {crashed : Bool}
    (hp : p ∈ allIDs)
    (halive : (w p).crashed = false)
    (hself : w' p = (w p).utter ((w p).advance allIDs) recipients
      (.proposal ((w p).round + 1) (w p).id ((w p).known (w p).round)) crashed)
    (hready : (w p).ready = true)
    (hcovers : (w p).known ((w p).round + 1) ⊆ (w p).known (w p).round)
    (hall : crashed = false → recipients = allIDs) :
    w'.Inv allIDs p (w' p) := by
  have hold := (hinv p).mono hext
  obtain ⟨hundecided, hsub⟩ := ConsensusNode.ready_spec hready
  have hpos := hold.sound.round
  have hown : (w p).proposal ≠ none := by
    obtain ⟨-, vals, hsends⟩ := (hinv p).informed.heard _ hpos p (hsub (hold.sound.self hp))
    exact (hold.sound.rounds _ vals hsends.proposes).2.2.2
  have hmake : (w' p).Proposes ((w p).round + 1) ((w p).known (w p).round) := by
    rw [hself, Process.proposes_utter_proposal ConsensusNode.id_advance]
    exact Or.inr ⟨rfl, rfl⟩
  rw [hself] at hmake ⊢
  refine ⟨?_, { hold.informed with waited := ?_, values := ?_, origin := ?_ },
    { hold.justified with valid := ?_, announced := ?_, decision := ?_ }⟩
  case refine_1 =>
    refine hold.sound.utter_proposal hp halive rfl rfl rfl (by omega) ?_ ?_ hown hall
    · intro r vals hproposes
      have hle := (hold.sound.rounds r vals hproposes).2.2.1
      omega
    · intro r hr hlt
      exact hold.sound.proposed hown r hr (by omega)
  case refine_2 =>
    intro r hr
    replace hr : r < (w p).round + 1 := hr
    rcases Nat.lt_succ_iff_lt_or_eq.mp hr with hr | rfl
    · exact hold.informed.waited r hr
    · exact hsub
  case refine_3 =>
    intro r hr s hs vals hproposes
    have hvals := hold.informed.values r hr s hs vals hproposes
    show vals ⊆ ((w p).advance allIDs).known r
    rw [ConsensusNode.known_advance]
    split
    case isTrue hnext =>
      rw [hnext] at hvals
      exact hvals.trans hcovers
    case isFalse => exact hvals
  case refine_4 =>
    intro r hr u hu
    replace hu : u ∈ ((w p).advance allIDs).known r := hu
    rw [ConsensusNode.known_advance] at hu
    split at hu
    case isTrue hnext =>
      subst hnext
      exact ⟨p, hp, Or.inr rfl, _, by rw [hself]; exact hmake, hu⟩
    case isFalse => exact hold.informed.origin r hr u hu
  case refine_5 =>
    intro r vals hproposes u hu
    rw [Process.proposes_utter_proposal ConsensusNode.id_advance] at hproposes
    rcases hproposes with hproposes | ⟨rfl, rfl⟩
    · exact hold.justified.valid r vals hproposes u hu
    · exact known_valid hext hinv hpos hu
  case refine_6 =>
    intro b hb u hmsg
    rcases List.mem_append.mp hb with hb | hb
    · exact hold.justified.announced b hb u hmsg
    · obtain rfl := List.mem_singleton.mp hb
      cases hmsg
  case refine_7 =>
    intro u hu
    rw [show (w p).decision = some u from hu] at hundecided
    cases hundecided

theorem inv_decide
    {recipients : Finset P} {crashed : Bool}
    (hp : p ∈ allIDs)
    (halive : (w p).crashed = false)
    (hself : w' p = (w p).utter ((w p).decideMin allIDs) recipients
      (.decided (w p).id (minValue ((w p).known (w p).round))) crashed)
    (hready : (w p).ready = true)
    (hsettled : (w p).settled = true) :
    w'.Inv allIDs p (w' p) := by
  have hold := (hinv p).mono hext
  obtain ⟨hundecided, hsub⟩ := ConsensusNode.ready_spec hready
  obtain ⟨-, vals, hsends⟩ :=
    (hinv p).informed.heard _ hold.sound.round p (hsub (hold.sound.self hp))
  have hblocked := fun hsome => blocked_of_decides hext hinv hp halive hself rfl hsome
    hsends.proposes
  rw [hself]
  refine ⟨?_, { hold.informed with }, ?_, ?_, ?_⟩
  · exact hold.sound.utter_decided halive rfl rfl rfl rfl
  · intro r vals hproposes u hu
    rw [Process.proposes_utter_decided ConsensusNode.id_decideMin] at hproposes
    exact hold.justified.valid r vals hproposes u hu
  · intro b hb u hmsg
    rcases List.mem_append.mp hb with hb | hb
    · rw [hold.justified.announced b hb u hmsg] at hundecided
      cases hundecided
    · obtain rfl := List.mem_singleton.mp hb
      simp only [ConsensusMessage.decided.injEq] at hmsg
      exact hmsg.2
  · intro v hv
    replace hv : minValue ((w p).known (w p).round) = some v := hv
    refine ⟨(w p).round, (ruled_of_settled hinv hp hready hsettled hv).mono hext, ?_⟩
    intro r hr
    replace hr : Between (w p).round (w p).round r := hr
    obtain rfl : r = (w p).round := by
      unfold Between at hr
      omega
    refine hblocked ?_
    show minValue ((w p).known (w p).round) ≠ none
    rw [hv]
    exact Option.some_ne_none v

end Keeping

/-- Every effect keeps the invariant of the process. -/
theorem Inv.acts
    [DecidableEq P]
    (hinv : ∀ q, w.Inv allIDs q (w q))
    (hp : p ∈ allIDs)
    (halive : (w p).crashed = false)
    (hext : Nodes.Extends Process.Grows w w')
    (h : Acts allIDs w p (w' p)) :
    w'.Inv allIDs p (w' p) := by
  generalize hself : w' p = x' at h
  cases h with
  | crash => exact inv_crash hext hinv halive
  | hear hsends => exact inv_hear hext hinv hsends
  | suspect hcrashed hheard => exact inv_suspect hext hinv halive hcrashed hheard
  | propose hnone hall => exact hself ▸ inv_propose hext hinv hp halive hself hnone hall
  | advance hready hcovers hall =>
      exact hself ▸ inv_advance hext hinv hp halive hself hready hcovers hall
  | decide hready hsettled =>
      exact hself ▸ inv_decide hext hinv hp halive hself hready hsettled
  | adopt hs hundecided hannounced =>
      exact hself ▸ inv_adopt hext hinv hp halive hself hs hundecided hannounced

end Cluster

end Flooding
end DistributedConsensus
