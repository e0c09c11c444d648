import DistributedConsensus.Ibft.Messages

/-!
# IBFT: justification of round changes and proposals

A validator that moves to a new round reports the last round and value that it
has prepared.  A proposal of a later round has to follow the highest report of
a quorum of round changes, and the quorum has to contain the prepare messages
that back that report.

A loop over a map visits its entries in an unspecified order.  The order is a
parameter: `highest` is the one that `highestPrepared` sees, the same at every
call on the same map, and `slices` is the one of all other loops.
-/

namespace DistributedConsensus
namespace Ibft

open Foundations

/-- An order in which loops visit the messages of a map. -/
structure RangeOrder where
  visit : Dict Int Message → List Message
  /-- Every message is visited once. -/
  perm : ∀ d, (visit d).Perm d.values

namespace RangeOrder

theorem mem_visit
    {ρ : RangeOrder} {d : Dict Int Message} {m : Message} :
    m ∈ ρ.visit d ↔ m ∈ d.values :=
  (ρ.perm d).mem_iff

/-- The order in which the keys were stored. -/
def insertion : RangeOrder where
  visit d := d.values
  perm _ := List.Perm.refl _

end RangeOrder

/-- The orders of the loops over maps. -/
structure MapOrders where
  highest : RangeOrder
  slices : RangeOrder

/-- The result of `highestPrepared`. -/
structure HighestPreparedResult where
  preparedRound : Int
  preparedValue : String
  found : Bool
deriving DecidableEq, Repr

/-- Whether the loop of `highestPrepared` skips the message. -/
def reportsNothing (msg : Message) : Bool :=
  decide (msg.preparedRound = noPreparedRound) || decide (msg.preparedValue = noPreparedValue)

/-- One iteration of the loop of `highestPrepared`. -/
def higherPrepared (result : HighestPreparedResult) (msg : Message) : HighestPreparedResult :=
  if reportsNothing msg then result
  else if !result.found || decide (msg.preparedRound > result.preparedRound) then
    ⟨msg.preparedRound, msg.preparedValue, true⟩
  else result

/-- The highest prepared round and its value among round changes. -/
def highestPrepared (ρ : MapOrders) (roundChangeMessages : Dict Int Message) :
    HighestPreparedResult :=
  (ρ.highest.visit roundChangeMessages).foldl higherPrepared
    ⟨noPreparedRound, noPreparedValue, false⟩

section

variable (keys : SignatureScheme) (ρ : MapOrders)

/-- Whether the prepare message backs a report. -/
def backsPrepared (lambda preparedRound : Int) (preparedValue : String) (validatorCount : Nat)
    (prepareMsg : Message) : Bool :=
  isValidMessage keys prepareMsg (validatorsFromCount validatorCount) &&
    decide (prepareMsg.type = .prepare) && decide (prepareMsg.lambda = lambda) &&
    decide (prepareMsg.round = preparedRound) && decide (prepareMsg.value = preparedValue)

/-- Whether the round changes contain a quorum of prepare messages. -/
def hasPrepareQuorumForHighestPrepared (qrc : Dict Int Message) (lambda preparedRound : Int)
    (preparedValue : String) (validatorCount : Nat) : Bool :=
  let prepares := ((ρ.slices.visit qrc).flatMap (fun roundChangeMsg =>
    roundChangeMsg.justification)).filter
      (backsPrepared keys lambda preparedRound preparedValue validatorCount)
  let distinctPrepareSenders := (prepares.map (fun prepareMsg => prepareMsg.fromId)).toFinset
  decide (distinctPrepareSenders.card ≥ quorumSize validatorCount)

/-- Whether the message reports a prepared round and a prepared value. -/
def hasPrepared (msg : Message) : Bool :=
  decide (msg.preparedRound ≠ noPreparedRound) && decide (msg.preparedValue ≠ noPreparedValue)

/-- The checks of one round change of a quorum. -/
def acceptableRoundChange (lambda round : Int) (validatorCount : Nat) (msg : Message) : Bool :=
  if !isValidMessage keys msg (validatorsFromCount validatorCount) then false
  else if msg.type ≠ .roundChange then false
  else if msg.lambda ≠ lambda ∨ msg.round ≠ round then false
  else if msg.preparedRound ≠ noPreparedRound ∧ msg.preparedRound ≥ msg.round then false
  else if decide (msg.preparedRound ≠ noPreparedRound) ≠
      decide (msg.preparedValue ≠ noPreparedValue) then false
  else true

/-- Whether the round changes justify the round. -/
def justifyRoundChange (qrc : Dict Int Message) (lambda round : Int) (validatorCount : Nat) :
    Bool :=
  if qrc.size < quorumSize validatorCount then false
  else if !(ρ.slices.visit qrc).all (acceptableRoundChange keys lambda round validatorCount) then
    false
  else if (ρ.slices.visit qrc).all (fun msg => !hasPrepared msg) then true
  else
    let highest := highestPrepared ρ qrc
    if !highest.found then false
    else
      hasPrepareQuorumForHighestPrepared keys ρ qrc lambda highest.preparedRound
        highest.preparedValue validatorCount

/-- The messages of a map as a slice. -/
def roundChangeMessagesToSlice (qrc : Dict Int Message) : List Message :=
  ρ.slices.visit qrc

/-- The round changes of a justification, the last one of each sender. -/
def roundChangeMessagesFromJustification (justification : List Message) : Dict Int Message :=
  justification.foldl
    (fun qrc msg => if msg.type ≠ .roundChange then qrc else qrc.set msg.fromId msg) Dict.empty

/-- Whether the proposal may be accepted. -/
def justifyPrePrepare (msg : Message) (validatorCount : Nat) : Bool :=
  if msg.type ≠ .prePrepare then false
  else if msg.round = 1 then true
  else
    let qrc := roundChangeMessagesFromJustification msg.justification
    if qrc.size < quorumSize validatorCount then false
    else if !justifyRoundChange keys ρ qrc msg.lambda msg.round validatorCount then false
    else
      let highest := highestPrepared ρ qrc
      if highest.found then decide (msg.value = highest.preparedValue) else true

end

/-! ## What the checks guarantee -/

/-- The loop of `highestPrepared` keeps a report that is at least as high as
every report seen so far. -/
theorem foldl_higherPrepared
    (l : List Message) (result : HighestPreparedResult)
    (m : Message)
    (hm : hasPrepared m = true)
    (h : m ∈ l ∨ (result.found = true ∧ m.preparedRound ≤ result.preparedRound)) :
    (l.foldl higherPrepared result).found = true ∧
      m.preparedRound ≤ (l.foldl higherPrepared result).preparedRound := by
  induction l generalizing result with
  | nil =>
      rcases h with hmem | hres
      · cases hmem
      · exact hres
  | cons a l ih =>
      apply ih
      have hskip : reportsNothing m = false := by
        simpa [hasPrepared, reportsNothing] using hm
      rcases h with hmem | ⟨hfound, hle⟩
      · rcases List.mem_cons.mp hmem with rfl | htail
        · right
          by_cases hbeat : (!result.found || decide (m.preparedRound > result.preparedRound)) = true
          · simp [higherPrepared, hskip, hbeat]
          · simp only [Bool.or_eq_true, Bool.not_eq_true', decide_eq_true_eq, not_or] at hbeat
            simp [higherPrepared, hskip, hbeat]
            omega
        · exact Or.inl htail
      · right
        unfold higherPrepared
        split
        · exact ⟨hfound, hle⟩
        · split
          case isTrue hbeat =>
            simp only [hfound, Bool.not_true, Bool.false_or, decide_eq_true_eq] at hbeat
            exact ⟨rfl, by simp only; omega⟩
          case isFalse => exact ⟨hfound, hle⟩

/-- The loop of `highestPrepared` keeps a report of one of the messages. -/
theorem foldl_higherPrepared_found
    (l : List Message) (result : HighestPreparedResult) :
    l.foldl higherPrepared result = result ∨
      ∃ m ∈ l, hasPrepared m = true ∧
        (l.foldl higherPrepared result).preparedRound = m.preparedRound ∧
        (l.foldl higherPrepared result).preparedValue = m.preparedValue := by
  induction l generalizing result with
  | nil => exact Or.inl rfl
  | cons a l ih =>
      rcases ih (higherPrepared result a) with heq | ⟨m, hm, hrest⟩
      · rw [List.foldl_cons, heq]
        unfold higherPrepared
        split
        · exact Or.inl rfl
        · split
          case isTrue hskip _ =>
            right
            exact ⟨a, List.mem_cons_self, by simpa [hasPrepared, reportsNothing] using hskip,
              rfl, rfl⟩
          case isFalse => exact Or.inl rfl
      · exact Or.inr ⟨m, List.mem_cons_of_mem _ hm, hrest⟩

section

variable {ρ : MapOrders} {qrc : Dict Int Message}

/-- `highestPrepared` is at least as high as every report. -/
theorem le_highestPrepared
    {m : Message}
    (hmem : m ∈ qrc.values)
    (hm : hasPrepared m = true) :
    (highestPrepared ρ qrc).found = true ∧
      m.preparedRound ≤ (highestPrepared ρ qrc).preparedRound :=
  foldl_higherPrepared _ _ m hm (Or.inl (RangeOrder.mem_visit.mpr hmem))

/-- `highestPrepared` is one of the reports. -/
theorem highestPrepared_found
    (h : (highestPrepared ρ qrc).found = true) :
    ∃ m ∈ qrc.values, hasPrepared m = true ∧
      (highestPrepared ρ qrc).preparedRound = m.preparedRound ∧
      (highestPrepared ρ qrc).preparedValue = m.preparedValue := by
  rcases foldl_higherPrepared_found (ρ.highest.visit qrc)
    ⟨noPreparedRound, noPreparedValue, false⟩ with heq | ⟨m, hm, hrest⟩
  · unfold highestPrepared at h
    rw [heq] at h
    cases h
  · exact ⟨m, RangeOrder.mem_visit.mp hm, hrest⟩

end

section

variable {keys : SignatureScheme} {ρ : MapOrders} {qrc : Dict Int Message}
variable {lambda round : Int} {n : Nat}

/-- What an acceptable round change satisfies. -/
theorem acceptableRoundChange_spec
    {msg : Message}
    (h : acceptableRoundChange keys lambda round n msg = true) :
    isValidMessage keys msg (validatorsFromCount n) = true ∧ msg.type = .roundChange ∧
      msg.lambda = lambda ∧ msg.round = round ∧
      (msg.preparedRound ≠ noPreparedRound → msg.preparedRound < round) ∧
      (msg.preparedRound = noPreparedRound ↔ msg.preparedValue = noPreparedValue) := by
  unfold acceptableRoundChange at h
  split at h
  case isTrue => cases h
  case isFalse hvalid =>
    split at h
    case isTrue => cases h
    case isFalse htype =>
      split at h
      case isTrue => cases h
      case isFalse hround =>
        push Not at hround
        split at h
        case isTrue => cases h
        case isFalse hlt =>
          split at h
          case isTrue => cases h
          case isFalse hboth =>
            refine ⟨by simpa using hvalid, by simpa using htype, hround.1, hround.2, ?_, ?_⟩
            · intro hne
              by_contra hge
              exact hlt ⟨hne, by omega⟩
            · simpa using hboth

/-- What a justified round change provides: a quorum of acceptable round
changes, and a quorum of prepare messages for the highest report, if any. -/
theorem justifyRoundChange_spec
    (h : justifyRoundChange keys ρ qrc lambda round n = true) :
    quorumSize n ≤ qrc.size ∧
    (∀ m ∈ qrc.values, acceptableRoundChange keys lambda round n m = true) ∧
    ((∀ m ∈ qrc.values, hasPrepared m = false) ∨
      (highestPrepared ρ qrc).found = true ∧
      hasPrepareQuorumForHighestPrepared keys ρ qrc lambda (highestPrepared ρ qrc).preparedRound
        (highestPrepared ρ qrc).preparedValue n = true) := by
  unfold justifyRoundChange at h
  split at h
  case isTrue => cases h
  case isFalse hsize =>
    split at h
    case isTrue => cases h
    case isFalse hall =>
      have hacc : ∀ m ∈ qrc.values, acceptableRoundChange keys lambda round n m = true := by
        intro m hm
        simp only [Bool.not_eq_true, Bool.not_eq_false', List.all_eq_true] at hall
        exact hall m (RangeOrder.mem_visit.mpr hm)
      refine ⟨by omega, hacc, ?_⟩
      split at h
      case isTrue hnone =>
        left
        intro m hm
        rw [List.all_eq_true] at hnone
        simpa using hnone m (RangeOrder.mem_visit.mpr hm)
      case isFalse =>
        right
        simp only at h
        split at h
        case isTrue => cases h
        case isFalse hfound => exact ⟨by simpa using hfound, h⟩

/-- The prepare messages that `hasPrepareQuorumForHighestPrepared` has counted. -/
theorem exists_prepares_of_hasPrepareQuorum
    {preparedRound : Int} {preparedValue : String}
    (h : hasPrepareQuorumForHighestPrepared keys ρ qrc lambda preparedRound preparedValue n = true) :
    ∃ Q : Finset (Fin n), quorumSize n ≤ Q.card ∧ ∀ i ∈ Q,
      ∃ m ∈ qrc.values, ∃ p ∈ m.justification, p.fromId = i ∧
        backsPrepared keys lambda preparedRound preparedValue n p = true := by
  unfold hasPrepareQuorumForHighestPrepared at h
  simp only [ge_iff_le, decide_eq_true_eq] at h
  have hcounted : ∀ k ∈ ((((ρ.slices.visit qrc).flatMap (fun roundChangeMsg =>
      roundChangeMsg.justification)).filter
        (backsPrepared keys lambda preparedRound preparedValue n)).map
          (fun prepareMsg => prepareMsg.fromId)).toFinset,
      ∃ m ∈ qrc.values, ∃ p ∈ m.justification, p.fromId = k ∧
        backsPrepared keys lambda preparedRound preparedValue n p = true := by
    intro k hk
    simp only [List.mem_toFinset, List.mem_map, List.mem_filter, List.mem_flatMap] at hk
    obtain ⟨p, ⟨⟨m, hm, hp⟩, hback⟩, hfrom⟩ := hk
    exact ⟨m, RangeOrder.mem_visit.mp hm, p, hp, hfrom, hback⟩
  obtain ⟨Q, hcard, hQ⟩ := exists_fin_of_identities _ (fun k hk => by
    obtain ⟨m, -, p, -, rfl, hback⟩ := hcounted k hk
    simp only [backsPrepared, Bool.and_eq_true] at hback
    exact (isValidMessage_spec hback.1.1.1.1).1)
  exact ⟨Q, by omega, fun i hi => hcounted i (hQ i hi)⟩

/-- A round change of the map is one of the justification, stored under its
sender. -/
theorem roundChangeMessagesFromJustification_spec
    {justification : List Message} {k : Int} {m : Message}
    (h : (k, m) ∈ (roundChangeMessagesFromJustification justification).entries) :
    m ∈ justification ∧ m.fromId = k := by
  have key : ∀ (l : List Message) (d : Dict Int Message),
      (∀ k m, (k, m) ∈ d.entries → m ∈ justification ∧ m.fromId = k) →
      (∀ m ∈ l, m ∈ justification) →
      ∀ k m, (k, m) ∈ (l.foldl (fun qrc msg =>
        if msg.type ≠ .roundChange then qrc else qrc.set msg.fromId msg) d).entries →
        m ∈ justification ∧ m.fromId = k := by
    intro l
    induction l with
    | nil => exact fun d hd _ => hd
    | cons a l ih =>
        intro d hd hl
        refine ih _ ?_ (fun m hm => hl m (List.mem_cons_of_mem _ hm))
        intro k m hkm
        simp only at hkm
        split at hkm
        case isTrue => exact hd k m hkm
        case isFalse =>
          rcases Dict.mem_entries_set hkm with heq | hold
          · obtain ⟨rfl, rfl⟩ := Prod.mk.inj heq
            exact ⟨hl _ List.mem_cons_self, rfl⟩
          · exact hd k m hold
  exact key justification Dict.empty (by simp [Dict.empty]) (fun m hm => hm) k m h

/-- What an acceptable proposal of a later round provides. -/
theorem justifyPrePrepare_spec
    {msg : Message}
    (h : justifyPrePrepare keys ρ msg n = true) :
    msg.round = 1 ∨
      justifyRoundChange keys ρ (roundChangeMessagesFromJustification msg.justification)
        msg.lambda msg.round n = true ∧
      ((highestPrepared ρ (roundChangeMessagesFromJustification msg.justification)).found = true →
        msg.value =
          (highestPrepared ρ (roundChangeMessagesFromJustification msg.justification)).preparedValue) := by
  unfold justifyPrePrepare at h
  split at h
  case isTrue => cases h
  case isFalse =>
    split at h
    case isTrue hround => exact Or.inl hround
    case isFalse =>
      right
      simp only at h
      split at h
      case isTrue => cases h
      case isFalse =>
        split at h
        case isTrue => cases h
        case isFalse hjust =>
          refine ⟨by simpa using hjust, fun hfound => ?_⟩
          rw [if_pos hfound] at h
          exact of_decide_eq_true h

end

end Ibft
end DistributedConsensus
