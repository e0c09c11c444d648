import DistributedConsensus.Ibft.Justification

/-!
# IBFT: value protection under every order of the range statements

`JustifyPrePrepare` runs over the same map of round changes four times, and the
order of every run is free.  `HighestPrepared` keeps the first report of the
highest prepared round, so the run that selects the report whose prepare
messages are counted and the run that selects the value the proposal has to
carry may see different reports.

An accepted proposal of a later round is protected exactly if its round changes
are not `Exposed`: `protected_iff_not_exposed`.
-/

namespace DistributedConsensus
namespace Ibft

open Foundations

/-- The orders of the range statements that `justifyPrePrepare` executes. -/
structure StatementOrders where
  /-- The loop that checks the round changes. -/
  validated : RangeOrder
  /-- `highestPrepared` inside `justifyRoundChange`. -/
  checked : RangeOrder
  /-- The loop that counts the prepare messages. -/
  counted : RangeOrder
  /-- `highestPrepared` inside `justifyPrePrepare`. -/
  used : RangeOrder

section

variable (keys : SignatureScheme) (σ : StatementOrders)

/-- `justifyRoundChange` with one order for each of its range statements. -/
def justifyRoundChangeAt (qrc : Dict Int Message) (lambda round : Int) (validatorCount : Nat) :
    Bool :=
  if qrc.size < quorumSize validatorCount then false
  else if !(σ.validated.visit qrc).all
      (acceptableRoundChange keys lambda round validatorCount) then false
  else if (σ.validated.visit qrc).all (fun msg => !hasPrepared msg) then true
  else
    let highest := highestPrepared ⟨σ.checked, σ.counted⟩ qrc
    if !highest.found then false
    else
      hasPrepareQuorumForHighestPrepared keys ⟨σ.checked, σ.counted⟩ qrc lambda
        highest.preparedRound highest.preparedValue validatorCount

/-- `justifyPrePrepare` with one order for each range statement. -/
def justifyPrePrepareAt (msg : Message) (validatorCount : Nat) : Bool :=
  if msg.type ≠ .prePrepare then false
  else if msg.round = 1 then true
  else
    let qrc := roundChangeMessagesFromJustification msg.justification
    if qrc.size < quorumSize validatorCount then false
    else if !justifyRoundChangeAt keys σ qrc msg.lambda msg.round validatorCount then false
    else
      let highest := highestPrepared ⟨σ.used, σ.counted⟩ qrc
      if highest.found then decide (msg.value = highest.preparedValue) else true

/-- With equal orders for equal statements this is `justifyPrePrepare`. -/
theorem justifyPrePrepareAt_eq (ρ : MapOrders) (msg : Message) (n : Nat) :
    justifyPrePrepareAt keys ⟨ρ.slices, ρ.highest, ρ.slices, ρ.highest⟩ msg n =
      justifyPrePrepare keys ρ msg n := rfl

end

/-! ## Reports and their prepare messages -/

/-- The round changes of a justification. -/
def roundChangesOf (msg : Message) : List Message :=
  msg.justification.filter (fun rc => decide (rc.type = .roundChange))

/-- The round changes that are counted, one of each sender. -/
def countedRoundChanges (msg : Message) : List Message :=
  (roundChangeMessagesFromJustification msg.justification).values

/-- The prepared round is at least as high as the ones that are reported. -/
def Bounds (R : Int) (rcs : List Message) : Prop :=
  ∀ m ∈ rcs, hasPrepared m = true → m.preparedRound ≤ R

/-- The highest prepared round that is reported. -/
def IsHighest (R : Int) (rcs : List Message) : Prop :=
  (∃ m ∈ rcs, hasPrepared m = true ∧ m.preparedRound = R) ∧ Bounds R rcs

section

variable (keys : SignatureScheme) (n : Nat)

/-- The round changes carry valid prepare messages of a quorum of distinct
validators. -/
def BackedBy (rcs : List Message) (lambda R : Int) (value : String) : Prop :=
  ∃ Q : Finset (Fin n), quorumSize n ≤ Q.card ∧ ∀ i ∈ Q,
    ∃ rc ∈ rcs, ∃ p ∈ rc.justification, p.fromId = i ∧
      backsPrepared keys lambda R value n p = true

/-- The value of a proposal is backed at the highest prepared round, whatever the
orders that made the proposal pass. -/
def Protected (msg : Message) : Prop :=
  ∀ σ : StatementOrders, justifyPrePrepareAt keys σ msg n = true →
    (∃ m ∈ roundChangesOf msg, hasPrepared m = true) →
    ∀ R, IsHighest R (roundChangesOf msg) →
      BackedBy keys n (roundChangesOf msg) msg.lambda R msg.value

/-- Two reports of the highest counted round.  The prepare messages back the
first one, the proposal carries the value of the second one. -/
structure Tied (msg a b : Message) : Prop where
  fst : a ∈ countedRoundChanges msg
  snd : b ∈ countedRoundChanges msg
  fstPrepared : hasPrepared a = true
  sndPrepared : hasPrepared b = true
  round : a.preparedRound = b.preparedRound
  highest : Bounds a.preparedRound (countedRoundChanges msg)
  backed : BackedBy keys n (countedRoundChanges msg) msg.lambda a.preparedRound a.preparedValue
  value : b.preparedValue = msg.value

/-- No report is counted, or two of them pass the checks. -/
def Passes (msg : Message) : Prop :=
  (∀ m ∈ countedRoundChanges msg, hasPrepared m = false) ∨ ∃ a b, Tied keys n msg a b

/-- Two reports of the highest round, one backed and one proposed but not backed. -/
def Split (msg : Message) : Prop :=
  ∃ a b, Tied keys n msg a b ∧ Bounds b.preparedRound (roundChangesOf msg) ∧
    ¬ BackedBy keys n (roundChangesOf msg) msg.lambda b.preparedRound b.preparedValue

/-- The highest report has been replaced by a later round change of its sender,
and it does not back the proposal. -/
def Superseded (msg : Message) : Prop :=
  ∃ m ∈ roundChangesOf msg, hasPrepared m = true ∧
    Bounds m.preparedRound (roundChangesOf msg) ∧
    (∀ c ∈ countedRoundChanges msg, hasPrepared c = true → c.preparedRound < m.preparedRound) ∧
    Passes keys n msg ∧
    ¬ BackedBy keys n (roundChangesOf msg) msg.lambda m.preparedRound msg.value

/-- The proposal carries a quorum of acceptable round changes that are split, or
one of which has been superseded. -/
structure Exposed (msg : Message) : Prop where
  quorum : quorumSize n ≤ (roundChangeMessagesFromJustification msg.justification).size
  acceptable : ∀ m ∈ countedRoundChanges msg,
    acceptableRoundChange keys msg.lambda msg.round n m = true
  kind : Split keys n msg ∨ Superseded keys n msg

end

/-! ## Orders that decide a tie -/

/-- Once a report of the highest round is kept, the rest of the loop keeps it. -/
theorem foldl_higherPrepared_of_bounds
    {l : List Message} {result : HighestPreparedResult}
    (hfound : result.found = true)
    (hbounds : Bounds result.preparedRound l) :
    l.foldl higherPrepared result = result := by
  induction l with
  | nil => rfl
  | cons a l ih =>
      have hkeep : higherPrepared result a = result := by
        unfold higherPrepared
        split
        · rfl
        · split
          case isTrue hreports hbeat =>
            have hprep : hasPrepared a = true := by
              simpa [hasPrepared, reportsNothing] using hreports
            have hle := hbounds a List.mem_cons_self hprep
            simp only [hfound, Bool.not_true, Bool.false_or, decide_eq_true_eq] at hbeat
            omega
          case isFalse => rfl
      rw [List.foldl_cons, hkeep]
      exact ih (fun m hm => hbounds m (List.mem_cons_of_mem a hm))

namespace RangeOrder

/-- The order that visits one message first. -/
def first (a : Message) : RangeOrder where
  visit d := if a ∈ d.values then a :: d.values.erase a else d.values
  perm d := by
    split
    case isTrue hmem => exact (List.perm_cons_erase hmem).symm
    case isFalse => exact List.Perm.refl _

end RangeOrder

/-- A highest report that is visited first is the one that is kept. -/
theorem highestPrepared_first
    {a : Message} {qrc : Dict Int Message} {ρ : RangeOrder}
    (hmem : a ∈ qrc.values)
    (hprep : hasPrepared a = true)
    (hbounds : Bounds a.preparedRound qrc.values) :
    highestPrepared ⟨RangeOrder.first a, ρ⟩ qrc = ⟨a.preparedRound, a.preparedValue, true⟩ := by
  have hskip : reportsNothing a = false := by
    simpa [hasPrepared, reportsNothing] using hprep
  have hvisit : (RangeOrder.first a).visit qrc = a :: qrc.values.erase a := if_pos hmem
  have hstart : higherPrepared ⟨noPreparedRound, noPreparedValue, false⟩ a =
      ⟨a.preparedRound, a.preparedValue, true⟩ := by
    simp [higherPrepared, hskip]
  unfold highestPrepared
  simp only [hvisit, List.foldl_cons, hstart]
  apply foldl_higherPrepared_of_bounds rfl
  intro m hm
  exact hbounds m (List.mem_of_mem_erase hm)

/-- The report that is kept is one of the highest. -/
theorem highestPrepared_tops
    {ρ : MapOrders} {qrc : Dict Int Message}
    (hfound : (highestPrepared ρ qrc).found = true) :
    ∃ m ∈ qrc.values, hasPrepared m = true ∧ Bounds m.preparedRound qrc.values ∧
      (highestPrepared ρ qrc).preparedRound = m.preparedRound ∧
      (highestPrepared ρ qrc).preparedValue = m.preparedValue := by
  obtain ⟨m, hmem, hprep, hround, hvalue⟩ := highestPrepared_found hfound
  refine ⟨m, hmem, hprep, ?_, hround, hvalue⟩
  intro c hc hcprep
  rw [← hround]
  exact (le_highestPrepared hc hcprep).2

/-! ## What acceptance under given orders means -/

section

variable {keys : SignatureScheme} {σ : StatementOrders} {msg : Message} {n : Nat}

/-- The counting loop finds a quorum exactly if there is one, in every order. -/
theorem hasPrepareQuorum_iff_backedBy
    {ρ : MapOrders} {qrc : Dict Int Message} {lambda R : Int} {value : String} :
    hasPrepareQuorumForHighestPrepared keys ρ qrc lambda R value n = true ↔
      BackedBy keys n qrc.values lambda R value := by
  constructor
  · exact exists_prepares_of_hasPrepareQuorum
  · rintro ⟨Q, hcard, hQ⟩
    have hinj : Function.Injective (fun i : Fin n => (i : Int)) := by
      intro i j hij
      exact Fin.ext (Int.ofNat.inj hij)
    unfold hasPrepareQuorumForHighestPrepared
    simp only [ge_iff_le, decide_eq_true_eq]
    refine hcard.trans ?_
    rw [← Finset.card_image_of_injective Q hinj]
    apply Finset.card_le_card
    intro k hk
    obtain ⟨i, hi, rfl⟩ := Finset.mem_image.mp hk
    obtain ⟨rc, hrc, p, hp, hfrom, hbacks⟩ := hQ i hi
    simp only [List.mem_toFinset, List.mem_map, List.mem_filter, List.mem_flatMap]
    exact ⟨p, ⟨⟨rc, RangeOrder.mem_visit.mpr hrc, hp⟩, hbacks⟩, hfrom⟩

/-- Acceptance of the round changes, in every order of the loops. -/
theorem justifyRoundChangeAt_iff
    {qrc : Dict Int Message} {lambda round : Int} :
    justifyRoundChangeAt keys σ qrc lambda round n = true ↔
      quorumSize n ≤ qrc.size ∧
      (∀ m ∈ qrc.values, acceptableRoundChange keys lambda round n m = true) ∧
      ((∀ m ∈ qrc.values, hasPrepared m = false) ∨
        (highestPrepared ⟨σ.checked, σ.counted⟩ qrc).found = true ∧
        BackedBy keys n qrc.values lambda
          (highestPrepared ⟨σ.checked, σ.counted⟩ qrc).preparedRound
          (highestPrepared ⟨σ.checked, σ.counted⟩ qrc).preparedValue) := by
  unfold justifyRoundChangeAt
  by_cases hsize : qrc.size < quorumSize n
  · simp only [if_pos hsize, Bool.false_eq_true, false_iff]
    rintro ⟨hquorum, -⟩
    omega
  rw [if_neg hsize]
  by_cases hacc : ∀ m ∈ qrc.values, acceptableRoundChange keys lambda round n m = true
  swap
  · rw [if_pos (by simpa [RangeOrder.mem_visit] using hacc)]
    simp [hacc]
  rw [if_neg (by simpa [RangeOrder.mem_visit] using hacc)]
  have hquorum : quorumSize n ≤ qrc.size := by omega
  by_cases hnone : ∀ m ∈ qrc.values, hasPrepared m = false
  · rw [if_pos (by simpa [RangeOrder.mem_visit] using hnone)]
    exact ⟨fun _ => ⟨hquorum, hacc, Or.inl hnone⟩, fun _ => rfl⟩
  · rw [if_neg (by simpa [RangeOrder.mem_visit] using hnone)]
    simp only [← hasPrepareQuorum_iff_backedBy (ρ := ⟨σ.checked, σ.counted⟩), hquorum, hnone,
      false_or, true_and, Bool.not_eq_true']
    by_cases hfound : (highestPrepared ⟨σ.checked, σ.counted⟩ qrc).found = true
    · rw [if_neg (by simp [hfound])]
      exact ⟨fun h => ⟨hacc, hfound, h⟩, fun h => h.2.2⟩
    · simp [hfound]

/-- Acceptance of a proposal of a later round. -/
theorem justifyPrePrepareAt_iff
    (htype : msg.type = .prePrepare)
    (hround : 1 < msg.round) :
    justifyPrePrepareAt keys σ msg n = true ↔
      justifyRoundChangeAt keys σ (roundChangeMessagesFromJustification msg.justification)
        msg.lambda msg.round n = true ∧
      ((highestPrepared ⟨σ.used, σ.counted⟩
          (roundChangeMessagesFromJustification msg.justification)).found = true →
        msg.value = (highestPrepared ⟨σ.used, σ.counted⟩
          (roundChangeMessagesFromJustification msg.justification)).preparedValue) := by
  have hlater : msg.round ≠ 1 := by omega
  unfold justifyPrePrepareAt
  simp only [htype, hlater, ne_eq, not_true_eq_false, if_false, Bool.not_eq_true']
  split
  case isTrue hsize =>
    simp only [Bool.false_eq_true, false_iff, justifyRoundChangeAt_iff]
    rintro ⟨⟨hquorum, -⟩, -⟩
    omega
  case isFalse =>
    split
    case isTrue hjust => simp [hjust]
    case isFalse hjust =>
      rw [Bool.not_eq_false] at hjust
      split
      case isTrue hfound => simp [hjust, hfound]
      case isFalse hfound => simp [hjust, hfound]

/-- An accepted proposal carries a quorum of acceptable round changes, and its
reports pass. -/
theorem passes_of_accepted
    (htype : msg.type = .prePrepare)
    (hround : 1 < msg.round)
    (h : justifyPrePrepareAt keys σ msg n = true) :
    quorumSize n ≤ (roundChangeMessagesFromJustification msg.justification).size ∧
      (∀ m ∈ countedRoundChanges msg,
        acceptableRoundChange keys msg.lambda msg.round n m = true) ∧
      Passes keys n msg := by
  obtain ⟨hjust, hvalue⟩ := (justifyPrePrepareAt_iff htype hround).mp h
  obtain ⟨hquorum, hacc, hnone | ⟨hfound, hbacked⟩⟩ := justifyRoundChangeAt_iff.mp hjust
  · exact ⟨hquorum, hacc, Or.inl hnone⟩
  refine ⟨hquorum, hacc, Or.inr ?_⟩
  -- the two runs of `highestPrepared` keep reports of the same round
  obtain ⟨a, ha, haprep, habounds, hafst, hasnd⟩ := highestPrepared_tops hfound
  obtain ⟨b, hb, hbprep, hbbounds, -, hbsnd⟩ := highestPrepared_tops
    (le_highestPrepared (ρ := ⟨σ.used, σ.counted⟩) ha haprep).1
  have hle : a.preparedRound ≤ b.preparedRound := hbbounds a ha haprep
  have hge : b.preparedRound ≤ a.preparedRound := habounds b hb hbprep
  refine ⟨a, b, ha, hb, haprep, hbprep, by omega, habounds, ?_, ?_⟩
  · rw [hafst, hasnd] at hbacked
    exact hbacked
  · rw [hvalue (le_highestPrepared ha haprep).1, hbsnd]

/-- Some orders accept a proposal whose reports pass. -/
theorem exists_accepted_of_passes
    (htype : msg.type = .prePrepare)
    (hround : 1 < msg.round)
    (hquorum : quorumSize n ≤ (roundChangeMessagesFromJustification msg.justification).size)
    (hacc : ∀ m ∈ countedRoundChanges msg,
      acceptableRoundChange keys msg.lambda msg.round n m = true)
    (hpasses : Passes keys n msg) :
    ∃ σ : StatementOrders, justifyPrePrepareAt keys σ msg n = true := by
  rcases hpasses with hnone | ⟨a, b, htied⟩
  · refine ⟨⟨.insertion, .insertion, .insertion, .insertion⟩, ?_⟩
    rw [justifyPrePrepareAt_iff htype hround, justifyRoundChangeAt_iff]
    refine ⟨⟨hquorum, hacc, Or.inl hnone⟩, ?_⟩
    intro hfound
    obtain ⟨m, hm, hprep, -⟩ := highestPrepared_found hfound
    rw [hnone m hm] at hprep
    cases hprep
  · refine ⟨⟨.insertion, .first a, .insertion, .first b⟩, ?_⟩
    rw [justifyPrePrepareAt_iff htype hround, justifyRoundChangeAt_iff]
    have hbounds : Bounds b.preparedRound (countedRoundChanges msg) := by
      rw [← htied.round]
      exact htied.highest
    simp only [highestPrepared_first htied.fst htied.fstPrepared htied.highest,
      highestPrepared_first htied.snd htied.sndPrepared hbounds]
    exact ⟨⟨hquorum, hacc, Or.inr ⟨trivial, htied.backed⟩⟩, fun _ => htied.value.symm⟩

/-- Counted round changes are round changes of the justification. -/
theorem mem_roundChangesOf_of_counted
    {m : Message}
    (hacc : ∀ m ∈ countedRoundChanges msg,
      acceptableRoundChange keys msg.lambda msg.round n m = true)
    (hm : m ∈ countedRoundChanges msg) :
    m ∈ roundChangesOf msg := by
  obtain ⟨⟨k, m'⟩, hentry, rfl⟩ := List.mem_map.mp hm
  have hmem := (roundChangeMessagesFromJustification_spec hentry).1
  have htype := (acceptableRoundChange_spec (hacc _ hm)).2.1
  exact List.mem_filter.mpr ⟨hmem, decide_eq_true htype⟩

end

/-- **Value protection.**  A proposal of a later round is protected under every
order of every range statement exactly if its round changes are not exposed. -/
theorem protected_iff_not_exposed
    (keys : SignatureScheme) (n : Nat) (msg : Message)
    (htype : msg.type = .prePrepare)
    (hround : 1 < msg.round) :
    Protected keys n msg ↔ ¬ Exposed keys n msg := by
  constructor
  · rintro hprot ⟨hquorum, hacc, ⟨a, b, htied, hbounds, hbacked⟩ | hsuper⟩
    · obtain ⟨σ, hσ⟩ := exists_accepted_of_passes htype hround hquorum hacc
        (Or.inr ⟨a, b, htied⟩)
      have hmem := mem_roundChangesOf_of_counted hacc htied.snd
      apply hbacked
      rw [htied.value]
      exact hprot σ hσ ⟨b, hmem, htied.sndPrepared⟩ _ ⟨⟨b, hmem, htied.sndPrepared, rfl⟩, hbounds⟩
    · obtain ⟨m, hmem, hprep, hbounds, -, hpasses, hbacked⟩ := hsuper
      obtain ⟨σ, hσ⟩ := exists_accepted_of_passes htype hround hquorum hacc hpasses
      exact hbacked (hprot σ hσ ⟨m, hmem, hprep⟩ _ ⟨⟨m, hmem, hprep, rfl⟩, hbounds⟩)
  · rintro hexposed σ hσ - R ⟨⟨m, hmem, hprep, rfl⟩, hbounds⟩
    by_contra hbacked
    obtain ⟨hquorum, hacc, hpasses⟩ := passes_of_accepted htype hround hσ
    refine hexposed ⟨hquorum, hacc, ?_⟩
    by_cases hlower : ∀ c ∈ countedRoundChanges msg, hasPrepared c = true →
        c.preparedRound < m.preparedRound
    · exact Or.inr ⟨m, hmem, hprep, hbounds, hlower, hpasses, hbacked⟩
    · push Not at hlower
      obtain ⟨c, hc, hcprep, hle⟩ := hlower
      rcases hpasses with hnone | ⟨a, b, htied⟩
      · rw [hnone c hc] at hcprep
        cases hcprep
      · -- the tie is at the highest round of the whole justification
        have hca := htied.highest c hc hcprep
        have hbm := hbounds b (mem_roundChangesOf_of_counted hacc htied.snd) htied.sndPrepared
        have hab := htied.round
        have hround' : b.preparedRound = m.preparedRound := by omega
        refine Or.inl ⟨a, b, htied, ?_, ?_⟩
        · rw [hround']
          exact hbounds
        · rw [hround', htied.value]
          exact hbacked

/-! ## Proposals of round 3 of four validators -/

/-- A scheme whose signatures are the signer and the values. -/
def valueSignatures : SignatureScheme where
  signMessage msg id := toString id ++ "|" ++ msg.value ++ "|" ++ msg.preparedValue
  verifySignature msg :=
    msg.signature = toString msg.fromId ++ "|" ++ msg.value ++ "|" ++ msg.preparedValue

/-- The message as its sender signs it. -/
def sealed (msg : Message) : Message :=
  { msg with signature := valueSignatures.signMessage msg msg.fromId }

/-- A prepare message of round 2. -/
def prepareOf (value : String) (k : Int) : Message :=
  sealed ⟨.prepare, k, 1, 2, value, noPreparedRound, noPreparedValue, [], ""⟩

/-- A round change to round 3. -/
def reportOf (k preparedRound : Int) (preparedValue : String) (prepares : List Message) : Message :=
  sealed ⟨.roundChange, k, 1, 3, "", preparedRound, preparedValue, prepares, ""⟩

/-- A proposal of the leader of round 3. -/
def proposalOf (value : String) (roundChanges : List Message) : Message :=
  sealed ⟨.prePrepare, 2, 1, 3, value, noPreparedRound, noPreparedValue, roundChanges, ""⟩

/-- Validator 0 reports a value with the prepare messages of a quorum. -/
def backedReport : Message := reportOf 0 2 "A" ([0, 1, 2].map (prepareOf "A"))

/-- Validator 1 reports another value of the same round. -/
def bareReport : Message := reportOf 1 2 "B" []

/-- Validator 2 has prepared nothing. -/
def emptyReport (k : Int) : Message := reportOf k noPreparedRound noPreparedValue []

/-- The proposal follows the only report. -/
def unanimousProposal : Message := proposalOf "A" [backedReport, emptyReport 1, emptyReport 2]

/-- The proposal follows the report that has no prepare messages. -/
def tiedProposal : Message := proposalOf "B" [backedReport, bareReport, emptyReport 2]

theorem protected_unanimousProposal :
    justifyPrePrepareAt valueSignatures ⟨.insertion, .insertion, .insertion, .insertion⟩
        unanimousProposal 4 = true ∧
      Protected valueSignatures 4 unanimousProposal := by
  have hcounted : countedRoundChanges unanimousProposal = roundChangesOf unanimousProposal := by
    decide +kernel
  have hbacked : hasPrepareQuorumForHighestPrepared valueSignatures ⟨.insertion, .insertion⟩
      (roundChangeMessagesFromJustification unanimousProposal.justification) 1 2 "A" 4 = true := by
    decide +kernel
  have hreports : ∀ m ∈ roundChangesOf unanimousProposal, hasPrepared m = true →
      m.preparedRound = 2 := by
    decide +kernel
  refine ⟨by decide +kernel, (protected_iff_not_exposed _ _ _ rfl (by decide)).mpr ?_⟩
  rintro ⟨-, -, ⟨a, b, htied, -, hnot⟩ | ⟨m, hmem, hprep, -, hlower, -⟩⟩
  · apply hnot
    rw [htied.value, hreports b (hcounted ▸ htied.snd) htied.sndPrepared, ← hcounted]
    exact hasPrepareQuorum_iff_backedBy.mp hbacked
  · have hlt := hlower m (hcounted.symm ▸ hmem) hprep
    omega

/-- **The check and the use see different reports.**  The proposal is accepted,
and no prepare message backs its value. -/
theorem exists_unprotected_proposal :
    tiedProposal.type = .prePrepare ∧ 1 < tiedProposal.round ∧
    isValidMessage valueSignatures tiedProposal (validatorsFromCount 4) = true ∧
    (∃ m ∈ roundChangesOf tiedProposal, hasPrepared m = true) ∧
    IsHighest 2 (roundChangesOf tiedProposal) ∧
    (∃ σ : StatementOrders, justifyPrePrepareAt valueSignatures σ tiedProposal 4 = true) ∧
    ¬ BackedBy valueSignatures 4 (roundChangesOf tiedProposal) tiedProposal.lambda 2
      tiedProposal.value ∧
    ¬ Protected valueSignatures 4 tiedProposal := by
  have hreport : ∃ m ∈ roundChangesOf tiedProposal, hasPrepared m = true := by
    decide +kernel
  have hhighest : IsHighest 2 (roundChangesOf tiedProposal) := by
    constructor
    · decide +kernel
    · unfold Bounds
      decide +kernel
  have haccepted : justifyPrePrepareAt valueSignatures
      ⟨.insertion, .insertion, .insertion, .first bareReport⟩ tiedProposal 4 = true := by
    decide +kernel
  have hunbacked : ¬ BackedBy valueSignatures 4 (roundChangesOf tiedProposal)
      tiedProposal.lambda 2 tiedProposal.value := by
    rintro ⟨Q, hcard, hQ⟩
    have hnone : ∀ rc ∈ roundChangesOf tiedProposal, ∀ p ∈ rc.justification,
        backsPrepared valueSignatures 1 2 "B" 4 p = false := by
      decide +kernel
    have hpos : 0 < Q.card := lt_of_lt_of_le (by decide) hcard
    obtain ⟨i, hi⟩ := Finset.card_pos.mp hpos
    obtain ⟨rc, hrc, p, hp, -, hbacks⟩ := hQ i hi
    exact Bool.false_ne_true ((hnone rc hrc p hp).symm.trans hbacks)
  refine ⟨rfl, by decide, by decide +kernel, hreport, hhighest, ⟨_, haccepted⟩, hunbacked, ?_⟩
  intro hprotected
  exact hunbacked (hprotected _ haccepted hreport 2 hhighest)

end Ibft
end DistributedConsensus
