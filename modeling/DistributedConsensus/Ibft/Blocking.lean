import DistributedConsensus.Foundations.DictSums
import DistributedConsensus.Ibft.Actions
import DistributedConsensus.Ibft.RangeOrders

/-!
# IBFT: round changes that arrive after a justified quorum

`handleRoundChange` stores a round change after looking at that message alone, and
`JustifyRoundChange` judges all stored ones: it takes a report of the highest prepared
round and asks for the prepare messages that back it.  A report needs no prepare
messages to be stored, so a round change may undo the justification of a round.  The
round stays justified, under every order of the range statements, exactly if the highest
reports of the larger set are backed (`justified_after_iff`).
-/

namespace DistributedConsensus
namespace Ibft

open Foundations

variable {keys : SignatureScheme}

/-! ## What the handler stores -/

namespace Node

/-- The round changes that are stored for a round. -/
def reportsFor (n : Node) (round : Int) : Dict Int Message :=
  n.roundChangeMessages.getD round Dict.empty

/-- Only the round and its bookkeeping change; a round that has not passed does not
pass. -/
structure KeepsReports (round : Int) (n n' : Node) : Prop where
  roundChangeMessages : n'.roundChangeMessages = n.roundChangeMessages
  lambda : n'.lambda = n.lambda
  validators : n'.validators = n.validators
  currentRound : n.currentRound ≤ round → n'.currentRound ≤ round

section Keeps

variable {ρ : MapOrders} {round : Int}

theorem KeepsReports.refl (n : Node) : KeepsReports round n n := ⟨rfl, rfl, rfl, fun hle => hle⟩

theorem KeepsReports.trans
    {n n' n'' : Node}
    (h : KeepsReports round n n')
    (h' : KeepsReports round n' n'') :
    KeepsReports round n n'' :=
  ⟨h'.roundChangeMessages.trans h.roundChangeMessages, h'.lambda.trans h.lambda,
    h'.validators.trans h.validators, fun hle => h'.currentRound (h.currentRound hle)⟩

theorem enterRound_keeps (n : Node) (round : Int) :
    KeepsReports round n (n.enterRound round) := by
  unfold enterRound
  split
  case isTrue => exact KeepsReports.refl n
  case isFalse =>
    simp only [startTimer_eq]
    exact ⟨rfl, rfl, rfl, fun _ => le_rfl⟩

theorem broadcastRoundChange_keeps (n : Node) (target : Int) (net : Network) :
    KeepsReports round n (n.broadcastRoundChange keys ρ target net).1 := by
  unfold broadcastRoundChange
  split <;> exact ⟨rfl, rfl, rfl, fun hle => hle⟩

theorem propose_keeps (n : Node) (value : String) (net : Network) (target : Int) :
    KeepsReports round n (n.propose keys ρ value net target).1 := by
  unfold propose
  split
  · exact KeepsReports.refl n
  · unfold proposeEquivocating
    split_ifs <;> exact ⟨rfl, rfl, rfl, fun hle => hle⟩
  · simp only [startTimer_eq]
    split_ifs <;> exact ⟨rfl, rfl, rfl, fun hle => hle⟩

theorem followRoundChange_keeps (n : Node) (count : Nat) (net : Network) :
    KeepsReports round n (n.followRoundChange keys ρ round count net).1 := by
  unfold followRoundChange
  split
  case isTrue =>
    exact (enterRound_keeps n round).trans (broadcastRoundChange_keeps _ round net)
  case isFalse => exact KeepsReports.refl n

theorem openRound_keeps (n : Node) (count : Nat) (net : Network) :
    KeepsReports round n (n.openRound keys ρ round count net).1 := by
  unfold openRound
  have henter : KeepsReports round n
      (if round > n.currentRound then n.enterRound round else n) := by
    split
    case isTrue => exact enterRound_keeps n round
    case isFalse => exact KeepsReports.refl n
  simp only
  generalize hentered : (if round > n.currentRound then n.enterRound round else n) = n' at henter ⊢
  split_ifs
  · exact KeepsReports.refl n
  · exact KeepsReports.refl n
  · exact henter.trans (propose_keeps n' n'.inputValue net round)
  · exact henter

end Keeps

/-- A valid round change of the instance, for a round. -/
structure AcceptsReport (keys : SignatureScheme) (lambda round : Int) (validatorCount : Nat)
    (msg : Message) : Prop where
  valid : isValidMessage keys msg (validatorsFromCount validatorCount) = true
  type : msg.type = .roundChange
  lambda : msg.lambda = lambda
  round : msg.round = round

/-- A valid report is of an earlier round, and has a value if it has a round. -/
theorem AcceptsReport.acceptable
    {lambda round : Int} {n : Nat} {msg : Message}
    (h : AcceptsReport keys lambda round n msg) :
    acceptableRoundChange keys lambda round n msg = true ∧
      ¬ (msg.preparedRound ≠ noPreparedRound ∧ msg.preparedRound ≥ msg.round) := by
  obtain ⟨-, -, -, hcontent⟩ := isValidMessage_spec h.valid
  unfold isValidContent at hcontent
  rw [h.type] at hcontent
  simp only at hcontent
  split at hcontent
  case isTrue => cases hcontent
  case isFalse hearlier =>
    split at hcontent
    case isTrue => cases hcontent
    case isFalse hboth =>
      refine ⟨?_, hearlier⟩
      unfold acceptableRoundChange
      simp only [h.valid, h.type, h.lambda, h.round, Bool.not_true, Bool.false_eq_true, if_false,
        ne_eq, not_true_eq_false, or_self]
      rw [if_neg (by rw [← h.round]; exact hearlier), if_neg hboth]

/-- The handler stores the message under its sender, and nothing else that it does
touches the stored ones. -/
theorem handleRoundChange_stores
    {n : Node} {round : Int} {msg : Message} (ρ : MapOrders) (net : Network)
    (h : AcceptsReport keys n.lambda round n.validators.length msg)
    (hround : n.currentRound ≤ round) :
    (n.handleRoundChange keys ρ msg net).1.reportsFor round =
        (n.reportsFor round).set msg.fromId msg ∧
      (n.handleRoundChange keys ρ msg net).1.lambda = n.lambda ∧
      (n.handleRoundChange keys ρ msg net).1.validators = n.validators ∧
      (n.handleRoundChange keys ρ msg net).1.currentRound ≤ round := by
  have hkeeps : KeepsReports round (n.recordRoundChange msg)
      (n.handleRoundChange keys ρ msg net).1 := by
    unfold handleRoundChange
    rw [if_neg (not_not.mpr h.lambda)]
    simp only
    rw [if_neg (by rw [h.round]; omega), if_neg h.acceptable.2, h.round]
    exact (followRoundChange_keeps _ _ net).trans (openRound_keeps _ _ _)
  refine ⟨?_, hkeeps.lambda, hkeeps.validators, hkeeps.currentRound hround⟩
  rw [reportsFor, hkeeps.roundChangeMessages, recordRoundChange, h.round, Dict.getD_set,
    if_pos rfl]
  rfl

/-- Handle round changes one after the other. -/
def handleRoundChanges (keys : SignatureScheme) (n : Node) (net : Network)
    (extra : List (MapOrders × Message)) : Node × Network :=
  extra.foldl (fun s e => s.1.handleRoundChange keys e.1 e.2 s.2) (n, net)

/-- The stored round changes after accepted ones have been handled. -/
theorem reportsFor_handleRoundChanges
    {extra : List (MapOrders × Message)} {n : Node} {round : Int} (net : Network)
    (haccepts : ∀ e ∈ extra, AcceptsReport keys n.lambda round n.validators.length e.2)
    (hround : n.currentRound ≤ round) :
    (handleRoundChanges keys n net extra).1.reportsFor round =
      extra.foldl (fun d e => d.set e.2.fromId e.2) (n.reportsFor round) := by
  induction extra generalizing n net with
  | nil => rfl
  | cons e extra ih =>
      obtain ⟨hstores, hlambda, hvalidators, hround'⟩ :=
        handleRoundChange_stores e.1 net (haccepts e List.mem_cons_self) hround
      have haccepts' : ∀ e' ∈ extra,
          AcceptsReport keys (n.handleRoundChange keys e.1 e.2 net).1.lambda round
            (n.handleRoundChange keys e.1 e.2 net).1.validators.length e'.2 := by
        rw [hlambda, hvalidators]
        exact fun e' he' => haccepts e' (List.mem_cons_of_mem e he')
      rw [List.foldl_cons, ← hstores]
      exact ih _ haccepts' hround'

end Node

/-! ## When a larger set stays justified -/

section Growing

variable {lambda round : Int} {n : Nat}

/-- The highest reports of a set are backed by prepare messages in it. -/
def HighestBacked (keys : SignatureScheme) (n : Nat) (lambda : Int) (rcs : List Message) : Prop :=
  ∀ m ∈ rcs, hasPrepared m = true → Bounds m.preparedRound rcs →
    BackedBy keys n rcs lambda m.preparedRound m.preparedValue

/-- A quorum of acceptable round changes is justified under every order exactly if its
highest reports are backed. -/
theorem justified_iff_highestBacked
    {qrc : Dict Int Message}
    (hquorum : quorumSize n ≤ qrc.size)
    (hacceptable : ∀ m ∈ qrc.values, acceptableRoundChange keys lambda round n m = true) :
    (∀ σ, justifyRoundChangeAt keys σ qrc lambda round n = true) ↔
      HighestBacked keys n lambda qrc.values := by
  constructor
  · intro hjust m hm hprep hbounds
    -- an order that visits the report first
    have hfirst := justifyRoundChangeAt_iff.mp
      (hjust ⟨.insertion, .first m, .insertion, .insertion⟩)
    rcases hfirst.2.2 with hnone | ⟨-, hbacked⟩
    · rw [hnone m hm] at hprep
      cases hprep
    · simp only [highestPrepared_first hm hprep hbounds] at hbacked
      exact hbacked
  · intro hbacked σ
    rw [justifyRoundChangeAt_iff]
    refine ⟨hquorum, hacceptable, ?_⟩
    by_cases hnone : ∀ m ∈ qrc.values, hasPrepared m = false
    · exact Or.inl hnone
    · push Not at hnone
      obtain ⟨m, hm, hprep⟩ := hnone
      rw [ne_eq, Bool.not_eq_false] at hprep
      have hfound := (le_highestPrepared (ρ := ⟨σ.checked, σ.counted⟩) hm hprep).1
      obtain ⟨top, htop, htopprep, hbounds, hround, hvalue⟩ := highestPrepared_tops hfound
      rw [hround, hvalue]
      exact Or.inr ⟨hfound, hbacked top htop htopprep hbounds⟩

/-- Storing keeps the senders, and every stored message was there or is new. -/
theorem stored_spec (extra : List (MapOrders × Message)) (qrc : Dict Int Message) :
    qrc.size ≤ (extra.foldl (fun d e => d.set e.2.fromId e.2) qrc).size ∧
      ∀ m ∈ (extra.foldl (fun d e => d.set e.2.fromId e.2) qrc).values,
        m ∈ qrc.values ∨ ∃ e ∈ extra, m = e.2 := by
  induction extra generalizing qrc with
  | nil => exact ⟨le_rfl, fun m hm => Or.inl hm⟩
  | cons e extra ih =>
      obtain ⟨hsize, hvalues⟩ := ih (qrc.set e.2.fromId e.2)
      refine ⟨le_trans ?_ hsize, fun m hm => ?_⟩
      · exact Dict.size_le_size_set qrc e.2.fromId e.2
      · rcases hvalues m hm with hmem | ⟨e', he', rfl⟩
        · rcases Dict.mem_values_set hmem with rfl | hold
          · exact Or.inr ⟨e, List.mem_cons_self, rfl⟩
          · exact Or.inl hold
        · exact Or.inr ⟨e', List.mem_cons_of_mem e he', rfl⟩

end Growing

/-- **A justified round may be blocked.**  Let the round changes that a validator has
stored for a round be justified, and let it handle further valid round changes of that
round.  What is stored then is justified, under every order of the range statements,
exactly if its highest reports are backed by prepare messages. -/
theorem justified_after_iff
    (keys : SignatureScheme) (v : Node) (net : Network) (round : Int) (σ : StatementOrders)
    (extra : List (MapOrders × Message))
    (hround : v.currentRound ≤ round)
    (hjust : justifyRoundChangeAt keys σ (v.reportsFor round) v.lambda round
      v.validators.length = true)
    (haccepts : ∀ e ∈ extra, Node.AcceptsReport keys v.lambda round v.validators.length e.2) :
    (∀ σ', justifyRoundChangeAt keys σ' ((v.handleRoundChanges keys net extra).1.reportsFor round)
        v.lambda round v.validators.length = true) ↔
      HighestBacked keys v.validators.length v.lambda
        ((v.handleRoundChanges keys net extra).1.reportsFor round).values := by
  obtain ⟨hquorum, hacceptable, -⟩ := justifyRoundChangeAt_iff.mp hjust
  rw [Node.reportsFor_handleRoundChanges net haccepts hround]
  obtain ⟨hsize, hvalues⟩ := stored_spec extra (v.reportsFor round)
  refine justified_iff_highestBacked (hquorum.trans hsize) fun m hm => ?_
  rcases hvalues m hm with hold | ⟨e, he, rfl⟩
  · exact hacceptable m hold
  · exact (haccepts e he).acceptable.1

/-! ## Round changes to round 3 of four validators -/

/-- The messages in the order in which they are handled. -/
def inTurn (msgs : List Message) : List (MapOrders × Message) :=
  msgs.map fun msg => (⟨.insertion, .insertion⟩, msg)

def quietNetwork : Network := ⟨[0, 1, 2, 3], []⟩

/-- The leader of round 3, which has the round changes of the validators 0, 1 and 2. -/
def informedLeader : Node :=
  (Node.handleRoundChanges valueSignatures (newNode 2 (validatorsFromCount 4)) quietNetwork
    (inTurn [emptyReport 0, emptyReport 1, emptyReport 2])).1

/-- The report of validator 3, with the prepare messages of a quorum. -/
def lateReport : Message := reportOf 3 2 "A" ([0, 1, 2].map (prepareOf "A"))

/-- The report of validator 3, with no prepare messages. -/
def bareLateReport : Message := reportOf 3 2 "B" []

theorem acceptsReport_of_decide
    {keys : SignatureScheme} {lambda round : Int} {n : Nat} {msg : Message}
    (h : isValidMessage keys msg (validatorsFromCount n) = true ∧ msg.type = .roundChange ∧
      msg.lambda = lambda ∧ msg.round = round) :
    Node.AcceptsReport keys lambda round n msg :=
  ⟨h.1, h.2.1, h.2.2.1, h.2.2.2⟩

/-- A late report that brings its prepare messages keeps the round justified. -/
theorem justified_after_iff_sample :
    HighestBacked valueSignatures 4 1 ((informedLeader.handleRoundChanges valueSignatures
        quietNetwork (inTurn [lateReport])).1.reportsFor 3).values ∧
      ∀ σ, justifyRoundChangeAt valueSignatures σ
        ((informedLeader.handleRoundChanges valueSignatures quietNetwork
          (inTurn [lateReport])).1.reportsFor 3) 1 3 4 = true := by
  have haccepts : ∀ e ∈ inTurn [lateReport], Node.AcceptsReport valueSignatures
      informedLeader.lambda 3 informedLeader.validators.length e.2 := by
    intro e he
    obtain ⟨msg, hmsg, rfl⟩ := List.mem_map.mp he
    rw [List.mem_singleton.mp hmsg]
    exact acceptsReport_of_decide (by decide +kernel)
  have hbacked : HighestBacked valueSignatures 4 1 ((informedLeader.handleRoundChanges
      valueSignatures quietNetwork (inTurn [lateReport])).1.reportsFor 3).values := by
    intro m hm hprep _
    have honly : ∀ m ∈ ((informedLeader.handleRoundChanges valueSignatures quietNetwork
        (inTurn [lateReport])).1.reportsFor 3).values, hasPrepared m = true → m = lateReport := by
      decide +kernel
    have hquorum : hasPrepareQuorumForHighestPrepared valueSignatures ⟨.insertion, .insertion⟩
        ((informedLeader.handleRoundChanges valueSignatures quietNetwork
          (inTurn [lateReport])).1.reportsFor 3) 1 2 "A" 4 = true := by
      decide +kernel
    rw [honly m hm hprep]
    exact hasPrepareQuorum_iff_backedBy.mp hquorum
  exact ⟨hbacked, (justified_after_iff valueSignatures informedLeader quietNetwork 3
    ⟨.insertion, .insertion, .insertion, .insertion⟩ (inTurn [lateReport]) (by decide +kernel)
    (by decide +kernel) haccepts).mpr hbacked⟩

/-- **One bare report undoes the justification.**  The leader has proposed once a quorum
has sent round changes; the report of validator 3 is accepted and the round is justified
under no order any more.  If that report comes before the last of the quorum, the leader
never proposes. -/
theorem not_justified_after :
    (∀ σ, justifyRoundChangeAt valueSignatures σ (informedLeader.reportsFor 3) 1 3 4 = true) ∧
      Node.AcceptsReport valueSignatures 1 3 4 bareLateReport ∧
      bareLateReport.fromId ∉ (informedLeader.reportsFor 3).keys ∧
      (∀ σ, justifyRoundChangeAt valueSignatures σ
        ((informedLeader.handleRoundChanges valueSignatures quietNetwork
          (inTurn [bareLateReport])).1.reportsFor 3) 1 3 4 = false) ∧
      informedLeader.prePrepareSent.getD 3 false = true ∧
      ((Node.handleRoundChanges valueSignatures (newNode 2 (validatorsFromCount 4)) quietNetwork
        (inTurn [emptyReport 0, emptyReport 1, bareLateReport,
          emptyReport 2])).1.prePrepareSent.getD 3 false) = false := by
  refine ⟨fun σ => ?_, acceptsReport_of_decide (by decide +kernel), by decide +kernel, fun σ => ?_,
    by decide +kernel, by decide +kernel⟩
  · exact justifyRoundChangeAt_iff.mpr ⟨by decide +kernel, by decide +kernel,
      Or.inl (by decide +kernel)⟩
  · rw [← Bool.not_eq_true, justifyRoundChangeAt_iff]
    have honly : ∀ m ∈ ((informedLeader.handleRoundChanges valueSignatures quietNetwork
        (inTurn [bareLateReport])).1.reportsFor 3).values,
          hasPrepared m = true → m = bareLateReport := by
      decide +kernel
    rintro ⟨-, -, hnone | ⟨hfound, Q, hcard, hQ⟩⟩
    · exact absurd hnone (by decide +kernel)
    · obtain ⟨m, hm, hprep, -, hround, hvalue⟩ := highestPrepared_tops hfound
      obtain rfl := honly m hm hprep
      have hpos : 0 < Q.card := lt_of_lt_of_le (by decide) hcard
      obtain ⟨i, hi⟩ := Finset.card_pos.mp hpos
      obtain ⟨rc, hrc, p, hp, -, hbacks⟩ := hQ i hi
      rw [hround, hvalue] at hbacks
      have hbare : ∀ rc ∈ ((informedLeader.handleRoundChanges valueSignatures quietNetwork
          (inTurn [bareLateReport])).1.reportsFor 3).values, rc.justification = [] := by
        decide +kernel
      rw [hbare rc hrc] at hp
      cases hp

end Ibft
end DistributedConsensus
