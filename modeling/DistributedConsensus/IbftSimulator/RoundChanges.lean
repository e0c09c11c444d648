import DistributedConsensus.IbftSimulator.Voting
import Mathlib.Order.Bounds.Basic

/-!
# IBFT simulator: round changes

Two things happen when ROUND-CHANGE messages arrive.  The leader of the round
proposes the highest prepared value of the stored messages, and a validator computes
that value again from the proof in the proposal.  A node that is behind moves to its
next round whenever the messages stored for one later round come from `f + 1` senders.
-/

namespace DistributedConsensus
namespace IbftSimulator

open Foundations

namespace IBFTNode

variable {n v : IBFTNode} {o o' : MapOrder ℤ} {m : RoundChange} {p : PrePrepare}

/-- The node handles ROUND-CHANGE messages, each with an order of its maps. -/
def handleRoundChanges (n : IBFTNode) (msgs : List (MapOrder ℤ × RoundChange)) : IBFTNode :=
  msgs.foldl (fun n x => n.handleMessage x.1 (.roundChange x.2)) n

/-! ## The value of the next leader -/

/-- A leader replaces the justified value in this case. -/
def IsMalicious (n : IBFTNode) : Prop := n.round = 2 ∧ n.id = 2

/-- The node sends the proposal when it handles the message. -/
def ProposesOn (n : IBFTNode) (o : MapOrder ℤ) (m : RoundChange) (p : PrePrepare) : Prop :=
  (n.handleMessage o (.roundChange m)).sent = n.sent ++ [.prePrepare p]

/-- A validator in the same instance and round as the leader, with the same input value,
that has not prepared in the round. -/
structure Follows (n v : IBFTNode) : Prop where
  online : v.isOffline = false
  key : n.id ∈ v.peerPublicKeys
  validators : v.validators = n.validators
  lambda : v.lambda = n.lambda
  round : v.round = n.round
  inputValue : v.inputValue = n.inputValue
  unprepared : v.pr ≠ v.round

/-- The validator answers the proposal with a PREPARE for its value. -/
def Accepts (v : IBFTNode) (o : MapOrder ℤ) (p : PrePrepare) : Prop :=
  v.handleMessage o (.prePrepare p)
    = v.broadcast (.prepare ⟨v.lambda, v.round, p.value, v.id, none⟩)

/-- The highest prepared value is empty only if it is the default. -/
theorem highestPrepared_cases (default : String) (msgs : List RoundChange) :
    (highestPrepared default msgs).2 = default ∨ (highestPrepared default msgs).2 ≠ "" := by
  obtain ⟨-, -, heq | ⟨m, -, heq, hne, -⟩⟩ := highestPrepared_foldl msgs (-1, default)
  · left
    unfold highestPrepared
    rw [heq]
  · right
    unfold highestPrepared
    rw [heq]
    exact hne

/-- A leader proposes the justified value. -/
theorem proposeValue_highestPrepared (msgs : List RoundChange) :
    n.proposeValue (highestPrepared n.inputValue msgs).2
      = (highestPrepared n.inputValue msgs).2 := by
  unfold proposeValue
  split
  case isTrue => rfl
  case isFalse hsame =>
    rcases highestPrepared_cases n.inputValue msgs with heq | hne
    · exact heq.symm
    · rw [not_and, not_not] at hsame
      exact (hsame hne).symm

/-- The list of the proof has an entry for every stored message. -/
theorem length_getRCProof (n : IBFTNode) (o : MapOrder ℤ) :
    (n.getRCProof o).1.length = (n.roundChanges n.round).size := by
  unfold getRCProof Dict.size
  rw [List.length_map]
  exact (Dict.inOrder_perm _ o).length_eq

/-- What a leader sends after the first round. -/
theorem sent_lead
    (hround : 1 < n.round)
    (hhonest : ¬n.IsMalicious)
    (hleader : n.isLeader = true) (o : MapOrder ℤ) :
    (n.lead o).sent = n.sent ++ [.prePrepare ⟨n.lambda, n.round,
      (highestPrepared n.inputValue (n.getRCProof o).1).2, n.id, some n.id,
      (n.getRCProof o).1⟩] := by
  have hne : n.round ≠ 1 := by omega
  have hmode : ¬(n.round = 2 ∧ n.id = 2) := hhonest
  have hinput : (({ n with lastStartedRound := n.round } : IBFTNode).enter n.lambda
      n.round).inputValue = n.inputValue := if_neg hne
  have hvalue : (({ n with lastStartedRound := n.round } : IBFTNode).enter n.lambda
      n.round).proposeValue (n.getRCProof o).2
      = (highestPrepared n.inputValue (n.getRCProof o).1).2 := by
    rw [← proposeValue_highestPrepared]
    simp only [proposeValue, hinput]
    rfl
  have hstart : n.lead o = (({ n with lastStartedRound := n.round } : IBFTNode).enter n.lambda
      n.round).broadcast (.prePrepare ⟨n.lambda, n.round,
        (({ n with lastStartedRound := n.round } : IBFTNode).enter n.lambda
          n.round).proposeValue (n.getRCProof o).2, n.id, none, (n.getRCProof o).1⟩) := by
    simp only [lead, if_neg hmode, start]
    exact if_pos hleader
  rw [hstart, hvalue]
  rfl

/-- The proposal of a leader, unless it is malicious. -/
theorem ProposesOn.spec
    (hround : 1 < n.round)
    (hhonest : ¬n.IsMalicious)
    (h : n.ProposesOn o m p) :
    n.quorum ≤ p.proofRC.length ∧
      p = ⟨n.lambda, n.round, (highestPrepared n.inputValue p.proofRC).2, n.id, some n.id,
        p.proofRC⟩ := by
  have hquiet : ∀ l : List IBFTMessage, l ≠ l ++ [.prePrepare p] := by
    intro l heq
    have := congrArg List.length heq
    simp at this
  unfold ProposesOn handleMessage at h
  split at h
  case isTrue => exact absurd h (hquiet _)
  case isFalse =>
    split at h
    case isTrue => exact absurd h (hquiet _)
    case isFalse =>
      simp only [handleRoundChange] at h
      split at h
      case isTrue =>
        -- Joining a round sends a ROUND-CHANGE.
        unfold onTimerExpire at h
        split at h
        case isTrue => exact absurd h (hquiet _)
        case isFalse =>
          have hlast := List.append_cancel_left h
          cases hlast
      case isFalse =>
        split at h
        case isFalse => exact absurd h (hquiet _)
        case isTrue hlead =>
          rw [sent_lead (n := n.store m) hround hhonest hlead.1] at h
          have hlast := List.append_cancel_left h
          rw [List.cons.injEq, IBFTMessage.prePrepare.injEq] at hlast
          obtain ⟨rfl, -⟩ := hlast
          refine ⟨?_, rfl⟩
          rw [length_getRCProof]
          exact hlead.2.1

/-- **Leader and validators agree on the justified value.**  Whatever the order in
which the leader iterates over the stored messages, every validator that follows the
leader accepts the proposal. -/
theorem accepts_of_proposesOn
    (hround : 1 < n.round)
    (hhonest : ¬n.IsMalicious)
    (hp : n.ProposesOn o m p)
    (hv : n.Follows v) :
    v.Accepts o' p := by
  obtain ⟨hquorum, heq⟩ := hp.spec hround hhonest
  have hpround : p.round = n.round := by rw [heq]
  have hsender : p.senderID = n.id := by rw [heq]
  have hsigner : p.signer = some n.id := by rw [heq]
  have hvalue : p.value = v.getValueFromProof p.proofRC := by
    unfold getValueFromProof
    rw [hv.inputValue, heq]
  have hsize : ¬p.proofRC.length < v.quorum := by
    unfold quorum
    rw [hv.validators]
    exact not_lt.mpr hquorum
  have hverifies : v.verifies (.prePrepare p) = true := by
    simp only [verifies, IBFTMessage.senderID, IBFTMessage.signer, hsender, hsigner, hv.key]
    simp
  unfold Accepts handleMessage
  rw [if_neg (by rw [hv.online]; exact Bool.false_ne_true), if_neg (by rw [hverifies]; simp)]
  simp only [handlePrePrepare]
  rw [if_neg (by rw [hpround, hv.round]; simp), if_neg hv.unprepared,
    if_neg fun h => hsize h.2, if_neg fun h => h.2 hvalue]

section Example

/-- A node of four at the start of a block. -/
def fresh (id : ℤ) : IBFTNode := new id (blockValue 1) [0, 1, 2, 3] ⟨false, false, false⟩

/-- A request of a node that has prepared nothing for a round. -/
def request (lambda round id : ℤ) : RoundChange := ⟨lambda, round, id, some id, -1, ""⟩

/-- Messages that are handled with maps iterated in the order of insertion. -/
def inTurn (msgs : List RoundChange) : List (MapOrder ℤ × RoundChange) :=
  msgs.map fun m => (MapOrder.insertion ℤ, m)

/-- Node 3 in round 2 of the first block, with two stored messages. -/
def secondLeader : IBFTNode :=
  (fresh 3).onTimerExpire.handleRoundChanges (inTurn [request 1 2 0, request 1 2 1])

/-- The third message makes node 3 propose. -/
def secondProposal : PrePrepare :=
  ⟨1, 2, blockValue 1, 3, some 3, [request 1 2 0, request 1 2 1, request 1 2 2]⟩

theorem accepts_of_proposesOn_second :
    secondLeader.ProposesOn (MapOrder.insertion ℤ) (request 1 2 2) secondProposal ∧
      (fresh 0).onTimerExpire.Accepts (MapOrder.insertion ℤ) secondProposal := by
  have hp : secondLeader.ProposesOn (MapOrder.insertion ℤ) (request 1 2 2) secondProposal := by
    unfold ProposesOn
    decide +kernel
  refine ⟨hp, accepts_of_proposesOn (n := secondLeader) ?_ ?_ hp ?_⟩
  · decide +kernel
  · unfold IsMalicious
    decide +kernel
  · constructor <;> decide +kernel

/-- Node 2 in round 2 of the fourth block, with two stored messages. -/
def fourthLeader : IBFTNode :=
  (fresh 2).nextInstance.nextInstance.nextInstance.onTimerExpire.handleRoundChanges
    (inTurn [request 4 2 0, request 4 2 1])

/-- The proposal of node 2 has another value than the proof. -/
def fourthProposal : PrePrepare :=
  ⟨4, 2, "ZLONAMERNA_VREDNOST", 2, some 2, [request 4 2 0, request 4 2 1, request 4 2 2]⟩

/-- **A rejected proposal.**  Node 2 leads round 2 of the fourth block. -/
theorem not_accepts_of_proposesOn :
    ¬∀ (n v : IBFTNode) (o o' : MapOrder ℤ) (m : RoundChange) (p : PrePrepare),
      1 < n.round → n.ProposesOn o m p → n.Follows v → v.Accepts o' p := by
  intro hall
  have hp : fourthLeader.ProposesOn (MapOrder.insertion ℤ) (request 4 2 2) fourthProposal := by
    unfold ProposesOn
    decide +kernel
  have hv : fourthLeader.Follows
      (fresh 0).nextInstance.nextInstance.nextInstance.onTimerExpire := by
    constructor <;> decide +kernel
  have haccepts := congrArg IBFTNode.sent
    (hall _ _ _ (MapOrder.insertion ℤ) _ _ (by decide +kernel) hp hv)
  revert haccepts
  decide +kernel

end Example

/-! ## Catching up -/

/-- The messages that bring the senders stored for their own round to `f + 1` or above. -/
def joins : IBFTNode → List (MapOrder ℤ × RoundChange) → ℕ
  | _, [] => 0
  | n, x :: msgs =>
      (if n.fPlusOne ≤ ((n.store x.2).roundChanges x.2.round).size then 1 else 0) +
        joins (n.store x.2) msgs

/-- An undecided node, and valid ROUND-CHANGE messages of `f + 1` validators for later
rounds, of which `b` is the smallest. -/
structure Behind (n : IBFTNode) (msgs : List (MapOrder ℤ × RoundChange)) (b : ℤ) : Prop where
  undecided : n.decided = false
  valid : ∀ x ∈ msgs, n.verifies (.roundChange x.2) = true
  senders : n.fPlusOne ≤ (msgs.map fun x => x.2.senderID).toFinset.card
  above : ∀ x ∈ msgs, n.round < x.2.round
  least : IsLeast {r | ∃ x ∈ msgs, x.2.round = r} b

/-- Only the stored messages and the validators count. -/
theorem joins_congr
    {n' : IBFTNode} {msgs : List (MapOrder ℤ × RoundChange)}
    (hstore : n'.rcStore = n.rcStore)
    (hvalidators : n'.validators = n.validators) :
    n'.joins msgs = n.joins msgs := by
  induction msgs generalizing n n' with
  | nil => rfl
  | cons x msgs ih =>
      have hrcStore : (n'.store x.2).rcStore = (n.store x.2).rcStore := by
        simp only [store, roundChanges, hstore]
      have hcount : ((n'.store x.2).roundChanges x.2.round).size
          = ((n.store x.2).roundChanges x.2.round).size := by
        simp only [roundChanges, hrcStore]
      have hquota : n'.fPlusOne = n.fPlusOne := by
        simp only [fPlusOne, hvalidators]
      rw [joins, joins, hcount, hquota, ih hrcStore hvalidators]

/-- The data of a node that a ROUND-CHANGE message leaves as it is, apart from the
stored message. -/
structure Keeps (n n' : IBFTNode) : Prop where
  rcStore : n'.rcStore = n.rcStore
  validators : n'.validators = n.validators
  peerPublicKeys : n'.peerPublicKeys = n.peerPublicKeys
  decided : n'.decided = n.decided
  isOffline : n'.isOffline = n.isOffline

theorem lead_keeps (n : IBFTNode) (o : MapOrder ℤ) :
    n.Keeps (n.lead o) ∧ (n.lead o).round = n.round := by
  simp only [lead, start]
  split <;> exact ⟨⟨rfl, rfl, rfl, rfl, rfl⟩, rfl⟩

/-- A ROUND-CHANGE message moves the node by one round or not at all. -/
theorem handleRoundChange_spec
    (honline : n.isOffline = false)
    (hundecided : n.decided = false) (o : MapOrder ℤ) (m : RoundChange) :
    (n.store m).Keeps (n.handleRoundChange o m) ∧
      (n.handleRoundChange o m).round =
        if m.round > n.round ∧ n.fPlusOne ≤ ((n.store m).roundChanges m.round).size
        then n.round + 1 else n.round := by
  have hquota : (n.store m).fPlusOne = n.fPlusOne := rfl
  have hround : (n.store m).round = n.round := rfl
  simp only [handleRoundChange, hquota, hround]
  split
  case isTrue =>
    have hactive : ¬((n.store m).isOffline ∨ (n.store m).decided) := by
      simp [store, honline, hundecided]
    rw [onTimerExpire, if_neg hactive]
    exact ⟨⟨rfl, rfl, rfl, rfl, rfl⟩, rfl⟩
  case isFalse =>
    split
    case isTrue => exact lead_keeps _ o
    case isFalse => exact ⟨⟨rfl, rfl, rfl, rfl, rfl⟩, rfl⟩

/-- An offline node handles nothing. -/
theorem handleRoundChanges_offline
    (hoffline : n.isOffline = true) (msgs : List (MapOrder ℤ × RoundChange)) :
    n.handleRoundChanges msgs = n := by
  induction msgs with
  | nil => rfl
  | cons x msgs ih =>
      have hsame : n.handleMessage x.1 (.roundChange x.2) = n := by
        unfold handleMessage
        rw [if_pos hoffline]
      rw [handleRoundChanges, List.foldl_cons, hsame]
      exact ih

/-- **The rounds of a node that is behind.**  As long as the node is behind all
messages, each message that completes `f + 1` senders for its round moves it by one
round. -/
theorem le_round_handleRoundChanges_iff
    {msgs : List (MapOrder ℤ × RoundChange)} {b : ℤ}
    (honline : n.isOffline = false)
    (hundecided : n.decided = false)
    (hvalid : ∀ x ∈ msgs, n.verifies (.roundChange x.2) = true)
    (hfloor : ∀ x ∈ msgs, b ≤ x.2.round) :
    b ≤ (n.handleRoundChanges msgs).round ↔ b ≤ n.round + n.joins msgs := by
  induction msgs generalizing n with
  | nil => simp [handleRoundChanges, joins]
  | cons x msgs ih =>
      obtain ⟨hkeeps, hround⟩ := handleRoundChange_spec honline hundecided x.1 x.2
      have hhandle : n.handleMessage x.1 (.roundChange x.2) = n.handleRoundChange x.1 x.2 := by
        have hx := hvalid x List.mem_cons_self
        unfold handleMessage
        rw [if_neg (by rw [honline]; exact Bool.false_ne_true), if_neg (by rw [hx]; simp)]
      have hverifies : ∀ y ∈ msgs,
          (n.handleRoundChange x.1 x.2).verifies (.roundChange y.2) = true := by
        intro y hy
        have := hvalid y (List.mem_cons_of_mem _ hy)
        simp only [verifies, hkeeps.peerPublicKeys] at this ⊢
        exact this
      have hjoins : (n.handleRoundChange x.1 x.2).joins msgs = (n.store x.2).joins msgs :=
        joins_congr hkeeps.rcStore hkeeps.validators
      have htail := ih (hkeeps.isOffline.trans honline) (hkeeps.decided.trans hundecided)
        hverifies fun y hy => hfloor y (List.mem_cons_of_mem _ hy)
      have hx := hfloor x List.mem_cons_self
      rw [handleRoundChanges, List.foldl_cons, hhandle]
      change b ≤ (IBFTNode.handleRoundChanges _ msgs).round ↔ _
      rw [htail, hjoins, hround, joins]
      by_cases hsupport : n.fPlusOne ≤ ((n.store x.2).roundChanges x.2.round).size
      · by_cases hlater : x.2.round > n.round
        · rw [if_pos ⟨hlater, hsupport⟩, if_pos hsupport]
          push_cast
          omega
        · rw [if_neg fun h => hlater h.1, if_pos hsupport]
          push_cast
          omega
      · rw [if_neg fun h => hsupport h.2, if_neg hsupport]
        push_cast
        omega

section Example

/-- Nodes 1 and 2 ask for the next round. -/
theorem behind_next :
    (fresh 0).Behind (inTurn [request 1 2 1, request 1 2 2]) 2 := by
  refine ⟨rfl, by decide, by decide, by decide, ⟨_, List.mem_cons_self, rfl⟩, ?_⟩
  rintro r ⟨x, hx, rfl⟩
  revert x
  decide

end Example

end IBFTNode

end IbftSimulator
end DistributedConsensus
