import DistributedConsensus.Ibft.Node
import Mathlib.Logic.Relation

/-!
# IBFT: the atomic actions of a correct node

Every handler of a correct node is a sequence of a few atomic actions: storing
a message, accepting a proposal, committing, deciding, entering a round,
announcing it, proposing and answering with a certificate.  An action lists the
conditions under which a handler takes it.  What is proved of one action then
holds of every handler.

`K` is what is known of the received messages.
-/

namespace DistributedConsensus
namespace Ibft

open Foundations

namespace Node

/-- The node after accepting a proposal. -/
def accepted (n : Node) (value : String) : Node :=
  { n with acceptedValue := value, acceptedRound := n.currentRound, state := .prePrepared }

/-- The node after committing a value. -/
def locked (n : Node) (value : String) : Node :=
  { n with
    preparedRound := n.currentRound
    preparedValue := value
    state := .prepared
    commitSent := true }

/-- The node after deciding on a quorum of commit messages. -/
def concluded (n : Node) (value : String) (certificate : List Message) : Node :=
  { n with
    state := .decided
    decided := true
    decisionValue := value
    decisionCertificate := certificate }

/-- The node after catching up with a decision. -/
def caughtUp (n : Node) (value : String) (round : Int) (certificate : List Message) : Node :=
  { n with
    decided := true
    state := .decided
    decisionValue := value
    decisionCertificate := certificate
    preparedValue := value
    preparedRound := round
    acceptedValue := value
    acceptedRound := round }

/-- The node after entering a round. -/
def entered (n : Node) (round : Int) : Node :=
  { n with
    currentRound := round
    state := .new
    acceptedValue := ""
    acceptedRound := -1
    commitMessages := Dict.empty
    commitSent := false }

end Node

section

variable (keys : SignatureScheme) (ρ : MapOrders) (K : Message → Prop)

/-- One atomic action of a correct node. -/
inductive Action : Node × Network → Node × Network → Prop
  | timer (n : Node) (net : Network) (t : TimerState) :
      Action (n, net) ({ n with timerState := t }, net)
  | recordPrepare (n : Node) (net : Network) (msg : Message)
      (hK : K msg)
      (hvalid : isValidMessage keys msg n.validators = true)
      (htype : msg.type = .prepare) :
      Action (n, net) (n.recordPrepare msg, net)
  | recordCommit (n : Node) (net : Network) (msg : Message)
      (hK : K msg)
      (hvalid : isValidMessage keys msg n.validators = true)
      (htype : msg.type = .commit) :
      Action (n, net) (n.recordCommit msg, net)
  | recordRoundChange (n : Node) (net : Network) (msg : Message)
      (hK : K msg) :
      Action (n, net) (n.recordRoundChange msg, net)
  | accept (n : Node) (net : Network) (msg : Message)
      (hK : K msg)
      (hlambda : msg.lambda = n.lambda)
      (hround : msg.round = n.currentRound)
      (hjust : justifyPrePrepare keys ρ msg n.validators.length = true)
      (hnew : n.state = .new) :
      Action (n, net) (n.accepted msg.value,
        net.broadcast (n.signMessage keys
          (plainMessage .prepare n.id n.lambda n.currentRound msg.value)))
  | commit (n : Node) (net : Network) (value : String)
      (hquorum : quorumSize n.validators.length ≤
        (n.prepareMessages.getD (messageKey n.lambda n.currentRound value) Dict.empty).size) :
      Action (n, net) (n.locked value,
        net.broadcast (n.signMessage keys
          (plainMessage .commit n.id n.lambda n.currentRound value)))
  | conclude (n : Node) (net : Network) (value : String)
      (hquorum : quorumSize n.validators.length ≤
        (n.commitMessages.getD (messageKey n.lambda n.currentRound value) Dict.empty).size) :
      Action (n, net) (n.concluded value
        (n.commitCertificateForKey ρ (messageKey n.lambda n.currentRound value)), net)
  | catchUp (n : Node) (net : Network) (msg : Message) (value : String) (round : Int)
      (hK : K msg)
      (hcert : Node.validateCommitCertificate keys msg.justification n.lambda
        n.validators.length = some (value, round)) :
      Action (n, net) (n.caughtUp value round msg.justification, net)
  | enter (n : Node) (net : Network) (round : Int)
      (hlater : n.currentRound < round) :
      Action (n, net) (n.entered round, net)
  | roundChange (n : Node) (net : Network) (round : Int)
      (hround : round ≤ n.currentRound)
      (hundecided : n.decided = false) :
      Action (n, net) ({ n with roundChangeSent := n.roundChangeSent.set round true },
        net.broadcast (n.roundChangeMessage keys ρ round))
  | propose (n : Node) (net : Network) (round : Int) (value : String) :
      Action (n, net) ({ n with prePrepareSent := n.prePrepareSent.set round true },
        net.broadcast (n.prePrepareMessage keys ρ round value))
  | sendCertificate (n : Node) (net : Network) (toId : Int) :
      Action (n, net) (n, net.send toId (n.decisionMessage keys))

/-- Sequences of atomic actions. -/
def Actions : Node × Network → Node × Network → Prop :=
  Relation.ReflTransGen (Action keys ρ K)

end

section

variable {keys : SignatureScheme} {ρ : MapOrders} {K : Message → Prop}

namespace Actions

theorem refl (s : Node × Network) : Actions keys ρ K s s :=
  Relation.ReflTransGen.refl

theorem single
    {s t : Node × Network}
    (h : Action keys ρ K s t) :
    Actions keys ρ K s t :=
  Relation.ReflTransGen.single h

theorem trans
    {s t u : Node × Network}
    (hst : Actions keys ρ K s t)
    (htu : Actions keys ρ K t u) :
    Actions keys ρ K s u :=
  Relation.ReflTransGen.trans hst htu

end Actions

/-! ## The handlers as sequences of actions -/

namespace Node

/-- Starting the timer changes at most the timer. -/
theorem startTimer_eq (n : Node) :
    n.startTimer =
      { n with timerState := if n.decided then n.timerState else .running } := by
  unfold startTimer
  split <;> rfl

variable {n : Node} (net : Network)

theorem propose_actions
    (hmode : n.byzantineMode = .none) (value : String) (round : Int) :
    Actions keys ρ K (n, net)
      ((n.propose keys ρ value net round).1, (n.propose keys ρ value net round).2.1) := by
  unfold propose
  rw [hmode]
  simp only
  split
  · exact Actions.refl _
  · split
    · exact Actions.refl _
    · split
      · exact Actions.refl _
      · split
        · exact Actions.refl _
        · -- The timer does not enter the message, so it can be started last.
          rw [startTimer_eq]
          exact (Actions.single (Action.propose n net round
            (n.proposalValueForRound keys ρ round value).1)).trans
              (Actions.single (Action.timer _ _ _))

theorem start_actions
    (hmode : n.byzantineMode = .none) (lambda : Int) (value : String) :
    Actions keys ρ K (n.reset lambda value, net) (n.start keys ρ lambda value net) := by
  have htimer : (n.reset lambda value).startTimer =
      { n.reset lambda value with timerState := .running } := rfl
  unfold start
  rw [htimer]
  refine (Actions.single (Action.timer (n.reset lambda value) net .running)).trans ?_
  have hmode' : ({ n.reset lambda value with timerState := .running } : Node).byzantineMode =
      .none := hmode
  simp only
  split
  · exact propose_actions net hmode' _ _
  · exact Actions.refl _

theorem handlePrePrepare_actions
    {msg : Message}
    (hK : K msg) :
    Actions keys ρ K (n, net) (n.handlePrePrepare keys ρ msg net) := by
  unfold handlePrePrepare
  split
  case isTrue => exact Actions.refl _
  case isFalse hinst =>
    push Not at hinst
    split
    · exact Actions.refl _
    · split
      case isTrue => exact Actions.refl _
      case isFalse hjust =>
        split
        case isTrue => exact Actions.refl _
        case isFalse hnew =>
          have haccept : Action keys ρ K (n, net) _ :=
            Action.accept n net msg hK hinst.1 hinst.2 (by simpa using hjust) (by simpa using hnew)
          simp only
          rw [startTimer_eq, hinst.1, hinst.2]
          exact (Actions.single haccept).trans (Actions.single (Action.timer _ _ _))

theorem handlePrepare_actions
    {msg : Message}
    (hK : K msg)
    (hvalid : isValidMessage keys msg n.validators = true)
    (htype : msg.type = .prepare) :
    Actions keys ρ K (n, net) (n.handlePrepare keys msg net) := by
  unfold handlePrepare
  split
  case isTrue => exact Actions.refl _
  case isFalse hinst =>
    push Not at hinst
    split
    · exact Actions.refl _
    · refine (Actions.single (Action.recordPrepare n net msg hK hvalid htype)).trans ?_
      simp only
      split
      case isTrue hquorum =>
        rw [hinst.1, hinst.2] at hquorum ⊢
        exact Actions.single (Action.commit _ _ _ hquorum.1)
      case isFalse => exact Actions.refl _

theorem handleCommit_actions
    {msg : Message}
    (hK : K msg)
    (hvalid : isValidMessage keys msg n.validators = true)
    (htype : msg.type = .commit) :
    Actions keys ρ K (n, net) (n.handleCommit ρ msg net) := by
  unfold handleCommit
  split
  case isTrue => exact Actions.refl _
  case isFalse hinst =>
    push Not at hinst
    split
    · exact Actions.refl _
    · refine (Actions.single (Action.recordCommit n net msg hK hvalid htype)).trans ?_
      simp only
      split
      case isTrue hquorum =>
        rw [hinst.1, hinst.2] at hquorum ⊢
        exact (Actions.single (Action.conclude _ _ _ hquorum.1)).trans
          (Actions.single (Action.timer _ _ _))
      case isFalse => exact Actions.refl _

theorem handleDecisionCertificate_actions
    {msg : Message}
    (hK : K msg) :
    Actions keys ρ K (n, net) (n.handleDecisionCertificate keys msg, net) := by
  unfold handleDecisionCertificate
  split
  · exact Actions.refl _
  · split
    · exact Actions.refl _
    · split
      case h_1 => exact Actions.refl _
      case h_2 value round hcert =>
        exact (Actions.single (Action.catchUp n net msg value round hK hcert)).trans
          (Actions.single (Action.timer _ _ _))

theorem enterRound_actions
    {round : Int}
    (hlater : n.currentRound < round) :
    Actions keys ρ K (n, net) (n.enterRound round, net) := by
  unfold enterRound
  rw [if_neg (by omega)]
  simp only
  rw [startTimer_eq]
  exact (Actions.single (Action.enter n net round hlater)).trans
    (Actions.single (Action.timer _ _ _))

theorem broadcastRoundChange_actions
    {round : Int}
    (hround : round ≤ n.currentRound)
    (hundecided : n.decided = false) :
    Actions keys ρ K (n, net) (n.broadcastRoundChange keys ρ round net) := by
  unfold broadcastRoundChange
  split
  · exact Actions.refl _
  · exact Actions.single (Action.roundChange n net round hround hundecided)

/-- Entering a later round changes the round and leaves the node undecided. -/
theorem enterRound_spec
    {round : Int}
    (hlater : n.currentRound < round) :
    (n.enterRound round).currentRound = round ∧ (n.enterRound round).decided = n.decided := by
  unfold enterRound
  rw [if_neg (by omega)]
  simp only
  rw [startTimer_eq]
  exact ⟨rfl, rfl⟩

/-- Entering a later round and announcing it. -/
theorem enterRound_broadcast_actions
    {round : Int}
    (hlater : n.currentRound < round)
    (hundecided : n.decided = false) :
    Actions keys ρ K (n, net) ((n.enterRound round).broadcastRoundChange keys ρ round net) := by
  obtain ⟨hround, hdecided⟩ := enterRound_spec hlater
  exact (enterRound_actions net hlater).trans
    (broadcastRoundChange_actions net hround.ge (hdecided.trans hundecided))

theorem requestRoundChange_actions (targetRound : Int) :
    Actions keys ρ K (n, net) (n.requestRoundChange keys ρ targetRound net) := by
  unfold requestRoundChange
  split
  · exact Actions.refl _
  · split
    case isTrue => exact Actions.refl _
    case isFalse hundecided =>
      split
      case isTrue => exact Actions.refl _
      case isFalse hlater =>
        exact enterRound_broadcast_actions net (by omega) (by simpa using hundecided)

/-- The next round differs from the current one even when it wraps around. -/
theorem wrap64_succ_ne (x : Int) : wrap64 (x + 1) ≠ x := by
  intro h
  have hmod : wrap64 (x + 1) % ((2 ^ 64 : Nat) : Int) = (x + 1) % ((2 ^ 64 : Nat) : Int) :=
    Int.bmod_emod
  rw [h] at hmod
  omega

theorem onTimeout_actions :
    Actions keys ρ K (n, net) (n.onTimeout keys ρ net) := by
  unfold onTimeout
  split
  · exact Actions.refl _
  · split
    case isTrue => exact Actions.refl _
    case isFalse hundecided =>
      refine (Actions.single (Action.timer n net .expired)).trans ?_
      simp only
      have hne := wrap64_succ_ne n.currentRound
      generalize wrap64 (n.currentRound + 1) = nextRound at hne ⊢
      -- After the largest round the addition wraps around; the node then stays
      -- in its round and announces a round that no receiver accepts.
      rcases lt_trichotomy n.currentRound nextRound with hlt | heq | hgt
      · exact enterRound_broadcast_actions net hlt (by simpa using hundecided)
      · exact absurd heq.symm hne
      · have hstay : ({ n with timerState := .expired } : Node).enterRound nextRound =
            { n with timerState := .expired } := by
          unfold enterRound
          rw [if_pos hgt]
        rw [hstay]
        exact broadcastRoundChange_actions net hgt.le (by simpa using hundecided)

theorem followRoundChange_actions
    (targetRound : Int) (count : Nat)
    (hundecided : n.decided = false) :
    Actions keys ρ K (n, net) (n.followRoundChange keys ρ targetRound count net) := by
  unfold followRoundChange
  split
  case isTrue hlater => exact enterRound_broadcast_actions net hlater.1 hundecided
  case isFalse => exact Actions.refl _

theorem enterRound_mode (round : Int) :
    (n.enterRound round).byzantineMode = n.byzantineMode := by
  unfold enterRound
  split
  · rfl
  · simp only [startTimer_eq]

theorem openRound_actions
    (hmode : n.byzantineMode = .none)
    (targetRound : Int) (count : Nat) :
    Actions keys ρ K (n, net) (n.openRound keys ρ targetRound count net) := by
  unfold openRound
  split
  · exact Actions.refl _
  · simp only
    split
    · exact Actions.refl _
    · obtain ⟨n', hn'⟩ : ∃ n', (if targetRound > n.currentRound then n.enterRound targetRound
          else n) = n' := ⟨_, rfl⟩
      have henter : Actions keys ρ K (n, net) (n', net) := by
        rw [← hn']
        split
        case isTrue hlater => exact enterRound_actions net hlater
        case isFalse => exact Actions.refl _
      have hmode' : n'.byzantineMode = .none := by
        rw [← hn']
        split
        · exact (enterRound_mode _).trans hmode
        · exact hmode
      rw [hn']
      refine henter.trans ?_
      split
      · exact propose_actions net hmode' _ _
      · exact Actions.refl _

/-- Following a round change does not change the mode of the node. -/
theorem followRoundChange_mode
    (targetRound : Int) (count : Nat) :
    (n.followRoundChange keys ρ targetRound count net).1.byzantineMode = n.byzantineMode := by
  unfold followRoundChange
  split
  · unfold broadcastRoundChange
    split <;> exact enterRound_mode _
  · rfl

theorem handleRoundChange_actions
    {msg : Message}
    (hmode : n.byzantineMode = .none)
    (hundecided : n.decided = false)
    (hK : K msg) :
    Actions keys ρ K (n, net) (n.handleRoundChange keys ρ msg net) := by
  unfold handleRoundChange
  split
  · exact Actions.refl _
  · simp only
    split
    · exact Actions.refl _
    · split
      · exact Actions.refl _
      · refine (Actions.single (Action.recordRoundChange n net msg hK)).trans ?_
        have hundecided' : (n.recordRoundChange msg).decided = false := hundecided
        have hmode' : (n.recordRoundChange msg).byzantineMode = .none := hmode
        exact (followRoundChange_actions net msg.round _ hundecided').trans
          (openRound_actions _ ((followRoundChange_mode net _ _).trans hmode') _ _)

/-- Every reaction of a correct node to a message is a sequence of actions. -/
theorem handleMessage_actions
    {msg : Message}
    (hmode : n.byzantineMode = .none)
    (hK : K msg) :
    Actions keys ρ K (n, net) (n.handleMessage keys ρ msg net) := by
  unfold handleMessage
  rw [hmode]
  simp only
  split
  case isTrue => exact Actions.refl _
  case isFalse hvalid =>
    have hvalid' : isValidMessage keys msg n.validators = true := by simpa using hvalid
    split
    · exact Actions.refl _
    · split
      · split
        · unfold sendDecisionCertificate
          split
          · exact Actions.refl _
          · split
            · exact Actions.refl _
            · exact Actions.single (Action.sendCertificate n net _)
        · exact Actions.refl _
      case isFalse hundecided =>
        split
        case h_1 => exact handlePrePrepare_actions net hK
        case h_2 htype => exact handlePrepare_actions net hK hvalid' htype
        case h_3 htype => exact handleCommit_actions net hK hvalid' htype
        case h_4 => exact handleRoundChange_actions net hmode (by simpa using hundecided) hK
        case h_5 => exact handleDecisionCertificate_actions net hK
        case h_6 => exact Actions.refl _

end Node

end

end Ibft
end DistributedConsensus
