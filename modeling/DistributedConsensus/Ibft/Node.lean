import DistributedConsensus.Ibft.Justification

/-!
# IBFT: the validator node

The handlers of a validator, one function for each function of the source.  A
handler takes the node and the network and returns both: the network keeps the
envelopes that have been handed to it.  Output on the terminal is left out.

The simulated misbehaviour of a node (`byzantineMode`) is part of its code and
is modelled with it; a correct node has the mode `none`.
-/

namespace DistributedConsensus
namespace Ibft

open Foundations

/-- The simulated misbehaviour of a node. -/
inductive ByzantineMode where
  | none
  | silent
  | equivocate
  | badVote
deriving DecidableEq, Repr

/-- The round timer. -/
inductive TimerState where
  | stopped
  | running
  | expired
deriving DecidableEq, Repr

/-- The progress of a node within a round. -/
inductive NodeState where
  | new
  | prePrepared
  | prepared
  | decided
deriving DecidableEq, Repr

/-- The key of a message collection.  The source prints the three components
into one string, with the value at its end, so that equal strings come from
equal components. -/
structure MessageKey where
  lambda : Int
  round : Int
  value : String
deriving DecidableEq, Repr

/-- The key of the votes for a value in a round. -/
def messageKey (lambda round : Int) (value : String) : MessageKey :=
  ⟨lambda, round, value⟩

/-- A message on its way to a node. -/
structure NetworkEnvelope where
  toId : Int
  msg : Message
deriving DecidableEq

/-- The nodes that a broadcast reaches, and everything sent so far. -/
structure Network where
  nodeOrder : List Int
  queue : List NetworkEnvelope

namespace Network

/-- Hand a message to the network. -/
def send (net : Network) (toId : Int) (msg : Message) : Network :=
  { net with queue := net.queue ++ [⟨toId, msg⟩] }

/-- Send a message to every node. -/
def broadcast (net : Network) (msg : Message) : Network :=
  net.nodeOrder.foldl (fun net id => net.send id msg) net

/-- The messages handed to the network. -/
def messages (net : Network) : List Message :=
  net.queue.map NetworkEnvelope.msg

end Network

/-- The state of a validator. -/
structure Node where
  id : Int
  validators : List Int
  byzantineMode : ByzantineMode
  lambda : Int
  currentRound : Int
  preparedRound : Int
  preparedValue : String
  inputValue : String
  timerState : TimerState
  state : NodeState
  acceptedValue : String
  acceptedRound : Int
  prepareMessages : Dict MessageKey (Dict Int Message)
  commitMessages : Dict MessageKey (Dict Int Message)
  roundChangeMessages : Dict Int (Dict Int Message)
  decisionCertificate : List Message
  decisionValue : String
  roundChangeSent : Dict Int Bool
  prePrepareSent : Dict Int Bool
  commitSent : Bool
  decided : Bool

/-- A new validator. -/
def newNode (id : Int) (validators : List Int) : Node where
  id := id
  validators := validators
  byzantineMode := .none
  lambda := 1
  currentRound := 1
  preparedRound := noPreparedRound
  preparedValue := noPreparedValue
  inputValue := ""
  timerState := .stopped
  state := .new
  acceptedValue := ""
  acceptedRound := -1
  prepareMessages := Dict.empty
  commitMessages := Dict.empty
  roundChangeMessages := Dict.empty
  decisionCertificate := []
  decisionValue := ""
  roundChangeSent := Dict.empty
  prePrepareSent := Dict.empty
  commitSent := false
  decided := false

/-- An unsigned message without a prepared round and justification. -/
def plainMessage (type : MessageType) (fromId lambda round : Int) (value : String) : Message where
  type := type
  fromId := fromId
  lambda := lambda
  round := round
  value := value
  preparedRound := 0
  preparedValue := ""
  justification := []
  signature := ""

namespace Node

/-- Start the timer of the current round. -/
def startTimer (n : Node) : Node :=
  if n.decided then n else { n with timerState := .running }

/-- Stop the timer. -/
def stopTimer (n : Node) : Node :=
  { n with timerState := .stopped }

section

variable (keys : SignatureScheme) (ρ : MapOrders)

/-- Sign a message with the key of the node. -/
def signMessage (n : Node) (msg : Message) : Message :=
  { msg with signature := keys.signMessage msg n.id }

/-- The value to propose in a round, and whether proposing is justified. -/
def proposalValueForRound (n : Node) (round : Int) (fallbackValue : String) :
    String × HighestPreparedResult × Bool :=
  let fallbackValue := if fallbackValue = "" then n.inputValue else fallbackValue
  let none : HighestPreparedResult := ⟨0, "", false⟩
  if round = 1 then (fallbackValue, none, true)
  else
    let qrc := n.roundChangeMessages.getD round Dict.empty
    if qrc.size < quorumSize n.validators.length then (fallbackValue, none, false)
    else if !justifyRoundChange keys ρ qrc n.lambda round n.validators.length then
      (fallbackValue, none, false)
    else
      let highest := highestPrepared ρ qrc
      if highest.found then (highest.preparedValue, highest, true)
      else (fallbackValue, highest, true)

/-- The message that a misbehaving leader sends to a node. -/
def equivocation (n : Node) (value : String) (round id : Int) : Message :=
  let maliciousValue := if id.tmod 2 = 0 then value ++ "-A" else value ++ "-B"
  n.signMessage keys (plainMessage .prePrepare n.id n.lambda round maliciousValue)

/-- A misbehaving leader proposes different values to different nodes. -/
def proposeEquivocating (n : Node) (value : String) (net : Network) (round : Int) :
    Node × Network × Bool :=
  if n.id ≠ leader n.lambda round n.validators then (n, net, false)
  else if n.currentRound ≠ round then (n, net, false)
  else if n.prePrepareSent.getD round false then (n, net, false)
  else
    ({ n with prePrepareSent := n.prePrepareSent.set round true },
      n.validators.foldl (fun net id => net.send id (n.equivocation keys value round id)) net,
      true)

/-- The proposal of a leader. -/
def prePrepareMessage (n : Node) (round : Int) (proposalValue : String) : Message :=
  n.signMessage keys
    { plainMessage .prePrepare n.id n.lambda round proposalValue with
      justification :=
        if round > 1 then
          roundChangeMessagesToSlice ρ (n.roundChangeMessages.getD round Dict.empty)
        else [] }

/-- The leader of a round proposes a value. -/
def propose (n : Node) (value : String) (net : Network) (round : Int) : Node × Network × Bool :=
  match n.byzantineMode with
  | .silent => (n, net, false)
  | .equivocate => n.proposeEquivocating keys value net round
  | _ =>
      if n.id ≠ leader n.lambda round n.validators then (n, net, false)
      else if n.currentRound ≠ round then (n, net, false)
      else if n.prePrepareSent.getD round false then (n, net, false)
      else
        let (proposalValue, _, justified) := n.proposalValueForRound keys ρ round value
        if !justified then (n, net, false)
        else
          let msg := n.prePrepareMessage keys ρ round proposalValue
          let n := n.startTimer
          ({ n with prePrepareSent := n.prePrepareSent.set round true }, net.broadcast msg, true)

/-- Forget everything about earlier instances. -/
def reset (n : Node) (lambda : Int) (value : String) : Node :=
  { n with
    lambda := lambda
    currentRound := 1
    preparedRound := noPreparedRound
    preparedValue := noPreparedValue
    inputValue := value
    state := .new
    acceptedValue := ""
    acceptedRound := -1
    prepareMessages := Dict.empty
    commitMessages := Dict.empty
    roundChangeMessages := Dict.empty
    decisionCertificate := []
    decisionValue := ""
    roundChangeSent := Dict.empty
    prePrepareSent := Dict.empty
    commitSent := false
    decided := false }

/-- Start an instance of the protocol. -/
def start (n : Node) (lambda : Int) (value : String) (net : Network) : Node × Network :=
  let n := (n.reset lambda value).startTimer
  if leader n.lambda n.currentRound n.validators = n.id then
    let (n, net, _) := n.propose keys ρ n.inputValue net n.currentRound
    (n, net)
  else (n, net)

/-- A misbehaving validator votes for another value. -/
def handleBadVote (n : Node) (msg : Message) (net : Network) : Node × Network :=
  if msg.lambda ≠ n.lambda then (n, net)
  else if msg.type ≠ .prePrepare then (n, net)
  else if msg.round ≠ n.currentRound then (n, net)
  else if msg.fromId ≠ leader msg.lambda msg.round n.validators then (n, net)
  else
    let fakeValue := msg.value ++ "-FAKE"
    let badPrepare :=
      n.signMessage keys (plainMessage .prepare n.id msg.lambda msg.round fakeValue)
    (n, net.broadcast badPrepare)

/-- Accept a proposal and prepare its value. -/
def handlePrePrepare (n : Node) (msg : Message) (net : Network) : Node × Network :=
  if msg.lambda ≠ n.lambda ∨ msg.round ≠ n.currentRound then (n, net)
  else if msg.fromId ≠ leader msg.lambda msg.round n.validators then (n, net)
  else if !justifyPrePrepare keys ρ msg n.validators.length then (n, net)
  else if n.state ≠ .new then (n, net)
  else
    let n := { n with
      acceptedValue := msg.value
      acceptedRound := msg.round
      state := .prePrepared }
    let n := n.startTimer
    let prepare := n.signMessage keys (plainMessage .prepare n.id msg.lambda msg.round msg.value)
    (n, net.broadcast prepare)

/-- Store a prepare message. -/
def recordPrepare (n : Node) (msg : Message) : Node :=
  let key := messageKey msg.lambda msg.round msg.value
  { n with
    prepareMessages :=
      n.prepareMessages.set key ((n.prepareMessages.getD key Dict.empty).set msg.fromId msg) }

/-- Count a prepare message; a quorum makes the node commit. -/
def handlePrepare (n : Node) (msg : Message) (net : Network) : Node × Network :=
  if msg.lambda ≠ n.lambda ∨ msg.round ≠ n.currentRound then (n, net)
  else if n.acceptedValue ≠ msg.value ∨ n.acceptedRound ≠ msg.round then (n, net)
  else
    let key := messageKey msg.lambda msg.round msg.value
    let n := n.recordPrepare msg
    let count := (n.prepareMessages.getD key Dict.empty).size
    if count ≥ quorumSize n.validators.length ∧ n.state = .prePrepared ∧ n.commitSent = false then
      let n := { n with
        preparedRound := msg.round
        preparedValue := msg.value
        state := .prepared
        commitSent := true }
      let commit := n.signMessage keys (plainMessage .commit n.id msg.lambda msg.round msg.value)
      (n, net.broadcast commit)
    else (n, net)

/-- The commit messages stored under a key. -/
def commitCertificateForKey (n : Node) (key : MessageKey) : List Message :=
  ρ.slices.visit (n.commitMessages.getD key Dict.empty)

/-- The loop over a commit certificate. -/
def scanCommitCertificate (lambda : Int) (validatorCount : Nat) :
    List Message → String → Int → Finset Int → Option (String × Int × Finset Int)
  | [], value, round, seen => some (value, round, seen)
  | commitMsg :: rest, value, round, seen =>
      if !isValidMessage keys commitMsg (validatorsFromCount validatorCount) then none
      else if commitMsg.type ≠ .commit then none
      else if commitMsg.lambda ≠ lambda then none
      else
        let (value, round) :=
          if value = "" then (commitMsg.value, commitMsg.round) else (value, round)
        if commitMsg.value ≠ value ∨ commitMsg.round ≠ round then none
        else scanCommitCertificate lambda validatorCount rest value round
          (insert commitMsg.fromId seen)

/-- Check a commit certificate; the result is its value and round. -/
def validateCommitCertificate (certificate : List Message) (lambda : Int)
    (validatorCount : Nat) : Option (String × Int) :=
  if certificate.length < quorumSize validatorCount then none
  else
    match scanCommitCertificate keys lambda validatorCount certificate "" 0 ∅ with
    | none => none
    | some (value, round, seen) =>
        if seen.card < quorumSize validatorCount then none else some (value, round)

/-- Store a commit message. -/
def recordCommit (n : Node) (msg : Message) : Node :=
  let key := messageKey msg.lambda msg.round msg.value
  { n with
    commitMessages :=
      n.commitMessages.set key ((n.commitMessages.getD key Dict.empty).set msg.fromId msg) }

/-- Count a commit message; a quorum decides. -/
def handleCommit (n : Node) (msg : Message) (net : Network) : Node × Network :=
  if msg.lambda ≠ n.lambda ∨ msg.round ≠ n.currentRound then (n, net)
  else if n.acceptedValue ≠ msg.value ∨ n.acceptedRound ≠ msg.round then (n, net)
  else
    let key := messageKey msg.lambda msg.round msg.value
    let n := n.recordCommit msg
    let count := (n.commitMessages.getD key Dict.empty).size
    if count ≥ quorumSize n.validators.length ∧ n.decided = false then
      let qcommit := n.commitCertificateForKey ρ key
      let n := { n with
        state := .decided
        decided := true
        decisionValue := msg.value
        decisionCertificate := qcommit }
      (n.stopTimer, net)
    else (n, net)

/-- The prepare messages that back the prepared round and value. -/
def prepareJustification (n : Node) : List Message :=
  if n.preparedRound = noPreparedRound ∨ n.preparedValue = noPreparedValue then []
  else
    let key := messageKey n.lambda n.preparedRound n.preparedValue
    ρ.slices.visit (n.prepareMessages.getD key Dict.empty)

/-- Move to a round. -/
def enterRound (n : Node) (round : Int) : Node :=
  if round < n.currentRound then n
  else
    let n := { n with
      currentRound := round
      state := .new
      acceptedValue := ""
      acceptedRound := -1
      commitMessages := Dict.empty
      commitSent := false }
    n.startTimer

/-- The round change of a node. -/
def roundChangeMessage (n : Node) (round : Int) : Message :=
  n.signMessage keys
    { plainMessage .roundChange n.id n.lambda round "" with
      preparedRound := n.preparedRound
      preparedValue := n.preparedValue
      justification := n.prepareJustification ρ }

/-- Announce a round change once. -/
def broadcastRoundChange (n : Node) (round : Int) (net : Network) : Node × Network :=
  if n.roundChangeSent.getD round false then (n, net)
  else
    let n := { n with roundChangeSent := n.roundChangeSent.set round true }
    (n, net.broadcast (n.roundChangeMessage keys ρ round))

/-- Ask for a later round. -/
def requestRoundChange (n : Node) (targetRound : Int) (net : Network) : Node × Network :=
  if n.byzantineMode ≠ .none then (n, net)
  else if n.decided then (n, net)
  else if targetRound ≤ n.currentRound then (n, net)
  else (n.enterRound targetRound).broadcastRoundChange keys ρ targetRound net

/-- The round timer expires. -/
def onTimeout (n : Node) (net : Network) : Node × Network :=
  if n.byzantineMode ≠ .none then (n, net)
  else if n.decided then (n, net)
  else
    let nextRound := wrap64 (n.currentRound + 1)
    let n := { n with timerState := .expired }
    (n.enterRound nextRound).broadcastRoundChange keys ρ nextRound net

/-- Store a round change. -/
def recordRoundChange (n : Node) (msg : Message) : Node :=
  { n with
    roundChangeMessages :=
      n.roundChangeMessages.set msg.round
        ((n.roundChangeMessages.getD msg.round Dict.empty).set msg.fromId msg) }

/-- Enough round changes for a later round make the node follow. -/
def followRoundChange (n : Node) (targetRound : Int) (count : Nat) (net : Network) :
    Node × Network :=
  if targetRound > n.currentRound ∧ count ≥ roundChangeSetSize n.validators.length then
    (n.enterRound targetRound).broadcastRoundChange keys ρ targetRound net
  else (n, net)

/-- A justified quorum of round changes opens the round. -/
def openRound (n : Node) (targetRound : Int) (count : Nat) (net : Network) : Node × Network :=
  if count < quorumSize n.validators.length then (n, net)
  else
    let qrc := n.roundChangeMessages.getD targetRound Dict.empty
    if !justifyRoundChange keys ρ qrc n.lambda targetRound n.validators.length then (n, net)
    else
      let n := if targetRound > n.currentRound then n.enterRound targetRound else n
      if n.id = leader n.lambda targetRound n.validators then
        let (n, net, _) := n.propose keys ρ n.inputValue net targetRound
        (n, net)
      else (n, net)

/-- Count a round change. -/
def handleRoundChange (n : Node) (msg : Message) (net : Network) : Node × Network :=
  if msg.lambda ≠ n.lambda then (n, net)
  else
    let targetRound := msg.round
    if targetRound < n.currentRound then (n, net)
    else if msg.preparedRound ≠ noPreparedRound ∧ msg.preparedRound ≥ targetRound then (n, net)
    else
      let n := n.recordRoundChange msg
      let count := (n.roundChangeMessages.getD targetRound Dict.empty).size
      let (n, net) := n.followRoundChange keys ρ targetRound count net
      n.openRound keys ρ targetRound count net

/-- The commit certificate of a decided node. -/
def decisionMessage (n : Node) : Message :=
  n.signMessage keys
    { plainMessage .decisionCertificate n.id n.lambda n.preparedRound n.decisionValue with
      justification := n.decisionCertificate }

/-- Send the commit certificate to a node that asks for a later round. -/
def sendDecisionCertificate (n : Node) (toId : Int) (net : Network) : Network :=
  if !n.decided then net
  else if n.decisionCertificate.length = 0 then net
  else net.send toId (n.decisionMessage keys)

/-- Catch up with a decision. -/
def handleDecisionCertificate (n : Node) (msg : Message) : Node :=
  if msg.lambda ≠ n.lambda then n
  else if n.decided then n
  else
    match validateCommitCertificate keys msg.justification n.lambda n.validators.length with
    | none => n
    | some (value, round) =>
        let n := { n with
          decided := true
          state := .decided
          decisionValue := value
          decisionCertificate := msg.justification
          preparedValue := value
          preparedRound := round
          acceptedValue := value
          acceptedRound := round }
        n.stopTimer

/-- React to a received message. -/
def handleMessage (n : Node) (msg : Message) (net : Network) : Node × Network :=
  match n.byzantineMode with
  | .silent => (n, net)
  | .equivocate => (n, net)
  | .badVote => n.handleBadVote keys msg net
  | .none =>
      if !isValidMessage keys msg n.validators then (n, net)
      else if msg.lambda ≠ n.lambda then (n, net)
      else if n.decided then
        if msg.type = .roundChange then (n, n.sendDecisionCertificate keys msg.fromId net)
        else (n, net)
      else
        match msg.type with
        | .prePrepare => n.handlePrePrepare keys ρ msg net
        | .prepare => n.handlePrepare keys msg net
        | .commit => n.handleCommit ρ msg net
        | .roundChange => n.handleRoundChange keys ρ msg net
        | .decisionCertificate => (n.handleDecisionCertificate keys msg, net)
        | .other _ => (n, net)

end

end Node

end Ibft
end DistributedConsensus
