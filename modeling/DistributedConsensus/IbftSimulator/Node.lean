import DistributedConsensus.Foundations.MapOrder
import Mathlib.Data.Finset.Insert

/-!
# IBFT simulator: a node

The state of a node and its handlers.  Votes are counted in maps from values to
the sets of their senders; the maps are emptied when the node changes its round
or starts the next block.  The handlers compare the round of a message with the
round of the node, and never its `Lambda`.

A signature is represented by the validator whose key it verifies under.
-/

namespace DistributedConsensus
namespace IbftSimulator

open Foundations

/-! ## Messages -/

/-- A PREPARE or a COMMIT. -/
structure Vote where
  lambda : ℤ
  round : ℤ
  value : String
  senderID : ℤ
  signer : Option ℤ
  deriving DecidableEq, Repr

structure RoundChange where
  lambda : ℤ
  round : ℤ
  senderID : ℤ
  signer : Option ℤ
  preparedRound : ℤ
  preparedValue : String
  deriving DecidableEq, Repr, Inhabited

structure PrePrepare where
  lambda : ℤ
  round : ℤ
  value : String
  senderID : ℤ
  signer : Option ℤ
  proofRC : List RoundChange
  deriving DecidableEq, Repr

inductive IBFTMessage where
  | prePrepare (m : PrePrepare)
  | prepare (m : Vote)
  | commit (m : Vote)
  | roundChange (m : RoundChange)
  deriving DecidableEq, Repr

namespace IBFTMessage

def lambda : IBFTMessage → ℤ
  | prePrepare m => m.lambda
  | prepare m => m.lambda
  | commit m => m.lambda
  | roundChange m => m.lambda

def round : IBFTMessage → ℤ
  | prePrepare m => m.round
  | prepare m => m.round
  | commit m => m.round
  | roundChange m => m.round

def senderID : IBFTMessage → ℤ
  | prePrepare m => m.senderID
  | prepare m => m.senderID
  | commit m => m.senderID
  | roundChange m => m.senderID

def signer : IBFTMessage → Option ℤ
  | prePrepare m => m.signer
  | prepare m => m.signer
  | commit m => m.signer
  | roundChange m => m.signer

/-- The message with the signature of a validator. -/
def sign (id : ℤ) : IBFTMessage → IBFTMessage
  | prePrepare m => prePrepare { m with signer := some id }
  | prepare m => prepare { m with signer := some id }
  | commit m => commit { m with signer := some id }
  | roundChange m => roundChange { m with signer := some id }

end IBFTMessage

/-! ## The state -/

/-- `map[string]map[int]bool`: the senders of the votes for each value. -/
abbrev Votes := Dict String (Finset ℤ)

/-- Create the set of a value that has no votes yet. -/
def Votes.touch (votes : Votes) (value : String) : Votes :=
  if votes.contains value then votes else votes.set value ∅

/-- Count the vote of a sender. -/
def Votes.add (votes : Votes) (value : String) (sender : ℤ) : Votes :=
  votes.set value (insert sender (votes.getD value ∅))

/-- The scenarios in which a node stops or fails on purpose. -/
structure Scenario where
  simulateInsertError : Bool
  scenario7R1Fail : Bool
  scenario4Fail : Bool
  deriving DecidableEq, Repr

/-- A node.  What it has broadcast is kept in `sent`, the blocks it has confirmed
in `decisions`, and `pending` counts the goroutines that will start the next
block. -/
structure IBFTNode where
  id : ℤ
  lambda : ℤ
  round : ℤ
  pr : ℤ
  pv : String
  inputValue : String
  prepareVotes : Votes
  commitVotes : Votes
  validators : List ℤ
  decided : Bool
  isOffline : Bool
  scenario : Scenario
  rcStore : Dict ℤ (Dict ℤ RoundChange)
  lastStartedRound : ℤ
  peerPublicKeys : List ℤ
  sent : List IBFTMessage
  decisions : List (ℤ × String)
  pending : ℕ

/-- The data of a block. -/
def blockValue (lambda : ℤ) : String := "VREDNOST_ZA_BLOK_" ++ toString lambda

namespace IBFTNode

/-- `NewIBFTNode`, with the keys of all validators. -/
def new (id : ℤ) (input : String) (allValidators : List ℤ) (scenario : Scenario) : IBFTNode where
  id := id
  lambda := 1
  round := 1
  pr := -1
  pv := ""
  inputValue := input
  prepareVotes := .empty
  commitVotes := .empty
  validators := allValidators
  decided := false
  isOffline := false
  scenario := scenario
  rcStore := .empty
  lastStartedRound := 0
  peerPublicKeys := allValidators
  sent := []
  decisions := []
  pending := 0

variable (n : IBFTNode)

def broadcast (m : IBFTMessage) : IBFTNode := { n with sent := n.sent ++ [m.sign n.id] }

def quorum : ℕ := 2 * ((n.validators.length - 1) / 3) + 1

def fPlusOne : ℕ := (n.validators.length - 1) / 3 + 1

def isLeader : Bool := n.id = Int.tmod (n.lambda + n.round) n.validators.length

/-- The ROUND-CHANGE messages of a round. -/
def roundChanges (round : ℤ) : Dict ℤ RoundChange := n.rcStore.getD round .empty

/-- The highest prepared round of a list of ROUND-CHANGE messages and its value. -/
def highestPrepared (default : String) (msgs : List RoundChange) : ℤ × String :=
  msgs.foldl
    (fun best m =>
      if m.preparedRound > best.1 ∧ m.preparedValue ≠ "" then (m.preparedRound, m.preparedValue)
      else best)
    (-1, default)

def getValueFromProof (proof : List RoundChange) : String := (highestPrepared n.inputValue proof).2

def getRCProof (o : MapOrder ℤ) : List RoundChange × String :=
  let msgs := ((n.roundChanges n.round).inOrder o).map Prod.snd
  (msgs, (highestPrepared n.inputValue msgs).2)

/-- The value that a leader proposes when it is started with a value. -/
def proposeValue (value : String) : String :=
  if value ≠ "" ∧ value ≠ n.inputValue then value else n.inputValue

/-- The part of `Start` before the proposal. -/
def enter (lambda round : ℤ) : IBFTNode :=
  { n with
    lambda := lambda
    round := round
    inputValue := if round = 1 then blockValue lambda else n.inputValue }

def start (lambda round : ℤ) (value : String) (proof : List RoundChange) : IBFTNode :=
  let n := n.enter lambda round
  if n.isLeader then
    n.broadcast (.prePrepare ⟨n.lambda, n.round, n.proposeValue value, n.id, none, proof⟩)
  else n

def stop : IBFTNode := { n with isOffline := true }

/-- The part of `OnTimerExpire` behind its check. -/
def changeRound : IBFTNode :=
  let n := { n with round := n.round + 1, prepareVotes := .empty, commitVotes := .empty }
  n.broadcast (.roundChange ⟨n.lambda, n.round, n.id, none, n.pr, n.pv⟩)

def onTimerExpire : IBFTNode := if n.isOffline ∨ n.decided then n else n.changeRound

def nextInstance : IBFTNode :=
  if n.isOffline then n
  else
    let n := { n with
      lambda := n.lambda + 1
      round := 1
      pr := -1
      pv := ""
      decided := false
      prepareVotes := .empty
      commitVotes := .empty
      rcStore := .empty
      inputValue := blockValue (n.lambda + 1) }
    n.start n.lambda 1 n.inputValue []

/-! ## `HandleMessage` -/

def handlePrePrepare (m : PrePrepare) : IBFTNode :=
  if m.round ≠ n.round then n
  else if n.pr = n.round then n
  else if m.round > 1 ∧ m.proofRC.length < n.quorum then n
  else if m.round > 1 ∧ m.value ≠ n.getValueFromProof m.proofRC then n
  else n.broadcast (.prepare ⟨n.lambda, n.round, m.value, n.id, none⟩)

/-- Lock a value in the current round. -/
def lock (value : String) : IBFTNode := { n with pr := n.round, pv := value }

/-- What a node does after it has locked a value. -/
def afterLock (value : String) : IBFTNode :=
  if n.scenario.scenario4Fail ∧ (n.id = 0 ∨ n.id = 3) then n.stop
  else if n.scenario.scenario7R1Fail ∧ n.round = 1 then n.stop
  else n.broadcast (.commit ⟨n.lambda, n.round, value, n.id, none⟩)

def handlePrepare (m : Vote) : IBFTNode :=
  if m.round ≠ n.round then n
  else if n.decided then n
  else
    let n := { n with prepareVotes := n.prepareVotes.touch m.value }
    if n.pr = n.round then n
    else
      let n := { n with prepareVotes := n.prepareVotes.add m.value m.senderID }
      if n.quorum ≤ (n.prepareVotes.getD m.value ∅).card then (n.lock m.value).afterLock m.value
      else n

/-- Confirm a block, and schedule the next one. -/
def decide (value : String) : IBFTNode :=
  { n with
    decided := true
    decisions := n.decisions ++ [(n.lambda, value)]
    pending := n.pending + 1 }

def handleCommit (m : Vote) : IBFTNode :=
  if m.round ≠ n.round then n
  else if n.decided then n
  else
    let n := { n with commitVotes := (n.commitVotes.touch m.value).add m.value m.senderID }
    if n.quorum ≤ (n.commitVotes.getD m.value ∅).card then
      if n.scenario.simulateInsertError then n else n.decide m.value
    else n

/-- Store a ROUND-CHANGE message under its round and sender. -/
def store (m : RoundChange) : IBFTNode :=
  { n with rcStore := n.rcStore.set m.round ((n.roundChanges m.round).set m.senderID m) }

/-- Start a round as its leader, with the value and the proof of the stored messages. -/
def lead (o : MapOrder ℤ) : IBFTNode :=
  let n := { n with lastStartedRound := n.round }
  let value := if n.round = 2 ∧ n.id = 2 then "ZLONAMERNA_VREDNOST" else (n.getRCProof o).2
  n.start n.lambda n.round value (n.getRCProof o).1

def handleRoundChange (o : MapOrder ℤ) (m : RoundChange) : IBFTNode :=
  let n := n.store m
  if m.round > n.round ∧ n.fPlusOne ≤ (n.roundChanges m.round).size then n.onTimerExpire
  else if n.isLeader ∧ n.quorum ≤ (n.roundChanges n.round).size ∧
      n.lastStartedRound < n.round ∧ n.decided = false then n.lead o
  else n

/-- The signature verifies under the key of the sender. -/
def verifies (m : IBFTMessage) : Bool :=
  m.senderID ∈ n.peerPublicKeys ∧ m.signer = some m.senderID

def handleMessage (o : MapOrder ℤ) (m : IBFTMessage) : IBFTNode :=
  if n.isOffline then n
  else if n.verifies m = false then n
  else
    match m with
    | .prePrepare m => n.handlePrePrepare m
    | .prepare m => n.handlePrepare m
    | .commit m => n.handleCommit m
    | .roundChange m => n.handleRoundChange o m

end IBFTNode

end IbftSimulator
end DistributedConsensus
