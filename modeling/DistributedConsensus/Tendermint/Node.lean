import DistributedConsensus.Foundations.Dict
import DistributedConsensus.Tendermint.Config
import Mathlib.Data.List.Sort

/-!
# Tendermint: a node

`Node` of `node.py`: the message log, the eight rules, the three timeouts and
one iteration of the main loop of a correct node, with the messages of
`messages.py`.

`value_id` hashes a value; the hash of a text is a parameter.  What the node
hands to the network is collected in `sent`.  The deadline of a timer is real
time: a scheduled timer is kept with its kind, height and round, and an
iteration of the loop is told which timers are due.
-/

namespace DistributedConsensus
namespace Tendermint

open Foundations

inductive MessageType where
  | proposal
  | prevote
  | precommit
deriving DecidableEq

structure Message where
  type : MessageType
  height : ℤ
  round : ℤ
  sender : ℕ
  value : Option String
  valueId : Option String
  validRound : ℤ
deriving DecidableEq

inductive Step where
  | propose
  | prevote
  | precommit
deriving DecidableEq

inductive TimeoutKind where
  | propose
  | prevote
  | precommit
deriving DecidableEq

/-- The first-time sets hold pairs of a height and a round. -/
instance lawfulBEqHeightRound : LawfulBEq (ℤ × ℤ) := inferInstance

/-- A scheduled timeout: its kind and the height and round it was set for. -/
structure Timer where
  kind : TimeoutKind
  h : ℤ
  r : ℤ
deriving DecidableEq

/-- The state of a node.  `sent` lists what it has broadcast. -/
structure Node where
  id : ℕ
  h : ℤ
  round : ℤ
  step : Step
  decisions : Dict ℤ (Option String)
  lockedValue : Option String
  lockedRound : ℤ
  validValue : Option String
  validRound : ℤ
  messageLog : List Message
  timers : List Timer
  firedPrevoteTimer : List (ℤ × ℤ)
  firedPrecommitTimer : List (ℤ × ℤ)
  firedLock : List (ℤ × ℤ)
  valueCounter : ℕ
  done : Bool
  sent : List Message

/-- `Node.__init__`. -/
def Node.new (id : ℕ) : Node where
  id := id
  h := 0
  round := 0
  step := .propose
  decisions := Dict.empty
  lockedValue := none
  lockedRound := -1
  validValue := none
  validRound := -1
  messageLog := []
  timers := []
  firedPrevoteTimer := []
  firedPrecommitTimer := []
  firedLock := []
  valueCounter := 0
  done := false
  sent := []

section Proposer

/-- The node of the largest priority, the smallest id among equals. -/
def leaderOf (pri : List ℤ) : ℕ :=
  (List.range pri.length).foldl
    (fun best i => if pri.getD best 0 < pri.getD i 0 then i else best) 0

/-- One step of the weighted round-robin: the leader and the new priorities. -/
def rotate (powers pri : List ℤ) : ℕ × List ℤ :=
  let raised := List.zipWith (· + ·) pri powers
  let leader := leaderOf raised
  (leader, raised.set leader (raised.getD leader 0 - powers.sum))

/-- The leader after `k` steps of the weighted round-robin. -/
def rotations (powers : List ℤ) : ℕ → ℕ × List ℤ
  | 0 => (0, powers.map (fun _ => 0))
  | k + 1 => rotate powers (rotations powers k).2

/-- `proposer(h, r)`. -/
def SimConfig.proposer (cfg : SimConfig) (height rnd : ℤ) : ℕ :=
  (rotations ((List.range cfg.n).map cfg.powerOf) (height + rnd + 1).toNat).1

end Proposer

section Counting

/-- `value_id`. -/
def valueId (hash : String → String) (value : Option String) : Option String :=
  value.map hash

/-- `valid()`: a value that does not begin with INVALID. -/
def valid : Option String → Bool
  | none => false
  | some value => !"INVALID".toList.isPrefixOf value.toList

/-- `_voters`; without a value id (`_ANY`) all messages of the type count. -/
def voters (log : List Message) (mtype : MessageType) (height rnd : ℤ)
    (vid : Option (Option String)) : Finset ℕ :=
  ((log.filter (fun m => m.type = mtype ∧ m.height = height ∧ m.round = rnd ∧
    ∀ v ∈ vid, m.valueId = v)).map Message.sender).toFinset

/-- `_has_quorum`. -/
def hasQuorum (cfg : SimConfig) (log : List Message) (mtype : MessageType) (height rnd : ℤ)
    (vid : Option (Option String)) : Bool :=
  decide (cfg.quorum ≤ cfg.votingPowerOf (voters log mtype height rnd vid))

/-- `_find_proposal`: the first proposal of the proposer of the round. -/
def findProposal (cfg : SimConfig) (log : List Message) (height rnd : ℤ) : Option Message :=
  log.find? (fun m => m.type = .proposal ∧ m.height = height ∧ m.round = rnd ∧
    m.sender = cfg.proposer height rnd)

/-- `_find_proposal_for_id`. -/
def findProposalForId (cfg : SimConfig) (hash : String → String) (log : List Message)
    (height rnd : ℤ) (vid : String) : Option Message :=
  log.find? (fun m => m.type = .proposal ∧ m.height = height ∧ m.round = rnd ∧
    m.sender = cfg.proposer height rnd ∧ valueId hash m.value = some vid)

end Counting

namespace Node

variable (cfg : SimConfig) (hash : String → String)

section Sending

/-- `broadcast(_mk(..))`. -/
def broadcast (n : Node) (mtype : MessageType) (value vid : Option String) (vr : ℤ) : Node :=
  { n with sent := n.sent ++ [⟨mtype, n.h, n.round, n.id, value, vid, vr⟩] }

def sendProposal (n : Node) (value : Option String) (vr : ℤ) : Node :=
  n.broadcast .proposal value (valueId hash value) vr

def sendPrevote (n : Node) (vid : Option String) : Node :=
  n.broadcast .prevote none vid (-1)

def sendPrecommit (n : Node) (vid : Option String) : Node :=
  n.broadcast .precommit none vid (-1)

def scheduleTimeout (n : Node) (kind : TimeoutKind) : Node :=
  { n with timers := n.timers ++ [⟨kind, n.h, n.round⟩] }

/-- The text of `get_value`. -/
def freshValue (n : Node) : String :=
  "V[h" ++ toString n.h ++ ":r" ++ toString n.round ++ ":N" ++ toString n.id ++ "#" ++
    toString n.valueCounter ++ "]"

/-- `start_round`. -/
def startRound (n : Node) (rnd : ℤ) : Node :=
  let n := { n with round := rnd, step := .propose }
  if cfg.proposer n.h rnd = n.id then
    match n.validValue with
    | some value => n.sendProposal hash (some value) n.validRound
    | none =>
        { n with valueCounter := n.valueCounter + 1 }.sendProposal hash (some n.freshValue)
          n.validRound
  else n.scheduleTimeout .propose

end Sending

section Timeouts

def onTimeoutPropose (n : Node) (h r : ℤ) : Option Node :=
  if h = n.h ∧ r = n.round ∧ n.step = .propose then
    some { n.sendPrevote none with step := .prevote }
  else none

def onTimeoutPrevote (n : Node) (h r : ℤ) : Option Node :=
  if h = n.h ∧ r = n.round ∧ n.step = .prevote then
    some { n.sendPrecommit none with step := .precommit }
  else none

def onTimeoutPrecommit (n : Node) (h r : ℤ) : Option Node :=
  if h = n.h ∧ r = n.round then some (n.startRound cfg hash (n.round + 1)) else none

def onTimeout (n : Node) (t : Timer) : Option Node :=
  match t.kind with
  | .propose => n.onTimeoutPropose t.h t.r
  | .prevote => n.onTimeoutPrevote t.h t.r
  | .precommit => n.onTimeoutPrecommit cfg hash t.h t.r

end Timeouts

section Rules

/-- Line 22. -/
def ruleProposalInitial (n : Node) : Option Node :=
  if n.step ≠ .propose then none else
  match findProposal cfg n.messageLog n.h n.round with
  | none => none
  | some m =>
      if m.validRound ≠ -1 then none
      else if valid m.value ∧ (n.lockedRound = -1 ∨ n.lockedValue = m.value) then
        some { n.sendPrevote (valueId hash m.value) with step := .prevote }
      else some { n.sendPrevote none with step := .prevote }

/-- Line 28. -/
def ruleProposalWithVr (n : Node) : Option Node :=
  if n.step ≠ .propose then none else
  match findProposal cfg n.messageLog n.h n.round with
  | none => none
  | some m =>
      if m.validRound < 0 ∨ m.validRound ≥ n.round then none
      else if !hasQuorum cfg n.messageLog .prevote n.h m.validRound
          (some (valueId hash m.value)) then none
      else if valid m.value ∧ (n.lockedRound ≤ m.validRound ∨ n.lockedValue = m.value) then
        some { n.sendPrevote (valueId hash m.value) with step := .prevote }
      else some { n.sendPrevote none with step := .prevote }

/-- Line 34. -/
def rulePrevoteTimer (n : Node) : Option Node :=
  if n.step ≠ .prevote then none
  else if (n.h, n.round) ∈ n.firedPrevoteTimer then none
  else if !hasQuorum cfg n.messageLog .prevote n.h n.round none then none
  else some ({ n with firedPrevoteTimer := (n.h, n.round) :: n.firedPrevoteTimer }.scheduleTimeout
    .prevote)

/-- Line 36. -/
def ruleLockPrecommit (n : Node) : Option Node :=
  if n.step = .propose then none
  else if (n.h, n.round) ∈ n.firedLock then none
  else
  match findProposal cfg n.messageLog n.h n.round with
  | none => none
  | some m =>
      if !valid m.value then none
      else if !hasQuorum cfg n.messageLog .prevote n.h n.round (some (valueId hash m.value)) then
        none
      else
        let n := { n with firedLock := (n.h, n.round) :: n.firedLock }
        let n :=
          if n.step = .prevote then
            { { n with lockedValue := m.value, lockedRound := n.round }.sendPrecommit
                (valueId hash m.value) with step := .precommit }
          else n
        some { n with validValue := m.value, validRound := n.round }

/-- Line 44. -/
def rulePrevoteNil (n : Node) : Option Node :=
  if n.step ≠ .prevote then none
  else if !hasQuorum cfg n.messageLog .prevote n.h n.round (some none) then none
  else some { n.sendPrecommit none with step := .precommit }

/-- Line 47. -/
def rulePrecommitTimer (n : Node) : Option Node :=
  if (n.h, n.round) ∈ n.firedPrecommitTimer then none
  else if !hasQuorum cfg n.messageLog .precommit n.h n.round none then none
  else some ({ n with
    firedPrecommitTimer := (n.h, n.round) :: n.firedPrecommitTimer }.scheduleTimeout .precommit)

/-- `_reset_for_new_height`. -/
def resetForNewHeight (n : Node) : Node :=
  { n with
    round := 0
    step := .propose
    lockedValue := none
    lockedRound := -1
    validValue := none
    validRound := -1
    messageLog := n.messageLog.filter (fun m => n.h ≤ m.height)
    timers := []
    firedPrevoteTimer := []
    firedPrecommitTimer := []
    firedLock := [] }

/-- What `_rule_decide` does once it has found a value. -/
def decideValue (n : Node) (value : Option String) : Node :=
  let n := { n with decisions := n.decisions.set n.h value, h := n.h + 1 }
  if n.h < cfg.numHeights then n.resetForNewHeight.startRound cfg hash 0
  else { n with done := true }

/-- The rounds of the height with a precommit, in increasing order. -/
def precommitRounds (n : Node) : List ℤ :=
  ((n.messageLog.filter (fun m => m.type = .precommit ∧ m.height = n.h)).map
    Message.round).dedup.insertionSort (· ≤ ·)

/-- The set of the value ids precommitted in a round.  A Python set is iterated
in an unspecified order: `rank` sorts it. -/
def precommitIds (rank : List String → String → ℕ) (n : Node) (r : ℤ) : List String :=
  let ids := ((n.messageLog.filter (fun m => m.type = .precommit ∧ m.height = n.h ∧
    m.round = r)).filterMap Message.valueId).dedup
  ids.insertionSort (fun a b => rank ids a ≤ rank ids b)

/-- The decision on one value id of one round. -/
def decideOn (n : Node) (r : ℤ) (vid : String) : Option Node :=
  if !hasQuorum cfg n.messageLog .precommit n.h r (some (some vid)) then none else
  match findProposalForId cfg hash n.messageLog n.h r vid with
  | none => none
  | some prop => if !valid prop.value then none else some (n.decideValue cfg hash prop.value)

/-- Line 49. -/
def ruleDecide (rank : List String → String → ℕ) (n : Node) : Option Node :=
  if n.decisions.contains n.h then none else
  n.precommitRounds.findSome? fun r =>
    (n.precommitIds rank r).findSome? fun vid => n.decideOn cfg hash r vid

/-- The highest later round in which nodes of power f+1 have sent something. -/
def skipTarget (n : Node) : Option ℤ :=
  (((n.messageLog.filter (fun m => m.height = n.h ∧ m.round > n.round)).map
    Message.round).dedup).foldl
    (fun best r =>
      let senders := ((n.messageLog.filter (fun m => m.height = n.h ∧ m.round = r)).map
        Message.sender).toFinset
      if cfg.f + 1 ≤ cfg.votingPowerOf senders ∧ (∀ b ∈ best, b < r) then some r else best) none

/-- Line 55. -/
def ruleRoundSkip (n : Node) : Option Node :=
  (n.skipTarget cfg).map fun best => n.startRound cfg hash best

end Rules

section Loop

/-- The rules in the order of `try_rules`. -/
def rules (rank : List String → String → ℕ) : List (Node → Option Node) :=
  [ruleProposalInitial cfg hash, ruleProposalWithVr cfg hash, rulePrevoteTimer cfg,
    ruleLockPrecommit cfg hash, rulePrevoteNil cfg, rulePrecommitTimer cfg,
    ruleDecide cfg hash rank, ruleRoundSkip cfg hash]

/-- A rule or a timeout that may leave the node unchanged; the flag records
whether anything has changed. -/
def attempt (f : Node → Option Node) (s : Bool × Node) : Bool × Node :=
  match f s.2 with
  | some n => (true, n)
  | none => s

/-- `try_rules`. -/
def tryRules (rank : List String → String → ℕ) (n : Node) : Bool × Node :=
  (rules cfg hash rank).foldl (fun s rule => attempt rule s) (false, n)

/-- The rules are tried until nothing changes, or the guard stops the loop. -/
def fixpoint (rank : List String → String → ℕ) : ℕ → Node → Node
  | 0, n => n
  | k + 1, n =>
      let pass := tryRules cfg hash rank n
      if pass.1 then fixpoint rank k pass.2 else pass.2

/-- `_check_timeouts`, with the timers that are due. -/
def checkTimeouts (due : Timer → Bool) (n : Node) : Bool × Node :=
  (n.timers.filter due).foldl (fun s t => attempt (fun n => n.onTimeout cfg hash t) s)
    (false, { n with timers := n.timers.filter (fun t => !due t) })

/-- One iteration of the loop of `run`: the messages taken from the inbox, the
timeouts, the rules. -/
def iterate (received : List Message) (due : Timer → Bool) (rank : List String → String → ℕ)
    (n : Node) : Node :=
  let n := { n with messageLog := n.messageLog ++ received }
  if n.done then n else
  let (changed, n) := n.checkTimeouts cfg hash due
  if !received.isEmpty || changed then n.fixpoint cfg hash rank 1001 else n

end Loop

end Node

end Tendermint
end DistributedConsensus
