import DistributedConsensus.Foundations.Dict
import Mathlib.Data.Finset.Max

/-!
# Flooding consensus: the node

`ConsensusNode` of `node.go` with the messages and set operations of `types.go`
and the broadcast of `broadcast.go`.  In every round a process broadcasts all the
values that it knows.  It decides when it has heard the same processes in two
rounds in a row, and the processes that it does not suspect among them.

Values are of any linear order, and the empty text of the source, which stands
for no decision, is `none`.  A node appends what it broadcasts to `sent`, with
the recipients, and records its proposal.
-/

namespace DistributedConsensus
namespace Flooding

open Foundations

variable {P V : Type} [DecidableEq P] [LinearOrder V]

/-- The `ConsensusMessage`s that processes send to each other. -/
inductive ConsensusMessage (P V : Type) where
  | proposal (round : ℕ) (sender : P) (values : Finset V)
  | decided (sender : P) (value : Option V)
deriving DecidableEq

/-- The field `From`. -/
def ConsensusMessage.sender : ConsensusMessage P V → P
  | .proposal _ p _ | .decided p _ => p

/-- What a node takes from its inbox. -/
inductive Input (P V : Type) where
  | propose (v : V)
  | message (m : ConsensusMessage P V)
  | crashDetected (p : P)

/-- A broadcast with the processes that it was sent to. -/
structure Broadcast (P V : Type) where
  recipients : Finset P
  msg : ConsensusMessage P V
deriving DecidableEq

/-- The state of `Run`. -/
structure ConsensusNode (P V : Type) where
  id : P
  correct : Finset P
  round : ℕ
  decision : Option V
  receivedfrom : Dict ℕ (Finset P)
  proposals : Dict ℕ (Finset V)
  proposal : Option V
  sent : List (Broadcast P V)

/-- `MinValue`. -/
def minValue (vals : Finset V) : Option V :=
  if h : vals.Nonempty then some (vals.min' h) else none

theorem minValue_eq_some
    {vals : Finset V} {v : V}
    (h : minValue vals = some v) :
    v ∈ vals ∧ ∀ u ∈ vals, v ≤ u := by
  unfold minValue at h
  split at h
  case isTrue hne =>
    obtain rfl := Option.some.inj h
    exact ⟨Finset.min'_mem vals hne, fun u hu => Finset.min'_le vals u hu⟩
  case isFalse => cases h

namespace ConsensusNode

variable (allIDs : Finset P)

/-- The state at the start of `Run`. -/
def new (id : P) : ConsensusNode P V where
  id := id
  correct := allIDs
  round := 1
  decision := none
  receivedfrom := Dict.empty.set 0 allIDs
  proposals := Dict.empty
  proposal := none
  sent := []

/-- `receivedfrom[r]`. -/
def heardFrom (n : ConsensusNode P V) (r : ℕ) : Finset P := n.receivedfrom.getD r ∅

/-- `proposals[r]`. -/
def known (n : ConsensusNode P V) (r : ℕ) : Finset V := n.proposals.getD r ∅

/-- `Broadcast`: to all processes, the sender included. -/
def broadcast (n : ConsensusNode P V) (m : ConsensusMessage P V) : ConsensusNode P V :=
  { n with sent := n.sent ++ [⟨allIDs, m⟩] }

section Rounds

/-- `correct ⊆ receivedfrom[round]` while the node has not decided. -/
def ready (n : ConsensusNode P V) : Bool :=
  decide (n.decision = none ∧ n.correct ⊆ n.heardFrom n.round)

/-- The same processes were heard from as in the round before. -/
def settled (n : ConsensusNode P V) : Bool :=
  decide (n.heardFrom n.round = n.heardFrom (n.round - 1))

/-- The first branch of `maybeAdvanceOrDecide`. -/
def decideMin (n : ConsensusNode P V) : ConsensusNode P V :=
  let decision := minValue (n.known n.round)
  { n with decision := decision }.broadcast allIDs (.decided n.id decision)

/-- The second branch: the values of the new round are a copy of those of the
round before. -/
def advance (n : ConsensusNode P V) : ConsensusNode P V :=
  let n := { n with round := n.round + 1 }
  let n := { n with proposals := n.proposals.set n.round (n.known (n.round - 1)) }
  n.broadcast allIDs (.proposal n.round n.id (n.known n.round))

/-- The recursion of `maybeAdvanceOrDecide`. -/
def advanceLoop : ℕ → ConsensusNode P V → ConsensusNode P V
  | 0, n => n
  | k + 1, n =>
      if n.ready = false then n
      else if n.settled then n.decideMin allIDs
      else advanceLoop k (n.advance allIDs)

/-- `maybeAdvanceOrDecide`.  Every pass but the last is for another round that
the node has heard from. -/
def maybeAdvanceOrDecide (n : ConsensusNode P V) : ConsensusNode P V :=
  n.advanceLoop allIDs (n.receivedfrom.size + 1)

end Rounds

section Handlers

/-- The case `KindPropose`. -/
def propose (n : ConsensusNode P V) (v : V) : ConsensusNode P V :=
  let n := { n with
    proposal := some v
    proposals := n.proposals.set 1 (insert v (n.known 1)) }
  n.broadcast allIDs (.proposal 1 n.id (n.known 1))

/-- The case `KindProposal` before the termination check. -/
def hear (n : ConsensusNode P V) (r : ℕ) (sender : P) (values : Finset V) : ConsensusNode P V :=
  { n with
    receivedfrom := n.receivedfrom.set r (insert sender (n.heardFrom r))
    proposals := n.proposals.set r (n.known r ∪ values) }

/-- The case `KindCrashDetected` before the termination check. -/
def suspect (n : ConsensusNode P V) (crashed : P) : ConsensusNode P V :=
  { n with correct := n.correct.erase crashed }

/-- The case `KindDecided`. -/
def adopt (n : ConsensusNode P V) (v : Option V) : ConsensusNode P V :=
  { n with decision := v }.broadcast allIDs (.decided n.id v)

/-- The state in which an input makes the node call `maybeAdvanceOrDecide`. -/
def checked (n : ConsensusNode P V) : Input P V → Option (ConsensusNode P V)
  | .message (.proposal r sender values) =>
      if r = n.round then some (n.hear r sender values) else none
  | .crashDetected p => if p ∈ n.correct then some (n.suspect p) else none
  | _ => none

/-- The loop body of `Run` for one input. -/
def handle (n : ConsensusNode P V) : Input P V → ConsensusNode P V
  | .propose v => n.propose allIDs v
  | .message (.proposal r sender values) =>
      let n' := n.hear r sender values
      if r = n.round then n'.maybeAdvanceOrDecide allIDs else n'
  | .crashDetected p =>
      if p ∈ n.correct then (n.suspect p).maybeAdvanceOrDecide allIDs else n
  | .message (.decided sender v) =>
      if sender ∈ n.correct ∧ n.decision = none then n.adopt allIDs v else n

end Handlers

end ConsensusNode

end Flooding
end DistributedConsensus
