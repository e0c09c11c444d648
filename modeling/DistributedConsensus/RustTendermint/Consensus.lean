import DistributedConsensus.Foundations.Dict

/-!
# Rust Tendermint: the consensus state

The state of a node and its three handlers.  Heights are `u64`, rounds, node ids
and the number of nodes are `u32`; the program is built in release mode, so their
arithmetic wraps around.  A request to the link is at most one broadcast.

The votes of a round are kept by their sender, the last one only.  They are
dropped when the node starts the round, and votes of other rounds are ignored.
-/

namespace DistributedConsensus
namespace RustTendermint

open Foundations

abbrev NodeId := UInt32

abbrev Height := UInt64

abbrev Round := UInt32

structure Value where
  data : String
  deriving DecidableEq, Repr

structure Proposal where
  height : Height
  round : Round
  value : Value
  validRound : Option Round
  sender : NodeId
  deriving DecidableEq, Repr

inductive VoteType where
  | prevote
  | precommit
  deriving DecidableEq, Repr

/-- A vote; the value `none` is nil. -/
structure Vote where
  voteType : VoteType
  height : Height
  round : Round
  value : Option Value
  sender : NodeId
  deriving DecidableEq, Repr

inductive Message where
  | proposal (p : Proposal)
  | vote (v : Vote)
  deriving DecidableEq, Repr

def Message.sender : Message → NodeId
  | proposal p => p.sender
  | vote v => v.sender

inductive Step where
  | propose
  | prevote
  | precommit
  | commit
  deriving DecidableEq, Repr

/-- A request to the link. -/
inductive PlRequest where
  | send (dest : NodeId) (msg : Message)
  | broadcast (msg : Message)
  deriving DecidableEq, Repr

inductive Behavior where
  | standard
  | silent
  | doubleVote
  | sendInvalid
  deriving DecidableEq, Repr

structure RoundVote where
  prevotes : Dict NodeId Vote
  precommits : Dict NodeId Vote

def RoundVote.empty : RoundVote := ⟨.empty, .empty⟩

/-- The votes of a type. -/
def RoundVote.votes (rv : RoundVote) : VoteType → Dict NodeId Vote
  | .prevote => rv.prevotes
  | .precommit => rv.precommits

/-- Store a vote under its sender. -/
def RoundVote.insert (rv : RoundVote) (vote : Vote) : RoundVote :=
  match vote.voteType with
  | .prevote => { rv with prevotes := rv.prevotes.set vote.sender vote }
  | .precommit => { rv with precommits := rv.precommits.set vote.sender vote }

/-- The number of stored votes for a value. -/
def countVotes (votes : Dict NodeId Vote) (value : Option Value) : ℕ :=
  (votes.values.filter fun v => v.value = value).length

/-- `((total_nodes * 2) / 3 + 1) as usize`, in `u32` arithmetic. -/
def quorumSize (totalNodes : UInt32) : ℕ := (totalNodes * 2 / 3 + 1).toNat

/-- The state of a node.  The heights and values of the log lines
`BLOCK COMMITTED` are kept in `committed`. -/
structure ConsensusState where
  id : NodeId
  height : Height
  round : Round
  step : Step
  lockedValue : Option Value
  lockedRound : Option Round
  validValue : Option Value
  validRound : Option Round
  proposal : Option Proposal
  votes : Dict Round RoundVote
  totalNodes : UInt32
  behavior : Behavior
  committed : List (Height × Value)

namespace ConsensusState

/-- `ConsensusState::new`. -/
def new (id : NodeId) (totalNodes : UInt32) (behavior : Behavior) : ConsensusState where
  id := id
  height := 1
  round := 0
  step := .propose
  lockedValue := none
  lockedRound := none
  validValue := none
  validRound := none
  proposal := none
  votes := .empty
  totalNodes := totalNodes
  behavior := behavior
  committed := []

variable (s : ConsensusState)

def getProposer : NodeId :=
  ((s.height + s.round.toUInt64) % s.totalNodes.toUInt64).toUInt32

def valueToPropose : Value :=
  if s.behavior = .sendInvalid then ⟨"MALICIOUS BLOCK"⟩
  else s.validValue.getD ⟨"Block Data for Height " ++ toString s.height.toNat⟩

/-- The state at the beginning of a round. -/
def enterRound (round : Round) : ConsensusState :=
  { s with
    round := round
    step := .propose
    proposal := none
    votes := s.votes.set round .empty }

def startRound (round : Round) : ConsensusState × Option PlRequest :=
  if s.behavior = .silent then (s, none)
  else
    let s := s.enterRound round
    if s.getProposer = s.id then
      (s, some (.broadcast (.proposal
        ⟨s.height, s.round, s.valueToPropose, s.validRound, s.id⟩)))
    else (s, none)

/-- The own vote of the current round. -/
def ownVote (voteType : VoteType) (value : Option Value) : Vote :=
  ⟨voteType, s.height, s.round, value, s.id⟩

/-- A quorum of prevotes for the value is stored for the round. -/
def hasQuorum (round : Round) (value : Value) : Prop :=
  ∃ rv ∈ s.votes.get? round, quorumSize s.totalNodes ≤ countVotes rv.prevotes (some value)

instance (round : Round) (value : Value) : Decidable (s.hasQuorum round value) :=
  inferInstanceAs (Decidable (∃ rv ∈ s.votes.get? round, _))

/-- The value that a proposal gets in the prevote: nil when the node is locked on
another value, or when the valid round has no quorum. -/
def voteValue (proposal : Proposal) : Option Value :=
  if (∃ locked ∈ s.lockedValue, locked ≠ proposal.value) ∨
      (∃ vr ∈ proposal.validRound, ¬s.hasQuorum vr proposal.value) then none
  else some proposal.value

def handleProposal (proposal : Proposal) : ConsensusState × Option PlRequest :=
  if s.behavior = .silent then (s, none)
  else if s.step ≠ .propose ∨ proposal.round ≠ s.round ∨ proposal.height ≠ s.height then (s, none)
  else if proposal.sender ≠ s.getProposer then (s, none)
  else
    ({ s with proposal := some proposal, step := .prevote },
      some (.broadcast (.vote (s.ownVote .prevote (s.voteValue proposal)))))

/-- The stored votes of a round. -/
def tally (round : Round) : RoundVote := s.votes.getD round .empty

/-- Store a vote of the current round. -/
def record (vote : Vote) : ConsensusState :=
  { s with votes := s.votes.set vote.round ((s.tally vote.round).insert vote) }

/-- A quorum of the stored votes of the current round is for the value. -/
def reachesQuorum (voteType : VoteType) (value : Option Value) : Prop :=
  quorumSize s.totalNodes ≤ countVotes ((s.tally s.round).votes voteType) value

instance (voteType : VoteType) (value : Option Value) :
    Decidable (s.reachesQuorum voteType value) :=
  inferInstanceAs (Decidable (_ ≤ _))

/-- Lock a value that a quorum has prevoted. -/
def lock : Option Value → ConsensusState
  | none => s
  | some value =>
      { s with
        lockedValue := some value
        lockedRound := some s.round
        validValue := some value
        validRound := some s.round }

def handleVote (vote : Vote) : ConsensusState × Option PlRequest :=
  if s.behavior = .silent then (s, none)
  else if vote.height ≠ s.height ∨ vote.round ≠ s.round then (s, none)
  else
    let s := s.record vote
    match vote.voteType with
    | .prevote =>
        if s.reachesQuorum .prevote vote.value ∧ s.step = .prevote then
          ({ s.lock vote.value with step := .precommit },
            some (.broadcast (.vote (s.ownVote .precommit vote.value))))
        else (s, none)
    | .precommit =>
        if s.reachesQuorum .precommit vote.value ∧ s.step = .precommit then
          match vote.value with
          | some value =>
              ({ s with step := .commit, committed := s.committed ++ [(s.height, value)] }, none)
          | none => s.startRound (s.round + 1)
        else (s, none)

/-- The state at the beginning of the next height. -/
def nextHeight : ConsensusState :=
  { s with
    height := s.height + 1
    lockedRound := none
    lockedValue := none
    validRound := none
    validValue := none }

def handleTimeout : ConsensusState × Option PlRequest :=
  if s.behavior = .silent then (s, none)
  else
    match s.step with
    | .propose =>
        ({ s with step := .prevote }, some (.broadcast (.vote (s.ownVote .prevote none))))
    | .prevote =>
        ({ s with step := .precommit }, some (.broadcast (.vote (s.ownVote .precommit none))))
    | .precommit => s.startRound (s.round + 1)
    | .commit => s.nextHeight.startRound 0

end ConsensusState

/-! ## The main loop -/

/-- What the main loop waits for. -/
inductive Event where
  | plDeliver (msg : Message)
  | timeout
  deriving DecidableEq, Repr

/-- A node: its consensus state and the requests that it has handed to the link. -/
structure Process where
  consensus : ConsensusState
  requests : List PlRequest

namespace Process

/-- The vote that a double voter sends after its own. -/
def evilVote (vote : Vote) : Vote := { vote with value := some ⟨"EVIL DOUBLE VOTE"⟩ }

/-- Hand the outcome of a handler to the link; a double voter adds a vote. -/
def hand (p : Process) (out : ConsensusState × Option PlRequest) : Process :=
  match out.2 with
  | none => { p with consensus := out.1 }
  | some req =>
      match out.1.behavior, req with
      | .doubleVote, .broadcast (.vote v) =>
          ⟨out.1, p.requests ++ [req, .broadcast (.vote (evilVote v))]⟩
      | _, _ => ⟨out.1, p.requests ++ [req]⟩

/-- A node before its first event: it has started round 0. -/
def boot (id : NodeId) (totalNodes : UInt32) (behavior : Behavior) : Process :=
  let out := (ConsensusState.new id totalNodes behavior).startRound 0
  ⟨out.1, out.2.toList⟩

/-- One iteration of the main loop. -/
def handle (p : Process) : Event → Process
  | .plDeliver (.proposal proposal) => p.hand (p.consensus.handleProposal proposal)
  | .plDeliver (.vote vote) => p.hand (p.consensus.handleVote vote)
  | .timeout => p.hand p.consensus.handleTimeout

end Process

end RustTendermint
end DistributedConsensus
