import DistributedConsensus.Nbft.Voting

/-!
# NBFT: a node

The state of an honest node and its handlers.  What the node has sent is kept in
`sent`.  A timer that has been armed and neither cancelled nor run is a flag of the
round; a watchdog is in `watchdogs` as long as its request is undecided.

The roles are computed again after every block and every change of the view.  A timer
of the representative that goes off when the node has lost its group raises after
what it has done by then.
-/

namespace DistributedConsensus
namespace Nbft

open Foundations

/-- What the nodes of a network share. -/
structure Setting where
  params : ConsensusParams
  hashes : Hashes
  ring : HashRing
  length_ids : ring.ids.length = params.n

namespace Setting

variable (S : Setting)

theorem exists_roles (view : ℤ) (previousHash : String) (prevMaster : Option String) :
    ∃ ms, S.ring.membership S.hashes.ringHash view previousHash prevMaster S.params.m S.params.R
      = .ok ms ∧ ms.Partitions S.ring.ids S.params.m S.params.R := by
  refine HashRing.exists_membership ?_ (Or.inr S.params.m_pos) ?_
  · rw [S.length_ids]
    exact S.params.two_le_n
  · rw [S.length_ids]
    exact S.params.grouped_lt_n

/-- The roles of one round; the ring gives them for every view and hash. -/
def roles (view : ℤ) (previousHash : String) (prevMaster : Option String) : Membership :=
  (S.ring.membership S.hashes.ringHash view previousHash prevMaster S.params.m
    S.params.R).toOption.get (by
      obtain ⟨ms, hms, -⟩ := S.exists_roles view previousHash prevMaster
      rw [hms]
      rfl)

theorem roles_partitions (view : ℤ) (previousHash : String) (prevMaster : Option String) :
    (S.roles view previousHash prevMaster).Partitions S.ring.ids S.params.m S.params.R := by
  obtain ⟨ms, hms, hpartitions⟩ := S.exists_roles view previousHash prevMaster
  unfold roles
  simp only [hms]
  exact hpartitions

end Setting

/-- Seventeen nodes; a text is its own hash, and its length its position. -/
def readable : Setting where
  params := smallest
  hashes := ⟨fun text => text, String.length⟩
  ring := ⟨seventeen, by decide⟩
  length_ids := rfl

/-- A block of the chain. -/
structure Block where
  seq : ℤ
  digest : String
  payload : String
  previousHash : String
deriving DecidableEq

def Block.blockHash (h : Hashes) (b : Block) : String :=
  h.sha256 (toString b.seq ++ "|" ++ b.digest ++ "|" ++ b.previousHash)

/-- The state of one view and sequence number. -/
structure RoundState where
  digest : Option String := none
  payload : Option String := none
  prepareSigs : Dict String (List String) := Dict.empty
  repAggregateSent : Bool := false
  repPartialSent : Bool := false
  repOk : Bool := false
  repBlocked : Bool := false
  repTimer : Bool := false
  repPartialTimer : Bool := false
  ledger : Option VoteLedger := none
  commitSent : Bool := false
  commitProofs : Dict String (List String) := Dict.empty
  preprepare2Sent : Bool := false
  executed : Bool := false

structure Node where
  id : String
  view : ℤ
  chain : List Block
  lastCommittedPrimary : Option String
  membership : Membership
  states : Dict (ℤ × ℤ) RoundState
  pending : Dict String String
  watchdogs : List String
  viewchangeVotes : Dict ℤ (List String)
  votedView : ℤ
  sent : List (String × Message)

namespace Node

variable (S : Setting)

/-- A node at the start. -/
def new (id : String) : Node where
  id := id
  view := 0
  chain := []
  lastCommittedPrimary := none
  membership := S.roles 0 S.hashes.genesisHash none
  states := Dict.empty
  pending := Dict.empty
  watchdogs := []
  viewchangeVotes := Dict.empty
  votedView := 0
  sent := []

/-! ## Helpers -/

def headHash (n : Node) : String :=
  match n.chain.getLast? with
  | some block => block.blockHash S.hashes
  | none => S.hashes.genesisHash

def nextSeq (n : Node) : ℤ := n.chain.length + 1

def computeMembership (n : Node) (view : ℤ) : Membership :=
  S.roles view (n.headHash S) n.lastCommittedPrimary

def state (n : Node) (view seq : ℤ) : RoundState := n.states.getD (view, seq) {}

def setState (n : Node) (view seq : ℤ) (st : RoundState) : Node :=
  { n with states := n.states.set (view, seq) st }

def myGroup (n : Node) : Option ℕ := n.membership.groupOf n.id

def isPrimary (n : Node) : Bool := decide (n.membership.primary = n.id)

def isRepresentative (n : Node) : Bool :=
  match n.myGroup with
  | some g => decide (n.membership.representatives[g]? = some n.id)
  | none => false

def send (n : Node) (msg : Message) (recipient : String) : Node :=
  { n with sent := n.sent ++ [(recipient, msg)] }

def broadcast (n : Node) (msg : Message) (recipients : List String) : Node :=
  { n with sent := n.sent ++
      (recipients.filter fun r => decide (r ≠ n.id)).map fun r => (r, msg) }

def committed (n : Node) (digest : String) : Bool :=
  n.chain.any fun block => decide (block.digest = digest)

/-- Know the payload of a digest. -/
def learn (n : Node) (digest payload : String) : Node :=
  { n with pending := n.pending.set digest payload }

/-- Take a digest as the one of the round. -/
def prepare (n : Node) (view seq : ℤ) (digest payload : String) : Node :=
  n.setState view seq
    { n.state view seq with digest := some digest, payload := some payload }

/-! ## Request and preprepare1 -/

def propose (n : Node) (digest : String) : Node :=
  let seq := n.nextSeq
  let st := n.state n.view seq
  if st.preprepare2Sent || st.digest.isSome then n
  else
    let payload := n.pending.getD digest ""
    let n := n.prepare n.view seq digest payload
    n.broadcast
      { type := .preprepare1, sender := n.id, view := n.view, seq := seq, digest := digest,
        payload := payload, signatures := [sign n.id digest] }
      n.membership.allNodes

def onRequest (n : Node) (msg : Message) : Node :=
  let digest := payloadDigest S.hashes msg.payload
  let n := n.learn digest msg.payload
  if n.committed digest then
    n.send { type := .reply, sender := n.id, view := n.view, seq := 0, digest := digest } msg.sender
  else if n.isPrimary then n.propose digest
  else if msg.sender = "client" then { n with watchdogs := n.watchdogs.insert digest }
  else n

/-! ## Counting votes -/

/-- The ledger of a round, begun with the present roles. -/
def ledger (n : Node) (st : RoundState) : VoteLedger :=
  st.ledger.getD ⟨S.params, n.membership, Dict.empty, Dict.empty, Dict.empty⟩

def checkVoteThreshold (n : Node) (view seq : ℤ) : Node :=
  let st := n.state view seq
  match st.digest with
  | none => n
  | some digest =>
      if st.commitSent then n
      else
        let ledger := n.ledger S st
        let st := { st with ledger := some ledger }
        if ledger.thresholdMet digest then
          (n.setState view seq { st with commitSent := true }).send
            { type := .commit, sender := n.id, view := view, seq := seq, digest := digest,
              signatures := ledger.proofSignatures digest, votes := ledger.votesFor digest }
            n.membership.primary
        else n.setState view seq st

/-- A call on the ledger of a round. -/
def count (n : Node) (view seq : ℤ) (c : VoteLedger.Call) : Node :=
  let st := n.state view seq
  n.setState view seq { st with ledger := some ((n.ledger S st).perform c) }

/-! ## In-prepare1 and in-prepare2 -/

/-- The prepares that were gathered for a digest. -/
def RoundState.prepares (st : RoundState) (digest : String) : List String :=
  (st.prepareSigs.getD digest []).insertionSort (· ≤ ·)

def sendAggregate (n : Node) (view seq : ℤ) (digest : String) (group : ℕ) : Node :=
  let st := n.state view seq
  let sigs := RoundState.prepares st digest
  let n := n.setState view seq { st with repAggregateSent := true }
  let n := n.broadcast
    { type := .inPrepare2, sender := n.id, view := view, seq := seq, digest := digest,
      signatures := sigs, group := some group }
    (n.membership.groups.getD group [])
  let n := n.broadcast
    { type := .outPrepare, sender := n.id, view := view, seq := seq, digest := digest,
      signatures := sigs, group := some group }
    n.membership.representatives
  let n := n.count S view seq (.addGroupAggregate group digest sigs)
  n.checkVoteThreshold S view seq

def maybeAggregate (n : Node) (view seq : ℤ) (group : ℕ) : Node :=
  let st := n.state view seq
  match st.digest with
  | some digest =>
      if st.repAggregateSent = false ∧
          S.params.sigQuorum ≤ (st.prepareSigs.getD digest []).length then
        n.sendAggregate S view seq digest group
      else n
  | none => n

/-- Add signatures to the prepares of a digest. -/
def gather (n : Node) (view seq : ℤ) (digest : String) (sigs : List String) : Node :=
  let st := n.state view seq
  n.setState view seq
    { st with prepareSigs :=
        st.prepareSigs.set digest (sigs.foldl (fun bucket sig => bucket.insert sig)
          (st.prepareSigs.getD digest [])) }

def armRepPartialTimer (n : Node) (view seq : ℤ) : Node :=
  n.setState view seq { n.state view seq with repPartialTimer := true }

def armRepTimer (n : Node) (view seq : ℤ) : Node :=
  n.setState view seq { n.state view seq with repTimer := true }

def onPreprepare1 (n : Node) (msg : Message) : Node :=
  if msg.sender ≠ n.membership.primary ∨ msg.view ≠ n.view then n
  else if msg.seq ≠ n.nextSeq ∨ payloadDigest S.hashes msg.payload ≠ msg.digest then n
  else
    let st := n.state msg.view msg.seq
    if st.digest.isSome then n
    else
      let n := n.prepare msg.view msg.seq msg.digest msg.payload
      let n := n.learn msg.digest msg.payload
      match n.myGroup with
      | none =>
          n.broadcast
            { type := .outPrepare, sender := n.id, view := msg.view, seq := msg.seq,
              digest := msg.digest, signatures := [sign n.id msg.digest] }
            n.membership.representatives
      | some group =>
          let n := n.gather msg.view msg.seq msg.digest [sign n.id msg.digest]
          if n.isRepresentative then
            (n.maybeAggregate S msg.view msg.seq group).armRepPartialTimer msg.view msg.seq
          else
            let n := n.send
              { type := .inPrepare1, sender := n.id, view := msg.view, seq := msg.seq,
                digest := msg.digest, signatures := [sign n.id msg.digest],
                group := some group }
              (n.membership.representatives.getD group "")
            n.armRepTimer msg.view msg.seq

def onInPrepare1 (n : Node) (msg : Message) : Node :=
  match n.myGroup with
  | none => n
  | some group =>
      if msg.view ≠ n.view ∨ msg.group ≠ some group then n
      else if n.isRepresentative = false ∨ msg.sender ∉ n.membership.groups.getD group [] then n
      else
        let n := n.gather msg.view msg.seq msg.digest
          (msg.signatures.filter fun sig => sigValid sig msg.digest)
        n.maybeAggregate S msg.view msg.seq group

/-- The representative could not gather enough prepares before the timeout. -/
def onRepPartialTimeout (n : Node) (view seq : ℤ) : Node :=
  let st := n.state view seq
  let n := n.setState view seq { st with repPartialTimer := false }
  match st.digest with
  | none => n
  | some digest =>
      if st.repAggregateSent || st.repPartialSent || st.executed then n
      else
        let sigs := RoundState.prepares st digest
        let n := n.setState view seq { st with repPartialTimer := false, repPartialSent := true }
        let n := n.broadcast
          { type := .outPrepare, sender := n.id, view := view, seq := seq, digest := digest,
            signatures := sigs, group := n.myGroup }
          n.membership.representatives
        match n.myGroup with
        | some group =>
            let n := n.count S view seq (.addGroupAggregate group digest sigs)
            n.checkVoteThreshold S view seq
        | none =>
            -- the roles have changed; the ledger is there when the call raises
            let st := n.state view seq
            n.setState view seq { st with ledger := some (n.ledger S st) }

/-- Block the representative and speak to the representatives of the other groups. -/
def model1Block (n : Node) (view seq : ℤ) : Node :=
  let st := n.state view seq
  let n := n.setState view seq { st with repBlocked := true, repTimer := false }
  match n.myGroup with
  | none => n
  | some group =>
      let digest := st.digest.getD ""
      n.broadcast
        { type := .outPrepare, sender := n.id, view := view, seq := seq, digest := digest,
          signatures := [sign n.id digest], group := some group }
        (n.membership.representatives.eraseIdx group)

/-- The representative was silent past the timeout. -/
def onRepTimeout (n : Node) (view seq : ℤ) : Node :=
  let st := n.state view seq
  let n := n.setState view seq { st with repTimer := false }
  if st.repOk || st.repBlocked || st.executed then n else n.model1Block view seq

def onInPrepare2 (n : Node) (msg : Message) : Node :=
  match n.myGroup with
  | none => n
  | some group =>
      if msg.view ≠ n.view ∨ msg.group ≠ some group then n
      else if n.membership.representatives[group]? ≠ some msg.sender ∨ n.isRepresentative then n
      else
        let st := n.state msg.view msg.seq
        match st.digest with
        | none => n
        | some digest =>
            if st.repOk || st.repBlocked then n
            else if msg.digest ≠ digest then n.model1Block msg.view msg.seq
            else
              let members := n.membership.groups.getD group []
              let valid := (msg.signatures.filter fun sig =>
                sigValid sig msg.digest && decide (sigSigner sig ∈ members)).dedup
              if valid.length < S.params.sigQuorum then n.model1Block msg.view msg.seq
              else n.setState msg.view msg.seq { st with repOk := true, repTimer := false }

/-! ## Out-prepare, commit and preprepare2 -/

def onOutPrepare (n : Node) (msg : Message) : Node :=
  if n.isRepresentative = false ∨ msg.view ≠ n.view then n
  else
    let counted (c : VoteLedger.Call) : Node :=
      (n.count S msg.view msg.seq c).checkVoteThreshold S msg.view msg.seq
    match n.membership.groupOf msg.sender with
    | none =>
        if msg.sender ∈ n.membership.ungrouped then
          counted (.addUngrouped msg.sender msg.digest msg.signatures)
        else
          -- the ledger has been created by then
          let st := n.state msg.view msg.seq
          n.setState msg.view msg.seq { st with ledger := some (n.ledger S st) }
    | some senderGroup =>
        if n.membership.representatives[senderGroup]? = some msg.sender then
          counted (.addGroupAggregate senderGroup msg.digest msg.signatures)
        else counted (.addGroupIndividual senderGroup msg.digest msg.signatures)

/-- Append a block with the digest, and draw the roles of the next round. -/
def execute (n : Node) (view seq : ℤ) (digest : String) : Node :=
  let st := n.state view seq
  if st.executed || n.committed digest then n
  else
    let n := n.setState view seq { st with executed := true, repTimer := false }
    let payload := n.pending.getD digest (st.payload.getD "")
    let block : Block := ⟨seq, digest, payload, n.headHash S⟩
    let n := { n with
      chain := n.chain ++ [block]
      lastCommittedPrimary := some n.membership.primary
      watchdogs := n.watchdogs.erase digest }
    let n := n.send
      { type := .reply, sender := n.id, view := view, seq := seq, digest := digest } "client"
    { n with membership := n.computeMembership S n.view }

def onCommit (n : Node) (msg : Message) : Node :=
  if n.isPrimary = false ∨ msg.view ≠ n.view then n
  else
    let st := n.state msg.view msg.seq
    if st.preprepare2Sent then n
    else if commitAccepted S.params msg then
      let valid := validSignatures msg.signatures msg.digest
      let n := n.setState msg.view msg.seq
        { st with commitProofs := st.commitProofs.set msg.digest valid, preprepare2Sent := true }
      let n := n.broadcast
        { type := .preprepare2, sender := n.id, view := msg.view, seq := msg.seq,
          digest := msg.digest, signatures := valid, votes := msg.votes }
        n.membership.allNodes
      n.execute S msg.view msg.seq msg.digest
    else n

def onPreprepare2 (n : Node) (msg : Message) : Node :=
  if msg.sender ≠ n.membership.primary ∨ msg.view ≠ n.view then n
  else if preprepare2Accepted S.params msg then n.execute S msg.view msg.seq msg.digest
  else n

/-! ## View change -/

def maybeAdoptView (n : Node) (newView : ℤ) : Node :=
  let quorum := 2 * ((S.params.n - 1) / 3) + 1
  if newView ≤ n.view ∨ (n.viewchangeVotes.getD newView []).length < quorum then n
  else
    let n := { n with view := newView, membership := n.computeMembership S newView }
    if n.isPrimary then
      match n.pending.keys.find? fun digest => !n.committed digest with
      | some digest => n.propose digest
      | none => n
    else n

/-- The vote of a node for a view. -/
def addVote (n : Node) (newView : ℤ) (voter : String) : Node :=
  { n with viewchangeVotes :=
      n.viewchangeVotes.set newView ((n.viewchangeVotes.getD newView []).insert voter) }

def voteViewChange (n : Node) (newView : ℤ) : Node :=
  if newView ≤ n.votedView ∨ newView ≤ n.view then n
  else
    let n := { n with votedView := newView }.addVote newView n.id
    let n := n.broadcast
      { type := .viewChange, sender := n.id, view := n.view, seq := 0, newView := some newView }
      n.membership.allNodes
    n.maybeAdoptView S newView

def onViewChange (n : Node) (msg : Message) : Node :=
  match msg.newView with
  | none => n
  | some newView =>
      if newView ≤ n.view then n
      else
        let n := n.addVote newView msg.sender
        let echoQuorum := (S.params.n - 1) / 3 + 1
        let n :=
          if echoQuorum ≤ (n.viewchangeVotes.getD newView []).length ∧ n.votedView < newView then
            n.voteViewChange S newView
          else n
        n.maybeAdoptView S newView

/-- The watchdog of an undecided request goes off. -/
def onWatchdog (n : Node) (digest : String) : Node :=
  if n.committed digest then n else n.voteViewChange S (max n.view n.votedView + 1)

/-! ## Events -/

def handle (n : Node) (msg : Message) : Node :=
  match msg.type with
  | .request => n.onRequest S msg
  | .preprepare1 => n.onPreprepare1 S msg
  | .inPrepare1 => n.onInPrepare1 S msg
  | .inPrepare2 => n.onInPrepare2 S msg
  | .outPrepare => n.onOutPrepare S msg
  | .commit => n.onCommit S msg
  | .preprepare2 => n.onPreprepare2 S msg
  | .viewChange => n.onViewChange S msg
  | .reply => n

end Node

/-- What makes a node act. -/
inductive Event
  | deliver (msg : Message)
  | repTimeout (view seq : ℤ)
  | repPartialTimeout (view seq : ℤ)
  | watchdog (digest : String)

namespace Node

variable (S : Setting)

/-- The event can happen: the timer is armed. -/
def Armed (n : Node) : Event → Prop
  | .deliver _ => True
  | .repTimeout view seq => (n.state view seq).repTimer = true
  | .repPartialTimeout view seq => (n.state view seq).repPartialTimer = true
  | .watchdog digest => digest ∈ n.watchdogs

instance (n : Node) : ∀ e, Decidable (n.Armed e)
  | .deliver _ => inferInstanceAs (Decidable True)
  | .repTimeout _ _ => inferInstanceAs (Decidable (_ = true))
  | .repPartialTimeout _ _ => inferInstanceAs (Decidable (_ = true))
  | .watchdog _ => inferInstanceAs (Decidable (_ ∈ _))

def act (n : Node) : Event → Node
  | .deliver msg => n.handle S msg
  | .repTimeout view seq => n.onRepTimeout view seq
  | .repPartialTimeout view seq => n.onRepPartialTimeout S view seq
  | .watchdog digest => n.onWatchdog S digest

end Node

end Nbft
end DistributedConsensus
