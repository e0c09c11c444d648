import DistributedConsensus.Nbft.Node

/-!
# NBFT: what an event does to a node

All handlers but those of COMMIT and PREPREPARE2 leave the chain as it is, keep what
the node has prepared, and send no PREPREPARE2.  The two append at most one block, in
`execute`.
-/

namespace DistributedConsensus
namespace Nbft
namespace Node

open Foundations

variable (S : Setting)

/-- The payloads the node knows are found under their digests. -/
def PendingSound (n : Node) : Prop :=
  ∀ digest payload, n.pending.get? digest = some payload →
    payloadDigest S.hashes payload = digest

/-- A step without a block. -/
structure Moves (n n' : Node) : Prop where
  id_eq : n'.id = n.id
  chain_eq : n'.chain = n.chain
  pending : n.PendingSound S → n'.PendingSound S
  digest : ∀ view seq d, (n.state view seq).digest = some d →
    (n'.state view seq).digest = some d
  executed : ∀ view seq, (n'.state view seq).executed = (n.state view seq).executed
  sent : ∃ more, n'.sent = n.sent ++ more ∧ ∀ x ∈ more, x.2.type ≠ .preprepare2

variable {S} {n n' n'' : Node} {view seq : ℤ}

theorem Moves.refl (n : Node) : n.Moves S n where
  id_eq := rfl
  chain_eq := rfl
  pending := fun h => h
  digest := fun _ _ _ h => h
  executed := fun _ _ => rfl
  sent := ⟨[], (List.append_nil _).symm, nofun⟩

theorem Moves.trans
    (h : n.Moves S n')
    (h' : n'.Moves S n'') :
    n.Moves S n'' where
  id_eq := h'.id_eq.trans h.id_eq
  chain_eq := h'.chain_eq.trans h.chain_eq
  pending := h'.pending ∘ h.pending
  digest := fun view seq d hd => h'.digest view seq d (h.digest view seq d hd)
  executed := fun view seq => (h'.executed view seq).trans (h.executed view seq)
  sent := by
    obtain ⟨more, hsent, hmore⟩ := h.sent
    obtain ⟨more', hsent', hmore'⟩ := h'.sent
    refine ⟨more ++ more', by rw [hsent', hsent, List.append_assoc], ?_⟩
    intro x hx
    rcases List.mem_append.mp hx with hx | hx
    · exact hmore x hx
    · exact hmore' x hx

/-! ## Effects -/

theorem state_setState (n : Node) (view seq view' seq' : ℤ) (st : RoundState) :
    (n.setState view seq st).state view' seq'
      = if (view', seq') = (view, seq) then st else n.state view' seq' := by
  simp only [state, setState, Dict.getD_set]

theorem digest_setState
    {st : RoundState}
    (hdigest : ∀ d, (n.state view seq).digest = some d → st.digest = some d)
    (view' seq' : ℤ)
    (d : String)
    (hd : (n.state view' seq').digest = some d) :
    ((n.setState view seq st).state view' seq').digest = some d := by
  rw [state_setState]
  split
  case isTrue heq =>
    obtain ⟨rfl, rfl⟩ := Prod.mk.inj heq
    exact hdigest d hd
  case isFalse => exact hd

/-- Change the state of a round, but neither what was prepared nor what was executed. -/
theorem Moves.setState
    {st : RoundState}
    (hdigest : ∀ d, (n.state view seq).digest = some d → st.digest = some d)
    (hexecuted : st.executed = (n.state view seq).executed) :
    n.Moves S (n.setState view seq st) where
  id_eq := rfl
  chain_eq := rfl
  pending := fun h => h
  digest := digest_setState hdigest
  executed := by
    intro view' seq'
    rw [state_setState]
    split
    case isTrue heq =>
      obtain ⟨rfl, rfl⟩ := Prod.mk.inj heq
      exact hexecuted
    case isFalse => rfl
  sent := ⟨[], (List.append_nil _).symm, nofun⟩

/-- Change what a step without a block may change freely. -/
theorem Moves.outside
    (hid : n'.id = n.id)
    (hchain : n'.chain = n.chain)
    (hstates : n'.states = n.states)
    (hpending : n'.pending = n.pending)
    (hsent : ∃ more, n'.sent = n.sent ++ more ∧ ∀ x ∈ more, x.2.type ≠ .preprepare2) :
    n.Moves S n' where
  id_eq := hid
  chain_eq := hchain
  pending := by
    unfold PendingSound
    rw [hpending]
    exact fun h => h
  digest := by
    unfold state
    rw [hstates]
    exact fun _ _ _ h => h
  executed := by
    unfold state
    rw [hstates]
    exact fun _ _ => rfl
  sent := hsent

theorem Moves.send
    {msg : Message} {recipient : String}
    (h : msg.type ≠ .preprepare2) :
    n.Moves S (n.send msg recipient) :=
  .outside rfl rfl rfl rfl ⟨[(recipient, msg)], rfl, by simpa using h⟩

theorem Moves.broadcast
    {msg : Message} {recipients : List String}
    (h : msg.type ≠ .preprepare2) :
    n.Moves S (n.broadcast msg recipients) := by
  refine .outside rfl rfl rfl rfl ⟨_, rfl, ?_⟩
  intro x hx
  obtain ⟨r, -, rfl⟩ := List.mem_map.mp hx
  exact h

/-- Learn a payload. -/
theorem Moves.learn
    {digest payload : String}
    (h : payloadDigest S.hashes payload = digest) :
    n.Moves S (n.learn digest payload) where
  id_eq := rfl
  chain_eq := rfl
  pending := by
    intro hpending digest' payload' hget
    simp only [Node.learn, Dict.get?_set] at hget
    split at hget
    case isTrue heq =>
      rw [heq, ← Option.some.inj hget]
      exact h
    case isFalse => exact hpending digest' payload' hget
  digest := fun _ _ _ h => h
  executed := fun _ _ => rfl
  sent := ⟨[], (List.append_nil _).symm, nofun⟩

/-- Take a digest in a round that has none. -/
theorem Moves.prepare
    {digest payload : String}
    (hfree : (n.state view seq).digest = none) :
    n.Moves S (n.prepare view seq digest payload) := by
  refine .setState ?_ rfl
  intro d hd
  rw [hfree] at hd
  cases hd

/-- Change watchdogs and votes for views. -/
theorem Moves.aside
    (watchdogs : List String)
    (votes : Dict ℤ (List String))
    (votedView : ℤ) :
    n.Moves S { n with
      watchdogs := watchdogs, viewchangeVotes := votes, votedView := votedView } :=
  .outside rfl rfl rfl rfl ⟨[], (List.append_nil _).symm, nofun⟩

/-- Move on to another view. -/
theorem Moves.adopt
    (newView : ℤ)
    (ms : Membership) :
    n.Moves S { n with view := newView, membership := ms } :=
  .outside rfl rfl rfl rfl ⟨[], (List.append_nil _).symm, nofun⟩

/-! ## Handlers without a block -/

theorem moves_propose (digest : String) : n.Moves S (n.propose digest) := by
  simp only [propose]
  split
  case isTrue => exact .refl n
  case isFalse hfree =>
    rw [Bool.or_eq_true, not_or, Option.not_isSome_iff_eq_none] at hfree
    refine Moves.trans ?_ (.broadcast fun htype => by cases htype)
    exact .prepare hfree.2

theorem moves_onRequest (msg : Message) : n.Moves S (n.onRequest S msg) := by
  simp only [onRequest]
  have hlearn : n.Moves S (n.learn (payloadDigest S.hashes msg.payload) msg.payload) :=
    .learn rfl
  refine hlearn.trans ?_
  split
  · exact .send nofun
  · split
    · exact moves_propose _
    · split
      · exact .aside _ _ _
      · exact .refl _

theorem moves_checkVoteThreshold : n.Moves S (n.checkVoteThreshold S view seq) := by
  simp only [checkVoteThreshold]
  split
  case h_1 => exact .refl n
  case h_2 digest hdigest =>
    split
    · exact .refl n
    · split
      · refine Moves.trans ?_ (.send nofun)
        exact .setState (fun _ h => h) rfl
      · exact .setState (fun _ h => h) rfl

theorem moves_count (c : VoteLedger.Call) : n.Moves S (n.count S view seq c) :=
  .setState (fun _ h => h) rfl

theorem moves_sendAggregate (digest : String) (group : ℕ) :
    n.Moves S (n.sendAggregate S view seq digest group) := by
  simp only [sendAggregate]
  refine Moves.trans ?_ moves_checkVoteThreshold
  refine Moves.trans ?_ (moves_count _)
  refine Moves.trans ?_ (.broadcast nofun)
  refine Moves.trans ?_ (.broadcast nofun)
  exact .setState (fun _ h => h) rfl

theorem moves_maybeAggregate (group : ℕ) :
    n.Moves S (n.maybeAggregate S view seq group) := by
  simp only [maybeAggregate]
  split
  · split
    · exact moves_sendAggregate _ _
    · exact .refl n
  · exact .refl n

theorem moves_gather (digest : String) (sigs : List String) :
    n.Moves S (n.gather view seq digest sigs) :=
  .setState (fun _ h => h) rfl

theorem moves_onPreprepare1 (msg : Message) : n.Moves S (n.onPreprepare1 S msg) := by
  simp only [onPreprepare1]
  split
  · exact .refl n
  · split
    · exact .refl n
    · split
      · exact .refl n
      case isFalse hpayload hfree =>
        rw [not_or, not_not, not_not] at hpayload
        rw [Option.not_isSome_iff_eq_none] at hfree
        have hprepare : n.Moves S ((n.prepare msg.view msg.seq msg.digest msg.payload).learn
            msg.digest msg.payload) := Moves.trans (.prepare hfree) (.learn hpayload.2)
        refine hprepare.trans ?_
        split
        · exact .broadcast nofun
        · split
          · refine Moves.trans ?_ (.setState (fun _ h => h) rfl)
            refine Moves.trans ?_ (moves_maybeAggregate _)
            exact moves_gather _ _
          · refine Moves.trans ?_ (.setState (fun _ h => h) rfl)
            refine Moves.trans ?_ (.send nofun)
            exact moves_gather _ _

theorem moves_onInPrepare1 (msg : Message) : n.Moves S (n.onInPrepare1 S msg) := by
  simp only [onInPrepare1]
  split
  · exact .refl n
  · split
    · exact .refl n
    · split
      · exact .refl n
      · exact Moves.trans (moves_gather _ _) (moves_maybeAggregate _)

theorem moves_onRepPartialTimeout : n.Moves S (n.onRepPartialTimeout S view seq) := by
  simp only [onRepPartialTimeout]
  have htimer : n.Moves S (n.setState view seq
      { n.state view seq with repPartialTimer := false }) := .setState (fun _ h => h) rfl
  split
  · exact htimer
  · split
    · exact htimer
    · have hsent : n.Moves S ((n.setState view seq
          { n.state view seq with repPartialTimer := false }).setState view seq
          { n.state view seq with repPartialTimer := false, repPartialSent := true }) := by
        refine htimer.trans (.setState ?_ ?_)
        · rw [state_setState, if_pos rfl]
          exact fun _ h => h
        · rw [state_setState, if_pos rfl]
      refine hsent.trans ?_
      split
      · refine Moves.trans ?_ moves_checkVoteThreshold
        refine Moves.trans ?_ (moves_count _)
        exact .broadcast nofun
      · refine Moves.trans ?_ (.setState (fun _ h => h) rfl)
        exact .broadcast nofun

theorem moves_model1Block : n.Moves S (n.model1Block view seq) := by
  simp only [model1Block]
  have hblock : n.Moves S (n.setState view seq
      { n.state view seq with repBlocked := true, repTimer := false }) :=
    .setState (fun _ h => h) rfl
  split
  · exact hblock
  · exact hblock.trans (.broadcast nofun)

theorem moves_onRepTimeout : n.Moves S (n.onRepTimeout view seq) := by
  simp only [onRepTimeout]
  have htimer : n.Moves S (n.setState view seq { n.state view seq with repTimer := false }) :=
    .setState (fun _ h => h) rfl
  split
  · exact htimer
  · exact htimer.trans moves_model1Block

theorem moves_onInPrepare2 (msg : Message) : n.Moves S (n.onInPrepare2 S msg) := by
  simp only [onInPrepare2]
  split
  · exact .refl n
  · split
    · exact .refl n
    · split
      · exact .refl n
      · split
        · exact .refl n
        · split
          · exact .refl n
          · split
            · exact moves_model1Block
            · split
              · exact moves_model1Block
              · exact .setState (fun _ h => h) rfl

theorem moves_onOutPrepare (msg : Message) : n.Moves S (n.onOutPrepare S msg) := by
  simp only [onOutPrepare]
  split
  · exact .refl n
  · split
    · split
      · exact Moves.trans (moves_count _) moves_checkVoteThreshold
      · exact .setState (fun _ h => h) rfl
    · split
      · exact Moves.trans (moves_count _) moves_checkVoteThreshold
      · exact Moves.trans (moves_count _) moves_checkVoteThreshold

theorem moves_maybeAdoptView (newView : ℤ) : n.Moves S (n.maybeAdoptView S newView) := by
  simp only [maybeAdoptView]
  split
  · exact .refl n
  · refine Moves.trans (.adopt newView (n.computeMembership S newView)) ?_
    split
    · split
      · exact moves_propose _
      · exact .refl _
    · exact .refl _

theorem moves_voteViewChange (newView : ℤ) : n.Moves S (n.voteViewChange S newView) := by
  simp only [voteViewChange]
  split
  · exact .refl n
  · refine Moves.trans ?_ (moves_maybeAdoptView _)
    refine Moves.trans ?_ (.broadcast nofun)
    exact .aside _ _ _

theorem moves_onViewChange (msg : Message) : n.Moves S (n.onViewChange S msg) := by
  simp only [onViewChange]
  split
  · exact .refl n
  · split
    · exact .refl n
    case isFalse newView _ _ =>
      have hvote : n.Moves S (n.addVote newView msg.sender) := .aside _ _ _
      refine hvote.trans (Moves.trans ?_ (moves_maybeAdoptView _))
      split
      · exact moves_voteViewChange _
      · exact .refl _

theorem moves_onWatchdog (digest : String) : n.Moves S (n.onWatchdog S digest) := by
  simp only [onWatchdog]
  split
  · exact .refl n
  · exact moves_voteViewChange _

/-! ## Handlers with a block -/

/-- The proof of a COMMIT or a PREPREPARE2 is accepted. -/
def Accepts (S : Setting) (n : Node) (msg : Message) : Bool :=
  decide (msg.view = n.view) &&
    match msg.type with
    | .commit => n.isPrimary && !(n.state msg.view msg.seq).preprepare2Sent &&
        commitAccepted S.params msg
    | .preprepare2 => decide (msg.sender = n.membership.primary) &&
        preprepare2Accepted S.params msg
    | _ => false

/-- Neither the round nor the digest has been executed. -/
def Undecided (n : Node) (msg : Message) : Bool :=
  !((n.state msg.view msg.seq).executed || n.committed msg.digest)

/-- The block that is appended for an accepted proof. -/
def blockOf (S : Setting) (n : Node) (msg : Message) : Block :=
  ⟨msg.seq, msg.digest,
    n.pending.getD msg.digest ((n.state msg.view msg.seq).payload.getD ""), n.headHash S⟩

/-- A step with an accepted proof. -/
structure Decides (S : Setting) (n n' : Node) (msg : Message) : Prop where
  id_eq : n'.id = n.id
  view_eq : n'.view = n.view
  chain_eq : n'.chain = n.chain ++ if n.Undecided msg then [n.blockOf S msg] else []
  pending_eq : n'.pending = n.pending
  digest : ∀ view seq d, (n.state view seq).digest = some d →
    (n'.state view seq).digest = some d
  executed : ∀ view seq, (n'.state view seq).executed = true →
    (n.state view seq).executed = true ∨
      (n.Undecided msg = true ∧ view = msg.view ∧ seq = msg.seq)
  sent : ∃ more, n'.sent = n.sent ++ more ∧ ∀ x ∈ more, x.2.type = .preprepare2 →
    msg.type = .commit ∧ x.2.sender = n.id ∧ x.2.seq = msg.seq ∧ x.2.digest = msg.digest

theorem decides_execute
    {msg : Message} :
    n.Decides S (n.execute S msg.view msg.seq msg.digest) msg := by
  simp only [execute]
  split
  case isTrue hdone =>
    have hdecided : n.Undecided msg = false := by rw [Undecided, hdone, Bool.not_true]
    refine ⟨rfl, rfl, ?_, rfl, fun _ _ _ h => h, fun _ _ h => Or.inl h, [],
      (List.append_nil _).symm, fun x hx => by cases hx⟩
    rw [hdecided]
    exact (List.append_nil _).symm
  case isFalse hfree =>
    have hundecided : n.Undecided msg = true := by
      rw [Undecided, Bool.eq_false_of_not_eq_true hfree, Bool.not_false]
    refine ⟨rfl, rfl, ?_, rfl, ?_, ?_, _, rfl, ?_⟩
    · rw [hundecided]
      rfl
    · exact @digest_setState n msg.view msg.seq
        { n.state msg.view msg.seq with executed := true, repTimer := false } fun _ h => h
    · intro view seq hexecuted
      change ((n.setState msg.view msg.seq { n.state msg.view msg.seq with
        executed := true, repTimer := false }).state view seq).executed = true at hexecuted
      rw [state_setState] at hexecuted
      split at hexecuted
      case isTrue heq => exact Or.inr ⟨hundecided, Prod.mk.inj heq⟩
      case isFalse => exact Or.inl hexecuted
    · intro x hx
      rw [List.mem_singleton.mp hx]
      exact fun htype => by cases htype

theorem decides_onCommit
    {msg : Message}
    (htype : msg.type = .commit)
    (h : n.Accepts S msg = true) :
    n.Decides S (n.onCommit S msg) msg := by
  simp only [Accepts, htype, Bool.and_eq_true, decide_eq_true_eq, Bool.not_eq_true'] at h
  obtain ⟨hview, ⟨hprimary, hsent⟩, haccepted⟩ := h
  simp only [onCommit]
  rw [if_neg (by simp [hprimary, hview]), if_neg (by simp [hsent]), if_pos haccepted]
  let valid := validSignatures msg.signatures msg.digest
  let st := n.state msg.view msg.seq
  let proposed := n.setState msg.view msg.seq
    { st with commitProofs := st.commitProofs.set msg.digest valid, preprepare2Sent := true }
  let pp2 : Message :=
    { type := .preprepare2, sender := n.id, view := msg.view, seq := msg.seq,
      digest := msg.digest, signatures := valid, votes := msg.votes }
  let announced := proposed.broadcast pp2 n.membership.allNodes
  have hdecides : announced.Decides S (announced.execute S msg.view msg.seq msg.digest) msg :=
    decides_execute
  have hstate : announced.state msg.view msg.seq
      = { st with commitProofs := st.commitProofs.set msg.digest valid, preprepare2Sent := true } :=
    (state_setState _ _ _ _ _ _).trans (if_pos rfl)
  have hundecided : announced.Undecided msg = n.Undecided msg := by
    simp only [Undecided, hstate]
    rfl
  have hblock : announced.blockOf S msg = n.blockOf S msg := by
    simp only [blockOf, hstate]
    rfl
  have hmoves : n.Moves S proposed := .setState (fun _ h => h) rfl
  refine ⟨hdecides.id_eq, hdecides.view_eq, ?_, hdecides.pending_eq, ?_, ?_, ?_⟩
  · rw [← hundecided, ← hblock]
    exact hdecides.chain_eq
  · intro view seq d hd
    exact hdecides.digest view seq d (hmoves.digest view seq d hd)
  · intro view seq hexecuted
    rw [← hundecided, ← hmoves.executed view seq]
    exact hdecides.executed view seq hexecuted
  · obtain ⟨more, hmore, hrest⟩ := hdecides.sent
    refine ⟨_, hmore.trans (List.append_assoc _ _ _), ?_⟩
    intro x hx htype'
    rcases List.mem_append.mp hx with hx | hx
    · obtain ⟨r, -, rfl⟩ := List.mem_map.mp hx
      exact ⟨htype, rfl, rfl, rfl⟩
    · exact hrest x hx htype'

theorem decides_onPreprepare2
    {msg : Message}
    (htype : msg.type = .preprepare2)
    (h : n.Accepts S msg = true) :
    n.Decides S (n.onPreprepare2 S msg) msg := by
  simp only [Accepts, htype, Bool.and_eq_true, decide_eq_true_eq] at h
  obtain ⟨hview, hprimary, haccepted⟩ := h
  simp only [onPreprepare2]
  rw [if_neg (by simp [hprimary, hview]), if_pos haccepted]
  exact decides_execute

/-- A COMMIT that is not accepted changes nothing. -/
theorem onCommit_of_not_accepts
    {msg : Message}
    (htype : msg.type = .commit)
    (h : n.Accepts S msg = false) :
    n.onCommit S msg = n := by
  simp only [onCommit]
  split
  · rfl
  case isFalse hturn =>
    rw [not_or, not_not, Bool.not_eq_false] at hturn
    split
    · rfl
    case isFalse hsent =>
      rw [if_neg]
      intro haccepted
      rw [hturn.2] at hsent
      simp [Accepts, htype, hturn.1, hturn.2, hsent, haccepted] at h

theorem onPreprepare2_of_not_accepts
    {msg : Message}
    (htype : msg.type = .preprepare2)
    (h : n.Accepts S msg = false) :
    n.onPreprepare2 S msg = n := by
  simp only [onPreprepare2]
  split
  · rfl
  case isFalse hturn =>
    rw [not_or, not_not, not_not] at hturn
    rw [if_neg]
    intro haccepted
    simp [Accepts, htype, hturn.1, hturn.2, haccepted] at h

theorem moves_handle
    {msg : Message}
    (h : n.Accepts S msg = false) :
    n.Moves S (n.handle S msg) := by
  unfold handle
  cases htype : msg.type with
  | request => exact moves_onRequest msg
  | preprepare1 => exact moves_onPreprepare1 msg
  | inPrepare1 => exact moves_onInPrepare1 msg
  | inPrepare2 => exact moves_onInPrepare2 msg
  | outPrepare => exact moves_onOutPrepare msg
  | commit =>
      simp only [onCommit_of_not_accepts htype h]
      exact .refl n
  | preprepare2 =>
      simp only [onPreprepare2_of_not_accepts htype h]
      exact .refl n
  | reply => exact .refl n
  | viewChange => exact moves_onViewChange msg

theorem decides_handle
    {msg : Message}
    (h : n.Accepts S msg = true) :
    n.Decides S (n.handle S msg) msg := by
  unfold handle
  cases htype : msg.type with
  | commit => exact decides_onCommit htype h
  | preprepare2 => exact decides_onPreprepare2 htype h
  | request | preprepare1 | inPrepare1 | inPrepare2 | outPrepare | reply | viewChange =>
      simp [Accepts, htype] at h

/-- Without an accepted proof an event is a step without a block; with one the node
decides. -/
theorem act_spec (n : Node) (e : Event) :
    (∃ msg, e = .deliver msg ∧ n.Accepts S msg = true ∧ n.Decides S (n.act S e) msg) ∨
      ((∀ msg, e = .deliver msg → n.Accepts S msg = false) ∧ n.Moves S (n.act S e)) := by
  cases e with
  | deliver msg =>
      cases haccepts : n.Accepts S msg with
      | true => exact Or.inl ⟨msg, rfl, haccepts, decides_handle haccepts⟩
      | false =>
          refine Or.inr ⟨?_, moves_handle haccepts⟩
          intro msg' heq
          rw [← Event.deliver.inj heq]
          exact haccepts
  | repTimeout view seq => exact Or.inr ⟨nofun, moves_onRepTimeout⟩
  | repPartialTimeout view seq => exact Or.inr ⟨nofun, moves_onRepPartialTimeout⟩
  | watchdog digest => exact Or.inr ⟨nofun, moves_onWatchdog digest⟩

end Node

end Nbft
end DistributedConsensus
