import DistributedConsensus.GoHotStuff.Forward
import DistributedConsensus.Foundations.LockVoting
import Mathlib.Data.Fintype.Sets

/-!
# Go HotStuff: one certificate per phase and view

The correct nodes handle their inputs over a network that may delay, reorder, duplicate
and lose messages.  The faulty ones send any messages under their own ids, put nodes into
the shared store and combine shares, as long as every signature of a correct node was made
by that node.

The map `Voted` of a correct node holds all of its votes, one for each phase and view.
Two quorums share a correct node, so two valid certificates of one phase and view are for
the same node of the tree (`certificates_agree`).
-/

namespace DistributedConsensus
namespace GoHotStuff

open Foundations

/-- A node has signed a vote. -/
def HasVoted (signed : List Ballot) (id : String) (type : MsgType) (viewNumber : ℤ)
    (nodeHash : String) : Prop :=
  ∃ ballot ∈ signed, ballot.voter = id ∧ ballot.phase = type ∧
    ballot.viewNumber = viewNumber ∧ ballot.nodeHash = nodeHash

/-- A signature of a correct node was made by that node. -/
def Authentic (cfg : Config) (byz : Finset String) (signed : List Ballot)
    (share : SignatureShare) : Prop :=
  match share.signature with
  | none => True
  | some s => s.signer ∈ cfg.nodeIDs → s.signer ∉ byz →
      HasVoted signed s.signer s.type s.viewNumber s.nodeHash

instance (signed : List Ballot) (id : String) (type : MsgType) (viewNumber : ℤ)
    (nodeHash : String) : Decidable (HasVoted signed id type viewNumber nodeHash) :=
  inferInstanceAs (Decidable (∃ ballot ∈ signed, _))

instance (cfg : Config) (byz : Finset String) (signed : List Ballot) (share : SignatureShare) :
    Decidable (Authentic cfg byz signed share) := by
  unfold Authentic
  split <;> infer_instance

/-- The network and the faulty nodes can produce the input. -/
def Deliverable (cfg : Config) (byz : Finset String) (shared : Shared) (id : String) :
    Event → Prop
  | .message msg =>
      (id, msg) ∈ shared.sent ∨ msg.senderID ∈ byz ∧
        ∀ share ∈ msg.partialSig, Authentic cfg byz shared.signed share
  | _ => True

instance (cfg : Config) (byz : Finset String) (shared : Shared) (id : String) (e : Event) :
    Decidable (Deliverable cfg byz shared id e) :=
  match e with
  | .message msg => inferInstanceAs (Decidable ((id, msg) ∈ shared.sent ∨ msg.senderID ∈ byz ∧
      ∀ share ∈ msg.partialSig, Authentic cfg byz shared.signed share))
  | .start => isTrue trivial
  | .command _ => isTrue trivial
  | .timeout _ => isTrue trivial

structure World where
  nodes : String → Node
  shared : Shared

/-- A node with the services. -/
def World.process (w : World) (id : String) : Process := ⟨w.nodes id, w.shared⟩

theorem process_update_self (nodes : String → Node) (id : String) (p : Process) :
    (World.mk (Function.update nodes id p.toNode) p.shared).process id = p := by
  simp [World.process]

theorem process_update_of_ne
    {w : World} {id actor : String} {p : Process}
    (hne : id ≠ actor) :
    (World.mk (Function.update w.nodes actor p.toNode) p.shared).process id =
      { w.process id with shared := p.shared } := by
  simp [World.process, Function.update_of_ne hne]

/-- A correct node handles an event, or a faulty one uses the services. -/
inductive Label where
  | handle (id : String) (o : MapOrder String) (e : Event)
  | store (node : TreeNode)
  | combine (type : MsgType) (viewNumber : ℤ) (nodeHash : String)
      (shares : Dict String SignatureShare)

/-- The network of nodes of which those in `byz` are faulty. -/
def cluster (cfg : Config) (byz : Finset String) : System World Label where
  init := ⟨Node.new, Shared.empty⟩
  step w
    | .handle id o e =>
        if id ∈ cfg.nodeIDs ∧ id ∉ byz ∧ Deliverable cfg byz w.shared id e then
          some ⟨Function.update w.nodes id ((w.process id).handle cfg o e).toNode,
            ((w.process id).handle cfg o e).shared⟩
        else none
    | .store node =>
        if byz.Nonempty then
          some { w with
            shared := { w.shared with nodeStore := w.shared.nodeStore.storeNode node } }
        else none
    | .combine type viewNumber nodeHash shares =>
        if byz.Nonempty ∧ ∀ share ∈ shares.values, Authentic cfg byz w.shared.signed share then
          (combine cfg w.shared.certificates type viewNumber nodeHash shares).map fun result =>
            { w with shared := { w.shared with certificates := result.2 } }
        else none

/-! ## Quorums -/

section Quorums

/-- A node of the network. -/
abbrev Member (cfg : Config) : Type := { id // id ∈ cfg.nodeIDs.toFinset }

variable {cfg : Config} {byz : Finset String}

/-- The voting group of a network with few faulty nodes. -/
def votingGroup
    (hnodup : cfg.nodeIDs.Nodup)
    (hpos : 0 < cfg.nodeIDs.length)
    (hbyz : byz.card ≤ (cfg.nodeIDs.length - 1) / 3) :
    LockVoting.Group (Member cfg) where
  faulty := byz.subtype (· ∈ cfg.nodeIDs.toFinset)
  quorum := cfg.quorum
  quorum_large := by
    have hcard : Fintype.card (Member cfg) = cfg.nodeIDs.length := by
      rw [Fintype.card_coe, List.toFinset_card_of_nodup hnodup]
    have hfaulty : (byz.subtype (· ∈ cfg.nodeIDs.toFinset)).card ≤ byz.card := by
      rw [Finset.card_subtype]
      exact Finset.card_filter_le _ _
    unfold Config.quorum
    omega

/-- A quorum of nodes supports a vote; the faulty ones support all. -/
def Certified (cfg : Config) (byz : Finset String) (signed : List Ballot) (type : MsgType)
    (viewNumber : ℤ) (nodeHash : String) : Prop :=
  ∃ Q : Finset (Member cfg), cfg.quorum ≤ Q.card ∧
    ∀ i ∈ Q, i.1 ∉ byz → HasVoted signed i.1 type viewNumber nodeHash

variable {signed signed' : List Ballot} {type : MsgType} {viewNumber : ℤ} {nodeHash : String}

theorem HasVoted.mono
    {id : String}
    (hsub : signed ⊆ signed')
    (h : HasVoted signed id type viewNumber nodeHash) :
    HasVoted signed' id type viewNumber nodeHash := by
  obtain ⟨ballot, hballot, hrest⟩ := h
  exact ⟨ballot, hsub hballot, hrest⟩

theorem Authentic.mono
    {share : SignatureShare}
    (hsub : signed ⊆ signed')
    (h : Authentic cfg byz signed share) :
    Authentic cfg byz signed' share := by
  obtain ⟨signerID, signature⟩ := share
  cases signature with
  | none => trivial
  | some s => exact fun hmem hcorrect => HasVoted.mono hsub (h hmem hcorrect)

theorem Certified.mono
    (hsub : signed ⊆ signed')
    (h : Certified cfg byz signed type viewNumber nodeHash) :
    Certified cfg byz signed' type viewNumber nodeHash := by
  obtain ⟨Q, hQ, hvotes⟩ := h
  exact ⟨Q, hQ, fun i hi hcorrect => (hvotes i hi hcorrect).mono hsub⟩

/-- A valid certificate with authentic shares is supported by a quorum. -/
theorem certified_of_verifyQC
    {certificates : Dict String CertificateRecord} {qc : QuorumCertificate}
    (hauth : ∀ token record, certificates.get? token = some record →
      ∀ id share, record.shares.get? id = some share → Authentic cfg byz signed share)
    (hqc : verifyQC cfg certificates qc = true) :
    Certified cfg byz signed qc.type qc.viewNumber qc.nodeHash := by
  obtain ⟨-, shares, hget, hsize, hvalid⟩ := verifyQC_iff.mp hqc
  have hshare : ∀ id ∈ shares.keys, ∃ share, shares.get? id = some share := by
    intro id hid
    by_contra hnone
    push Not at hnone
    exact (Dict.get?_eq_none_iff shares id).mp (Option.eq_none_iff_forall_ne_some.mpr hnone) hid
  have hmember : ∀ id ∈ shares.keys.toFinset, id ∈ cfg.nodeIDs.toFinset := by
    intro id hid
    obtain ⟨share, hshare⟩ := hshare id (List.mem_toFinset.mp hid)
    exact List.mem_toFinset.mpr (sharesValid_iff.mp hvalid id share hshare).2.1
  refine ⟨shares.keys.toFinset.subtype (· ∈ cfg.nodeIDs.toFinset), ?_, ?_⟩
  · have hcard : shares.keys.toFinset.card = shares.keys.length :=
      List.toFinset_card_of_nodup shares.nodup
    rw [Finset.card_subtype, Finset.filter_true_of_mem hmember, hcard]
    simpa [Dict.keys, Dict.size] using hsize
  · intro i hi hcorrect
    rw [Finset.mem_subtype, List.mem_toFinset] at hi
    obtain ⟨share, hshare⟩ := hshare i.1 hi
    obtain ⟨-, hmem, hsig⟩ := sharesValid_iff.mp hvalid i.1 share hshare
    have := hauth _ _ hget i.1 share hshare
    rw [Authentic, hsig] at this
    exact this hmem hcorrect

end Quorums

/-! ## What a correct node keeps -/

namespace Process

section Honest

variable {cfg : Config} {byz : Finset String} {K : SignatureShare → Prop}
variable {fresh : MsgType → ℤ → ℤ → Prop} {n n' : Process}

/-- All shares are authentic, and the votes of the node are in `Voted`. -/
structure Honest (cfg : Config) (byz : Finset String) (n : Process) : Prop where
  sent : ∀ p ∈ n.shared.sent, p.2.Signed (Authentic cfg byz n.shared.signed)
  certificates : ∀ token record, n.shared.certificates.get? token = some record →
    ∀ id share, record.shares.get? id = some share →
      Authentic cfg byz n.shared.signed share
  votes : ∀ key shares, n.votes.get? key = some shares →
    ∀ id share, shares.get? id = some share → Authentic cfg byz n.shared.signed share
  kept : Kept (Authentic cfg byz n.shared.signed) n
  voted : ∀ ballot ∈ n.shared.signed, ballot.voter = n.id →
    n.voted.get? (ballot.phase, ballot.viewNumber) = some ballot.nodeHash

theorem Kept.mono
    {K' : SignatureShare → Prop}
    (hsub : ∀ share, K share → K' share)
    (h : Kept K n) :
    Kept K' n := by
  intro view msgs hget msg hmsg
  obtain ⟨hview, hsigned⟩ := h view msgs hget msg hmsg
  exact ⟨hview, fun share hshare => hsub _ (hsigned share hshare)⟩

/-- New votes are by the node itself. -/
def Signs (n n' : Process) : Prop :=
  ∃ ballots, n'.shared.signed = ballots ++ n.shared.signed ∧ ∀ ballot ∈ ballots, ballot.voter = n.id

theorem Signs.subset (h : Signs n n') : n.shared.signed ⊆ n'.shared.signed := by
  obtain ⟨ballots, heq, -⟩ := h
  rw [heq]
  exact List.subset_append_right _ _

theorem signs_of_eq (h : n'.shared.signed = n.shared.signed) : Signs n n' :=
  ⟨[], h, fun _ hballot => nomatch hballot⟩

theorem Signs.trans
    {n'' : Process}
    (h : Signs n n')
    (hid : n'.id = n.id)
    (h' : Signs n' n'') :
    Signs n n'' := by
  obtain ⟨ballots, heq, hall⟩ := h
  obtain ⟨ballots', heq', hall'⟩ := h'
  refine ⟨ballots' ++ ballots, by rw [heq', heq, List.append_assoc], fun ballot hballot => ?_⟩
  rcases List.mem_append.mp hballot with hnew | hold
  · exact (hall' ballot hnew).trans hid
  · exact hall ballot hold

theorem Act.signs (h : Act cfg K fresh n n') : Signs n n' := by
  rcases h.voting with ⟨-, -, heq⟩ | ⟨qc, -, -, -, -, -, heq⟩ |
    ⟨phase, viewNumber, nodeHash, -, -, -, -, -, heq⟩
  · exact signs_of_eq heq
  · exact signs_of_eq heq
  · refine ⟨[_], heq, fun ballot hballot => ?_⟩
    rw [List.mem_singleton] at hballot
    subst hballot
    rfl

theorem Move.signs (h : Move cfg K fresh n n') : Signs n n' := by
  cases h with
  | act hact => exact hact.signs
  | enter => exact signs_of_eq rfl
  | forget => exact signs_of_eq rfl

theorem Moves.signs (h : Moves cfg K fresh n n') : Signs n n' := by
  induction h with
  | refl => exact signs_of_eq rfl
  | tail hmoves hmove ih => exact ih.trans (Moves.frame hmoves).1 hmove.signs

/-- A message that was sent without a share. -/
theorem Honest.send
    {receiverID : String} {msg : Message}
    (h : Honest cfg byz n)
    (hmsg : msg.Signed (Authentic cfg byz n.shared.signed)) :
    Honest cfg byz (n.send cfg receiverID msg) := by
  unfold Process.send
  split
  case isFalse => exact h
  case isTrue =>
    refine ⟨fun p hp => ?_, h.certificates, h.votes, h.kept, h.voted⟩
    rcases List.mem_append.mp hp with hold | hnew
    · exact h.sent p hold
    · rw [List.mem_singleton] at hnew
      subst hnew
      exact hmsg

/-- The vote is recorded. -/
theorem Honest.record
    {phase : MsgType} {viewNumber : ℤ} {nodeHash : String}
    (h : Honest cfg byz n)
    (hnone : n.voted.get? (phase, viewNumber) = none) :
    Honest cfg byz { n with
      voted := n.voted.set (phase, viewNumber) nodeHash
      shared := { n.shared with
        signed := ⟨n.id, n.viewNumber, phase, viewNumber, nodeHash⟩ :: n.shared.signed } } := by
  have hgrow : ∀ share, Authentic cfg byz n.shared.signed share → Authentic cfg byz
      (⟨n.id, n.viewNumber, phase, viewNumber, nodeHash⟩ :: n.shared.signed) share :=
    fun share hshare => hshare.mono (List.subset_cons_self _ _)
  refine ⟨fun p hp share hshare => hgrow _ (h.sent p hp share hshare),
    fun token record hget id share hshare => hgrow _ (h.certificates _ _ hget id share hshare),
    fun key shares hget id share hshare => hgrow _ (h.votes _ _ hget id share hshare),
    Kept.mono hgrow h.kept, fun ballot hballot hvoter => ?_⟩
  simp only [Dict.get?_set]
  rcases List.mem_cons.mp hballot with rfl | hold
  · simp
  · have hvoted := h.voted ballot hold hvoter
    rw [if_neg, hvoted]
    intro heq
    rw [heq, hnone] at hvoted
    cases hvoted

/-- **One action.** -/
theorem Honest.act
    (h : Honest cfg byz n)
    (hK : ∀ share, K share → Authentic cfg byz n.shared.signed share)
    (hact : Act cfg K fresh n n') :
    Honest cfg byz n' := by
  cases hact with
  | send receiverID msg hmsg =>
      refine h.send fun share hshare => ?_
      rw [hmsg] at hshare
      cases hshare
  | vote phase viewNumber nodeHash leaderID hnone =>
      refine (h.record hnone).send fun share hshare => ?_
      cases hshare
      exact fun _ _ => ⟨_, List.mem_cons_self, rfl, rfl, rfl, rfl⟩
  | count key senderID share hshare =>
      refine ⟨h.sent, h.certificates, fun key' shares hget id share' hget' => ?_, h.kept, h.voted⟩
      have hold : ∀ shares, n.votes.get? key = some shares ∨ shares = Dict.empty →
          ∀ id share, shares.get? id = some share →
            Authentic cfg byz n.shared.signed share := by
        rintro shares (hsome | rfl) id share hget
        · exact h.votes key shares hsome id share hget
        · cases hget
      simp only [Dict.get?_set] at hget
      split at hget
      case isFalse => exact h.votes key' shares hget id share' hget'
      case isTrue =>
        cases hget
        rw [Dict.get?_set] at hget'
        split at hget'
        case isTrue =>
          cases hget'
          exact hK share hshare
        case isFalse =>
          refine hold _ ?_ id share' hget'
          unfold Dict.getD
          cases hsome : n.votes.get? key with
          | none => exact Or.inr rfl
          | some shares => exact Or.inl rfl
  | certify type viewNumber nodeHash token certificates hcombine =>
      obtain ⟨-, rfl⟩ := combine_eq_some hcombine
      refine ⟨h.sent, fun token' record hget id share hshare => ?_, h.votes, h.kept, h.voted⟩
      simp only [Dict.get?_set] at hget
      split at hget
      case isFalse => exact h.certificates token' record hget id share hshare
      case isTrue =>
        cases hget
        simp only [Dict.getD] at hshare
        cases hsome : n.votes.get? (type, viewNumber, nodeHash) with
        | none =>
            rw [hsome] at hshare
            cases hshare
        | some shares =>
            rw [hsome] at hshare
            exact h.votes _ shares hsome id share hshare
  | execute qc nodes =>
      obtain ⟨hid, -, -, -, hvoted, hvotes, hfuture, hshared⟩ :=
        executeNodes_frame (n := n) nodes.reverse
      refine ⟨?_, ?_, ?_, ?_, ?_⟩
      · rw [hshared]
        exact h.sent
      · rw [hshared]
        exact h.certificates
      · rw [hshared, hvotes]
        exact h.votes
      · unfold Kept
        rw [hshared, hfuture]
        exact h.kept
      · rw [hshared, hvoted, hid]
        exact h.voted
  | quiet => exact ⟨h.sent, h.certificates, h.votes, h.kept, h.voted⟩
  | grow => exact ⟨h.sent, h.certificates, h.votes, h.kept, h.voted⟩
  | store => exact ⟨h.sent, h.certificates, h.votes, h.kept, h.voted⟩
  | lock => exact ⟨h.sent, h.certificates, h.votes, h.kept, h.voted⟩

theorem Honest.move
    (h : Honest cfg byz n)
    (hK : ∀ share, K share → Authentic cfg byz n.shared.signed share)
    (hmove : Move cfg K fresh n n') :
    Honest cfg byz n' := by
  have hkept : ∀ view msgs, n'.futureMessages.get? view = some msgs →
      n.futureMessages.get? view = some msgs := hmove.frame.2.2.2
  cases hmove with
  | act hact => exact h.act hK hact
  | enter => exact ⟨h.sent, h.certificates, h.votes, h.kept, h.voted⟩
  | forget =>
      exact ⟨h.sent, h.certificates, h.votes,
        fun view msgs hget => h.kept view msgs (hkept view msgs hget), h.voted⟩

/-- The moves of one input. -/
theorem Honest.moves
    (h : Honest cfg byz n)
    (hmoves : Moves cfg (Authentic cfg byz n.shared.signed) fresh n n') :
    Honest cfg byz n' := by
  induction hmoves with
  | refl => exact h
  | tail hrun hmove ih =>
      exact ih.move (fun share hshare => hshare.mono (Moves.signs hrun).subset) hmove

/-- The other nodes see only new votes of the node that acts. -/
theorem Honest.other
    {m : Process}
    (h : Honest cfg byz n)
    (h' : Honest cfg byz n')
    (hsigns : Signs m n')
    (hshared : n.shared = m.shared)
    (hid : n.id ≠ m.id) :
    Honest cfg byz { n with shared := n'.shared } := by
  have hgrow : ∀ share, Authentic cfg byz n.shared.signed share →
      Authentic cfg byz n'.shared.signed share := by
    intro share hshare
    rw [hshared] at hshare
    exact hshare.mono hsigns.subset
  refine ⟨h'.sent, h'.certificates,
    fun key shares hget id share hshare => hgrow _ (h.votes _ _ hget id share hshare),
    Kept.mono hgrow h.kept, fun ballot hballot hvoter => ?_⟩
  obtain ⟨ballots, heq, hall⟩ := hsigns
  have hballot : ballot ∈ ballots ++ m.shared.signed := heq ▸ hballot
  rcases List.mem_append.mp hballot with hnew | hold
  · exact absurd (hvoter.symm.trans (hall ballot hnew)) hid
  · exact h.voted ballot (hshared ▸ hold) hvoter

/-- The services may get new nodes and new authentic certificates. -/
theorem Honest.services
    {nodeStore : NodeStore} {certificates : Dict String CertificateRecord}
    (h : Honest cfg byz n)
    (hcertificates : ∀ token record, certificates.get? token = some record →
      ∀ id share, record.shares.get? id = some share →
        Authentic cfg byz n.shared.signed share) :
    Honest cfg byz { n with
      shared := { n.shared with nodeStore := nodeStore, certificates := certificates } } :=
  ⟨h.sent, hcertificates, h.votes, h.kept, h.voted⟩

theorem handle_frame (cfg : Config) (n : Process) (o : MapOrder String) (e : Event) :
    (n.handle cfg o e).id = n.id ∧ Signs n (n.handle cfg o e) := by
  rcases handle_cases (o := o) (e := e) (ready_trivial cfg n) (fun _ _ => trivial)
      (fun _ _ _ _ => trivial) with hmoves | ⟨msg, -, -, heq⟩
  · exact ⟨hmoves.frame.1, hmoves.signs⟩
  · rw [heq]
    exact ⟨rfl, signs_of_eq rfl⟩

/-- **One input of a correct node.** -/
theorem Honest.handle
    {o : MapOrder String} {e : Event} {types : List MsgType}
    (h : Honest cfg byz n)
    (hseq : InSequence cfg types n)
    (hdeliver : Deliverable cfg byz n.shared n.id e) :
    Honest cfg byz (n.handle cfg o e) ∧
      (Moves cfg (Authentic cfg byz n.shared.signed) (Fresh types) n (n.handle cfg o e) ∨
        ∃ futureMessages, n.handle cfg o e = { n with futureMessages := futureMessages }) := by
  have hsigned : ∀ msg, e = .message msg → msg.Signed (Authentic cfg byz n.shared.signed) := by
    rintro msg rfl share hshare
    rcases hdeliver with hsent | ⟨-, hauth⟩
    · exact h.sent _ hsent share hshare
    · exact hauth share hshare
  obtain ⟨hkept, hmoves | ⟨futureMessages, heq⟩⟩ := h.kept.handle (o := o) hseq hsigned
  · exact ⟨h.moves hmoves, Or.inl hmoves⟩
  · refine ⟨?_, Or.inr ⟨futureMessages, heq⟩⟩
    rw [heq] at hkept ⊢
    exact ⟨h.sent, h.certificates, h.votes, hkept, h.voted⟩

theorem honest_new (id : String) : Honest cfg byz ⟨Node.new id, Shared.empty⟩ :=
  ⟨fun _ hp => (nomatch hp), (fun _ _ hget => nomatch hget), (fun _ _ hget => nomatch hget),
    (fun _ _ hget => nomatch hget), (fun _ hballot => nomatch hballot)⟩

end Honest

end Process

open Process

/-! ## Runs -/

section Runs

/-- A correct node handles an input only while no request of these types is kept behind a
decision of its view. -/
def NodesSequenced (cfg : Config) (types : List MsgType) (w : World) : Label → Prop
  | .handle id _ _ => InSequence cfg types (w.process id)
  | _ => True

instance (cfg : Config) (types : List MsgType) (w : World) (l : Label) :
    Decidable (NodesSequenced cfg types w l) :=
  match l with
  | .handle id _ _ => inferInstanceAs (Decidable (InSequence cfg types (w.process id)))
  | .store _ => isTrue trivial
  | .combine _ _ _ _ => isTrue trivial

variable {cfg : Config} {byz : Finset String} {types : List MsgType} {w w' : World}

/-- What one step does. -/
theorem cluster_step_cases
    {l : Label}
    (h : (cluster cfg byz).step w l = some w') :
    (∃ id o e, l = .handle id o e ∧ id ∈ cfg.nodeIDs ∧ id ∉ byz ∧
      Deliverable cfg byz w.shared id e ∧
      w' = ⟨Function.update w.nodes id ((w.process id).handle cfg o e).toNode,
        ((w.process id).handle cfg o e).shared⟩) ∨
    ∃ nodeStore certificates, w' = { w with
        shared := { w.shared with nodeStore := nodeStore, certificates := certificates } } ∧
      ∀ token record, certificates.get? token = some record →
        w.shared.certificates.get? token = some record ∨
        ∀ id share, record.shares.get? id = some share →
          Authentic cfg byz w.shared.signed share := by
  cases l with
  | handle id o e =>
      simp only [cluster] at h
      split at h
      case isFalse => cases h
      case isTrue hok =>
        cases h
        exact Or.inl ⟨id, o, e, rfl, hok.1, hok.2.1, hok.2.2, rfl⟩
  | store node =>
      simp only [cluster] at h
      split at h
      case isFalse => cases h
      case isTrue =>
        cases h
        exact Or.inr ⟨_, w.shared.certificates, rfl, fun _ _ hget => Or.inl hget⟩
  | combine type viewNumber nodeHash shares =>
      simp only [cluster] at h
      split at h
      case isFalse => cases h
      case isTrue hok =>
        obtain ⟨⟨token, certificates⟩, hcombine, rfl⟩ := Option.map_eq_some_iff.mp h
        refine Or.inr ⟨w.shared.nodeStore, certificates, rfl, fun token' record hget => ?_⟩
        obtain ⟨-, rfl⟩ := combine_eq_some hcombine
        rw [Dict.get?_set] at hget
        split at hget
        case isFalse => exact Or.inl hget
        case isTrue =>
          cases hget
          exact Or.inr fun id share hshare => hok.2 share (Dict.mem_values_of_get? hshare)

/-- **The invariant rule.**  A property that the moves of a correct node keep, and that
does not depend on the kept messages, the store and the certificates. -/
theorem cluster_invariant
    {J : Process → Prop}
    (hinit : ∀ id ∈ cfg.nodeIDs, id ∉ byz → J ⟨Node.new id, Shared.empty⟩)
    (hmoves : ∀ n n', Honest cfg byz n → J n →
      Moves cfg (Authentic cfg byz n.shared.signed) (Fresh types) n n' → J n')
    (hquiet : ∀ n futureMessages nodeStore certificates, J n → J { n with
      futureMessages := futureMessages
      shared := { n.shared with nodeStore := nodeStore, certificates := certificates } })
    (hother : ∀ n m n', J n → J n' → Signs m n' → n.shared = m.shared → n.id ≠ m.id →
      J { n with shared := n'.shared })
    (h : (cluster cfg byz).Reachable (NodesSequenced cfg types) w) :
    ∀ id ∈ cfg.nodeIDs, id ∉ byz →
      (w.process id).id = id ∧ Honest cfg byz (w.process id) ∧ J (w.process id) := by
  refine System.Reachable.invariant (I := fun w => ∀ id ∈ cfg.nodeIDs, id ∉ byz →
    (w.process id).id = id ∧ Honest cfg byz (w.process id) ∧ J (w.process id)) ?_ ?_ h
  · exact fun id hid hcorrect => ⟨rfl, honest_new id, hinit id hid hcorrect⟩
  · intro w l w' _ hinv hseq hstep id hid hcorrect
    obtain ⟨hname, hhonest, hJ⟩ := hinv id hid hcorrect
    rcases cluster_step_cases hstep with
      ⟨actor, o, e, rfl, hactor, hactor', hdeliver, rfl⟩ | ⟨nodeStore, certificates, rfl, hnew⟩
    · obtain ⟨hname', hhonest', hJ'⟩ := hinv actor hactor hactor'
      have hdeliver' : Deliverable cfg byz (w.process actor).shared (w.process actor).id e := by
        rw [hname']
        exact hdeliver
      obtain ⟨hkeep, hcases⟩ := hhonest'.handle (o := o) hseq hdeliver'
      obtain ⟨hframe, hsigns⟩ := handle_frame cfg (w.process actor) o e
      have hJnew : J ((w.process actor).handle cfg o e) := by
        rcases hcases with hrun | ⟨futureMessages, heq⟩
        · exact hmoves _ _ hhonest' hJ' hrun
        · rw [heq]
          exact hquiet _ futureMessages w.shared.nodeStore w.shared.certificates hJ'
      by_cases hsame : id = actor
      · subst hsame
        rw [process_update_self]
        exact ⟨hframe.trans hname', hkeep, hJnew⟩
      · rw [process_update_of_ne hsame]
        have hne : (w.process id).id ≠ (w.process actor).id := by
          rw [hname, hname']
          exact hsame
        exact ⟨hname, hhonest.other hkeep hsigns rfl hne, hother _ _ _ hJ hJnew hsigns rfl hne⟩
    · refine ⟨hname, hhonest.services fun token record hget => ?_,
        hquiet (w.process id) (w.nodes id).futureMessages nodeStore certificates hJ⟩
      rcases hnew token record hget with hold | hnew
      · exact hhonest.certificates token record hold
      · exact hnew

/-- Votes are never lost. -/
theorem signed_subset_of_reaches
    {ok : World → Label → Prop}
    (h : (cluster cfg byz).Reaches ok w w') :
    w.shared.signed ⊆ w'.shared.signed := by
  induction h with
  | refl => exact List.Subset.refl _
  | @tail v v' l _ _ hstep ih =>
      rcases cluster_step_cases hstep with ⟨id, o, e, -, -, -, -, rfl⟩ | ⟨_, _, rfl, -⟩
      · exact List.Subset.trans ih (handle_frame cfg (v.process id) o e).2.subset
      · exact ih

/-- Every run is in sequence for no types. -/
theorem nodesSequenced_nil
    (h : (cluster cfg byz).Reachable System.anyStep w) :
    (cluster cfg byz).Reachable (NodesSequenced cfg []) w := by
  refine h.mono fun w l _ => ?_
  cases l with
  | handle id o e =>
      intro p _
      exact List.pairwise_of_forall fun _ _ _ _ => List.not_mem_nil
  | store => trivial
  | combine => trivial

theorem honest_of_reachable
    (h : (cluster cfg byz).Reachable System.anyStep w) :
    ∀ id ∈ cfg.nodeIDs, id ∉ byz → (w.process id).id = id ∧ Honest cfg byz (w.process id) := by
  intro id hid hcorrect
  obtain ⟨hname, hhonest, -⟩ := cluster_invariant (J := fun _ => True) (fun _ _ _ => trivial)
    (fun _ _ _ _ _ => trivial) (fun _ _ _ _ _ => trivial) (fun _ _ _ _ _ _ _ _ => trivial)
    (nodesSequenced_nil h) id hid hcorrect
  exact ⟨hname, hhonest⟩

/-- One of the nodes is correct. -/
theorem exists_correct_node
    (hnodup : cfg.nodeIDs.Nodup)
    (hpos : 0 < cfg.nodeIDs.length)
    (hbyz : byz.card ≤ (cfg.nodeIDs.length - 1) / 3) :
    ∃ id ∈ cfg.nodeIDs, id ∉ byz := by
  have hlt : byz.card < cfg.nodeIDs.toFinset.card := by
    rw [List.toFinset_card_of_nodup hnodup]
    omega
  obtain ⟨id, hid, hcorrect⟩ := Finset.exists_mem_notMem_of_card_lt_card hlt
  exact ⟨id, List.mem_toFinset.mp hid, hcorrect⟩

/-- A valid certificate is supported by a quorum. -/
theorem certified_of_reachable
    {qc : QuorumCertificate}
    (hnodup : cfg.nodeIDs.Nodup)
    (hpos : 0 < cfg.nodeIDs.length)
    (hbyz : byz.card ≤ (cfg.nodeIDs.length - 1) / 3)
    (h : (cluster cfg byz).Reachable System.anyStep w)
    (hqc : verifyQC cfg w.shared.certificates qc = true) :
    Certified cfg byz w.shared.signed qc.type qc.viewNumber qc.nodeHash := by
  obtain ⟨id, hid, hcorrect⟩ := exists_correct_node hnodup hpos hbyz
  exact certified_of_verifyQC (honest_of_reachable h id hid hcorrect).2.certificates hqc

/-- **One certificate per phase and view.**  Two certificates that are valid at any times
of a run, for one phase and view, are for one node of the tree. -/
theorem certificates_agree
    {qc qc' : QuorumCertificate}
    (hnodup : cfg.nodeIDs.Nodup)
    (hpos : 0 < cfg.nodeIDs.length)
    (hbyz : byz.card ≤ (cfg.nodeIDs.length - 1) / 3)
    (hreach : (cluster cfg byz).Reachable System.anyStep w)
    (hrun : (cluster cfg byz).Reaches System.anyStep w w')
    (hqc : verifyQC cfg w.shared.certificates qc = true)
    (hqc' : verifyQC cfg w'.shared.certificates qc' = true)
    (htype : qc.type = qc'.type)
    (hview : qc.viewNumber = qc'.viewNumber) :
    qc.nodeHash = qc'.nodeHash := by
  have hreach' := hreach.trans hrun
  obtain ⟨Q, hQ, hvotes⟩ := (certified_of_reachable hnodup hpos hbyz hreach hqc).mono
    (signed_subset_of_reaches hrun)
  obtain ⟨Q', hQ', hvotes'⟩ := certified_of_reachable hnodup hpos hbyz hreach' hqc'
  obtain ⟨i, hi, hi', hcorrect⟩ :=
    (votingGroup hnodup hpos hbyz).exists_correct_inter hQ hQ'
  have hcorrect : i.1 ∉ byz := fun hmem => hcorrect (Finset.mem_subtype.mpr hmem)
  obtain ⟨hname, hhonest⟩ :=
    honest_of_reachable hreach' i.1 (List.mem_toFinset.mp i.2) hcorrect
  obtain ⟨ballot, hballot, hvoter, htype', hview', hhash⟩ := hvotes i hi hcorrect
  obtain ⟨ballot', hballot', hvoter', htype'', hview'', hhash'⟩ := hvotes' i hi' hcorrect
  have hvoted := hhonest.voted ballot hballot (hvoter.trans hname.symm)
  have hvoted' := hhonest.voted ballot' hballot' (hvoter'.trans hname.symm)
  rw [htype', hview', htype, hview, ← htype'', ← hview'', hvoted'] at hvoted
  rw [← hhash, ← hhash']
  exact (Option.some.inj hvoted).symm

end Runs

/-- A node handles an input. -/
def handled (id : String) (e : Event) : Label := .handle id (MapOrder.insertion String) e

/-- The faulty leader of view 1 proposes a node, and combines the votes of the others. -/
theorem certificates_agree_sample :
    ∃ w, (cluster fourNodes {"N1"}).Reachable System.anyStep w ∧
      verifyQC fourNodes w.shared.certificates
        (sampleQC lastThree .prepare 1 (sampleNode genesisHash "A" 1).hash) = true ∧
      ∀ qc, verifyQC fourNodes w.shared.certificates qc = true → .prepare = qc.type →
        1 = qc.viewNumber → (sampleNode genesisHash "A" 1).hash = qc.nodeHash := by
  obtain ⟨w, hrun, hqc⟩ : ∃ w, (cluster fourNodes {"N1"}).Reachable System.anyStep w ∧
      verifyQC fourNodes w.shared.certificates
        (sampleQC lastThree .prepare 1 (sampleNode genesisHash "A" 1).hash) = true := by
    refine System.exists_reaches_of_exec
      ((lastThree.map fun id => handled id (.message
          ⟨.prepare, 1, some (sampleNode genesisHash "A" 1), none, "N1", none, false⟩)) ++
        [.combine .prepare 1 (sampleNode genesisHash "A" 1).hash
          (sampleShares lastThree .prepare 1 (sampleNode genesisHash "A" 1).hash)]) ?_
    decide +kernel
  exact ⟨w, hrun, hqc, fun qc hqc' htype hview =>
    certificates_agree (by decide) (by decide) (by decide) hrun (System.Reaches.refl w) hqc hqc'
      htype hview⟩

end GoHotStuff
end DistributedConsensus
