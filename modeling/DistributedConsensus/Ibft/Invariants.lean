import DistributedConsensus.Ibft.Actions
import DistributedConsensus.Ibft.Cluster

/-!
# IBFT: the invariant of a correct node

The invariant has two parts: what a node has stored (`Storage`) and how its
announcements relate to its state (`Voting`).  Both are kept by every atomic
action, hence by every handler.
-/

namespace DistributedConsensus
namespace Ibft

open Foundations

variable {n : Nat} {keys : SignatureScheme} {byz : Finset (Fin n)}

/-- What a correct node has stored. -/
structure Storage (keys : SignatureScheme) (byz : Finset (Fin n)) (i : Fin n) (nd : Node)
    (sent : List Message) : Prop where
  id_eq : nd.id = i
  validators_eq : nd.validators = validatorsFromCount n
  mode_eq : nd.byzantineMode = .none
  prepares : ∀ key k m, (k, m) ∈ (nd.prepareMessages.getD key Dict.empty).entries →
    StoredVote keys byz sent .prepare key k m
  commits : ∀ key k m, (k, m) ∈ (nd.commitMessages.getD key Dict.empty).entries →
    StoredVote keys byz sent .commit key k m
  roundChanges : ∀ r, ∀ m ∈ (nd.roundChangeMessages.getD r Dict.empty).values,
    Known keys byz sent m
  certificate : ∀ m ∈ nd.decisionCertificate, Known keys byz sent m

/-- How the announcements of a correct node relate to its state. -/
structure Voting (hbyz : byz.card ≤ maxFaultyNodes n) (i : Fin n) (nd : Node)
    (sent : List Message) : Prop where
  round_pos : 1 ≤ nd.currentRound
  prepare_votes : ∀ m ∈ sent, m.fromId = i → m.type = .prepare →
    m.lambda = nd.lambda ∧ m.round ≤ nd.currentRound ∧
    (nd.state = .new → m.round < nd.currentRound) ∧
    (m.round = 1 ∨
      RoundVoting.Justified (votingGroup hbyz) (record sent m.lambda) m.round m.value)
  prepare_unique : ∀ m ∈ sent, ∀ m' ∈ sent, m.fromId = i → m'.fromId = i →
    m.type = .prepare → m'.type = .prepare → m.round = m'.round → m.value = m'.value
  commit_votes : ∀ m ∈ sent, m.fromId = i → m.type = .commit →
    m.lambda = nd.lambda ∧ 1 ≤ m.round ∧ m.round ≤ nd.currentRound ∧
    (nd.decided = false → m.round ≤ nd.preparedRound) ∧
    RoundVoting.Prepared (votingGroup hbyz) (record sent m.lambda) m.round m.value
  change_votes : ∀ m ∈ sent, m.fromId = i → m.type = .roundChange →
    m.lambda = nd.lambda ∧ m.round ≤ nd.currentRound
  carried : ∀ c ∈ sent, ∀ m ∈ sent, c.fromId = i → m.fromId = i →
    c.type = .commit → m.type = .roundChange → c.round < m.round → c.round ≤ m.preparedRound
  decided : nd.decided = true → ∃ r,
    RoundVoting.Committed (votingGroup hbyz) (record sent nd.lambda) r nd.decisionValue

/-- The message is one of the announcements that the record keeps. -/
def IsVote (m : Message) : Prop :=
  m.type = .prepare ∨ m.type = .commit ∨ m.type = .roundChange

section Growth

variable {hbyz : byz.card ≤ maxFaultyNodes n} {i : Fin n} {nd : Node}
variable {sent sent' : List Message}

theorem StoredVote.mono
    {type : MessageType} {key : MessageKey} {k : Int} {m : Message}
    (hsub : sent ⊆ sent')
    (h : StoredVote keys byz sent type key k m) :
    StoredVote keys byz sent' type key k m :=
  { h with known := h.known.mono hsub }

theorem Storage.mono
    (hsub : sent ⊆ sent')
    (h : Storage keys byz i nd sent) :
    Storage keys byz i nd sent' where
  id_eq := h.id_eq
  validators_eq := h.validators_eq
  mode_eq := h.mode_eq
  prepares key k m hm := (h.prepares key k m hm).mono hsub
  commits key k m hm := (h.commits key k m hm).mono hsub
  roundChanges r m hm := (h.roundChanges r m hm).mono hsub
  certificate m hm := (h.certificate m hm).mono hsub

theorem prepared_mono
    {lambda r : Int} {v : String}
    (hsub : sent ⊆ sent')
    (h : RoundVoting.Prepared (votingGroup hbyz) (record sent lambda) r v) :
    RoundVoting.Prepared (votingGroup hbyz) (record sent' lambda) r v :=
  h.mono (fun _ _ _ hv => Votes.mono hsub hv)

theorem committed_mono
    {lambda r : Int} {v : String}
    (hsub : sent ⊆ sent')
    (h : RoundVoting.Committed (votingGroup hbyz) (record sent lambda) r v) :
    RoundVoting.Committed (votingGroup hbyz) (record sent' lambda) r v :=
  h.mono (fun _ _ _ hv => Votes.mono hsub hv)

theorem justified_mono
    {lambda r : Int} {v : String}
    (hsub : sent ⊆ sent')
    (h : RoundVoting.Justified (votingGroup hbyz) (record sent lambda) r v) :
    RoundVoting.Justified (votingGroup hbyz) (record sent' lambda) r v := by
  refine h.mono (fun _ _ _ hv => Votes.mono hsub hv) ?_
  rintro j s c ⟨m, hm, hrest⟩
  exact ⟨m, hsub hm, hrest⟩

/-- Messages other than announcements of the node keep its voting invariant. -/
theorem Voting.extend
    (hsub : sent ⊆ sent')
    (hnew : ∀ m ∈ sent', m.fromId = i → IsVote m → m ∈ sent)
    (h : Voting hbyz i nd sent) :
    Voting hbyz i nd sent' where
  round_pos := h.round_pos
  prepare_votes m hm hfrom htype := by
    obtain ⟨hl, hle, hlt, hjust⟩ := h.prepare_votes m (hnew m hm hfrom (Or.inl htype)) hfrom htype
    exact ⟨hl, hle, hlt, hjust.imp_right (justified_mono hsub)⟩
  prepare_unique m hm m' hm' hfrom hfrom' htype htype' :=
    h.prepare_unique m (hnew m hm hfrom (Or.inl htype)) m' (hnew m' hm' hfrom' (Or.inl htype'))
      hfrom hfrom' htype htype'
  commit_votes m hm hfrom htype := by
    obtain ⟨hl, hpos, hle, hpr, hprep⟩ :=
      h.commit_votes m (hnew m hm hfrom (Or.inr (Or.inl htype))) hfrom htype
    exact ⟨hl, hpos, hle, hpr, prepared_mono hsub hprep⟩
  change_votes m hm hfrom htype :=
    h.change_votes m (hnew m hm hfrom (Or.inr (Or.inr htype))) hfrom htype
  carried c hc m hm hfrom hfrom' htype htype' :=
    h.carried c (hnew c hc hfrom (Or.inr (Or.inl htype))) m
      (hnew m hm hfrom' (Or.inr (Or.inr htype'))) hfrom hfrom' htype htype'
  decided hd := by
    obtain ⟨r, hr⟩ := h.decided hd
    exact ⟨r, committed_mono hsub hr⟩

/-- The voting invariant reads only a few fields of the node. -/
theorem Voting.congr
    {nd' : Node}
    (h : Voting hbyz i nd sent)
    (hlambda : nd'.lambda = nd.lambda)
    (hround : nd'.currentRound = nd.currentRound)
    (hstate : nd'.state = nd.state)
    (hprepared : nd'.preparedRound = nd.preparedRound)
    (hdecided : nd'.decided = nd.decided)
    (hvalue : nd'.decisionValue = nd.decisionValue) :
    Voting hbyz i nd' sent := by
  constructor
  · rw [hround]
    exact h.round_pos
  · rw [hlambda, hround, hstate]
    exact h.prepare_votes
  · exact h.prepare_unique
  · rw [hlambda, hround, hprepared, hdecided]
    exact h.commit_votes
  · rw [hlambda, hround]
    exact h.change_votes
  · exact h.carried
  · rw [hlambda, hdecided, hvalue]
    exact h.decided

end Growth

/-! ## The network -/

section Broadcast

variable {net : Network} {msg m : Message}

theorem mem_messages_send
    {toId : Int} :
    m ∈ (net.send toId msg).messages ↔ m ∈ net.messages ∨ m = msg := by
  simp [Network.send, Network.messages, eq_comm]

theorem messages_broadcast (net : Network) (msg : Message) :
    (net.broadcast msg).messages = net.messages ++ net.nodeOrder.map (fun _ => msg) := by
  unfold Network.broadcast
  generalize net.nodeOrder = ids
  induction ids generalizing net with
  | nil => simp
  | cons id ids ih =>
      rw [List.foldl_cons, ih]
      simp [Network.send, Network.messages]

theorem subset_messages_broadcast : net.messages ⊆ (net.broadcast msg).messages := by
  rw [messages_broadcast]
  exact List.subset_append_left _ _

theorem mem_messages_broadcast
    (h : m ∈ (net.broadcast msg).messages) :
    m ∈ net.messages ∨ m = msg := by
  rw [messages_broadcast, List.mem_append, List.mem_map] at h
  rcases h with hold | ⟨_, _, rfl⟩
  · exact Or.inl hold
  · exact Or.inr rfl

end Broadcast

/-! ## What an action keeps -/

section Storing

variable {i : Fin n} {nd : Node} {sent : List Message} {msg : Message}

theorem Storage.recordPrepare
    (h : Storage keys byz i nd sent)
    (hknown : Known keys byz sent msg)
    (hvalid : isValidMessage keys msg nd.validators = true)
    (htype : msg.type = .prepare) :
    Storage keys byz i (nd.recordPrepare msg) sent := by
  refine { h with prepares := ?_ }
  intro key k m hm
  simp only [Node.recordPrepare, Dict.getD_set] at hm
  split at hm
  case isTrue hkey =>
    rcases Dict.mem_entries_set hm with heq | hold
    · obtain ⟨rfl, rfl⟩ := Prod.mk.inj heq
      rw [h.validators_eq] at hvalid
      exact ⟨rfl, htype, hkey.symm, hvalid, hknown⟩
    · rw [hkey]
      exact h.prepares _ k m hold
  case isFalse => exact h.prepares key k m hm

theorem Storage.recordCommit
    (h : Storage keys byz i nd sent)
    (hknown : Known keys byz sent msg)
    (hvalid : isValidMessage keys msg nd.validators = true)
    (htype : msg.type = .commit) :
    Storage keys byz i (nd.recordCommit msg) sent := by
  refine { h with commits := ?_ }
  intro key k m hm
  simp only [Node.recordCommit, Dict.getD_set] at hm
  split at hm
  case isTrue hkey =>
    rcases Dict.mem_entries_set hm with heq | hold
    · obtain ⟨rfl, rfl⟩ := Prod.mk.inj heq
      rw [h.validators_eq] at hvalid
      exact ⟨rfl, htype, hkey.symm, hvalid, hknown⟩
    · rw [hkey]
      exact h.commits _ k m hold
  case isFalse => exact h.commits key k m hm

theorem Storage.recordRoundChange
    (h : Storage keys byz i nd sent)
    (hknown : Known keys byz sent msg) :
    Storage keys byz i (nd.recordRoundChange msg) sent := by
  refine { h with roundChanges := ?_ }
  intro r m hm
  simp only [Node.recordRoundChange, Dict.getD_set] at hm
  split at hm
  case isTrue =>
    rcases Dict.mem_values_set hm with rfl | hold
    · exact hknown
    · exact h.roundChanges _ m hold
  case isFalse => exact h.roundChanges r m hm

theorem Storage.concluded
    {ρ : MapOrders}
    (h : Storage keys byz i nd sent) (value : String) (key : MessageKey) :
    Storage keys byz i (nd.concluded value (nd.commitCertificateForKey ρ key)) sent := by
  refine { h with certificate := ?_ }
  intro m hm
  obtain ⟨⟨k, m'⟩, hp, rfl⟩ := List.mem_map.mp (RangeOrder.mem_visit.mp hm)
  exact (h.commits key k m' hp).known

theorem Storage.entered
    (h : Storage keys byz i nd sent) (round : Int) :
    Storage keys byz i (nd.entered round) sent := by
  refine { h with commits := ?_ }
  intro key k m hm
  simp only [Node.entered, Dict.getD_empty] at hm
  cases hm

end Storing

/-- A node with its network, in a step that began with the messages `base`. -/
structure Healthy (hbyz : byz.card ≤ maxFaultyNodes n) (keys : SignatureScheme) (i : Fin n)
    (base : List Message) (s : Node × Network) : Prop where
  storage : Storage keys byz i s.1 s.2.messages
  voting : Voting hbyz i s.1 s.2.messages
  known : ∀ m ∈ s.2.messages, Known keys byz s.2.messages m
  grows : base ⊆ s.2.messages
  own : ∀ m ∈ s.2.messages, m ∈ base ∨ m.fromId = i

section Preservation

variable {hbyz : byz.card ≤ maxFaultyNodes n} {i : Fin n} {base : List Message}
variable {nd nd' : Node} {net net' : Network}

/-- The node changes, the network does not. -/
theorem Healthy.of_node
    (h : Healthy hbyz keys i base (nd, net))
    (hstorage : Storage keys byz i nd' net.messages)
    (hvoting : Voting hbyz i nd' net.messages) :
    Healthy hbyz keys i base (nd', net) :=
  { h with storage := hstorage, voting := hvoting }

/-- The network has taken one more message of the node. -/
theorem Healthy.of_message
    {msg : Message}
    (h : Healthy hbyz keys i base (nd, net))
    (hsub : net.messages ⊆ net'.messages)
    (hnew : ∀ m ∈ net'.messages, m ∈ net.messages ∨ m = msg)
    (hfrom : msg.fromId = i)
    (hjust : ∀ p ∈ msg.justification, Known keys byz net.messages p)
    (hstorage : Storage keys byz i nd' net.messages)
    (hvoting : Voting hbyz i nd' net'.messages) :
    Healthy hbyz keys i base (nd', net') where
  storage := hstorage.mono hsub
  voting := hvoting
  known m hm := by
    rcases hnew m hm with hold | rfl
    · exact (h.known m hold).mono hsub
    · exact known_of_mem hm (fun p hp => (hjust p hp).mono hsub)
  grows := fun m hm => hsub (h.grows hm)
  own m hm := by
    rcases hnew m hm with hold | rfl
    · exact h.own m hold
    · exact Or.inr hfrom

/-- The message just sent is no announcement. -/
theorem Voting.of_other_message
    {msg : Message}
    (h : Voting hbyz i nd net.messages)
    (hsub : net.messages ⊆ net'.messages)
    (hnew : ∀ m ∈ net'.messages, m ∈ net.messages ∨ m = msg)
    (hother : ¬ IsVote msg) :
    Voting hbyz i nd net'.messages := by
  refine h.extend hsub (fun m hm _ hvote => ?_)
  rcases hnew m hm with hold | rfl
  · exact hold
  · exact absurd hvote hother

end Preservation

section Announcing

variable {hbyz : byz.card ≤ maxFaultyNodes n} {i : Fin n} {nd : Node}
variable {sent sent' : List Message} {msg : Message}

/-- Accepting a proposal: the node has not prepared anything in its round. -/
theorem Voting.accepted
    {value : String}
    (h : Voting hbyz i nd sent)
    (hsub : sent ⊆ sent')
    (hmem : ∀ m ∈ sent', m ∈ sent ∨ m = msg)
    (htype : msg.type = .prepare)
    (hlambda : msg.lambda = nd.lambda)
    (hround : msg.round = nd.currentRound)
    (hvalue : msg.value = value)
    (hnew : nd.state = .new)
    (hjust : nd.currentRound = 1 ∨
      RoundVoting.Justified (votingGroup hbyz) (record sent nd.lambda) nd.currentRound value) :
    Voting hbyz i (nd.accepted value) sent' where
  round_pos := h.round_pos
  prepare_votes m hm hfrom ht := by
    refine ⟨?_, ?_, (fun hstate => nomatch hstate), ?_⟩
    all_goals rcases hmem m hm with hold | rfl
    · exact (h.prepare_votes m hold hfrom ht).1
    · exact hlambda
    · exact (h.prepare_votes m hold hfrom ht).2.1
    · exact hround.le
    · exact (h.prepare_votes m hold hfrom ht).2.2.2.imp_right (justified_mono hsub)
    · rw [hlambda, hround, hvalue]
      exact hjust.imp_right (justified_mono hsub)
  prepare_unique m hm m' hm' hfrom hfrom' ht ht' heq := by
    -- An earlier vote of this round is excluded by the state of the node.
    rcases hmem m hm with hold | rfl <;> rcases hmem m' hm' with hold' | rfl
    · exact h.prepare_unique m hold m' hold' hfrom hfrom' ht ht' heq
    · have hlt := (h.prepare_votes m hold hfrom ht).2.2.1 hnew
      omega
    · have hlt := (h.prepare_votes m' hold' hfrom' ht').2.2.1 hnew
      omega
    · rfl
  commit_votes m hm hfrom ht := by
    rcases hmem m hm with hold | rfl
    · obtain ⟨hl, hpos, hle, hpr, hprep⟩ := h.commit_votes m hold hfrom ht
      exact ⟨hl, hpos, hle, hpr, prepared_mono hsub hprep⟩
    · rw [htype] at ht
      cases ht
  change_votes m hm hfrom ht := by
    rcases hmem m hm with hold | rfl
    · exact h.change_votes m hold hfrom ht
    · rw [htype] at ht
      cases ht
  carried c hc m hm hfrom hfrom' ht ht' := by
    rcases hmem c hc with hold | rfl
    · rcases hmem m hm with hold' | rfl
      · exact h.carried c hold m hold' hfrom hfrom' ht ht'
      · rw [htype] at ht'
        cases ht'
    · rw [htype] at ht
      cases ht
  decided hd := by
    obtain ⟨r, hr⟩ := h.decided hd
    exact ⟨r, committed_mono hsub hr⟩

/-- Committing: the value is prepared, and no round change is ahead of it. -/
theorem Voting.locked
    {value : String}
    (h : Voting hbyz i nd sent)
    (hsub : sent ⊆ sent')
    (hmem : ∀ m ∈ sent', m ∈ sent ∨ m = msg)
    (htype : msg.type = .commit)
    (hlambda : msg.lambda = nd.lambda)
    (hround : msg.round = nd.currentRound)
    (hvalue : msg.value = value)
    (hprepared : RoundVoting.Prepared (votingGroup hbyz) (record sent nd.lambda)
      nd.currentRound value) :
    Voting hbyz i (nd.locked value) sent' where
  round_pos := h.round_pos
  prepare_votes m hm hfrom ht := by
    rcases hmem m hm with hold | rfl
    · obtain ⟨hl, hle, -, hjust⟩ := h.prepare_votes m hold hfrom ht
      exact ⟨hl, hle, (fun hstate => nomatch hstate), hjust.imp_right (justified_mono hsub)⟩
    · rw [htype] at ht
      cases ht
  prepare_unique m hm m' hm' hfrom hfrom' ht ht' := by
    rcases hmem m hm with hold | rfl
    · rcases hmem m' hm' with hold' | rfl
      · exact h.prepare_unique m hold m' hold' hfrom hfrom' ht ht'
      · rw [htype] at ht'
        cases ht'
    · rw [htype] at ht
      cases ht
  commit_votes m hm hfrom ht := by
    rcases hmem m hm with hold | rfl
    · obtain ⟨hl, hpos, hle, -, hprep⟩ := h.commit_votes m hold hfrom ht
      exact ⟨hl, hpos, hle, fun _ => hle, prepared_mono hsub hprep⟩
    · refine ⟨hlambda, ?_, hround.le, fun _ => hround.le, ?_⟩
      · rw [hround]
        exact h.round_pos
      · rw [hlambda, hround, hvalue]
        exact prepared_mono hsub hprepared
  change_votes m hm hfrom ht := by
    rcases hmem m hm with hold | rfl
    · exact h.change_votes m hold hfrom ht
    · rw [htype] at ht
      cases ht
  carried c hc m hm hfrom hfrom' ht ht' hlt := by
    rcases hmem m hm with hold' | rfl
    · rcases hmem c hc with hold | rfl
      · exact h.carried c hold m hold' hfrom hfrom' ht ht' hlt
      · have hle := (h.change_votes m hold' hfrom' ht').2
        omega
    · rw [htype] at ht'
      cases ht'
  decided hd := by
    obtain ⟨r, hr⟩ := h.decided hd
    exact ⟨r, committed_mono hsub hr⟩

/-- Announcing a round change: it names the prepared round of the node. -/
theorem Voting.announced
    (h : Voting hbyz i nd sent)
    (hsub : sent ⊆ sent')
    (hmem : ∀ m ∈ sent', m ∈ sent ∨ m = msg)
    (htype : msg.type = .roundChange)
    (hlambda : msg.lambda = nd.lambda)
    (hround : msg.round ≤ nd.currentRound)
    (hnamed : msg.preparedRound = nd.preparedRound)
    (hundecided : nd.decided = false) :
    Voting hbyz i nd sent' where
  round_pos := h.round_pos
  prepare_votes m hm hfrom ht := by
    rcases hmem m hm with hold | rfl
    · obtain ⟨hl, hle, hlt, hjust⟩ := h.prepare_votes m hold hfrom ht
      exact ⟨hl, hle, hlt, hjust.imp_right (justified_mono hsub)⟩
    · rw [htype] at ht
      cases ht
  prepare_unique m hm m' hm' hfrom hfrom' ht ht' := by
    rcases hmem m hm with hold | rfl
    · rcases hmem m' hm' with hold' | rfl
      · exact h.prepare_unique m hold m' hold' hfrom hfrom' ht ht'
      · rw [htype] at ht'
        cases ht'
    · rw [htype] at ht
      cases ht
  commit_votes m hm hfrom ht := by
    rcases hmem m hm with hold | rfl
    · obtain ⟨hl, hpos, hle, hpr, hprep⟩ := h.commit_votes m hold hfrom ht
      exact ⟨hl, hpos, hle, hpr, prepared_mono hsub hprep⟩
    · rw [htype] at ht
      cases ht
  change_votes m hm hfrom ht := by
    rcases hmem m hm with hold | rfl
    · exact h.change_votes m hold hfrom ht
    · exact ⟨hlambda, hround⟩
  carried c hc m hm hfrom hfrom' ht ht' hlt := by
    rcases hmem c hc with hold | rfl
    · rcases hmem m hm with hold' | rfl
      · exact h.carried c hold m hold' hfrom hfrom' ht ht' hlt
      · rw [hnamed]
        exact (h.commit_votes c hold hfrom ht).2.2.2.1 hundecided
    · rw [htype] at ht
      cases ht
  decided hd := by
    rw [hundecided] at hd
    cases hd

/-- Entering a later round. -/
theorem Voting.entered
    {round : Int}
    (h : Voting hbyz i nd sent)
    (hlater : nd.currentRound < round) :
    Voting hbyz i (nd.entered round) sent where
  round_pos := h.round_pos.trans hlater.le
  prepare_votes m hm hfrom ht := by
    obtain ⟨hl, hle, -, hjust⟩ := h.prepare_votes m hm hfrom ht
    exact ⟨hl, hle.trans hlater.le, fun _ => lt_of_le_of_lt hle hlater, hjust⟩
  prepare_unique := h.prepare_unique
  commit_votes m hm hfrom ht := by
    obtain ⟨hl, hpos, hle, hrest⟩ := h.commit_votes m hm hfrom ht
    exact ⟨hl, hpos, hle.trans hlater.le, hrest⟩
  change_votes m hm hfrom ht := by
    obtain ⟨hl, hle⟩ := h.change_votes m hm hfrom ht
    exact ⟨hl, hle.trans hlater.le⟩
  carried := h.carried
  decided := h.decided

/-- Deciding a committed value. -/
theorem Voting.of_decided
    {nd' : Node} {r : Int}
    (h : Voting hbyz i nd sent)
    (hlambda : nd'.lambda = nd.lambda)
    (hround : nd'.currentRound = nd.currentRound)
    (hstate : nd'.state = .decided)
    (hdecided : nd'.decided = true)
    (hcommitted : RoundVoting.Committed (votingGroup hbyz) (record sent nd.lambda) r
      nd'.decisionValue) :
    Voting hbyz i nd' sent where
  round_pos := by
    rw [hround]
    exact h.round_pos
  prepare_votes m hm hfrom ht := by
    obtain ⟨hl, hle, -, hjust⟩ := h.prepare_votes m hm hfrom ht
    rw [hlambda, hround, hstate]
    exact ⟨hl, hle, (fun hs => nomatch hs), hjust⟩
  prepare_unique := h.prepare_unique
  commit_votes m hm hfrom ht := by
    obtain ⟨hl, hpos, hle, -, hprep⟩ := h.commit_votes m hm hfrom ht
    rw [hlambda, hround, hdecided]
    exact ⟨hl, hpos, hle, (fun hd => nomatch hd), hprep⟩
  change_votes m hm hfrom ht := by
    rw [hlambda, hround]
    exact h.change_votes m hm hfrom ht
  carried := h.carried
  decided _ := by
    rw [hlambda]
    exact ⟨r, hcommitted⟩

end Announcing

section Steps

variable {hbyz : byz.card ≤ maxFaultyNodes n} {i : Fin n} {base : List Message}

/-- Every action keeps the invariants. -/
theorem Healthy.action
    {ρ : MapOrders} {K : Message → Prop} {s t : Node × Network}
    (hK : ∀ m, K m → Known keys byz base m)
    (h : Healthy hbyz keys i base s)
    (hstep : Action keys ρ K s t) :
    Healthy hbyz keys i base t := by
  obtain ⟨hstorage, hvoting, -, hgrows, -⟩ := id h
  have hknown : ∀ m, K m → Known keys byz s.2.messages m := fun m hm => (hK m hm).mono hgrows
  cases hstep with
  | timer nd net t =>
      exact h.of_node { hstorage with } (hvoting.congr rfl rfl rfl rfl rfl rfl)
  | recordPrepare nd net msg hmsg hvalid htype =>
      exact h.of_node (hstorage.recordPrepare (hknown msg hmsg) hvalid htype)
        (hvoting.congr rfl rfl rfl rfl rfl rfl)
  | recordCommit nd net msg hmsg hvalid htype =>
      exact h.of_node (hstorage.recordCommit (hknown msg hmsg) hvalid htype)
        (hvoting.congr rfl rfl rfl rfl rfl rfl)
  | recordRoundChange nd net msg hmsg =>
      exact h.of_node (hstorage.recordRoundChange (hknown msg hmsg))
        (hvoting.congr rfl rfl rfl rfl rfl rfl)
  | accept nd net msg hmsg hlambda hround hjust hnew =>
      simp only at hstorage hvoting hknown
      rw [hstorage.validators_eq, length_validatorsFromCount] at hjust
      have hjustified : nd.currentRound = 1 ∨ RoundVoting.Justified (votingGroup hbyz)
          (record net.messages nd.lambda) nd.currentRound msg.value := by
        rw [← hlambda, ← hround]
        exact justified_of_justifyPrePrepare (hknown msg hmsg) hjust
      refine h.of_message subset_messages_broadcast (fun m hm => mem_messages_broadcast hm)
        hstorage.id_eq (fun p hp => nomatch hp) { hstorage with } ?_
      exact hvoting.accepted subset_messages_broadcast (fun m hm => mem_messages_broadcast hm)
        rfl rfl rfl rfl hnew hjustified
  | commit nd net value hquorum =>
      simp only at hstorage hvoting
      rw [hstorage.validators_eq, length_validatorsFromCount] at hquorum
      have hprepared : RoundVoting.Prepared (votingGroup hbyz)
          (record net.messages nd.lambda) nd.currentRound value :=
        exists_voters (hstorage.prepares (messageKey nd.lambda nd.currentRound value)) hquorum
      refine h.of_message subset_messages_broadcast (fun m hm => mem_messages_broadcast hm)
        hstorage.id_eq (fun p hp => nomatch hp) { hstorage with } ?_
      exact hvoting.locked subset_messages_broadcast (fun m hm => mem_messages_broadcast hm)
        rfl rfl rfl rfl hprepared
  | conclude nd net value hquorum =>
      simp only at hstorage hvoting
      rw [hstorage.validators_eq, length_validatorsFromCount] at hquorum
      have hcommitted : RoundVoting.Committed (votingGroup hbyz)
          (record net.messages nd.lambda) nd.currentRound value :=
        exists_voters (hstorage.commits (messageKey nd.lambda nd.currentRound value)) hquorum
      exact h.of_node (hstorage.concluded value _) (hvoting.of_decided rfl rfl rfl rfl hcommitted)
  | catchUp nd net msg value round hmsg hcert =>
      simp only at hstorage hvoting hknown
      rw [hstorage.validators_eq, length_validatorsFromCount] at hcert
      have hcertificate : ∀ m ∈ msg.justification, Known keys byz net.messages m :=
        fun m hm => (hknown msg hmsg).justification hm
      have hcommitted : RoundVoting.Committed (votingGroup hbyz)
          (record net.messages nd.lambda) round value :=
        committed_of_validateCommitCertificate hcertificate hcert
      exact h.of_node { hstorage with certificate := hcertificate }
        (hvoting.of_decided rfl rfl rfl rfl hcommitted)
  | enter nd net round hlater =>
      exact h.of_node (hstorage.entered round) (hvoting.entered hlater)
  | roundChange nd net round hround hundecided =>
      simp only at hstorage hvoting
      have hjust : ∀ p ∈ (nd.roundChangeMessage keys ρ round).justification,
          Known keys byz net.messages p := by
        intro p hp
        simp only [Node.roundChangeMessage, Node.signMessage, Node.prepareJustification] at hp
        split at hp
        case isTrue => cases hp
        case isFalse =>
          obtain ⟨⟨k, m⟩, hm, rfl⟩ := List.mem_map.mp (RangeOrder.mem_visit.mp hp)
          exact (hstorage.prepares _ k m hm).known
      refine h.of_message subset_messages_broadcast (fun m hm => mem_messages_broadcast hm)
        hstorage.id_eq hjust { hstorage with } ?_
      exact (hvoting.announced subset_messages_broadcast (fun m hm => mem_messages_broadcast hm)
        rfl rfl hround rfl hundecided).congr rfl rfl rfl rfl rfl rfl
  | propose nd net round value =>
      simp only at hstorage hvoting
      have hjust : ∀ p ∈ (nd.prePrepareMessage keys ρ round value).justification,
          Known keys byz net.messages p := by
        intro p hp
        simp only [Node.prePrepareMessage, Node.signMessage] at hp
        split at hp
        case isTrue => exact hstorage.roundChanges round p (RangeOrder.mem_visit.mp hp)
        case isFalse => cases hp
      refine h.of_message subset_messages_broadcast (fun m hm => mem_messages_broadcast hm)
        hstorage.id_eq hjust { hstorage with } ?_
      refine (hvoting.of_other_message subset_messages_broadcast
        (fun m hm => mem_messages_broadcast hm) ?_).congr rfl rfl rfl rfl rfl rfl
      rintro (ht | ht | ht) <;> cases ht
  | sendCertificate nd net toId =>
      simp only at hstorage hvoting
      have hsub : net.messages ⊆ (net.send toId (nd.decisionMessage keys)).messages :=
        fun m hm => mem_messages_send.mpr (Or.inl hm)
      refine h.of_message hsub (fun m hm => mem_messages_send.mp hm)
        hstorage.id_eq hstorage.certificate hstorage ?_
      refine hvoting.of_other_message hsub (fun m hm => mem_messages_send.mp hm) ?_
      rintro (ht | ht | ht) <;> cases ht

/-- Every sequence of actions keeps the invariants. -/
theorem Healthy.actions
    {ρ : MapOrders} {K : Message → Prop} {s t : Node × Network}
    (hK : ∀ m, K m → Known keys byz base m)
    (h : Healthy hbyz keys i base s)
    (hsteps : Actions keys ρ K s t) :
    Healthy hbyz keys i base t := by
  induction hsteps with
  | refl => exact h
  | tail _ hstep ih => exact ih.action hK hstep

/-- Starting an instance, for a node that has not sent anything. -/
theorem Healthy.reset
    {nd : Node} {net : Network} (lambda : Int) (value : String)
    (hstorage : Storage keys byz i nd net.messages)
    (hknown : ∀ m ∈ net.messages, Known keys byz net.messages m)
    (hfresh : ∀ m ∈ net.messages, m.fromId ≠ i) :
    Healthy hbyz keys i net.messages (nd.reset lambda value, net) where
  storage :=
    { hstorage with
      prepares := fun _ _ _ hm => nomatch hm
      commits := fun _ _ _ hm => nomatch hm
      roundChanges := fun _ _ hm => nomatch hm
      certificate := fun _ hm => nomatch hm }
  voting :=
    { round_pos := le_refl 1
      prepare_votes := fun m hm hfrom => absurd hfrom (hfresh m hm)
      prepare_unique := fun m hm _ _ hfrom => absurd hfrom (hfresh m hm)
      commit_votes := fun m hm hfrom => absurd hfrom (hfresh m hm)
      change_votes := fun m hm hfrom => absurd hfrom (hfresh m hm)
      carried := fun c hc _ _ hfrom => absurd hfrom (hfresh c hc)
      decided := fun hd => nomatch hd }
  known := hknown
  grows := List.Subset.refl _
  own := fun _ hm => Or.inl hm

end Steps

end Ibft
end DistributedConsensus
