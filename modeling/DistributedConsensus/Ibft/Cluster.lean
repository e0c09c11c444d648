import DistributedConsensus.Ibft.Node
import DistributedConsensus.Foundations.Runs
import DistributedConsensus.Foundations.RoundVoting

/-!
# IBFT: a cluster over an unreliable network

The validators are `0, …, n - 1`; some of them are Byzantine.  The network keeps
every envelope that a correct node has handed to it, so a message may be
delivered late, out of order, several times or never.  A correct node may also
receive any other message, as long as every message of a correct node inside
it, at any depth of the justifications, was sent by that node: a signature
covers the whole message and cannot be forged.

Every correct node starts at most one instance, and it handles messages and
timeouts only after its start.  Loops over maps take an order of their own in
every step.
-/

namespace DistributedConsensus
namespace Ibft

open Foundations

variable {n : Nat}

section Authenticity

variable (keys : SignatureScheme) (byz : Finset (Fin n))

/-- A message with a valid signature of a correct node was sent by it. -/
def Genuine (sent : List Message) (m : Message) : Prop :=
  ∀ i : Fin n, m.fromId = i → i ∉ byz → keys.verifySignature m = true → m ∈ sent

instance (sent : List Message) (m : Message) : Decidable (Genuine keys byz sent m) :=
  inferInstanceAs (Decidable
    (∀ i : Fin n, m.fromId = i → i ∉ byz → keys.verifySignature m = true → m ∈ sent))

/-- No part of the message is forged. -/
def Known (sent : List Message) (m : Message) : Prop :=
  ∀ p ∈ m.parts, Genuine keys byz sent p

instance (sent : List Message) (m : Message) : Decidable (Known keys byz sent m) :=
  inferInstanceAs (Decidable (∀ p ∈ m.parts, Genuine keys byz sent p))

variable {keys byz}

theorem Known.genuine
    {sent : List Message} {m : Message}
    (h : Known keys byz sent m) :
    Genuine keys byz sent m :=
  h m m.self_mem_parts

theorem Known.justification
    {sent : List Message} {m p : Message}
    (h : Known keys byz sent m)
    (hp : p ∈ m.justification) :
    Known keys byz sent p :=
  fun q hq => h q (Message.mem_parts.mpr (Or.inr ⟨p, hp, hq⟩))

theorem Known.mono
    {sent sent' : List Message} {m : Message}
    (hsub : sent ⊆ sent')
    (h : Known keys byz sent m) :
    Known keys byz sent' m :=
  fun p hp i hi hc hv => hsub (h p hp i hi hc hv)

/-- A sent message is known when its justification is. -/
theorem known_of_mem
    {sent : List Message} {m : Message}
    (hm : m ∈ sent)
    (hjust : ∀ p ∈ m.justification, Known keys byz sent p) :
    Known keys byz sent m := by
  intro p hp
  rcases Message.mem_parts.mp hp with rfl | ⟨j, hj, hpj⟩
  · exact fun _ _ _ _ => hm
  · exact hjust j hj p hpj

end Authenticity

/-- The nodes, which of them have started, and the network. -/
structure World (n : Nat) where
  nodes : Fin n → Node
  started : Fin n → Bool
  net : Network

/-- The steps of the cluster. -/
inductive Label (n : Nat) where
  | start (i : Fin n) (lambda : Int) (value : String) (ρ : MapOrders)
  | deliver (i : Fin n) (msg : Message) (ρ : MapOrders)
  | timeout (i : Fin n) (ρ : MapOrders)
  | requestRoundChange (i : Fin n) (targetRound : Int) (ρ : MapOrders)

/-- The result of a handler replaces the node and the network. -/
def World.put (w : World n) (i : Fin n) (s : Node × Network) : World n :=
  { w with nodes := Function.update w.nodes i s.1, net := s.2 }

/-- The node counts as started. -/
def World.markStarted (w : World n) (i : Fin n) : World n :=
  { w with started := Function.update w.started i true }

section

variable (keys : SignatureScheme) (byz : Finset (Fin n))

/-- Whether a node can receive the message. -/
def Deliverable (net : Network) (i : Fin n) (msg : Message) : Prop :=
  ⟨i, msg⟩ ∈ net.queue ∨ Known keys byz net.messages msg

instance (net : Network) (i : Fin n) (msg : Message) :
    Decidable (Deliverable keys byz net i msg) :=
  inferInstanceAs (Decidable (_ ∨ _))

/-- A step of the cluster; only correct nodes take steps of their own. -/
def worldStep (w : World n) : Label n → Option (World n)
  | .start i lambda value ρ =>
      if i ∉ byz ∧ w.started i = false then
        some ((w.put i ((w.nodes i).start keys ρ lambda value w.net)).markStarted i)
      else none
  | .deliver i msg ρ =>
      if i ∉ byz ∧ w.started i = true ∧ Deliverable keys byz w.net i msg then
        some (w.put i ((w.nodes i).handleMessage keys ρ msg w.net))
      else none
  | .timeout i ρ =>
      if i ∉ byz ∧ w.started i = true then
        some (w.put i ((w.nodes i).onTimeout keys ρ w.net))
      else none
  | .requestRoundChange i targetRound ρ =>
      if i ∉ byz ∧ w.started i = true then
        some (w.put i ((w.nodes i).requestRoundChange keys ρ targetRound w.net))
      else none

/-- The cluster before any node has started. -/
def initialWorld (n : Nat) : World n where
  nodes i := newNode i (validatorsFromCount n)
  started _ := false
  net := ⟨validatorsFromCount n, []⟩

/-- The cluster as a transition system. -/
def cluster : System (World n) (Label n) where
  init := initialWorld n
  step := worldStep keys byz

end

/-! ## The announcements of the correct nodes -/

/-- The prepared round that a round change names. -/
def reportedRound (m : Message) : Option Int :=
  if m.preparedRound = noPreparedRound then none else some m.preparedRound

/-- The node has sent a vote for the value. -/
def Votes (sent : List Message) (type : MessageType) (lambda : Int) (i : Fin n) (r : Int)
    (v : String) : Prop :=
  ∃ m ∈ sent, m.fromId = i ∧ m.type = type ∧ m.lambda = lambda ∧ m.round = r ∧ m.value = v

/-- What the nodes have announced for an instance. -/
def record (sent : List Message) (lambda : Int) : RoundVoting.Record (Fin n) String where
  prepares := Votes sent .prepare lambda
  commits := Votes sent .commit lambda
  roundChanges i r c :=
    ∃ m ∈ sent, m.fromId = i ∧ m.type = .roundChange ∧ m.lambda = lambda ∧ m.round = r ∧
      c = reportedRound m

theorem Votes.mono
    {sent sent' : List Message} {type : MessageType} {lambda : Int} {i : Fin n} {r : Int}
    {v : String}
    (hsub : sent ⊆ sent')
    (h : Votes sent type lambda i r v) :
    Votes sent' type lambda i r v := by
  obtain ⟨m, hm, hrest⟩ := h
  exact ⟨m, hsub hm, hrest⟩

/-- The validators as a voting group. -/
def votingGroup
    {byz : Finset (Fin n)}
    (hbyz : byz.card ≤ maxFaultyNodes n) :
    LockVoting.Group (Fin n) where
  faulty := byz
  quorum := quorumSize n
  quorum_large := by
    have h := add_maxFaultyNodes_lt_two_quorums n
    rw [Fintype.card_fin]
    omega

section Certificates

variable {keys : SignatureScheme} {byz : Finset (Fin n)}
variable {hbyz : byz.card ≤ maxFaultyNodes n}
variable {sent : List Message} {lambda : Int}

/-- A known valid vote of a correct node was cast. -/
theorem votes_of_known
    {m : Message} {i : Fin n}
    (hknown : Known keys byz sent m)
    (hvalid : isValidMessage keys m (validatorsFromCount n) = true)
    (hfrom : m.fromId = i)
    (hc : i ∉ byz) :
    Votes sent m.type m.lambda i m.round m.value := by
  obtain ⟨-, hsig, -, -⟩ := isValidMessage_spec hvalid
  exact ⟨m, hknown.genuine i hfrom hc hsig, hfrom, rfl, rfl, rfl, rfl⟩

/-- A vote stored under its key and its sender. -/
structure StoredVote (keys : SignatureScheme) (byz : Finset (Fin n)) (sent : List Message)
    (type : MessageType) (key : MessageKey) (k : Int) (m : Message) : Prop where
  sender : m.fromId = k
  type_eq : m.type = type
  key_eq : messageKey m.lambda m.round m.value = key
  valid : isValidMessage keys m (validatorsFromCount n) = true
  known : Known keys byz sent m

/-- The keys of a map of messages as a set of validators. -/
theorem exists_senders
    {d : Dict Int Message}
    (hd : ∀ k m, (k, m) ∈ d.entries → ∃ i : Fin n, k = i) :
    ∃ Q : Finset (Fin n), Q.card = d.size ∧ ∀ i ∈ Q, ∃ m, ((i : Int), m) ∈ d.entries := by
  have hcard : (d.entries.map Prod.fst).toFinset.card = d.size := by
    rw [List.toFinset_card_of_nodup d.nodup, List.length_map]
    rfl
  obtain ⟨Q, hQ, hmem⟩ := exists_fin_of_identities (d.entries.map Prod.fst).toFinset (fun k hk => by
    obtain ⟨⟨k', m⟩, hp, rfl⟩ := List.mem_map.mp (List.mem_toFinset.mp hk)
    exact hd k' m hp)
  refine ⟨Q, hQ.trans hcard, fun i hi => ?_⟩
  obtain ⟨⟨k, m⟩, hp, hk⟩ := List.mem_map.mp (List.mem_toFinset.mp (hmem i hi))
  simp only at hk
  subst hk
  exact ⟨m, hp⟩

/-- The senders of stored votes have voted. -/
theorem exists_voters
    {type : MessageType} {key : MessageKey} {d : Dict Int Message}
    (hd : ∀ k m, (k, m) ∈ d.entries → StoredVote keys byz sent type key k m)
    (hsize : quorumSize n ≤ d.size) :
    ∃ Q : Finset (Fin n), quorumSize n ≤ Q.card ∧
      ∀ i ∈ Q, i ∉ byz → Votes sent type key.lambda i key.round key.value := by
  obtain ⟨Q, hcard, hmem⟩ := exists_senders (fun k m hp => by
    have hvote := hd k m hp
    rw [← hvote.sender]
    exact (isValidMessage_spec hvote.valid).1)
  refine ⟨Q, by omega, fun i hi hc => ?_⟩
  obtain ⟨m, hp⟩ := hmem i hi
  have hvote := hd i m hp
  have hcast := votes_of_known hvote.known hvote.valid hvote.sender hc
  rw [hvote.type_eq] at hcast
  rw [← hvote.key_eq]
  exact hcast

/-- The loop over a commit certificate has seen only votes for its result. -/
theorem scanCommitCertificate_spec
    (certificate : List Message) (value : String) (round : Int) (seen : Finset Int)
    {value' : String} {round' : Int} {seen' : Finset Int}
    (h : Node.scanCommitCertificate keys lambda n certificate value round seen =
      some (value', round', seen')) :
    (value ≠ "" → value' = value ∧ round' = round) ∧
    ∀ k ∈ seen', k ∈ seen ∨ ∃ m ∈ certificate, m.fromId = k ∧
      isValidMessage keys m (validatorsFromCount n) = true ∧ m.type = .commit ∧
      m.lambda = lambda ∧ m.value = value' ∧ m.round = round' := by
  induction certificate generalizing value round seen with
  | nil =>
      simp only [Node.scanCommitCertificate, Option.some.injEq, Prod.mk.injEq] at h
      obtain ⟨rfl, rfl, rfl⟩ := h
      exact ⟨fun _ => ⟨rfl, rfl⟩, fun k hk => Or.inl hk⟩
  | cons m rest ih =>
      unfold Node.scanCommitCertificate at h
      split at h
      case isTrue => cases h
      case isFalse hvalid =>
        have hvalid' : isValidMessage keys m (validatorsFromCount n) = true := by
          simpa using hvalid
        split at h
        case isTrue => cases h
        case isFalse htype =>
          split at h
          case isTrue => cases h
          case isFalse hlambda =>
            push Not at htype hlambda
            obtain ⟨p, hp⟩ : ∃ p, (if value = "" then (m.value, m.round) else (value, round)) = p :=
              ⟨_, rfl⟩
            rw [hp] at h
            simp only at h
            split at h
            case isTrue => cases h
            case isFalse hsame =>
              push Not at hsame
              have hne : p.1 ≠ "" := by
                rw [← hsame.1]
                exact value_ne_empty_of_valid hvalid' (Or.inr htype)
              obtain ⟨hkeep, hseen⟩ := ih p.1 p.2 (insert m.fromId seen) h
              obtain ⟨rfl, rfl⟩ := hkeep hne
              refine ⟨fun hv => ?_, fun k hk => ?_⟩
              · rw [if_neg hv] at hp
                rw [← hp]
                exact ⟨rfl, rfl⟩
              · rcases hseen k hk with hins | ⟨m', hm', hrest⟩
                · rcases Finset.mem_insert.mp hins with rfl | hold
                  · exact Or.inr ⟨m, List.mem_cons_self, rfl, hvalid', htype, hlambda, hsame⟩
                  · exact Or.inl hold
                · exact Or.inr ⟨m', List.mem_cons_of_mem _ hm', hrest⟩

/-- A valid commit certificate comes from a committed value. -/
theorem committed_of_validateCommitCertificate
    {certificate : List Message} {value : String} {round : Int}
    (hknown : ∀ m ∈ certificate, Known keys byz sent m)
    (h : Node.validateCommitCertificate keys certificate lambda n = some (value, round)) :
    RoundVoting.Committed (votingGroup hbyz) (record sent lambda) round value := by
  unfold Node.validateCommitCertificate at h
  split at h
  case isTrue => cases h
  case isFalse =>
    split at h
    case h_1 => cases h
    case h_2 value' round' seen hscan =>
      split at h
      case isTrue => cases h
      case isFalse hcard =>
        simp only [Option.some.injEq, Prod.mk.injEq] at h
        obtain ⟨rfl, rfl⟩ := h
        obtain ⟨-, hseen⟩ := scanCommitCertificate_spec certificate "" 0 ∅ hscan
        have hvote : ∀ k ∈ seen, ∃ m ∈ certificate, m.fromId = k ∧
            isValidMessage keys m (validatorsFromCount n) = true ∧ m.type = .commit ∧
            m.lambda = lambda ∧ m.value = value' ∧ m.round = round' := by
          intro k hk
          rcases hseen k hk with hempty | hm
          · simp at hempty
          · exact hm
        obtain ⟨Q, hQ, hmem⟩ := exists_fin_of_identities seen (fun k hk => by
          obtain ⟨m, -, rfl, hvalid, -⟩ := hvote k hk
          exact (isValidMessage_spec hvalid).1)
        have hquorum : quorumSize n ≤ Q.card := by omega
        refine ⟨Q, hquorum, fun i hi hc => ?_⟩
        obtain ⟨m, hm, hfrom, hvalid, htype, rfl, rfl, rfl⟩ := hvote i (hmem i hi)
        have hcast := votes_of_known (hknown m hm) hvalid hfrom hc
        rwa [htype] at hcast

/-- The prepare messages behind the highest report come from a prepared value. -/
theorem prepared_of_hasPrepareQuorum
    {ρ : MapOrders} {qrc : Dict Int Message} {preparedRound : Int} {preparedValue : String}
    (hknown : ∀ m ∈ qrc.values, Known keys byz sent m)
    (h : hasPrepareQuorumForHighestPrepared keys ρ qrc lambda preparedRound preparedValue n = true) :
    RoundVoting.Prepared (votingGroup hbyz) (record sent lambda) preparedRound preparedValue := by
  obtain ⟨Q, hQ, hvote⟩ := exists_prepares_of_hasPrepareQuorum h
  refine ⟨Q, hQ, fun i hi hc => ?_⟩
  obtain ⟨m, hm, p, hp, hfrom, hback⟩ := hvote i hi
  simp only [backsPrepared, Bool.and_eq_true, decide_eq_true_eq] at hback
  obtain ⟨⟨⟨⟨hvalid, htype⟩, rfl⟩, rfl⟩, rfl⟩ := hback
  have hcast := votes_of_known ((hknown m hm).justification hp) hvalid hfrom hc
  rwa [htype] at hcast

/-- An acceptable round change without a report names no round. -/
theorem reportedRound_eq_none
    {m : Message} {round : Int}
    (hacc : acceptableRoundChange keys lambda round n m = true)
    (h : hasPrepared m = false) :
    reportedRound m = none := by
  obtain ⟨-, -, -, -, -, hboth⟩ := acceptableRoundChange_spec hacc
  simp only [hasPrepared, Bool.and_eq_false_iff, decide_eq_false_iff_not, not_not] at h
  have hzero : m.preparedRound = noPreparedRound := by tauto
  simp [reportedRound, hzero]

/-- An acceptable round change that names a round has a report. -/
theorem reportedRound_eq_some
    {m : Message} {round q : Int}
    (hacc : acceptableRoundChange keys lambda round n m = true)
    (h : reportedRound m = some q) :
    hasPrepared m = true ∧ m.preparedRound = q := by
  obtain ⟨-, -, -, -, -, hboth⟩ := acceptableRoundChange_spec hacc
  unfold reportedRound at h
  split at h
  case isTrue => cases h
  case isFalse hne =>
    refine ⟨?_, Option.some.inj h⟩
    simp only [hasPrepared, Bool.and_eq_true, decide_eq_true_eq]
    exact ⟨hne, fun hv => hne (hboth.mpr hv)⟩

/-- The round changes behind an accepted proposal justify its value. -/
theorem justified_of_justifyPrePrepare
    {ρ : MapOrders} {msg : Message}
    (hknown : Known keys byz sent msg)
    (h : justifyPrePrepare keys ρ msg n = true) :
    msg.round = 1 ∨
      RoundVoting.Justified (votingGroup hbyz) (record sent msg.lambda) msg.round msg.value := by
  rcases justifyPrePrepare_spec h with hfirst | ⟨hjust, hvalue⟩
  · exact Or.inl hfirst
  · right
    obtain ⟨qrc, hqrc⟩ : ∃ qrc, roundChangeMessagesFromJustification msg.justification = qrc :=
      ⟨_, rfl⟩
    rw [hqrc] at hjust hvalue
    have hentry : ∀ k m, (k, m) ∈ qrc.entries → m ∈ msg.justification ∧ m.fromId = k := by
      intro k m hkm
      rw [← hqrc] at hkm
      exact roundChangeMessagesFromJustification_spec hkm
    have hqknown : ∀ m ∈ qrc.values, Known keys byz sent m := by
      intro m hm
      obtain ⟨⟨k, m'⟩, hp, rfl⟩ := List.mem_map.mp hm
      exact hknown.justification (hentry k m' hp).1
    obtain ⟨hsize, hacc, hprep⟩ := justifyRoundChange_spec hjust
    obtain ⟨Q, hcard, hmem⟩ := exists_senders (fun k m hp => by
      obtain ⟨hvalid, -⟩ := acceptableRoundChange_spec (hacc m (List.mem_map_of_mem hp))
      rw [← (hentry k m hp).2]
      exact (isValidMessage_spec hvalid).1)
    have : Nonempty Message := ⟨msg⟩
    choose! change hchange using hmem
    have hvalues : ∀ i ∈ Q, change i ∈ qrc.values :=
      fun i hi => List.mem_map_of_mem (hchange i hi)
    have hquorum : quorumSize n ≤ Q.card := by omega
    refine ⟨Q, fun i => reportedRound (change i), hquorum, fun i hi hc => ?_, ?_⟩
    · obtain ⟨hvalid, htype, hlambda, hround, -⟩ := acceptableRoundChange_spec (hacc _ (hvalues i hi))
      have hfrom := (hentry _ _ (hchange i hi)).2
      obtain ⟨-, hsig, -⟩ := isValidMessage_spec hvalid
      exact ⟨change i, (hqknown _ (hvalues i hi)).genuine i hfrom hc hsig, hfrom, htype, hlambda,
        hround, rfl⟩
    · rcases hprep with hnone | ⟨hfound, hback⟩
      · left
        intro i hi
        exact reportedRound_eq_none (hacc _ (hvalues i hi)) (hnone _ (hvalues i hi))
      · right
        obtain ⟨m, hm, hhas, hpr, -⟩ := highestPrepared_found hfound
        refine ⟨(highestPrepared ρ qrc).preparedRound, ?_, ?_, ?_⟩
        · obtain ⟨-, -, -, -, hlt, -⟩ := acceptableRoundChange_spec (hacc m hm)
          rw [hpr]
          simp only [hasPrepared, Bool.and_eq_true, decide_eq_true_eq] at hhas
          exact hlt hhas.1
        · rw [hvalue hfound]
          exact prepared_of_hasPrepareQuorum hqknown hback
        · intro i hi q hq
          obtain ⟨hhas', rfl⟩ := reportedRound_eq_some (hacc _ (hvalues i hi)) hq
          exact (le_highestPrepared (hvalues i hi) hhas').2

end Certificates

end Ibft
end DistributedConsensus
