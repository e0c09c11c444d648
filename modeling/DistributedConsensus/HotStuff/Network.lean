import DistributedConsensus.HotStuff.Crypto
import DistributedConsensus.HotStuff.Pacemaker
import DistributedConsensus.Foundations.Runs
import DistributedConsensus.Foundations.LockVoting

/-!
# HotStuff: a cluster over an unreliable network

The cluster consists of `n` replicas, some of them Byzantine.  The state records
the correct replicas and every message that a correct replica has ever handed
to the network.  A message that was sent may be delivered any number of times,
in any order, or never; this covers delay, reordering, duplication and loss.
If there is a Byzantine replica, a correct replica may also receive any other
message, as long as every signature of a correct replica in it was made by that
replica: signatures cannot be forged, everything else can.

The protocol run by the correct replicas is a parameter, so that Basic and
Chained HotStuff share this module.
-/

namespace DistributedConsensus
namespace HotStuff

open Foundations

variable {Cmd : Type}

/-- The signatures of a certificate. -/
def QC.allSigs (qc : QC) : List Sig := qc.sigs.map Prod.snd

/-- The signatures inside a node. -/
def Node.allSigs (b : Node Cmd) : List Sig :=
  b.justify.elim [] QC.allSigs

/-- The signatures inside a payload. -/
def Payload.allSigs : Payload Cmd → List Sig
  | .nodes chain => chain.flatMap Node.allSigs
  | _ => []

/-- The signatures inside a message. -/
def Msg.allSigs (m : Msg Cmd) : List Sig :=
  m.partialSig.elim [] (fun p => [p.2]) ++ m.justify.elim [] QC.allSigs ++
    m.node.elim [] Node.allSigs ++ m.payload.allSigs

/-- All signatures of a certificate satisfy `K`. -/
def QC.All (K : Sig → Prop) (qc : QC) : Prop := ∀ s ∈ qc.allSigs, K s

instance (K : Sig → Prop) [DecidablePred K] (qc : QC) : Decidable (qc.All K) :=
  inferInstanceAs (Decidable (∀ s ∈ qc.allSigs, K s))

/-- All signatures inside a node satisfy `K`. -/
def Node.All (K : Sig → Prop) (b : Node Cmd) : Prop := ∀ s ∈ b.allSigs, K s

/-- All signatures inside a message satisfy `K`. -/
def Msg.All (K : Sig → Prop) (m : Msg Cmd) : Prop := ∀ s ∈ m.allSigs, K s

section Parts

variable {K K' : Sig → Prop} {m : Msg Cmd}

theorem QC.All.mono
    {qc : QC}
    (hsub : ∀ s, K s → K' s)
    (h : qc.All K) :
    qc.All K' :=
  fun s hs => hsub s (h s hs)

theorem Msg.All.justify
    (h : m.All K)
    {qc : QC}
    (hqc : m.justify = some qc) :
    qc.All K := by
  intro s hs
  apply h
  simp [Msg.allSigs, hqc, hs]

theorem Msg.All.node
    (h : m.All K)
    {b : Node Cmd}
    (hb : m.node = some b) :
    b.All K := by
  intro s hs
  apply h
  simp [Msg.allSigs, hb, hs]

theorem Msg.All.partialSig
    (h : m.All K)
    {p : Int × Sig}
    (hp : m.partialSig = some p) :
    K p.2 := by
  apply h
  simp [Msg.allSigs, hp]

theorem Msg.All.nodes
    (h : m.All K)
    {chain : List (Node Cmd)}
    (hchain : m.payload = .nodes chain) :
    ∀ b ∈ chain, b.All K := by
  intro b hb s hs
  apply h
  simp only [Msg.allSigs, hchain, Payload.allSigs, List.mem_append, List.mem_flatMap]
  exact Or.inr ⟨b, hb, hs⟩

theorem genesisQc_all : genesisQc.All K := by
  intro s hs
  simp [genesisQc, QC.allSigs] at hs

/-- A certificate built from votes has only their signatures. -/
theorem QC.All.of_buildQc
    [Application Cmd] {votes : List (Msg Cmd)} {quorum : Nat} {qc : QC}
    (hvotes : ∀ v ∈ votes, v.All K)
    (hqc : buildQc votes quorum = some qc) :
    qc.All K := by
  intro s hs
  obtain ⟨p, hp, rfl⟩ := List.mem_map.mp hs
  obtain ⟨v, hv, hsig⟩ := mem_sigs_buildQc hqc hp
  exact (hvotes v hv).partialSig hsig

/-- The message carries nothing but a certificate. -/
theorem Msg.all_of_justify
    {qc : QC}
    (hqc : qc.All K)
    (hjustify : m.justify = some qc)
    (hsig : m.partialSig = none)
    (hnode : m.node = none)
    (hpayload : m.payload = .none) :
    m.All K := by
  intro s hs
  simp [Msg.allSigs, hjustify, hsig, hnode, hpayload, Payload.allSigs] at hs
  exact hqc s hs

end Parts

/-- The vote signatures in a list of messages. -/
def votesOf (out : List (Int × Msg Cmd)) : List Sig :=
  out.filterMap (fun p => p.2.partialSig.map Prod.snd)

@[simp] theorem votesOf_nil : votesOf ([] : List (Int × Msg Cmd)) = [] := rfl

@[simp] theorem votesOf_append (a b : List (Int × Msg Cmd)) :
    votesOf (a ++ b) = votesOf a ++ votesOf b := by
  simp [votesOf]

section Cluster

variable {n : Nat} (byz : Finset (Fin n))

/-- The correct replica `i` has sent a vote. -/
def Signed (sent : List (Int × Msg Cmd)) (i : Fin n) (t : MsgType) (v : Int)
    (h : Digest) : Prop :=
  Sig.signed i t v h ∈ votesOf sent

instance (sent : List (Int × Msg Cmd)) (i : Fin n) (t : MsgType) (v : Int)
    (h : Digest) : Decidable (Signed sent i t v h) :=
  inferInstanceAs (Decidable (_ ∈ _))

/-- A signature of a correct replica was made by that replica. -/
def Authentic (sent : List (Int × Msg Cmd)) : Sig → Prop
  | .signed k t v h => ∀ i : Fin n, i.val = k → i ∉ byz → Signed sent i t v h
  | .junk _ => True

instance (sent : List (Int × Msg Cmd)) (s : Sig) :
    Decidable (Authentic byz sent s) :=
  match s with
  | .signed k t v h =>
      inferInstanceAs (Decidable
        (∀ i : Fin n, i.val = k → i ∉ byz → Signed sent i t v h))
  | .junk _ => isTrue trivial

/-- A quorum of replicas supports a triple; Byzantine replicas support all. -/
def Certified (quorum : Nat) (sent : List (Int × Msg Cmd)) (t : MsgType)
    (v : Int) (h : Digest) : Prop :=
  ∃ Q : Finset (Fin n), quorum ≤ Q.card ∧
    ∀ i ∈ Q, i ∉ byz → Signed sent i t v h

variable {byz}

theorem Signed.mono
    {sent sent' : List (Int × Msg Cmd)} {i : Fin n} {t : MsgType} {v : Int}
    {h : Digest}
    (hs : Signed sent i t v h) :
    Signed (sent ++ sent') i t v h := by
  unfold Signed at hs ⊢
  rw [votesOf_append]
  exact List.mem_append_left _ hs

/-- A vote was sent before or in this step. -/
theorem signed_append
    {sent out : List (Int × Msg Cmd)} {i : Fin n} {t : MsgType} {v : Int}
    {h : Digest} :
    Signed (sent ++ out) i t v h ↔
      Signed sent i t v h ∨ Sig.signed i t v h ∈ votesOf out := by
  simp [Signed]

theorem Authentic.mono
    {sent sent' : List (Int × Msg Cmd)} {s : Sig}
    (hs : Authentic byz sent s) :
    Authentic byz (sent ++ sent') s := by
  cases s with
  | signed k t v h => exact fun i hi hc => (hs i hi hc).mono
  | junk _ => trivial

theorem Certified.mono
    {quorum : Nat} {sent sent' : List (Int × Msg Cmd)} {t : MsgType} {v : Int}
    {h : Digest}
    (hc : Certified byz quorum sent t v h) :
    Certified byz quorum (sent ++ sent') t v h := by
  obtain ⟨Q, hQ, hvotes⟩ := hc
  exact ⟨Q, hQ, fun i hi hb => (hvotes i hi hb).mono⟩

/-- A vote just sent is authentic. -/
theorem authentic_of_mem_votesOf
    {sent : List (Int × Msg Cmd)} {s : Sig}
    (hs : s ∈ votesOf sent) :
    Authentic byz sent s := by
  cases s with
  | signed k t v h =>
      intro i hi _
      subst hi
      exact hs
  | junk _ => trivial

/-- A valid certificate with authentic signatures is supported by a quorum. -/
theorem certified_of_verifyQc
    {quorum : Nat} {sent : List (Int × Msg Cmd)} {qc : QC}
    (hauth : ∀ s ∈ qc.allSigs, Authentic byz sent s)
    (hqc : verifyQc qc (verifyKeys n) quorum = true) :
    Certified byz quorum sent qc.type qc.viewNumber qc.nodeHash := by
  obtain ⟨Q, hQ, hsigs⟩ := exists_signers_of_verifyQc hqc
  refine ⟨Q, hQ, fun i hi hb => ?_⟩
  exact hauth _ (List.mem_map_of_mem (hsigs i hi)) i rfl hb

/-- A certified triple was signed by a correct replica. -/
theorem Certified.exists_signed
    {quorum : Nat} {sent : List (Int × Msg Cmd)} {t : MsgType} {v : Int}
    {h : Digest}
    (hbyz : byz.card < quorum)
    (hc : Certified byz quorum sent t v h) :
    ∃ i, i ∉ byz ∧ Signed sent i t v h := by
  obtain ⟨Q, hQ, hvotes⟩ := hc
  obtain ⟨i, hi, hb⟩ := exists_correct_of_card_lt (by omega : byz.card < Q.card)
  exact ⟨i, hb, hvotes i hi hb⟩

/-- Certificates agree when the correct replicas sign at most one hash. -/
theorem Certified.unique
    {quorum : Nat} {sent : List (Int × Msg Cmd)} {t : MsgType} {v : Int}
    {h h' : Digest}
    (hquorum : n + byz.card < 2 * quorum)
    (huniq : ∀ i, i ∉ byz → Signed sent i t v h → Signed sent i t v h' → h = h')
    (hc : Certified byz quorum sent t v h)
    (hc' : Certified byz quorum sent t v h') :
    h = h' := by
  obtain ⟨Q, hQ, hvotes⟩ := hc
  obtain ⟨Q', hQ', hvotes'⟩ := hc'
  have hsum : Fintype.card (Fin n) + byz.card < Q.card + Q'.card := by
    rw [Fintype.card_fin]
    omega
  obtain ⟨i, hi, hi', hb⟩ := exists_correct_inter hsum
  exact huniq i hb (hvotes i hi hb) (hvotes' i hi' hb)

end Cluster

section Threshold

variable {cfg : Config} {byz : Finset (Fin cfg.n)}

/-- With `n = 3f + 1` and at most `f` faults, every quorum has a correct member. -/
theorem card_lt_quorum
    (hn : cfg.n = 3 * cfg.f + 1)
    (hbyz : byz.card ≤ cfg.f) :
    byz.card < cfg.quorum := by
  unfold Config.quorum
  omega

/-- With `n = 3f + 1` and at most `f` faults, quorums share a correct member. -/
theorem card_add_lt_two_quorums
    (hn : cfg.n = 3 * cfg.f + 1)
    (hbyz : byz.card ≤ cfg.f) :
    cfg.n + byz.card < 2 * cfg.quorum := by
  unfold Config.quorum
  omega

/-- The voting group of a cluster. -/
def votingGroup
    (hn : cfg.n = 3 * cfg.f + 1)
    (hbyz : byz.card ≤ cfg.f) :
    LockVoting.Group (Fin cfg.n) where
  faulty := byz
  quorum := cfg.quorum
  quorum_large := by
    rw [Fintype.card_fin]
    exact card_add_lt_two_quorums hn hbyz

end Threshold

/-- The code that the correct replicas run. -/
structure Protocol (Cmd P : Type) where
  /-- The state of a new replica. -/
  init : Nat → P
  /-- The reaction to an input. -/
  step : P → Input Cmd → Option P
  /-- Messages handed to the network in the last step. -/
  outbox : P → List (Int × Msg Cmd)

/-- The correct replicas and the messages they have sent. -/
structure World (Cmd P : Type) (n : Nat) where
  procs : Fin n → P
  sent : List (Int × Msg Cmd)

section System

variable [DecidableEq Cmd] {P : Type} {n : Nat}

/-- Whether the network or a Byzantine replica can produce the input. -/
def Deliverable (byz : Finset (Fin n)) (sent : List (Int × Msg Cmd))
    (i : Fin n) : Input Cmd → Prop
  | .dispatch m =>
      ((i : Int), m) ∈ sent ∨
        byz ≠ ∅ ∧ ∀ s ∈ m.allSigs, Authentic byz sent s
  | _ => True

instance (byz : Finset (Fin n)) (sent : List (Int × Msg Cmd)) (i : Fin n)
    (inp : Input Cmd) : Decidable (Deliverable byz sent i inp) :=
  match inp with
  | .dispatch m =>
      inferInstanceAs (Decidable (((i : Int), m) ∈ sent ∨
        byz ≠ ∅ ∧ ∀ s ∈ m.allSigs, Authentic byz sent s))
  | .start => isTrue trivial
  | .submit _ => isTrue trivial
  | .timeout => isTrue trivial
  | .stop => isTrue trivial

/-- One step of a correct replica. -/
def worldStep (proto : Protocol Cmd P) (byz : Finset (Fin n))
    (w : World Cmd P n) (a : Fin n × Input Cmd) : Option (World Cmd P n) :=
  if a.1 ∈ byz then none
  else if Deliverable byz w.sent a.1 a.2 then
    match proto.step (w.procs a.1) a.2 with
    | some p => some {
        procs := Function.update w.procs a.1 p
        sent := w.sent ++ proto.outbox p }
    | none => none
  else none

/-- The cluster as a transition system. -/
def cluster (proto : Protocol Cmd P) (n : Nat) (byz : Finset (Fin n)) :
    System (World Cmd P n) (Fin n × Input Cmd) where
  init := {
    procs := fun i => proto.init i
    sent := [] }
  step := worldStep proto byz

/-- What a step of the cluster does. -/
theorem worldStep_cases
    {proto : Protocol Cmd P} {byz : Finset (Fin n)} {w w' : World Cmd P n}
    {a : Fin n × Input Cmd}
    (h : worldStep proto byz w a = some w') :
    a.1 ∉ byz ∧ Deliverable byz w.sent a.1 a.2 ∧
      ∃ p, proto.step (w.procs a.1) a.2 = some p ∧
        w' = {
          procs := Function.update w.procs a.1 p
          sent := w.sent ++ proto.outbox p } := by
  unfold worldStep at h
  split at h
  case isTrue => cases h
  case isFalse hb =>
    split at h
    case isFalse => cases h
    case isTrue hd =>
      split at h
      case h_1 p hp =>
        cases h
        exact ⟨hb, hd, p, hp, rfl⟩
      case h_2 => cases h

/-- A protocol whose replicas make up no signatures.  `H K p` says that the
signatures stored in `p` satisfy `K`. -/
structure Signing (proto : Protocol Cmd P) (H : (Sig → Prop) → P → Prop) : Prop where
  init : ∀ K i, H K (proto.init i)
  mono : ∀ K K' p, (∀ s, K s → K' s) → H K p → H K' p
  step : ∀ K p i p', H K p → (∀ m, i = .dispatch m → m.All K) →
    proto.step p i = some p' → H K p'
  outbox : ∀ K p, H K p → ∀ q ∈ proto.outbox p,
    q.2.All (fun s => K s ∨ s ∈ votesOf (proto.outbox p))

/-- All signatures that the replicas have sent or stored are authentic. -/
structure Genuine (H : (Sig → Prop) → P → Prop) (byz : Finset (Fin n))
    (w : World Cmd P n) : Prop where
  sent : ∀ q ∈ w.sent, q.2.All (Authentic byz w.sent)
  stored : ∀ i, H (Authentic byz w.sent) (w.procs i)

omit [DecidableEq Cmd] in
/-- A message that can be delivered has authentic signatures only. -/
theorem Genuine.deliverable
    {H : (Sig → Prop) → P → Prop} {byz : Finset (Fin n)} {w : World Cmd P n}
    (hw : Genuine H byz w)
    {i : Fin n} {m : Msg Cmd}
    (hd : Deliverable byz w.sent i (.dispatch m)) :
    m.All (Authentic byz w.sent) := by
  rcases hd with hsent | ⟨_, hauth⟩
  · exact hw.sent _ hsent
  · exact hauth

/-- **Unforgeability along a run.** -/
theorem Signing.genuine
    {proto : Protocol Cmd P} {H : (Sig → Prop) → P → Prop}
    (hproto : Signing proto H)
    {byz : Finset (Fin n)} {ok : World Cmd P n → Fin n × Input Cmd → Prop}
    {w : World Cmd P n}
    (hw : System.Reachable (cluster proto n byz) ok w) :
    Genuine H byz w := by
  refine System.Reachable.invariant (I := Genuine H byz) ?_ ?_ hw
  · exact ⟨by simp [cluster], fun i => hproto.init _ i⟩
  · intro w a w' _ hinv _ hstep
    obtain ⟨_, hd, p, hp, rfl⟩ := worldStep_cases hstep
    have hstored : H (Authentic byz w.sent) p := by
      refine hproto.step _ _ _ _ (hinv.stored a.1) ?_ hp
      intro m hm
      rw [hm] at hd
      exact hinv.deliverable hd
    have hgrow : ∀ s, Authentic byz w.sent s →
        Authentic byz (w.sent ++ proto.outbox p) s := fun s hs => hs.mono
    constructor
    · intro q hq s hs
      rcases List.mem_append.mp hq with hq | hq
      · exact hgrow s (hinv.sent q hq s hs)
      · rcases hproto.outbox _ p hstored q hq s hs with hs | hs
        · exact hgrow s hs
        · apply authentic_of_mem_votesOf
          rw [votesOf_append]
          exact List.mem_append_right _ hs
    · refine (Function.forall_update_iff w.procs fun _ q => H _ q).mpr ⟨?_, ?_⟩
      · exact hproto.mono _ _ _ hgrow hstored
      · exact fun i _ => hproto.mono _ _ _ hgrow (hinv.stored i)

end System

end HotStuff
end DistributedConsensus
