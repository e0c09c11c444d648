import DistributedConsensus.HotStuff.ChainedSteps

/-!
# Chained HotStuff: at most one certificate per view

A correct replica remembers the views in which it has voted, so it signs at most
one node hash per view, in every run and whatever the Byzantine replicas send.
Two valid GENERIC certificates of one view therefore certify the same node.
-/

namespace DistributedConsensus
namespace HotStuff

open Foundations

variable {Cmd : Type} [Application Cmd]

/-- The protocol of `hotstuff/chained_replica.py`. -/
def chained (cfg : Config) (sm : Nat → Option (Application.State Cmd)) :
    Protocol Cmd (ChainedReplica Cmd) where
  init i := ChainedReplica.new i (sm i)
  step r i := r.step cfg i
  outbox r := r.outbox

/-- Every vote is a GENERIC vote of a view its voter remembers, and it is the
only one of its voter in that view. -/
structure ChainedVoteInv (cfg : Config) (w : World Cmd (ChainedReplica Cmd) cfg.n) :
    Prop where
  ids : ∀ i, (w.procs i).id = i
  voted : ∀ (i : Fin cfg.n) t v h, Signed w.sent i t v h →
    t = .generic ∧ v ∈ (w.procs i).voted
  once : ∀ (i : Fin cfg.n) v h h', Signed w.sent i .generic v h →
    Signed w.sent i .generic v h' → h = h'

variable {cfg : Config} {byz : Finset (Fin cfg.n)}
  {w : World Cmd (ChainedReplica Cmd) cfg.n} [DecidableEq Cmd]
  {sm : Nat → Option (Application.State Cmd)}

omit [DecidableEq Cmd] in
/-- A step of replica `a` that adds the listed votes and remembers their views
keeps the invariant. -/
theorem ChainedVoteInv.update
    {a : Fin cfg.n} {p : ChainedReplica Cmd}
    (hinv : ChainedVoteInv cfg w)
    (hid : p.id = a)
    (hmono : (w.procs a).voted ⊆ p.voted)
    (hfresh : ∀ k t v h, Sig.signed k t v h ∈ votesOf p.outbox →
      k = a ∧ t = .generic ∧ v ∈ p.voted ∧ v ∉ (w.procs a).voted ∧
        ∀ k' t' v' h', Sig.signed k' t' v' h' ∈ votesOf p.outbox → h' = h) :
    ChainedVoteInv cfg {
      procs := Function.update w.procs a p
      sent := w.sent ++ p.outbox } where
  ids := (Function.forall_update_iff w.procs fun i (q : ChainedReplica Cmd) =>
    q.id = i).mpr ⟨hid, fun i _ => hinv.ids i⟩
  voted := by
    intro i t v h hs
    rcases signed_append.mp hs with hs | hs
    · obtain ⟨ht, hv⟩ := hinv.voted i t v h hs
      refine ⟨ht, ?_⟩
      by_cases hi : i = a
      · subst hi
        simpa using hmono hv
      · simpa [Function.update_of_ne hi] using hv
    · obtain ⟨hi, ht, hv, _⟩ := hfresh _ t v h hs
      have hia : i = a := Fin.val_inj.mp hi
      subst hia
      exact ⟨ht, by simpa using hv⟩
  once := by
    intro i v h h' hs hs'
    rcases signed_append.mp hs with hold | hnew
    · rcases signed_append.mp hs' with hold' | hnew'
      · exact hinv.once i v h h' hold hold'
      · obtain ⟨hi, _, _, hunvoted, _⟩ := hfresh _ _ v h' hnew'
        have hia : i = a := Fin.val_inj.mp hi
        subst hia
        exact absurd (hinv.voted i _ v h hold).2 hunvoted
    · rcases signed_append.mp hs' with hold' | hnew'
      · obtain ⟨hi, _, _, hunvoted, _⟩ := hfresh _ _ v h hnew
        have hia : i = a := Fin.val_inj.mp hi
        subst hia
        exact absurd (hinv.voted i _ v h' hold').2 hunvoted
      · obtain ⟨_, _, _, _, honly⟩ := hfresh _ _ v h' hnew'
        exact honly _ _ v h hnew

/-- **One step keeps the voting invariant.** -/
theorem ChainedVoteInv.step
    {w' : World Cmd (ChainedReplica Cmd) cfg.n} {a : Fin cfg.n × Input Cmd}
    (hinv : ChainedVoteInv cfg w)
    (hstep : (cluster (chained cfg sm) cfg.n byz).step w a = some w') :
    ChainedVoteInv cfg w' := by
  obtain ⟨_, _, p, hp, rfl⟩ := worldStep_cases hstep
  rcases ChainedReplica.step_cases cfg hp with
    hquiet | ⟨m, bStar, qc, _, _, _, _, _, _, _, hh⟩
  · have hvotes : votesOf p.outbox = [] := hquiet.votes
    refine hinv.update (hquiet.id.trans (hinv.ids a.1)) ?_ (by simp [hvotes])
    rw [hquiet.voted]
    exact List.Subset.refl _
  · have hvotes := hh.votes
    have hvoted := hh.voted
    simp only [votesOf_nil, List.nil_append] at hvotes
    split at hvotes
    case isTrue hvote =>
      rw [if_pos hvote] at hvoted
      refine hinv.update (hh.id.trans (hinv.ids a.1)) ?_ ?_
      · rw [hvoted]
        exact fun v hv => List.mem_insert_of_mem hv
      · intro k t v h hs
        simp only [hvotes, List.mem_singleton, Sig.signed.injEq] at hs
        obtain ⟨rfl, rfl, rfl, rfl⟩ := hs
        refine ⟨hinv.ids a.1, rfl, ?_, hvote.1, ?_⟩
        · rw [hvoted]
          exact List.mem_insert_self
        · intro k' t' v' h' hs'
          simp only [hvotes, List.mem_singleton, Sig.signed.injEq] at hs'
          exact hs'.2.2.2
    case isFalse hvote =>
      rw [if_neg hvote] at hvoted
      refine hinv.update (hh.id.trans (hinv.ids a.1)) ?_ (by simp [hvotes])
      rw [hvoted]
      exact List.Subset.refl _

theorem chainedVoteInv_of_reachable
    {ok : World Cmd (ChainedReplica Cmd) cfg.n → Fin cfg.n × Input Cmd → Prop}
    (hw : System.Reachable (cluster (chained cfg sm) cfg.n byz) ok w) :
    ChainedVoteInv cfg w := by
  refine System.Reachable.invariant ?_ ?_ hw
  · exact ⟨fun _ => rfl, by simp [cluster, Signed], by simp [cluster, Signed]⟩
  · intro w a w' _ hinv _ hstep
    exact hinv.step hstep

/-- **One certificate per view.**  In every run, two valid GENERIC certificates
of one view certify the same node. -/
theorem generic_nodeHash_eq_of_verifyQc
    (hn : cfg.n = 3 * cfg.f + 1)
    (hbyz : byz.card ≤ cfg.f)
    (hw : System.Reachable (cluster (chained cfg sm) cfg.n byz) System.anyStep w)
    {qc qc' : QC}
    (hauth : qc.All (Authentic byz w.sent))
    (hauth' : qc'.All (Authentic byz w.sent))
    (hqc : verifyQc qc (verifyKeys cfg.n) cfg.quorum = true)
    (hqc' : verifyQc qc' (verifyKeys cfg.n) cfg.quorum = true)
    (htype : qc.type = .generic)
    (htype' : qc'.type = .generic)
    (hview : qc.viewNumber = qc'.viewNumber) :
    qc.nodeHash = qc'.nodeHash := by
  have hinv := chainedVoteInv_of_reachable hw
  have hcert := certified_of_verifyQc hauth hqc
  have hcert' := certified_of_verifyQc hauth' hqc'
  rw [htype] at hcert
  rw [htype', ← hview] at hcert'
  exact Certified.unique (card_add_lt_two_quorums hn hbyz)
    (fun i _ hs hs' => hinv.once i _ _ _ hs hs') hcert hcert'

/-- Four replicas of which the leader is faulty. -/
def chainedFour :
    System (World String (ChainedReplica String) fourReplicas.n)
      (Fin fourReplicas.n × Input String) :=
  cluster (chained fourReplicas fun _ => none) fourReplicas.n
    ({(0 : Fin 4)} : Finset (Fin 4))

/-- The leader proposes a block in view 1. -/
def genericProposal (cmd : String) : Msg String :=
  (ChainedReplica.new 0 none).proposalMsg 1 (ChainedReplica.leafOf genesisQc cmd 1)
    genesisQc

/-- A GENERIC certificate of view 1, signed by the listed replicas. -/
def genericCertificate (cmd : String) (signers : List Nat) : QC where
  type := .generic
  viewNumber := 1
  nodeHash := (ChainedReplica.leafOf genesisQc cmd 1).hash
  sigs := signers.map fun (k : Nat) => ((k : Int),
    signVote k .generic 1 (ChainedReplica.leafOf genesisQc cmd 1).hash)

/-- The faulty leader proposes two blocks in view 1; only the first collects
votes, and two sets of signers certify it. -/
theorem generic_nodeHash_eq_of_verifyQc_single :
    ∃ w, System.Reachable chainedFour System.anyStep w ∧
      (genericCertificate "x" [1, 2, 3]).All
        (Authentic ({(0 : Fin 4)} : Finset (Fin 4)) w.sent) ∧
      (genericCertificate "x" [0, 1, 2]).All
        (Authentic ({(0 : Fin 4)} : Finset (Fin 4)) w.sent) ∧
      (genericCertificate "x" [1, 2, 3]).nodeHash =
        (genericCertificate "x" [0, 1, 2]).nodeHash := by
  have hrun : ∃ w, System.Reachable chainedFour System.anyStep w ∧
      ((genericCertificate "x" [1, 2, 3]).All
          (Authentic ({(0 : Fin 4)} : Finset (Fin 4)) w.sent) ∧
        (genericCertificate "x" [0, 1, 2]).All
          (Authentic ({(0 : Fin 4)} : Finset (Fin 4)) w.sent)) := by
    refine System.exists_reaches_of_exec [
      startOf 1, startOf 2, startOf 3,
      deliver 1 (genericProposal "x"), deliver 2 (genericProposal "x"),
      deliver 2 (genericProposal "y"), deliver 3 (genericProposal "x")] ?_
    decide
  obtain ⟨w, hw, hauth, hauth'⟩ := hrun
  have hn : fourReplicas.n = 3 * fourReplicas.f + 1 := rfl
  exact ⟨w, hw, hauth, hauth', generic_nodeHash_eq_of_verifyQc hn (by decide) hw
    hauth hauth' (by decide) (by decide) rfl rfl rfl⟩

end HotStuff
end DistributedConsensus
