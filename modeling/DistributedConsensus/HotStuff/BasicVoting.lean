import DistributedConsensus.HotStuff.ReplicaSignatures

/-!
# Basic HotStuff: at most one certificate per phase and view

The cluster of this module runs `Replica`.  A correct replica answers every
PREPARE proposal of the leader that it finds safe, also a second one of the same
view, and it takes a certificate of view 0 without signatures for a PREPARE
certificate.  Runs in which neither happens satisfy the invariant `VoteInv`,
and then two valid certificates of one type and view certify the same node.
-/

namespace DistributedConsensus
namespace HotStuff

open Foundations

variable {Cmd : Type} [Application Cmd]

/-- The protocol of `hotstuff/replica.py`. -/
def basic (cfg : Config) (sm : Nat → Option (Application.State Cmd)) :
    Protocol Cmd (Replica Cmd) where
  init i := Replica.new i (sm i)
  step r i := r.step cfg i
  outbox r := r.outbox

theorem basic_signing (cfg : Config) (sm : Nat → Option (Application.State Cmd)) :
    Signing (basic cfg sm) Replica.Holds where
  init _ i := Replica.holds_new i (sm i)
  mono _ _ _ hsub h := h.mono hsub
  step _ _ _ _ h hi hstep := h.step hi hstep
  outbox _ _ h := h.outbox

/-- A PREPARE vote of replica `i` in view `v` is a vote for `h`. -/
def Sig.PreparesOnly (i : Nat) (v : Int) (h : Digest) : Sig → Prop
  | .signed k .prepare v' h' => k = i → v' = v → h' = h
  | _ => True

instance (i : Nat) (v : Int) (h : Digest) : (s : Sig) → Decidable (s.PreparesOnly i v h)
  | .signed k t v' h' =>
      match t with
      | .prepare => inferInstanceAs (Decidable (k = i → v' = v → h' = h))
      | .newView | .preCommit | .commit | .decide | .generic | .syncReq | .syncResp =>
          isTrue trivial
  | .junk _ => isTrue trivial

section Policies

variable (cfg : Config) (w : World Cmd (Replica Cmd) cfg.n)

/-- A proposal of the leader with an acceptable certificate reaches a replica
only if the replica has not voted for another node in that view. -/
def FirstProposal (a : Fin cfg.n × Input Cmd) : Prop :=
  match a.2 with
  | .dispatch m =>
      match m.node with
      | some node =>
          m.type = .prepare → m.partialSig = none →
          m.sender = cfg.leader m.viewNumber →
          Replica.verifyJustify cfg m.justify = true →
          ∀ s ∈ votesOf w.sent, s.PreparesOnly a.1 m.viewNumber node.hash
      | none => True
  | _ => True

instance : (a : Fin cfg.n × Input Cmd) → Decidable (FirstProposal cfg w a)
  | (_, .dispatch ⟨_, _, _, some _, _, _, _⟩) =>
      inferInstanceAs (Decidable (_ → _ → _ → _ → ∀ s ∈ votesOf w.sent, s.PreparesOnly _ _ _))
  | (_, .dispatch ⟨_, _, _, none, _, _, _⟩) | (_, .start) | (_, .submit _) | (_, .timeout)
  | (_, .stop) => isTrue trivial

end Policies

/-- The type of certificate that a phase message has to carry. -/
def certifiedPhase : MsgType → Option MsgType
  | .preCommit => some .prepare
  | .commit => some .preCommit
  | .decide => some .commit
  | _ => none

/-- A phase message of the leader with a certificate of the right type and view
has signatures on it. -/
def CertificateSigned (cfg : Config) (phases : List MsgType) : Input Cmd → Prop
  | .dispatch m =>
      m.type ∈ phases → m.sender = cfg.leader m.viewNumber →
        match certifiedPhase m.type with
        | some t =>
            matchingQc m.justify t m.viewNumber = true →
            Replica.isGenesisQc m.justify = false
        | none => True
  | _ => True

instance (cfg : Config) (phases : List MsgType) :
    (i : Input Cmd) → Decidable (CertificateSigned cfg phases i)
  | .dispatch ⟨t, _, _, _, _, _, _⟩ =>
      match t with
      | .preCommit | .commit | .decide => inferInstanceAs (Decidable (_ → _ → _ → _))
      | .newView | .prepare | .generic | .syncReq | .syncResp =>
          inferInstanceAs (Decidable (_ → _ → True))
  | .start | .submit _ | .timeout | .stop => isTrue trivial

omit [Application Cmd] in
theorem CertificateSigned.of_accepts
    {cfg : Config} {phases : List MsgType} {m : Msg Cmd} {t : MsgType} {qc : QC}
    (h : CertificateSigned cfg phases (.dispatch m))
    (hm : m.type ∈ phases)
    (ht : certifiedPhase m.type = some t)
    (hacc : Replica.Accepts cfg m t qc) :
    Replica.isGenesisQc m.justify = false := by
  have hqc := h hm hacc.sender
  rw [ht] at hqc
  apply hqc
  simp [matchingQc, hacc.justify, hacc.type, hacc.view]

/-- The runs to which the one-certificate property applies. -/
def VoteOnce (cfg : Config) (w : World Cmd (Replica Cmd) cfg.n)
    (a : Fin cfg.n × Input Cmd) : Prop :=
  FirstProposal cfg w a ∧ CertificateSigned cfg [.preCommit, .commit] a.2

instance (cfg : Config) (w : World Cmd (Replica Cmd) cfg.n)
    (a : Fin cfg.n × Input Cmd) : Decidable (VoteOnce cfg w a) :=
  inferInstanceAs (Decidable (_ ∧ _))

section Invariant

variable {cfg : Config} {byz : Finset (Fin cfg.n)}

/-- What the votes of the correct replicas say about each other. -/
structure VoteInv (cfg : Config) (byz : Finset (Fin cfg.n))
    (w : World Cmd (Replica Cmd) cfg.n) : Prop where
  ids : ∀ i, (w.procs i).id = i
  once : ∀ (i : Fin cfg.n) v h h', Signed w.sent i .prepare v h →
    Signed w.sent i .prepare v h' → h = h'
  backed : ∀ (i : Fin cfg.n) t v h, Signed w.sent i t v h →
    t = .prepare ∨
    t = .preCommit ∧ Certified byz cfg.quorum w.sent .prepare v h ∨
    t = .commit ∧ Certified byz cfg.quorum w.sent .preCommit v h

omit [Application Cmd] in
/-- An accepted certificate with signatures is supported by a quorum. -/
theorem certified_of_accepts
    {m : Msg Cmd} {t : MsgType} {qc : QC} {sent : List (Int × Msg Cmd)}
    (hauth : m.All (Authentic byz sent))
    (hacc : Replica.Accepts cfg m t qc)
    (hsigs : Replica.isGenesisQc m.justify = false) :
    Certified byz cfg.quorum sent t m.viewNumber qc.nodeHash := by
  have hverify := hacc.verified
  rw [hacc.justify] at hsigs
  rw [Replica.verifyJustify, hsigs, Bool.false_or] at hverify
  have hcert := certified_of_verifyQc (hauth.justify hacc.justify) hverify
  rwa [hacc.type, hacc.view] at hcert

variable [DecidableEq Cmd] {sm : Nat → Option (Application.State Cmd)}

/-- **One step keeps the voting invariant.** -/
theorem VoteInv.step
    {w w' : World Cmd (Replica Cmd) cfg.n} {a : Fin cfg.n × Input Cmd}
    (hgen : Genuine Replica.Holds byz w)
    (hinv : VoteInv cfg byz w)
    (hok : VoteOnce cfg w a)
    (hstep : (cluster (basic cfg sm) cfg.n byz).step w a = some w') :
    VoteInv cfg byz w' := by
  obtain ⟨_, hd, p, hp, rfl⟩ := worldStep_cases hstep
  obtain ⟨hid, hvoting⟩ := Replica.step_voting cfg hp
  rw [hinv.ids] at hid hvoting
  have hids : ∀ i, (Function.update w.procs a.1 p i).id = i :=
    (Function.forall_update_iff w.procs fun i (q : Replica Cmd) => q.id = i).mpr
      ⟨hid, fun i _ => hinv.ids i⟩
  -- The fresh vote, if there is one, decides both remaining fields.
  have hkeep : (∀ i v h h', Sig.signed i .prepare v h ∈ votesOf p.outbox →
        i = a.1 ∧ (Signed w.sent a.1 .prepare v h' → h' = h)) →
      (∀ i v h h', Sig.signed i .prepare v h ∈ votesOf p.outbox →
        Sig.signed i .prepare v h' ∈ votesOf p.outbox → h = h') →
      (∀ i t v h, Sig.signed i t v h ∈ votesOf p.outbox →
        t = .prepare ∨
        t = .preCommit ∧ Certified byz cfg.quorum w.sent .prepare v h ∨
        t = .commit ∧ Certified byz cfg.quorum w.sent .preCommit v h) →
      VoteInv cfg byz {
        procs := Function.update w.procs a.1 p
        sent := w.sent ++ (basic cfg sm).outbox p } := by
    intro hfresh hsingle hback
    refine ⟨hids, ?_, ?_⟩
    · intro i v h h' hs hs'
      rcases signed_append.mp hs with hs | hs
      · rcases signed_append.mp hs' with hs' | hs'
        · exact hinv.once i v h h' hs hs'
        · obtain ⟨hi, hsame⟩ := hfresh i v h' h hs'
          rw [Fin.val_inj] at hi
          subst hi
          exact hsame hs
      · rcases signed_append.mp hs' with hs' | hs'
        · obtain ⟨hi, hsame⟩ := hfresh i v h h' hs
          rw [Fin.val_inj] at hi
          subst hi
          exact (hsame hs').symm
        · exact hsingle i v h h' hs hs'
    · intro i t v h hs
      have hgrow : ∀ {t v h}, Certified byz cfg.quorum w.sent t v h →
          Certified byz cfg.quorum (w.sent ++ (basic cfg sm).outbox p) t v h :=
        fun hc => hc.mono
      have hold : t = .prepare ∨
          t = .preCommit ∧ Certified byz cfg.quorum w.sent .prepare v h ∨
          t = .commit ∧ Certified byz cfg.quorum w.sent .preCommit v h := by
        rcases signed_append.mp hs with hs | hs
        · exact hinv.backed i t v h hs
        · exact hback i t v h hs
      rcases hold with ht | ⟨ht, hc⟩ | ⟨ht, hc⟩
      · exact Or.inl ht
      · exact Or.inr (Or.inl ⟨ht, hgrow hc⟩)
      · exact Or.inr (Or.inr ⟨ht, hgrow hc⟩)
  obtain ⟨hfirst, hsigned⟩ := hok
  revert hvoting hkeep
  generalize votesOf p.outbox = votes
  generalize p.lockedQc = lock
  intro hvoting hkeep
  cases hvoting with
  | none => exact hkeep (by simp) (by simp) (by simp)
  | prepare m node qc hi htype hsig hsender hnode hqc hverify =>
      refine hkeep ?_ ?_ ?_
      · intro i v h h' hmem
        simp only [List.mem_singleton, Sig.signed.injEq] at hmem
        obtain ⟨rfl, _, rfl, rfl⟩ := hmem
        refine ⟨rfl, fun hold => ?_⟩
        simp only [FirstProposal, hi, hnode] at hfirst
        exact hfirst htype hsig hsender (by rw [hqc]; exact hverify) _ hold rfl rfl
      · intro i v h h' hmem hmem'
        simp only [List.mem_singleton, Sig.signed.injEq] at hmem hmem'
        rw [hmem.2.2.2, hmem'.2.2.2]
      · intro i t v h hmem
        simp only [List.mem_singleton, Sig.signed.injEq] at hmem
        exact Or.inl hmem.2.1
  | preCommit m qc hi htype hsig hacc =>
      refine hkeep (by simp) (by simp) ?_
      intro i t v h hmem
      simp only [List.mem_singleton, Sig.signed.injEq] at hmem
      obtain ⟨rfl, rfl, rfl, rfl⟩ := hmem
      rw [hi] at hd hsigned
      refine Or.inr (Or.inl ⟨rfl, ?_⟩)
      exact certified_of_accepts (hgen.deliverable hd) hacc
        (hsigned.of_accepts (by simp [htype]) (by rw [htype]; rfl) hacc)
  | commit m qc hi htype hsig hacc =>
      refine hkeep (by simp) (by simp) ?_
      intro i t v h hmem
      simp only [List.mem_singleton, Sig.signed.injEq] at hmem
      obtain ⟨rfl, rfl, rfl, rfl⟩ := hmem
      rw [hi] at hd hsigned
      refine Or.inr (Or.inr ⟨rfl, ?_⟩)
      exact certified_of_accepts (hgen.deliverable hd) hacc
        (hsigned.of_accepts (by simp [htype]) (by rw [htype]; rfl) hacc)

theorem voteInv_of_reachable
    {w : World Cmd (Replica Cmd) cfg.n}
    (hw : System.Reachable (cluster (basic cfg sm) cfg.n byz) (VoteOnce cfg) w) :
    VoteInv cfg byz w := by
  refine System.Reachable.invariant ?_ ?_ hw
  · exact ⟨fun _ => rfl, by simp [cluster, Signed], by simp [cluster, Signed]⟩
  · intro w a w' hreach hinv hok hstep
    exact hinv.step ((basic_signing cfg sm).genuine hreach) hok hstep

end Invariant

section Certificates

variable {cfg : Config} {byz : Finset (Fin cfg.n)}
  {w : World Cmd (Replica Cmd) cfg.n}

/-- Behind every certificate is a PREPARE certificate of the same view. -/
theorem VoteInv.prepared
    (hinv : VoteInv cfg byz w)
    (hquorum : byz.card < cfg.quorum)
    {t : MsgType} {v : Int} {h : Digest}
    (hc : Certified byz cfg.quorum w.sent t v h) :
    Certified byz cfg.quorum w.sent .prepare v h := by
  have hpre : Certified byz cfg.quorum w.sent .preCommit v h →
      Certified byz cfg.quorum w.sent .prepare v h := by
    intro hc
    obtain ⟨i, _, hs⟩ := hc.exists_signed hquorum
    rcases hinv.backed i _ v h hs with ht | ⟨_, hcert⟩ | ⟨ht, _⟩
    · cases ht
    · exact hcert
    · cases ht
  obtain ⟨i, _, hs⟩ := hc.exists_signed hquorum
  rcases hinv.backed i t v h hs with rfl | ⟨_, hcert⟩ | ⟨_, hcert⟩
  · exact hc
  · exact hcert
  · exact hpre hcert

/-- At most one node is certified per view, whatever the phase. -/
theorem VoteInv.certified_unique
    (hinv : VoteInv cfg byz w)
    (hn : cfg.n = 3 * cfg.f + 1)
    (hbyz : byz.card ≤ cfg.f)
    {t t' : MsgType} {v : Int} {h h' : Digest}
    (hc : Certified byz cfg.quorum w.sent t v h)
    (hc' : Certified byz cfg.quorum w.sent t' v h') :
    h = h' := by
  have hquorum := card_lt_quorum hn hbyz
  exact Certified.unique (card_add_lt_two_quorums hn hbyz)
    (fun i _ hs hs' => hinv.once i v h h' hs hs')
    (hinv.prepared hquorum hc) (hinv.prepared hquorum hc')

variable [DecidableEq Cmd] {sm : Nat → Option (Application.State Cmd)}

/-- **One certificate per phase and view.**  In runs in which no correct replica
is asked for a second PREPARE vote in a view and no phase is entered with an
unsigned certificate, two valid certificates of one type and view agree. -/
theorem nodeHash_eq_of_verifyQc
    (hn : cfg.n = 3 * cfg.f + 1)
    (hbyz : byz.card ≤ cfg.f)
    (hw : System.Reachable (cluster (basic cfg sm) cfg.n byz) (VoteOnce cfg) w)
    {qc qc' : QC}
    (hauth : qc.All (Authentic byz w.sent))
    (hauth' : qc'.All (Authentic byz w.sent))
    (hqc : verifyQc qc (verifyKeys cfg.n) cfg.quorum = true)
    (hqc' : verifyQc qc' (verifyKeys cfg.n) cfg.quorum = true)
    (htype : qc.type = qc'.type)
    (hview : qc.viewNumber = qc'.viewNumber) :
    qc.nodeHash = qc'.nodeHash := by
  have hinv := voteInv_of_reachable hw
  have hcert := certified_of_verifyQc hauth hqc
  have hcert' := certified_of_verifyQc hauth' hqc'
  rw [← htype, ← hview] at hcert'
  exact hinv.certified_unique hn hbyz hcert hcert'

end Certificates

section Runs

/-- The faulty leader. -/
def faultyLeader : Finset (Fin fourReplicas.n) := {⟨0, by decide⟩}

/-- The cluster of the runs below. -/
def fourCluster :
    System (World String (Replica String) fourReplicas.n)
      (Fin fourReplicas.n × Input String) :=
  cluster (basic fourReplicas fun _ => none) fourReplicas.n faultyLeader

/-- All correct replicas vote for one proposal, and two different sets of signers
certify it. -/
theorem nodeHash_eq_of_verifyQc_single :
    ∃ w, System.Reachable fourCluster (VoteOnce fourReplicas) w ∧
      (certificateOf .prepare 1 "x" [1, 2, 3]).All (Authentic faultyLeader w.sent) ∧
      (certificateOf .prepare 1 "x" [0, 1, 2]).All (Authentic faultyLeader w.sent) ∧
      (certificateOf .prepare 1 "x" [1, 2, 3]).nodeHash =
        (certificateOf .prepare 1 "x" [0, 1, 2]).nodeHash := by
  have hrun : ∃ w, System.Reachable fourCluster (VoteOnce fourReplicas) w ∧
      ((certificateOf .prepare 1 "x" [1, 2, 3]).All (Authentic faultyLeader w.sent) ∧
        (certificateOf .prepare 1 "x" [0, 1, 2]).All (Authentic faultyLeader w.sent)) := by
    refine System.exists_reaches_of_exec [
      startOf 1, startOf 2, startOf 3,
      deliver 1 (proposalOf "x"), deliver 2 (proposalOf "x"),
      deliver 3 (proposalOf "x")] ?_
    decide
  obtain ⟨w, hw, hauth, hauth'⟩ := hrun
  exact ⟨w, hw, hauth, hauth', nodeHash_eq_of_verifyQc (by decide) (by decide) hw
    hauth hauth' (by decide) (by decide) rfl rfl⟩

/-- **Two certificates in one view.**  The faulty leader proposes two blocks in
view 1 and two correct replicas vote for both of them. -/
theorem exists_conflicting_certificates :
    ∃ w, System.Reachable fourCluster System.anyStep w ∧
      ∃ qc qc' : QC,
        qc.All (Authentic faultyLeader w.sent) ∧
        qc'.All (Authentic faultyLeader w.sent) ∧
        verifyQc qc (verifyKeys fourReplicas.n) fourReplicas.quorum = true ∧
        verifyQc qc' (verifyKeys fourReplicas.n) fourReplicas.quorum = true ∧
        qc.type = qc'.type ∧ qc.viewNumber = qc'.viewNumber ∧
        qc.nodeHash ≠ qc'.nodeHash := by
  have hrun : ∃ w, System.Reachable fourCluster System.anyStep w ∧
      ((certificateOf .prepare 1 "x" [0, 1, 2]).All (Authentic faultyLeader w.sent) ∧
        (certificateOf .prepare 1 "y" [0, 1, 2]).All (Authentic faultyLeader w.sent)) := by
    refine System.exists_reaches_of_exec [
      startOf 1, startOf 2,
      deliver 1 (proposalOf "x"), deliver 2 (proposalOf "x"),
      deliver 1 (proposalOf "y"), deliver 2 (proposalOf "y")] ?_
    decide
  obtain ⟨w, hw, hauth, hauth'⟩ := hrun
  exact ⟨w, hw, certificateOf .prepare 1 "x" [0, 1, 2], certificateOf .prepare 1 "y" [0, 1, 2],
    hauth, hauth', by decide, by decide, rfl, rfl, by decide⟩

end Runs

end HotStuff
end DistributedConsensus
