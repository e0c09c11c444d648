import DistributedConsensus.HotStuff.BasicVoting
import DistributedConsensus.HotStuff.Execution

/-!
# Basic HotStuff: agreement

The votes of the correct replicas, in the order in which they were sent, form a
history in the sense of `Foundations.LockVoting`: PREPARE votes are its prepare
votes and COMMIT votes its commit votes.  The history is legal in every run
whose steps satisfy `LockStep`.  Then two decided nodes lie on one branch, and
the executed nodes of any two correct replicas are prefixes of one list.

`LockStep` rules out what the handlers do not check: a second PREPARE vote in a
view, a COMMIT message that arrives after the replica has moved its lock or its
votes past it, and certificates of view 0 without signatures.
-/

namespace DistributedConsensus
namespace HotStuff

open Foundations
open Foundations.LockVoting (Vote Legal Admissible Prepared Committed)

section History

variable {Cmd : Type} {n : Nat}

/-- The vote behind a signature; PRE-COMMIT votes do not count. -/
def Sig.toVote (n : Nat) : Sig → Option (Vote (Fin n) Digest)
  | .signed k .prepare v h => if hk : k < n then some (.prepare ⟨k, hk⟩ v h) else none
  | .signed k .commit v h => if hk : k < n then some (.commit ⟨k, hk⟩ v h) else none
  | _ => none

/-- The votes that were sent, newest first. -/
def history (n : Nat) (sent : List (Int × Msg Cmd)) : List (Vote (Fin n) Digest) :=
  (votesOf sent).reverse.filterMap (Sig.toVote n)

theorem history_append (sent out : List (Int × Msg Cmd)) :
    history n (sent ++ out) =
      (votesOf out).reverse.filterMap (Sig.toVote n) ++ history n sent := by
  simp [history]

theorem prepare_mem_history
    {sent : List (Int × Msg Cmd)} {i : Fin n} {v : Int} {h : Digest} :
    Vote.prepare i v h ∈ history n sent ↔ Signed sent i .prepare v h := by
  simp only [history, List.mem_filterMap, List.mem_reverse, Signed]
  constructor
  · rintro ⟨s, hs, hvote⟩
    unfold Sig.toVote at hvote
    split at hvote
    case h_1 =>
      split at hvote
      case isTrue =>
        cases hvote
        exact hs
      case isFalse => cases hvote
    case h_2 =>
      split at hvote
      case isTrue => cases hvote
      case isFalse => cases hvote
    case h_3 => cases hvote
  · intro hs
    exact ⟨_, hs, by simp [Sig.toVote]⟩

theorem commit_mem_history
    {sent : List (Int × Msg Cmd)} {i : Fin n} {v : Int} {h : Digest} :
    Vote.commit i v h ∈ history n sent ↔ Signed sent i .commit v h := by
  simp only [history, List.mem_filterMap, List.mem_reverse, Signed]
  constructor
  · rintro ⟨s, hs, hvote⟩
    unfold Sig.toVote at hvote
    split at hvote
    case h_1 =>
      split at hvote
      case isTrue => cases hvote
      case isFalse => cases hvote
    case h_2 =>
      split at hvote
      case isTrue =>
        cases hvote
        exact hs
      case isFalse => cases hvote
    case h_3 => cases hvote
  · intro hs
    exact ⟨_, hs, by simp [Sig.toVote]⟩

end History

/-- A PREPARE vote of replica `i` above view `v` is for a descendant of `h`. -/
def Sig.PreparesAbove (i : Nat) (v : Int) (h : Digest) : Sig → Prop
  | .signed k .prepare u g => k = i → v < u → g.Extends h
  | _ => True

instance (i : Nat) (v : Int) (h : Digest) : (s : Sig) → Decidable (s.PreparesAbove i v h)
  | .signed k t u g =>
      match t with
      | .prepare => inferInstanceAs (Decidable (k = i → v < u → g.Extends h))
      | .newView | .preCommit | .commit | .decide | .generic | .syncReq | .syncResp =>
          isTrue trivial
  | .junk _ => isTrue trivial

section Agreement

variable {Cmd : Type} [Application Cmd]

/-- A COMMIT message that the replica would accept does not lower its lock, and
the votes that the replica has already cast in later views extend the node. -/
def CommitInOrder (cfg : Config) (w : World Cmd (Replica Cmd) cfg.n)
    (a : Fin cfg.n × Input Cmd) : Prop :=
  match a.2 with
  | .dispatch m =>
      match m.justify with
      | some qc =>
          m.type = .commit → m.partialSig = none →
          m.sender = cfg.leader m.viewNumber →
          matchingQc (some qc) .preCommit m.viewNumber = true →
          Replica.verifyJustify cfg (some qc) = true →
          (w.procs a.1).lockedQc.viewNumber ≤ m.viewNumber ∧
          ∀ s ∈ votesOf w.sent, s.PreparesAbove a.1 m.viewNumber qc.nodeHash
      | none => True
  | _ => True

instance (cfg : Config) (w : World Cmd (Replica Cmd) cfg.n) :
    (a : Fin cfg.n × Input Cmd) → Decidable (CommitInOrder cfg w a)
  | (_, .dispatch ⟨_, _, _, _, some _, _, _⟩) =>
      inferInstanceAs (Decidable (_ → _ → _ → _ → _ → _ ∧
        ∀ s ∈ votesOf w.sent, s.PreparesAbove _ _ _))
  | (_, .dispatch ⟨_, _, _, _, none, _, _⟩) | (_, .start) | (_, .submit _) | (_, .timeout)
  | (_, .stop) => isTrue trivial

/-- The runs to which agreement applies. -/
def LockStep (cfg : Config) (w : World Cmd (Replica Cmd) cfg.n)
    (a : Fin cfg.n × Input Cmd) : Prop :=
  FirstProposal cfg w a ∧ CommitInOrder cfg w a ∧
    CertificateSigned cfg [.preCommit, .commit, .decide] a.2

instance (cfg : Config) (w : World Cmd (Replica Cmd) cfg.n)
    (a : Fin cfg.n × Input Cmd) : Decidable (LockStep cfg w a) :=
  inferInstanceAs (Decidable (_ ∧ _ ∧ _))

theorem LockStep.voteOnce
    {cfg : Config} {w : World Cmd (Replica Cmd) cfg.n} {a : Fin cfg.n × Input Cmd}
    (h : LockStep cfg w a) :
    VoteOnce cfg w a := by
  obtain ⟨hfirst, _, hsigned⟩ := h
  refine ⟨hfirst, ?_⟩
  obtain ⟨i, inp⟩ := a
  cases inp with
  | dispatch m =>
      intro hm
      apply hsigned
      simp only [List.mem_cons, List.not_mem_nil, or_false] at hm ⊢
      tauto
  | start => trivial
  | submit cmd => trivial
  | timeout => trivial
  | stop => trivial

variable {cfg : Config} {byz : Finset (Fin cfg.n)}

omit [Application Cmd] in
theorem prepared_iff
    (hn : cfg.n = 3 * cfg.f + 1)
    (hbyz : byz.card ≤ cfg.f)
    {sent : List (Int × Msg Cmd)} {v : Int} {h : Digest} :
    Prepared (votingGroup hn hbyz) (history cfg.n sent) v h ↔
      Certified byz cfg.quorum sent .prepare v h := by
  simp only [Prepared, Certified, prepare_mem_history, votingGroup]

omit [Application Cmd] in
theorem committed_iff
    (hn : cfg.n = 3 * cfg.f + 1)
    (hbyz : byz.card ≤ cfg.f)
    {sent : List (Int × Msg Cmd)} {v : Int} {h : Digest} :
    Committed (votingGroup hn hbyz) (history cfg.n sent) v h ↔
      Certified byz cfg.quorum sent .commit v h := by
  simp only [Committed, Certified, commit_mem_history, votingGroup]

/-- The lock of replica `i` covers its COMMIT votes. -/
structure Locked (cfg : Config) (byz : Finset (Fin cfg.n))
    (sent : List (Int × Msg Cmd)) (i : Fin cfg.n) (lock : QC) : Prop where
  rooted : lock.nodeHash.Rooted
  nonneg : 0 ≤ lock.viewNumber
  covers : ∀ v h, Signed sent i .commit v h →
    v ≤ lock.viewNumber ∧
      Certified byz cfg.quorum sent .prepare lock.viewNumber lock.nodeHash

/-- The invariant of runs in lock step. -/
structure LockInv (hn : cfg.n = 3 * cfg.f + 1) (hbyz : byz.card ≤ cfg.f)
    (w : World Cmd (Replica Cmd) cfg.n) : Prop where
  rooted : ∀ (i : Fin cfg.n) v h, Signed w.sent i .prepare v h → h.Rooted
  locked : ∀ i, Locked cfg byz w.sent i (w.procs i).lockedQc
  legal : Legal (votingGroup hn hbyz) Digest.Extends (history cfg.n w.sent)

omit [Application Cmd] in
/-- A lock stays good while its replica casts no COMMIT vote. -/
theorem Locked.append
    {sent out : List (Int × Msg Cmd)} {i : Fin cfg.n} {lock : QC}
    (h : Locked cfg byz sent i lock)
    (hnone : ∀ v x, Sig.signed i .commit v x ∉ votesOf out) :
    Locked cfg byz (sent ++ out) i lock where
  rooted := h.rooted
  nonneg := h.nonneg
  covers v x hs := by
    rcases signed_append.mp hs with hs | hs
    · obtain ⟨hle, hcert⟩ := h.covers v x hs
      exact ⟨hle, hcert.mono⟩
    · exact absurd hs (hnone v x)

section Step

variable {hn : cfg.n = 3 * cfg.f + 1} {hbyz : byz.card ≤ cfg.f}
  {w : World Cmd (Replica Cmd) cfg.n}

/-- Certified nodes descend from the genesis block. -/
theorem LockInv.rooted_of_certified
    (hvote : VoteInv cfg byz w)
    (hinv : LockInv hn hbyz w)
    {t : MsgType} {v : Int} {h : Digest}
    (hc : Certified byz cfg.quorum w.sent t v h) :
    h.Rooted := by
  have hquorum := card_lt_quorum hn hbyz
  obtain ⟨i, _, hs⟩ := (hvote.prepared hquorum hc).exists_signed hquorum
  exact hinv.rooted i v h hs

/-- A certificate that beats a lock is a PREPARE certificate of its view. -/
theorem VoteInv.prepared_of_justify
    (hvote : VoteInv cfg byz w)
    (hquorum : byz.card < cfg.quorum)
    {lock qc : QC}
    (hnonneg : 0 ≤ lock.viewNumber)
    (hlt : lock.viewNumber < qc.viewNumber)
    (hauth : qc.All (Authentic byz w.sent))
    (hverify : Replica.verifyJustify cfg (some qc) = true) :
    Certified byz cfg.quorum w.sent .prepare qc.viewNumber qc.nodeHash := by
  have hgen : Replica.isGenesisQc (some qc) = false := by
    have hne : qc.viewNumber ≠ 0 := by omega
    simp [Replica.isGenesisQc, hne]
  rw [Replica.verifyJustify, hgen, Bool.false_or] at hverify
  exact hvote.prepared hquorum (certified_of_verifyQc hauth hverify)

/-- A PREPARE vote is admissible: it is the first of its view and respects the
lock. -/
theorem LockInv.admissible_prepare
    (hvote : VoteInv cfg byz w)
    (hinv : LockInv hn hbyz w)
    {i : Fin cfg.n} {u : Int} {g : Digest} {qc : QC}
    (hfirst : ∀ g', Signed w.sent i .prepare u g' → g' = g)
    (hauth : qc.All (Authentic byz w.sent))
    (hverify : Replica.verifyJustify cfg (some qc) = true)
    (hext : g.Extends qc.nodeHash)
    (hsafe : g.Extends (w.procs i).lockedQc.nodeHash ∨
      (w.procs i).lockedQc.viewNumber < qc.viewNumber) :
    Admissible (votingGroup hn hbyz) Digest.Extends (history cfg.n w.sent)
      (.prepare i u g) := by
  refine ⟨fun g' hg' => hfirst g' (prepare_mem_history.mp hg'), ?_⟩
  intro v h hcommit _
  have hlock := hinv.locked i
  obtain ⟨hle, hcert⟩ := hlock.covers v h (commit_mem_history.mp hcommit)
  rcases hsafe with hsafe | hlive
  · exact ⟨_, _, hle, (prepared_iff hn hbyz).mpr hcert, hsafe⟩
  · have hprep := hvote.prepared_of_justify (card_lt_quorum hn hbyz) hlock.nonneg hlive
      hauth hverify
    exact ⟨_, _, by omega, (prepared_iff hn hbyz).mpr hprep, hext⟩

/-- A node that a replica finds safe descends from the genesis block. -/
theorem LockInv.rooted_of_safe
    (hvote : VoteInv cfg byz w)
    (hinv : LockInv hn hbyz w)
    {i : Fin cfg.n} {g : Digest} {qc : QC}
    (hauth : qc.All (Authentic byz w.sent))
    (hverify : Replica.verifyJustify cfg (some qc) = true)
    (hext : g.Extends qc.nodeHash)
    (hsafe : g.Extends (w.procs i).lockedQc.nodeHash ∨
      (w.procs i).lockedQc.viewNumber < qc.viewNumber) :
    g.Rooted := by
  have hlock := hinv.locked i
  rcases hsafe with hsafe | hlive
  · exact hsafe.trans hlock.rooted
  · have hprep := hvote.prepared_of_justify (card_lt_quorum hn hbyz) hlock.nonneg hlive
      hauth hverify
    exact hext.trans (hinv.rooted_of_certified hvote hprep)

variable [DecidableEq Cmd] {sm : Nat → Option (Application.State Cmd)}

/-- **One step keeps the lock invariant.** -/
theorem LockInv.step
    {w' : World Cmd (Replica Cmd) cfg.n} {a : Fin cfg.n × Input Cmd}
    (hgen : Genuine Replica.Holds byz w)
    (hvote : VoteInv cfg byz w)
    (hinv : LockInv hn hbyz w)
    (hok : LockStep cfg w a)
    (hstep : (cluster (basic cfg sm) cfg.n byz).step w a = some w') :
    LockInv hn hbyz w' := by
  obtain ⟨_, hd, p, hp, rfl⟩ := worldStep_cases hstep
  obtain ⟨_, hvoting⟩ := Replica.step_voting cfg hp
  rw [hvote.ids] at hvoting
  obtain ⟨hfirst, horder, hsigned⟩ := hok
  -- Other replicas keep their locks and cast no votes.
  have hothers : (∀ k t v h, Sig.signed k t v h ∈ votesOf p.outbox → k = a.1) →
      Locked cfg byz (w.sent ++ p.outbox) a.1 p.lockedQc →
      ∀ i, Locked cfg byz (w.sent ++ p.outbox) i
        (Function.update w.procs a.1 p i).lockedQc := by
    intro hkey hself
    refine (Function.forall_update_iff w.procs fun i (q : Replica Cmd) =>
      Locked cfg byz (w.sent ++ p.outbox) i q.lockedQc).mpr ⟨hself, fun i hi => ?_⟩
    refine (hinv.locked i).append fun v x hs => hi ?_
    exact Fin.val_inj.mp (hkey _ _ _ _ hs)
  generalize hvotes : votesOf p.outbox = votes at hvoting
  generalize hlock : p.lockedQc = lock at hvoting
  have hhist : history cfg.n (w.sent ++ p.outbox) =
      votes.reverse.filterMap (Sig.toVote cfg.n) ++ history cfg.n w.sent := by
    rw [history_append, hvotes]
  cases hvoting with
  | none =>
      refine ⟨?_, hothers (by simp [hvotes]) ?_, ?_⟩
      · intro i v h hs
        rcases signed_append.mp hs with hs | hs
        · exact hinv.rooted i v h hs
        · change Sig.signed i .prepare v h ∈ votesOf p.outbox at hs
          simp [hvotes] at hs
      · rw [hlock]
        exact (hinv.locked a.1).append (by simp [hvotes])
      · change Legal _ _ (history cfg.n (w.sent ++ p.outbox))
        rw [hhist]
        exact hinv.legal
  | prepare m node qc hi htype hsig hsender hnode hqc hverify hext hsafe =>
      have hauth : qc.All (Authentic byz w.sent) := by
        rw [hi] at hd
        exact (hgen.deliverable hd).justify hqc
      refine ⟨?_, hothers (by simp +contextual [hvotes]) ?_, ?_⟩
      · intro i v h hs
        rcases signed_append.mp hs with hs | hs
        · exact hinv.rooted i v h hs
        · change Sig.signed i .prepare v h ∈ votesOf p.outbox at hs
          simp only [hvotes, List.mem_singleton, Sig.signed.injEq] at hs
          rw [hs.2.2.2]
          exact hinv.rooted_of_safe hvote hauth hverify hext hsafe
      · rw [hlock]
        exact (hinv.locked a.1).append (by simp [hvotes])
      · change Legal _ _ (history cfg.n (w.sent ++ p.outbox))
        have hcast : [Sig.signed a.1 .prepare m.viewNumber node.hash].reverse.filterMap
            (Sig.toVote cfg.n) = [.prepare a.1 m.viewNumber node.hash] := by
          simp [Sig.toVote]
        rw [hhist, hcast]
        refine Legal.cons (hinv.admissible_prepare hvote ?_ hauth hverify hext hsafe)
          hinv.legal
        intro g' hg'
        simp only [FirstProposal, hi, hnode] at hfirst
        exact hfirst htype hsig hsender (by rw [hqc]; exact hverify) _ hg' rfl rfl
  | preCommit m qc =>
      refine ⟨?_, hothers (by simp +contextual [hvotes]) ?_, ?_⟩
      · intro i v h hs
        rcases signed_append.mp hs with hs | hs
        · exact hinv.rooted i v h hs
        · change Sig.signed i .prepare v h ∈ votesOf p.outbox at hs
          simp [hvotes] at hs
      · rw [hlock]
        exact (hinv.locked a.1).append (by simp [hvotes])
      · change Legal _ _ (history cfg.n (w.sent ++ p.outbox))
        rw [hhist]
        exact hinv.legal
  | commit m _ hi htype hsig hacc =>
      rw [hi] at hd hsigned
      have hcert := certified_of_accepts (hgen.deliverable hd) hacc
        (hsigned.of_accepts (by simp [htype]) (by rw [htype]; rfl) hacc)
      have hprep := hvote.prepared (card_lt_quorum hn hbyz) hcert
      have hmatch : matchingQc (some lock) .preCommit m.viewNumber = true := by
        simp [matchingQc, hacc.type, hacc.view]
      simp only [CommitInOrder, hi, hacc.justify] at horder
      obtain ⟨hle, habove⟩ := horder htype hsig hacc.sender hmatch hacc.verified
      have hold := hinv.locked a.1
      refine ⟨?_, hothers (by simp +contextual [hvotes]) ?_, ?_⟩
      · intro i v h hs
        rcases signed_append.mp hs with hs | hs
        · exact hinv.rooted i v h hs
        · change Sig.signed i .prepare v h ∈ votesOf p.outbox at hs
          simp [hvotes] at hs
      · -- The new lock is at or above the old one, which covered the older votes.
        rw [hlock]
        refine ⟨hinv.rooted_of_certified hvote hcert, ?_, ?_⟩
        · rw [hacc.view]
          exact hold.nonneg.trans hle
        · intro v x hs
          rw [hacc.view]
          refine ⟨?_, hprep.mono⟩
          rcases signed_append.mp hs with hs | hs
          · exact (hold.covers v x hs).1.trans hle
          · simp only [hvotes, List.mem_singleton, Sig.signed.injEq] at hs
            rw [hs.2.2.1]
      · change Legal _ _ (history cfg.n (w.sent ++ p.outbox))
        have hcast : [Sig.signed a.1 .commit m.viewNumber lock.nodeHash].reverse.filterMap
            (Sig.toVote cfg.n) = [.commit a.1 m.viewNumber lock.nodeHash] := by
          simp [Sig.toVote]
        rw [hhist, hcast]
        refine Legal.cons ⟨(prepared_iff hn hbyz).mpr hprep, ?_⟩ hinv.legal
        intro u g hg hlt
        exact habove _ (prepare_mem_history.mp hg) rfl hlt

theorem lockInv_of_reachable
    (hn : cfg.n = 3 * cfg.f + 1)
    (hbyz : byz.card ≤ cfg.f)
    (hw : System.Reachable (cluster (basic cfg sm) cfg.n byz) (LockStep cfg) w) :
    LockInv hn hbyz w := by
  refine System.Reachable.invariant ?_ ?_ hw
  · refine ⟨by simp [cluster, Signed], fun i => ⟨?_, ?_, by simp [cluster, Signed]⟩, ?_⟩
    · exact Digest.Extends.refl _
    · exact le_refl _
    · exact Legal.nil
  · intro w a w' hreach hinv hok hstep
    have hvote := voteInv_of_reachable (hreach.mono fun _ _ h => h.voteOnce)
    exact hinv.step ((basic_signing cfg sm).genuine hreach) hvote hok hstep

end Step

section Execution

variable {w : World Cmd (Replica Cmd) cfg.n}

/-- A quorum has cast COMMIT votes for the hash in some view. -/
def Decided (cfg : Config) (byz : Finset (Fin cfg.n)) (sent : List (Int × Msg Cmd))
    (h : Digest) : Prop :=
  ∃ v, Certified byz cfg.quorum sent .commit v h

/-- Decided nodes lie on one branch. -/
theorem LockInv.decided_comparable
    {hn : cfg.n = 3 * cfg.f + 1} {hbyz : byz.card ≤ cfg.f}
    (hinv : LockInv hn hbyz w)
    {h h' : Digest}
    (hd : Decided cfg byz w.sent h)
    (hd' : Decided cfg byz w.sent h') :
    h.Extends h' ∨ h'.Extends h := by
  obtain ⟨v, hc⟩ := hd
  obtain ⟨v', hc'⟩ := hd'
  exact (hinv.legal.committed_comparable ((committed_iff hn hbyz).mpr hc)
    ((committed_iff hn hbyz).mpr hc')).symm

variable [DecidableEq Cmd] {sm : Nat → Option (Application.State Cmd)}

/-- Every replica has executed the branch of a decided node. -/
theorem onBranch_of_reachable
    (hn : cfg.n = 3 * cfg.f + 1)
    (hbyz : byz.card ≤ cfg.f)
    (hw : System.Reachable (cluster (basic cfg sm) cfg.n byz) (LockStep cfg) w) :
    ∀ i, ∃ tip, Replica.OnBranch cfg (Decided cfg byz w.sent) (w.procs i) tip := by
  refine System.Reachable.invariant (I := fun w => ∀ i, ∃ tip,
    Replica.OnBranch cfg (Decided cfg byz w.sent) (w.procs i) tip) ?_ ?_ hw
  · exact fun i => ⟨genesisHash, Replica.onBranch_new _ _⟩
  · intro w a w' hreach hinv hok hstep
    have hgen := (basic_signing cfg sm).genuine hreach
    have hvote := voteInv_of_reachable (hreach.mono fun _ _ h => h.voteOnce)
    have hlock := lockInv_of_reachable hn hbyz hreach
    obtain ⟨_, hd, p, hp, rfl⟩ := worldStep_cases hstep
    have hroot : ∀ h, Decided cfg byz w.sent h → h.Rooted := by
      rintro h ⟨v, hc⟩
      exact hlock.rooted_of_certified hvote hc
    have hself : ∃ tip, Replica.OnBranch cfg (Decided cfg byz w.sent) p tip := by
      obtain ⟨tip, htip⟩ := hinv a.1
      refine htip.step hroot (fun _ _ => hlock.decided_comparable) ?_ hp
      intro m hi htype qc hacc
      obtain ⟨_, _, hsigned⟩ := hok
      rw [hi] at hd hsigned
      exact ⟨_, certified_of_accepts (hgen.deliverable hd) hacc
        (hsigned.of_accepts (by simp [htype]) (by rw [htype]; rfl) hacc)⟩
    have hgrow : ∀ (q : Replica Cmd) tip,
        Replica.OnBranch cfg (Decided cfg byz w.sent) q tip →
        Replica.OnBranch cfg (Decided cfg byz (w.sent ++ p.outbox)) q tip :=
      fun q tip h => h.mono fun x ⟨v, hc⟩ => ⟨v, hc.mono⟩
    refine (Function.forall_update_iff w.procs fun _ (q : Replica Cmd) => ∃ tip,
      Replica.OnBranch cfg (Decided cfg byz (w.sent ++ p.outbox)) q tip).mpr ⟨?_, ?_⟩
    · obtain ⟨tip, htip⟩ := hself
      exact ⟨tip, hgrow p tip htip⟩
    · intro i _
      obtain ⟨tip, htip⟩ := hinv i
      exact ⟨tip, hgrow _ tip htip⟩

/-- **Agreement of Basic HotStuff.**  In runs in lock step the executed nodes of
two replicas are prefix-consistent. -/
theorem committed_prefix_consistent
    (hn : cfg.n = 3 * cfg.f + 1)
    (hbyz : byz.card ≤ cfg.f)
    (hw : System.Reachable (cluster (basic cfg sm) cfg.n byz) (LockStep cfg) w)
    (i j : Fin cfg.n) :
    (w.procs i).committed.map Node.hash <+: (w.procs j).committed.map Node.hash ∨
      (w.procs j).committed.map Node.hash <+: (w.procs i).committed.map Node.hash := by
  have hlock := lockInv_of_reachable hn hbyz hw
  obtain ⟨tip, htip⟩ := onBranch_of_reachable hn hbyz hw i
  obtain ⟨tip', htip'⟩ := onBranch_of_reachable hn hbyz hw j
  rw [htip.branch.committed, htip'.branch.committed]
  rcases htip.certified with rfl | hC
  · left
    simp
  · rcases htip'.certified with rfl | hC'
    · right
      simp
    · rcases hlock.decided_comparable hC hC' with hext | hext
      · exact Or.inr (Digest.path_prefix_of_extends hext)
      · exact Or.inl (Digest.path_prefix_of_extends hext)

/-- Two replicas execute the same block in lock step. -/
theorem committed_prefix_consistent_decided :
    ∃ w, System.Reachable fourCluster (LockStep fourReplicas) w ∧
      ((w.procs (1 : Fin 4)).committed = [blockOf "x"] ∧
        (w.procs (2 : Fin 4)).committed = [blockOf "x"]) ∧
      ((w.procs (1 : Fin 4)).committed.map Node.hash <+:
          (w.procs (2 : Fin 4)).committed.map Node.hash ∨
        (w.procs (2 : Fin 4)).committed.map Node.hash <+:
          (w.procs (1 : Fin 4)).committed.map Node.hash) := by
  have hrun : ∃ w, System.Reachable fourCluster (LockStep fourReplicas) w ∧
      ((w.procs (1 : Fin 4)).committed = [blockOf "x"] ∧
        (w.procs (2 : Fin 4)).committed = [blockOf "x"]) := by
    refine System.exists_reaches_of_exec [
      startOf 1, startOf 2,
      deliver 1 (proposalOf "x"), deliver 2 (proposalOf "x"),
      deliver 1 (phaseOf .preCommit (certificateOf .prepare 1 "x" [0, 1, 2])),
      deliver 2 (phaseOf .preCommit (certificateOf .prepare 1 "x" [0, 1, 2])),
      deliver 1 (phaseOf .commit (certificateOf .preCommit 1 "x" [0, 1, 2])),
      deliver 2 (phaseOf .commit (certificateOf .preCommit 1 "x" [0, 1, 2])),
      deliver 1 (phaseOf .decide (certificateOf .commit 1 "x" [0, 1, 2])),
      deliver 2 (phaseOf .decide (certificateOf .commit 1 "x" [0, 1, 2]))] ?_
    decide
  obtain ⟨w, hw, hcommitted⟩ := hrun
  exact ⟨w, hw, hcommitted, committed_prefix_consistent (by decide) (by decide) hw _ _⟩

/-- **A fork.**  The faulty leader collects certificates of all phases for two
blocks of view 1 and decides one at each correct replica. -/
theorem exists_fork :
    ∃ w, System.Reachable fourCluster System.anyStep w ∧
      ¬ ((w.procs (1 : Fin 4)).committed.map Node.hash <+:
          (w.procs (2 : Fin 4)).committed.map Node.hash ∨
        (w.procs (2 : Fin 4)).committed.map Node.hash <+:
          (w.procs (1 : Fin 4)).committed.map Node.hash) := by
  refine System.exists_reaches_of_exec [
    startOf 1, startOf 2,
    deliver 1 (proposalOf "x"), deliver 2 (proposalOf "x"),
    deliver 1 (proposalOf "y"), deliver 2 (proposalOf "y"),
    deliver 1 (phaseOf .preCommit (certificateOf .prepare 1 "x" [0, 1, 2])),
    deliver 2 (phaseOf .preCommit (certificateOf .prepare 1 "x" [0, 1, 2])),
    deliver 1 (phaseOf .preCommit (certificateOf .prepare 1 "y" [0, 1, 2])),
    deliver 2 (phaseOf .preCommit (certificateOf .prepare 1 "y" [0, 1, 2])),
    deliver 1 (phaseOf .commit (certificateOf .preCommit 1 "x" [0, 1, 2])),
    deliver 2 (phaseOf .commit (certificateOf .preCommit 1 "x" [0, 1, 2])),
    deliver 1 (phaseOf .commit (certificateOf .preCommit 1 "y" [0, 1, 2])),
    deliver 2 (phaseOf .commit (certificateOf .preCommit 1 "y" [0, 1, 2])),
    deliver 1 (phaseOf .decide (certificateOf .commit 1 "x" [0, 1, 2])),
    deliver 2 (phaseOf .decide (certificateOf .commit 1 "y" [0, 1, 2]))] ?_
  decide

end Execution

end Agreement

end HotStuff
end DistributedConsensus
