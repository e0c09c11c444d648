import DistributedConsensus.HotStuff.ReplicaSteps

/-!
# Basic HotStuff: the executed branch

Two facts about what a replica executes, both relative to a set `C` of hashes
that the accepted DECIDE certificates certify.

* `OnBranch`: if the certified hashes lie on one branch, the executed nodes are
  exactly the branch from the genesis block to one of them.
* `Backed`: every executed node is an ancestor of a certified hash.
-/

namespace DistributedConsensus
namespace HotStuff
namespace Replica

open Foundations

variable {Cmd : Type} [Application Cmd]

/-- Every certificate that the DECIDE message can be accepted with is for a hash
in `C`. -/
def DecidesIn (cfg : Config) (C : Digest → Prop) (m : Msg Cmd) : Prop :=
  ∀ qc, Accepts cfg m .commit qc → C qc.nodeHash

/-- The executed nodes form the branch of a tip that is certified, unless
nothing was executed. -/
structure OnBranch (cfg : Config) (C : Digest → Prop) (r : Replica Cmd)
    (tip : Digest) : Prop where
  certified : tip = genesisHash ∨ C tip
  branch : BranchTo r.committed r.executed tip
  deferred : ∀ m ∈ r.deferred, DecidesIn cfg C m

section OnBranch

variable {cfg : Config} {C : Digest → Prop} {r r' : Replica Cmd} {tip : Digest}

theorem onBranch_new (id : Nat) (sm : Option (Application.State Cmd)) :
    OnBranch cfg C (new id sm) genesisHash where
  certified := Or.inl rfl
  branch := branchTo_genesis
  deferred := by simp [new]

omit [Application Cmd] in
theorem DecidesIn.mono
    {C' : Digest → Prop} {m : Msg Cmd}
    (hsub : ∀ h, C h → C' h)
    (hm : DecidesIn cfg C m) :
    DecidesIn cfg C' m :=
  fun qc hacc => hsub _ (hm qc hacc)

theorem OnBranch.mono
    {C' : Digest → Prop}
    (hsub : ∀ h, C h → C' h)
    (h : OnBranch cfg C r tip) :
    OnBranch cfg C' r tip where
  certified := h.certified.imp_right (hsub tip)
  branch := h.branch
  deferred m hm := (h.deferred m hm).mono hsub

/-- Only the record of executed nodes and deferred messages matters. -/
theorem OnBranch.of_sameRecord
    (hrec : SameRecord r r')
    (h : OnBranch cfg C r tip) :
    OnBranch cfg C r' tip where
  certified := h.certified
  branch := by
    rw [hrec.committed, hrec.executed]
    exact h.branch
  deferred := by
    rw [hrec.deferred]
    exact h.deferred

variable (hroot : ∀ h, C h → h.Rooted)
  (hcomp : ∀ h h', C h → C h' → h.Extends h' ∨ h'.Extends h)

include hroot hcomp in
/-- Handling a certified DECIDE message extends the branch or leaves it as it
is. -/
theorem OnBranch.onDecide
    {m : Msg Cmd}
    (h : OnBranch cfg C r tip)
    (hm : DecidesIn cfg C m) :
    ∃ tip', OnBranch cfg C (r.onDecide cfg m) tip' := by
  have htip : tip.Rooted := by
    rcases h.certified with rfl | hC
    · exact Digest.Extends.refl _
    · exact hroot tip hC
  cases onDecide_deciding cfg r m with
  | skip hidle => exact ⟨tip, h.of_sameRecord hidle.sameRecord⟩
  | defer qc hacc _ hcommitted hexecuted hdeferred =>
      refine ⟨tip, h.certified, ?_, ?_⟩
      · rw [hcommitted, hexecuted]
        exact h.branch
      · rw [hdeferred]
        intro x hx
        rcases List.mem_append.mp hx with hx | hx
        · exact h.deferred x hx
        · rw [List.mem_singleton] at hx
          subst hx
          exact hm
  | execute qc hacc hhas hmiss hexec =>
      have hC := hm qc hacc
      have hor : qc.nodeHash.Extends tip ∨ tip.Extends qc.nodeHash := by
        rcases h.certified with rfl | htipC
        · exact Or.inl (hroot _ hC)
        · exact hcomp _ _ hC htipC
      obtain ⟨tip', htip', hbranch⟩ := h.branch.extend (fun _ => rfl) htip (hroot _ hC)
        hor hhas hmiss hexec.committed hexec.executed
      refine ⟨tip', ?_, hbranch, by rw [hexec.deferred]; exact h.deferred⟩
      rcases htip' with rfl | rfl
      · exact h.certified
      · exact Or.inr hC

include hroot hcomp in
theorem OnBranch.foldl_onDecide
    {ms : List (Msg Cmd)}
    (h : OnBranch cfg C r tip)
    (hms : ∀ m ∈ ms, DecidesIn cfg C m) :
    ∃ tip', OnBranch cfg C (ms.foldl (Replica.onDecide cfg) r) tip' := by
  induction ms generalizing r tip with
  | nil => exact ⟨tip, h⟩
  | cons m ms ih =>
      obtain ⟨tip', h'⟩ := h.onDecide hroot hcomp (hms m List.mem_cons_self)
      exact ih h' (fun x hx => hms x (List.mem_cons_of_mem _ hx))

include hroot hcomp in
/-- **One step keeps the executed branch.** -/
theorem OnBranch.step
    {i : Input Cmd}
    (h : OnBranch cfg C r tip)
    (hi : ∀ m, i = .dispatch m → m.type = .decide → DecidesIn cfg C m)
    (hstep : r.step cfg i = some r') :
    ∃ tip', OnBranch cfg C r' tip' := by
  obtain ⟨s, ms, hdec⟩ := step_decides hstep
  have hs : OnBranch cfg C s tip := by
    refine ⟨h.certified, ?_, fun m hm => h.deferred m (hdec.deferred hm)⟩
    rw [hdec.committed, hdec.executed]
    exact h.branch
  have hms : ∀ m ∈ ms, DecidesIn cfg C m := by
    intro m hm
    rcases hdec.handled m hm with hold | ⟨hi', htype⟩
    · exact h.deferred m hold
    · exact hi m hi' htype
  obtain ⟨tip', h'⟩ := hs.foldl_onDecide hroot hcomp hms
  exact ⟨tip', h'.of_sameRecord hdec.result⟩

end OnBranch

/-- Every executed node is an ancestor of a certified hash, and it is not the
genesis block. -/
structure Backed (cfg : Config) (C : Digest → Prop) (r : Replica Cmd) : Prop where
  committed : ∀ b ∈ r.committed, b.hash ≠ genesisHash ∧ ∃ h, C h ∧ h.Extends b.hash
  deferred : ∀ m ∈ r.deferred, DecidesIn cfg C m

section Backed

variable {cfg : Config} {C : Digest → Prop} {r r' : Replica Cmd}

theorem backed_new (id : Nat) (sm : Option (Application.State Cmd)) :
    Backed cfg C (new id sm) where
  committed := by simp [new]
  deferred := by simp [new]

theorem Backed.mono
    {C' : Digest → Prop}
    (hsub : ∀ h, C h → C' h)
    (h : Backed cfg C r) :
    Backed cfg C' r where
  committed b hb := by
    obtain ⟨hne, x, hx, hext⟩ := h.committed b hb
    exact ⟨hne, x, hsub x hx, hext⟩
  deferred m hm := (h.deferred m hm).mono hsub

theorem Backed.onDecide
    {m : Msg Cmd}
    (h : Backed cfg C r)
    (hm : DecidesIn cfg C m) :
    Backed cfg C (r.onDecide cfg m) := by
  cases onDecide_deciding cfg r m with
  | skip hidle =>
      constructor
      · rw [hidle.committed]
        exact h.committed
      · rw [hidle.deferred]
        exact h.deferred
  | defer qc hacc _ hcommitted _ hdeferred =>
      constructor
      · rw [hcommitted]
        exact h.committed
      · rw [hdeferred]
        intro x hx
        rcases List.mem_append.mp hx with hx | hx
        · exact h.deferred x hx
        · rw [List.mem_singleton] at hx
          subst hx
          exact hm
  | execute qc hacc _ _ hexec =>
      constructor
      · rw [hexec.committed]
        intro b hb
        rcases List.mem_append.mp hb with hb | hb
        · exact h.committed b hb
        · rw [List.mem_reverse] at hb
          obtain ⟨_, hkeep, hext⟩ := Tree.mem_branch hb
          have hne : b.hash ≠ genesisHash := by
            intro heq
            simp [unexecuted, heq] at hkeep
          exact ⟨hne, qc.nodeHash, hm qc hacc, hext⟩
      · rw [hexec.deferred]
        exact h.deferred

theorem Backed.foldl_onDecide
    {ms : List (Msg Cmd)}
    (h : Backed cfg C r)
    (hms : ∀ m ∈ ms, DecidesIn cfg C m) :
    Backed cfg C (ms.foldl (Replica.onDecide cfg) r) := by
  induction ms generalizing r with
  | nil => exact h
  | cons m ms ih =>
      exact ih (h.onDecide (hms m List.mem_cons_self))
        (fun x hx => hms x (List.mem_cons_of_mem _ hx))

/-- **One step executes certified nodes only.** -/
theorem Backed.step
    {i : Input Cmd}
    (h : Backed cfg C r)
    (hi : ∀ m, i = .dispatch m → m.type = .decide → DecidesIn cfg C m)
    (hstep : r.step cfg i = some r') :
    Backed cfg C r' := by
  obtain ⟨s, ms, hdec⟩ := step_decides hstep
  have hs : Backed cfg C s := by
    refine ⟨?_, fun m hm => h.deferred m (hdec.deferred hm)⟩
    rw [hdec.committed]
    exact h.committed
  have hms : ∀ m ∈ ms, DecidesIn cfg C m := by
    intro m hm
    rcases hdec.handled m hm with hold | ⟨hi', htype⟩
    · exact h.deferred m hold
    · exact hi m hi' htype
  have hfold := hs.foldl_onDecide hms
  constructor
  · rw [hdec.result.committed]
    exact hfold.committed
  · rw [hdec.result.deferred]
    exact hfold.deferred

end Backed

section Certified

/-- Add a dispatched message to the received ones. -/
def record (received : List (Msg Cmd)) : Input Cmd → List (Msg Cmd)
  | .dispatch m => received ++ [m]
  | _ => received

omit [Application Cmd] in
theorem subset_record (received : List (Msg Cmd)) (i : Input Cmd) :
    received ⊆ record received i := by
  cases i with
  | dispatch m => exact List.subset_append_left _ _
  | start => exact List.Subset.refl _
  | submit cmd => exact List.Subset.refl _
  | timeout => exact List.Subset.refl _
  | stop => exact List.Subset.refl _

/-- A replica together with the messages it has dispatched. -/
def listening (cfg : Config) (id : Nat) (sm : Option (Application.State Cmd)) :
    System (Replica Cmd × List (Msg Cmd)) (Input Cmd) where
  init := (new id sm, [])
  step p i := (p.1.step cfg i).map fun r' => (r', record p.2 i)

/-- A received DECIDE message carries a valid COMMIT certificate for the hash. -/
def CommitCertified (cfg : Config) (received : List (Msg Cmd)) (h : Digest) : Prop :=
  ∃ m ∈ received, m.type = .decide ∧ ∃ qc, m.justify = some qc ∧ qc.type = .commit ∧
    qc.nodeHash = h ∧ verifyQc qc (verifyKeys cfg.n) cfg.quorum = true

/-- A DECIDE message of the leader whose COMMIT certificate has no signatures
is about the genesis block. -/
def DecisionSigned (cfg : Config) (_ : Replica Cmd × List (Msg Cmd)) :
    Input Cmd → Prop
  | .dispatch m =>
      m.type = .decide → m.sender = cfg.leader m.viewNumber →
      matchingQc m.justify .commit m.viewNumber = true →
      isGenesisQc m.justify = true →
      m.justify.map QC.nodeHash = some genesisHash
  | _ => True

instance (cfg : Config) (p : Replica Cmd × List (Msg Cmd)) :
    (i : Input Cmd) → Decidable (DecisionSigned cfg p i)
  | .dispatch _ => inferInstanceAs (Decidable (_ → _ → _ → _ → _))
  | .start | .submit _ | .timeout | .stop => isTrue trivial

variable {cfg : Config} {id : Nat} {sm : Option (Application.State Cmd)}

omit [Application Cmd] in
theorem CommitCertified.mono
    {received received' : List (Msg Cmd)} {h : Digest}
    (hsub : received ⊆ received')
    (hc : CommitCertified cfg received h) :
    CommitCertified cfg received' h := by
  obtain ⟨m, hm, hrest⟩ := hc
  exact ⟨m, hsub hm, hrest⟩

/-- An admitted DECIDE message certifies its hash, or decides the genesis block. -/
theorem decidesIn_of_decisionSigned
    {p : Replica Cmd × List (Msg Cmd)} {m : Msg Cmd} {received : List (Msg Cmd)}
    (hok : DecisionSigned cfg p (.dispatch m))
    (htype : m.type = .decide)
    (hmem : m ∈ received) :
    DecidesIn cfg (fun h => h = genesisHash ∨ CommitCertified cfg received h) m := by
  intro qc hacc
  cases hgen : isGenesisQc (some qc) with
  | true =>
      left
      have hmatch : matchingQc m.justify .commit m.viewNumber = true := by
        simp [matchingQc, hacc.justify, hacc.type, hacc.view]
      have hhash := hok htype hacc.sender hmatch (by rw [hacc.justify]; exact hgen)
      rw [hacc.justify] at hhash
      exact Option.some.inj hhash
  | false =>
      right
      have hverify := hacc.verified
      rw [verifyJustify, hgen, Bool.false_or] at hverify
      exact ⟨m, hmem, htype, qc, hacc.justify, hacc.type, rfl, hverify⟩

theorem backed_of_reachable
    {p : Replica Cmd × List (Msg Cmd)}
    (hp : System.Reachable (listening cfg id sm) (DecisionSigned cfg) p) :
    Backed cfg (fun h => h = genesisHash ∨ CommitCertified cfg p.2 h) p.1 := by
  refine System.Reachable.invariant (I := fun p =>
    Backed cfg (fun h => h = genesisHash ∨ CommitCertified cfg p.2 h) p.1) ?_ ?_ hp
  · exact backed_new id sm
  · intro p i p' _ hinv hok hstep
    simp only [listening, Option.map_eq_some_iff] at hstep
    obtain ⟨r', hr', rfl⟩ := hstep
    have hgrow := hinv.mono fun h hC =>
      hC.imp_right fun hC => hC.mono (subset_record p.2 i)
    refine hgrow.step ?_ hr'
    intro m hi htype
    subst hi
    exact decidesIn_of_decisionSigned hok htype (by simp [record])

/-- **Certified execution.**  As long as no unsigned COMMIT certificate for a
node other than the genesis block is delivered, every executed node is an
ancestor of a node with a valid COMMIT certificate in a received DECIDE
message. -/
theorem committed_certified
    {p : Replica Cmd × List (Msg Cmd)}
    (hp : System.Reachable (listening cfg id sm) (DecisionSigned cfg) p) :
    ∀ b ∈ p.1.committed, ∃ h, CommitCertified cfg p.2 h ∧ h.Extends b.hash := by
  intro b hb
  obtain ⟨hne, h, hC, hext⟩ := (backed_of_reachable hp).committed b hb
  rcases hC with rfl | hC
  · -- The genesis block has no ancestors that are nodes.
    exfalso
    rcases Digest.extends_node_iff.mp hext with heq | hext
    · exact hne heq
    · simp [Digest.Extends, Digest.ancestors, Node.hash] at hext
  · exact ⟨h, hC, hext⟩

/-- A decision with three signatures is executed and certified. -/
theorem committed_certified_signed :
    ∃ p : Replica String × List (Msg String),
      System.Reachable (listening fourReplicas 1 none)
        (DecisionSigned fourReplicas) p ∧
      p.1.committed = [blockOf "x"] ∧
      ∀ b ∈ p.1.committed, ∃ h,
        CommitCertified fourReplicas p.2 h ∧ h.Extends b.hash := by
  have hrun : ∃ p : Replica String × List (Msg String),
      System.Reachable (listening fourReplicas 1 none)
      (DecisionSigned fourReplicas) p ∧ p.1.committed = [blockOf "x"] := by
    refine System.exists_reaches_of_exec [.start, .dispatch (proposalOf "x"),
      .dispatch (phaseOf .decide (certificateOf .commit 1 "x" [0, 2, 3]))] ?_
    decide
  obtain ⟨p, hp, hcommitted⟩ := hrun
  exact ⟨p, hp, hcommitted, committed_certified hp⟩

/-- **Execution without a certificate.**  The leader decides the block in view 0
with a COMMIT certificate that nobody signed, and the replica executes it. -/
theorem exists_uncertified_execution :
    ∃ p : Replica String × List (Msg String),
      System.Reachable (listening fourReplicas 1 none) System.anyStep p ∧
      ¬ ∀ b ∈ p.1.committed, ∃ h,
        CommitCertified fourReplicas p.2 h ∧ h.Extends b.hash := by
  have hrun : ∃ p : Replica String × List (Msg String),
      System.Reachable (listening fourReplicas 1 none)
      System.anyStep p ∧ (p.1.committed = [blockOf "x"] ∧
        p.2 = [proposalOf "x", phaseOf .decide (certificateOf .commit 0 "x" [])]) := by
    refine System.exists_reaches_of_exec [.start, .dispatch (proposalOf "x"),
      .dispatch (phaseOf .decide (certificateOf .commit 0 "x" []))] ?_
    decide
  obtain ⟨p, hp, hcommitted, hreceived⟩ := hrun
  refine ⟨p, hp, fun hall => ?_⟩
  obtain ⟨h, ⟨m, hm, htype, qc, hqc, _, _, hverify⟩, _⟩ :=
    hall (blockOf "x") (by simp [hcommitted])
  rw [hreceived] at hm
  simp only [List.mem_cons, List.not_mem_nil, or_false] at hm
  rcases hm with rfl | rfl
  · cases htype
  · cases hqc
    revert hverify
    decide

end Certified

end Replica
end HotStuff
end DistributedConsensus
