import DistributedConsensus.HotStuff.Execution
import DistributedConsensus.HotStuff.Growth
import DistributedConsensus.HotStuff.Replay
import DistributedConsensus.HotStuff.Walks

/-!
# Basic HotStuff: catching up

A replica that cannot execute a decision asks the leader for the first missing hash on
the way up, keeps the DECIDE message, and takes it up again with the answer.  A peer
that stores the whole branch answers with all of it from the missing hash down to the
genesis block, and the replica has the rest, so one answer is enough (`catch_up`).

The answer takes up every kept decision.  One of them may be for a later node: it
executes the branch and its own nodes, and the log does not end where the branch ends
(`log_passes_branch`).
-/

namespace DistributedConsensus
namespace HotStuff
namespace Replica

open Foundations

variable {Cmd : Type} [Application Cmd]
variable {cfg : Config} {r r' : Replica Cmd} {m : Msg Cmd} {qc : QC}

/-! ## The handler of DECIDE -/

/-- A valid DECIDE for a rooted node is kept, or its branch is complete. -/
theorem onDecide_accepted
    (hacc : Accepts cfg m .commit qc)
    (hroot : qc.nodeHash.Rooted) :
    (∃ h, r.tree.MissingBelow qc.nodeHash h ∧
        r.onDecide cfg m = { r.requestSync h m.sender with deferred := r.deferred ++ [m] }) ∨
      r.tree.firstMissing r.unexecuted qc.nodeHash = none ∧
        ∃ b, r.tree.get qc.nodeHash = some b ∧
          r.onDecide cfg m = (r.execute b).leaveDecided cfg m := by
  have hguard : ¬ (m.sender ≠ cfg.leader m.viewNumber ∨
      (!matchingQc (some qc) .commit m.viewNumber) = true) := by
    simp [hacc.sender, matchingQc, hacc.type, hacc.view]
  have hverify : ¬ (!verifyJustify cfg (some qc)) = true := by simp [hacc.verified]
  have hgenesis : r.unexecuted genesisHash = false := by simp [unexecuted]
  simp only [onDecide, hacc.justify]
  rw [if_neg hguard, if_neg hverify]
  cases hget : r.tree.get qc.nodeHash with
  | none =>
      have hhas : r.tree.has qc.nodeHash = false := by simp [Tree.has, hget]
      have habsent : qc.nodeHash ≠ .absent := by
        intro habsent
        have htruthy := hroot.truthy
        rw [habsent] at htruthy
        cases htruthy
      rw [if_neg habsent]
      exact Or.inl ⟨qc.nodeHash,
        ⟨hroot, Digest.Extends.refl _, hhas, fun b hb => Or.inl hb⟩, rfl⟩
  | some b =>
      have hhas : r.tree.has qc.nodeHash = true := by simp [Tree.has, hget]
      simp only [firstMissingAncestor, Tree.hash_of_get hget]
      cases hmiss : r.tree.firstMissing r.unexecuted qc.nodeHash with
      | none => exact Or.inr ⟨rfl, b, rfl, rfl⟩
      | some h =>
          exact Or.inl ⟨h, Tree.missingBelow_of_firstMissing hroot hgenesis hhas hmiss, rfl⟩

/-! ## What decisions append -/

/-- What was executed in addition, whatever was decided before. -/
theorem unexecuted_of_executes
    {bs : List (Node Cmd)}
    (h : Executes r r' bs)
    (b : Digest) :
    r'.unexecuted b = true ↔ r.unexecuted b = true ∧ b ∉ bs.map Node.hash := by
  simp only [unexecuted, Bool.and_eq_true, Bool.not_eq_true', List.contains_iff_mem,
    ← Bool.not_eq_true, h.executed]
  tauto

/-- A decision executes nothing, or the whole branch of a certified node. -/
theorem onDecide_appends
    (h : Settles r.unexecuted)
    (m : Msg Cmd) :
    ((r.onDecide cfg m).committed = r.committed ∧
        (r.onDecide cfg m).unexecuted = r.unexecuted) ∨
      ∃ qc bs, Accepts cfg m .commit qc ∧ Executes r (r.onDecide cfg m) bs ∧
        (∀ b ∈ bs, qc.nodeHash.Extends b.hash) ∧
        (qc.nodeHash.Rooted → bs.map Node.hash = qc.nodeHash.path.filter r.unexecuted) := by
  cases onDecide_deciding cfg r m with
  | skip hidle =>
      refine Or.inl ⟨hidle.committed, funext fun b => ?_⟩
      rw [unexecuted, unexecuted, hidle.executed]
  | defer qc _ _ hcommitted hexecuted _ =>
      refine Or.inl ⟨hcommitted, funext fun b => ?_⟩
      rw [unexecuted, unexecuted, hexecuted]
  | execute qc hacc hhas hmiss hexec =>
      refine Or.inr ⟨qc, _, hacc, hexec, ?_, fun hroot => Tree.hashes_branch h hroot hhas hmiss⟩
      intro b hb
      exact (Tree.mem_branch (List.mem_reverse.mp hb)).2.2

/-- The walk of an execution still stops where nothing is left below. -/
theorem settles_onDecide
    (cfg : Config)
    (h : Settles r.unexecuted)
    (m : Msg Cmd) :
    Settles (r.onDecide cfg m).unexecuted := by
  rcases onDecide_appends h m with ⟨-, heq⟩ | ⟨qc, bs, -, hexec, habove, hbs⟩
  · rw [heq]
    exact h
  · have hiff := unexecuted_of_executes hexec
    constructor
    · simp [unexecuted]
    · intro a ha hdone b hb
      rw [← Bool.not_eq_true, hiff] at hdone ⊢
      rintro ⟨hopen, hnew⟩
      -- the hash below was not executed before, so the one above was executed now
      have haopen : r.unexecuted a = true := by
        by_contra hnot
        rw [Bool.not_eq_true] at hnot
        rw [h.path a ha hnot b hb] at hopen
        cases hopen
      have hamem : a ∈ bs.map Node.hash := by
        by_contra hnot
        exact hdone ⟨haopen, hnot⟩
      obtain ⟨x, hx, rfl⟩ := List.mem_map.mp hamem
      have hroot : qc.nodeHash.Rooted := (habove x hx).trans ha
      rw [hbs hroot, List.mem_filter] at hnew hamem
      exact hnew ⟨(Digest.path_prefix_of_mem_path hamem.1).subset hb, hopen⟩

/-- The accepted decisions are for nodes that lie on one branch with a node. -/
def AlongBranch (cfg : Config) (d : Digest) (ms : List (Msg Cmd)) : Prop :=
  ∀ m ∈ ms, DecidesIn cfg (fun h => h ∈ d.path ∨ d ∈ h.path) m

/-- The accepted decisions are for nodes of a branch. -/
def WithinBranch (cfg : Config) (d : Digest) (ms : List (Msg Cmd)) : Prop :=
  ∀ m ∈ ms, DecidesIn cfg (· ∈ d.path) m

/-- What a list of decisions appends to the log, seen from the branch of a node: the nodes
of the branch come in order, and come first if everything lies on one branch. -/
structure Appends (cfg : Config) (d : Digest) (ms : List (Msg Cmd)) (r r' : Replica Cmd)
    (bs : List (Node Cmd)) : Prop where
  committed : r'.committed = r.committed ++ bs
  order : (bs.map Node.hash).filter (· ∈ d.path) ++ d.path.filter r'.unexecuted =
    d.path.filter r.unexecuted
  along : AlongBranch cfg d ms →
    d.path.filter r.unexecuted <+: bs.map Node.hash ++ d.path.filter r'.unexecuted
  within : WithinBranch cfg d ms → ∀ b ∈ bs, b.hash ∈ d.path

namespace Appends

variable {d : Digest} {s : Replica Cmd} {ms : List (Msg Cmd)} {bs cs : List (Node Cmd)}

theorem of_eq
    (hcommitted : r'.committed = r.committed)
    (hexecuted : r'.unexecuted = r.unexecuted) :
    Appends cfg d ms r r' [] where
  committed := by rw [hcommitted, List.append_nil]
  order := by rw [hexecuted]; rfl
  along _ := by rw [hexecuted]; exact List.prefix_rfl
  within _ b hb := nomatch hb

/-- Decisions one after the other. -/
theorem cons
    (h : Appends cfg d [m] r s bs)
    (h' : Appends cfg d ms s r' cs) :
    Appends cfg d (m :: ms) r r' (bs ++ cs) where
  committed := by rw [h'.committed, h.committed, List.append_assoc]
  order := by
    rw [List.map_append, List.filter_append, List.append_assoc, h'.order]
    exact h.order
  along hall := by
    obtain ⟨hm, hms⟩ := List.forall_mem_cons.mp hall
    have hfirst := h.along (List.forall_mem_singleton.mpr hm)
    have hrest := h'.along hms
    rw [List.map_append, List.append_assoc]
    exact hfirst.trans (List.prefix_append_right_inj _ |>.mpr hrest)
  within hall b hb := by
    obtain ⟨hm, hms⟩ := List.forall_mem_cons.mp hall
    rcases List.mem_append.mp hb with hb | hb
    · exact h.within (List.forall_mem_singleton.mpr hm) b hb
    · exact h'.within hms b hb

end Appends

/-- **One decision.**  It appends what its branch has and the log has not. -/
theorem appends_onDecide
    (cfg : Config)
    {d : Digest}
    (h : Settles r.unexecuted)
    (hd : d.Rooted)
    (m : Msg Cmd) :
    ∃ bs, Appends cfg d [m] r (r.onDecide cfg m) bs := by
  rcases onDecide_appends h m with ⟨hcommitted, hexecuted⟩ | ⟨qc, bs, hacc, hexec, habove, hbs⟩
  · exact ⟨[], Appends.of_eq hcommitted hexecuted⟩
  · have hiff := unexecuted_of_executes hexec
    have horder : (bs.map Node.hash).filter (· ∈ d.path) ++
        d.path.filter (r.onDecide cfg m).unexecuted = d.path.filter r.unexecuted := by
      by_cases hroot : qc.nodeHash.Rooted
      · rw [hbs hroot]
        refine Digest.filter_path_append fun b => ?_
        rw [hiff, hbs hroot]
      · -- a node that does not descend from the genesis block shares nothing with the branch
        have hother : ∀ b ∈ bs.map Node.hash, b ∉ d.path := by
          intro b hb hmem
          obtain ⟨x, hx, rfl⟩ := List.mem_map.mp hb
          exact hroot ((habove x hx).trans (hd.of_mem_path hmem))
        have hnone : (bs.map Node.hash).filter (· ∈ d.path) = [] :=
          List.filter_eq_nil_iff.mpr fun b hb hmem => hother b hb (of_decide_eq_true hmem)
        rw [hnone, List.nil_append]
        refine List.filter_congr fun b hb => ?_
        rw [Bool.eq_iff_iff, hiff]
        exact and_iff_left fun hmem => hother b hmem hb
    have hwithin : qc.nodeHash ∈ d.path → ∀ b ∈ bs.map Node.hash, b ∈ d.path := by
      intro hmem b hb
      rw [hbs (hd.of_mem_path hmem), List.mem_filter] at hb
      exact (Digest.path_prefix_of_mem_path hmem).subset hb.1
    refine ⟨bs, hexec.committed, horder, ?_, ?_⟩
    · intro hall
      rcases hall m (List.mem_singleton_self m) qc hacc with hbelow | habove'
      · have hself : (bs.map Node.hash).filter (· ∈ d.path) = bs.map Node.hash :=
          List.filter_eq_self.mpr fun b hb => decide_eq_true (hwithin hbelow b hb)
        rw [hself] at horder
        rw [horder]
      · obtain ⟨rest, hrest⟩ := Digest.path_prefix_of_mem_path habove'
        have hroot : qc.nodeHash.Rooted := (Digest.extends_of_mem_path habove').trans hd
        rw [hbs hroot, ← hrest, List.filter_append, List.append_assoc]
        exact List.prefix_append _ _
    · intro hall b hb
      exact hwithin (hall m (List.mem_singleton_self m) qc hacc) _ (List.mem_map_of_mem hb)

/-- **A list of decisions.** -/
theorem appends_foldl_onDecide
    (cfg : Config)
    {d : Digest}
    (h : Settles r.unexecuted)
    (hd : d.Rooted)
    (ms : List (Msg Cmd)) :
    ∃ bs, Appends cfg d ms r (ms.foldl (onDecide cfg) r) bs := by
  induction ms generalizing r with
  | nil => exact ⟨[], Appends.of_eq rfl rfl⟩
  | cons m ms ih =>
      obtain ⟨bs, hbs⟩ := appends_onDecide cfg h hd m
      obtain ⟨cs, hcs⟩ := ih (settles_onDecide cfg h m)
      exact ⟨bs ++ cs, hbs.cons hcs⟩

/-! ## A kept decision is executed -/

/-- The branch is executed and the view of the decision is decided. -/
structure Settled (m : Msg Cmd) (d : Digest) (r : Replica Cmd) : Prop where
  executed : ∀ b ∈ d.path, r.unexecuted b = false
  decided : m.viewNumber ∈ r.decided

theorem Grows.unexecuted
    {b : Digest}
    (h : Grows r r')
    (hb : r.unexecuted b = false) :
    r'.unexecuted b = false := by
  by_cases hg : b = genesisHash
  · simp [Replica.unexecuted, hg]
  · have hmem : b ∈ r.executed := by simpa [Replica.unexecuted, hg] using hb
    simp [Replica.unexecuted, h.executed hmem]

theorem Settled.grows
    {d : Digest}
    (h : Settled m d r)
    (hgrows : Grows r r') :
    Settled m d r' :=
  ⟨fun b hb => hgrows.unexecuted (h.executed b hb), hgrows.decided h.decided⟩

theorem decided_leaveDecided (cfg : Config) (r : Replica Cmd) (m : Msg Cmd) :
    m.viewNumber ∈ (r.leaveDecided cfg m).decided := by
  unfold leaveDecided
  split
  case isTrue h => exact h
  case isFalse => exact (grows_advanceFrom cfg _ _).decided List.mem_insert_self

/-- A complete branch is executed. -/
theorem settled_of_complete
    {b : Node Cmd}
    (h : Settles r.unexecuted)
    (hroot : qc.nodeHash.Rooted)
    (hget : r.tree.get qc.nodeHash = some b)
    (hmiss : r.tree.firstMissing r.unexecuted qc.nodeHash = none) :
    Settled m qc.nodeHash ((r.execute b).leaveDecided cfg m) := by
  have hhas : r.tree.has qc.nodeHash = true := by simp [Tree.has, hget]
  have hexec := executes_foldl (r.tree.branch r.unexecuted b.hash).reverse r
  rw [Tree.hash_of_get hget] at hexec
  have hbs := Tree.hashes_branch h hroot hhas hmiss
  refine ⟨fun x hx => ?_, decided_leaveDecided cfg _ m⟩
  refine (grows_leaveDecided cfg _ m).unexecuted ?_
  unfold execute
  rw [Tree.hash_of_get hget, ← Bool.not_eq_true, unexecuted_of_executes hexec, hbs]
  rintro ⟨hopen, hnew⟩
  exact hnew (List.mem_filter.mpr ⟨hx, hopen⟩)

/-- A decision is kept, or it is executed with its branch. -/
theorem onDecide_kept_or_settled
    (h : Settles r.unexecuted)
    (hacc : Accepts cfg m .commit qc)
    (hroot : qc.nodeHash.Rooted) :
    m ∈ (r.onDecide cfg m).deferred ∨ Settled m qc.nodeHash (r.onDecide cfg m) := by
  rcases onDecide_accepted (r := r) hacc hroot with ⟨h, -, heq⟩ | ⟨hmiss, b, hget, heq⟩
  · rw [heq]
    exact Or.inl (List.mem_append_right _ (List.mem_singleton_self m))
  · rw [heq]
    exact Or.inr (settled_of_complete h hroot hget hmiss)

theorem subset_deferred_onDecide (cfg : Config) (r : Replica Cmd) (m : Msg Cmd) :
    r.deferred ⊆ (r.onDecide cfg m).deferred := by
  cases onDecide_deciding cfg r m with
  | skip hidle => rw [hidle.deferred]; exact List.Subset.refl _
  | defer _ _ _ _ _ hdeferred => rw [hdeferred]; exact List.subset_append_left _ _
  | execute _ _ _ _ hexec => rw [hexec.deferred]; exact List.Subset.refl _

theorem subset_deferred_foldl (cfg : Config) (r : Replica Cmd) (ms : List (Msg Cmd)) :
    r.deferred ⊆ (ms.foldl (onDecide cfg) r).deferred := by
  induction ms generalizing r with
  | nil => exact List.Subset.refl _
  | cons m ms ih => exact List.Subset.trans (subset_deferred_onDecide cfg r m) (ih _)

/-- A decision that is taken up again is kept again, or it is executed; it is executed if
its branch is stored. -/
theorem foldl_kept_or_settled
    {ms : List (Msg Cmd)}
    (h : Settles r.unexecuted)
    (hacc : Accepts cfg m .commit qc)
    (hroot : qc.nodeHash.Rooted)
    (hm : m ∈ ms) :
    (m ∈ (ms.foldl (onDecide cfg) r).deferred ∨
        Settled m qc.nodeHash (ms.foldl (onDecide cfg) r)) ∧
      ((∀ b ∈ qc.nodeHash.path, r.tree.has b = true) →
        Settled m qc.nodeHash (ms.foldl (onDecide cfg) r)) := by
  induction ms generalizing r with
  | nil => cases hm
  | cons x ms ih =>
      rcases List.mem_cons.mp hm with rfl | hm
      · have hrest := grows_foldl_onDecide cfg (r.onDecide cfg m) ms
        constructor
        · rcases onDecide_kept_or_settled h hacc hroot with hkept | hsettled
          · exact Or.inl (subset_deferred_foldl cfg _ ms hkept)
          · exact Or.inr (hsettled.grows hrest)
        · intro hpath
          rcases onDecide_accepted (r := r) hacc hroot with ⟨_, hbelow, -⟩ | ⟨hmiss, b, hget, heq⟩
          · obtain ⟨b, hb, hmissing⟩ := hbelow.exists_missing
            rw [hpath b hb] at hmissing
            cases hmissing
          · rw [heq] at hrest
            rw [List.foldl_cons, heq]
            exact (settled_of_complete h hroot hget hmiss).grows hrest
      · obtain ⟨hkept, hsettled⟩ := ih (settles_onDecide cfg h x) hm
        refine ⟨hkept, fun hpath => hsettled fun b hb => ?_⟩
        exact (grows_onDecide cfg r x).tree b (hpath b hb)

/-! ## Runs -/

theorem settles_foldl_onDecide
    (cfg : Config)
    (h : Settles r.unexecuted)
    (ms : List (Msg Cmd)) :
    Settles (ms.foldl (onDecide cfg) r).unexecuted := by
  induction ms generalizing r with
  | nil => exact h
  | cons m ms ih => exact ih (settles_onDecide cfg h m)

theorem unexecuted_congr
    (h : r'.executed = r.executed) :
    r'.unexecuted = r.unexecuted := by
  funext b
  rw [unexecuted, unexecuted, h]

theorem settles_step
    {i : Input Cmd}
    (h : Settles r.unexecuted)
    (hstep : r.step cfg i = some r') :
    Settles r'.unexecuted := by
  obtain ⟨s, ms, hdec⟩ := step_decides hstep
  rw [unexecuted_congr hdec.result.executed]
  refine settles_foldl_onDecide cfg ?_ ms
  rw [unexecuted_congr hdec.executed]
  exact h

theorem Handled.kept_or_settled
    {x : Msg Cmd}
    (hhandled : Handled cfg r x r')
    (h : Settles r.unexecuted)
    (hacc : Accepts cfg m .commit qc)
    (hroot : qc.nodeHash.Rooted)
    (hkept : m ∈ r.deferred) :
    m ∈ r'.deferred ∨ Settled m qc.nodeHash r' := by
  have hsame : ∀ s : Replica Cmd, s.deferred = r.deferred →
      m ∈ s.deferred ∨ Settled m qc.nodeHash s := by
    intro s heq
    rw [heq]
    exact Or.inl hkept
  cases hhandled with
  | newView => exact hsame _ (idle_onNewView cfg r x).deferred
  | prepareVote => exact hsame _ (idle_onPrepareVote cfg r x).deferred
  | prepare => exact hsame _ (sameRecord_onPrepare cfg r x).deferred
  | genericVote => exact hsame _ (idle_onGenericVote cfg r x).deferred
  | preCommit => exact hsame _ (sameRecord_onPreCommit cfg r x).deferred
  | commit => exact hsame _ (sameRecord_onCommit cfg r x).deferred
  | decide => exact Or.inl (subset_deferred_onDecide cfg r x hkept)
  | syncReq => exact hsame _ (idle_onSyncReq r x).deferred
  | syncResp =>
      rcases onSyncResp_cases cfg r x with heq | ⟨chain, -, heq⟩
      · rw [heq]
        exact hsame _ rfl
      · rw [heq]
        exact (foldl_kept_or_settled (by exact h) hacc hroot hkept).1
  | ignored => exact hsame _ rfl

/-- A kept decision stays, until it is executed. -/
theorem kept_or_settled_step
    {i : Input Cmd}
    (h : Settles r.unexecuted)
    (hacc : Accepts cfg m .commit qc)
    (hroot : qc.nodeHash.Rooted)
    (hkept : m ∈ r.deferred)
    (hstep : r.step cfg i = some r') :
    m ∈ r'.deferred ∨ Settled m qc.nodeHash r' := by
  cases occurs_of_step hstep with
  | start =>
      left
      rw [(idle_advanceFrom cfg _ 0).deferred]
      exact hkept
  | dispatch x =>
      obtain ⟨s, hs, -, hhandled⟩ :=
        dispatch_handled cfg { r with outbox := [], replies := [] } x
      refine hhandled.kept_or_settled ?_ hacc hroot ?_
      · rcases hs with rfl | ⟨-, rfl⟩
        · exact h
        · exact h
      · rcases hs with rfl | ⟨-, rfl⟩
        · exact hkept
        · exact hkept
  | submit cmd =>
      left
      rw [(idle_submit cfg _ cmd).deferred]
      exact hkept
  | timeout view =>
      left
      rw [(idle_onTimeout cfg _ view).deferred]
      exact hkept
  | stop => exact Or.inl hkept

section Runs

variable {id : Nat} {sm : Option (Application.State Cmd)}

theorem settles_of_reachable
    (hr : System.Reachable (exposed cfg id sm) System.anyStep r) :
    Settles r.unexecuted := by
  refine System.Reachable.invariant (I := fun r => Settles r.unexecuted) ?_ ?_ hr
  · constructor
    · rfl
    · intro a _ hdone b hb
      have ha : a = genesisHash := by simpa [unexecuted, exposed, new] using hdone
      rw [ha, Digest.path_genesisHash] at hb
      cases hb
  · exact fun _ _ _ _ h _ hstep => settles_step h hstep

theorem grows_of_reaches
    (h : System.Reaches (exposed cfg id sm) System.anyStep r r') :
    Grows r r' := by
  induction h with
  | refl => exact Grows.refl _
  | tail _ _ hstep ih => exact ih.trans (grows_step hstep)

theorem kept_or_settled_of_reaches
    (hr : System.Reachable (exposed cfg id sm) System.anyStep r)
    (hacc : Accepts cfg m .commit qc)
    (hroot : qc.nodeHash.Rooted)
    (hkept : m ∈ r.deferred)
    (h : System.Reaches (exposed cfg id sm) System.anyStep r r') :
    m ∈ r'.deferred ∨ Settled m qc.nodeHash r' := by
  induction h with
  | refl => exact Or.inl hkept
  | tail hrun _ hstep ih =>
      rcases ih with hkept' | hsettled
      · have hsettles := settles_of_reachable (hr.trans hrun)
        exact kept_or_settled_step hsettles hacc hroot hkept' hstep
      · exact Or.inr (hsettled.grows (grows_step hstep))

end Runs

/-! ## One request and one answer -/

theorem eq_dispatch_of_step
    (h : r.step cfg (.dispatch m) = some r') :
    r' = ({ r with outbox := [], replies := [] } : Replica Cmd).dispatch cfg m := by
  cases occurs_of_step h
  rfl

/-- The walk of `on_sync_req` collects a whole branch. -/
theorem settles_ne_genesis : Settles fun h => decide (h ≠ genesisHash) := by
  refine ⟨by simp, fun a _ ha b hb => ?_⟩
  have hg : a = genesisHash := by simpa using ha
  rw [hg, Digest.path_genesisHash] at hb
  cases hb

/-- A peer that stores a branch answers with all of it. -/
theorem onSyncReq_answer
    {h : Digest}
    (hroot : h.Rooted)
    (hne : h ≠ genesisHash)
    (hpath : ∀ b ∈ h.path, r.tree.has b = true)
    (hpayload : m.payload = .hash h) :
    ∃ chain resp, r.onSyncReq m = r.send m.sender resp ∧ resp.type = .syncResp ∧
      resp.payload = .nodes chain ∧ ∀ b ∈ h.path, b ∈ chain.map Node.hash := by
  have hhas := Tree.has_of_path hroot hpath
  have hmiss : r.tree.firstMissing (· ≠ genesisHash) h = none :=
    Tree.firstMissing_eq_none hroot settles_ne_genesis.genesis hpath
  have hhashes := Tree.hashes_branch settles_ne_genesis hroot hhas hmiss
  have hmem : ∀ b ∈ h.path, b ∈ (r.tree.branch (· ≠ genesisHash) h).map Node.hash := by
    intro b hb
    have hkeep : b ≠ genesisHash := by
      rintro rfl
      exact h.genesisHash_notMem_path hb
    have hcollected : b ∈ (r.tree.branch (· ≠ genesisHash) h).reverse.map Node.hash := by
      rw [hhashes]
      exact List.mem_filter.mpr ⟨hb, by simpa using hkeep⟩
    rwa [List.map_reverse, List.mem_reverse] at hcollected
  have hself : h ∈ h.path :=
    (Digest.mem_path_of_extends (Digest.Extends.refl h) hroot).resolve_left hne
  have hnonempty : ¬ (r.tree.branch (· ≠ genesisHash) h).isEmpty = true := by
    rw [List.isEmpty_iff]
    intro hnil
    have hcollected := hmem h hself
    rw [hnil] at hcollected
    cases hcollected
  refine ⟨r.tree.branch (· ≠ genesisHash) h, {
    type := .syncResp
    viewNumber := r.view
    sender := r.id
    node := none
    justify := none
    partialSig := none
    payload := .nodes (r.tree.branch (· ≠ genesisHash) h) }, ?_, rfl, rfl, hmem⟩
  simp only [onSyncReq, hpayload]
  rw [if_neg hnonempty]

/-- The branch of a decision is executed: its nodes that were not are appended in order,
in one piece if the decisions `ms` that were handled lie on one branch with it, and as
the end of the log if they lie on this branch. -/
structure CaughtUp (cfg : Config) (m : Msg Cmd) (d : Digest) (ms : List (Msg Cmd))
    (r r' : Replica Cmd) : Prop where
  executed : ∀ b ∈ d.path, b ∈ r'.executed
  decided : m.viewNumber ∈ r'.decided
  log : ∃ bs, r'.committed = r.committed ++ bs ∧
    (bs.map Node.hash).filter (· ∈ d.path) = d.path.filter r.unexecuted ∧
    (AlongBranch cfg d ms → d.path.filter r.unexecuted <+: bs.map Node.hash) ∧
    (WithinBranch cfg d ms → bs.map Node.hash = d.path.filter r.unexecuted)

theorem Appends.caughtUp
    {d : Digest} {ms : List (Msg Cmd)} {bs : List (Node Cmd)}
    (h : Appends cfg d ms r r' bs)
    (hsettled : Settled m d r') :
    CaughtUp cfg m d ms r r' := by
  have hnone : d.path.filter r'.unexecuted = [] := by
    refine List.filter_eq_nil_iff.mpr fun b hb => ?_
    rw [hsettled.executed b hb]
    exact Bool.false_ne_true
  have horder := h.order
  have halong := h.along
  rw [hnone, List.append_nil] at horder halong
  refine ⟨fun b hb => ?_, hsettled.decided, bs, h.committed, horder, halong, fun hall => ?_⟩
  · have hne : b ≠ genesisHash := by
      rintro rfl
      exact d.genesisHash_notMem_path hb
    simpa [unexecuted, hne] using hsettled.executed b hb
  · rw [← horder]
    refine (List.filter_eq_self.mpr fun b hb => decide_eq_true ?_).symm
    obtain ⟨x, hx, rfl⟩ := List.mem_map.mp hb
    exact h.within hall x hx

section Runs

variable {id : Nat} {sm : Option (Application.State Cmd)} {r₁ : Replica Cmd}

/-- The answer completes the branch of a decision that was kept. -/
theorem caughtUp_of_answer
    {r₂ r₃ : Replica Cmd} {resp : Msg Cmd} {chain : List (Node Cmd)}
    (h : Settles r₂.unexecuted)
    (hacc : Accepts cfg m .commit qc)
    (hroot : qc.nodeHash.Rooted)
    (hkept : m ∈ r₂.deferred ∨ Settled m qc.nodeHash r₂)
    (hpath : ∀ b ∈ qc.nodeHash.path, b ∈ chain.map Node.hash ∨ r₂.tree.has b = true)
    (htype : resp.type = .syncResp)
    (hpayload : resp.payload = .nodes chain)
    (hstep : r₂.step cfg (.dispatch resp) = some r₃) :
    CaughtUp cfg m qc.nodeHash r₂.deferred r₂ r₃ := by
  -- the state in which the kept decisions are taken up again
  let s : Replica Cmd := { r₂ with
    outbox := [], replies := [], tree := chain.foldl Tree.add r₂.tree, deferred := [] }
  have hr₃ : r₃ = r₂.deferred.foldl (onDecide cfg) s := by
    rw [eq_dispatch_of_step hstep]
    simp [dispatch, htype, onSyncResp, hpayload, s]
  have hs : Settles s.unexecuted := h
  have hstored : ∀ b ∈ qc.nodeHash.path, s.tree.has b = true :=
    fun b hb => (Tree.has_foldl_add chain r₂.tree b).mpr (hpath b hb)
  have hsettled : Settled m qc.nodeHash r₃ := by
    rcases hkept with hkept | hsettled
    · rw [hr₃]
      exact (foldl_kept_or_settled hs hacc hroot hkept).2 hstored
    · exact hsettled.grows (grows_step hstep)
  obtain ⟨bs, hbs⟩ := appends_foldl_onDecide cfg hs hroot r₂.deferred
  rw [← hr₃] at hbs
  have happends : Appends cfg qc.nodeHash r₂.deferred r₂ r₃ bs :=
    ⟨hbs.committed, hbs.order, hbs.along, hbs.within⟩
  exact happends.caughtUp hsettled

/-- **Catching up takes one answer.**  A replica that receives a valid DECIDE executes
the branch of the decision at once, or sends one request.  A peer that stores the branch
sends one answer, and when the answer has been handled, whatever happened in between, the
branch is executed.  What was not executed of it is appended in order: in one piece if all
decisions that are taken up again lie on one branch with it, and as the end of the log if
they lie on this branch. -/
theorem catch_up
    (hr : System.Reachable (exposed cfg id sm) System.anyStep r)
    (htype : m.type = .decide)
    (hacc : Accepts cfg m .commit qc)
    (hroot : qc.nodeHash.Rooted)
    (hreceive : r.step cfg (.dispatch m) = some r₁) :
    CaughtUp cfg m qc.nodeHash [m] r r₁ ∨
      ∃ req, r₁.outbox = [(m.sender, req)] ∧ req.type = .syncReq ∧
        ∀ peer peer' : Replica Cmd, (∀ b ∈ qc.nodeHash.path, peer.tree.has b = true) →
          peer.step cfg (.dispatch req) = some peer' →
          ∃ resp, peer'.outbox = [((r.id : Int), resp)] ∧ resp.type = .syncResp ∧
            ∀ r₂ r₃, System.Reaches (exposed cfg id sm) System.anyStep r₁ r₂ →
              r₂.step cfg (.dispatch resp) = some r₃ →
              CaughtUp cfg m qc.nodeHash r₂.deferred r₂ r₃ := by
  have hsettles := settles_of_reachable hr
  have hr₁ : System.Reachable (exposed cfg id sm) System.anyStep r₁ :=
    System.Reaches.tail (l := .dispatch m) hr trivial hreceive
  -- the view of the message is entered before it is handled
  obtain ⟨s, hs, hresult⟩ : ∃ s : Replica Cmd,
      (s.tree = r.tree ∧ s.outbox = [] ∧ s.id = r.id ∧ s.committed = r.committed ∧
        s.unexecuted = r.unexecuted) ∧ r₁ = s.onDecide cfg m := by
    rw [eq_dispatch_of_step hreceive]
    simp only [dispatch, htype]
    refine ⟨_, ?_, rfl⟩
    split
    case isTrue => exact ⟨rfl, rfl, rfl, rfl, rfl⟩
    case isFalse => exact ⟨rfl, rfl, rfl, rfl, rfl⟩
  obtain ⟨hstree, hsoutbox, hsid, hscommitted, hsunexecuted⟩ := hs
  rw [← hsunexecuted] at hsettles
  rcases onDecide_accepted (r := s) hacc hroot with ⟨h, hbelow, heq⟩ | ⟨hmiss, b, hget, heq⟩
  · right
    have hself : m ∈ r₁.deferred := by
      rw [hresult, heq]
      exact List.mem_append_right _ (List.mem_singleton_self m)
    refine ⟨{
      type := .syncReq
      viewNumber := s.view
      sender := s.id
      node := none
      justify := none
      partialSig := none
      payload := .hash h }, ?_, rfl, ?_⟩
    · rw [hresult, heq]
      simp [requestSync, send, hsoutbox]
    intro peer peer' hpeer hanswer
    have hne : h ≠ genesisHash := by
      rintro rfl
      have hhas := s.tree.has_genesisHash
      rw [hbelow.missing] at hhas
      cases hhas
    have hpeerPath : ∀ b ∈ h.path, peer.tree.has b = true :=
      fun b hb => hpeer b ((Digest.path_prefix_of_extends hbelow.ancestor).subset hb)
    obtain ⟨chain, resp, hsend, hresp, hpayload, hchain⟩ := onSyncReq_answer
      (r := { peer with outbox := [], replies := [] }) (m := {
        type := .syncReq, viewNumber := s.view, sender := s.id, node := none,
        justify := none, partialSig := none, payload := .hash h })
      hbelow.rooted hne hpeerPath rfl
    refine ⟨resp, ?_, hresp, fun r₂ r₃ hwait hstep => ?_⟩
    · rw [eq_dispatch_of_step hanswer]
      simp only [dispatch, reduceCtorEq, or_self, false_and, if_false]
      rw [hsend]
      simp [send, hsid]
    · have hgrows := grows_of_reaches hwait
      refine caughtUp_of_answer (settles_of_reachable (hr₁.trans hwait)) hacc hroot
        (kept_or_settled_of_reaches hr₁ hacc hroot hself hwait) ?_ hresp hpayload hstep
      intro b hb
      rcases hbelow.above b hb with hmem | hhas
      · exact Or.inl (hchain b hmem)
      · refine Or.inr (hgrows.tree b ?_)
        rw [hresult]
        exact (grows_onDecide cfg s m).tree b hhas
  · left
    have hsettled : Settled m qc.nodeHash r₁ := by
      rw [hresult, heq]
      exact settled_of_complete hsettles hroot hget hmiss
    obtain ⟨bs, hbs⟩ := appends_onDecide cfg hsettles hroot m
    rw [← hresult] at hbs
    have happends : Appends cfg qc.nodeHash [m] r r₁ bs := by
      refine ⟨?_, ?_, ?_, hbs.within⟩
      · rw [← hscommitted]
        exact hbs.committed
      · rw [← hsunexecuted]
        exact hbs.order
      · rw [← hsunexecuted]
        exact hbs.along
    exact happends.caughtUp hsettled

end Runs

section Fixture

/-- The decision of the first view, about a block below the genesis block. -/
def decisionOf (cmd : String) : Msg String :=
  phaseOf .decide (certificateOf .commit 1 cmd [0, 1, 2])

/-- A block of view 2 below a block of view 1. -/
def childOf (cmd cmd' : String) : Node String :=
  createLeaf (blockOf cmd).hash cmd' 2

/-- The leader proposes the block of view 2. -/
def childProposal (cmd cmd' : String) : Msg String where
  type := .prepare
  viewNumber := 2
  sender := 0
  node := some (childOf cmd cmd')
  justify := some (certificateOf .prepare 1 cmd [0, 1, 2])
  partialSig := none
  payload := .none

/-- The certificate of the decision about the block of view 2. -/
def childCertificate (cmd cmd' : String) : QC where
  type := .commit
  viewNumber := 2
  nodeHash := (childOf cmd cmd').hash
  sigs := [0, 1, 2].map fun (k : Nat) =>
    ((k : Int), signVote k .commit 2 (childOf cmd cmd').hash)

/-- Replica 3 asks for a block in view 2. -/
def requestOf (b : Node String) : Msg String where
  type := .syncReq
  viewNumber := 2
  sender := 3
  node := none
  justify := none
  partialSig := none
  payload := .hash b.hash

/-- Replica 0 answers in view 2. -/
def answerOf (chain : List (Node String)) : Msg String where
  type := .syncResp
  viewNumber := 2
  sender := 0
  node := none
  justify := none
  partialSig := none
  payload := .nodes chain

/-- Replica 0 stores both blocks, and answers a request for the first one. -/
theorem exists_answer :
    ∃ peer peer' : Replica String,
      (∀ b ∈ (childOf "x" "y").hash.path, peer.tree.has b = true) ∧
      peer.step fourReplicas (.dispatch (requestOf (blockOf "x"))) = some peer' ∧
      peer'.outbox = [(3, answerOf [blockOf "x"])] := by
  obtain ⟨peer, -, hpath, hstep⟩ : ∃ peer : Replica String,
      (exposed fourReplicas 0 none).Reaches System.anyStep (new 0 none) peer ∧
      (∀ b ∈ (childOf "x" "y").hash.path, peer.tree.has b = true) ∧
      (peer.step fourReplicas (.dispatch (requestOf (blockOf "x")))).any
        (fun peer' => decide (peer'.outbox = [(3, answerOf [blockOf "x"])])) = true := by
    refine System.exists_reaches_of_exec
      [.start, .dispatch (proposalOf "x"), .dispatch (childProposal "x" "y")] ?_
    decide +kernel
  obtain ⟨peer', hpeer', houtbox⟩ := Option.any_eq_true _ _ |>.mp hstep
  exact ⟨peer, peer', hpath, hpeer', of_decide_eq_true houtbox⟩

/-- Replica 3 has missed the first view; the decision of view 2 finds a gap, and the
answer fills it. -/
theorem catch_up_sample :
    ∃ r₁ r₃ : Replica String, r₁.executed = [] ∧
      r₃.committed = [blockOf "x", childOf "x" "y"] ∧
      CaughtUp fourReplicas (phaseOf .decide (childCertificate "x" "y"))
        (childOf "x" "y").hash r₁.deferred r₁ r₃ := by
  have hacc : Accepts fourReplicas (phaseOf .decide (childCertificate "x" "y")) .commit
      (childCertificate "x" "y") := ⟨rfl, rfl, rfl, rfl, by decide +kernel⟩
  obtain ⟨r, hr, hreceive⟩ : ∃ r : Replica String,
      (exposed fourReplicas 3 none).Reaches System.anyStep (new 3 none) r ∧
      (r.step fourReplicas (.dispatch (phaseOf .decide (childCertificate "x" "y")))).any
        (fun r₁ => decide (r.id = 3 ∧ r₁.executed = [] ∧
          r₁.outbox = [(0, requestOf (blockOf "x"))]) &&
          (r₁.step fourReplicas (.dispatch (answerOf [blockOf "x"]))).any
            fun r₃ => decide (r₃.committed = [blockOf "x", childOf "x" "y"])) = true := by
    refine System.exists_reaches_of_exec [.start, .dispatch (childProposal "x" "y")] ?_
    decide +kernel
  obtain ⟨r₁, hr₁, hrest⟩ := Option.any_eq_true _ _ |>.mp hreceive
  obtain ⟨hid, hexecuted, houtbox⟩ := of_decide_eq_true (Bool.and_eq_true_iff.mp hrest).1
  obtain ⟨r₃, hr₃, hcommitted⟩ := Option.any_eq_true _ _ |>.mp (Bool.and_eq_true_iff.mp hrest).2
  obtain ⟨peer, peer', hpath, hpeer', hpeerOut⟩ := exists_answer
  refine ⟨r₁, r₃, hexecuted, of_decide_eq_true hcommitted, ?_⟩
  have hroot : (childCertificate "x" "y").nodeHash.Rooted := by
    unfold Digest.Rooted
    decide +kernel
  rcases catch_up hr rfl hacc hroot hr₁ with hnow | ⟨req, hreq, -, hanswer⟩
  · -- nothing was executed before the answer
    have hmem := hnow.executed (blockOf "x").hash (by decide +kernel)
    rw [hexecuted] at hmem
    cases hmem
  · rw [houtbox] at hreq
    obtain ⟨-, rfl⟩ : (0 : Int) = _ ∧ requestOf (blockOf "x") = req := by simpa using hreq
    obtain ⟨resp, hresp, -, hcaught⟩ := hanswer peer peer' hpath hpeer'
    rw [hpeerOut, hid] at hresp
    obtain rfl : answerOf [blockOf "x"] = resp := by simpa using hresp
    exact hcaught r₁ r₃ (System.Reaches.refl r₁) hr₃

/-- Replica 3 has kept the decision of view 2 when it receives that of the first view: the
answer takes up both, and the log ends with the later block. -/
theorem log_passes_branch :
    ¬ ∀ (r r₁ r₂ r₃ peer peer' : Replica String) (id : Nat) (m req resp : Msg String) (qc : QC),
      System.Reachable (exposed fourReplicas id none) System.anyStep r →
      m.type = .decide → Accepts fourReplicas m .commit qc → qc.nodeHash.Rooted →
      r.step fourReplicas (.dispatch m) = some r₁ →
      r₁.outbox = [(m.sender, req)] → req.type = .syncReq →
      (∀ b ∈ qc.nodeHash.path, peer.tree.has b = true) →
      peer.step fourReplicas (.dispatch req) = some peer' →
      peer'.outbox = [((r.id : Int), resp)] → resp.type = .syncResp →
      System.Reaches (exposed fourReplicas id none) System.anyStep r₁ r₂ →
      r₂.step fourReplicas (.dispatch resp) = some r₃ →
      qc.nodeHash.path.filter r₂.unexecuted <:+ r₃.committed.map Node.hash := by
  intro hall
  have hacc : Accepts fourReplicas (decisionOf "x") .commit
      (certificateOf .commit 1 "x" [0, 1, 2]) :=
    ⟨rfl, rfl, rfl, rfl, by decide +kernel⟩
  obtain ⟨r, hr, hreceive⟩ : ∃ r : Replica String,
      (exposed fourReplicas 3 none).Reaches System.anyStep (new 3 none) r ∧
      (r.step fourReplicas (.dispatch (decisionOf "x"))).any
        (fun r₁ => decide (r.id = 3 ∧ r₁.executed = [] ∧
          r₁.outbox = [(0, requestOf (blockOf "x"))]) &&
          (r₁.step fourReplicas (.dispatch (answerOf [blockOf "x"]))).any
            fun r₃ => decide (r₃.committed = [blockOf "x", childOf "x" "y"])) = true := by
    refine System.exists_reaches_of_exec
      [.start, .dispatch (childProposal "x" "y"),
        .dispatch (phaseOf .decide (childCertificate "x" "y"))] ?_
    decide +kernel
  obtain ⟨r₁, hr₁, hrest⟩ := Option.any_eq_true _ _ |>.mp hreceive
  obtain ⟨hid, hexecuted, houtbox⟩ := of_decide_eq_true (Bool.and_eq_true_iff.mp hrest).1
  obtain ⟨r₃, hr₃, hcommitted⟩ := Option.any_eq_true _ _ |>.mp (Bool.and_eq_true_iff.mp hrest).2
  obtain ⟨peer, peer', hpath, hpeer', hpeerOut⟩ := exists_answer
  have hroot : (certificateOf .commit 1 "x" [0, 1, 2]).nodeHash.Rooted := by
    unfold Digest.Rooted
    decide +kernel
  have hbranch : ∀ b ∈ (certificateOf .commit 1 "x" [0, 1, 2]).nodeHash.path,
      peer.tree.has b = true := by
    intro b hb
    refine hpath b ?_
    revert b
    decide +kernel
  have hpeer : peer'.outbox = [((r.id : Int), answerOf [blockOf "x"])] := by
    rw [hid]
    exact hpeerOut
  have hsuffix := hall r r₁ r₁ r₃ peer peer' 3 (decisionOf "x") (requestOf (blockOf "x"))
    (answerOf [blockOf "x"]) (certificateOf .commit 1 "x" [0, 1, 2]) hr rfl hacc hroot hr₁
    houtbox rfl hbranch hpeer' hpeer rfl (System.Reaches.refl r₁) hr₃
  have hcommitted' : r₃.committed = [blockOf "x", childOf "x" "y"] :=
    of_decide_eq_true hcommitted
  rw [unexecuted_congr (r := new 3 none) hexecuted, hcommitted'] at hsuffix
  revert hsuffix
  decide +kernel

end Fixture

end Replica
end HotStuff
end DistributedConsensus