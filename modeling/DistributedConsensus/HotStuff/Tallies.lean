import DistributedConsensus.HotStuff.ReplicaSteps
import DistributedConsensus.HotStuff.Replay

/-!
# Basic HotStuff: the vote tally of a leader

The tally files a vote under the signer that it names, and looks the key of the signer
up in the key list, where a negative number counts from the end.  So a replica can be
counted twice, under its own number and under a negative one, and a certificate with a
negative number is not valid.  A tally gives a valid certificate exactly if no voter is
negative (`tally_certifies_iff`).
-/

namespace DistributedConsensus
namespace HotStuff
namespace Replica

open Foundations

variable {Cmd : Type} [Application Cmd]

/-- The votes, the views and the certificates of a replica. -/
structure Counters (Cmd : Type) [Application Cmd] where
  view : Int
  left : List Int
  lockedQc : QC
  prepareQc : QC
  votes : Dict VoteKey (Dict Int (Msg Cmd))
  formed : List VoteKey
  deferred : List (Msg Cmd)

/-- The counters of a replica. -/
def counters (r : Replica Cmd) : Counters Cmd where
  view := r.view
  left := r.left
  lockedQc := r.lockedQc
  prepareQc := r.prepareQc
  votes := r.votes
  formed := r.formed
  deferred := r.deferred

/-- A later view is entered. -/
def Counters.sync (c : Counters Cmd) (view : Int) : Counters Cmd :=
  { c with
    left := (List.range (view - c.view).toNat).map (fun (k : Nat) => c.view + k) ++ c.left
    view := view }

/-- A view is left once. -/
def Counters.leave (c : Counters Cmd) (view : Int) : Counters Cmd :=
  if view ∈ c.left then c else { c with left := c.left.insert view, view := view + 1 }

/-! ## Handlers that keep the counters -/

section Counters

variable {cfg : Config} {r : Replica Cmd}

@[simp] theorem counters_send (dst : Int) (m : Msg Cmd) :
    (r.send dst m).counters = r.counters := rfl

@[simp] theorem counters_broadcast (m : Msg Cmd) :
    (r.broadcast cfg m).counters = r.counters := rfl

@[simp] theorem counters_sendVote (type : MsgType) (view : Int) (node : Node Cmd) :
    (r.sendVote cfg type view node).counters = r.counters := rfl

@[simp] theorem counters_tryPropose (view : Int) :
    (r.tryPropose cfg view).counters = r.counters := by
  obtain ⟨pending, keys, heq | ⟨high, cmd, -, heq⟩⟩ := r.tryPropose_cases cfg view
  · rw [heq]
    rfl
  · rw [heq]
    rfl

@[simp] theorem counters_submit (cmd : Cmd) : (r.submit cfg cmd).counters = r.counters := by
  unfold submit
  split
  case isTrue => rfl
  case isFalse => exact counters_tryPropose r.view

@[simp] theorem counters_onNewView (m : Msg Cmd) :
    (r.onNewView cfg m).counters = r.counters := by
  rcases onNewView_cases cfg r m with heq | heq | ⟨high, -, heq⟩ <;> rw [heq]
  · rfl
  · exact counters_tryPropose (m.viewNumber + 1)

@[simp] theorem counters_onSyncReq (m : Msg Cmd) : (r.onSyncReq m).counters = r.counters := by
  rcases onSyncReq_cases r m with heq | heq | ⟨h, heq⟩ <;> rw [heq]
  · rfl
  · rfl

@[simp] theorem counters_execute (b : Node Cmd) : (r.execute b).counters = r.counters := by
  obtain ⟨sm, committed, executed, keys, replies, heq⟩ := r.execute_cases b
  rw [heq]
  rfl

end Counters

/-! ## What the tally does -/

section Tally

variable {cfg : Config} {r r' : Replica Cmd} {m : Msg Cmd} {rid : Int} {sig : Sig}
  {node : Node Cmd}

/-- A vote is dropped, or it is counted and may complete a quorum. -/
theorem counters_tally (cfg : Config) (r : Replica Cmd) (m : Msg Cmd) :
    ((r.tally cfg m).1 = none ∧ (r.tally cfg m).2.counters = r.counters) ∨
    ∃ rid sig node, Counted cfg r m rid sig node ∧
      (r.tally cfg m).1 = (if cfg.quorum ≤ (r.votesWith m rid node).size then
        some (r.votesWith m rid node).values else none) ∧
      ∃ formed, (r.tally cfg m).2.counters = { r.counters with
        votes := r.votes.set (m.type, m.viewNumber, node.hash) (r.votesWith m rid node)
        formed := formed } := by
  rcases tally_cases cfg r m with heq | heq |
    ⟨rid, sig, node, hcounted, ⟨hquorum, heq⟩ | ⟨hquorum, heq⟩⟩ <;> rw [heq]
  · exact Or.inl ⟨rfl, rfl⟩
  · exact Or.inl ⟨rfl, rfl⟩
  · exact Or.inr ⟨rid, sig, node, hcounted, (if_pos hquorum).symm, _, rfl⟩
  · exact Or.inr ⟨rid, sig, node, hcounted, (if_neg hquorum).symm, _, rfl⟩

/-- Every filed vote names the signer under whom it is filed, is for the node under whose
key it is filed, and its signature is that of the looked-up key. -/
def Tallied (cfg : Config) (c : Counters Cmd) : Prop :=
  ∀ key votes, c.votes.get? key = some votes → ∀ p ∈ votes.entries, ∃ node vk,
    p.2.partialSig = some (p.1, .signed vk p.2.type p.2.viewNumber node.hash) ∧
    p.2.node = some node ∧ (p.2.type, p.2.viewNumber, node.hash) = key ∧
    pyIndex (verifyKeys cfg.n) p.1 = some vk

/-- The filed votes stay well filed. -/
theorem Tallied.votesWith
    (h : Tallied cfg r.counters)
    (hcounted : Counted cfg r m rid sig node)
    {p : Int × Msg Cmd}
    (hp : p ∈ (r.votesWith m rid node).entries) :
    ∃ node' vk, p.2.partialSig = some (p.1, .signed vk p.2.type p.2.viewNumber node'.hash) ∧
      p.2.node = some node' ∧
      (p.2.type, p.2.viewNumber, node'.hash) = (m.type, m.viewNumber, node.hash) ∧
      pyIndex (verifyKeys cfg.n) p.1 = some vk := by
  rcases Dict.mem_entries_set hp with rfl | hold
  · obtain ⟨vk, hvk, rfl⟩ := hcounted.signed
    exact ⟨node, vk, hcounted.partialSig, hcounted.voted, rfl, hvk⟩
  · unfold Dict.getD at hold
    cases hget : r.votes.get? (m.type, m.viewNumber, node.hash) with
    | none => simp [hget, Dict.empty] at hold
    | some votes =>
        rw [hget] at hold
        exact h _ votes hget p hold

theorem Tallied.tally
    (h : Tallied cfg r.counters)
    (m : Msg Cmd) :
    Tallied cfg (r.tally cfg m).2.counters := by
  rcases counters_tally cfg r m with ⟨-, hsame⟩ | ⟨rid, sig, node, hcounted, -, formed, hcounters⟩
  · rw [hsame]
    exact h
  · rw [hcounters]
    intro key votes hget p hp
    rw [Dict.get?_set] at hget
    split at hget
    case isTrue hkey =>
      cases hget
      rw [hkey]
      exact h.votesWith hcounted hp
    case isFalse => exact h key votes hget p hp

/-- The votes of two states are the same. -/
theorem Tallied.of_votes_eq
    {c c' : Counters Cmd}
    (h : Tallied cfg c)
    (hvotes : c'.votes = c.votes) :
    Tallied cfg c' := by
  unfold Tallied
  rw [hvotes]
  exact h

end Tally

/-! ## The other handlers -/

section Handlers

variable {cfg : Config} {r : Replica Cmd} {m : Msg Cmd}

@[simp] theorem counters_advanceFrom (view : Int) :
    (r.advanceFrom cfg view).counters = r.counters.leave view := by
  unfold advanceFrom Counters.leave
  split
  case isTrue h => exact (if_pos h).symm
  case isFalse h => exact (if_neg h).symm

theorem counters_onTimeout (cfg : Config) (r : Replica Cmd) (view : Int) :
    (r.onTimeout cfg view).counters = r.counters ∨
      (view = r.view ∧ (r.onTimeout cfg view).counters = r.counters.leave view) := by
  unfold onTimeout
  split
  case isTrue => exact Or.inl rfl
  case isFalse h =>
    push Not at h
    exact Or.inr ⟨h.2.1, counters_advanceFrom view⟩

theorem counters_onPrepare (cfg : Config) (r : Replica Cmd) (m : Msg Cmd) :
    (r.onPrepare cfg m).counters = r.counters ∨
      (r.onPrepare cfg m).counters = { r.counters with view := max r.view m.viewNumber } := by
  rcases onPrepare_cases cfg r m with heq | heq |
    ⟨node, qc, -, -, -, -, heq | heq | ⟨parent, -, -, -, heq⟩⟩ <;> rw [heq]
  · exact Or.inl rfl
  · exact Or.inl rfl
  · exact Or.inr rfl
  · exact Or.inr rfl
  · exact Or.inr rfl

theorem counters_onPrepareVote (cfg : Config) (r : Replica Cmd) (m : Msg Cmd) :
    (r.onPrepareVote cfg m).counters = (r.tally cfg m).2.counters ∨
      ∃ votes qc, (r.tally cfg m).1 = some votes ∧ buildQc votes cfg.quorum = some qc ∧
        (r.onPrepareVote cfg m).counters =
          { (r.tally cfg m).2.counters with prepareQc := qc } := by
  rcases onPrepareVote_cases cfg r m with heq | heq | ⟨votes, qc, qcs, hsome, hqc, heq⟩ <;>
    rw [heq]
  · exact Or.inl rfl
  · exact Or.inl rfl
  · exact Or.inr ⟨votes, qc, hsome, hqc, rfl⟩

theorem counters_onGenericVote (cfg : Config) (r : Replica Cmd) (m : Msg Cmd) :
    (r.onGenericVote cfg m).counters = (r.tally cfg m).2.counters := by
  rcases onGenericVote_cases cfg r m with heq | heq | ⟨votes, qc, t, qcs, -, -, heq⟩ <;>
    rw [heq] <;> rfl

theorem counters_onPreCommit (cfg : Config) (r : Replica Cmd) (m : Msg Cmd) :
    (r.onPreCommit cfg m).counters = r.counters ∨
      ∃ qc, Accepts cfg m .prepare qc ∧
        (r.onPreCommit cfg m).counters = { r.counters with prepareQc := qc } := by
  rcases onPreCommit_cases cfg r m with heq | ⟨qc, hacc, heq | ⟨node, -, heq⟩⟩ <;> rw [heq]
  · exact Or.inl rfl
  · exact Or.inr ⟨qc, hacc, rfl⟩
  · exact Or.inr ⟨qc, hacc, rfl⟩

theorem counters_onCommit (cfg : Config) (r : Replica Cmd) (m : Msg Cmd) :
    (r.onCommit cfg m).counters = r.counters ∨
      ∃ qc, Accepts cfg m .preCommit qc ∧ r.tree.has qc.nodeHash = true ∧
        (r.onCommit cfg m).counters = { r.counters with lockedQc := qc } := by
  rcases onCommit_cases cfg r m with heq | ⟨qc, node, hacc, hnode, heq⟩ <;> rw [heq]
  · exact Or.inl rfl
  · exact Or.inr ⟨qc, hacc, by simp [Tree.has, hnode], rfl⟩

theorem counters_leaveDecided (cfg : Config) (r : Replica Cmd) (m : Msg Cmd) :
    (r.leaveDecided cfg m).counters = r.counters ∨
      (r.leaveDecided cfg m).counters = r.counters.leave m.viewNumber := by
  unfold leaveDecided
  split
  case isTrue => exact Or.inl rfl
  case isFalse => exact Or.inr (counters_advanceFrom m.viewNumber)

/-- A decision is dropped, kept for later, or its view is left. -/
theorem counters_onDecide (cfg : Config) (r : Replica Cmd) (m : Msg Cmd) :
    (r.onDecide cfg m).counters = r.counters ∨
      ∃ qc, Accepts cfg m .commit qc ∧
        ((r.onDecide cfg m).counters = { r.counters with deferred := r.deferred ++ [m] } ∨
          (r.onDecide cfg m).counters = r.counters.leave m.viewNumber) := by
  rcases onDecide_cases cfg r m with heq | ⟨qc, hacc, ⟨h, heq⟩ | heq | ⟨b, -, -, heq⟩⟩ <;> rw [heq]
  · exact Or.inl rfl
  · exact Or.inr ⟨qc, hacc, Or.inl rfl⟩
  · exact (counters_leaveDecided cfg r m).imp_right fun h => ⟨qc, hacc, Or.inr h⟩
  · have hleave := counters_leaveDecided cfg (r.execute b) m
    rw [counters_execute] at hleave
    exact hleave.imp_right fun h => ⟨qc, hacc, Or.inr h⟩

/-- The kept decisions are taken up again. -/
theorem counters_onSyncResp (cfg : Config) (r : Replica Cmd) (m : Msg Cmd) :
    (r.onSyncResp cfg m).counters = r.counters ∨
      ∃ s : Replica Cmd, s.counters = { r.counters with deferred := [] } ∧
        r.onSyncResp cfg m = r.deferred.foldl (onDecide cfg) s := by
  rcases onSyncResp_cases cfg r m with heq | ⟨chain, -, heq⟩
  · rw [heq]
    exact Or.inl rfl
  · exact Or.inr ⟨_, rfl, heq⟩

end Handlers

/-! ## The votes of a reachable replica -/

section Runs

variable {cfg : Config} {id : Nat} {sm : Option (Application.State Cmd)} {r r' : Replica Cmd}
  {m : Msg Cmd}

theorem Tallied.onDecide
    (h : Tallied cfg r.counters)
    (m : Msg Cmd) :
    Tallied cfg (r.onDecide cfg m).counters := by
  refine h.of_votes_eq ?_
  rcases counters_onDecide cfg r m with heq | ⟨qc, -, heq | heq⟩
  · rw [heq]
  · rw [heq]
  · rw [heq]
    unfold Counters.leave
    split <;> rfl

theorem Tallied.foldl_onDecide
    (h : Tallied cfg r.counters)
    (ms : List (Msg Cmd)) :
    Tallied cfg (ms.foldl (Replica.onDecide cfg) r).counters := by
  induction ms generalizing r with
  | nil => exact h
  | cons m ms ih => exact ih (h.onDecide m)

theorem Tallied.handled
    (h : Tallied cfg r.counters)
    (hhandled : Handled cfg r m r') :
    Tallied cfg r'.counters := by
  cases hhandled with
  | newView => simpa using h
  | prepareVote =>
      rcases counters_onPrepareVote cfg r m with heq | ⟨votes, qc, -, -, heq⟩
      · rw [heq]
        exact h.tally m
      · rw [heq]
        exact (h.tally m).of_votes_eq rfl
  | prepare =>
      rcases counters_onPrepare cfg r m with heq | heq <;> rw [heq] <;> exact h
  | genericVote =>
      rw [counters_onGenericVote]
      exact h.tally m
  | preCommit =>
      rcases counters_onPreCommit cfg r m with heq | ⟨qc, -, heq⟩ <;> rw [heq] <;> exact h
  | commit =>
      rcases counters_onCommit cfg r m with heq | ⟨qc, -, -, heq⟩ <;> rw [heq] <;> exact h
  | decide => exact h.onDecide m
  | syncReq => simpa using h
  | syncResp =>
      rcases counters_onSyncResp cfg r m with heq | ⟨s, hs, heq⟩
      · rw [heq]
        exact h
      · rw [heq]
        refine foldl_onDecide ?_ _
        rw [hs]
        exact h
  | ignored => exact h

theorem Tallied.step
    {i : Input Cmd}
    (h : Tallied cfg r.counters)
    (hstep : r.step cfg i = some r') :
    Tallied cfg r'.counters := by
  have hclear : Tallied cfg ({ r with outbox := [], replies := [] } : Replica Cmd).counters := h
  cases occurs_of_step hstep with
  | start =>
      refine h.of_votes_eq ?_
      rw [counters_advanceFrom]
      unfold Counters.leave
      split <;> rfl
  | dispatch m =>
      obtain ⟨s, hs, -, hhandled⟩ :=
        dispatch_handled cfg { r with outbox := [], replies := [] } m
      refine handled ?_ hhandled
      rcases hs with rfl | ⟨-, rfl⟩
      · exact hclear
      · exact hclear
  | submit cmd =>
      rw [counters_submit]
      exact hclear
  | timeout view =>
      refine h.of_votes_eq ?_
      rcases counters_onTimeout cfg
          ({ r with outbox := [], replies := [], timer := none } : Replica Cmd) view with
        heq | ⟨-, heq⟩
      · exact congrArg Counters.votes heq
      · refine (congrArg Counters.votes heq).trans ?_
        unfold Counters.leave
        split <;> rfl
  | stop => exact hclear

theorem tallied_of_reachable
    (h : (exposed cfg id sm).Reachable System.anyStep r) :
    Tallied cfg r.counters := by
  refine System.Reachable.invariant (I := fun r => Tallied cfg r.counters) ?_ ?_ h
  · intro key votes hget
    cases hget
  · intro r i r' _ hinv _ hstep
    exact hinv.step hstep

end Runs

/-! ## Certificates of counted votes -/

section Certificates

variable {cfg : Config} {r : Replica Cmd} {m : Msg Cmd} {rid : Int} {sig : Sig}
  {node : Node Cmd} {votes : List (Msg Cmd)} {qc : QC}

/-- The numbers under which the votes for the node of a vote are filed, with the vote. -/
def voters (r : Replica Cmd) (m : Msg Cmd) : List Int :=
  match m.partialSig, m.node with
  | some (rid, _), some node => (r.votesWith m rid node).keys
  | _, _ => []

/-- The votes give a valid certificate for the node of the vote. -/
def Certifies (cfg : Config) (m : Msg Cmd) (votes : List (Msg Cmd)) : Prop :=
  ∃ qc node, buildQc votes cfg.quorum = some qc ∧
    verifyQc qc (verifyKeys cfg.n) cfg.quorum = true ∧
    m.node = some node ∧ (qc.type, qc.viewNumber, qc.nodeHash) = (m.type, m.viewNumber, node.hash)

omit [Application Cmd] in
/-- Filed votes carry one signature for each number. -/
theorem exists_sigs
    {entries : List (Int × Msg Cmd)}
    (h : ∀ p ∈ entries, ∃ sig, p.2.partialSig = some (p.1, sig)) :
    ∃ sigs : List (Int × Sig),
      (entries.map Prod.snd).map Msg.partialSig = sigs.map some ∧
      sigs.map Prod.fst = entries.map Prod.fst := by
  induction entries with
  | nil => exact ⟨[], rfl, rfl⟩
  | cons p entries ih =>
      obtain ⟨sig, hsig⟩ := h p List.mem_cons_self
      obtain ⟨sigs, hsome, hfst⟩ := ih fun q hq => h q (List.mem_cons_of_mem _ hq)
      exact ⟨(p.1, sig) :: sigs, by simp [hsig, hsome], by simp [hfst]⟩

omit [Application Cmd] in
/-- A certificate whose first signer is negative is not valid. -/
theorem verifyQc_eq_false_of_neg
    {p : Int × Sig} {rest : List (Int × Sig)}
    (n quorum : Nat)
    (hsigs : qc.sigs = p :: rest)
    (hneg : p.1 < 0) :
    verifyQc qc (verifyKeys n) quorum = false := by
  obtain ⟨rid, sig⟩ := p
  have hguard : rid ∈ ([] : List Int) ∨ ¬ (0 ≤ rid ∧ rid < (verifyKeys n).length) :=
    Or.inr fun hrange => absurd hrange.1 (by simpa using hneg)
  unfold verifyQc
  rw [hsigs, verifyQcLoop, if_pos hguard]

theorem sigs_of_buildQc
    {quorum : Nat}
    (hqc : buildQc votes quorum = some qc) :
    qc.sigs = ((bySigner votes []).insertionSort (fun a b => a.1 ≤ b.1)).take quorum := by
  cases votes with
  | nil => cases hqc
  | cons v vs =>
      simp only [buildQc, Option.some.injEq] at hqc
      rw [← hqc]

/-- A certificate takes the smallest numbers first. -/
theorem verifyQc_eq_false_of_mem_neg
    {sigs : List (Int × Sig)}
    (hsigs : votes.map Msg.partialSig = sigs.map some)
    (hnodup : (sigs.map Prod.fst).Nodup)
    (hqc : buildQc votes cfg.quorum = some qc)
    (hquorum : cfg.quorum ≠ 0)
    {rid : Int}
    (hmem : rid ∈ sigs.map Prod.fst)
    (hneg : rid < 0) :
    verifyQc qc (verifyKeys cfg.n) cfg.quorum = false := by
  have hcollected : bySigner votes [] = sigs :=
    bySigner_eq_append hsigs (by simpa using hnodup)
  have hqcsigs := sigs_of_buildQc hqc
  rw [hcollected] at hqcsigs
  obtain ⟨p, hp, rfl⟩ := List.mem_map.mp hmem
  obtain ⟨quorum, hsucc⟩ := Nat.exists_eq_succ_of_ne_zero hquorum
  cases hsort : sigs.insertionSort (fun a b => a.1 ≤ b.1) with
  | nil =>
      rw [← List.mem_insertionSort (fun a b : Int × Sig => a.1 ≤ b.1), hsort] at hp
      cases hp
  | cons first rest =>
      have hfirst : first.1 ≤ p.1 := by
        have hsorted := List.pairwise_insertionSort (fun a b : Int × Sig => a.1 ≤ b.1) sigs
        rw [← List.mem_insertionSort (fun a b : Int × Sig => a.1 ≤ b.1), hsort] at hp
        rw [hsort, List.pairwise_cons] at hsorted
        rcases List.mem_cons.mp hp with rfl | hp
        · exact le_refl _
        · exact hsorted.1 p hp
      rw [hsort, hsucc, List.take_succ_cons] at hqcsigs
      exact verifyQc_eq_false_of_neg _ _ hqcsigs (by omega)

/-- The votes of a completed tally. -/
theorem tally_eq_some
    (h : (r.tally cfg m).1 = some votes) :
    ∃ rid sig node, Counted cfg r m rid sig node ∧
      cfg.quorum ≤ (r.votesWith m rid node).size ∧ votes = (r.votesWith m rid node).values := by
  rcases counters_tally cfg r m with ⟨hnone, -⟩ | ⟨rid, sig, node, hcounted, hresult, -⟩
  · rw [hnone] at h
    cases h
  · rw [hresult, Option.ite_none_right_eq_some, Option.some.injEq] at h
    exact ⟨rid, sig, node, hcounted, h.1, h.2.symm⟩

/-- The certificate of a completed tally is for the node of the vote. -/
theorem Tallied.buildQc_spec
    (htallied : Tallied cfg r.counters)
    (hcounted : Counted cfg r m rid sig node)
    (hqc : buildQc (r.votesWith m rid node).values cfg.quorum = some qc) :
    (qc.type, qc.viewNumber, qc.nodeHash) = (m.type, m.viewNumber, node.hash) := by
  cases hvalues : (r.votesWith m rid node).values with
  | nil =>
      rw [hvalues] at hqc
      cases hqc
  | cons v vs =>
      have hmem : v ∈ (r.votesWith m rid node).values := by
        rw [hvalues]
        exact List.mem_cons_self
      obtain ⟨p, hp, rfl⟩ := List.mem_map.mp hmem
      obtain ⟨node', vk, -, hnode, hkey, -⟩ := htallied.votesWith hcounted hp
      rw [hvalues] at hqc
      simp only [buildQc, hnode, Option.map_some, Option.getD_some, Option.some.injEq] at hqc
      rw [← hqc, ← hkey]

/-- The signatures of the votes of a completed tally. -/
theorem Tallied.exists_sigs
    (htallied : Tallied cfg r.counters)
    (hcounted : Counted cfg r m rid sig node) :
    ∃ sigs : List (Int × Sig),
      (r.votesWith m rid node).values.map Msg.partialSig = sigs.map some ∧
      sigs.map Prod.fst = r.voters m ∧ (sigs.map Prod.fst).Nodup := by
  obtain ⟨sigs, hsigs, hfst⟩ := Replica.exists_sigs fun p hp => by
    obtain ⟨node', vk, hsig, -⟩ := htallied.votesWith hcounted hp
    exact ⟨_, hsig⟩
  refine ⟨sigs, hsigs, ?_, ?_⟩
  · unfold voters
    rw [hcounted.partialSig, hcounted.voted, hfst]
    rfl
  · rw [hfst]
    exact (r.votesWith m rid node).nodup

/-- A valid certificate has no negative voter. -/
theorem Tallied.nonneg_of_certifies
    (htallied : Tallied cfg r.counters)
    (h : (r.tally cfg m).1 = some votes)
    (hcertifies : Certifies cfg m votes)
    (hquorum : cfg.quorum ≠ 0) :
    ∀ rid ∈ r.voters m, 0 ≤ rid := by
  obtain ⟨rid, sig, node, hcounted, -, rfl⟩ := tally_eq_some h
  obtain ⟨sigs, hsigs, hvoters, hnodup⟩ := htallied.exists_sigs hcounted
  obtain ⟨qc, -, hqc, hvalid, -⟩ := hcertifies
  intro rid' hmem
  by_contra hneg
  rw [← hvoters] at hmem
  rw [verifyQc_eq_false_of_mem_neg hsigs hnodup hqc hquorum hmem (by omega)] at hvalid
  cases hvalid

/-- **Certificates of the tally.**  Whenever the tally of a reachable replica returns
votes, they give a valid certificate for the type, the view and the node of the vote
exactly if every voter has a number that is not negative, or no vote is needed. -/
theorem tally_certifies_iff
    {id : Nat} {sm : Option (Application.State Cmd)}
    (hreach : (exposed cfg id sm).Reachable System.anyStep r)
    (h : (r.tally cfg m).1 = some votes) :
    Certifies cfg m votes ↔ cfg.quorum = 0 ∨ ∀ rid ∈ r.voters m, 0 ≤ rid := by
  have htallied := tallied_of_reachable hreach
  constructor
  · intro hcertifies
    by_cases hquorum : cfg.quorum = 0
    · exact Or.inl hquorum
    · exact Or.inr (htallied.nonneg_of_certifies h hcertifies hquorum)
  · intro hvalid
    obtain ⟨rid, sig, node, hcounted, hquorum, rfl⟩ := tally_eq_some h
    obtain ⟨sigs, hsigs, hvoters, hnodup⟩ := htallied.exists_sigs hcounted
    obtain ⟨qc, hqc⟩ : ∃ qc, buildQc (r.votesWith m rid node).values cfg.quorum = some qc := by
      cases hvalues : (r.votesWith m rid node).values with
      | nil =>
          have hmem : m ∈ (r.votesWith m rid node).values := by
            refine Dict.mem_values_of_get? (k := rid) ?_
            unfold votesWith
            rw [Dict.get?_set, if_pos rfl]
          rw [hvalues] at hmem
          cases hmem
      | cons v vs => exact ⟨_, rfl⟩
    refine ⟨qc, node, hqc, ?_, hcounted.voted, htallied.buildQc_spec hcounted hqc⟩
    rcases hvalid with hzero | hnonneg
    · have hnil : qc.sigs = [] := by rw [sigs_of_buildQc hqc, hzero, List.take_zero]
      simp [verifyQc, hnil, verifyQcLoop, hzero]
    · refine verifyQc_of_buildQc m.type m.viewNumber node.hash sigs hqc ?_ hsigs ?_ hnodup ?_
      · intro v hv
        obtain ⟨p, hp, rfl⟩ := List.mem_map.mp hv
        obtain ⟨node', vk, -, hnode, hkey, -⟩ := htallied.votesWith hcounted hp
        simp only [Prod.mk.injEq] at hkey
        exact ⟨hkey.1, hkey.2.1, by rw [hnode, Option.map_some, hkey.2.2]⟩
      · intro q hq
        have hsome : some q ∈ (r.votesWith m rid node).values.map Msg.partialSig := by
          rw [hsigs]
          exact List.mem_map_of_mem hq
        obtain ⟨v, hv, hqv⟩ := List.mem_map.mp hsome
        obtain ⟨p, hp, rfl⟩ := List.mem_map.mp hv
        obtain ⟨node', vk, hsig, hnode, hkey, hvk⟩ := htallied.votesWith hcounted hp
        rw [hsig, Option.some.injEq] at hqv
        have hp0 : 0 ≤ p.1 := by
          refine hnonneg p.1 ?_
          rw [← hvoters, ← show q.1 = p.1 from congrArg Prod.fst hqv.symm]
          exact List.mem_map_of_mem hq
        obtain ⟨hrid, hlt⟩ := pyIndex_verifyKeys hp0 hvk
        simp only [Prod.mk.injEq] at hkey
        refine ⟨vk, hlt, ?_⟩
        rw [← hqv, hrid, hkey.1, hkey.2.1, hkey.2.2]
      · rw [Dict.length_values]
        exact hquorum

end Certificates

/-- A PREPARE vote that is signed by the key at a place of the key list. -/
def prepareVoteOf (rid : Int) (vk : Nat) : Msg String where
  type := .prepare
  viewNumber := 1
  sender := rid
  node := some (blockOf "x")
  justify := none
  partialSig := some (rid, signVote vk .prepare 1 (blockOf "x").hash)
  payload := .none

/-- The votes of replicas 0, 1 and 2 give a valid certificate. -/
theorem tally_certifies_iff_sample :
    ∃ r : Replica String, (exposed fourReplicas 0 none).Reachable System.anyStep r ∧
      ∃ votes, (r.tally fourReplicas (prepareVoteOf 2 2)).1 = some votes ∧
        Certifies fourReplicas (prepareVoteOf 2 2) votes := by
  obtain ⟨r, hreach, hvotes, hvoters⟩ : ∃ r : Replica String,
      (exposed fourReplicas 0 none).Reaches System.anyStep (new 0 none) r ∧
      (r.tally fourReplicas (prepareVoteOf 2 2)).1 ≠ none ∧
      r.voters (prepareVoteOf 2 2) = [0, 1, 2] := by
    refine System.exists_reaches_of_exec
      [.start, .dispatch (prepareVoteOf 0 0), .dispatch (prepareVoteOf 1 1)] ?_
    decide +kernel
  obtain ⟨votes, hvotes⟩ := Option.ne_none_iff_exists'.mp hvotes
  refine ⟨r, hreach, votes, hvotes, (tally_certifies_iff hreach hvotes).mpr (Or.inr ?_)⟩
  rw [hvoters]
  decide

/-- Replica 3 votes under the number -1; its vote completes a quorum whose certificate is
not valid. -/
theorem tally_not_certified :
    ∃ (r : Replica String) (m : Msg String) (votes : List (Msg String)),
      (exposed fourReplicas 0 none).Reachable System.anyStep r ∧
      (r.tally fourReplicas m).1 = some votes ∧ ¬ Certifies fourReplicas m votes := by
  obtain ⟨r, hreach, hvotes, hvoters⟩ : ∃ r : Replica String,
      (exposed fourReplicas 0 none).Reaches System.anyStep (new 0 none) r ∧
      (r.tally fourReplicas (prepareVoteOf 1 1)).1 ≠ none ∧
      r.voters (prepareVoteOf 1 1) = [-1, 0, 1] := by
    refine System.exists_reaches_of_exec
      [.start, .dispatch (prepareVoteOf (-1) 3), .dispatch (prepareVoteOf 0 0)] ?_
    decide +kernel
  obtain ⟨votes, hvotes⟩ := Option.ne_none_iff_exists'.mp hvotes
  refine ⟨r, prepareVoteOf 1 1, votes, hreach, hvotes, fun hcertifies => ?_⟩
  have hnonneg := (tallied_of_reachable hreach).nonneg_of_certifies hvotes hcertifies (by decide)
    (-1) (by simp [hvoters])
  omega

end Replica
end HotStuff
end DistributedConsensus
