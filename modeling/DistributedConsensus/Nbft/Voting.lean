import DistributedConsensus.Foundations.Dict
import DistributedConsensus.Nbft.HashRing
import DistributedConsensus.Nbft.Message
import Mathlib.Algebra.BigOperators.Group.Finset.Basic
import Mathlib.Algebra.GroupWithZero.Nat
import Mathlib.Algebra.Order.BigOperators.Group.Finset

/-!
# NBFT: the threshold vote-counting model

A representative's aggregate with at least `m - E` valid signatures counts as the full
`m` votes of its group; otherwise the group has as many votes as distinct valid
signers were seen.  An ungrouped replica has one vote.  The proof that is sent on
carries one signature of every signer.

In every group the votes exceed the signers by at most the factor `m / (m - E)`, and
the roles are disjoint: with `(R - w) m` votes there are `(R - w)(m - E)` signers.
-/

namespace DistributedConsensus
namespace Nbft

open Foundations

structure VoteLedger where
  params : ConsensusParams
  membership : Membership
  /-- The best aggregate of a group seen from its representative. -/
  aggregateBest : Dict (ℕ × String) ℕ := Dict.empty
  /-- The members whose valid signature was seen. -/
  groupSigners : Dict (ℕ × String) (List String) := Dict.empty
  ungroupedVotes : Dict String (List String) := Dict.empty

namespace VoteLedger

/-- The members of the group that signed; a group that does not exist raises. -/
def validGroupSigners (l : VoteLedger) (group : ℕ) (digest : String) (signatures : List String) :
    Option (List String) :=
  (l.membership.groups[group]?).map fun members =>
    ((signatures.filter fun sig => sigValid sig digest && decide (sigSigner sig ∈ members)).map
      sigSigner).dedup

def addSigners (l : VoteLedger) (group : ℕ) (digest : String) (signers : List String) :
    VoteLedger :=
  { l with groupSigners :=
      l.groupSigners.set (group, digest) (l.groupSigners.getD (group, digest) [] ∪ signers) }

/-- Aggregate forwarded by the representative of `group`, with the number of its
valid signatures. -/
def addGroupAggregate (l : VoteLedger) (group : ℕ) (digest : String) (signatures : List String) :
    Option (VoteLedger × ℕ) :=
  (l.validGroupSigners group digest signatures).map fun signers =>
    let l := l.addSigners group digest signers
    let f := signers.length
    let best := max (l.aggregateBest.getD (group, digest) 0) f
    ({ l with aggregateBest := l.aggregateBest.set (group, digest) best }, f)

/-- Broadcast of a member that blocked its representative. -/
def addGroupIndividual (l : VoteLedger) (group : ℕ) (digest : String)
    (signatures : List String) : Option VoteLedger :=
  (l.validGroupSigners group digest signatures).map fun signers => l.addSigners group digest signers

def addUngrouped (l : VoteLedger) (nodeId digest : String) (signatures : List String) :
    VoteLedger :=
  if signatures.any fun sig => sigValid sig digest && decide (sigSigner sig = nodeId) then
    { l with ungroupedVotes :=
        l.ungroupedVotes.set digest ((l.ungroupedVotes.getD digest []).insert nodeId) }
  else l

def groupVotes (l : VoteLedger) (group : ℕ) (digest : String) : ℕ :=
  if l.params.fullVoteQuorum ≤ l.aggregateBest.getD (group, digest) 0 then l.params.m
  else (l.groupSigners.getD (group, digest) []).length

def votesFor (l : VoteLedger) (digest : String) : ℕ :=
  ((List.range l.membership.groups.length).map fun g => l.groupVotes g digest).sum +
    (l.ungroupedVotes.getD digest []).length

def thresholdMet (l : VoteLedger) (digest : String) : Bool :=
  decide (l.params.voteThreshold ≤ l.votesFor digest)

/-- Everybody whose signature of `digest` was seen. -/
def proofSigners (l : VoteLedger) (digest : String) : List String :=
  l.groupSigners.entries.foldl
    (fun signers e => if e.1.2 = digest then signers ∪ e.2 else signers) [] ∪
    l.ungroupedVotes.getD digest []

/-- All collected valid signatures consistent with `digest`. -/
def proofSignatures (l : VoteLedger) (digest : String) : List String :=
  ((l.proofSigners digest).map fun nid => sign nid digest).insertionSort (· ≤ ·)

/-! ## What the ledger knows -/

/-- A call of one of the three counting functions. -/
inductive Call
  | addGroupAggregate (group : ℕ) (digest : String) (signatures : List String)
  | addGroupIndividual (group : ℕ) (digest : String) (signatures : List String)
  | addUngrouped (nodeId digest : String) (signatures : List String)

/-- The ledger after a call; a call that raises changes nothing. -/
def perform (l : VoteLedger) : Call → VoteLedger
  | .addGroupAggregate group digest signatures =>
      ((l.addGroupAggregate group digest signatures).map Prod.fst).getD l
  | .addGroupIndividual group digest signatures =>
      (l.addGroupIndividual group digest signatures).getD l
  | .addUngrouped nodeId digest signatures => l.addUngrouped nodeId digest signatures

/-- The signers are counted under their own role, each once. -/
structure Sound (l : VoteLedger) : Prop where
  signers_nodup : ∀ k, (l.groupSigners.getD k []).Nodup
  signer_mem : ∀ g d, ∀ nid ∈ l.groupSigners.getD (g, d) [],
    ∃ members, l.membership.groups[g]? = some members ∧ nid ∈ members
  best_le : ∀ k, l.aggregateBest.getD k 0 ≤ (l.groupSigners.getD k []).length
  ungrouped_nodup : ∀ d, (l.ungroupedVotes.getD d []).Nodup
  ungrouped_mem : ∀ d, ∀ nid ∈ l.ungroupedVotes.getD d [], nid ∈ l.membership.ungrouped

/-- The caller checks the role of an ungrouped replica. -/
def Call.IsUngrouped (ms : Membership) : Call → Prop
  | .addUngrouped nodeId _ _ => nodeId ∈ ms.ungrouped
  | _ => True

variable {l : VoteLedger}

/-- No call changes the parameters or the roles. -/
theorem perform_frame (l : VoteLedger) (c : Call) :
    (l.perform c).params = l.params ∧ (l.perform c).membership = l.membership := by
  cases c with
  | addGroupAggregate group digest signatures =>
      cases h : l.validGroupSigners group digest signatures <;>
        simp [perform, addGroupAggregate, addSigners, h]
  | addGroupIndividual group digest signatures =>
      cases h : l.validGroupSigners group digest signatures <;>
        simp [perform, addGroupIndividual, addSigners, h]
  | addUngrouped nodeId digest signatures =>
      simp only [perform, addUngrouped]
      split <;> exact ⟨rfl, rfl⟩

theorem validGroupSigners_spec
    {group : ℕ} {digest : String} {signatures signers : List String}
    (h : l.validGroupSigners group digest signatures = some signers) :
    signers.Nodup ∧ ∀ nid ∈ signers, ∃ members, l.membership.groups[group]? = some members ∧
      nid ∈ members := by
  obtain ⟨members, hmembers, rfl⟩ := Option.map_eq_some_iff.mp h
  refine ⟨List.nodup_dedup _, ?_⟩
  intro nid hnid
  obtain ⟨sig, hsig, rfl⟩ := List.mem_map.mp (List.mem_dedup.mp hnid)
  rw [List.mem_filter, Bool.and_eq_true, decide_eq_true_eq] at hsig
  exact ⟨members, hmembers, hsig.2.2⟩

theorem length_le_union
    {signers more : List String}
    (h : signers.Nodup) :
    signers.length ≤ (signers ∪ more).length := by
  refine (h.subperm ?_).length_le
  intro nid hnid
  exact List.mem_union_iff.mpr (Or.inl hnid)

theorem Sound.addSigners
    {group : ℕ} {digest : String} {signers : List String}
    (h : l.Sound)
    (hnodup : signers.Nodup)
    (hmem : ∀ nid ∈ signers, ∃ members, l.membership.groups[group]? = some members ∧
      nid ∈ members) :
    (l.addSigners group digest signers).Sound where
  signers_nodup := by
    intro k
    simp only [VoteLedger.addSigners, Dict.getD_set]
    split
    · exact List.Nodup.union _ hnodup
    · exact h.signers_nodup k
  signer_mem := by
    intro g d nid hnid
    simp only [VoteLedger.addSigners, Dict.getD_set] at hnid
    split at hnid
    case isTrue heq =>
      obtain ⟨rfl, rfl⟩ := Prod.mk.inj heq
      rcases List.mem_union_iff.mp hnid with hold | hnew
      · exact h.signer_mem _ _ nid hold
      · exact hmem nid hnew
    case isFalse => exact h.signer_mem g d nid hnid
  best_le := by
    intro k
    simp only [VoteLedger.addSigners, Dict.getD_set]
    split
    case isTrue heq =>
      subst heq
      exact (h.best_le _).trans (length_le_union (h.signers_nodup _))
    case isFalse => exact h.best_le k
  ungrouped_nodup := h.ungrouped_nodup
  ungrouped_mem := h.ungrouped_mem

/-- A call keeps the ledger sound. -/
theorem Sound.perform
    {c : Call}
    (h : l.Sound)
    (hc : c.IsUngrouped l.membership) :
    (l.perform c).Sound := by
  cases c with
  | addGroupAggregate group digest signatures =>
      cases hvalid : l.validGroupSigners group digest signatures with
      | none => simpa [VoteLedger.perform, addGroupAggregate, hvalid] using h
      | some signers =>
          obtain ⟨hnodup, hmem⟩ := validGroupSigners_spec hvalid
          have hsigners := @Sound.addSigners l group digest signers h hnodup hmem
          simp only [VoteLedger.perform, addGroupAggregate, hvalid, Option.map_some,
            Option.getD_some]
          refine ⟨hsigners.signers_nodup, hsigners.signer_mem, ?_, hsigners.ungrouped_nodup,
            hsigners.ungrouped_mem⟩
          intro k
          rw [Dict.getD_set]
          split
          case isTrue heq =>
            subst heq
            refine max_le (hsigners.best_le _) ?_
            simp only [VoteLedger.addSigners, Dict.getD_set, if_true]
            refine (hnodup.subperm ?_).length_le
            exact fun nid hnid => List.mem_union_iff.mpr (Or.inr hnid)
          case isFalse => exact hsigners.best_le k
  | addGroupIndividual group digest signatures =>
      cases hvalid : l.validGroupSigners group digest signatures with
      | none => simpa [VoteLedger.perform, addGroupIndividual, hvalid] using h
      | some signers =>
          obtain ⟨hnodup, hmem⟩ := validGroupSigners_spec hvalid
          simpa [VoteLedger.perform, addGroupIndividual, hvalid] using h.addSigners hnodup hmem
  | addUngrouped nodeId digest signatures =>
      simp only [VoteLedger.perform, addUngrouped]
      split
      case isFalse => exact h
      refine ⟨h.signers_nodup, h.signer_mem, h.best_le, ?_, ?_⟩
      · intro d
        rw [Dict.getD_set]
        split
        · exact (h.ungrouped_nodup digest).insert
        · exact h.ungrouped_nodup d
      · intro d nid hnid
        rw [Dict.getD_set] at hnid
        split at hnid
        · rcases List.mem_insert_iff.mp hnid with rfl | hold
          · exact hc
          · exact h.ungrouped_mem digest nid hold
        · exact h.ungrouped_mem d nid hnid

/-- A new ledger. -/
theorem sound_new (p : ConsensusParams) (ms : Membership) :
    (VoteLedger.mk p ms Dict.empty Dict.empty Dict.empty).Sound where
  signers_nodup := fun _ => List.nodup_nil
  signer_mem := nofun
  best_le := fun _ => le_refl 0
  ungrouped_nodup := fun _ => List.nodup_nil
  ungrouped_mem := nofun

/-- A ledger after any calls. -/
theorem Sound.foldl
    {calls : List Call}
    (h : l.Sound)
    (hcalls : ∀ c ∈ calls, c.IsUngrouped l.membership) :
    (calls.foldl VoteLedger.perform l).Sound ∧
      (calls.foldl VoteLedger.perform l).params = l.params ∧
      (calls.foldl VoteLedger.perform l).membership = l.membership := by
  induction calls generalizing l with
  | nil => exact ⟨h, rfl, rfl⟩
  | cons c calls ih =>
      have hrest : ∀ c' ∈ calls, c'.IsUngrouped (l.perform c).membership := by
        intro c' hc'
        rw [(perform_frame l c).2]
        exact hcalls c' (List.mem_cons_of_mem _ hc')
      obtain ⟨hsound, hparams, hmembership⟩ := ih (h.perform (hcalls c List.mem_cons_self)) hrest
      obtain ⟨hparams', hmembership'⟩ := perform_frame l c
      exact ⟨hsound, hparams.trans hparams', hmembership.trans hmembership'⟩

/-! ## Votes and signers -/

theorem mem_proofSigners
    {digest nid : String} :
    nid ∈ l.proofSigners digest ↔
      (∃ g, nid ∈ l.groupSigners.getD (g, digest) []) ∨
        nid ∈ l.ungroupedVotes.getD digest [] := by
  have hfold : ∀ (entries : List ((ℕ × String) × List String)) (seen : List String),
      nid ∈ entries.foldl
          (fun signers e => if e.1.2 = digest then signers ∪ e.2 else signers) seen ↔
        nid ∈ seen ∨ ∃ e ∈ entries, e.1.2 = digest ∧ nid ∈ e.2 := by
    intro entries
    induction entries with
    | nil => simp
    | cons e entries ih =>
        intro seen
        rw [List.foldl_cons, ih]
        by_cases hdigest : e.1.2 = digest
        · simp [hdigest, or_assoc]
        · simp [hdigest]
  have hread : (∃ e ∈ l.groupSigners.entries, e.1.2 = digest ∧ nid ∈ e.2) ↔
      ∃ g, nid ∈ l.groupSigners.getD (g, digest) [] := by
    constructor
    · rintro ⟨⟨⟨g, d⟩, signers⟩, he, rfl, hnid⟩
      refine ⟨g, ?_⟩
      rw [Dict.getD, Dict.get?_of_mem_entries he]
      exact hnid
    · rintro ⟨g, hnid⟩
      cases hget : l.groupSigners.get? (g, digest) with
      | none =>
          rw [Dict.getD, hget] at hnid
          exact absurd hnid List.not_mem_nil
      | some signers =>
          rw [Dict.getD, hget] at hnid
          exact ⟨_, Dict.mem_entries_of_get? hget, rfl, hnid⟩
  unfold proofSigners
  rw [List.mem_union_iff, hfold, hread]
  simp

/-- The votes of a group and its signers. -/
theorem Sound.groupVotes_mul_le
    (h : l.Sound)
    (g : ℕ)
    (digest : String) :
    l.groupVotes g digest * l.params.fullVoteQuorum
      ≤ l.params.m * (l.groupSigners.getD (g, digest) []).length := by
  have hbest := h.best_le (g, digest)
  unfold groupVotes
  split
  case isTrue hfull => exact Nat.mul_le_mul_left _ (hfull.trans hbest)
  case isFalse =>
    rw [Nat.mul_comm]
    exact Nat.mul_le_mul_right _ l.params.fullVoteQuorum_le_m

/-- The signers of the groups and the ungrouped signers, one after the other. -/
def countedSigners (l : VoteLedger) (digest : String) : List String :=
  ((List.range l.membership.groups.length).flatMap fun g =>
    l.groupSigners.getD (g, digest) []) ++ l.ungroupedVotes.getD digest []

theorem countedSigners_subset
    {digest : String} :
    l.countedSigners digest ⊆ l.proofSigners digest := by
  intro nid hnid
  rw [mem_proofSigners]
  rcases List.mem_append.mp hnid with hgroup | hungrouped
  · obtain ⟨g, -, hg⟩ := List.mem_flatMap.mp hgroup
    exact Or.inl ⟨g, hg⟩
  · exact Or.inr hungrouped

/-- No signer is counted in two roles. -/
theorem Sound.nodup_countedSigners
    {ids : List String} {m r : ℕ}
    (h : l.Sound)
    (hids : ids.Nodup)
    (hpartition : l.membership.Partitions ids m r)
    (digest : String) :
    (l.countedSigners digest).Nodup := by
  have hall := hpartition.allNodes_perm.nodup_iff.mpr hids
  rw [Membership.allNodes, List.nodup_cons, List.nodup_append, List.nodup_flatten] at hall
  obtain ⟨-, ⟨-, hgroups⟩, -, hungrouped⟩ := hall
  rw [countedSigners, List.nodup_append, List.nodup_flatMap]
  refine ⟨⟨fun g _ => h.signers_nodup _, ?_⟩, h.ungrouped_nodup digest, ?_⟩
  · refine List.pairwise_lt_range.imp ?_
    intro g g' hlt nid hnid hnid'
    obtain ⟨members, hg, hmem⟩ := h.signer_mem _ _ nid hnid
    obtain ⟨members', hg', hmem'⟩ := h.signer_mem _ _ nid hnid'
    obtain ⟨hb, rfl⟩ := List.getElem?_eq_some_iff.mp hg
    obtain ⟨hb', rfl⟩ := List.getElem?_eq_some_iff.mp hg'
    exact List.pairwise_iff_getElem.mp hgroups g g' hb hb' hlt hmem hmem'
  · intro nid hnid nid' hnid' heq
    subst heq
    obtain ⟨g, -, hg⟩ := List.mem_flatMap.mp hnid
    obtain ⟨members, hmembers, hmem⟩ := h.signer_mem _ _ nid hg
    refine hungrouped nid ?_ nid (h.ungrouped_mem _ nid hnid') rfl
    exact List.mem_flatten.mpr ⟨members, List.mem_of_getElem? hmembers, hmem⟩

/-- The votes exceed the signers by at most the factor of a full group vote. -/
theorem Sound.votesFor_mul_le
    (h : l.Sound)
    (digest : String) :
    l.votesFor digest * l.params.fullVoteQuorum
      ≤ l.params.m * (l.countedSigners digest).length := by
  have hgroups : ∀ gs : List ℕ,
      (gs.map fun g => l.groupVotes g digest).sum * l.params.fullVoteQuorum
        ≤ l.params.m * (gs.flatMap fun g => l.groupSigners.getD (g, digest) []).length := by
    intro gs
    induction gs with
    | nil => simp
    | cons g gs ih =>
        rw [List.map_cons, List.sum_cons, Nat.add_mul, List.flatMap_cons, List.length_append,
          Nat.mul_add]
        exact Nat.add_le_add (h.groupVotes_mul_le g digest) ih
  rw [votesFor, countedSigners, Nat.add_mul, List.length_append, Nat.mul_add]
  refine Nat.add_le_add (hgroups _) ?_
  rw [Nat.mul_comm]
  exact Nat.mul_le_mul_right _ l.params.fullVoteQuorum_le_m

/-- With the threshold of votes there is a quorum of signers. -/
theorem Sound.proofQuorum_le
    {ids : List String} {m r : ℕ} {digest : String}
    (h : l.Sound)
    (hids : ids.Nodup)
    (hpartition : l.membership.Partitions ids m r)
    (hmet : l.thresholdMet digest = true) :
    l.params.proofQuorum ≤ (l.proofSigners digest).length := by
  have hcounted : (l.countedSigners digest).length ≤ (l.proofSigners digest).length :=
    ((h.nodup_countedSigners hids hpartition digest).subperm countedSigners_subset).length_le
  have hvotes := h.votesFor_mul_le digest
  have hthreshold : l.params.voteThreshold ≤ l.votesFor digest := of_decide_eq_true hmet
  have hscaled : l.params.m * l.params.proofQuorum
      ≤ l.params.m * (l.proofSigners digest).length := by
    calc l.params.m * l.params.proofQuorum
        = l.params.voteThreshold * l.params.fullVoteQuorum := by
          unfold ConsensusParams.proofQuorum ConsensusParams.voteThreshold
          rw [← Nat.mul_assoc, Nat.mul_comm l.params.m]
      _ ≤ l.votesFor digest * l.params.fullVoteQuorum := Nat.mul_le_mul_right _ hthreshold
      _ ≤ l.params.m * (l.countedSigners digest).length := hvotes
      _ ≤ l.params.m * (l.proofSigners digest).length := Nat.mul_le_mul_left _ hcounted
  exact Nat.le_of_mul_le_mul_left hscaled l.params.m_pos

theorem Sound.nodup_proofSigners
    (h : l.Sound)
    (digest : String) :
    (l.proofSigners digest).Nodup :=
  List.Nodup.union _ (h.ungrouped_nodup digest)

/-- All signers are nodes of the network. -/
theorem Sound.mem_of_mem_proofSigners
    {ids : List String} {m r : ℕ} {digest nid : String}
    (h : l.Sound)
    (hpartition : l.membership.Partitions ids m r)
    (hnid : nid ∈ l.proofSigners digest) :
    nid ∈ ids := by
  apply hpartition.allNodes_perm.mem_iff.mp
  apply List.mem_cons_of_mem
  rw [List.mem_append, List.mem_flatten]
  rcases mem_proofSigners.mp hnid with ⟨g, hg⟩ | hungrouped
  · obtain ⟨members, hmembers, hmem⟩ := h.signer_mem _ _ nid hg
    exact Or.inl ⟨members, List.mem_of_getElem? hmembers, hmem⟩
  · exact Or.inr (h.ungrouped_mem _ nid hungrouped)

end VoteLedger

/-- The proof of a ledger passes the checks of the primary and, sent on by it, of the
other nodes. -/
def ProofAccepted (p : ConsensusParams) (digest : String) (votes : ℕ) (proof : List String) :
    Prop :=
  ∀ commit preprepare2 : Message,
    commit.digest = digest → commit.votes = votes → commit.signatures = proof →
    preprepare2.digest = digest → preprepare2.votes = votes →
    preprepare2.signatures = validSignatures proof digest →
    commitAccepted p commit = true ∧ preprepare2Accepted p preprepare2 = true

/-- One signature each of a quorum of plain names is an accepted proof. -/
theorem proofAccepted_of_signers
    {p : ConsensusParams} {digest : String} {votes : ℕ} {signers proof : List String}
    (hvotes : p.voteThreshold ≤ votes)
    (hsigners : signers.Nodup)
    (hplain : ∀ nid ∈ signers, Plain nid)
    (hquorum : p.proofQuorum ≤ signers.length)
    (hproof : proof.Perm (signers.map fun nid => sign nid digest)) :
    ProofAccepted p digest votes proof := by
  intro commit preprepare2 hd hv hs hd' hv' hs'
  have hthreshold : (p.voteThreshold : ℤ) ≤ votes := by exact_mod_cast hvotes
  have hmem : ∀ nid ∈ signers, sign nid digest ∈ validSignatures proof digest := by
    intro nid hnid
    rw [mem_validSignatures]
    exact ⟨hproof.mem_iff.mpr (List.mem_map_of_mem hnid), sigValid_sign (hplain nid hnid)⟩
  -- the signers can be read off the signatures
  have hread : ∀ nid ∈ signers, nid ∈ (((validSignatures proof digest).filter
      fun sig => sigValid sig digest).map sigSigner).dedup := by
    intro nid hnid
    rw [List.mem_dedup, List.mem_map]
    refine ⟨sign nid digest, ?_, sigSigner_sign (hplain nid hnid)⟩
    exact List.mem_filter.mpr ⟨hmem nid hnid, sigValid_sign (hplain nid hnid)⟩
  have hcount := (hsigners.subperm hread).length_le
  constructor
  · have hvalid : signers.length ≤ (validSignatures proof digest).length := by
      refine hcount.trans ((List.dedup_sublist _).length_le.trans ?_)
      rw [List.length_map]
      exact List.length_filter_le _ _
    rw [commitAccepted, hd, hv, hs]
    simp [hthreshold, hquorum.trans hvalid]
  · rw [preprepare2Accepted, hd', hv', hs']
    simp [hthreshold, hquorum.trans hcount]

/-- Once the threshold is met, the collected proof has a quorum of signatures of
distinct nodes and is accepted, as long as only ungrouped replicas are counted as
ungrouped. -/
theorem threshold_proof_accepted
    (p : ConsensusParams)
    (ringHash : String → ℕ)
    (ids : List String)
    (view : ℤ)
    (previousHash : String)
    (prevMaster : Option String)
    (ms : Membership)
    (calls : List VoteLedger.Call)
    (l : VoteLedger)
    (digest : String)
    (hids : ids.Nodup)
    (hn : ids.length = p.n)
    (hplain : ∀ nid ∈ ids, Plain nid)
    (hms : rolesOf ringHash ids view previousHash prevMaster p.m p.R = .ok ms)
    (hcalls : ∀ c ∈ calls, c.IsUngrouped ms)
    (hl : l = calls.foldl VoteLedger.perform ⟨p, ms, Dict.empty, Dict.empty, Dict.empty⟩)
    (hmet : l.thresholdMet digest = true) :
    ∃ signers : List String, signers.Nodup ∧ (∀ nid ∈ signers, nid ∈ ids) ∧
      p.proofQuorum ≤ signers.length ∧
      (l.proofSignatures digest).Perm (signers.map fun nid => sign nid digest) ∧
      ProofAccepted p digest (l.votesFor digest) (l.proofSignatures digest) := by
  have hpartition : ms.Partitions ids p.m p.R := by
    obtain ⟨ms', hpartition, hroles⟩ := membership_partitions ringHash ids view previousHash
      prevMaster p.m p.R hids (hn ▸ p.two_le_n) (Or.inr p.m_pos) (hn ▸ p.grouped_lt_n)
    have heq := (hroles ids (List.Perm.refl ids)).symm.trans hms
    exact Except.ok.inj heq ▸ hpartition
  obtain ⟨hsound, hparams, hmembership⟩ :=
    @VoteLedger.Sound.foldl _ calls (VoteLedger.sound_new p ms) hcalls
  rw [← hl] at hsound hparams hmembership
  change l.params = p at hparams
  change l.membership = ms at hmembership
  rw [← hmembership] at hpartition
  have hquorum := hsound.proofQuorum_le hids hpartition hmet
  have hmem : ∀ nid ∈ l.proofSigners digest, nid ∈ ids :=
    fun nid hnid => hsound.mem_of_mem_proofSigners hpartition hnid
  rw [hparams] at hquorum
  have hproof : (l.proofSignatures digest).Perm
      ((l.proofSigners digest).map fun nid => sign nid digest) := List.perm_insertionSort _ _
  have hvotes : p.voteThreshold ≤ l.votesFor digest := by
    rw [← hparams]
    exact of_decide_eq_true hmet
  refine ⟨l.proofSigners digest, hsound.nodup_proofSigners digest, hmem, hquorum, hproof, ?_⟩
  exact proofAccepted_of_signers hvotes (hsound.nodup_proofSigners digest)
    (fun nid hnid => hplain nid (hmem nid hnid)) hquorum hproof

/-! ## Seventeen nodes -/

/-- The smallest network: four groups of four. -/
def smallest : ConsensusParams := ⟨17, 4, by decide, by decide, by decide⟩

def seventeen : List String :=
  ["a", "b", "c", "d", "e", "f", "g", "h", "i", "j", "k", "l", "m", "n", "o", "p", "q"]

/-- The first roles of the seventeen nodes, with the length of a text as its hash. -/
def firstRoles : Membership where
  view := 0
  primary := "a"
  groups := [["b", "c", "d", "e"], ["f", "g", "h", "i"], ["j", "k", "l", "m"],
    ["n", "o", "p", "q"]]
  representatives := ["b", "f", "j", "n"]
  ungrouped := []

theorem rolesOf_seventeen :
    rolesOf String.length seventeen 0 "genesis" none 4 4 = .ok firstRoles := by
  decide +kernel

/-- Three groups with three signatures each. -/
theorem threshold_proof_accepted_smallest :
    ∃ l : VoteLedger, ∃ signers : List String, signers.Nodup ∧ (∀ nid ∈ signers, nid ∈ seventeen) ∧
      smallest.proofQuorum ≤ signers.length ∧
      (l.proofSignatures "x").Perm (signers.map fun nid => sign nid "x") ∧
      ProofAccepted smallest "x" (l.votesFor "x") (l.proofSignatures "x") :=
  ⟨_, threshold_proof_accepted smallest String.length seventeen 0 "genesis" none firstRoles
    [.addGroupAggregate 0 "x" ["b~x", "c~x", "d~x"],
      .addGroupAggregate 1 "x" ["f~x", "g~x", "h~x"],
      .addGroupAggregate 2 "x" ["j~x", "k~x", "l~x"]] _ "x"
    (by decide) (by decide) (by decide) rolesOf_seventeen
    (by
      intro c hc
      simp only [List.mem_cons, List.not_mem_nil, or_false] at hc
      rcases hc with rfl | rfl | rfl <;> trivial)
    rfl (by decide +kernel)⟩

/-- Six members of groups that are also counted as ungrouped have twelve votes. -/
theorem not_threshold_proof_accepted :
    ¬∀ (p : ConsensusParams) (ringHash : String → ℕ) (ids : List String) (view : ℤ)
      (previousHash : String) (prevMaster : Option String) (ms : Membership)
      (calls : List VoteLedger.Call) (l : VoteLedger) (digest : String),
      ids.Nodup → ids.length = p.n → (∀ nid ∈ ids, Plain nid) →
      rolesOf ringHash ids view previousHash prevMaster p.m p.R = .ok ms →
      l = calls.foldl VoteLedger.perform ⟨p, ms, Dict.empty, Dict.empty, Dict.empty⟩ →
      l.thresholdMet digest = true → p.proofQuorum ≤ (l.proofSignatures digest).length := by
  intro hall
  have hproof := hall smallest String.length seventeen 0 "genesis" none firstRoles
    [.addGroupIndividual 0 "x" ["b~x", "c~x", "d~x", "e~x"],
      .addGroupIndividual 1 "x" ["f~x", "g~x"],
      .addUngrouped "b" "x" ["b~x"], .addUngrouped "c" "x" ["c~x"],
      .addUngrouped "d" "x" ["d~x"], .addUngrouped "e" "x" ["e~x"],
      .addUngrouped "f" "x" ["f~x"], .addUngrouped "g" "x" ["g~x"]] _ "x"
    (by decide) (by decide) (by decide) rolesOf_seventeen rfl (by decide +kernel)
  revert hproof
  decide +kernel

end Nbft
end DistributedConsensus
