import DistributedConsensus.HotStuff.Types
import Mathlib.Data.List.Sort
import Mathlib.Data.Fintype.Card
import Mathlib.Data.Finset.Image

/-!
# HotStuff: votes and quorum certificates

The signing and certificate functions of `hotstuff/crypto.py`.

Keys are numbered as `gen_keys` numbers them: the verification key at position
`i` of the key list is the key of replica `i`.  The main fact of this module is
`exists_signers_of_verifyQc`: a certificate that passes `verifyQc` carries the
signatures of a quorum of distinct replicas over its own triple.
-/

namespace DistributedConsensus
namespace HotStuff

/-- Python list indexing: a negative index counts from the end, an index out of
range raises. -/
def pyIndex {α : Type} (l : List α) (i : Int) : Option α :=
  if 0 ≤ i then l[i.toNat]?
  else if -(l.length : Int) ≤ i then l[(i + l.length).toNat]?
  else none

/-- The verification keys of `n` replicas. -/
def verifyKeys (n : Nat) : List Nat := List.range n

/-- Sign a vote. -/
def signVote (sk : Nat) (type : MsgType) (view : Int) (nodeHash : Digest) : Sig :=
  .signed sk type view nodeHash

/-- Check the signature of a vote. -/
def verifyVote (vk : Nat) (type : MsgType) (view : Int) (nodeHash : Digest)
    (sig : Sig) : Bool :=
  sig = .signed vk type view nodeHash

@[simp] theorem verifyVote_iff
    {vk : Nat} {type : MsgType} {view : Int} {nodeHash : Digest} {sig : Sig} :
    verifyVote vk type view nodeHash sig = true ↔
      sig = .signed vk type view nodeHash := by
  simp [verifyVote]

section BuildQc

variable {Cmd : Type} [Application Cmd]

/-- The first signature of each signer, as `by_signer.setdefault` collects them. -/
def bySigner : List (Msg Cmd) → List (Int × Sig) → List (Int × Sig)
  | [], acc => acc
  | v :: vs, acc =>
      match v.partialSig with
      | some (rid, sig) =>
          if acc.any (fun p => p.1 = rid) then bySigner vs acc
          else bySigner vs (acc ++ [(rid, sig)])
      | none => bySigner vs acc

/-- Build a certificate from matching votes; there must be at least one vote. -/
def buildQc (votes : List (Msg Cmd)) (quorum : Nat) : Option QC :=
  match votes with
  | [] => none
  | v :: vs =>
      some {
        type := v.type
        viewNumber := v.viewNumber
        nodeHash := (v.node.map Node.hash).getD .absent
        sigs := ((bySigner (v :: vs) []).insertionSort
          (fun a b => a.1 ≤ b.1)).take quorum }

omit [Application Cmd] in
/-- The collected signatures come from the votes. -/
theorem mem_bySigner
    {votes : List (Msg Cmd)} {acc : List (Int × Sig)} {p : Int × Sig}
    (h : p ∈ bySigner votes acc) :
    p ∈ acc ∨ ∃ v ∈ votes, v.partialSig = some p := by
  induction votes generalizing acc with
  | nil =>
      exact Or.inl h
  | cons v vs ih =>
      simp only [bySigner] at h
      split at h
      case h_1 rid sig hsig =>
        split at h
        case isTrue =>
          rcases ih h with hacc | ⟨w, hw, hws⟩
          · exact Or.inl hacc
          · exact Or.inr ⟨w, List.mem_cons_of_mem _ hw, hws⟩
        case isFalse =>
          rcases ih h with hacc | ⟨w, hw, hws⟩
          · rcases List.mem_append.mp hacc with hacc | hnew
            · exact Or.inl hacc
            · rw [List.mem_singleton] at hnew
              subst hnew
              exact Or.inr ⟨v, List.mem_cons_self, hsig⟩
          · exact Or.inr ⟨w, List.mem_cons_of_mem _ hw, hws⟩
      case h_2 =>
        rcases ih h with hacc | ⟨w, hw, hws⟩
        · exact Or.inl hacc
        · exact Or.inr ⟨w, List.mem_cons_of_mem _ hw, hws⟩

/-- A certificate contains no signature that its votes do not contain. -/
theorem mem_sigs_buildQc
    {votes : List (Msg Cmd)} {quorum : Nat} {qc : QC} {p : Int × Sig}
    (hqc : buildQc votes quorum = some qc)
    (hp : p ∈ qc.sigs) :
    ∃ v ∈ votes, v.partialSig = some p := by
  cases votes with
  | nil => cases hqc
  | cons v vs =>
      simp only [buildQc, Option.some.injEq] at hqc
      subst hqc
      have hmem := List.mem_of_mem_take hp
      rw [List.mem_insertionSort] at hmem
      rcases mem_bySigner hmem with hnil | hvote
      · cases hnil
      · exact hvote

omit [Application Cmd] in
/-- Collecting signatures never drops one. -/
theorem subset_bySigner (votes : List (Msg Cmd)) (acc : List (Int × Sig)) :
    acc ⊆ bySigner votes acc := by
  induction votes generalizing acc with
  | nil => exact List.Subset.refl _
  | cons v vs ih =>
      simp only [bySigner]
      split
      case h_1 rid sig _ =>
        split
        case isTrue => exact ih acc
        case isFalse => exact List.Subset.trans (List.subset_append_left _ _) (ih _)
      case h_2 => exact ih acc

/-- A certificate built from signed votes carries a signature. -/
theorem sigs_ne_nil_of_buildQc
    {votes : List (Msg Cmd)} {quorum : Nat} {qc : QC}
    (hqc : buildQc votes quorum = some qc)
    (hquorum : 0 < quorum)
    (hsigned : ∀ v ∈ votes, ∃ p, v.partialSig = some p) :
    qc.sigs ≠ [] := by
  cases votes with
  | nil => cases hqc
  | cons v vs =>
      simp only [buildQc, Option.some.injEq] at hqc
      subst hqc
      obtain ⟨⟨rid, sig⟩, hsig⟩ := hsigned v List.mem_cons_self
      have hmem : (rid, sig) ∈ bySigner (v :: vs) [] := by
        simp only [bySigner, hsig, List.any_nil, Bool.false_eq_true, if_false]
        exact subset_bySigner vs _ (by simp)
      have hmem' : (rid, sig) ∈ (bySigner (v :: vs) []).insertionSort
          (fun a b => a.1 ≤ b.1) := by
        rw [List.mem_insertionSort]
        exact hmem
      intro hnil
      rw [List.take_eq_nil_iff] at hnil
      rcases hnil with hzero | hempty
      · omega
      · rw [hempty] at hmem'
        cases hmem'

omit [Application Cmd] in
/-- Signatures of distinct signers are all collected. -/
theorem bySigner_eq_append
    {votes : List (Msg Cmd)} {acc sigs : List (Int × Sig)}
    (hsigs : votes.map Msg.partialSig = sigs.map some)
    (hnodup : ((acc ++ sigs).map Prod.fst).Nodup) :
    bySigner votes acc = acc ++ sigs := by
  induction votes generalizing acc sigs with
  | nil =>
      have hnil : sigs = [] := by simpa using hsigs.symm
      simp [bySigner, hnil]
  | cons v vs ih =>
      cases sigs with
      | nil => simp at hsigs
      | cons p rest =>
          obtain ⟨rid, sig⟩ := p
          simp only [List.map_cons, List.cons.injEq] at hsigs
          have hsplit : ((acc ++ [(rid, sig)] ++ rest).map Prod.fst).Nodup := by
            simpa using hnodup
          have hnew : acc.any (fun p => p.1 = rid) = false := by
            rw [List.map_append, List.nodup_append] at hnodup
            rw [List.any_eq_false]
            intro q hq heq
            exact hnodup.2.2 q.1 (List.mem_map_of_mem hq) rid (by simp) (by simpa using heq)
          simp only [bySigner, hsigs.1, hnew, Bool.false_eq_true, if_false]
          rw [ih hsigs.2 hsplit, List.append_assoc]
          rfl

end BuildQc

/-- The loop of `verify_qc`: the signers seen, or nothing if a check fails. -/
def verifyQcLoop (qc : QC) (vks : List Nat) :
    List (Int × Sig) → List Int → Option (List Int)
  | [], seen => some seen
  | (rid, sig) :: rest, seen =>
      if rid ∈ seen ∨ ¬ (0 ≤ rid ∧ rid < vks.length) then none
      else
        match pyIndex vks rid with
        | some vk =>
            if verifyVote vk qc.type qc.viewNumber qc.nodeHash sig then
              verifyQcLoop qc vks rest (rid :: seen)
            else none
        | none => none

/-- A certificate is valid if it carries at least `quorum` distinct signers
whose signatures all verify over its own triple. -/
def verifyQc (qc : QC) (vks : List Nat) (quorum : Nat) : Bool :=
  match verifyQcLoop qc vks qc.sigs [] with
  | some seen => quorum ≤ seen.length
  | none => false

theorem pyIndex_verifyKeys
    {n : Nat} {rid : Int} {vk : Nat}
    (h0 : 0 ≤ rid)
    (h : pyIndex (verifyKeys n) rid = some vk) :
    (vk : Int) = rid ∧ vk < n := by
  simp only [pyIndex, h0, if_true, verifyKeys] at h
  obtain ⟨hlt, heq⟩ := List.getElem?_eq_some_iff.mp h
  simp only [List.length_range] at hlt
  simp only [List.getElem_range] at heq
  omega

/-- What the loop of `verify_qc` has checked when it succeeds. -/
theorem verifyQcLoop_spec
    {qc : QC} {n : Nat} {sigs : List (Int × Sig)} {seen out : List Int}
    (hseen : seen.Nodup)
    (h : verifyQcLoop qc (verifyKeys n) sigs seen = some out) :
    out.Nodup ∧
    ∀ rid ∈ out, rid ∈ seen ∨
      ∃ i : Fin n, (i : Int) = rid ∧
        (rid, Sig.signed i qc.type qc.viewNumber qc.nodeHash) ∈ sigs := by
  induction sigs generalizing seen with
  | nil =>
      simp only [verifyQcLoop, Option.some.injEq] at h
      subst h
      exact ⟨hseen, fun rid hrid => Or.inl hrid⟩
  | cons p rest ih =>
      obtain ⟨rid, sig⟩ := p
      simp only [verifyQcLoop] at h
      split at h
      case isTrue => cases h
      case isFalse hguard =>
        push Not at hguard
        obtain ⟨hnew, hlow, hhigh⟩ := hguard
        split at h
        case h_2 => cases h
        case h_1 vk hvk =>
          split at h
          case isFalse => cases h
          case isTrue hsig =>
            rw [verifyVote_iff] at hsig
            obtain ⟨hrid, hlt⟩ := pyIndex_verifyKeys hlow hvk
            obtain ⟨hnodup, hout⟩ := ih (List.nodup_cons.mpr ⟨hnew, hseen⟩) h
            refine ⟨hnodup, ?_⟩
            intro x hx
            rcases hout x hx with hx | ⟨i, hi, hmem⟩
            · rcases List.mem_cons.mp hx with rfl | hx
              · right
                refine ⟨⟨vk, hlt⟩, hrid, ?_⟩
                rw [hsig]
                exact List.mem_cons_self
              · exact Or.inl hx
            · exact Or.inr ⟨i, hi, List.mem_cons_of_mem _ hmem⟩

/-- Valid signatures of distinct signers are all accepted. -/
theorem verifyQcLoop_eq_some
    {n : Nat} {sigs : List (Int × Sig)}
    (qc : QC) (seen : List Int)
    (hvalid : ∀ p ∈ sigs, ∃ vk < n,
      p = ((vk : Int), .signed vk qc.type qc.viewNumber qc.nodeHash))
    (hnodup : (sigs.map Prod.fst).Nodup)
    (hseen : ∀ p ∈ sigs, p.1 ∉ seen) :
    ∃ out, verifyQcLoop qc (verifyKeys n) sigs seen = some out ∧
      out.length = seen.length + sigs.length := by
  induction sigs generalizing seen with
  | nil => exact ⟨seen, rfl, rfl⟩
  | cons p rest ih =>
      obtain ⟨vk, hlt, rfl⟩ := hvalid p List.mem_cons_self
      rw [List.map_cons, List.nodup_cons] at hnodup
      have hindex : pyIndex (verifyKeys n) (vk : Int) = some vk := by
        simp [pyIndex, verifyKeys, hlt]
      have hguard : ¬ ((vk : Int) ∈ seen ∨ ¬ ((0 : Int) ≤ vk ∧ (vk : Int) < (verifyKeys n).length)) := by
        rintro (hmem | hrange)
        · exact hseen _ List.mem_cons_self hmem
        · exact hrange ⟨by omega, by simpa [verifyKeys] using hlt⟩
      obtain ⟨out, hout, hlength⟩ := ih ((vk : Int) :: seen)
        (fun q hq => hvalid q (List.mem_cons_of_mem _ hq)) hnodup.2 (by
          intro q hq hmem
          rcases List.mem_cons.mp hmem with heq | hold
          · exact hnodup.1 (List.mem_map.mpr ⟨q, hq, heq⟩)
          · exact hseen q (List.mem_cons_of_mem _ hq) hold)
      refine ⟨out, ?_, ?_⟩
      · simp only [verifyQcLoop]
        rw [if_neg hguard, hindex]
        simpa using hout
      · rw [hlength, List.length_cons, List.length_cons]
        omega

/-- A certificate built from valid votes of distinct replicas is valid. -/
theorem verifyQc_of_buildQc
    {Cmd : Type} [Application Cmd] {votes : List (Msg Cmd)} {n quorum : Nat} {qc : QC}
    (type : MsgType) (view : Int) (nodeHash : Digest) (sigs : List (Int × Sig))
    (hqc : buildQc votes quorum = some qc)
    (hvotes : ∀ v ∈ votes, v.type = type ∧ v.viewNumber = view ∧
      v.node.map Node.hash = some nodeHash)
    (hsigs : votes.map Msg.partialSig = sigs.map some)
    (hvalid : ∀ p ∈ sigs, ∃ vk < n, p = ((vk : Int), .signed vk type view nodeHash))
    (hnodup : (sigs.map Prod.fst).Nodup)
    (hquorum : quorum ≤ votes.length) :
    verifyQc qc (verifyKeys n) quorum = true := by
  have hcollected : bySigner votes [] = sigs := bySigner_eq_append hsigs (by simpa using hnodup)
  have hlength : votes.length = sigs.length := by
    simpa using congrArg List.length hsigs
  cases votes with
  | nil => cases hqc
  | cons v vs =>
      obtain ⟨rfl, rfl, hnode⟩ := hvotes v List.mem_cons_self
      simp only [buildQc, Option.some.injEq, hcollected, hnode, Option.getD_some] at hqc
      subst hqc
      have hperm := List.perm_insertionSort (fun a b : Int × Sig => a.1 ≤ b.1) sigs
      have hsorted : ((sigs.insertionSort (fun a b => a.1 ≤ b.1)).map Prod.fst).Nodup :=
        (hperm.map Prod.fst).nodup_iff.mpr hnodup
      obtain ⟨out, hout, hcard⟩ := verifyQcLoop_eq_some
        ⟨v.type, v.viewNumber, nodeHash,
          (sigs.insertionSort (fun a b => a.1 ≤ b.1)).take quorum⟩ []
        (fun p hp => hvalid p (hperm.mem_iff.mp (List.mem_of_mem_take hp)))
        (hsorted.sublist ((List.take_sublist _ _).map _)) (by simp)
      unfold verifyQc
      rw [hout]
      rw [List.length_take, hperm.length_eq, List.length_nil] at hcard
      simp only [decide_eq_true_eq]
      omega

/-- A certificate that passes `verifyQc` carries the signatures of a quorum of
distinct replicas over its own type, view and node hash. -/
theorem exists_signers_of_verifyQc
    {qc : QC} {n quorum : Nat}
    (h : verifyQc qc (verifyKeys n) quorum = true) :
    ∃ Q : Finset (Fin n), quorum ≤ Q.card ∧
      ∀ i ∈ Q, ((i : Int), Sig.signed i qc.type qc.viewNumber qc.nodeHash)
        ∈ qc.sigs := by
  unfold verifyQc at h
  split at h
  case h_2 => cases h
  case h_1 seen hseen =>
    obtain ⟨hnodup, hsigned⟩ := verifyQcLoop_spec List.nodup_nil hseen
    have hlen : quorum ≤ seen.length := by simpa using h
    let Q : Finset (Fin n) :=
      Finset.univ.filter (fun i => (i : Int) ∈ seen)
    have himage : Q.image (fun i : Fin n => (i : Int)) = seen.toFinset := by
      ext rid
      simp only [Q, Finset.mem_image, Finset.mem_filter, Finset.mem_univ,
        true_and, List.mem_toFinset]
      constructor
      · rintro ⟨i, hi, rfl⟩
        exact hi
      · intro hrid
        rcases hsigned rid hrid with hnil | ⟨i, hi, _⟩
        · cases hnil
        · exact ⟨i, by rw [hi]; exact hrid, hi⟩
    have hcard : Q.card = seen.length := by
      rw [← List.toFinset_card_of_nodup hnodup, ← himage]
      refine (Finset.card_image_of_injective _ ?_).symm
      intro i j hij
      exact Fin.ext (Int.ofNat_inj.mp hij)
    refine ⟨Q, by omega, ?_⟩
    intro i hi
    have hmem : (i : Int) ∈ seen := by simpa [Q] using hi
    rcases hsigned _ hmem with hnil | ⟨j, hj, hsig⟩
    · cases hnil
    · have hij : j = i := Fin.ext (Int.ofNat_inj.mp hj)
      subst hij
      exact hsig

end HotStuff
end DistributedConsensus
