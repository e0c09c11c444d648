import DistributedConsensus.PbftSimulator.Message

/-!
# PBFT simulator: the decision procedure and the order of its loops

The decision for a sequence number is the first candidate that satisfies
condition A while a map is iterated.  With more than `2F + 1` VIEW-CHANGE messages
two candidates with different digests can satisfy it, so that a backup can come
to another decision than a correct primary, and rejects its NEW-VIEW.

The decisions are the same in every order exactly when all candidates for a
sequence number that satisfy condition A have one digest.  This is so for `2F + 1`
messages.
-/

namespace DistributedConsensus
namespace PbftSimulator

open Foundations

variable {F : ℕ} {o o' : Orders} {S : Dict ℤ ViewChange} {seq : ℤ} {visited : List ViewChange}

/-- All candidates that satisfy condition A have one digest. -/
def UniqueCandidate (F : ℕ) (S : Dict ℤ ViewChange) : Prop :=
  ∀ seq, ∀ m ∈ S.values, ∀ m' ∈ S.values, ∀ c ∈ m.candidate seq, ∀ c' ∈ m'.candidate seq,
    conditionA F S.values seq c = true → conditionA F S.values seq c' = true →
      c.digest = c'.digest

/-- The decisions, and whether a backup accepts the primary's X set, are the same
in whatever order the maps are iterated. -/
def OrderIndependent (F : ℕ) (S : Dict ℤ ViewChange) : Prop :=
  ∀ o o', (∀ seq, (decisionProcedure F o S).decisions.get? seq =
      (decisionProcedure F o' S).decisions.get? seq) ∧
    (decisionProcedure F o S).complete = (decisionProcedure F o' S).complete ∧
    ∀ requestLog, (decisionProcedure F o S).complete = true →
      (decisionProcedure F o' S).agreesWith
        (xEntries requestLog o (decisionProcedure F o S).decisions) = true

/-! ## One sequence number -/

theorem mem_visited {m : ViewChange} :
    m ∈ (S.inOrder (o.replicas seq)).map Prod.snd ↔ m ∈ S.values :=
  ((S.inOrder_perm (o.replicas seq)).map Prod.snd).mem_iff

/-- A decision by condition A is the digest of a candidate. -/
theorem decideSequence_spec
    (F : ℕ) (seq : ℤ)
    (hvisited : ∀ m, m ∈ visited ↔ m ∈ S.values) :
    (∃ m ∈ S.values, ∃ c ∈ m.candidate seq, conditionA F S.values seq c = true ∧
        decideSequence F visited S.values seq = some c.digest) ∨
      (∀ m ∈ S.values, ∀ c ∈ m.candidate seq, conditionA F S.values seq c = false) ∧
        decideSequence F visited S.values seq =
          if conditionB F S.values seq then some "null" else none := by
  unfold decideSequence
  cases hfind : (visited.filterMap (ViewChange.candidate · seq)).find?
      (conditionA F S.values seq) with
  | some c =>
      left
      have hmem := List.mem_of_find?_eq_some hfind
      rw [List.mem_filterMap] at hmem
      obtain ⟨m, hm, hc⟩ := hmem
      exact ⟨m, (hvisited m).mp hm, c, hc, List.find?_some hfind, rfl⟩
  | none =>
      right
      refine ⟨?_, rfl⟩
      intro m hm c hc
      rw [List.find?_eq_none] at hfind
      have hnot := hfind c (List.mem_filterMap.mpr ⟨m, (hvisited m).mpr hm, hc⟩)
      exact Bool.eq_false_iff.mpr hnot

theorem decideSequence_eq
    {visited' : List ViewChange}
    (hunique : UniqueCandidate F S)
    (hvisited : ∀ m, m ∈ visited ↔ m ∈ S.values)
    (hvisited' : ∀ m, m ∈ visited' ↔ m ∈ S.values) :
    decideSequence F visited S.values seq = decideSequence F visited' S.values seq := by
  rcases decideSequence_spec F seq hvisited with
    ⟨m, hm, c, hc, hA, heq⟩ | ⟨hnone, heq⟩ <;>
  rcases decideSequence_spec F seq hvisited' with
    ⟨m', hm', c', hc', hA', heq'⟩ | ⟨hnone', heq'⟩
  · rw [heq, heq', hunique seq m hm m' hm' c hc c' hc' hA hA']
  · rw [hnone' m hm c hc] at hA
    cases hA
  · rw [hnone m' hm' c' hc'] at hA'
    cases hA'
  · rw [heq, heq']

/-! ## All sequence numbers -/

theorem get?_decideAll (l : List ℤ) :
    (decideAll F o S l).get? seq =
      if seq ∈ l then decideSequence F ((S.inOrder (o.replicas seq)).map Prod.snd) S.values seq
      else none := by
  induction l with
  | nil => rfl
  | cons s rest ih =>
      unfold decideAll
      by_cases hs : seq = s
      · subst hs
        rw [if_pos (by simp)]
        split
        case h_1 digest heq => rw [Dict.get?_set, if_pos rfl, heq]
        case h_2 heq =>
          rw [ih, heq, ite_self]
      · have hmem : seq ∈ s :: rest ↔ seq ∈ rest := by simp [hs]
        simp only [hmem]
        split
        case h_1 => rw [Dict.get?_set, if_neg hs, ih]
        case h_2 => exact ih

theorem size_decideAll {l : List ℤ} (hnodup : l.Nodup) :
    (decideAll F o S l).size = l.countP (fun seq =>
      (decideSequence F ((S.inOrder (o.replicas seq)).map Prod.snd) S.values seq).isSome) := by
  induction l with
  | nil => rfl
  | cons s rest ih =>
      rw [List.nodup_cons] at hnodup
      unfold decideAll
      split
      case h_1 digest heq =>
        have hfresh : (decideAll F o S rest).get? s = none := by
          rw [get?_decideAll, if_neg hnodup.1]
        rw [List.countP_cons_of_pos (by rw [heq]; rfl), ← ih hnodup.2]
        unfold Dict.size
        rw [Dict.entries_set_of_get?_eq_none hfresh, List.length_append]
        rfl
      case h_2 heq =>
        rw [List.countP_cons_of_neg (by rw [heq]; exact Bool.false_ne_true), ← ih hnodup.2]

theorem mem_sequences : seq ∈ o.sequences.arrange (seqSet S.values) ↔ seq ∈ seqSet S.values :=
  (o.sequences.perm _).mem_iff

theorem nodup_sequences : (o.sequences.arrange (seqSet S.values)).Nodup :=
  (o.sequences.perm _).nodup_iff.mpr (List.nodup_dedup _)

theorem get?_decisions :
    (decisionProcedure F o S).decisions.get? seq =
      if seq ∈ seqSet S.values then
        decideSequence F ((S.inOrder (o.replicas seq)).map Prod.snd) S.values seq
      else none := by
  have h : (decisionProcedure F o S).decisions.get? seq =
      if seq ∈ o.sequences.arrange (seqSet S.values) then
        decideSequence F ((S.inOrder (o.replicas seq)).map Prod.snd) S.values seq
      else none := get?_decideAll _
  rwa [if_congr mem_sequences rfl rfl] at h

theorem complete_iff :
    (decisionProcedure F o S).complete = true ↔ ∀ seq ∈ seqSet S.values,
      (decideSequence F ((S.inOrder (o.replicas seq)).map Prod.snd) S.values seq).isSome := by
  have hperm := o.sequences.perm (seqSet S.values)
  unfold decisionProcedure
  rw [decide_eq_true_iff, size_decideAll nodup_sequences, ← hperm.length_eq, List.countP_eq_length]
  constructor
  · intro h seq hseq
    exact h seq (mem_sequences.mpr hseq)
  · intro h seq hseq
    exact h seq (mem_sequences.mp hseq)

theorem size_of_complete (h : (decisionProcedure F o S).complete = true) :
    (decisionProcedure F o S).decisions.size = (seqSet S.values).length :=
  of_decide_eq_true h

/-! ## Independence of the order -/

theorem get?_decisions_eq (hunique : UniqueCandidate F S) (seq : ℤ) :
    (decisionProcedure F o S).decisions.get? seq =
      (decisionProcedure F o' S).decisions.get? seq := by
  rw [get?_decisions, get?_decisions,
    decideSequence_eq hunique (fun _ => mem_visited) (fun _ => mem_visited)]

theorem complete_eq (hunique : UniqueCandidate F S) :
    (decisionProcedure F o S).complete = (decisionProcedure F o' S).complete := by
  rw [Bool.eq_iff_iff, complete_iff, complete_iff]
  refine forall₂_congr ?_
  intro seq _
  rw [decideSequence_eq hunique (fun _ => mem_visited) (fun _ => mem_visited)]

theorem mem_xEntries
    {requestLog : Dict String Request} {decisions : Dict ℤ String} {x : XEntry}
    (h : x ∈ xEntries requestLog o decisions) :
    decisions.get? x.sequence = some x.digest := by
  unfold xEntries at h
  rw [List.mem_map] at h
  obtain ⟨⟨seq, digest⟩, hp, rfl⟩ := h
  exact Dict.mem_inOrder.mp hp

theorem exists_mem_xEntries
    {requestLog : Dict String Request} {decisions : Dict ℤ String} {digest : String}
    (h : decisions.get? seq = some digest) :
    ∃ x ∈ xEntries requestLog o decisions, x.sequence = seq := by
  unfold xEntries
  exact ⟨_, List.mem_map_of_mem (Dict.mem_inOrder.mpr h), rfl⟩

theorem length_xEntries (requestLog : Dict String Request) (decisions : Dict ℤ String) :
    (xEntries requestLog o decisions).length = decisions.size := by
  unfold xEntries
  rw [List.length_map, (Dict.inOrder_perm _ _).length_eq]
  rfl

/-- A backup with the same decisions accepts the X set. -/
theorem agreesWith_xEntries
    (requestLog : Dict String Request)
    (hcomplete : (decisionProcedure F o S).complete = true)
    (hcomplete' : (decisionProcedure F o' S).complete = true)
    (hsame : ∀ seq, (decisionProcedure F o S).decisions.get? seq =
      (decisionProcedure F o' S).decisions.get? seq) :
    (decisionProcedure F o' S).agreesWith
      (xEntries requestLog o (decisionProcedure F o S).decisions) = true := by
  unfold Decision.agreesWith
  rw [hcomplete', length_xEntries, size_of_complete hcomplete, size_of_complete hcomplete',
    decide_eq_true rfl, Bool.and_self, Bool.true_and, List.all_eq_true]
  intro x hx
  rw [decide_eq_true_iff]
  unfold Dict.getD
  rw [← hsame, mem_xEntries hx]
  rfl

/-- Orders in which one message is visited first. -/
def Orders.startingWith (sender : ℤ) : Orders :=
  { Orders.insertion with replicas := fun _ => .startingWith sender }

theorem inOrder_startingWith
    {sender : ℤ} {m : ViewChange}
    (h : S.get? sender = some m) :
    ∃ rest, (S.inOrder (.startingWith sender)).map Prod.snd = m :: rest := by
  have hkey : sender ∈ S.keys.filter (fun k => k = sender) := by
    rw [List.mem_filter]
    exact ⟨List.mem_map.mpr ⟨_, Dict.mem_entries_of_get? h, rfl⟩, decide_eq_true rfl⟩
  obtain ⟨rest, hrest⟩ : ∃ rest, S.keys.filter (fun k => k = sender) = sender :: rest := by
    cases hl : S.keys.filter (fun k => k = sender) with
    | nil =>
        rw [hl] at hkey
        cases hkey
    | cons k rest =>
        have hk : k ∈ S.keys.filter (fun k => k = sender) := by rw [hl]; exact List.mem_cons_self
        rw [of_decide_eq_true (List.mem_filter.mp hk).2]
        exact ⟨rest, rfl⟩
  unfold Dict.inOrder MapOrder.startingWith
  simp only
  rw [hrest, List.cons_append, List.filterMap_cons_some (b := (sender, m)) (by rw [h]; rfl)]
  exact ⟨_, rfl⟩

theorem decisions_startingWith
    {sender : ℤ} {m : ViewChange} {c : PQEntry}
    (hm : S.get? sender = some m)
    (hc : c ∈ m.candidate seq)
    (hA : conditionA F S.values seq c = true) :
    (decisionProcedure F (.startingWith sender) S).decisions.get? seq = some c.digest := by
  have hmem : seq ∈ seqSet S.values := by
    obtain ⟨hmem, hseq⟩ := ViewChange.candidate_spec hc
    exact mem_seqSet.mpr ⟨m, Dict.mem_values_of_get? hm, c, Or.inl hmem, hseq⟩
  obtain ⟨rest, hrest⟩ := inOrder_startingWith hm
  rw [get?_decisions, if_pos hmem]
  show decideSequence F ((S.inOrder (.startingWith sender)).map Prod.snd) S.values seq = _
  rw [hrest]
  unfold decideSequence
  rw [List.filterMap_cons_some (by exact hc), List.find?_cons_of_pos hA]

/-- The outcome is independent of the orders exactly when the candidates that
satisfy condition A have one digest. -/
theorem orderIndependent_iff_uniqueCandidate (F : ℕ) (S : Dict ℤ ViewChange) :
    OrderIndependent F S ↔ UniqueCandidate F S := by
  constructor
  · intro h seq m hm m' hm' c hc c' hc' hA hA'
    obtain ⟨p, hp, rfl⟩ := List.mem_map.mp hm
    obtain ⟨p', hp', rfl⟩ := List.mem_map.mp hm'
    have hfirst := decisions_startingWith (Dict.get?_of_mem_entries hp) hc hA
    have hsecond := decisions_startingWith (Dict.get?_of_mem_entries hp') hc' hA'
    have hsame := (h (.startingWith p.1) (.startingWith p'.1)).1 seq
    rw [hfirst, hsecond] at hsame
    exact Option.some.inj hsame
  · intro hunique o o'
    refine ⟨get?_decisions_eq hunique, complete_eq hunique, ?_⟩
    intro requestLog hcomplete
    have hcomplete' : (decisionProcedure F o' S).complete = true := by
      rwa [← complete_eq (o := o) hunique]
    exact agreesWith_xEntries requestLog hcomplete hcomplete' (get?_decisions_eq hunique)

/-! ## What a backup knows of an X set that it accepts -/

section Agreement

variable {xSet : List XEntry}

theorem Decision.agreesWith_spec
    {d : Decision}
    (h : d.agreesWith xSet = true) :
    d.complete = true ∧ d.decisions.size = xSet.length ∧
      ∀ x ∈ xSet, d.decisions.getD x.sequence "" = x.digest := by
  unfold agreesWith at h
  rw [Bool.and_eq_true, Bool.and_eq_true, decide_eq_true_iff, List.all_eq_true] at h
  exact ⟨h.1.1, h.1.2, fun x hx => of_decide_eq_true (h.2 x hx)⟩

/-- An accepted X set has one digest for each sequence number. -/
theorem Decision.digest_eq
    {d : Decision} {x y : XEntry}
    (h : d.agreesWith xSet = true)
    (hx : x ∈ xSet)
    (hy : y ∈ xSet)
    (hseq : x.sequence = y.sequence) :
    x.digest = y.digest := by
  rw [← (agreesWith_spec h).2.2 x hx, ← (agreesWith_spec h).2.2 y hy, hseq]

/-- An X set without repetitions and empty digests has an entry for every
sequence number. -/
theorem covers_of_agreesWith
    (h : (decisionProcedure F o S).agreesWith xSet = true)
    (hnodup : (xSet.map XEntry.sequence).Nodup)
    (hdigest : ∀ x ∈ xSet, x.digest ≠ "")
    (hseq : seq ∈ seqSet S.values) :
    ∃ x ∈ xSet, x.sequence = seq := by
  obtain ⟨hcomplete, hsize, hall⟩ := Decision.agreesWith_spec h
  have hsub : ∀ s ∈ xSet.map XEntry.sequence, s ∈ seqSet S.values := by
    intro s hs
    obtain ⟨x, hx, rfl⟩ := List.mem_map.mp hs
    by_contra hnot
    have hx' := hall x hx
    unfold Dict.getD at hx'
    rw [get?_decisions, if_neg hnot] at hx'
    exact hdigest x hx hx'.symm
  have hperm : (xSet.map XEntry.sequence).Perm (seqSet S.values) := by
    refine (List.subperm_of_subset hnodup hsub).perm_of_length_le ?_
    rw [List.length_map, ← hsize]
    exact Nat.le_of_eq (size_of_complete hcomplete).symm
  obtain ⟨x, hx, heq⟩ := List.mem_map.mp (hperm.mem_iff.mpr hseq)
  exact ⟨x, hx, heq⟩

theorem decisions_of_complete
    (hcomplete : (decisionProcedure F o S).complete = true)
    (hseq : seq ∈ seqSet S.values) :
    ∃ digest, (decisionProcedure F o S).decisions.get? seq = some digest := by
  have hsome := complete_iff.mp hcomplete seq hseq
  rw [get?_decisions, if_pos hseq]
  exact Option.isSome_iff_exists.mp hsome

/-- A decision comes from a candidate, or it is NULL. -/
theorem decisions_spec
    {digest : String}
    (h : (decisionProcedure F o S).decisions.get? seq = some digest) :
    (∃ m ∈ S.values, ∃ c ∈ m.candidate seq, conditionA F S.values seq c = true ∧
        c.digest = digest) ∨
      digest = "null" ∧ conditionB F S.values seq = true := by
  rw [get?_decisions] at h
  split at h
  case isFalse => cases h
  case isTrue =>
    rcases decideSequence_spec F seq (S := S) (fun _ => mem_visited (o := o)) with
      ⟨m, hm, c, hc, hA, heq⟩ | ⟨-, heq⟩
    · rw [heq] at h
      exact Or.inl ⟨m, hm, c, hc, hA, Option.some.inj h⟩
    · rw [heq] at h
      split at h
      case isTrue hB => exact Or.inr ⟨(Option.some.inj h).symm, hB⟩
      case isFalse => cases h

end Agreement

/-- With `2F + 1` messages every message has to support the decision. -/
theorem uniqueCandidate_of_size_eq (hsize : S.size = quorumSize F) : UniqueCandidate F S := by
  intro seq m hm m' hm' c hc c' hc' hA hA'
  have hall : ∀ e : PQEntry, conditionA F S.values seq e = true →
      ∀ x ∈ S.values, x.supports seq e = true := by
    intro e he
    unfold conditionA at he
    rw [Bool.and_eq_true, decide_eq_true_iff, ← hsize, ← Dict.length_values] at he
    exact List.countP_eq_length.mp (Nat.le_antisymm List.countP_le_length he.1)
  have hentry : ∀ (x : ViewChange) (e e' : PQEntry), e ∈ x.candidate seq →
      x.supports seq e' = true → e.view < e'.view ∨ e.view = e'.view ∧ e.digest = e'.digest := by
    intro x e e' he hsupports
    obtain ⟨hmem, hseq⟩ := ViewChange.candidate_spec he
    have h := List.all_eq_true.mp hsupports e hmem
    simpa [hseq] using h
  rcases hentry m c c' hc (hall c' hA' m hm) with hlt | ⟨-, heq⟩
  · rcases hentry m' c' c hc' (hall c hA m' hm') with hlt' | ⟨-, heq'⟩
    · omega
    · exact heq'.symm
  · exact heq

/-- Four messages of replicas that have prepared different digests in two views. -/
def splitMessages : Dict ℤ ViewChange :=
  (((Dict.empty.set 0 ⟨2, 0, [⟨1, "a", 0⟩], [⟨1, "a", 0⟩]⟩).set 1
    ⟨2, 1, [⟨1, "b", 1⟩], [⟨1, "b", 1⟩]⟩).set 2
    ⟨2, 2, [], [⟨1, "a", 0⟩, ⟨1, "b", 1⟩]⟩).set 3 ⟨2, 3, [], []⟩

/-- Four correct VIEW-CHANGE messages with `F = 1` can be decided in two ways. -/
theorem not_orderIndependent_splitMessages :
    splitMessages.size = 4 ∧ (∀ p ∈ splitMessages.entries, correctViewChange p.2 = true ∧
      p.2.view = 2 ∧ p.2.senderID = p.1) ∧ ¬ OrderIndependent 1 splitMessages := by
  refine ⟨by decide +kernel, by decide +kernel, ?_⟩
  intro h
  have hsame := (h (.startingWith 0) (.startingWith 1)).1 1
  have hne : (decisionProcedure 1 (.startingWith 0) splitMessages).decisions.get? 1 ≠
      (decisionProcedure 1 (.startingWith 1) splitMessages).decisions.get? 1 := by
    decide +kernel
  exact hne hsame

end PbftSimulator
end DistributedConsensus
