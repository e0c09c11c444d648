import DistributedConsensus.Foundations.ChosenLogs

/-!
# Replicated logs: what one node does

An implementation lets one node act at a time, and one of its operations may
take several steps of the protocol.  Such an operation changes term and log of
the acting node only and adds to what has happened in its name (`Local`), so
everything that is known of the other nodes stays true.

A log is confirmed when it is an initial part of a chosen one.  Confirmed logs
are comparable, whoever has confirmed them.
-/

namespace DistributedConsensus
namespace Foundations
namespace ReplicatedLog

universe u v

variable {ι : Type u} {E : Type v}

/-- Only the node acts: the others keep term and log, no vote and no lead of
theirs is added, and nothing is forgotten. -/
structure Local (i : ι) (s s' : State ι E) : Prop where
  term_le : ∀ j, s.term j ≤ s'.term j
  term_eq : ∀ j, j ≠ i → s'.term j = s.term j
  log_eq : ∀ j, j ≠ i → s'.log j = s.log j
  votes : s.votes ⊆ s'.votes
  votes_eq : ∀ v T c L, v ≠ i → (v, T, c, L) ∈ s'.votes → (v, T, c, L) ∈ s.votes
  leads : s.leads ⊆ s'.leads
  leads_eq : ∀ c T L, c ≠ i → (c, T, L) ∈ s'.leads → (c, T, L) ∈ s.leads
  sent : s.sent ⊆ s'.sent
  acks : s.acks ⊆ s'.acks

namespace Local

variable {i : ι} {s s' s'' : State ι E}

theorem refl (i : ι) (s : State ι E) : Local i s s where
  term_le _ := le_rfl
  term_eq _ _ := rfl
  log_eq _ _ := rfl
  votes := subset_rfl
  votes_eq _ _ _ _ _ h := h
  leads := subset_rfl
  leads_eq _ _ _ _ h := h
  sent := subset_rfl
  acks := subset_rfl

theorem trans
    (h : Local i s s')
    (h' : Local i s' s'') :
    Local i s s'' where
  term_le j := (h.term_le j).trans (h'.term_le j)
  term_eq j hj := (h'.term_eq j hj).trans (h.term_eq j hj)
  log_eq j hj := (h'.log_eq j hj).trans (h.log_eq j hj)
  votes := h.votes.trans h'.votes
  votes_eq v T c L hv hmem := h.votes_eq v T c L hv (h'.votes_eq v T c L hv hmem)
  leads := h.leads.trans h'.leads
  leads_eq c T L hc hmem := h.leads_eq c T L hc (h'.leads_eq c T L hc hmem)
  sent := h.sent.trans h'.sent
  acks := h.acks.trans h'.acks

end Local

section Acts

variable [Fintype ι] [DecidableEq ι] (termOf : E → ℕ)

/-- A sequence of steps that one node takes. -/
inductive Acts (i : ι) : State ι E → State ι E → Prop
  | refl (s : State ι E) : Acts i s s
  | tail {s t r : State ι E} :
      Acts i s t → Step termOf t r → Local i t r → Acts i s r

variable {termOf} {i : ι} {s s' s'' : State ι E}

namespace Acts

theorem trans
    (h : Acts termOf i s s')
    (h' : Acts termOf i s' s'') :
    Acts termOf i s s'' := by
  induction h' with
  | refl => exact h
  | tail _ hstep hlocal ih => exact ih.tail hstep hlocal

theorem isLocal
    (h : Acts termOf i s s') :
    Local i s s' := by
  induction h with
  | refl => exact Local.refl i s
  | tail _ _ hlocal ih => exact ih.trans hlocal

theorem inv
    (h : Acts termOf i s s')
    (hs : Inv termOf s) :
    Inv termOf s' := by
  induction h with
  | refl => exact hs
  | tail _ hstep _ ih => exact ih.step hstep

theorem permanent
    (h : Acts termOf i s s')
    (hs : Inv termOf s)
    (hp : Permanent termOf s) :
    Permanent termOf s' := by
  induction h with
  | refl => exact hp
  | tail hacts hstep _ ih => exact ih.step (hacts.inv hs) hstep

theorem advance
    {T : ℕ}
    (h : Acts termOf i s s')
    (hle : s'.term i ≤ T) :
    Acts termOf i s { s' with term := Function.update s'.term i T } := by
  refine h.tail (Step.advance s' i T hle) { Local.refl i s' with term_le := ?_, term_eq := ?_ }
  · exact le_update hle
  · exact fun j hj => Function.update_of_ne hj _ _

theorem vote
    {c : ι} {T : ℕ}
    (h : Acts termOf i s s')
    (hterm : s'.term i = T)
    (hcand : T ≤ s'.term c)
    (honce : ∀ c' L, (i, T, c', L) ∈ s'.votes → c' = c) :
    Acts termOf i s { s' with votes := insert (i, T, c, s'.log i) s'.votes } := by
  refine h.tail (Step.vote s' i c T hterm hcand honce)
    { Local.refl i s' with votes := Set.subset_insert _ _, votes_eq := ?_ }
  rintro v U c' L hv (heq | hmem)
  · cases heq
    exact absurd rfl hv
  · exact hmem

theorem elect
    {T : ℕ} {Q : Finset ι}
    (h : Acts termOf i s s')
    (hterm : s'.term i = T)
    (hmaj : Majority Q)
    (hvotes : ∀ v ∈ Q, ∃ L, (v, T, i, L) ∈ s'.votes ∧ UpToDate termOf (s'.log i) L)
    (hfirst : ∀ L, (i, T, L) ∉ s'.leads) :
    Acts termOf i s { s' with
      leads := insert (i, T, s'.log i) s'.leads
      elections := insert (T, Q) s'.elections } := by
  refine h.tail (Step.elect s' i T Q hterm hmaj hvotes hfirst)
    { Local.refl i s' with leads := Set.subset_insert _ _, leads_eq := ?_ }
  rintro c U L hc (heq | hmem)
  · cases heq
    exact absurd rfl hc
  · exact hmem

theorem append
    {T : ℕ} {e : E}
    (h : Acts termOf i s s')
    (hterm : s'.term i = T)
    (hlead : (i, T, s'.log i) ∈ s'.leads)
    (hentry : termOf e = T) :
    Acts termOf i s { s' with
      log := Function.update s'.log i (s'.log i ++ [e])
      leads := insert (i, T, s'.log i ++ [e]) s'.leads } := by
  refine h.tail (Step.append s' i T e hterm hlead hentry)
    { Local.refl i s' with
      log_eq := ?_, leads := Set.subset_insert _ _, leads_eq := ?_ }
  · exact fun j hj => Function.update_of_ne hj _ _
  · rintro c U L hc (heq | hmem)
    · cases heq
      exact absurd rfl hc
    · exact hmem

theorem send
    {T : ℕ}
    (h : Acts termOf i s s')
    (hlead : ∃ L, (i, T, L) ∈ s'.leads) :
    Acts termOf i s { s' with sent := insert (i, T, s'.log i) s'.sent } :=
  h.tail (Step.send s' i T hlead) { Local.refl i s' with sent := Set.subset_insert _ _ }

theorem accept
    {c : ι} {T : ℕ} {L log' : List E}
    (h : Acts termOf i s s')
    (hsent : (c, T, L) ∈ s'.sent)
    (hterm : s'.term i = T)
    (hother : ∀ L', (i, T, L') ∉ s'.leads)
    (hmerge : Merged (s'.log i) L log') :
    Acts termOf i s { s' with log := Function.update s'.log i log' } := by
  refine h.tail (Step.accept s' i c T L log' hsent hterm hother hmerge)
    { Local.refl i s' with log_eq := ?_ }
  exact fun j hj => Function.update_of_ne hj _ _

theorem ack
    {c : ι} {T : ℕ} {L : List E}
    (h : Acts termOf i s s')
    (hsent : (c, T, L) ∈ s'.sent)
    (hterm : s'.term i = T)
    (hlog : L <+: s'.log i) :
    Acts termOf i s { s' with acks := insert (i, T, L) s'.acks } :=
  h.tail (Step.ack s' i c T L hsent hterm hlog)
    { Local.refl i s' with acks := Set.subset_insert _ _ }

end Acts

end Acts

section Confirmed

variable [Fintype ι] (termOf : E → ℕ)

/-- An initial part of a chosen log. -/
def Confirmed (s : State ι E) (l : List E) : Prop :=
  l = [] ∨ ∃ T m, Chosen termOf s T m ∧ l <+: m

variable {termOf} {i : ι} {s s' : State ι E} {l m : List E}

theorem Chosen.mono
    {T : ℕ}
    (hlocal : Local i s s')
    (h : Chosen termOf s T l) :
    Chosen termOf s' T l := by
  obtain ⟨⟨hne, hlast, c, hc⟩, Q, hmaj, hQ⟩ := h
  exact ⟨⟨hne, hlast, c, hlocal.leads hc⟩, Q, hmaj,
    fun j hj => (hQ j hj).mono hlocal.acks hlocal.leads⟩

theorem Confirmed.mono
    (hlocal : Local i s s')
    (h : Confirmed termOf s l) :
    Confirmed termOf s' l :=
  h.imp_right (fun ⟨T, m, hm, hl⟩ => ⟨T, m, hm.mono hlocal, hl⟩)

/-- Confirmed logs are comparable. -/
theorem Confirmed.comparable
    (h : Inv termOf s)
    (hp : Permanent termOf s)
    (hl : Confirmed termOf s l)
    (hm : Confirmed termOf s m) :
    l <+: m ∨ m <+: l := by
  rcases hl with rfl | ⟨T, l', hl', hl⟩
  · exact Or.inl List.nil_prefix
  rcases hm with rfl | ⟨U, m', hm', hm⟩
  · exact Or.inr List.nil_prefix
  rcases hl'.comparable h hp hm' with hle | hle
  · exact isPrefix_total (hl.trans hle) hm
  · exact isPrefix_total hl (hm.trans hle)

end Confirmed

end ReplicatedLog
end Foundations
end DistributedConsensus
