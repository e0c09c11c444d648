import DistributedConsensus.Foundations.Quorum
import Mathlib.Data.Set.Insert

/-!
# Replicated logs with elected leaders

An abstract account of log replication under leaders that are elected for
numbered terms.  The state records, besides the current term and log of every
node, everything that has ever happened: the votes with the log that the voter
held, the quorums that elected a leader, the logs that leaders have had, the
logs that were sent out in the name of a term, and the acknowledgements.

A leader may send its log in the name of its term even after it has moved on to
a later term; a receiver then merges a log that holds entries of later terms
than its own.

Every log is a log of the leader of its last term (`Inv.traced_log`), so logs
that agree on the term at an index agree up to that index.
-/

namespace DistributedConsensus
namespace Foundations
namespace ReplicatedLog

universe u v

variable {ι : Type u} {E : Type v}

section Logs

variable (termOf : E → ℕ)

/-- The term of the last entry, zero for the empty log. -/
def lastTerm (l : List E) : ℕ := (l.getLast?.map termOf).getD 0

/-- A log that ends in a later term, or in the same term and is not shorter. -/
def UpToDate (l l' : List E) : Prop :=
  lastTerm termOf l' < lastTerm termOf l ∨
    lastTerm termOf l' = lastTerm termOf l ∧ l'.length ≤ l.length

/-- Terms do not decrease along the log. -/
def Ascending (l : List E) : Prop := l.Pairwise (fun a b => termOf a ≤ termOf b)

/-- The result of receiving the log `L`: nothing changes, or the own log is cut
where it differs and a part of `L` is taken over. -/
def Merged (log L log' : List E) : Prop :=
  log' = log ∨
    ¬ L <+: log ∧ log' <+: L ∧ ∀ l, l <+: log → l <+: L → l <+: log'

variable {termOf}

@[simp] theorem lastTerm_append_singleton (l : List E) (e : E) :
    lastTerm termOf (l ++ [e]) = termOf e := by
  simp [lastTerm]

variable (termOf) in
/-- The last term is the term of an entry. -/
theorem exists_mem_lastTerm
    {l : List E}
    (hne : l ≠ []) :
    ∃ e ∈ l, termOf e = lastTerm termOf l := by
  refine ⟨l.getLast hne, List.getLast_mem hne, ?_⟩
  simp [lastTerm, List.getLast?_eq_some_getLast hne]

/-- In an ascending log the last term is the largest. -/
theorem Ascending.le_lastTerm
    {l : List E} {e : E}
    (h : Ascending termOf l)
    (he : e ∈ l) :
    termOf e ≤ lastTerm termOf l := by
  induction l using List.reverseRecOn with
  | nil => cases he
  | append_singleton l x _ =>
      rw [lastTerm_append_singleton]
      rcases List.mem_append.mp he with hmem | hlast
      · unfold Ascending at h
        rw [List.pairwise_append] at h
        exact h.2.2 e hmem x List.mem_cons_self
      · rw [List.mem_singleton.mp hlast]

/-- A common initial part is kept, unless the own log contains the received one. -/
theorem Merged.isPrefix
    {log L log' l : List E}
    (h : Merged log L log')
    (hlog : l <+: log)
    (hL : l <+: L ∨ L <+: l) :
    l <+: log' := by
  rcases h with rfl | ⟨hnot, -, hkeep⟩
  · exact hlog
  · rcases hL with hL | hL
    · exact hkeep l hlog hL
    · exact absurd (hL.trans hlog) hnot

/-- An initial part of a log together with the next entry is an initial part. -/
theorem isPrefix_concat_of_getElem?
    {l L : List E} {e : E}
    (h : l <+: L)
    (he : L[l.length]? = some e) :
    l ++ [e] <+: L := by
  obtain ⟨t, rfl⟩ := h
  rw [List.getElem?_append_right le_rfl, Nat.sub_self] at he
  cases t with
  | nil => cases he
  | cons a t =>
      cases he
      exact ⟨t, by simp⟩

/-- Prefixes of one log are comparable. -/
theorem isPrefix_total
    {l₁ l₂ L : List E}
    (h₁ : l₁ <+: L)
    (h₂ : l₂ <+: L) :
    l₁ <+: l₂ ∨ l₂ <+: l₁ := by
  rcases le_total l₁.length l₂.length with hle | hle
  · exact Or.inl (List.prefix_of_prefix_length_le h₁ h₂ hle)
  · exact Or.inr (List.prefix_of_prefix_length_le h₂ h₁ hle)

end Logs

/-- The current state of the nodes and everything that has happened. -/
structure State (ι : Type u) (E : Type v) where
  /-- The current terms. -/
  term : ι → ℕ
  /-- The current logs. -/
  log : ι → List E
  /-- Voter, term, candidate and the log of the voter. -/
  votes : Set (ι × ℕ × ι × List E)
  /-- Term and voters of a successful election. -/
  elections : Set (ℕ × Finset ι)
  /-- Leader, term and a log that the leader has had in the term. -/
  leads : Set (ι × ℕ × List E)
  /-- Sender, term and log of a replication request. -/
  sent : Set (ι × ℕ × List E)
  /-- Receiver, term and acknowledged log. -/
  acks : Set (ι × ℕ × List E)

/-- The state in which nothing has happened. -/
def State.initial : State ι E where
  term _ := 0
  log _ := []
  votes := ∅
  elections := ∅
  leads := ∅
  sent := ∅
  acks := ∅

section Protocol

variable [Fintype ι] [DecidableEq ι] (termOf : E → ℕ)

/-- More than half of the nodes. -/
def Majority (Q : Finset ι) : Prop := Fintype.card ι < 2 * Q.card

/-- Two majorities share a node. -/
theorem Majority.exists_inter
    {Q Q' : Finset ι}
    (h : Majority Q)
    (h' : Majority Q') :
    ∃ i ∈ Q, i ∈ Q' := by
  unfold Majority at h h'
  have hsum : Fintype.card ι + (∅ : Finset ι).card < Q.card + Q'.card := by
    rw [Finset.card_empty]
    omega
  obtain ⟨i, hi, hi', -⟩ := exists_correct_inter hsum
  exact ⟨i, hi, hi'⟩

/-- The steps of the protocol. -/
inductive Step : State ι E → State ι E → Prop
  | advance (s : State ι E) (i : ι) (T : ℕ)
      (hle : s.term i ≤ T) :
      Step s { s with term := Function.update s.term i T }
  | vote (s : State ι E) (v c : ι) (T : ℕ)
      (hterm : s.term v = T)
      (hcand : T ≤ s.term c)
      (honce : ∀ c' L, (v, T, c', L) ∈ s.votes → c' = c) :
      Step s { s with votes := insert (v, T, c, s.log v) s.votes }
  | elect (s : State ι E) (c : ι) (T : ℕ) (Q : Finset ι)
      (hterm : s.term c = T)
      (hmaj : Majority Q)
      (hvotes : ∀ v ∈ Q, ∃ L, (v, T, c, L) ∈ s.votes ∧ UpToDate termOf (s.log c) L)
      (hfirst : ∀ L, (c, T, L) ∉ s.leads) :
      Step s { s with
        leads := insert (c, T, s.log c) s.leads
        elections := insert (T, Q) s.elections }
  | append (s : State ι E) (c : ι) (T : ℕ) (e : E)
      (hterm : s.term c = T)
      (hlead : (c, T, s.log c) ∈ s.leads)
      (hentry : termOf e = T) :
      Step s { s with
        log := Function.update s.log c (s.log c ++ [e])
        leads := insert (c, T, s.log c ++ [e]) s.leads }
  | send (s : State ι E) (c : ι) (T : ℕ)
      (hlead : ∃ L, (c, T, L) ∈ s.leads) :
      Step s { s with sent := insert (c, T, s.log c) s.sent }
  | accept (s : State ι E) (i c : ι) (T : ℕ) (L log' : List E)
      (hsent : (c, T, L) ∈ s.sent)
      (hterm : s.term i = T)
      (hother : ∀ L', (i, T, L') ∉ s.leads)
      (hmerge : Merged (s.log i) L log') :
      Step s { s with log := Function.update s.log i log' }
  | ack (s : State ι E) (i c : ι) (T : ℕ) (L : List E)
      (hsent : (c, T, L) ∈ s.sent)
      (hterm : s.term i = T)
      (hlog : L <+: s.log i) :
      Step s { s with acks := insert (i, T, L) s.acks }

/-- Every nonempty initial part is a log of the leader of its last term. -/
def Traced (s : State ι E) (l : List E) : Prop :=
  ∀ p, p ≠ [] → p <+: l → ∃ c, (c, lastTerm termOf p, p) ∈ s.leads

/-- The invariant that holds of all logs. -/
structure Inv (s : State ι E) : Prop where
  vote_le : ∀ v T c L, (v, T, c, L) ∈ s.votes → T ≤ s.term v ∧ T ≤ s.term c
  vote_unique : ∀ v T c c' L L', (v, T, c, L) ∈ s.votes → (v, T, c', L') ∈ s.votes → c = c'
  vote_traced : ∀ v T c L, (v, T, c, L) ∈ s.votes → Traced termOf s L
  election_votes : ∀ T Q, (T, Q) ∈ s.elections →
    Majority Q ∧ (∀ v ∈ Q, ∃ c L, (v, T, c, L) ∈ s.votes) ∧ ∃ c L, (c, T, L) ∈ s.leads
  lead_le : ∀ c T L, (c, T, L) ∈ s.leads → T ≤ s.term c
  lead_elected : ∀ c T L, (c, T, L) ∈ s.leads →
    ∃ Q, (T, Q) ∈ s.elections ∧ ∀ v ∈ Q, ∃ L', (v, T, c, L') ∈ s.votes
  lead_chain : ∀ c c' T L L', (c, T, L) ∈ s.leads → (c', T, L') ∈ s.leads → L <+: L' ∨ L' <+: L
  lead_log : ∀ c T L, (c, T, L) ∈ s.leads → s.term c = T → L <+: s.log c
  lead_ascending : ∀ c T L, (c, T, L) ∈ s.leads → Ascending termOf L ∧ ∀ e ∈ L, termOf e ≤ T
  lead_traced : ∀ c T L, (c, T, L) ∈ s.leads → Traced termOf s L
  sent_led : ∀ c T L, (c, T, L) ∈ s.sent →
    (∃ L₀, (c, T, L₀) ∈ s.leads) ∧ (s.term c = T → L <+: s.log c)
  sent_traced : ∀ c T L, (c, T, L) ∈ s.sent → Traced termOf s L
  ack_sent : ∀ i T L, (i, T, L) ∈ s.acks → T ≤ s.term i ∧ ∃ c, (c, T, L) ∈ s.sent
  traced_log : ∀ i, Traced termOf s (s.log i)
  /-- Voters of a candidate have not elected the leaders of the later terms in
  the log of the candidate. -/
  no_future : ∀ v U c L, (v, U, c, L) ∈ s.votes → s.term c = U →
    (∀ c' L', (c', U, L') ∉ s.leads) →
    ∀ e ∈ s.log c, U < termOf e → ∀ Q, (termOf e, Q) ∈ s.elections → v ∉ Q

variable {termOf}

section Consequences

variable {s : State ι E}

omit [Fintype ι] [DecidableEq ι] in
theorem Traced.mono
    {s' : State ι E} {l : List E}
    (hsub : s.leads ⊆ s'.leads)
    (h : Traced termOf s l) :
    Traced termOf s' l := by
  intro p hne hp
  obtain ⟨c, hc⟩ := h p hne hp
  exact ⟨c, hsub hc⟩

omit [Fintype ι] [DecidableEq ι] in
theorem Traced.isPrefix
    {l l' : List E}
    (h : Traced termOf s l)
    (hl : l' <+: l) :
    Traced termOf s l' :=
  fun p hne hp => h p hne (hp.trans hl)

omit [Fintype ι] [DecidableEq ι] in
/-- An entry of a traced log belongs to an elected term. -/
theorem Inv.exists_lead_of_mem
    {l : List E} {e : E}
    (hl : Traced termOf s l)
    (he : e ∈ l) :
    ∃ c p, (c, termOf e, p) ∈ s.leads := by
  obtain ⟨l₁, l₂, rfl⟩ := List.append_of_mem he
  obtain ⟨c, hc⟩ := hl (l₁ ++ [e]) (by simp) ⟨l₂, by simp⟩
  rw [lastTerm_append_singleton] at hc
  exact ⟨c, _, hc⟩

/-- A term has one leader. -/
theorem Inv.lead_unique
    {c c' : ι} {T : ℕ} {L L' : List E}
    (h : Inv termOf s)
    (hc : (c, T, L) ∈ s.leads)
    (hc' : (c', T, L') ∈ s.leads) :
    c = c' := by
  obtain ⟨Q, hQ, hvotes⟩ := h.lead_elected c T L hc
  obtain ⟨Q', hQ', hvotes'⟩ := h.lead_elected c' T L' hc'
  obtain ⟨v, hv, hv'⟩ := (h.election_votes T Q hQ).1.exists_inter (h.election_votes T Q' hQ').1
  obtain ⟨M, hM⟩ := hvotes v hv
  obtain ⟨M', hM'⟩ := hvotes' v hv'
  exact h.vote_unique v T c c' M M' hM hM'

omit [DecidableEq ι] in
/-- A traced log is ascending. -/
theorem Inv.ascending
    {l : List E}
    (h : Inv termOf s)
    (hl : Traced termOf s l) :
    Ascending termOf l := by
  by_cases hne : l = []
  · subst hne
    exact List.Pairwise.nil
  · obtain ⟨c, hc⟩ := hl l hne List.prefix_rfl
    exact (h.lead_ascending c _ l hc).1

omit [DecidableEq ι] in
/-- Traced logs of the same length that end in the same term are equal. -/
theorem Inv.eq_of_lastTerm_eq
    {l l' : List E}
    (h : Inv termOf s)
    (hl : Traced termOf s l)
    (hl' : Traced termOf s l')
    (hlen : l.length = l'.length)
    (hterm : lastTerm termOf l = lastTerm termOf l') :
    l = l' := by
  by_cases hne : l = []
  · subst hne
    exact (List.eq_nil_of_length_eq_zero hlen.symm).symm
  · have hne' : l' ≠ [] := by
      rintro rfl
      exact hne (List.eq_nil_of_length_eq_zero hlen)
    obtain ⟨c, hc⟩ := hl l hne List.prefix_rfl
    obtain ⟨c', hc'⟩ := hl' l' hne' List.prefix_rfl
    rw [← hterm] at hc'
    rcases h.lead_chain c c' _ l l' hc hc' with hle | hle
    · exact hle.eq_of_length hlen
    · exact (hle.eq_of_length hlen.symm).symm

omit [DecidableEq ι] in
/-- Log matching: logs that agree on the term at an index agree up to it. -/
theorem Inv.take_eq_of_term_eq
    {l l' : List E} {k : ℕ} {e e' : E}
    (h : Inv termOf s)
    (hl : Traced termOf s l)
    (hl' : Traced termOf s l')
    (he : l[k]? = some e)
    (he' : l'[k]? = some e')
    (hterm : termOf e = termOf e') :
    l.take (k + 1) = l'.take (k + 1) := by
  have hk := (List.getElem?_eq_some_iff.mp he).1
  have hk' := (List.getElem?_eq_some_iff.mp he').1
  refine h.eq_of_lastTerm_eq (hl.isPrefix (List.take_prefix _ _))
    (hl'.isPrefix (List.take_prefix _ _)) ?_ ?_
  · rw [List.length_take, List.length_take]
    omega
  · rw [List.take_add_one, List.take_add_one, he, he']
    simpa using hterm

end Consequences

/-! ## One step keeps the invariant -/

section Preservation

variable {s : State ι E}

omit [DecidableEq ι] in
theorem inv_initial : Inv termOf (State.initial : State ι E) where
  vote_le _ _ _ _ h := h.elim
  vote_unique _ _ _ _ _ _ h := h.elim
  vote_traced _ _ _ _ h := h.elim
  election_votes _ _ h := h.elim
  lead_le _ _ _ h := h.elim
  lead_elected _ _ _ h := h.elim
  lead_chain _ _ _ _ _ h := h.elim
  lead_log _ _ _ h := h.elim
  lead_ascending _ _ _ h := h.elim
  lead_traced _ _ _ h := h.elim
  sent_led _ _ _ h := h.elim
  sent_traced _ _ _ h := h.elim
  ack_sent _ _ _ h := h.elim
  traced_log _ _ hne hp := absurd (List.prefix_nil.mp hp) hne
  no_future _ _ _ _ h := h.elim

omit [Fintype ι] in
/-- Terms only grow. -/
theorem le_update
    {T : ℕ} {i : ι}
    (hle : s.term i ≤ T) (j : ι) :
    s.term j ≤ Function.update s.term i T j := by
  by_cases hj : j = i
  · subst hj
    rwa [Function.update_self]
  · rw [Function.update_of_ne hj]

theorem Inv.advance
    {i : ι} {T : ℕ}
    (h : Inv termOf s)
    (hle : s.term i ≤ T) :
    Inv termOf { s with term := Function.update s.term i T } := by
  -- A node that reaches a term it has acted in before has not moved.
  have hstay : ∀ j U, U ≤ s.term j → Function.update s.term i T j = U → s.term j = U := by
    intro j U hU hj
    have := le_update hle j
    omega
  refine { h with
    vote_le := ?_, lead_le := ?_, lead_log := ?_, sent_led := ?_, ack_sent := ?_,
    no_future := ?_ }
  · intro v U c L hv
    obtain ⟨h₁, h₂⟩ := h.vote_le v U c L hv
    exact ⟨h₁.trans (le_update hle v), h₂.trans (le_update hle c)⟩
  · intro c U L hc
    exact (h.lead_le c U L hc).trans (le_update hle c)
  · intro c U L hc hterm
    exact h.lead_log c U L hc (hstay c U (h.lead_le c U L hc) hterm)
  · intro c U L hc
    obtain ⟨⟨L₀, hlead⟩, hlog⟩ := h.sent_led c U L hc
    exact ⟨⟨L₀, hlead⟩, fun hterm => hlog (hstay c U (h.lead_le c U L₀ hlead) hterm)⟩
  · intro j U L hj
    obtain ⟨hU, hsent⟩ := h.ack_sent j U L hj
    exact ⟨hU.trans (le_update hle j), hsent⟩
  · intro v U c L hv hterm
    exact h.no_future v U c L hv (hstay c U (h.vote_le v U c L hv).2 hterm)

omit [DecidableEq ι] in
theorem Inv.vote
    {v c : ι} {T : ℕ}
    (h : Inv termOf s)
    (hterm : s.term v = T)
    (hcand : T ≤ s.term c)
    (honce : ∀ c' L, (v, T, c', L) ∈ s.votes → c' = c) :
    Inv termOf { s with votes := insert (v, T, c, s.log v) s.votes } := by
  refine { h with
    vote_le := ?_, vote_unique := ?_, vote_traced := ?_, election_votes := ?_,
    lead_elected := ?_, no_future := ?_ }
  · rintro v' U c' L (heq | hv)
    · cases heq
      exact ⟨hterm.ge, hcand⟩
    · exact h.vote_le v' U c' L hv
  · rintro v' U c₁ c₂ L₁ L₂ (heq₁ | h₁) (heq₂ | h₂)
    · cases heq₁
      cases heq₂
      rfl
    · cases heq₁
      exact (honce c₂ L₂ h₂).symm
    · cases heq₂
      exact honce c₁ L₁ h₁
    · exact h.vote_unique v' U c₁ c₂ L₁ L₂ h₁ h₂
  · rintro v' U c' L (heq | hv)
    · cases heq
      exact h.traced_log v
    · exact h.vote_traced v' U c' L hv
  · intro U Q hQ
    obtain ⟨hmaj, hvotes, hlead⟩ := h.election_votes U Q hQ
    refine ⟨hmaj, fun w hw => ?_, hlead⟩
    obtain ⟨c', L, hv⟩ := hvotes w hw
    exact ⟨c', L, Or.inr hv⟩
  · intro c' U L hc
    obtain ⟨Q, hQ, hvotes⟩ := h.lead_elected c' U L hc
    refine ⟨Q, hQ, fun w hw => ?_⟩
    obtain ⟨L', hv⟩ := hvotes w hw
    exact ⟨L', Or.inr hv⟩
  · rintro v' U c' L (heq | hv) hU hnone e he hlt Q hQ hmem
    · -- The voter has not moved past its term, so it has elected no later leader.
      cases heq
      obtain ⟨c₁, L₁, hv₁⟩ := (h.election_votes _ Q hQ).2.1 v hmem
      have hle := (h.vote_le v _ c₁ L₁ hv₁).1
      omega
    · exact h.no_future v' U c' L hv hU hnone e he hlt Q hQ hmem

/-- A candidate with a majority of votes has no entries of later terms. -/
theorem Inv.term_le_of_majority
    {c : ι} {T : ℕ} {Q : Finset ι}
    (h : Inv termOf s)
    (hterm : s.term c = T)
    (hmaj : Majority Q)
    (hvotes : ∀ v ∈ Q, ∃ L, (v, T, c, L) ∈ s.votes)
    (hnone : ∀ c' L', (c', T, L') ∉ s.leads) :
    ∀ e ∈ s.log c, termOf e ≤ T := by
  intro e he
  by_contra hlt
  push Not at hlt
  obtain ⟨c', p, hlead⟩ := Inv.exists_lead_of_mem (h.traced_log c) he
  obtain ⟨Q', hQ', -⟩ := h.lead_elected c' _ p hlead
  obtain ⟨v, hv, hv'⟩ := hmaj.exists_inter (h.election_votes _ Q' hQ').1
  obtain ⟨L, hvote⟩ := hvotes v hv
  exact h.no_future v T c L hvote hterm hnone e he hlt Q' hQ' hv'

/-- Nobody leads a term in which a candidate that has not led it has a majority. -/
theorem Inv.not_led_of_majority
    {c : ι} {T : ℕ} {Q : Finset ι}
    (h : Inv termOf s)
    (hmaj : Majority Q)
    (hvotes : ∀ v ∈ Q, ∃ L, (v, T, c, L) ∈ s.votes)
    (hfirst : ∀ L, (c, T, L) ∉ s.leads) :
    ∀ c' L', (c', T, L') ∉ s.leads := by
  intro c' L' hlead
  obtain ⟨Q', hQ', hvotes'⟩ := h.lead_elected c' T L' hlead
  obtain ⟨v, hv, hv'⟩ := hmaj.exists_inter (h.election_votes T Q' hQ').1
  obtain ⟨M, hM⟩ := hvotes v hv
  obtain ⟨M', hM'⟩ := hvotes' v hv'
  have hcc : c = c' := h.vote_unique v T c c' M M' hM hM'
  subst hcc
  exact hfirst L' hlead

theorem Inv.elect
    {c : ι} {T : ℕ} {Q : Finset ι}
    (h : Inv termOf s)
    (hterm : s.term c = T)
    (hmaj : Majority Q)
    (hvotes : ∀ v ∈ Q, ∃ L, (v, T, c, L) ∈ s.votes)
    (hfirst : ∀ L, (c, T, L) ∉ s.leads) :
    Inv termOf { s with
      leads := insert (c, T, s.log c) s.leads
      elections := insert (T, Q) s.elections } := by
  have hnone := h.not_led_of_majority hmaj hvotes hfirst
  have hsub : s.leads ⊆ insert (c, T, s.log c) s.leads := Set.subset_insert _ _
  refine { h with
    vote_traced := ?_, election_votes := ?_, lead_le := ?_, lead_elected := ?_, lead_chain := ?_,
    lead_log := ?_, lead_ascending := ?_, lead_traced := ?_, sent_led := ?_, sent_traced := ?_,
    traced_log := ?_, no_future := ?_ }
  · exact fun v U c' L hv => (h.vote_traced v U c' L hv).mono hsub
  · rintro U Q' (heq | hQ')
    · cases heq
      refine ⟨hmaj, fun v hv => ?_, c, s.log c, Or.inl rfl⟩
      obtain ⟨L, hv⟩ := hvotes v hv
      exact ⟨c, L, hv⟩
    · obtain ⟨hmaj', hvotes', c', L', hlead⟩ := h.election_votes U Q' hQ'
      exact ⟨hmaj', hvotes', c', L', Or.inr hlead⟩
  · rintro c' U L (heq | hc)
    · cases heq
      exact hterm.ge
    · exact h.lead_le c' U L hc
  · rintro c' U L (heq | hc)
    · cases heq
      exact ⟨Q, Or.inl rfl, hvotes⟩
    · obtain ⟨Q', hQ', hrest⟩ := h.lead_elected c' U L hc
      exact ⟨Q', Or.inr hQ', hrest⟩
  · rintro c₁ c₂ U L₁ L₂ (heq₁ | h₁) (heq₂ | h₂)
    · cases heq₁
      cases heq₂
      exact Or.inl List.prefix_rfl
    · cases heq₁
      exact absurd h₂ (hnone c₂ L₂)
    · cases heq₂
      exact absurd h₁ (hnone c₁ L₁)
    · exact h.lead_chain c₁ c₂ U L₁ L₂ h₁ h₂
  · rintro c' U L (heq | hc) hU
    · cases heq
      exact List.prefix_rfl
    · exact h.lead_log c' U L hc hU
  · rintro c' U L (heq | hc)
    · cases heq
      exact ⟨h.ascending (h.traced_log c), h.term_le_of_majority hterm hmaj hvotes hnone⟩
    · exact h.lead_ascending c' U L hc
  · rintro c' U L (heq | hc)
    · cases heq
      exact (h.traced_log c).mono hsub
    · exact (h.lead_traced c' U L hc).mono hsub
  · intro c' U L hc
    obtain ⟨⟨L₀, hlead⟩, hlog⟩ := h.sent_led c' U L hc
    exact ⟨⟨L₀, Or.inr hlead⟩, hlog⟩
  · exact fun c' U L hc => (h.sent_traced c' U L hc).mono hsub
  · exact fun i => (h.traced_log i).mono hsub
  · rintro v U c' L hv hU hnone' e he hlt Q' (heq | hQ') hmem
    · -- An entry of the term just elected would have a leader already.
      cases heq
      obtain ⟨c₁, p, hlead⟩ := Inv.exists_lead_of_mem (h.traced_log c') he
      exact hnone c₁ p hlead
    · exact h.no_future v U c' L hv hU (fun c₁ L₁ hc₁ => hnone' c₁ L₁ (Or.inr hc₁)) e he hlt
        Q' hQ' hmem

theorem Inv.append
    {c : ι} {T : ℕ} {e : E}
    (h : Inv termOf s)
    (hterm : s.term c = T)
    (hlead : (c, T, s.log c) ∈ s.leads)
    (hentry : termOf e = T) :
    Inv termOf { s with
      log := Function.update s.log c (s.log c ++ [e])
      leads := insert (c, T, s.log c ++ [e]) s.leads } := by
  have hsub : s.leads ⊆ insert (c, T, s.log c ++ [e]) s.leads := Set.subset_insert _ _
  have hgrow : ∀ j, s.log j <+: Function.update s.log c (s.log c ++ [e]) j := by
    intro j
    by_cases hj : j = c
    · subst hj
      rw [Function.update_self]
      exact List.prefix_append _ _
    · rw [Function.update_of_ne hj]
  -- Every log of the leader of this term is part of its current log.
  have hpart : ∀ c' L, (c', T, L) ∈ s.leads → L <+: s.log c := by
    intro c' L hc'
    have hcc : c' = c := h.lead_unique hc' hlead
    subst hcc
    exact h.lead_log c' T L hc' hterm
  have hnew : Traced termOf { s with
      log := Function.update s.log c (s.log c ++ [e])
      leads := insert (c, T, s.log c ++ [e]) s.leads } (s.log c ++ [e]) := by
    intro p hne hp
    rcases List.prefix_concat_iff.mp hp with heq | hold
    · subst heq
      rw [lastTerm_append_singleton, hentry]
      exact ⟨c, Or.inl rfl⟩
    · obtain ⟨c', hc'⟩ := h.traced_log c p hne hold
      exact ⟨c', Or.inr hc'⟩
  refine { h with
    vote_traced := ?_, election_votes := ?_, lead_le := ?_, lead_elected := ?_, lead_chain := ?_,
    lead_log := ?_, lead_ascending := ?_, lead_traced := ?_, sent_led := ?_, sent_traced := ?_,
    traced_log := ?_, no_future := ?_ }
  · exact fun v U c' L hv => (h.vote_traced v U c' L hv).mono hsub
  · intro U Q hQ
    obtain ⟨hmaj, hvotes, c', L', hl⟩ := h.election_votes U Q hQ
    exact ⟨hmaj, hvotes, c', L', Or.inr hl⟩
  · rintro c' U L (heq | hc)
    · cases heq
      exact hterm.ge
    · exact h.lead_le c' U L hc
  · rintro c' U L (heq | hc)
    · cases heq
      exact h.lead_elected c T _ hlead
    · exact h.lead_elected c' U L hc
  · rintro c₁ c₂ U L₁ L₂ (heq₁ | h₁) (heq₂ | h₂)
    · cases heq₁
      cases heq₂
      exact Or.inl List.prefix_rfl
    · cases heq₁
      exact Or.inr ((hpart c₂ L₂ h₂).trans (List.prefix_append _ _))
    · cases heq₂
      exact Or.inl ((hpart c₁ L₁ h₁).trans (List.prefix_append _ _))
    · exact h.lead_chain c₁ c₂ U L₁ L₂ h₁ h₂
  · rintro c' U L (heq | hc) hU
    · cases heq
      simp only [Function.update_self]
      exact List.prefix_rfl
    · exact (h.lead_log c' U L hc hU).trans (hgrow c')
  · rintro c' U L (heq | hc)
    · cases heq
      obtain ⟨hasc, hle⟩ := h.lead_ascending c T _ hlead
      constructor
      · unfold Ascending at hasc ⊢
        rw [List.pairwise_append]
        refine ⟨hasc, List.pairwise_singleton _ _, fun a ha b hb => ?_⟩
        rw [List.mem_singleton.mp hb, hentry]
        exact hle a ha
      · intro a ha
        rcases List.mem_append.mp ha with hold | hlast
        · exact hle a hold
        · rw [List.mem_singleton.mp hlast, hentry]
    · exact h.lead_ascending c' U L hc
  · rintro c' U L (heq | hc)
    · cases heq
      exact hnew
    · exact (h.lead_traced c' U L hc).mono hsub
  · intro c' U L hc
    obtain ⟨⟨L₀, hl⟩, hlog⟩ := h.sent_led c' U L hc
    exact ⟨⟨L₀, Or.inr hl⟩, fun hU => (hlog hU).trans (hgrow c')⟩
  · exact fun c' U L hc => (h.sent_traced c' U L hc).mono hsub
  · intro j
    by_cases hj : j = c
    · subst hj
      simp only [Function.update_self]
      exact hnew
    · simp only [Function.update_of_ne hj]
      exact (h.traced_log j).mono hsub
  · intro v U c' L hv hU hnone
    have hc' : c' ≠ c := by
      rintro rfl
      exact hnone c' _ (Or.inr (hU ▸ hterm ▸ hlead))
    simp only [Function.update_of_ne hc']
    exact h.no_future v U c' L hv hU (fun c₁ L₁ hc₁ => hnone c₁ L₁ (Or.inr hc₁))

omit [DecidableEq ι] in
theorem Inv.send
    {c : ι} {T : ℕ}
    (h : Inv termOf s)
    (hlead : ∃ L, (c, T, L) ∈ s.leads) :
    Inv termOf { s with sent := insert (c, T, s.log c) s.sent } := by
  refine { h with sent_led := ?_, sent_traced := ?_, ack_sent := ?_ }
  · rintro c' U L (heq | hc)
    · cases heq
      exact ⟨hlead, fun _ => List.prefix_rfl⟩
    · exact h.sent_led c' U L hc
  · rintro c' U L (heq | hc)
    · cases heq
      exact h.traced_log c
    · exact h.sent_traced c' U L hc
  · intro i U L hi
    obtain ⟨hU, c', hc'⟩ := h.ack_sent i U L hi
    exact ⟨hU, c', Or.inr hc'⟩

theorem Inv.accept
    {i c : ι} {T : ℕ} {L log' : List E}
    (h : Inv termOf s)
    (hsent : (c, T, L) ∈ s.sent)
    (hterm : s.term i = T)
    (hother : ∀ L', (i, T, L') ∉ s.leads)
    (hmerge : Merged (s.log i) L log') :
    Inv termOf { s with log := Function.update s.log i log' } := by
  obtain ⟨⟨L₀, hlead⟩, -⟩ := h.sent_led c T L hsent
  have htraced : Traced termOf s log' := by
    rcases hmerge with rfl | ⟨-, hpre, -⟩
    · exact h.traced_log i
    · exact (h.sent_traced c T L hsent).isPrefix hpre
  refine { h with lead_log := ?_, sent_led := ?_, traced_log := ?_, no_future := ?_ }
  · intro c' U L' hc hU
    have hc' : c' ≠ i := by
      rintro rfl
      rw [hterm] at hU
      subst hU
      exact hother L' hc
    simp only [Function.update_of_ne hc']
    exact h.lead_log c' U L' hc hU
  · intro c' U L' hc
    obtain ⟨⟨L₁, hl⟩, hlog⟩ := h.sent_led c' U L' hc
    refine ⟨⟨L₁, hl⟩, fun hU => ?_⟩
    have hc' : c' ≠ i := by
      rintro rfl
      rw [hterm] at hU
      subst hU
      exact hother L₁ hl
    simp only [Function.update_of_ne hc']
    exact hlog hU
  · intro j
    by_cases hj : j = i
    · subst hj
      simp only [Function.update_self]
      exact htraced
    · simp only [Function.update_of_ne hj]
      exact h.traced_log j
  · intro v U c' L' hv hU hnone
    have hc' : c' ≠ i := by
      rintro rfl
      rw [hterm] at hU
      subst hU
      exact hnone c L₀ hlead
    simp only [Function.update_of_ne hc']
    exact h.no_future v U c' L' hv hU hnone

omit [DecidableEq ι] in
theorem Inv.ack
    {i c : ι} {T : ℕ} {L : List E}
    (h : Inv termOf s)
    (hsent : (c, T, L) ∈ s.sent)
    (hterm : s.term i = T) :
    Inv termOf { s with acks := insert (i, T, L) s.acks } := by
  refine { h with ack_sent := ?_ }
  rintro j U L' (heq | hj)
  · cases heq
    exact ⟨hterm.ge, c, hsent⟩
  · exact h.ack_sent j U L' hj

theorem Inv.step
    {s' : State ι E}
    (h : Inv termOf s)
    (hstep : Step termOf s s') :
    Inv termOf s' := by
  cases hstep with
  | advance i T hle => exact h.advance hle
  | vote v c T hterm hcand honce => exact h.vote hterm hcand honce
  | elect c T Q hterm hmaj hvotes hfirst =>
      refine h.elect hterm hmaj (fun v hv => ?_) hfirst
      obtain ⟨L, hL, -⟩ := hvotes v hv
      exact ⟨L, hL⟩
  | append c T e hterm hlead hentry => exact h.append hterm hlead hentry
  | send c T hlead => exact h.send hlead
  | accept i c T L log' hsent hterm hother hmerge => exact h.accept hsent hterm hother hmerge
  | ack i c T L hsent hterm hlog => exact h.ack hsent hterm

end Preservation

end Protocol

end ReplicatedLog
end Foundations
end DistributedConsensus
