import DistributedConsensus.Foundations.ReplicatedLog

/-!
# Replicated logs: chosen logs are permanent

A log is chosen when a majority has acknowledged it in the term of its last
entry.  A log that a majority may still come to acknowledge is contained in the
logs of all later leaders and in everything that these logs are built from
(`Carried`).  The steps of the protocol keep this, so a chosen log is permanent
and any two chosen logs are comparable.
-/

namespace DistributedConsensus
namespace Foundations
namespace ReplicatedLog

universe u v

variable {ι : Type u} {E : Type v} [Fintype ι] [DecidableEq ι] {termOf : E → ℕ}

/-- The node has acknowledged the log in the term, or leads the term with it. -/
def Supports (s : State ι E) (i : ι) (T : ℕ) (l : List E) : Prop :=
  ∃ L, l <+: L ∧ ((i, T, L) ∈ s.acks ∨ (i, T, L) ∈ s.leads)

/-- A majority supports the log in the term or can still come to do so. -/
def Choosable (s : State ι E) (T : ℕ) (l : List E) : Prop :=
  ∃ Q, Majority Q ∧ ∀ i ∈ Q, Supports s i T l ∨ s.term i ≤ T

variable (termOf) in
/-- The leader of the term has had the log, and it ends with an entry of the term. -/
def Proposed (s : State ι E) (T : ℕ) (l : List E) : Prop :=
  l ≠ [] ∧ lastTerm termOf l = T ∧ ∃ c, (c, T, l) ∈ s.leads

/-- The log is contained in everything that later terms build on. -/
structure Carried (s : State ι E) (T : ℕ) (l : List E) : Prop where
  leads : ∀ c U L, (c, U, L) ∈ s.leads → T < U → l <+: L
  leaders : ∀ c U L, (c, U, L) ∈ s.leads → T < U → l <+: s.log c
  supporters : ∀ i, Supports s i T l → l <+: s.log i
  votes : ∀ v U c L, (v, U, c, L) ∈ s.votes → T < U → Supports s v T l → l <+: L
  sent : ∀ c U L, (c, U, L) ∈ s.sent → (T < U → l <+: L) ∧ (T = U → l <+: L ∨ L <+: l)

variable (termOf) in
/-- Every log that may still be chosen is carried along. -/
def Permanent (s : State ι E) : Prop :=
  ∀ T l, Proposed termOf s T l → Choosable s T l → Carried s T l

variable {s : State ι E}

omit [DecidableEq ι] in
theorem permanent_initial : Permanent termOf (State.initial : State ι E) := by
  rintro T l ⟨-, -, c, hc⟩
  exact hc.elim

omit [DecidableEq ι] in
/-- A supporter has reached the term. -/
theorem Inv.le_of_supports
    {i : ι} {T : ℕ} {l : List E}
    (h : Inv termOf s)
    (hs : Supports s i T l) :
    T ≤ s.term i := by
  obtain ⟨L, -, hack | hlead⟩ := hs
  · exact (h.ack_sent i T L hack).1
  · exact h.lead_le i T L hlead

omit [Fintype ι] [DecidableEq ι] in
theorem Supports.mono
    {s' : State ι E} {i : ι} {T : ℕ} {l : List E}
    (hacks : s.acks ⊆ s'.acks)
    (hleads : s.leads ⊆ s'.leads)
    (h : Supports s i T l) :
    Supports s' i T l := by
  obtain ⟨L, hl, hL⟩ := h
  exact ⟨L, hl, hL.imp (fun hack => hacks hack) (fun hlead => hleads hlead)⟩

theorem Permanent.advance
    {i : ι} {T : ℕ}
    (hp : Permanent termOf s)
    (hle : s.term i ≤ T) :
    Permanent termOf { s with term := Function.update s.term i T } := by
  rintro U l hprop ⟨Q, hmaj, hQ⟩
  have hchoose : Choosable s U l :=
    ⟨Q, hmaj, fun j hj => (hQ j hj).imp_right (fun hterm => (le_update hle j).trans hterm)⟩
  exact { hp U l hprop hchoose with }

omit [DecidableEq ι] in
theorem Permanent.vote
    {v c : ι} {T : ℕ}
    (hp : Permanent termOf s) :
    Permanent termOf { s with votes := insert (v, T, c, s.log v) s.votes } := by
  intro U l hprop hchoose
  have hcarried : Carried s U l := hp U l hprop hchoose
  refine { hcarried with votes := ?_ }
  rintro v' W c' L (heq | hv) hlt hsup
  · cases heq
    exact hcarried.supporters v hsup
  · exact hcarried.votes v' W c' L hv hlt hsup

omit [DecidableEq ι] in
/-- A candidate that is up to date with a holder of a carried log has it too. -/
theorem Carried.isPrefix_of_upToDate
    {T : ℕ} {l L L' : List E}
    (h : Inv termOf s)
    (hcarried : Carried s T l)
    (hne : l ≠ [])
    (hlast : lastTerm termOf l = T)
    (hL : Traced termOf s L)
    (hL' : Traced termOf s L')
    (hl : l <+: L')
    (hup : UpToDate termOf L L') :
    l <+: L := by
  have hne' : L' ≠ [] := by
    rintro rfl
    exact hne (List.prefix_nil.mp hl)
  obtain ⟨e, he, hterm⟩ := exists_mem_lastTerm termOf hne
  have hle : T ≤ lastTerm termOf L' := by
    rw [← hlast, ← hterm]
    exact (h.ascending hL').le_lastTerm (hl.subset he)
  rcases hup with hlt | ⟨heq, hlen⟩
  · -- The last entry of the candidate belongs to a later leader.
    have hneL : L ≠ [] := by
      rintro rfl
      simp [lastTerm] at hlt
    obtain ⟨c, hc⟩ := hL L hneL List.prefix_rfl
    exact hcarried.leads c _ L hc (by omega)
  · -- Both logs end in the same term, so the longer one contains the other.
    have hneL : L ≠ [] := by
      rintro rfl
      exact hne' (List.eq_nil_of_length_eq_zero (by simpa using hlen))
    obtain ⟨c, hc⟩ := hL L hneL List.prefix_rfl
    obtain ⟨c', hc'⟩ := hL' L' hne' List.prefix_rfl
    rw [heq] at hc'
    rcases h.lead_chain c' c _ L' L hc' hc with hpre | hpre
    · exact hl.trans hpre
    · rw [hpre.eq_of_length (le_antisymm hpre.length_le hlen)]
      exact hl

theorem Permanent.elect
    {c : ι} {T : ℕ} {Q : Finset ι}
    (h : Inv termOf s)
    (hp : Permanent termOf s)
    (hterm : s.term c = T)
    (hmaj : Majority Q)
    (hvotes : ∀ v ∈ Q, ∃ L, (v, T, c, L) ∈ s.votes ∧ UpToDate termOf (s.log c) L)
    (hfirst : ∀ L, (c, T, L) ∉ s.leads) :
    Permanent termOf { s with
      leads := insert (c, T, s.log c) s.leads
      elections := insert (T, Q) s.elections } := by
  have hvotes' : ∀ v ∈ Q, ∃ L, (v, T, c, L) ∈ s.votes := by
    intro v hv
    obtain ⟨L, hL, -⟩ := hvotes v hv
    exact ⟨L, hL⟩
  have hnone := h.not_led_of_majority hmaj hvotes' hfirst
  rintro U l ⟨hne, hlast, c₀, hc₀⟩ ⟨Q₁, hmaj₁, hQ₁⟩
  -- A log of the new leader with an entry of its term would have a leader already.
  have hold : (c₀, U, l) ∈ s.leads := by
    rcases hc₀ with heq | hold
    · cases heq
      obtain ⟨e, he, hte⟩ := exists_mem_lastTerm termOf hne
      obtain ⟨c₁, p, hlead⟩ := Inv.exists_lead_of_mem (h.traced_log c) he
      rw [hte, hlast] at hlead
      exact absurd hlead (hnone c₁ p)
    · exact hold
  have hUT : U ≠ T := by
    rintro rfl
    exact hnone c₀ l hold
  have hback : ∀ i, Supports { s with
      leads := insert (c, T, s.log c) s.leads
      elections := insert (T, Q) s.elections } i U l → Supports s i U l := by
    rintro i ⟨L, hl, hack | heq | hlead⟩
    · exact ⟨L, hl, Or.inl hack⟩
    · cases heq
      exact absurd rfl hUT
    · exact ⟨L, hl, Or.inr hlead⟩
  have hchoose : Choosable s U l := ⟨Q₁, hmaj₁, fun i hi => (hQ₁ i hi).imp_left (hback i)⟩
  have hcarried : Carried s U l := hp U l ⟨hne, hlast, c₀, hold⟩ hchoose
  have hlog : U < T → l <+: s.log c := by
    intro hlt
    obtain ⟨v, hv, hv₁⟩ := hmaj.exists_inter hmaj₁
    obtain ⟨L, hvote, hup⟩ := hvotes v hv
    have hsup : Supports s v U l := by
      rcases hQ₁ v hv₁ with hsup | hle
      · exact hback v hsup
      · have hle' := (h.vote_le v T c L hvote).1
        have hlow : s.term v ≤ U := hle
        omega
    exact hcarried.isPrefix_of_upToDate h hne hlast (h.traced_log c) (h.vote_traced v T c L hvote)
      (hcarried.votes v T c L hvote hlt hsup) hup
  refine { hcarried with leads := ?_, leaders := ?_, supporters := ?_, votes := ?_ }
  · rintro c' W L (heq | hlead) hlt
    · cases heq
      exact hlog hlt
    · exact hcarried.leads c' W L hlead hlt
  · rintro c' W L (heq | hlead) hlt
    · cases heq
      exact hlog hlt
    · exact hcarried.leaders c' W L hlead hlt
  · exact fun i hi => hcarried.supporters i (hback i hi)
  · exact fun v W c' L hv hlt hsup => hcarried.votes v W c' L hv hlt (hback v hsup)

theorem Permanent.send
    {c : ι} {T : ℕ}
    (h : Inv termOf s)
    (hp : Permanent termOf s)
    (hlead : ∃ L, (c, T, L) ∈ s.leads) :
    Permanent termOf { s with sent := insert (c, T, s.log c) s.sent } := by
  intro U l hprop hchoose
  have hcarried : Carried s U l := hp U l hprop hchoose
  obtain ⟨L₀, hL₀⟩ := hlead
  refine { hcarried with sent := ?_ }
  rintro c' W L (heq | hsent)
  · cases heq
    refine ⟨fun hlt => hcarried.leaders c T L₀ hL₀ hlt, fun hUT => Or.inl ?_⟩
    -- The sender has led the term, so the log was one of its own.
    subst hUT
    obtain ⟨-, -, c₀, hc₀⟩ := hprop
    have hcc : c₀ = c := h.lead_unique hc₀ hL₀
    subst hcc
    exact hcarried.supporters c₀ ⟨l, List.prefix_rfl, Or.inr hc₀⟩
  · exact hcarried.sent c' W L hsent

theorem Permanent.accept
    {i c : ι} {T : ℕ} {L log' : List E}
    (h : Inv termOf s)
    (hp : Permanent termOf s)
    (hsent : (c, T, L) ∈ s.sent)
    (hterm : s.term i = T)
    (hmerge : Merged (s.log i) L log') :
    Permanent termOf { s with log := Function.update s.log i log' } := by
  intro U l hprop hchoose
  have hcarried : Carried s U l := hp U l hprop hchoose
  obtain ⟨hlater, hsame⟩ := hcarried.sent c T L hsent
  -- A log that contains `l` keeps it, if its node has reached the term of `l`.
  have hkeep : ∀ j, U ≤ s.term j → l <+: s.log j → l <+: Function.update s.log i log' j := by
    intro j hU hl
    by_cases hj : j = i
    · subst hj
      rw [Function.update_self]
      rw [hterm] at hU
      rcases hU.lt_or_eq with hlt | heq
      · exact hmerge.isPrefix hl (Or.inl (hlater hlt))
      · exact hmerge.isPrefix hl (hsame heq)
    · rw [Function.update_of_ne hj]
      exact hl
  refine { hcarried with leaders := ?_, supporters := ?_ }
  · intro c' W L' hc hlt
    exact hkeep c' (hlt.le.trans (h.lead_le c' W L' hc)) (hcarried.leaders c' W L' hc hlt)
  · intro j hsup
    exact hkeep j (h.le_of_supports hsup) (hcarried.supporters j hsup)

omit [DecidableEq ι] in
theorem Permanent.ack
    {i : ι} {T : ℕ} {L : List E}
    (h : Inv termOf s)
    (hp : Permanent termOf s)
    (hterm : s.term i = T)
    (hlog : L <+: s.log i) :
    Permanent termOf { s with acks := insert (i, T, L) s.acks } := by
  rintro U l hprop ⟨Q, hmaj, hQ⟩
  have hback : ∀ j, Supports { s with acks := insert (i, T, L) s.acks } j U l →
      Supports s j U l ∨ (j = i ∧ U = T ∧ l <+: L) := by
    rintro j ⟨L', hl, (heq | hack) | hlead⟩
    · cases heq
      exact Or.inr ⟨rfl, rfl, hl⟩
    · exact Or.inl ⟨L', hl, Or.inl hack⟩
    · exact Or.inl ⟨L', hl, Or.inr hlead⟩
  have hchoose : Choosable s U l := by
    refine ⟨Q, hmaj, fun j hj => ?_⟩
    rcases hQ j hj with hsup | hle
    · rcases hback j hsup with hsup' | ⟨rfl, rfl, -⟩
      · exact Or.inl hsup'
      · exact Or.inr hterm.le
    · exact Or.inr hle
  have hcarried : Carried s U l := hp U l hprop hchoose
  refine { hcarried with supporters := ?_, votes := ?_ }
  · intro j hsup
    rcases hback j hsup with hsup' | ⟨rfl, -, hl⟩
    · exact hcarried.supporters j hsup'
    · exact hl.trans hlog
  · intro v W c' L' hv hlt hsup
    rcases hback v hsup with hsup' | ⟨rfl, rfl, -⟩
    · exact hcarried.votes v W c' L' hv hlt hsup'
    · have hle := (h.vote_le v W c' L' hv).1
      omega

/-- The log just extended by the leader: nobody else has it, and no later leader
has been elected, unless the log cannot be chosen any more. -/
theorem carried_append
    {c : ι} {T : ℕ} {e : E}
    (h : Inv termOf s)
    (hterm : s.term c = T)
    (hlead : (c, T, s.log c) ∈ s.leads)
    (hchoose : Choosable { s with
      log := Function.update s.log c (s.log c ++ [e])
      leads := insert (c, T, s.log c ++ [e]) s.leads } T (s.log c ++ [e])) :
    Carried { s with
      log := Function.update s.log c (s.log c ++ [e])
      leads := insert (c, T, s.log c ++ [e]) s.leads } T (s.log c ++ [e]) := by
  have hshort : ∀ L, L <+: s.log c → ¬ (s.log c ++ [e]) <+: L := by
    intro L hL hl
    have hlen := (hl.trans hL).length_le
    rw [List.length_append, List.length_singleton] at hlen
    omega
  have hpart : ∀ c' L, (c', T, L) ∈ s.sent → L <+: s.log c := by
    intro c' L hsent
    obtain ⟨⟨L₀, hL₀⟩, hlog⟩ := h.sent_led c' T L hsent
    have hcc : c' = c := h.lead_unique hL₀ hlead
    subst hcc
    exact hlog hterm
  have honly : ∀ j, Supports { s with
      log := Function.update s.log c (s.log c ++ [e])
      leads := insert (c, T, s.log c ++ [e]) s.leads } j T (s.log c ++ [e]) → j = c := by
    rintro j ⟨L, hl, hack | heq | hold⟩
    · obtain ⟨-, c', hc'⟩ := h.ack_sent j T L hack
      exact absurd hl (hshort L (hpart c' L hc'))
    · cases heq
      rfl
    · exact h.lead_unique hold hlead
  have hlast : ∀ c' W L, (c', W, L) ∈ s.leads → ¬ T < W := by
    intro c' W L hc' hlt
    obtain ⟨Q, hmaj, hQ⟩ := hchoose
    obtain ⟨Q', hQ', hvotes⟩ := h.lead_elected c' W L hc'
    obtain ⟨v, hv, hv'⟩ := hmaj.exists_inter (h.election_votes W Q' hQ').1
    obtain ⟨L', hvote⟩ := hvotes v hv'
    have hle := (h.vote_le v W c' L' hvote).1
    rcases hQ v hv with hsup | hlow
    · rw [honly v hsup] at hle
      omega
    · have hlow' : s.term v ≤ T := hlow
      omega
  constructor
  · rintro c' W L (heq | hold) hlt
    · cases heq
      exact absurd hlt (lt_irrefl T)
    · exact absurd hlt (hlast c' W L hold)
  · rintro c' W L (heq | hold) hlt
    · cases heq
      exact absurd hlt (lt_irrefl T)
    · exact absurd hlt (hlast c' W L hold)
  · intro j hsup
    rw [honly j hsup]
    simp only [Function.update_self]
    exact List.prefix_rfl
  · intro v W c' L hv hlt hsup
    have hle := (h.vote_le v W c' L hv).1
    rw [honly v hsup] at hle
    omega
  · intro c' W L hsent
    constructor
    · intro hlt
      obtain ⟨⟨L₀, hL₀⟩, -⟩ := h.sent_led c' W L hsent
      exact absurd hlt (hlast c' W L₀ hL₀)
    · rintro rfl
      exact Or.inr ((hpart c' L hsent).trans (List.prefix_append _ _))

theorem Permanent.append
    {c : ι} {T : ℕ} {e : E}
    (h : Inv termOf s)
    (hp : Permanent termOf s)
    (hterm : s.term c = T)
    (hlead : (c, T, s.log c) ∈ s.leads) :
    Permanent termOf { s with
      log := Function.update s.log c (s.log c ++ [e])
      leads := insert (c, T, s.log c ++ [e]) s.leads } := by
  rintro U l ⟨hne, hlast, c₀, hc₀⟩ hchoose
  rcases hc₀ with heq | hold
  · cases heq
    exact carried_append h hterm hlead hchoose
  · have hback : ∀ j, Supports { s with
        log := Function.update s.log c (s.log c ++ [e])
        leads := insert (c, T, s.log c ++ [e]) s.leads } j U l → Supports s j U l := by
      rintro j ⟨L, hl, hack | heq | hlead'⟩
      · exact ⟨L, hl, Or.inl hack⟩
      · cases heq
        have hcc : c₀ = c := h.lead_unique hold hlead
        subst hcc
        exact ⟨s.log c₀, h.lead_log c₀ T l hold hterm, Or.inr hlead⟩
      · exact ⟨L, hl, Or.inr hlead'⟩
    have hcarried : Carried s U l := by
      obtain ⟨Q, hmaj, hQ⟩ := hchoose
      exact hp U l ⟨hne, hlast, c₀, hold⟩ ⟨Q, hmaj, fun j hj => (hQ j hj).imp_left (hback j)⟩
    have hgrow : ∀ j, s.log j <+: Function.update s.log c (s.log c ++ [e]) j := by
      intro j
      by_cases hj : j = c
      · subst hj
        rw [Function.update_self]
        exact List.prefix_append _ _
      · rw [Function.update_of_ne hj]
    refine { hcarried with leads := ?_, leaders := ?_, supporters := ?_, votes := ?_ }
    · rintro c' W L (heq | hlead') hlt
      · cases heq
        exact (hcarried.leads c T _ hlead hlt).trans (List.prefix_append _ _)
      · exact hcarried.leads c' W L hlead' hlt
    · rintro c' W L (heq | hlead') hlt
      · cases heq
        exact (hcarried.leaders c T _ hlead hlt).trans (hgrow c)
      · exact (hcarried.leaders c' W L hlead' hlt).trans (hgrow c')
    · exact fun j hsup => (hcarried.supporters j (hback j hsup)).trans (hgrow j)
    · exact fun v W c' L hv hlt hsup => hcarried.votes v W c' L hv hlt (hback v hsup)

theorem Permanent.step
    {s' : State ι E}
    (h : Inv termOf s)
    (hp : Permanent termOf s)
    (hstep : Step termOf s s') :
    Permanent termOf s' := by
  cases hstep with
  | advance i T hle => exact hp.advance hle
  | vote v c T hterm hcand honce => exact hp.vote
  | elect c T Q hterm hmaj hvotes hfirst => exact hp.elect h hterm hmaj hvotes hfirst
  | append c T e hterm hlead hentry => exact hp.append h hterm hlead
  | send c T hlead => exact hp.send h hlead
  | accept i c T L log' hsent hterm hother hmerge => exact hp.accept h hsent hterm hmerge
  | ack i c T L hsent hterm hlog => exact hp.ack h hterm hlog

variable (termOf) in
/-- A majority supports a log of the leader that ends in its term. -/
def Chosen (s : State ι E) (T : ℕ) (l : List E) : Prop :=
  Proposed termOf s T l ∧ ∃ Q, Majority Q ∧ ∀ i ∈ Q, Supports s i T l

omit [DecidableEq ι] in
theorem Chosen.carried
    {T : ℕ} {l : List E}
    (hp : Permanent termOf s)
    (h : Chosen termOf s T l) :
    Carried s T l := by
  obtain ⟨hprop, Q, hmaj, hQ⟩ := h
  exact hp T l hprop ⟨Q, hmaj, fun i hi => Or.inl (hQ i hi)⟩

omit [DecidableEq ι] in
/-- Any two chosen logs are comparable. -/
theorem Chosen.comparable
    {T U : ℕ} {l m : List E}
    (h : Inv termOf s)
    (hp : Permanent termOf s)
    (hl : Chosen termOf s T l)
    (hm : Chosen termOf s U m) :
    l <+: m ∨ m <+: l := by
  obtain ⟨⟨-, -, c, hc⟩, -⟩ := id hl
  obtain ⟨⟨-, -, c', hc'⟩, -⟩ := id hm
  rcases lt_trichotomy T U with hlt | heq | hgt
  · exact Or.inl ((hl.carried hp).leads c' U m hc' hlt)
  · subst heq
    exact h.lead_chain c c' T l m hc hc'
  · exact Or.inr ((hm.carried hp).leads c T l hc hgt)

end ReplicatedLog
end Foundations
end DistributedConsensus
