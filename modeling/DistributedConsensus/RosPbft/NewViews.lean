import DistributedConsensus.RosPbft.AcrossViews

/-!
# Emergency-stop PBFT: who accepts the NEW-VIEW of a correct primary

The builder and the receivers of a NEW-VIEW select its request with one
function.  When a VIEW-CHANGE of the proof has a PREPARED certificate, the
selection depends on the proof alone and every receiver agrees.  Otherwise each
of them selects from its own cache, and a receiver accepts only when its one
outstanding request is the one of the primary.
-/

namespace DistributedConsensus
namespace RosPbft

open Foundations

variable {D : Deployment}

namespace PBFTReplica

variable {K : ℤ → MessageKey → PBFTInstance → Prop} {e : Option Message}
  {A : MessageKey → PBFTInstance → Prop} {L : MessageKey → Prop} {C : PBFTMessage → Prop}
  {rs rs' : PBFTReplica}

/-- The request is cached and no request with its id is committed. -/
def Outstanding (rs : PBFTReplica) (content : PBFTInstance) : Prop :=
  ∃ requestId, rs.cachedClientRequests.get? requestId = some content ∧
    ∀ key ∈ rs.committedInstances, ∀ committed, rs.instances.get? key = some committed →
      committed.requestId ≠ requestId

section Selections

/-- Two checked requests with one id are the same. -/
theorem ValidContent.eq_of_requestId
    {digestOf : String → Bool → String} {content content' : PBFTInstance}
    (h : ValidContent digestOf content)
    (h' : ValidContent digestOf content')
    (hid : content.requestId = content'.requestId) :
    content = content' := by
  obtain ⟨-, hdigest, hstop⟩ := h
  obtain ⟨-, hdigest', hstop'⟩ := h'
  rw [validDigest, decide_eq_true_iff] at hdigest hdigest'
  cases content
  cases content'
  simp only at hid hdigest hdigest' hstop hstop'
  subst hid hstop hstop'
  rw [hdigest, hdigest']

/-- What is selected from certificates is the content of one of them. -/
theorem selectPrepared_spec
    {preparedMessages : List ViewChange} {selection : Selection}
    (h : selectPrepared preparedMessages = some selection) :
    selection.fromPreparedCertificate = true ∧ ∃ m ∈ preparedMessages,
      m.preparedSequenceNumber = selection.sequenceNumber ∧ m.content = selection.content := by
  unfold selectPrepared at h
  dsimp only at h
  split at h
  case h_1 sequenceNumber content hcandidates =>
    obtain rfl := Option.some.inj h
    have hmem : (sequenceNumber, content) ∈ [(sequenceNumber, content)] := List.mem_singleton_self _
    rw [← hcandidates, List.mem_dedup, List.mem_map] at hmem
    obtain ⟨m, hm, heq⟩ := hmem
    obtain ⟨hseq, hcontent⟩ := Prod.mk.inj heq
    exact ⟨rfl, m, List.mem_of_mem_filter hm, hseq, hcontent⟩
  case h_2 => cases h

/-- The messages of a proof that have a certificate. -/
def certified (viewChangeMessages : List ViewChange) : List ViewChange :=
  viewChangeMessages.filter (·.hasPreparedCertificate)

theorem selectRequestForNewView_certified
    {viewChangeMessages : List ViewChange}
    (h : certified viewChangeMessages ≠ []) :
    rs.selectRequestForNewView viewChangeMessages =
      selectPrepared (certified viewChangeMessages) :=
  if_pos h

theorem selectRequestForNewView_cached
    {viewChangeMessages : List ViewChange} {selection : Selection}
    (h : certified viewChangeMessages = []) :
    rs.selectRequestForNewView viewChangeMessages = some selection ↔
      ∃ content, rs.eligibleCachedRequests = [content] ∧
        selection = ⟨content, false, 0, rs.nextSequenceNumber⟩ := by
  simp only [selectRequestForNewView]
  rw [if_neg (by rw [not_not]; exact h)]
  split
  case h_1 content hone =>
    constructor
    · intro hselect
      exact ⟨content, hone, (Option.some.inj hselect).symm⟩
    · rintro ⟨content', hone', rfl⟩
      rw [hone] at hone'
      obtain rfl := List.head_eq_of_cons_eq hone'
      rfl
  case h_2 hmany =>
    constructor
    · intro hselect
      cases hselect
    · rintro ⟨content, hone, -⟩
      exact absurd hone (hmany content)

/-- A certificate of a valid proof is about a checked request. -/
theorem content_of_validProof
    {maxFaulty : ℕ} {digestOf : String → Bool → String} {newView : ℕ}
    {viewChangeMessages : List ViewChange} {m : ViewChange}
    (h : validProof maxFaulty digestOf newView viewChangeMessages = true)
    (hm : m ∈ certified viewChangeMessages) :
    m.preparedSequenceNumber ≠ 0 ∧ ValidContent digestOf m.content := by
  rw [validProof, decide_eq_true_iff] at h
  obtain ⟨hmem, hcertificate⟩ := List.mem_filter.mp hm
  have hvalid := (h.2.2 m hmem).2.2
  rw [validateViewChangeCertificate, if_neg (by rw [hcertificate]; decide),
    decide_eq_true_iff] at hvalid
  exact ⟨hvalid.2.1, hvalid.2.2.1, hvalid.2.2.2.2.1, hvalid.2.2.2.1⟩

end Selections

section Invariant

/-- A NEW-VIEW as a correct primary builds it. -/
structure Built (D : Deployment) (m : NewView) : Prop where
  wellFormed : WellFormed D.f D.digestOf m
  prepared : certified m.viewChangeMessages ≠ [] →
    selectPrepared (certified m.viewChangeMessages) = some ⟨m.content,
      m.selectedFromPreparedCertificate, m.selectedPreparedView, m.selectedSequenceNumber⟩
  cached : certified m.viewChangeMessages = [] →
    m.selectedFromPreparedCertificate = false ∧ m.selectedPreparedView = 0

/-- The caches of a correct replica and what it has accepted and built. -/
structure Careful (D : Deployment) (rs : PBFTReplica) : Prop where
  cached : ∀ requestId content, rs.cachedClientRequests.get? requestId = some content →
    content.requestId = requestId ∧ ValidContent D.digestOf content
  next : 0 < rs.nextSequenceNumber
  accepted : ∀ m ∈ rs.acceptedNewViewPayloads, m.newView ≤ rs.currentView
  built : ∀ m, .newView m ∈ rs.sent → Built D m

theorem careful_init (i : ℤ) (parameters : Parameters) :
    Careful D (init D.f i parameters) where
  cached := fun _ _ h => absurd h (by simp [init, Dict.get?, Dict.empty])
  next := Nat.one_pos
  accepted := fun _ h => absurd h List.not_mem_nil
  built := fun _ h => absurd h List.not_mem_nil

theorem mem_eligibleCachedRequests
    {content : PBFTInstance} :
    content ∈ rs.eligibleCachedRequests ↔ rs.Outstanding content := by
  have hids : ∀ requestId, requestId ∉ (rs.committedInstances.filterMap fun key =>
      (rs.instances.get? key).map (·.requestId)) ↔
      ∀ key ∈ rs.committedInstances, ∀ committed, rs.instances.get? key = some committed →
        committed.requestId ≠ requestId := by
    intro requestId
    simp only [List.mem_filterMap, Option.map_eq_some_iff, not_exists, not_and, ne_eq]
  unfold eligibleCachedRequests Outstanding
  simp only [List.mem_map, List.mem_filter, decide_eq_true_eq]
  constructor
  · rintro ⟨⟨requestId, _⟩, ⟨hmem, hopen⟩, rfl⟩
    exact ⟨requestId, Dict.get?_of_mem_entries hmem, (hids requestId).mp hopen⟩
  · rintro ⟨requestId, hget, hopen⟩
    exact ⟨(requestId, content), ⟨Dict.mem_entries_of_get? hget, (hids requestId).mpr hopen⟩, rfl⟩

/-- The request is the only outstanding one. -/
theorem Careful.eligible_eq_singleton
    (h : rs.Careful D) {content : PBFTInstance} :
    rs.eligibleCachedRequests = [content] ↔
      ∀ content', rs.Outstanding content' ↔ content' = content := by
  simp only [← mem_eligibleCachedRequests]
  constructor
  · intro hone content'
    rw [hone, List.mem_singleton]
  · intro hall
    -- Requests are cached under their ids, which are distinct.
    have hnodup : rs.eligibleCachedRequests.Nodup := by
      have hkeys : (rs.cachedClientRequests.entries.filter fun p => p.1 ∉
          rs.committedInstances.filterMap fun key =>
            (rs.instances.get? key).map (·.requestId)).map (fun p => p.2.requestId) =
          (rs.cachedClientRequests.entries.filter fun p => p.1 ∉
            rs.committedInstances.filterMap fun key =>
              (rs.instances.get? key).map (·.requestId)).map Prod.fst := by
        refine List.map_congr_left fun p hp => ?_
        exact (h.cached p.1 p.2 (Dict.get?_of_mem_entries (List.mem_of_mem_filter hp))).1
      have hfst := rs.cachedClientRequests.nodup.sublist
        (List.Sublist.map Prod.fst (List.filter_sublist (p := fun p => decide (p.1 ∉
          rs.committedInstances.filterMap fun key =>
            (rs.instances.get? key).map (·.requestId)))))
      rw [← hkeys] at hfst
      refine List.Nodup.of_map PBFTInstance.requestId ?_
      unfold eligibleCachedRequests
      rw [List.map_map]
      exact hfst
    refine List.perm_singleton.mp ((List.perm_ext_iff_of_nodup hnodup
      (List.nodup_singleton _)).mpr fun content' => ?_)
    rw [hall, List.mem_singleton]

/-- What a careful primary builds. -/
theorem Careful.built_of_build
    {newView : ℕ} {viewChangeMessages : List ViewChange} {m : NewView}
    (h : rs.Careful D)
    (hbuild : rs.buildNewViewMessage D.f D.digestOf newView viewChangeMessages = some m) :
    Built D m := by
  unfold buildNewViewMessage at hbuild
  simp only [Option.ite_none_left_eq_some, not_not, not_le, Bool.not_eq_false] at hbuild
  obtain ⟨hsender, -, hproof, hselect⟩ := hbuild
  split at hselect
  case h_1 => cases hselect
  case h_2 selection hselection =>
    obtain rfl := Option.some.inj hselect
    by_cases hcertified : certified viewChangeMessages = []
    · obtain ⟨content, hone, rfl⟩ := (selectRequestForNewView_cached hcertified).mp hselection
      obtain ⟨requestId, hget, -⟩ := mem_eligibleCachedRequests.mp
        (show content ∈ rs.eligibleCachedRequests by rw [hone]; exact List.mem_singleton_self _)
      exact ⟨⟨hsender, hproof, rfl, h.next.ne', (h.cached _ _ hget).2⟩,
        fun hne => absurd hcertified hne, fun _ => ⟨rfl, rfl⟩⟩
    · rw [selectRequestForNewView_certified hcertified] at hselection
      obtain ⟨hfrom, p, hp, hseq, hcontent⟩ := selectPrepared_spec hselection
      obtain ⟨hne, hvalid⟩ := content_of_validProof hproof hp
      rw [hseq] at hne
      rw [hcontent] at hvalid
      exact ⟨⟨hsender, hproof, rfl, hne, hvalid⟩, fun _ => hselection,
        fun hempty => absurd hempty hcertified⟩

/-- One effect of a callback. -/
theorem Careful.acts
    (horderly : rs.Orderly D K)
    (hact : Acts D.f D.digestOf e A L C rs rs')
    (h : rs.Careful D) :
    rs'.Careful D := by
  -- A checked request is cached under its id.
  have hset : ∀ content, ValidContent D.digestOf content → ∀ requestId content',
      (rs.cachedClientRequests.set content.requestId content).get? requestId = some content' →
      content'.requestId = requestId ∧ ValidContent D.digestOf content' := by
    intro content hcontent requestId content' hget
    rw [Dict.get?_set] at hget
    split at hget
    case isTrue heq =>
      obtain rfl := Option.some.inj hget
      exact ⟨heq.symm, hcontent⟩
    case isFalse => exact h.cached _ _ hget
  cases hact with
  | quiet hq =>
      refine ⟨?_, ?_, ?_, ?_⟩
      · rw [hq.cachedClientRequests]
        exact h.cached
      · rw [hq.nextSequenceNumber]
        exact h.next
      · rw [hq.acceptedNewViewPayloads, hq.currentView]
        exact h.accepted
      · rw [hq.sent]
        exact h.built
  | cache hcontent => exact { h with cached := hset _ hcontent }
  | assign =>
      exact { h with
        next := Nat.succ_pos _
        built := fun m hm => h.built m (by simpa [publish] using hm) }
  | recover | prepare | sendCommit | suspect =>
      exact { h with built := fun m hm => h.built m (by simpa [publish] using hm) }
  | lead hbuild =>
      refine { h with built := fun m hm => ?_ }
      rcases List.mem_append.mp hm with hm | hm
      · exact h.built m hm
      · obtain rfl := Message.newView.inj (List.mem_singleton.mp hm)
        exact h.built_of_build hbuild
  | install _ hvalid =>
      obtain ⟨hview, hwell, -, heq⟩ := validateNewViewMessage_eq_some.mp hvalid
      obtain ⟨rfl, rfl⟩ := Prod.mk.inj heq
      refine ⟨hset _ hwell.content, lt_max_of_lt_left h.next, ?_, h.built⟩
      intro p hp
      rcases List.mem_append.mp hp with hp | hp
      · exact (h.accepted p hp).trans hview.le
      · rw [List.mem_singleton.mp hp]
        exact le_refl _
  | refuse hvalid hconflict =>
      -- A checked NEW-VIEW meets no conflict.
      obtain ⟨hview, hwell, -, heq⟩ := validateNewViewMessage_eq_some.mp hvalid
      obtain ⟨rfl, rfl⟩ := Prod.mk.inj heq
      rcases hconflict with ⟨existing, hget, -⟩ | ⟨existing, hget, hne⟩
      · have hle := horderly.views _ _ hget
        exact absurd hview (not_lt.mpr hle)
      · obtain ⟨hid, hvalid'⟩ := h.cached _ _ hget
        exact absurd (hvalid'.eq_of_requestId hwell.content hid) hne
  | _ => exact { h with }

/-- A callback keeps the invariant. -/
theorem Careful.runs
    (hown : ∀ m, e = some (.prePrepare m) → m.senderId = rs.nodeId →
      rs.instances.get? m.key = some m.content)
    (hC : ∀ m, C m → validSender D.f m.senderId = true ∧ K m.senderId m.key m.content)
    (hnode : validSender D.f rs.nodeId = true)
    (horderly : rs.Orderly D K)
    (hruns : Runs D.f D.digestOf e A L C rs rs')
    (h : rs.Careful D) :
    rs'.Careful D := by
  induction hruns with
  | refl => exact h
  | tail hprefix hact ih => exact ih.acts (horderly.runs hown hC hnode hprefix).2 hact

end Invariant

section Acceptance

/-- The replica has begun the view with the selected request and its number. -/
def Activated (rs : PBFTReplica) (m : NewView) : Prop :=
  rs.currentView = m.newView ∧
    rs.instances.get? (m.newView, m.selectedSequenceNumber) = some m.content ∧
    rs.currentKey = some (m.newView, m.selectedSequenceNumber)

/-- Who expects the selection of a correct primary. -/
theorem Built.expects_iff
    {m : NewView}
    (h : rs.Careful D)
    (hm : Built D m) :
    rs.Expects m ↔ certified m.viewChangeMessages ≠ [] ∨
      ∀ content, rs.Outstanding content ↔ content = m.content := by
  unfold Expects
  by_cases hcertified : certified m.viewChangeMessages = []
  · obtain ⟨hfrom, hview⟩ := hm.cached hcertified
    rw [← h.eligible_eq_singleton]
    constructor
    · rintro ⟨expected, hselect, -, -, hcontent, -⟩
      obtain ⟨content, hone, rfl⟩ := (selectRequestForNewView_cached hcertified).mp hselect
      rw [hcontent]
      exact Or.inr hone
    · rintro (hne | hone)
      · exact absurd hcertified hne
      · exact ⟨_, (selectRequestForNewView_cached hcertified).mpr ⟨m.content, hone, rfl⟩, hfrom,
          hview, rfl, fun htrue => absurd htrue Bool.false_ne_true, fun _ => hview⟩
  · constructor
    · exact fun _ => Or.inl hcertified
    · intro _
      have hselect := hm.prepared hcertified
      obtain ⟨hfrom, -⟩ := selectPrepared_spec hselect
      refine ⟨_, (selectRequestForNewView_certified hcertified).trans hselect, rfl, rfl, rfl,
        fun _ => rfl, fun hfalse => ?_⟩
      rw [hfrom] at hfalse
      cases hfalse

/-- A NEW-VIEW that passes the checks is activated. -/
theorem activated_of_validated
    {m : NewView}
    (horderly : rs.Orderly D K)
    (h : rs.Careful D)
    (hvalid : rs.validateNewViewMessage D.f D.digestOf m =
      some (m.content, m.selectedSequenceNumber)) :
    (rs.newViewCallback D.f D.digestOf m).Activated m := by
  obtain ⟨hview, hwell, -, -⟩ := validateNewViewMessage_eq_some.mp hvalid
  have hnew : rs.acceptedNewViewPayloads.any (fun p => p.newView = m.newView) = false := by
    rw [List.any_eq_false]
    intro p hp heq
    have hle := h.accepted p hp
    rw [of_decide_eq_true heq] at hle
    omega
  have hfree : rs.instances.get? (m.newView, m.selectedSequenceNumber) = none := by
    cases hget : rs.instances.get? (m.newView, m.selectedSequenceNumber) with
    | none => rfl
    | some existing => exact absurd (horderly.views _ _ hget) (not_le.mpr hview)
  have hcache : (rs.cachedClientRequests.get? m.content.requestId).any (· ≠ m.content) = false := by
    cases hget : rs.cachedClientRequests.get? m.content.requestId with
    | none => rfl
    | some existing =>
        obtain ⟨hid, hchecked⟩ := h.cached _ _ hget
        simpa using hchecked.eq_of_requestId hwell.content hid
  unfold newViewCallback
  rw [if_neg (by rw [hnew]; decide), hvalid]
  dsimp only
  unfold activateNewView
  rw [if_neg (by simp [hfree]), if_neg (by rw [hcache]; decide)]
  -- Arming the timers changes none of the three.
  have hinstalled : (installView D.f { rs with
      acceptedNewViewPayloads := rs.acceptedNewViewPayloads ++ [m] } m.newView m.content
        m.selectedSequenceNumber).Activated m := by
    refine ⟨rfl, ?_, rfl⟩
    change (rs.instances.set _ _).get? _ = _
    rw [Dict.get?_set]
    exact if_pos rfl
  have harmed : ∀ rs₁ : PBFTReplica, rs₁.Activated m → ∀ requestId,
      (rs₁.armProgressTimeout requestId).Activated m := by
    intro rs₁ h₁ requestId
    unfold armProgressTimeout
    repeat' split
    all_goals exact h₁
  have hscheduled : ∀ rs₁ : PBFTReplica, rs₁.Activated m → ∀ key,
      (rs₁.scheduleRecoveryPrePrepare key).Activated m := by
    intro rs₁ h₁ key
    unfold scheduleRecoveryPrePrepare
    repeat' split
    all_goals exact h₁
  dsimp only
  split
  case isTrue => exact hscheduled _ (harmed _ hinstalled _) _
  case isFalse => exact harmed _ hinstalled _

end Acceptance

end PBFTReplica

namespace Cluster

variable {w : Cluster} {i : ℤ} {e : Event} {ok : Cluster → ℤ × Event → Prop}

theorem reachable_careful
    (h : (cluster D).Reachable ok w) :
    ∀ i, (w i).Careful D := by
  refine Nodes.reachable_invariant (N := nodes D) (R := fun _ _ => True)
    (I := fun w i => (w i).Careful D) (fun _ => trivial) ?_ ?_ ?_ h
  · exact fun i => PBFTReplica.careful_init i _
  · intro w i e hreach hw _ henabled
    refine ⟨trivial, fun _ => ?_⟩
    rw [Function.update_self]
    have horderly := reachable_orderly hreach
    exact PBFTReplica.Careful.runs (fun _ => own_prePrepare (horderly i) henabled)
      (fun _ hm => hm) (validSender_nodeId (horderly i) henabled) (horderly i).orderly
      (handle_runs (A := fun _ _ => True) (L := fun _ => True) horderly henabled
        (fun _ _ _ _ _ => trivial) (fun _ _ _ _ => trivial)) (hw i)
  · intro w w' i _ heq hi
    rw [heq]
    exact hi

/-- Who accepts and activates the NEW-VIEW of a correct primary: with a PREPARED
certificate in the proof every replica of an earlier view, and otherwise those
whose only outstanding request is the selected one. -/
theorem newView_accepted_iff
    (hreach : (cluster D).Reachable ok w)
    {p r : ℤ} {m : NewView}
    (hm : .newView m ∈ (w p).sent)
    (hview : (w r).currentView < m.newView) :
    ((w r).validateNewViewMessage D.f D.digestOf m =
        some (m.content, m.selectedSequenceNumber) ∧
      ((w r).newViewCallback D.f D.digestOf m).Activated m) ↔
      ((∃ p ∈ m.viewChangeMessages, p.hasPreparedCertificate = true) ∨
        ∀ content, (w r).Outstanding content ↔ content = m.content) := by
  have hcareful := reachable_careful hreach
  have hbuilt := (hcareful p).built m hm
  have hcertified : PBFTReplica.certified m.viewChangeMessages ≠ [] ↔
      ∃ p ∈ m.viewChangeMessages, p.hasPreparedCertificate = true := by
    rw [PBFTReplica.certified, ne_eq, List.filter_eq_nil_iff]
    push Not
    rfl
  rw [← hcertified, ← hbuilt.expects_iff (hcareful r)]
  constructor
  · rintro ⟨hvalid, -⟩
    exact (PBFTReplica.validateNewViewMessage_eq_some.mp hvalid).2.2.1
  · intro hexpects
    have hvalid : (w r).validateNewViewMessage D.f D.digestOf m =
        some (m.content, m.selectedSequenceNumber) :=
      PBFTReplica.validateNewViewMessage_eq_some.mpr ⟨hview, hbuilt.wellFormed, hexpects, rfl⟩
    exact ⟨hvalid, PBFTReplica.activated_of_validated (reachable_orderly hreach r).orderly
      (hcareful r) hvalid⟩

section Runs

/-- Replica 2 accepts the NEW-VIEW that carries A over. -/
theorem newView_accepted_allCorrect :
    ∃ w, (cluster allCorrect).Reachable System.anyStep w ∧ .newView newViewA ∈ (w 1).sent ∧
      (w 2).currentView < newViewA.newView ∧
      ((w 2).newViewCallback allCorrect.f allCorrect.digestOf newViewA).Activated newViewA := by
  obtain ⟨w, hreach, hm, hview⟩ : ∃ w, (cluster allCorrect).Reachable System.anyStep w ∧
      .newView newViewA ∈ (w 1).sent ∧ (w 2).currentView < newViewA.newView := by
    refine System.exists_reaches_of_exec
      (proposeRun ++ firstCommitRun ++
        [(1, .progressTimeout), (2, .progressTimeout), (3, .progressTimeout),
          (1, .deliver (.viewChange (preparedChangeA 2))),
          (1, .deliver (.viewChange (emptyChange 3)))]) ?_
    decide +kernel
  exact ⟨w, hreach, hm, hview, ((newView_accepted_iff hreach hm hview).mpr
    (Or.inl ⟨preparedChangeA 1, by decide, rfl⟩)).2⟩

/-- Replica 2 has another outstanding request and rejects the NEW-VIEW of the
correct primary of view 1. -/
theorem newView_rejected :
    allCorrect.faulty = ∅ ∧ ∃ w, (cluster allCorrect).Reachable System.anyStep w ∧
      .newView newViewB ∈ (w 1).sent ∧ (w 2).currentView < newViewB.newView ∧
      (w 2).validateNewViewMessage allCorrect.f allCorrect.digestOf newViewB = none := by
  obtain ⟨w, hreach, hm, hview, hreject⟩ : ∃ w, (cluster allCorrect).Reachable System.anyStep w ∧
      .newView newViewB ∈ (w 1).sent ∧ (w 2).currentView < newViewB.newView ∧
      (w 2).validateNewViewMessage allCorrect.f allCorrect.digestOf newViewB = none := by
    refine System.exists_reaches_of_exec
      [(1, requestOf requestB), (2, requestOf requestB), (3, requestOf requestB),
        (2, requestOf requestA), (1, .progressTimeout), (2, .progressTimeout), (3, .progressTimeout),
        (1, .deliver (.viewChange (emptyChange 2))), (1, .deliver (.viewChange (emptyChange 3)))] ?_
    decide +kernel
  exact ⟨rfl, w, hreach, hm, hview, hreject⟩

end Runs

end Cluster

end RosPbft
end DistributedConsensus
