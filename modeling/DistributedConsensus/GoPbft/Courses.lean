import DistributedConsensus.GoPbft.Cluster

/-!
# PBFT: the course of a handler

What handling a message does to the view of a replica and to what it has sent: a
replica enters a view as its primary or when the NEW-VIEW message of the primary arrives,
and sends a COMMIT only for a PREPARE or PRE-PREPARE of the view in which it is active.
-/

namespace DistributedConsensus
namespace GoPbft

open Foundations

namespace RunState

variable {n : ℕ} {digestOf : ClientRequest → String} {P : PBFTMessage → Prop}
  {R : LogEntry → Prop} {Q : ℤ → ℤ → String → Prop} {rs rs' rs'' : RunState}

/-- What a handler that moves from the view `lo` to the view `hi` may multicast. -/
def Allowed (P : PBFTMessage → Prop) (Q : ℤ → ℤ → String → Prop) (lo hi : ℤ) : Kind → Prop
  | .prePrepare view seq digest _ => Q view seq digest ∧ view ≤ hi
  | .commit view seq digest =>
      ∃ j, P ⟨j, .prepare view seq digest⟩ ∨ ∃ req, P ⟨j, .prePrepare view seq digest req⟩
  | .newView nv _ => lo < nv ∧ nv ≤ hi
  | _ => True

/-- The NEW-VIEW of the primary for the current view is at hand. -/
def Invited (n : ℕ) (P : PBFTMessage → Prop) (rs : RunState) : Prop :=
  ∃ proofs, P ⟨primaryFor rs.view n, .newView rs.view proofs⟩

/-- What a handler does to the view and to what is sent. -/
structure Course (n : ℕ) (P : PBFTMessage → Prop) (Q : ℤ → ℤ → String → Prop)
    (rs rs' : RunState) : Prop where
  id : rs'.id = rs.id
  view_le : rs.view ≤ rs'.view
  view : rs'.view = rs.view ∨ primaryFor rs'.view n = rs.id ∨ rs'.Invited n P
  active : rs'.active = true → rs.active = true ∨ rs.view < rs'.view ∨ rs'.Invited n P
  sent : ∃ extra, rs'.sent = rs.sent ++ extra ∧
    ∀ b ∈ extra, b.msg.sender = rs.id ∧ Allowed P Q rs.view rs'.view b.msg.kind

theorem Course.refl (rs : RunState) : Course n P Q rs rs :=
  ⟨rfl, le_refl _, Or.inl rfl, Or.inl, [], by simp, by simp⟩

/-- A handler that stays in its view. -/
theorem Course.of_view_eq
    (hid : rs'.id = rs.id)
    (hview : rs'.view = rs.view)
    (hactive : rs'.active = true → rs.active = true)
    (extra : List Multicast)
    (hsent : rs'.sent = rs.sent ++ extra)
    (hextra : ∀ b ∈ extra, b.msg.sender = rs.id ∧ Allowed P Q rs.view rs'.view b.msg.kind) :
    Course n P Q rs rs' :=
  ⟨hid, hview.ge, Or.inl hview, fun h => Or.inl (hactive h), extra, hsent, hextra⟩

theorem Allowed.widen
    {lo lo' hi hi' : ℤ} {kind : Kind}
    (hlo : lo' ≤ lo)
    (hhi : hi ≤ hi')
    (h : Allowed P Q lo hi kind) :
    Allowed P Q lo' hi' kind := by
  cases kind with
  | prePrepare => exact ⟨h.1, h.2.trans hhi⟩
  | commit => exact h
  | newView => exact ⟨hlo.trans_lt h.1, h.2.trans hhi⟩
  | request | prepare | viewChange => trivial

theorem Course.trans
    (h : Course n P Q rs rs')
    (h' : Course n P Q rs' rs'') :
    Course n P Q rs rs'' := by
  obtain ⟨extra, hextra, hallowed⟩ := h.sent
  obtain ⟨extra', hextra', hallowed'⟩ := h'.sent
  refine ⟨h'.id.trans h.id, h.view_le.trans h'.view_le, ?_, ?_, extra ++ extra', ?_, ?_⟩
  · rcases h'.view with heq | hprimary | hinvited
    · rcases h.view with heq' | hprimary | hinvited
      · exact Or.inl (heq.trans heq')
      · rw [heq]
        exact Or.inr (Or.inl hprimary)
      · unfold Invited
        rw [heq]
        exact Or.inr (Or.inr hinvited)
    · rw [h.id] at hprimary
      exact Or.inr (Or.inl hprimary)
    · exact Or.inr (Or.inr hinvited)
  · intro hactive
    have hle := h.view_le
    have hle' := h'.view_le
    rcases h'.active hactive with hactive' | hlt | hinvited
    · rcases h.active hactive' with hactive | hlt | hinvited
      · exact Or.inl hactive
      · exact Or.inr (Or.inl (by omega))
      · rcases hle'.lt_or_eq with hlt | heq
        · exact Or.inr (Or.inl (by omega))
        · right; right
          unfold Invited
          rw [← heq]
          exact hinvited
    · exact Or.inr (Or.inl (by omega))
    · exact Or.inr (Or.inr hinvited)
  · rw [hextra', hextra, List.append_assoc]
  · intro b hb
    rcases List.mem_append.mp hb with hb | hb
    · obtain ⟨hsender, hkind⟩ := hallowed b hb
      exact ⟨hsender, hkind.widen (le_refl _) h'.view_le⟩
    · obtain ⟨hsender, hkind⟩ := hallowed' b hb
      exact ⟨hsender.trans h.id, hkind.widen h.view_le (le_refl _)⟩

theorem Acts.course
    (h : Acts n digestOf P R Q rs rs') :
    Course n P Q rs rs' := by
  cases h with
  | quiet hq =>
      exact Course.of_view_eq hq.id hq.view hq.active [] (by rw [hq.sent, List.append_nil])
        (by simp)
  | suspect =>
      exact Course.of_view_eq rfl rfl (fun h => by cases h) _ rfl
        (by simp [Allowed, castViewChangeVote])
  | @lead nv _ hlt hprimary =>
      exact ⟨rfl, hlt.le, Or.inr (Or.inl hprimary), fun _ => Or.inr (Or.inl hlt), _, rfl,
        by simpa [enterView, broadcast, Allowed] using hlt⟩
  | follow hP hle =>
      exact ⟨rfl, hle, Or.inr (Or.inr ⟨_, hP⟩), fun _ => Or.inr (Or.inr ⟨_, hP⟩), [],
        by simp [enterView], by simp⟩
  | propose _ hQ =>
      exact Course.of_view_eq rfl rfl (fun h => h) _ (List.append_assoc _ _ _)
        (by simpa [RunState.propose, broadcast, Allowed] using hQ)
  | accept => exact Course.of_view_eq rfl rfl (fun h => h) _ rfl (by simp [Allowed])
  | votePrepare | voteCommit | commit | execute =>
      exact Course.of_view_eq rfl rfl (fun h => h) [] (List.append_nil _).symm (by simp)
  | fire _ _ _ _ _ hnamed =>
      exact Course.of_view_eq rfl rfl (fun h => h) _ rfl (by simpa [Allowed] using hnamed)

theorem Runs.course
    (h : Runs n digestOf P R Q rs rs') :
    Course n P Q rs rs' := by
  induction h with
  | refl => exact Course.refl _
  | tail _ hact ih => exact ih.trans hact.course

/-- A message of the three phases has no effect on a replica that has stopped in
its view or is in another one. -/
theorem receive_of_other_view
    {m : PBFTMessage} {view seq : ℤ} {digest : String}
    (hkind : m.kind = .prepare view seq digest ∨ ∃ req, m.kind = .prePrepare view seq digest req)
    (hother : rs.active = false ∨ view ≠ rs.view) :
    rs.receive n digestOf m = rs := by
  rcases hkind with hkind | ⟨req, hkind⟩
  · unfold receive handlePrepare
    rw [hkind]
    exact if_pos hother
  · unfold receive handlePrePrepare
    rw [hkind]
    exact if_pos hother

/-- A new COMMIT answers a PREPARE or PRE-PREPARE of the view in which the replica is
active. -/
theorem commit_of_receive
    {m : PBFTMessage} {v s : ℤ} {d : String}
    (h : (rs.receive n digestOf m).HasSent (.commit v s d)) :
    rs.HasSent (.commit v s d) ∨ rs.active = true ∧ v = rs.view ∧
      (m.kind = .prepare v s d ∨ ∃ req, m.kind = .prePrepare v s d req) := by
  have hruns : Runs n digestOf (fun m' => m' = m) (fun _ => True) (fun _ _ _ => True) rs
      (rs.receive n digestOf m) :=
    receive_runs rfl (fun _ _ => trivial) fun _ _ _ _ => trivial
  have hcourse := hruns.course
  obtain ⟨b, hb, hmsg⟩ := h
  obtain ⟨extra, hextra, hallowed⟩ := hcourse.sent
  rw [hcourse.id] at hmsg
  rw [hextra] at hb
  rcases List.mem_append.mp hb with hb | hb
  · exact Or.inl ⟨b, hb, hmsg⟩
  · have hkind := (hallowed b hb).2
    rw [hmsg] at hkind
    have hphase : m.kind = .prepare v s d ∨ ∃ req, m.kind = .prePrepare v s d req := by
      obtain ⟨sender, hm | ⟨req, hm⟩⟩ := hkind
      · exact Or.inl (congrArg PBFTMessage.kind hm).symm
      · exact Or.inr ⟨req, (congrArg PBFTMessage.kind hm).symm⟩
    by_cases hother : rs.active = false ∨ v ≠ rs.view
    · -- The message would have no effect.
      rw [receive_of_other_view hphase hother] at hextra
      rw [List.self_eq_append_right.mp hextra] at hb
      cases hb
    · push Not at hother
      obtain ⟨hactive, hview⟩ := hother
      exact Or.inr ⟨by simpa using hactive, hview, hphase⟩

end RunState

end GoPbft
end DistributedConsensus
