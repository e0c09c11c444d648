import DistributedConsensus.IbftSimulator.Cluster

/-!
# IBFT simulator: the votes of one node

What holds of a node as long as all messages that it acts upon belong to its
block, relative to what all nodes have sent before the current event.
-/

namespace DistributedConsensus
namespace IbftSimulator

open Foundations

/-! ## The value of a proof -/

namespace IBFTNode

/-- The loop over a proof finds the highest prepared round. -/
theorem highestPrepared_foldl (msgs : List RoundChange) (best : ℤ × String) :
    let result := msgs.foldl
      (fun best m =>
        if m.preparedRound > best.1 ∧ m.preparedValue ≠ "" then (m.preparedRound, m.preparedValue)
        else best) best
    (∀ m ∈ msgs, m.preparedValue ≠ "" → m.preparedRound ≤ result.1) ∧ best.1 ≤ result.1 ∧
      (result = best ∨ ∃ m ∈ msgs, result = (m.preparedRound, m.preparedValue) ∧
        m.preparedValue ≠ "" ∧ best.1 < m.preparedRound) := by
  induction msgs generalizing best with
  | nil => exact ⟨nofun, le_refl _, Or.inl rfl⟩
  | cons m rest ih =>
      simp only [List.foldl_cons]
      by_cases hm : m.preparedRound > best.1 ∧ m.preparedValue ≠ ""
      · rw [if_pos hm]
        obtain ⟨hmax, hle, hresult⟩ := ih (m.preparedRound, m.preparedValue)
        refine ⟨?_, hm.1.le.trans hle, Or.inr ?_⟩
        · intro x hx hne
          rcases List.mem_cons.mp hx with rfl | hx
          · exact hle
          · exact hmax x hx hne
        · rcases hresult with heq | ⟨x, hx, heq, hne, hlt⟩
          · exact ⟨m, List.mem_cons_self, heq, hm.2, hm.1⟩
          · exact ⟨x, List.mem_cons_of_mem _ hx, heq, hne, hm.1.trans hlt⟩
      · rw [if_neg hm]
        obtain ⟨hmax, hle, hresult⟩ := ih best
        refine ⟨?_, hle, ?_⟩
        · intro x hx hne
          rcases List.mem_cons.mp hx with rfl | hx
          · have hsmall : x.preparedRound ≤ best.1 := by
              by_contra hgt
              exact hm ⟨not_le.mp hgt, hne⟩
            exact hsmall.trans hle
          · exact hmax x hx hne
        · refine hresult.imp_right ?_
          rintro ⟨x, hx, heq⟩
          exact ⟨x, List.mem_cons_of_mem _ hx, heq⟩

/-- The value of a proof is the default, or the value of a message with the highest
prepared round. -/
theorem highestPrepared_spec (default : String) (msgs : List RoundChange) :
    (∀ m ∈ msgs, m.preparedValue ≠ "" → m.preparedRound ≤ -1) ∨
      ∃ m ∈ msgs, (highestPrepared default msgs).2 = m.preparedValue ∧ -1 < m.preparedRound ∧
        ∀ x ∈ msgs, x.preparedValue ≠ "" → x.preparedRound ≤ m.preparedRound := by
  obtain ⟨hmax, -, heq | ⟨m, hm, heq, -, hlt⟩⟩ := highestPrepared_foldl msgs (-1, default)
  · left
    rw [heq] at hmax
    exact hmax
  · right
    rw [heq] at hmax
    refine ⟨m, hm, ?_, hlt, hmax⟩
    unfold highestPrepared
    rw [heq]

theorem blockValue_ne_empty (lambda : ℤ) : blockValue lambda ≠ "" := by
  unfold blockValue
  intro h
  have hlength := congrArg String.length h
  simp [String.length_append] at hlength

theorem proposeValue_ne_empty {n : IBFTNode} (h : n.inputValue ≠ "") (v : String) :
    n.proposeValue v ≠ "" := by
  unfold proposeValue
  split
  case isTrue hv => exact hv.1
  case isFalse => exact h

end IBFTNode

namespace Cluster

variable {D : Deployment} {w : Cluster} {n n' : IBFTNode} {e : Option IBFTMessage}

/-- A ROUND-CHANGE reports a prepared round when it has one. -/
theorem Reports.reported
    {m : RoundChange}
    (h : w.Reports D m.lambda m.round m.preparedRound m.preparedValue) :
    m.reported = none ∧ m.preparedRound = -1 ∨
      m.reported = some m.preparedRound ∧ 1 ≤ m.preparedRound ∧ m.preparedRound < m.round ∧
        m.preparedValue ≠ "" ∧ w.Prepared D m.lambda m.preparedRound m.preparedValue := by
  unfold RoundChange.reported
  rcases h with hnone | ⟨hpos, hlt, hne, hprepared⟩
  · exact Or.inl ⟨if_pos hnone, hnone⟩
  · exact Or.inr ⟨if_neg (by omega), hpos, hlt, hne, hprepared⟩

/-- A proof with a quorum of reports justifies its value. -/
theorem justified_of_proof
    {lambda r : ℤ} {proof : List RoundChange} {default : String}
    (hquorum : 2 * D.f + 1 ≤ proof.length)
    (hnodup : (proof.map RoundChange.senderID).Nodup)
    (hproof : ∀ c ∈ proof, w.Known D (.roundChange c) ∧ c.lambda = lambda ∧ c.round = r)
    (hreports : ∀ c ∈ proof, w.Reports D c.lambda c.round c.preparedRound c.preparedValue) :
    w.Justified D lambda r (IBFTNode.highestPrepared default proof).2 := by
  -- The senders of the proof are a quorum.
  obtain ⟨Q, hcard, hQ⟩ := exists_fin_of_identities (n := D.size)
    (proof.map RoundChange.senderID).toFinset (by
      intro k hk
      rw [List.mem_toFinset] at hk
      obtain ⟨c, hc, rfl⟩ := List.mem_map.mp hk
      obtain ⟨⟨⟨hpos, hlt⟩, -⟩, -⟩ := hproof c hc
      change 0 ≤ c.senderID at hpos
      change c.senderID < D.size at hlt
      exact ⟨⟨c.senderID.toNat, by omega⟩, by simp [hpos]⟩)
  rw [List.toFinset_card_of_nodup hnodup, List.length_map] at hcard
  have hmessage : ∀ i ∈ Q, ∃ c ∈ proof, c.senderID = (i : ℤ) := by
    intro i hi
    have hmem := hQ i hi
    rw [List.mem_toFinset] at hmem
    exact List.mem_map.mp hmem
  choose! named hnamed hsender using hmessage
  refine ⟨Q, fun i => (named i).reported, hcard ▸ hquorum, ?_, ?_⟩
  · intro i hi _
    obtain ⟨hknown, hlambda, hround⟩ := hproof _ (hnamed i hi)
    refine ⟨named i, ?_, hlambda, hround, rfl⟩
    rw [← hsender i hi]
    exact hknown.2
  · rcases IBFTNode.highestPrepared_spec default proof with hnone | ⟨c, hc, hvalue, hpos, hmax⟩
    · left
      intro i hi
      rcases (hreports _ (hnamed i hi)).reported with ⟨hreport, -⟩ | ⟨-, hpos, -, hne, -⟩
      · exact hreport
      · have hle := hnone _ (hnamed i hi) hne
        omega
    · right
      obtain ⟨-, rfl, rfl⟩ := hproof c hc
      rcases (hreports c hc).reported with ⟨-, hreport⟩ | ⟨-, -, hlt, -, hprepared⟩
      · omega
      · refine ⟨c.preparedRound, hlt, ?_, ?_⟩
        · rw [hvalue]
          exact hprepared
        · intro i hi q hq
          change (named i).reported = some q at hq
          rcases (hreports _ (hnamed i hi)).reported with ⟨hreport, -⟩ | ⟨hreport, -, -, hne, -⟩
          · rw [hreport] at hq
            cases hq
          · rw [hreport] at hq
            obtain rfl := Option.some.inj hq
            exact hmax _ (hnamed i hi) hne

/-! ## The invariant of a node -/

/-- What holds of a node, relative to what all nodes have sent. -/
structure Upright (D : Deployment) (w : Cluster) (n : IBFTNode) : Prop where
  validators : n.validators = D.validators
  input : n.inputValue ≠ ""
  round_pos : 1 ≤ n.round
  backed : ∀ m ∈ n.sent, m.senderID = n.id ∧ m.signer = some n.id ∧ w.Backed D m
  past : ∀ m ∈ n.sent, m.lambda < n.lambda ∨ m.lambda = n.lambda ∧ m.round ≤ n.round
  prepares : ∀ v, ∀ j ∈ n.prepareVotes.getD v ∅,
    w.Known D (.prepare ⟨n.lambda, n.round, v, j, some j⟩)
  commits : ∀ v, ∀ j ∈ n.commitVotes.getD v ∅,
    w.Known D (.commit ⟨n.lambda, n.round, v, j, some j⟩)
  roundChanges : ∀ r j m, (n.roundChanges r).get? j = some m →
    w.Known D (.roundChange m) ∧ m.lambda = n.lambda ∧ m.round = r ∧ m.senderID = j
  reports : w.Reports D n.lambda (n.round + 1) n.pr n.pv
  proposed : ∀ p p', .prePrepare p ∈ n.sent → .prePrepare p' ∈ n.sent → p.lambda = p'.lambda →
    p.round = p'.round → p = p'
  started : ∀ p, .prePrepare p ∈ n.sent → p.lambda = n.lambda →
    p.round ≤ 1 ∨ p.round ≤ n.lastStartedRound
  locked : ∀ c, .commit c ∈ n.sent → c.lambda = n.lambda → c.round ≤ n.pr
  carried : ∀ c m, .commit c ∈ n.sent → .roundChange m ∈ n.sent → c.lambda = m.lambda →
    c.round < m.round → c.round ≤ m.preparedRound
  decisions : ∀ lambda v, (lambda, v) ∈ n.decisions → ∃ r, w.Committed D lambda r v

/-- Progress of the cluster. -/
theorem Upright.mono
    {w' : Cluster}
    (hext : Nodes.Extends Grows w w')
    (h : w.Upright D n) :
    w'.Upright D n where
  validators := h.validators
  input := h.input
  round_pos := h.round_pos
  backed m hm := by
    obtain ⟨hsender, hsigner, hbacked⟩ := h.backed m hm
    exact ⟨hsender, hsigner, hbacked.mono hext⟩
  past := h.past
  prepares v j hj := (h.prepares v j hj).mono hext
  commits v j hj := (h.commits v j hj).mono hext
  roundChanges r j m hm := (h.roundChanges r j m hm).imp_left fun h => h.mono hext
  reports := h.reports.mono hext
  proposed := h.proposed
  started := h.started
  locked := h.locked
  carried := h.carried
  decisions lambda v hv := by
    obtain ⟨r, hr⟩ := h.decisions lambda v hv
    exact ⟨r, hr.mono hext⟩

theorem quorum_eq (h : n.validators = D.validators) : n.quorum = 2 * D.f + 1 := by
  unfold IBFTNode.quorum
  rw [h]
  simp [Deployment.validators, Deployment.size]

/-- A known message of an upright node is signed by its sender and backed. -/
theorem Known.spec
    {m : IBFTMessage}
    (hw : ∀ j, (w j).id = j ∧ w.Upright D (w j))
    (h : w.Known D m) :
    m.signer = some m.senderID ∧ w.Backed D m := by
  obtain ⟨-, hsigner, hbacked⟩ := (hw m.senderID).2.backed m h.2
  rw [(hw m.senderID).1] at hsigner
  exact ⟨hsigner, hbacked⟩

/-- The votes that a node has counted for a value make a quorum. -/
theorem exists_quorum
    {S : Finset ℤ}
    {P : ℤ → Prop}
    (hS : ∀ j ∈ S, D.IsNode j ∧ P j)
    (hcard : 2 * D.f + 1 ≤ S.card) :
    ∃ Q : Finset (Fin D.size), 2 * D.f + 1 ≤ Q.card ∧ ∀ i ∈ Q, P i := by
  obtain ⟨Q, hQ, hmem⟩ := exists_fin_of_identities (n := D.size) S (by
    intro k hk
    obtain ⟨⟨hpos, hlt⟩, -⟩ := hS k hk
    exact ⟨⟨k.toNat, by omega⟩, by simp [hpos]⟩)
  exact ⟨Q, hQ ▸ hcard, fun i hi => (hS i (hmem i hi)).2⟩

theorem Upright.prepared
    {v : String}
    (h : w.Upright D n)
    (hquorum : n.quorum ≤ (n.prepareVotes.getD v ∅).card) :
    w.Prepared D n.lambda n.round v := by
  rw [quorum_eq h.validators] at hquorum
  obtain ⟨Q, hQ, hvotes⟩ := exists_quorum (fun j hj => h.prepares v j hj) hquorum
  exact ⟨Q, hQ, fun i hi _ => hvotes i hi⟩

theorem Upright.committed
    {v : String}
    (h : w.Upright D n)
    (hquorum : n.quorum ≤ (n.commitVotes.getD v ∅).card) :
    w.Committed D n.lambda n.round v := by
  rw [quorum_eq h.validators] at hquorum
  obtain ⟨Q, hQ, hvotes⟩ := exists_quorum (fun j hj => h.commits v j hj) hquorum
  exact ⟨Q, hQ, fun i hi _ => hvotes i hi⟩

/-- A prepared value is not empty. -/
theorem Prepared.ne_empty
    {lambda r : ℤ} {v : String}
    (hw : ∀ j, (w j).id = j ∧ w.Upright D (w j))
    (h : w.Prepared D lambda r v) :
    v ≠ "" := by
  obtain ⟨Q, hQ, hvotes⟩ := h
  obtain ⟨i, hi, hcorrect⟩ := (votingGroup D).exists_correct hQ
  obtain ⟨-, -, ⟨p, hp, -, -, rfl⟩, -⟩ := (hw i).2.backed _ (hvotes i hi hcorrect)
  exact (hp.spec hw).2.1

/-! ## One more message -/

/-- A node sends a backed message of its block and round. -/
theorem Upright.broadcast
    {m : IBFTMessage}
    (hlambda : (m.sign n.id).lambda = n.lambda)
    (hround : (m.sign n.id).round = n.round)
    (hsender : (m.sign n.id).senderID = n.id)
    (hsigner : (m.sign n.id).signer = some n.id)
    (hbacked : w.Backed D (m.sign n.id))
    (hproposal : ∀ p, m.sign n.id = .prePrepare p →
      (p.round ≤ 1 ∨ p.round ≤ n.lastStartedRound) ∧
      ∀ p', .prePrepare p' ∈ n.sent → p'.lambda = n.lambda → p'.round ≠ n.round)
    (hcommit : ∀ c, m.sign n.id = .commit c → c.round ≤ n.pr)
    (hchange : ∀ c, m.sign n.id = .roundChange c → c.preparedRound = n.pr)
    (h : w.Upright D n) :
    w.Upright D (n.broadcast m) := by
  have hmem : ∀ {x}, x ∈ (n.broadcast m).sent → x ∈ n.sent ∨ x = m.sign n.id := by
    intro x hx
    unfold IBFTNode.broadcast at hx
    rw [List.mem_append, List.mem_singleton] at hx
    exact hx
  constructor
  · exact h.validators
  · exact h.input
  · exact h.round_pos
  · intro x hx
    rcases hmem hx with hold | rfl
    · exact h.backed x hold
    · exact ⟨hsender, hsigner, hbacked⟩
  · intro x hx
    rcases hmem hx with hold | rfl
    · exact h.past x hold
    · exact Or.inr ⟨hlambda, hround.le⟩
  · exact h.prepares
  · exact h.commits
  · exact h.roundChanges
  · exact h.reports
  · intro p p' hp hp' hl hr
    rcases hmem hp with hold | hnew
    · rcases hmem hp' with hold' | hnew'
      · exact h.proposed p p' hold hold' hl hr
      · rw [← hnew'] at hlambda hround
        exact absurd (hr.trans hround) ((hproposal p' hnew'.symm).2 p hold (hl.trans hlambda))
    · rw [← hnew] at hlambda hround
      rcases hmem hp' with hold' | hnew'
      · exact absurd (hr.symm.trans hround)
          ((hproposal p hnew.symm).2 p' hold' (hl.symm.trans hlambda))
      · rw [← hnew'] at hnew
        exact IBFTMessage.prePrepare.inj hnew
  · intro p hp hl
    rcases hmem hp with hold | hnew
    · exact h.started p hold hl
    · exact (hproposal p hnew.symm).1
  · intro c hc hl
    rcases hmem hc with hold | hnew
    · exact h.locked c hold hl
    · exact hcommit c hnew.symm
  · intro c x hc hx hl hlt
    rcases hmem hx with hold | hnew
    · rcases hmem hc with hold' | hnew'
      · exact h.carried c x hold' hold hl hlt
      · -- The ROUND-CHANGE is not of a later round than the new COMMIT.
        rw [← hnew'] at hlambda hround
        change c.lambda = n.lambda at hlambda
        change c.round = n.round at hround
        have hpast : x.lambda < n.lambda ∨ x.lambda = n.lambda ∧ x.round ≤ n.round := h.past _ hold
        omega
    · rw [hchange x hnew.symm]
      rw [← hnew] at hlambda
      rcases hmem hc with hold' | hnew'
      · exact h.locked c hold' (hl.trans hlambda)
      · rw [← hnew'] at hnew
        cases hnew
  · exact h.decisions

/-! ## The effects -/

/-- A block or round that the node has not been in. -/
theorem Upright.enter
    {lambda round lastStarted : ℤ}
    (hround : 1 ≤ round)
    (hpast : ∀ m ∈ n.sent, m.lambda < lambda ∨ m.lambda = lambda ∧ m.round ≤ round)
    (hreports : w.Reports D lambda (round + 1) n'.pr n'.pv)
    (hstarted : ∀ p, .prePrepare p ∈ n.sent → p.lambda = lambda →
      p.round ≤ 1 ∨ p.round ≤ lastStarted)
    (hlocked : ∀ c, .commit c ∈ n.sent → c.lambda = lambda → c.round ≤ n'.pr)
    (hprepares : ∀ v, n'.prepareVotes.getD v ∅ = ∅)
    (hcommits : ∀ v, n'.commitVotes.getD v ∅ = ∅)
    (hchanges : ∀ r j m, (n'.roundChanges r).get? j = some m →
      lambda = n.lambda ∧ (n.roundChanges r).get? j = some m)
    (hinput : n'.inputValue ≠ "")
    (hn' : n'.lambda = lambda ∧ n'.round = round ∧ n'.lastStartedRound = lastStarted ∧
      n'.id = n.id ∧ n'.validators = n.validators ∧ n'.sent = n.sent ∧
      n'.decisions = n.decisions)
    (h : w.Upright D n) :
    w.Upright D n' := by
  obtain ⟨rfl, rfl, rfl, hid, hvalidators, hsent, hdecisions⟩ := hn'
  constructor
  · rw [hvalidators]
    exact h.validators
  · exact hinput
  · exact hround
  · rw [hsent, hid]
    exact h.backed
  · rw [hsent]
    exact hpast
  · intro v j hj
    rw [hprepares v] at hj
    exact absurd hj (Finset.notMem_empty j)
  · intro v j hj
    rw [hcommits v] at hj
    exact absurd hj (Finset.notMem_empty j)
  · intro r j m hm
    obtain ⟨hlambda, hold⟩ := hchanges r j m hm
    rw [hlambda]
    exact h.roundChanges r j m hold
  · exact hreports
  · rw [hsent]
    exact h.proposed
  · rw [hsent]
    exact hstarted
  · rw [hsent]
    exact hlocked
  · rw [hsent]
    exact h.carried
  · rw [hdecisions]
    exact h.decisions

theorem Reports.later
    {lambda r s pr : ℤ} {pv : String}
    (hle : r ≤ s)
    (h : w.Reports D lambda r pr pv) :
    w.Reports D lambda s pr pv :=
  h.imp_right fun ⟨hpos, hlt, hrest⟩ => ⟨hpos, hlt.trans_le hle, hrest⟩

theorem Upright.changeRound (h : w.Upright D n) : w.Upright D n.changeRound := by
  have hround := h.round_pos
  have hentered : w.Upright D { n with
      round := n.round + 1, prepareVotes := .empty, commitVotes := .empty } := by
    refine @Upright.enter D w n _ n.lambda (n.round + 1) _ (by omega) ?_
      (h.reports.later (by omega)) h.started h.locked (fun _ => rfl) (fun _ => rfl)
      (fun _ _ _ hm => ⟨rfl, hm⟩) h.input ⟨rfl, rfl, rfl, rfl, rfl, rfl, rfl⟩ h
    intro m hm
    rcases h.past m hm with hlt | ⟨heq, hle⟩
    · exact Or.inl hlt
    · exact Or.inr ⟨heq, by omega⟩
  refine hentered.broadcast rfl rfl rfl rfl ⟨?_, h.reports⟩ nofun nofun ?_
  · show 2 ≤ n.round + 1
    omega
  · intro c hc
    cases hc
    rfl

theorem Upright.entered (h : w.Upright D n) : w.Upright D (n.enter n.lambda n.round) where
  __ := h
  input := by
    show (if n.round = 1 then blockValue n.lambda else n.inputValue) ≠ ""
    split
    case isTrue => exact IBFTNode.blockValue_ne_empty _
    case isFalse => exact h.input

/-- A leader starts a round with a value and a proof. -/
theorem Upright.start
    {value : String} {proof : List RoundChange}
    (hproof : n.round ≤ 1 ∨ (proof.map RoundChange.senderID).Nodup ∧
      ∀ c ∈ proof, w.Known D (.roundChange c) ∧ c.lambda = n.lambda ∧ c.round = n.round)
    (hstarted : n.round ≤ 1 ∨ n.round ≤ n.lastStartedRound)
    (hfresh : ∀ p, .prePrepare p ∈ n.sent → p.lambda = n.lambda → p.round ≠ n.round)
    (hentered : w.Upright D (n.enter n.lambda n.round)) :
    w.Upright D (n.start n.lambda n.round value proof) := by
  unfold IBFTNode.start
  simp only
  split
  case isTrue hleader =>
    refine hentered.broadcast rfl rfl rfl rfl ⟨?_, ?_, hproof⟩ ?_ nofun nofun
    · exact IBFTNode.proposeValue_ne_empty hentered.input value
    · have heq := of_decide_eq_true hleader
      show n.id = Int.tmod (n.lambda + n.round) D.size
      have hlength : (n.enter n.lambda n.round).validators.length = D.size := by
        rw [hentered.validators]
        simp [Deployment.validators]
      rw [hlength] at heq
      exact heq
    · intro p hp
      cases hp
      exact ⟨hstarted, hfresh⟩
  case isFalse => exact hentered

theorem Upright.lead
    {o : MapOrder ℤ}
    (hw : ∀ j, (w j).id = j ∧ w.Upright D (w j))
    (hquorum : n.quorum ≤ (n.roundChanges n.round).size)
    (hlast : n.lastStartedRound < n.round)
    (h : w.Upright D n) :
    w.Upright D (n.lead o) := by
  have hentry : ∀ c ∈ (n.getRCProof o).1,
      ∃ j, (n.roundChanges n.round).get? j = some c ∧ c.senderID = j := by
    intro c hc
    obtain ⟨⟨j, c'⟩, hmem, rfl⟩ := List.mem_map.mp hc
    have hget := Dict.mem_inOrder.mp hmem
    exact ⟨j, hget, (h.roundChanges _ _ _ hget).2.2.2⟩
  -- The round of the leader has a ROUND-CHANGE, so it is not the first one.
  have hlater : 2 ≤ n.round := by
    obtain ⟨⟨j, c⟩, hmem⟩ : ∃ x, x ∈ (n.roundChanges n.round).entries := by
      apply List.exists_mem_of_length_pos
      have hpos : 0 < n.quorum := by
        unfold IBFTNode.quorum
        omega
      exact hpos.trans_le hquorum
    obtain ⟨hknown, -, hround, -⟩ := h.roundChanges _ _ _ (Dict.get?_of_mem_entries hmem)
    have hbacked := (hknown.spec hw).2.1
    omega
  have hstarted : w.Upright D { n with lastStartedRound := n.round } :=
    { h with
      started := fun p hp hl => by
        rcases h.started p hp hl with hfirst | hle
        · exact Or.inl hfirst
        · exact Or.inr (hle.trans hlast.le) }
  refine Upright.start (Or.inr ⟨?_, ?_⟩) (Or.inr (le_refl _)) ?_ hstarted.entered
  · have hkeys : (n.getRCProof o).1.map RoundChange.senderID =
        ((n.roundChanges n.round).inOrder o).map Prod.fst := by
      unfold IBFTNode.getRCProof
      rw [List.map_map]
      refine List.map_congr_left ?_
      rintro ⟨j, c⟩ hmem
      exact (h.roundChanges _ _ _ (Dict.mem_inOrder.mp hmem)).2.2.2
    show ((n.getRCProof o).1.map RoundChange.senderID).Nodup
    rw [hkeys]
    exact ((Dict.inOrder_perm _ o).map Prod.fst).nodup_iff.mpr (n.roundChanges n.round).nodup
  · intro c hc
    obtain ⟨j, hget, -⟩ := hentry c hc
    obtain ⟨hknown, hlambda, hround, -⟩ := h.roundChanges _ _ _ hget
    exact ⟨hknown, hlambda, hround⟩
  · intro p hp hl
    change p.lambda = n.lambda at hl
    show p.round ≠ n.round
    rcases h.started p hp hl with hfirst | hle <;> omega

theorem Upright.nextInstance
    (honline : n.isOffline = false)
    (h : w.Upright D n) :
    w.Upright D n.nextInstance := by
  have hpast : ∀ m ∈ n.sent, m.lambda < n.lambda + 1 := by
    intro m hm
    rcases h.past m hm with hlt | ⟨heq, -⟩ <;> omega
  unfold IBFTNode.nextInstance
  rw [if_neg (by rw [honline]; exact Bool.false_ne_true)]
  refine Upright.start (Or.inl (le_refl _)) (Or.inl (le_refl _)) ?_ (Upright.entered
    (@Upright.enter D w n _ (n.lambda + 1) 1 _ (le_refl 1)
      (fun m hm => Or.inl (hpast m hm)) (Or.inl rfl) ?_ ?_ (fun _ => rfl) (fun _ => rfl) ?_
      (IBFTNode.blockValue_ne_empty _) ⟨rfl, rfl, rfl, rfl, rfl, rfl, rfl⟩ h))
  · intro p hp hl
    have hlt := hpast _ hp
    change p.lambda < n.lambda + 1 at hlt
    change p.lambda = n.lambda + 1 at hl
    omega
  · intro p hp hl
    have hlt := hpast _ hp
    change p.lambda < n.lambda + 1 at hlt
    omega
  · intro c hc hl
    have hlt := hpast _ hc
    change c.lambda < n.lambda + 1 at hlt
    omega
  · intro r j m hm
    cases hm

/-- A signed vote of a block and round. -/
theorem vote_eq
    {m : Vote} {lambda round : ℤ}
    (hlambda : m.lambda = lambda)
    (hround : m.round = round)
    (hsigner : m.signer = some m.senderID) :
    m = ⟨lambda, round, m.value, m.senderID, some m.senderID⟩ := by
  rw [← hlambda, ← hround, ← hsigner]

/-- Every effect keeps the invariant, when what is heard is known. -/
theorem Upright.acts
    (hw : ∀ j, (w j).id = j ∧ w.Upright D (w j))
    (he : ∀ m ∈ e, w.Known D m)
    (hact : IBFTNode.Acts e n n')
    (h : w.Upright D n) :
    w.Upright D n' := by
  cases hact with
  | quiet hquiet =>
      obtain ⟨_, _, rfl⟩ := hquiet
      exact { h with }
  | @countPrepares votes hcounts =>
      refine { h with prepares := fun v j hj => ?_ }
      rcases hcounts v j hj with hold | ⟨m, hm, hlambda, hround, rfl, rfl⟩
      · exact h.prepares v j hold
      · have hknown := he _ hm
        rw [vote_eq hlambda hround (hknown.spec hw).1] at hknown
        exact hknown
  | @countCommits votes hcounts =>
      refine { h with commits := fun v j hj => ?_ }
      rcases hcounts v j hj with hold | ⟨m, hm, hlambda, hround, rfl, rfl⟩
      · exact h.commits v j hold
      · have hknown := he _ hm
        rw [vote_eq hlambda hround (hknown.spec hw).1] at hknown
        exact hknown
  | @store m hm hlambda =>
      refine { h with roundChanges := fun r j x hx => ?_ }
      unfold IBFTNode.roundChanges IBFTNode.store at hx
      rw [Dict.getD_set] at hx
      split at hx
      case isTrue hr =>
        rw [Dict.get?_set] at hx
        split at hx
        case isTrue hj =>
          obtain rfl := Option.some.inj hx
          exact ⟨he _ hm, hlambda, hr.symm, hj.symm⟩
        case isFalse =>
          rw [← hr] at hx
          exact h.roundChanges r j x hx
      case isFalse => exact h.roundChanges r j x hx
  | @prepare m hm hlambda hround hjustifies =>
      have hknown := he _ hm
      obtain ⟨-, -, -, hsupported⟩ := hknown.spec hw
      refine h.broadcast rfl rfl rfl rfl ⟨⟨m, hknown, hlambda, hround, rfl⟩, ?_⟩
        (fun _ hp => by cases hp) (fun _ hc => by cases hc) (fun _ hc => by cases hc)
      rcases hjustifies with hfirst | ⟨hquorum, hvalue⟩
      · exact Or.inl (hround ▸ hfirst)
      · rcases hsupported with hfirst | ⟨hnodup, hproof⟩
        · exact Or.inl (hround ▸ hfirst)
        · right
          rw [quorum_eq h.validators] at hquorum
          rw [hlambda, hround] at hproof
          show w.Justified D n.lambda n.round m.value
          rw [hvalue]
          exact justified_of_proof hquorum hnodup hproof fun c hc =>
            ((hproof c hc).1.spec hw).2.2
  | @lock v hquorum =>
      have hprepared := h.prepared hquorum
      refine { h with
        reports := Or.inr ⟨h.round_pos, (Int.lt_succ _), hprepared.ne_empty hw, hprepared⟩
        locked := fun c hc hl => ?_ }
      have hpast : c.lambda < n.lambda ∨ c.lambda = n.lambda ∧ c.round ≤ n.round := h.past _ hc
      change c.lambda = n.lambda at hl
      show c.round ≤ n.round
      omega
  | commit hpr =>
      have hreports := h.reports
      rw [hpr] at hreports
      have hpos := h.round_pos
      refine h.broadcast rfl rfl rfl rfl ⟨hpos, ?_⟩ (fun _ hp => by cases hp) ?_
        (fun _ hc => by cases hc)
      · rcases hreports with hnone | ⟨-, -, -, hprepared⟩
        · omega
        · exact hprepared
      · intro c hc
        cases hc
        exact hpr.ge
  | @decide v hquorum =>
      refine { h with decisions := fun lambda x hx => ?_ }
      rcases List.mem_append.mp hx with hold | hx
      · exact h.decisions lambda x hold
      · obtain ⟨rfl, rfl⟩ := Prod.mk.inj (List.mem_singleton.mp hx)
        exact ⟨n.round, h.committed hquorum⟩
  | changeRound => exact h.changeRound
  | lead _ hquorum hlast => exact h.lead hw hquorum hlast
  | nextInstance honline => exact h.nextInstance honline

end Cluster

end IbftSimulator
end DistributedConsensus
