import DistributedConsensus.Ibft.Invariants

/-!
# IBFT: agreement

Two correct nodes that run the same instance never decide different values,
whether they count the commit messages themselves or catch up through a
certificate.  The announcements of a run form a sound record of round-based
voting, and a decision is a committed value of that record.
-/

namespace DistributedConsensus
namespace Ibft

open Foundations

variable {n : Nat} {keys : SignatureScheme} {byz : Finset (Fin n)}

/-- The invariant of the cluster. -/
structure WorldInv (hbyz : byz.card ≤ maxFaultyNodes n) (keys : SignatureScheme) (w : World n) :
    Prop where
  storage : ∀ i, i ∉ byz → Storage keys byz i (w.nodes i) w.net.messages
  voting : ∀ i, i ∉ byz → Voting hbyz i (w.nodes i) w.net.messages
  known : ∀ m ∈ w.net.messages, Known keys byz w.net.messages m
  fresh : ∀ i, i ∉ byz → w.started i = false → ∀ m ∈ w.net.messages, m.fromId ≠ i

section Runs

variable {hbyz : byz.card ≤ maxFaultyNodes n} {w w' : World n}

/-- A step is a sequence of actions of one correct node, after a reset when the
node starts.  `K` is what is known of the messages that can be delivered. -/
theorem worldStep_cases
    {l : Label n} {K : Message → Prop}
    (hmode : ∀ i, i ∉ byz → (w.nodes i).byzantineMode = .none)
    (hK : ∀ i msg, Deliverable keys byz w.net i msg → K msg)
    (hstep : worldStep keys byz w l = some w') :
    ∃ i s ρ, i ∉ byz ∧
      ((w.started i = true ∧ w' = w.put i s ∧ Actions keys ρ K (w.nodes i, w.net) s) ∨
        ∃ lambda value, w.started i = false ∧ w' = (w.put i s).markStarted i ∧
          Actions keys ρ K ((w.nodes i).reset lambda value, w.net) s) := by
  cases l with
  | start i lambda value ρ =>
      simp only [worldStep] at hstep
      split at hstep
      case isTrue hcond =>
        exact ⟨i, _, ρ, hcond.1, Or.inr ⟨lambda, value, hcond.2, (Option.some.inj hstep).symm,
          Node.start_actions w.net (hmode i hcond.1) lambda value⟩⟩
      case isFalse => cases hstep
  | deliver i msg ρ =>
      simp only [worldStep] at hstep
      split at hstep
      case isTrue hcond =>
        exact ⟨i, _, ρ, hcond.1, Or.inl ⟨hcond.2.1, (Option.some.inj hstep).symm,
          Node.handleMessage_actions w.net (hmode i hcond.1) (hK i msg hcond.2.2)⟩⟩
      case isFalse => cases hstep
  | timeout i ρ =>
      simp only [worldStep] at hstep
      split at hstep
      case isTrue hcond =>
        exact ⟨i, _, ρ, hcond.1, Or.inl ⟨hcond.2, (Option.some.inj hstep).symm,
          Node.onTimeout_actions w.net⟩⟩
      case isFalse => cases hstep
  | requestRoundChange i targetRound ρ =>
      simp only [worldStep] at hstep
      split at hstep
      case isTrue hcond =>
        exact ⟨i, _, ρ, hcond.1, Or.inl ⟨hcond.2, (Option.some.inj hstep).symm,
          Node.requestRoundChange_actions w.net targetRound⟩⟩
      case isFalse => cases hstep

/-- A message that can be delivered is known. -/
theorem WorldInv.known_of_deliverable
    {i : Fin n} {msg : Message}
    (hinv : WorldInv hbyz keys w)
    (h : Deliverable keys byz w.net i msg) :
    Known keys byz w.net.messages msg := by
  rcases h with hqueue | hknown
  · exact hinv.known msg (List.mem_map_of_mem hqueue)
  · exact hknown

/-- The messages of one node leave the invariants of the others alone. -/
theorem WorldInv.put
    {i : Fin n} {s : Node × Network}
    (hinv : WorldInv hbyz keys w)
    (hhealthy : Healthy hbyz keys i w.net.messages s)
    (hnodes : w'.nodes = Function.update w.nodes i s.1)
    (hnet : w'.net = s.2)
    (hself : w'.started i = true)
    (hothers : ∀ j, j ≠ i → w'.started j = w.started j) :
    WorldInv hbyz keys w' := by
  have hother : ∀ j, j ≠ i → w'.nodes j = w.nodes j := by
    intro j hj
    rw [hnodes, Function.update_of_ne hj]
  have hsame : w'.nodes i = s.1 := by
    rw [hnodes, Function.update_self]
  constructor
  · intro j hj
    rw [hnet]
    by_cases hji : j = i
    · subst hji
      rw [hsame]
      exact hhealthy.storage
    · rw [hother j hji]
      exact (hinv.storage j hj).mono hhealthy.grows
  · intro j hj
    rw [hnet]
    by_cases hji : j = i
    · subst hji
      rw [hsame]
      exact hhealthy.voting
    · rw [hother j hji]
      refine (hinv.voting j hj).extend hhealthy.grows (fun m hm hfrom _ => ?_)
      rcases hhealthy.own m hm with hold | hown
      · exact hold
      · have hij : (j : Int) = i := hfrom.symm.trans hown
        exact absurd (Fin.ext (Int.ofNat.inj hij)) hji
  · rw [hnet]
    exact hhealthy.known
  · intro j hj hstarted m hm
    rw [hnet] at hm
    have hji : j ≠ i := by
      rintro rfl
      rw [hself] at hstarted
      cases hstarted
    rw [hothers j hji] at hstarted
    rcases hhealthy.own m hm with hold | hown
    · exact hinv.fresh j hj hstarted m hold
    · rw [hown]
      intro hij
      exact hji (Fin.ext (Int.ofNat.inj hij)).symm

theorem worldInv_init : WorldInv hbyz keys (initialWorld n) where
  storage _ _ :=
    { id_eq := rfl
      validators_eq := rfl
      mode_eq := rfl
      prepares := fun _ _ _ hm => nomatch hm
      commits := fun _ _ _ hm => nomatch hm
      roundChanges := fun _ _ hm => nomatch hm
      certificate := fun _ hm => nomatch hm }
  voting _ _ :=
    { round_pos := le_refl 1
      prepare_votes := fun _ hm => nomatch hm
      prepare_unique := fun _ hm => nomatch hm
      commit_votes := fun _ hm => nomatch hm
      change_votes := fun _ hm => nomatch hm
      carried := fun _ hm => nomatch hm
      decided := fun hd => nomatch hd }
  known _ hm := nomatch hm
  fresh _ _ _ _ hm := nomatch hm

theorem WorldInv.step
    {l : Label n}
    (hinv : WorldInv hbyz keys w)
    (hstep : worldStep keys byz w l = some w') :
    WorldInv hbyz keys w' := by
  obtain ⟨i, s, ρ, hi, ⟨hstarted, rfl, hacts⟩ | ⟨lambda, value, hstarted, rfl, hacts⟩⟩ :=
    worldStep_cases (fun i hi => (hinv.storage i hi).mode_eq)
      (fun _ _ h => hinv.known_of_deliverable h) hstep
  · have hhealthy : Healthy hbyz keys i w.net.messages (w.nodes i, w.net) :=
      ⟨hinv.storage i hi, hinv.voting i hi, hinv.known, List.Subset.refl _, fun _ hm => Or.inl hm⟩
    exact hinv.put (hhealthy.actions (fun _ hm => hm) hacts) rfl rfl hstarted (fun _ _ => rfl)
  · have hhealthy : Healthy hbyz keys i w.net.messages ((w.nodes i).reset lambda value, w.net) :=
      Healthy.reset lambda value (hinv.storage i hi) hinv.known (hinv.fresh i hi hstarted)
    exact hinv.put (hhealthy.actions (fun _ hm => hm) hacts) rfl rfl (Function.update_self ..)
      (fun j hj => Function.update_of_ne hj ..)

theorem worldInv_of_reachable
    (hw : (cluster keys byz).Reachable System.anyStep w) :
    WorldInv hbyz keys w :=
  System.Reachable.invariant worldInv_init (fun _ _ _ _ hinv _ hstep => hinv.step hstep) hw

/-- The announcements of a run form a sound record. -/
theorem WorldInv.sound
    (hinv : WorldInv hbyz keys w) (lambda : Int) :
    RoundVoting.Sound (votingGroup hbyz) (record w.net.messages lambda) 1 where
  prepare_unique := by
    rintro i hi r v v' ⟨m, hm, hfrom, ht, -, hr, hv⟩ ⟨m', hm', hfrom', ht', -, hr', hv'⟩
    rw [← hv, ← hv']
    exact (hinv.voting i hi).prepare_unique m hm m' hm' hfrom hfrom' ht ht' (hr.trans hr'.symm)
  prepare_justified := by
    rintro i hi r v ⟨m, hm, hfrom, ht, rfl, rfl, rfl⟩
    obtain ⟨-, -, -, hjust⟩ := (hinv.voting i hi).prepare_votes m hm hfrom ht
    exact hjust.imp_left le_of_eq
  commit_prepared := by
    rintro i hi r v ⟨m, hm, hfrom, ht, rfl, rfl, rfl⟩
    obtain ⟨-, hpos, -, -, hprep⟩ := (hinv.voting i hi).commit_votes m hm hfrom ht
    exact ⟨hpos, hprep⟩
  commit_carried := by
    rintro i hi r v s c ⟨m, hm, hfrom, ht, -, rfl, -⟩ ⟨m', hm', hfrom', ht', -, rfl, rfl⟩ hlt
    have hcarried := (hinv.voting i hi).carried m hm m' hm' hfrom hfrom' ht ht' hlt
    obtain ⟨-, hpos, -⟩ := (hinv.voting i hi).commit_votes m hm hfrom ht
    have hne : m'.preparedRound ≠ noPreparedRound := by
      unfold noPreparedRound
      omega
    exact ⟨m'.preparedRound, by simp [reportedRound, hne], hcarried⟩

end Runs

/-- Two correct nodes of one instance never decide different values. -/
theorem decisionValue_eq_of_decided
    {n : Nat} (keys : SignatureScheme) (byz : Finset (Fin n))
    (hbyz : byz.card ≤ maxFaultyNodes n)
    {w : World n}
    (hw : (cluster keys byz).Reachable System.anyStep w)
    {i j : Fin n}
    (hi : i ∉ byz)
    (hj : j ∉ byz)
    (hlambda : (w.nodes i).lambda = (w.nodes j).lambda)
    (hdi : (w.nodes i).decided = true)
    (hdj : (w.nodes j).decided = true) :
    (w.nodes i).decisionValue = (w.nodes j).decisionValue := by
  have hinv : WorldInv hbyz keys w := worldInv_of_reachable hw
  obtain ⟨r, hr⟩ := (hinv.voting i hi).decided hdi
  obtain ⟨s, hs⟩ := (hinv.voting j hj).decided hdj
  rw [hlambda] at hr
  exact (hinv.sound _).committed_unique hr hs

/-- A signature scheme that writes the signer and the content into the text. -/
def textSignatures : SignatureScheme where
  signMessage msg id := toString id ++ "|" ++ toString msg.round ++ "|" ++ msg.value
  verifySignature msg :=
    msg.signature = toString msg.fromId ++ "|" ++ toString msg.round ++ "|" ++ msg.value

/-- A message of instance 1 as its sender signs it. -/
def signedOf (msg : Message) : Message :=
  (newNode msg.fromId []).signMessage textSignatures msg

/-- A vote of the first round of instance 1. -/
def voteOf (type : MessageType) (id : Int) (value : String) : Message :=
  signedOf (plainMessage type id 1 1 value)

/-- Votes of the nodes 0, 1 and 3. -/
def certificateOf (type : MessageType) (value : String) : List Message :=
  [voteOf type 0 value, voteOf type 1 value, voteOf type 3 value]

/-- Loops visit the entries in the order of their insertion. -/
def insertionOrders : MapOrders := ⟨RangeOrder.insertion, RangeOrder.insertion⟩

/-- Nodes 0 and 1 run with the Byzantine node 3.  Node 0 decides on three commit
messages; node 1 times out and catches up through the certificate of node 0. -/
def catchUpRun : List (Label 4) :=
  let deliver (i : Fin 4) (m : Message) : Label 4 := .deliver i m insertionOrders
  [.start 0 1 "a" insertionOrders, .start 1 1 "b" insertionOrders] ++
  [deliver 0 (voteOf .prePrepare 0 "a"), deliver 1 (voteOf .prePrepare 0 "a")] ++
  (certificateOf .prepare "a").map (deliver 0) ++
  (certificateOf .prepare "a").map (deliver 1) ++
  (certificateOf .commit "a").map (deliver 0) ++
  [.timeout 1 insertionOrders,
    deliver 0 (signedOf { plainMessage .roundChange 1 1 2 "" with
      preparedRound := 1
      preparedValue := "a"
      justification := certificateOf .prepare "a" }),
    deliver 1 (signedOf { plainMessage .decisionCertificate 0 1 1 "a" with
      justification := certificateOf .commit "a" })]

/-- A run with a Byzantine validator in which two nodes decide. -/
theorem decisionValue_eq_catchUp :
    ∃ w : World 4,
      (cluster textSignatures ({3} : Finset (Fin 4))).Reachable System.anyStep w ∧
      (w.nodes 0).decided = true ∧ (w.nodes 1).decided = true ∧
      (w.nodes 0).decisionValue = (w.nodes 1).decisionValue := by
  have hrun : ∃ w : World 4,
      (cluster textSignatures ({3} : Finset (Fin 4))).Reaches System.anyStep (initialWorld 4) w ∧
      (w.nodes 0).lambda = (w.nodes 1).lambda ∧ (w.nodes 0).decided = true ∧
      (w.nodes 1).decided = true := by
    refine System.exists_reaches_of_exec catchUpRun ?_
    decide +kernel
  obtain ⟨w, hreach, hlambda, h0, h1⟩ := hrun
  exact ⟨w, hreach, h0, h1, decisionValue_eq_of_decided textSignatures {3} (by decide) hreach
    (by decide) (by decide) hlambda h0 h1⟩

end Ibft
end DistributedConsensus
