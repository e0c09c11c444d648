import DistributedConsensus.Coordinator.Raft.NodeSteps

/-!
# Raft: election safety

At most one node is ever leader in a term.  The proof follows the votes: a
ballot says for whom a node has voted in a term, if it has voted.  A ballot is
never changed once it is cast, since term and vote are stored before a vote is
granted and survive a crash.  A leader holds the ballots of a majority.

Nothing is assumed about the logs, so the result also covers appends made by a
node that has been deposed in the meantime.
-/

namespace DistributedConsensus
namespace Raft

open Foundations
open Foundations.ReplicatedLog (Majority)

variable {ι : Type}

/-! ## Counting votes -/

section Counting

variable [Fintype ι] [DecidableEq ι] (M : Membership ι)

theorem Membership.card_eq (i : ι) : Fintype.card ι = (M.peers i).length + 1 := by
  have huniv : (Finset.univ : Finset ι) = insert i (M.peers i).toFinset := by
    ext j
    by_cases hj : j = i
    · simp [hj]
    · simp [hj, M.mem_peers]
  have hnot : i ∉ (M.peers i).toFinset := by
    simp [M.mem_peers]
  rw [← Finset.card_univ, huniv, Finset.card_insert_of_notMem hnot,
    List.toFinset_card_of_nodup (M.nodup i)]

/-- A node and enough others form a majority. -/
theorem Membership.majority_insert
    {i : ι} {l : List ι}
    (hnodup : l.Nodup)
    (hself : i ∉ l)
    (hcount : ((M.peers i).length + 1) / 2 + 1 ≤ 1 + l.length) :
    Majority (insert i l.toFinset) := by
  unfold Majority
  rw [Finset.card_insert_of_notMem (by simpa using hself), List.toFinset_card_of_nodup hnodup,
    M.card_eq i]
  omega

/-- A won election has a majority of granted votes. -/
theorem exists_majority_of_votesGranted
    {i : ι} {electionTerm : Nat} {responses : ι → Option RequestVoteResponse}
    (hvotes : votesGranted electionTerm ((M.peers i).filterMap responses) ≥
      ((M.peers i).length + 1) / 2 + 1) :
    ∃ Q : Finset ι, Majority Q ∧ ∀ v ∈ Q, v = i ∨ v ∈ M.peers i ∧
      ∃ r, responses v = some r ∧ r.voteGranted = true ∧ r.term = electionTerm := by
  unfold votesGranted at hvotes
  rw [List.countP_filterMap, List.countP_eq_length_filter] at hvotes
  refine ⟨_, M.majority_insert ((M.nodup i).filter _) (by simp [M.mem_peers]) hvotes, ?_⟩
  intro v hv
  rw [Finset.mem_insert, List.mem_toFinset, List.mem_filter] at hv
  rcases hv with rfl | ⟨hpeer, htest⟩
  · exact Or.inl rfl
  · refine Or.inr ⟨hpeer, ?_⟩
    cases hresp : responses v with
    | none => simp [hresp] at htest
    | some r =>
        simp only [hresp, Option.map_some, Option.getD_some, Bool.and_eq_true,
          decide_eq_true_eq] at htest
        exact ⟨r, rfl, htest.1, htest.2⟩

end Counting

/-! ## Ballots -/

/-- For whom a node has voted in a term. -/
abbrev Ballots (ι : Type) := ι → Nat → Option ι

namespace Ballots

/-- Ballots that were cast are the same later. -/
def Extends (b b' : Ballots ι) : Prop :=
  ∀ i T c, b i T = some c → b' i T = some c

theorem Extends.refl (b : Ballots ι) : b.Extends b := fun _ _ _ h => h

theorem Extends.trans
    {b b' b'' : Ballots ι}
    (h : b.Extends b')
    (h' : b'.Extends b'') :
    b.Extends b'' :=
  fun i T c hb => h' i T c (h i T c hb)

variable [DecidableEq ι]

/-- Cast a ballot. -/
def cast (b : Ballots ι) (i : ι) (T : Nat) (c : ι) : Ballots ι :=
  Function.update b i (Function.update (b i) T (some c))

@[simp] theorem cast_self (b : Ballots ι) (i : ι) (T : Nat) (c : ι) :
    b.cast i T c i T = some c := by
  simp [cast]

theorem cast_of_ne_term
    {b : Ballots ι} {i c : ι} {T U : Nat}
    (h : U ≠ T) :
    b.cast i T c i U = b i U := by
  simp [cast, h]

theorem cast_of_ne
    {b : Ballots ι} {i j c : ι} {T : Nat}
    (h : j ≠ i) :
    b.cast i T c j = b j := by
  simp [cast, h]

/-- A ballot may be cast once, and again for the same candidate. -/
theorem extends_cast
    {b : Ballots ι} {i c : ι} {T : Nat}
    (h : b i T = none ∨ b i T = some c) :
    b.Extends (b.cast i T c) := by
  intro j U c' hb
  by_cases hj : j = i
  · subst hj
    by_cases hU : U = T
    · subst hU
      rw [cast_self]
      rcases h with h | h
      · rw [h] at hb
        cases hb
      · rw [← h, hb]
    · rw [cast_of_ne_term hU]
      exact hb
  · rw [cast_of_ne hj]
    exact hb

end Ballots

/-- An operation that leaves term and vote alone and takes over no role. -/
structure Node.Keeps (n n' : Node ι) : Prop where
  persistentState : n'.persistentState = n.persistentState
  currentTerm : n'.currentTerm = n.currentTerm
  votedFor : n'.votedFor = n.votedFor
  role : n'.role = n.role ∨ n'.role = .follower
  election : n'.election = n.election ∨ n'.election = none

theorem Node.replicate_keeps (n : Node ι) (request : AppendEntriesRequest ι) :
    n.Keeps (n.replicate request).1 := by
  obtain ⟨st, c, r, heq, -, -⟩ := n.replicate_cases request
  rw [heq]
  exact ⟨rfl, rfl, rfl, Or.inr rfl, Or.inl rfl⟩

section Invariant

variable [Fintype ι]

/-- A node agrees with the ballots. -/
structure Voted (b : Ballots ι) (i : ι) (n : Node ι) : Prop where
  stored : n.Stored
  current : b i n.currentTerm = n.votedFor
  future : ∀ T, n.currentTerm < T → b i T = none
  task : ∀ t, n.election = some t → b i t.term = some i
  request : ∀ t r, n.election = some t → t.request = some r → r.candidateId = i
  candidate : n.role ≠ .follower → n.votedFor = some i
  leader : n.role = .leader → ∃ Q : Finset ι, Majority Q ∧ ∀ v ∈ Q, b v n.currentTerm = some i

/-- The nodes and the granted votes agree with the ballots. -/
structure ElectionInv (w : World ι) (b : Ballots ι) : Prop where
  voted : ∀ i, Voted b i (w.nodes i)
  granted : ∀ r ∈ w.voteReplies, r.response.voteGranted = true →
    b r.voter r.response.term = some r.request.candidateId

namespace Voted

variable {b b' : Ballots ι} {i : ι} {n n' : Node ι}

/-- Only the ballots of the node itself and cast ballots of others matter. -/
theorem mono
    (h : Voted b i n)
    (hext : b.Extends b')
    (hsame : b' i = b i) :
    Voted b' i n where
  stored := h.stored
  current := by
    rw [hsame]
    exact h.current
  future := by
    rw [hsame]
    exact h.future
  task := by
    rw [hsame]
    exact h.task
  request := h.request
  candidate := h.candidate
  leader hrole := by
    obtain ⟨Q, hmaj, hQ⟩ := h.leader hrole
    exact ⟨Q, hmaj, fun v hv => hext v _ _ (hQ v hv)⟩

theorem keeps
    (h : Voted b i n)
    (hk : n.Keeps n') :
    Voted b i n' where
  stored := by
    unfold Node.Stored
    rw [hk.persistentState, hk.currentTerm, hk.votedFor]
    exact h.stored
  current := by
    rw [hk.currentTerm, hk.votedFor]
    exact h.current
  future := by
    rw [hk.currentTerm]
    exact h.future
  task t ht := by
    rcases hk.election with heq | heq
    · rw [heq] at ht
      exact h.task t ht
    · rw [heq] at ht
      cases ht
  request t r ht hr := by
    rcases hk.election with heq | heq
    · rw [heq] at ht
      exact h.request t r ht hr
    · rw [heq] at ht
      cases ht
  candidate hrole := by
    rcases hk.role with heq | heq
    · rw [hk.votedFor]
      rw [heq] at hrole
      exact h.candidate hrole
    · exact absurd heq hrole
  leader hrole := by
    rcases hk.role with heq | heq
    · rw [hk.currentTerm]
      rw [heq] at hrole
      exact h.leader hrole
    · rw [heq] at hrole
      cases hrole

/-- No ballot is cast by seeing a term. -/
theorem seeTerm
    (h : Voted b i n) (T : Nat) :
    Voted b i (n.seeTerm T) := by
  unfold Node.seeTerm
  split
  case isTrue => exact h
  case isFalse hlt =>
    push Not at hlt
    exact {
      stored := rfl
      current := h.future T hlt
      future := fun U hU => h.future U (hlt.trans hU)
      task := h.task
      request := h.request
      candidate := fun hrole => absurd rfl hrole
      leader := fun hrole => by cases hrole }

variable [DecidableEq ι]

/-- The node casts a ballot in its current term. -/
theorem votedTo
    {c : ι}
    (h : Voted b i n)
    (hfree : n.votedFor = none ∨ n.votedFor = some c) :
    b.Extends (b.cast i n.currentTerm c) ∧
      Voted (b.cast i n.currentTerm c) i (n.votedTo c) := by
  have hext : b.Extends (b.cast i n.currentTerm c) := by
    apply Ballots.extends_cast
    rw [h.current]
    exact hfree
  refine ⟨hext, rfl, ?_, ?_, ?_, h.request, ?_, ?_⟩
  · exact Ballots.cast_self b i n.currentTerm c
  · intro T hT
    have hlt : n.currentTerm < T := hT
    rw [Ballots.cast_of_ne_term (Nat.ne_of_gt hlt)]
    exact h.future T hlt
  · intro t ht
    exact hext i t.term i (h.task t ht)
  · intro hrole
    have hown := h.candidate hrole
    rcases hfree with hnone | hsome
    · rw [hnone] at hown
      cases hown
    · rw [← hown, hsome]
      rfl
  · intro hrole
    obtain ⟨Q, hmaj, hQ⟩ := h.leader hrole
    exact ⟨Q, hmaj, fun v hv => hext v _ _ (hQ v hv)⟩

/-- The node stands for election in the next term. -/
theorem beginElection
    (h : Voted b i n)
    (hn' : n.beginElection i = some n') :
    b.Extends (b.cast i n'.currentTerm i) ∧
      Voted (b.cast i n'.currentTerm i) i { n' with election := some ⟨n'.currentTerm, none⟩ } := by
  obtain rfl := Node.beginElection_eq_some h.stored hn'
  refine ⟨Ballots.extends_cast (Or.inl (h.future _ (Nat.lt_succ_self _))), rfl, ?_, ?_, ?_, ?_, ?_, ?_⟩
  · exact Ballots.cast_self b i _ i
  · intro T hT
    rw [Ballots.cast_of_ne_term (Nat.ne_of_gt hT)]
    exact h.future T ((Nat.lt_succ_self _).trans hT)
  · rintro t ⟨⟩
    exact Ballots.cast_self b i _ i
  · rintro t r ⟨⟩ ⟨⟩
  · exact fun _ => rfl
  · rintro ⟨⟩

end Voted

end Invariant

section Step

variable [Fintype ι] [DecidableEq ι] {M : Membership ι} {w w' : World ι} {b b' : Ballots ι}

/-- A step that replaces one node and adds responses. -/
theorem ElectionInv.put
    {i : ι} {n' : Node ι}
    (h : ElectionInv w b)
    (hext : b.Extends b')
    (hother : ∀ j, j ≠ i → b' j = b j)
    (hnodes : w'.nodes = Function.update w.nodes i n')
    (hvoted : Voted b' i n')
    (hreplies : ∀ r ∈ w'.voteReplies, r ∈ w.voteReplies ∨
      (r.response.voteGranted = true → b' r.voter r.response.term = some r.request.candidateId)) :
    ElectionInv w' b' where
  voted j := by
    rw [hnodes]
    by_cases hj : j = i
    · subst hj
      rw [Function.update_self]
      exact hvoted
    · rw [Function.update_of_ne hj]
      exact (h.voted j).mono hext (hother j hj)
  granted r hr hgranted := by
    rcases hreplies r hr with hold | hnew
    · exact hext _ _ _ (h.granted r hold hgranted)
    · exact hnew hgranted

/-- A step of one node that casts no ballot. -/
theorem ElectionInv.put_same
    {i : ι} {n' : Node ι}
    (h : ElectionInv w b)
    (hnodes : w'.nodes = Function.update w.nodes i n')
    (hreplies : w'.voteReplies = w.voteReplies)
    (hvoted : Voted b i n') :
    ∃ b', b.Extends b' ∧ ElectionInv w' b' := by
  refine ⟨b, Ballots.Extends.refl b, h.put (Ballots.Extends.refl b) (fun _ _ => rfl) hnodes hvoted ?_⟩
  intro r hr
  rw [hreplies] at hr
  exact Or.inl hr

theorem ElectionInv.handleRequestVote
    {v : ι} {request : RequestVoteRequest ι}
    (h : ElectionInv w b)
    (hstep : worldStep M w (.handleRequestVote v request) = some w') :
    ∃ b', b.Extends b' ∧ ElectionInv w' b' := by
  obtain ⟨-, hw'⟩ := handleRequestVote_eq_some hstep
  have hv := h.voted v
  rcases Node.handleRequestVote_cases hv.stored request with ⟨T, heq⟩ | ⟨-, hfree, -, heq⟩
  · -- A refusal casts no ballot.
    rw [hw' _ _ heq]
    refine ⟨b, Ballots.Extends.refl b,
      h.put (Ballots.Extends.refl b) (fun _ _ => rfl) rfl (hv.seeTerm T) ?_⟩
    intro r hr
    rcases List.mem_append.mp hr with hold | hnew
    · exact Or.inl hold
    · cases List.mem_singleton.mp hnew
      exact Or.inr (fun hgranted => by cases hgranted)
  · rw [hw' _ _ heq]
    obtain ⟨hext, hvoted⟩ := (hv.seeTerm request.term).votedTo hfree
    refine ⟨_, hext, h.put hext (fun j hj => Ballots.cast_of_ne hj) rfl hvoted ?_⟩
    intro r hr
    rcases List.mem_append.mp hr with hold | hnew
    · exact Or.inl hold
    · cases List.mem_singleton.mp hnew
      exact Or.inr (fun _ => Ballots.cast_self _ _ _ _)

theorem ElectionInv.finishElection
    {i : ι} {responses : ι → Option RequestVoteResponse}
    (h : ElectionInv w b)
    (hstep : worldStep M w (.finishElection i responses) = some w') :
    ∃ b', b.Extends b' ∧ ElectionInv w' b' := by
  cases moves_of_worldStep hstep with
  | finishElection _ _ term request htask hreplies =>
      have hi := h.voted i
      rcases Node.concludeElection_cases hi.stored i (M.peers i) responses with
        ⟨T, heq⟩ | ⟨hrole, hterm, hvotes, heq⟩
      · rw [heq]
        exact h.put_same rfl rfl
          ((hi.seeTerm T).keeps ⟨rfl, rfl, rfl, Or.inl rfl, Or.inr rfl⟩)
      · rw [heq]
        refine h.put_same rfl rfl ⟨hi.stored, hi.current, hi.future, ?_, ?_, ?_, fun _ => ?_⟩
        · rintro t ⟨⟩
        · rintro t r ⟨⟩
        · intro _
          exact hi.candidate (by rw [hrole]; exact fun hne => by cases hne)
        · -- Every member of the majority has cast its ballot for the candidate.
          obtain ⟨Q, hmaj, hQ⟩ := exists_majority_of_votesGranted M hvotes
          refine ⟨Q, hmaj, fun v hv => ?_⟩
          rcases hQ v hv with rfl | ⟨hpeer, r, hr, hgranted, hrterm⟩
          · have hown := hi.task _ htask
            simpa [hterm] using hown
          · have hballot := h.granted _ (hreplies v hpeer r hr) hgranted
            rw [hi.request _ request htask rfl] at hballot
            simpa [hrterm, hterm] using hballot

/-- Every step keeps the ballots and the agreement with them. -/
theorem ElectionInv.step
    {l : Label ι}
    (h : ElectionInv w b)
    (hstep : worldStep M w l = some w') :
    ∃ b', b.Extends b' ∧ ElectionInv w' b' := by
  cases moves_of_worldStep hstep with
  | beginElection i n hn =>
      obtain ⟨hext, hvoted⟩ := (h.voted i).beginElection hn
      exact ⟨_, hext, h.put hext (fun j hj => Ballots.cast_of_ne hj) rfl hvoted
        (fun r hr => Or.inl hr)⟩
  | requestVotes i term request htask hrequest =>
      have hi := h.voted i
      refine h.put_same rfl rfl { hi with task := ?_, request := ?_ }
      · rintro t ⟨⟩
        exact hi.task ⟨term, none⟩ htask
      · rintro t r ⟨⟩ ⟨⟩
        rw [hrequest]
  | handleRequestVote v request => exact h.handleRequestVote hstep
  | finishElection i responses => exact h.finishElection hstep
  | abandonElection i =>
      exact h.put_same rfl rfl ((h.voted i).keeps ⟨rfl, rfl, rfl, Or.inl rfl, Or.inr rfl⟩)
  | submitSnapshot i | submitRefused i | submitAppended i | beginHeartbeat i | buildRequest i =>
      exact h.put_same rfl rfl ((h.voted i).keeps ⟨rfl, rfl, rfl, Or.inl rfl, Or.inl rfl⟩)
  | handleAppendEntries p request =>
      refine h.put_same rfl rfl ?_
      have hp := h.voted p
      rcases Node.handleAppendEntries_cases hp.stored request with heq | ⟨-, heq⟩
      · rw [heq]
        exact hp
      · rw [heq]
        exact (hp.seeTerm _).keeps (Node.replicate_keeps _ request)
  | recordResponse i p response task request =>
      refine h.put_same rfl rfl ?_
      have hi := h.voted i
      rcases Node.recordAppendResponse_cases hi.stored p request response with
        ⟨T, heq⟩ | ⟨-, -, t, heq, -⟩
      · rw [heq]
        exact (hi.seeTerm T).keeps ⟨rfl, rfl, rfl, Or.inl rfl, Or.inl rfl⟩
      · rw [heq]
        exact hi.keeps ⟨rfl, rfl, rfl, Or.inl rfl, Or.inl rfl⟩
  | finishHeartbeat i task =>
      refine h.put_same rfl rfl ((h.voted i).keeps ?_)
      rcases Node.concludeHeartbeat_cases (w.nodes i) (M.peers i) task.term with
        heq | ⟨-, -, -, k, -, heq⟩
      · rw [heq]
        exact ⟨rfl, rfl, rfl, Or.inl rfl, Or.inl rfl⟩
      · rw [heq]
        exact ⟨rfl, rfl, rfl, Or.inl rfl, Or.inl rfl⟩
  | abandonHeartbeat i =>
      exact h.put_same rfl rfl ((h.voted i).keeps ⟨rfl, rfl, rfl, Or.inl rfl, Or.inl rfl⟩)
  | markApplied i n hn =>
      obtain rfl := Node.markApplied_eq_some hn
      exact h.put_same rfl rfl ((h.voted i).keeps ⟨rfl, rfl, rfl, Or.inl rfl, Or.inl rfl⟩)
  | restart i =>
      have hi := h.voted i
      refine h.put_same rfl rfl (hi.keeps ⟨rfl, ?_, ?_, Or.inr rfl, Or.inr rfl⟩)
      · exact congrArg RaftPersistentState.currentTerm hi.stored
      · exact congrArg RaftPersistentState.votedFor hi.stored

omit [DecidableEq ι] in
theorem electionInv_initial : ElectionInv (initialWorld : World ι) (fun _ _ => none) where
  voted i := {
    stored := rfl
    current := rfl
    future := fun _ _ => rfl
    task := fun t ht => by cases ht
    request := fun t r ht => by cases ht
    candidate := fun hrole => absurd rfl hrole
    leader := fun hrole => by cases hrole }
  granted r hr := by cases hr

/-- Along a run the ballots are extended. -/
theorem ElectionInv.reaches
    {ok : World ι → Label ι → Prop}
    (h : ElectionInv w b)
    (hrun : (cluster M).Reaches ok w w') :
    ∃ b', b.Extends b' ∧ ElectionInv w' b' := by
  induction hrun with
  | refl => exact ⟨b, Ballots.Extends.refl b, h⟩
  | tail _ _ hstep ih =>
      obtain ⟨b₁, hext₁, h₁⟩ := ih
      obtain ⟨b₂, hext₂, h₂⟩ := h₁.step hstep
      exact ⟨b₂, hext₁.trans hext₂, h₂⟩

/-- A term has at most one leader, over the whole run. -/
theorem leader_unique
    {i j : ι}
    (hw : (cluster M).Reachable System.anyStep w)
    (hw' : (cluster M).Reaches System.anyStep w w')
    (hi : (w.nodes i).role = .leader)
    (hj : (w'.nodes j).role = .leader)
    (hterm : (w.nodes i).currentTerm = (w'.nodes j).currentTerm) :
    i = j := by
  obtain ⟨b, -, hb⟩ := electionInv_initial.reaches hw
  obtain ⟨b', hext, hb'⟩ := hb.reaches hw'
  obtain ⟨Q, hmaj, hQ⟩ := (hb.voted i).leader hi
  obtain ⟨Q', hmaj', hQ'⟩ := (hb'.voted j).leader hj
  obtain ⟨v, hv, hv'⟩ := hmaj.exists_inter hmaj'
  have hvi := hext v _ i (hQ v hv)
  rw [hterm, hQ' v hv'] at hvi
  exact (Option.some.inj hvi).symm

end Step

/-- The cluster of a given size. -/
def fullMesh (size : Nat) : Membership (Fin size) where
  peers i := (List.finRange size).filter (· ≠ i)
  nodup i := (List.nodup_finRange size).filter _
  mem_peers i j := by simp

/-- A run in which the first of three nodes wins the first term. -/
def firstElection : List (Label (Fin 3)) :=
  [.beginElection 0, .requestVotes 0, .handleRequestVote 1 ⟨1, 0, 0, 0⟩,
    .finishElection 0 (fun p => if p = 1 then some ⟨1, true⟩ else none)]

/-- What may happen afterwards: a late vote request, a crash and a heartbeat. -/
def afterElection : List (Label (Fin 3)) :=
  [.handleRequestVote 2 ⟨1, 0, 0, 0⟩, .restart 1, .beginHeartbeat 0]

theorem leader_unique_firstElection :
    ∃ (w w' : World (Fin 3)) (i j : Fin 3),
      (cluster (fullMesh 3)).Reachable System.anyStep w ∧
      (cluster (fullMesh 3)).Reaches System.anyStep w w' ∧
      (w.nodes i).role = .leader ∧ (w'.nodes j).role = .leader ∧
      (w.nodes i).currentTerm = (w'.nodes j).currentTerm ∧ i = j := by
  have hrun : ∃ w, (cluster (fullMesh 3)).Reaches System.anyStep initialWorld w ∧
      (w.nodes 0).role = .leader ∧ (w.nodes 0).currentTerm = 1 ∧
      ((cluster (fullMesh 3)).exec System.anyStep w afterElection).any (fun w' =>
        decide ((w'.nodes 0).role = .leader ∧ (w'.nodes 0).currentTerm = 1)) = true := by
    refine System.exists_reaches_of_exec firstElection ?_
    decide +kernel
  obtain ⟨w, hw, hrole, hterm, hafter⟩ := hrun
  obtain ⟨w', hw', hrole', hterm'⟩ := System.exists_reaches_of_exec afterElection hafter
  have hsame := hterm.trans hterm'.symm
  exact ⟨w, w', 0, 0, hw, hw', hrole, hrole', hsame,
    leader_unique hw hw' hrole hrole' hsame⟩

end Raft
end DistributedConsensus
