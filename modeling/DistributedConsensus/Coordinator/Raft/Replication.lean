import DistributedConsensus.Coordinator.Raft.Simulation

/-!
# Raft: replication follows the protocol

The steps of submissions and heartbeats, and with them every step of the
cluster, are matched by steps of the protocol of replicated logs.  A request
always carries the log of its sender from some index to the end, so a receiver
that accepts it contains the log of the sender.
-/

namespace DistributedConsensus
namespace Raft

open Foundations
open Foundations.ReplicatedLog

variable {ι : Type} [Fintype ι] [DecidableEq ι] {M : Membership ι} {a : History ι}
  {w w' : World ι} {i : ι} {n : Node ι}

/-! ## Submissions -/

/-- The leader of a term extends its log. -/
theorem NodeLinked.append
    {store : LogStore} {entry : RaftLogEntry}
    (h : NodeLinked a i n)
    (hrole : n.role = .leader)
    (hstore : store.entries = n.logStore.entries ++ [entry])
    (hterm : entry.term = n.currentTerm) :
    ∃ a', Acts RaftLogEntry.term i a a' ∧
      NodeLinked a' i { n with logStore := store, submission := none } := by
  have hlead : (i, n.currentTerm, a.log i) ∈ a.leads := by
    rw [h.log]
    exact h.leader hrole
  have hstart : Acts RaftLogEntry.term i a a := Acts.refl a
  have hacts := hstart.append h.term hlead hterm
  have hnot : ¬ n.role = .candidate := by
    rw [hrole]
    exact fun hc => by cases hc
  refine ⟨_, hacts, { h.toProgressLinked.mono hacts.isLocal with
    stored := h.stored, term := h.term, log := ?_, vote := h.vote,
    candidate := fun hc => absurd hc hnot, leader := ?_, election := h.election,
    request := ?_, commit_le := ?_, confirmed := ?_ }⟩
  · simp only [Function.update_self]
    rw [h.log, hstore]
  · intro _
    refine Or.inl ?_
    rw [h.log, ← hstore]
  · intro t r ht hr
    obtain ⟨hcand, hrterm, -⟩ := h.request t r ht hr
    exact ⟨hcand, hrterm, fun hc => absurd hc hnot⟩
  · have hle := h.commit_le
    simp only [hstore, List.length_append, List.length_singleton]
    omega
  · simp only [hstore]
    rw [List.take_append_of_le_length h.commit_le]
    exact h.confirmed.mono hacts.isLocal

theorem Linked.submitAppend
    (h : Linked w a)
    (hok : AppendsAsLeader w (.submitAppend i))
    (hstep : worldStep M w (.submitAppend i) = some w') :
    Simulated a w' := by
  have hi := h.nodes i
  cases moves_of_worldStep hstep with
  | submitRefused => exact h.silent { hi with }
  | submitAppended _ task store entry htask happend =>
      obtain ⟨hrole, hterm⟩ := hok task htask
      obtain ⟨hentries, hentry, -⟩ := appendCommand_spec happend
      obtain ⟨a', hacts, hi'⟩ := hi.append hrole hentries (hentry.trans hterm.symm)
      exact ⟨i, a', hacts, h.put_node hacts.isLocal hi'⟩

/-! ## Heartbeats -/

omit [DecidableEq ι] in
/-- The heartbeat goes on with other peers. -/
theorem NodeLinked.updateTasks
    {t : HeartbeatTask ι} {tasks : ι → PeerTask ι}
    (h : NodeLinked a i n)
    (ht : n.heartbeat = some t)
    (hwait : ∀ p r, tasks p = .waiting r → t.tasks p = .waiting r ∨ r.term = t.term) :
    NodeLinked a i { n with heartbeat := some { t with tasks := tasks } } := by
  obtain ⟨hterm, hlead, hold⟩ := h.heartbeat t ht
  refine { h with heartbeat := ?_ }
  rintro t' ⟨⟩
  refine ⟨hterm, hlead, fun p r hr => ?_⟩
  rcases hwait p r hr with hw | hnew
  · exact hold p r hw
  · exact hnew

omit [DecidableEq ι] in
theorem NodeLinked.endHeartbeat
    (h : NodeLinked a i n) :
    NodeLinked a i { n with heartbeat := none } := by
  refine { h with heartbeat := ?_ }
  rintro t ⟨⟩

theorem Linked.beginHeartbeat
    (h : Linked w a)
    (hstep : worldStep M w (.beginHeartbeat i) = some w') :
    Simulated a w' := by
  cases moves_of_worldStep hstep with
  | beginHeartbeat _ tracker hlead htracker =>
      have hi := h.nodes i
      obtain ⟨hterm, hstates⟩ := RaftReplicationTracker.ensureInitialized_cases htracker
      refine h.silent { hi with heartbeat := ?_, tracker := ?_ }
      · rintro t ⟨⟩
        exact ⟨hterm, ⟨_, hi.leader hlead⟩, fun p r hr => by cases hr⟩
      · intro T hT e he
        rcases hstates with rfl | hfresh
        · exact hi.tracker T hT e he
        · obtain ⟨hpeer, hzero⟩ := hfresh e he
          exact ⟨(M.mem_peers i e.1).mp hpeer, Or.inl hzero⟩

omit [Fintype ι] in
/-- A request carries the log from some index to the end. -/
theorem buildAppendEntries_eq_some
    {term : Nat} {p : ι} {request : AppendEntriesRequest ι}
    (h : n.buildAppendEntries i term p = some request) :
    request.term = term ∧ request.leaderId = i ∧ request.leaderCommit = n.commitIndex ∧
      request.entries = n.logStore.entries.drop request.prevLogIndex ∧
      getTermAt n.logStore request.prevLogIndex = some request.prevLogTerm := by
  unfold Node.buildAppendEntries at h
  split at h
  case h_1 => cases h
  case h_2 st _ =>
    simp only at h
    split at h
    case h_1 => cases h
    case h_2 prevLogTerm hprev =>
      cases h
      exact ⟨rfl, rfl, rfl, rfl, hprev⟩

theorem getTermAt_succ
    {s : LogStore} {k term : Nat}
    (h : getTermAt s (k + 1) = some term) :
    ∃ e, s.entries[k]? = some e ∧ e.term = term := by
  unfold getTermAt at h
  rw [if_neg (Nat.succ_ne_zero k), get_succ, Option.map_eq_some_iff] at h
  exact h

/-- The request that is sent describes the log of its sender. -/
theorem Linked.buildRequest_describes
    {p : ι}
    (h : Linked w a)
    (hstep : worldStep M w (.buildRequest i p) = some w') :
    ∃ a', Acts RaftLogEntry.term i a a' ∧ Linked w' a' ∧
      (∀ j, (w'.nodes j).logStore = (w.nodes j).logStore) ∧
      ∀ call ∈ w'.appendCalls, call ∈ w.appendCalls ∨
        Describes a' call.request (w.nodes i).logStore.entries := by
  cases moves_of_worldStep hstep with
  | buildRequest _ _ task request htask hpeer hrequest =>
      have hi := h.nodes i
      obtain ⟨-, hlead, -⟩ := hi.heartbeat task htask
      obtain ⟨hterm, hleader, hcommit, hentries, hprev⟩ := buildAppendEntries_eq_some hrequest
      have hstart : Acts RaftLogEntry.term i a a := Acts.refl a
      have hacts := hstart.send hlead
      have hi' : NodeLinked { a with sent := insert (i, task.term, a.log i) a.sent } i
          (w.nodes i) :=
        { hi.toProgressLinked.mono hacts.isLocal, hi.toRoleLinked with }
      have hdescribes : Describes { a with sent := insert (i, task.term, a.log i) a.sent }
          request (w.nodes i).logStore.entries := by
        refine ⟨?_, (w.nodes i).logStore.indexed, hentries, ?_, ?_, ?_, ?_⟩
        · rw [hleader, hterm, ← hi.log]
          exact Or.inl rfl
        · cases hk : request.prevLogIndex with
          | zero => exact Nat.zero_le _
          | succ k =>
              rw [hk] at hprev
              obtain ⟨e, he, -⟩ := getTermAt_succ hprev
              exact (List.getElem?_eq_some_iff.mp he).1
        · intro k hk
          rw [hk] at hprev
          exact getTermAt_succ hprev
        · rw [hcommit]
          exact hi.commit_le
        · rw [hcommit]
          exact hi'.confirmed
      have hcalls : ∀ call ∈ w.appendCalls ++ [⟨p, request⟩],
          call ∈ w.appendCalls ∨ call = ⟨p, request⟩ := by
        intro call hcall
        rcases List.mem_append.mp hcall with hold | hnew
        · exact Or.inl hold
        · exact Or.inr (List.mem_singleton.mp hnew)
      refine ⟨_, hacts, h.put hacts.isLocal rfl (hi'.updateTasks htask ?_)
        (fun _ => Or.inl) (fun _ => Or.inl) ?_ (fun _ => Or.inl), ?_, ?_⟩
      · intro q r hq
        by_cases hqp : q = p
        · subst hqp
          rw [Function.update_self] at hq
          cases hq
          exact Or.inr hterm
        · rw [Function.update_of_ne hqp] at hq
          exact Or.inl hq
      · intro call hcall
        rcases hcalls call hcall with hold | rfl
        · exact Or.inl hold
        · refine Or.inr ⟨?_, _, hdescribes⟩
          rw [hleader]
          exact (M.mem_peers i p).mp hpeer
      · intro j
        simp only [World.put, Function.update_apply]
        split
        case isTrue hj => rw [hj]
        case isFalse => rfl
      · intro call hcall
        rcases hcalls call hcall with hold | rfl
        · exact Or.inl hold
        · exact Or.inr hdescribes

theorem Linked.buildRequest
    {p : ι}
    (h : Linked w a)
    (hstep : worldStep M w (.buildRequest i p) = some w') :
    Simulated a w' := by
  obtain ⟨a', hacts, hlinked, -⟩ := h.buildRequest_describes hstep
  exact ⟨i, a', hacts, hlinked⟩

/-! ## Receiving entries -/

omit [DecidableEq ι] in
/-- A request that describes a log is received as that log. -/
theorem NodeLinked.received
    {request : AppendEntriesRequest ι} {L : List RaftLogEntry}
    (hinv : Inv RaftLogEntry.term a)
    (h : NodeLinked a i n)
    (hL : Describes a request L) :
    Received L n.commitIndex n.logStore (n.received request) := by
  unfold Node.received
  rw [hL.entries]
  refine tryAppendEntries_spec hL.indexed hL.prev_le fun p hget hterm => ?_
  cases hk : request.prevLogIndex with
  | zero => rw [List.take_zero, List.take_zero]
  | succ k =>
      rw [hk, get_succ] at hget
      obtain ⟨e, he, heterm⟩ := hL.prev_term k hk
      have htraced := hinv.traced_log i
      rw [h.log] at htraced
      exact hinv.take_eq_of_term_eq htraced (hinv.sent_traced _ _ L hL.sent) hget he
        (hterm.trans heterm.symm)

/-- A node of the term takes over entries. -/
theorem NodeLinked.accept
    {request : AppendEntriesRequest ι} {L : List RaftLogEntry}
    (hinv : Inv RaftLogEntry.term a)
    (h : NodeLinked a i n)
    (hterm : n.currentTerm = request.term)
    (hother : i ≠ request.leaderId)
    (hL : Describes a request L) :
    ∃ a', Acts RaftLogEntry.term i a a' ∧ NodeLinked a' i (n.replicate request).1 := by
  have hreceived := h.received hinv hL
  obtain ⟨st, c, r, heq, hcommit, -⟩ := n.replicate_cases request
  have hnot : ∀ L', (i, request.term, L') ∉ a.leads := by
    intro L' hlead
    obtain ⟨⟨L₀, hL₀⟩, -⟩ := hinv.sent_led _ _ L hL.sent
    exact hother (hinv.lead_unique hlead hL₀)
  have hmerge : Merged (a.log i) L (n.received request).1.entries := by
    rw [h.log]
    exact hreceived.merged
  have hstart : Acts RaftLogEntry.term i a a := Acts.refl a
  have hacts := hstart.accept hL.sent (h.term.trans hterm) hnot hmerge
  -- The committed part of the own log is kept.
  have hkept := hreceived.kept n.commitIndex le_rfl h.commit_le
  have hlen : n.commitIndex ≤ (n.received request).1.entries.length := by
    have hlength := congrArg List.length hkept
    rw [List.length_take, List.length_take] at hlength
    have := h.commit_le
    omega
  refine ⟨_, hacts, ?_⟩
  rw [heq]
  refine { h.toProgressLinked.mono hacts.isLocal with
    stored := h.stored, term := h.term, log := Function.update_self _ _ _, vote := h.vote,
    candidate := ?_, leader := ?_, election := h.election, request := ?_,
    commitStored := ?_, commit_le := ?_, confirmed := ?_ }
  · rintro ⟨⟩
  · rintro ⟨⟩
  · intro t r' ht hr
    obtain ⟨hcand, hrterm, -⟩ := h.request t r' ht hr
    exact ⟨hcand, hrterm, fun hc => by cases hc⟩
  · rcases hcommit with ⟨rfl, rfl⟩ | ⟨-, rfl, -, -⟩
    · exact h.commitStored
    · rfl
  · rcases hcommit with ⟨-, rfl⟩ | ⟨-, -, -, rfl⟩
    · exact hlen
    · exact min_le_right _ _
  · rcases hcommit with ⟨-, rfl⟩ | ⟨hok, -, -, rfl⟩
    · simp only
      rw [hkept]
      exact h.confirmed.mono hacts.isLocal
    · -- The log of the sender is contained, and so is what it has committed.
      have hpre := hreceived.matched hok
      have hmin : min request.leaderCommit (n.received request).1.entries.length =
          request.leaderCommit := min_eq_left (hL.commit_le.trans hpre.length_le)
      simp only
      rw [hmin, take_eq_of_isPrefix hpre hL.commit_le]
      exact hL.confirmed.mono hacts.isLocal

/-- A node of the term acknowledges a log that it contains. -/
theorem NodeLinked.ack
    {c : ι} {T : Nat} {L : List RaftLogEntry}
    (h : NodeLinked a i n)
    (hsent : (c, T, L) ∈ a.sent)
    (hterm : n.currentTerm = T)
    (hlog : L <+: n.logStore.entries) :
    ∃ a', Acts RaftLogEntry.term i a a' ∧ NodeLinked a' i n ∧ (i, T, L) ∈ a'.acks := by
  have hstart : Acts RaftLogEntry.term i a a := Acts.refl a
  have hacts := hstart.ack hsent (h.term.trans hterm) (by rw [h.log]; exact hlog)
  exact ⟨_, hacts, { h.toProgressLinked.mono hacts.isLocal, h.toRoleLinked with }, Or.inl rfl⟩

/-- A node of the term takes over entries and acknowledges what it has accepted. -/
theorem NodeLinked.replicate
    {request : AppendEntriesRequest ι} {L : List RaftLogEntry}
    (hinv : Inv RaftLogEntry.term a)
    (h : NodeLinked a i n)
    (hterm : n.currentTerm = request.term)
    (hother : i ≠ request.leaderId)
    (hL : Describes a request L) :
    ∃ a', Acts RaftLogEntry.term i a a' ∧ NodeLinked a' i (n.replicate request).1 ∧
      ∀ resp, (n.replicate request).2 = some resp → AppendReplyLinked a' ⟨i, request, resp⟩ := by
  obtain ⟨a₁, hacts₁, hi₁⟩ := h.accept hinv hterm hother hL
  obtain ⟨st, c, r, heq, -, hresp⟩ := n.replicate_cases request
  by_cases hok : (n.received request).2 = .ok true
  · have hlog : L <+: (n.replicate request).1.logStore.entries := by
      rw [heq]
      exact (h.received hinv hL).matched hok
    have hterm₁ : (n.replicate request).1.currentTerm = request.term := by
      rw [heq]
      exact hterm
    obtain ⟨a₂, hacts₂, hi₂, hack⟩ := hi₁.ack (hacts₁.isLocal.sent hL.sent) hterm₁ hlog
    refine ⟨a₂, hacts₁.trans hacts₂, hi₂, fun resp _ _ => ⟨L, hack, ?_⟩⟩
    have hle := hL.prev_le
    simp only [hL.entries, List.length_drop]
    omega
  · refine ⟨a₁, hacts₁, hi₁, fun resp hr hsuccess => ?_⟩
    rw [heq] at hr
    exact absurd ((hresp resp hr).2 hsuccess) hok

theorem Linked.handleAppendEntries
    {p : ι} {request : AppendEntriesRequest ι}
    (hinv : Inv RaftLogEntry.term a)
    (h : Linked w a)
    (hstep : worldStep M w (.handleAppendEntries p request) = some w') :
    Simulated a w' := by
  cases moves_of_worldStep hstep with
  | handleAppendEntries _ _ hcall =>
      have hp := h.nodes p
      -- It suffices to link the node and its response.
      suffices hnode : ∃ a', Acts RaftLogEntry.term p a a' ∧
          NodeLinked a' p ((w.nodes p).handleAppendEntries request).1 ∧
          ∀ resp, ((w.nodes p).handleAppendEntries request).2 = some resp →
            AppendReplyLinked a' ⟨p, request, resp⟩ by
        obtain ⟨a', hacts, hp', hreply⟩ := hnode
        refine ⟨p, a', hacts, h.put hacts.isLocal rfl hp' (fun _ => Or.inl) (fun _ => Or.inl)
          (fun _ => Or.inl) ?_⟩
        intro reply hmem
        rcases List.mem_append.mp hmem with hold | hnew
        · exact Or.inl hold
        · rw [Option.mem_toList, Option.map_eq_some_iff] at hnew
          obtain ⟨resp, hresp, rfl⟩ := hnew
          exact Or.inr (hreply resp hresp)
      rcases Node.handleAppendEntries_cases hp.stored request with heq | ⟨hle, heq⟩
      · rw [heq]
        refine ⟨a, Acts.refl a, hp, fun resp hresp hsuccess => ?_⟩
        cases hresp
        cases hsuccess
      · rw [heq]
        obtain ⟨a₁, hacts₁, hp₁⟩ := hp.seeTerm hinv request.term
        obtain ⟨hother, L, hL⟩ := (h.appendCalls _ hcall).mono hacts₁.isLocal
        have hterm : ((w.nodes p).seeTerm request.term).currentTerm = request.term := by
          rw [Node.seeTerm_currentTerm, max_eq_right hle]
        obtain ⟨a₂, hacts₂, hp₂, hreply⟩ := hp₁.replicate (hacts₁.inv hinv) hterm hother hL
        exact ⟨a₂, hacts₁.trans hacts₂, hp₂, hreply⟩

/-! ## Recording responses and committing -/

omit [DecidableEq ι] in
/-- The tracker of a term takes over an acknowledgement of that term. -/
theorem NodeLinked.updateTracker
    {t : RaftReplicationTracker ι} {p : ι} {T through : Nat}
    (h : NodeLinked a i n)
    (hterm : n.tracker.term = some T)
    (hupdate : n.tracker.Updates t p through)
    (hthrough : through = 0 ∨ ∃ L, (p, T, L) ∈ a.acks ∧ through = L.length) :
    NodeLinked a i { n with tracker := t } := by
  refine { h with heartbeat := ?_, tracker := ?_ }
  · intro task htask
    obtain ⟨htask', hrest⟩ := h.heartbeat task htask
    exact ⟨hupdate.term.trans htask', hrest⟩
  · intro U hU e he
    have hold : n.tracker.term = some U := hupdate.term.symm.trans hU
    have hTU : T = U := Option.some.inj (hterm.symm.trans hold)
    subst hTU
    rcases hupdate.entries e he with hmem | ⟨rfl, st, hst, hmatch | hmatch⟩
    · exact h.tracker T hold e hmem
    · rw [hmatch]
      exact ⟨(h.tracker T hold _ hst).1, hthrough⟩
    · rw [hmatch]
      exact h.tracker T hold _ hst

theorem Linked.recordResponse
    {p : ι} {response : AppendEntriesResponse}
    (hinv : Inv RaftLogEntry.term a)
    (h : Linked w a)
    (hstep : worldStep M w (.recordResponse i p response) = some w') :
    Simulated a w' := by
  cases moves_of_worldStep hstep with
  | recordResponse _ _ _ task request htask hrequest hreply =>
      have hi := h.nodes i
      have hwait : ∀ q r, Function.update task.tasks p .finished q = .waiting r →
          task.tasks q = .waiting r ∨ r.term = task.term := by
        intro q r hq
        by_cases hqp : q = p
        · subst hqp
          rw [Function.update_self] at hq
          cases hq
        · rw [Function.update_of_ne hqp] at hq
          exact Or.inl hq
      rcases Node.recordAppendResponse_cases hi.stored p request response with
        ⟨T, heq⟩ | ⟨hrole, hterm, t, heq, ht⟩
      · rw [heq]
        obtain ⟨a', hacts, hi'⟩ := hi.seeTerm hinv T
        exact ⟨i, a', hacts, h.put_node hacts.isLocal
          (hi'.updateTasks ((Node.seeTerm_heartbeat _ T).trans htask) hwait)⟩
      · rw [heq]
        obtain ⟨htracker, -, hterms⟩ := hi.heartbeat task htask
        have hi' : NodeLinked a i { w.nodes i with tracker := t } := by
          rcases ht with ⟨hsuccess, -, ht⟩ | ht
          · obtain ⟨L, hL, hlen⟩ := h.appendReplies _ hreply hsuccess
            rw [hterms p request hrequest] at hL
            exact hi.updateTracker htracker (RaftReplicationTracker.recordSuccess_updates ht)
              (Or.inr ⟨L, hL, hlen.symm⟩)
          · exact hi.updateTracker htracker
              (RaftReplicationTracker.recordFailure_updates 0 ht) (Or.inl rfl)
        exact h.silent (hi'.updateTasks htask hwait)

/-- The leader of a term commits what a majority has acknowledged. -/
theorem NodeLinked.chosen
    {k : Nat}
    (hinv : Inv RaftLogEntry.term a)
    (h : NodeLinked a i n)
    (hrole : n.role = .leader)
    (htracker : n.tracker.term = some n.currentTerm)
    (hentry : ∃ entry, n.logStore.get k = some entry ∧ entry.term = n.currentTerm)
    (hcount : ((M.peers i).length + 1) / 2 + 1 ≤
      1 + (n.tracker.states.values.map PeerReplicationState.matchIndex).countP
        (fun matchIndex => decide (matchIndex ≥ k))) :
    k ≤ n.logStore.entries.length ∧
      Chosen RaftLogEntry.term a n.currentTerm (n.logStore.entries.take k) := by
  obtain ⟨entry, hget, hterm⟩ := hentry
  obtain ⟨k, rfl⟩ : ∃ j, k = j + 1 := by
    refine Nat.exists_eq_succ_of_ne_zero ?_
    rintro rfl
    simp [LogStore.get] at hget
  rw [get_succ] at hget
  have hk : k < n.logStore.entries.length := (List.getElem?_eq_some_iff.mp hget).1
  have hlead := h.leader hrole
  have htake : n.logStore.entries.take (k + 1) = n.logStore.entries.take k ++ [entry] := by
    rw [List.take_add_one, hget]
    rfl
  have hlast : lastTerm RaftLogEntry.term (n.logStore.entries.take (k + 1)) = n.currentTerm := by
    rw [htake, lastTerm_append_singleton, hterm]
  have hne : n.logStore.entries.take (k + 1) ≠ [] := by
    rw [htake]
    simp
  refine ⟨hk, ⟨hne, hlast, ?_⟩, ?_⟩
  · have htraced := hinv.traced_log i
    rw [h.log] at htraced
    obtain ⟨c, hc⟩ := htraced _ hne (List.take_prefix _ _)
    rw [hlast] at hc
    exact ⟨c, hc⟩
  · -- The peers with a large match index and the leader itself are a majority.
    unfold Dict.values at hcount
    rw [List.map_map, List.countP_map, List.countP_eq_length_filter,
      ← List.length_map (f := Prod.fst)] at hcount
    refine ⟨_, M.majority_insert ?_ ?_ hcount, ?_⟩
    · exact n.tracker.states.nodup.sublist (List.filter_sublist.map _)
    · intro hmem
      obtain ⟨e, he, heq⟩ := List.mem_map.mp hmem
      exact (h.tracker _ htracker e (List.mem_of_mem_filter he)).1 heq
    · intro v hv
      rw [Finset.mem_insert, List.mem_toFinset] at hv
      rcases hv with rfl | hmem
      · exact ⟨_, List.take_prefix _ _, Or.inr hlead⟩
      · obtain ⟨e, he, rfl⟩ := List.mem_map.mp hmem
        obtain ⟨hmem', hge⟩ := List.mem_filter.mp he
        have hge' : k + 1 ≤ e.2.matchIndex := by simpa using hge
        obtain ⟨-, hzero | ⟨L, hack, hlen⟩⟩ := h.tracker _ htracker e hmem'
        · omega
        · -- The acknowledged log was sent by the leader and is part of its log.
          obtain ⟨-, c, hsent⟩ := hinv.ack_sent _ _ L hack
          obtain ⟨⟨L₀, hL₀⟩, hpre⟩ := hinv.sent_led c _ L hsent
          obtain rfl := hinv.lead_unique hL₀ hlead
          have hL := hpre h.term
          rw [h.log] at hL
          refine ⟨L, ?_, Or.inl hack⟩
          rw [take_eq_of_isPrefix hL (by omega)]
          exact List.take_prefix _ _

theorem Linked.finishHeartbeat
    (hinv : Inv RaftLogEntry.term a)
    (h : Linked w a)
    (hstep : worldStep M w (.finishHeartbeat i) = some w') :
    Simulated a w' := by
  cases moves_of_worldStep hstep with
  | finishHeartbeat _ task htask =>
      have hi := h.nodes i
      rcases Node.concludeHeartbeat_cases (w.nodes i) (M.peers i) task.term with
        heq | ⟨hrole, hterm, -, k, hk, heq⟩
      · rw [heq]
        exact h.silent hi.endHeartbeat
      · rw [heq]
        obtain ⟨-, hentry, hcount⟩ := Node.committableIndex_spec hk
        obtain ⟨htracker, -, -⟩ := hi.heartbeat task htask
        rw [← hterm] at hentry htracker
        obtain ⟨hle, hchosen⟩ := hi.chosen hinv hrole htracker hentry hcount
        have hi' : NodeLinked a i { w.nodes i with
            commitState := ⟨k, (w.nodes i).lastApplied⟩, commitIndex := k } :=
          { hi with
            commitStored := rfl, commit_le := hle,
            confirmed := Or.inr ⟨_, _, hchosen, List.prefix_rfl⟩ }
        exact h.silent hi'.endHeartbeat

/-! ## Crashes -/

omit [DecidableEq ι] in
/-- What a crash leaves is what the history ascribes to the node. -/
theorem NodeLinked.restart
    (h : NodeLinked a i n) :
    NodeLinked a i n.restart := by
  have hterm : n.persistentState.currentTerm = n.currentTerm :=
    congrArg RaftPersistentState.currentTerm h.stored
  have hvote : n.persistentState.votedFor = n.votedFor :=
    congrArg RaftPersistentState.votedFor h.stored
  exact {
    stored := rfl
    term := h.term.trans hterm.symm
    log := h.log
    vote := by
      intro c L hv
      have hv' : (i, n.persistentState.currentTerm, c, L) ∈ a.votes := hv
      rw [hterm] at hv'
      exact hvote.trans (h.vote c L hv')
    candidate := by rintro ⟨⟩
    leader := by rintro ⟨⟩
    election := by rintro t ⟨⟩
    request := by rintro t r ⟨⟩
    commitStored := rfl
    heartbeat := by rintro t ⟨⟩
    tracker := by rintro T ⟨⟩
    commit_le := h.commitStored.le.trans h.commit_le
    confirmed := by
      have hconfirmed := h.confirmed
      rw [← h.commitStored] at hconfirmed
      exact hconfirmed }

/-! ## All steps -/

/-- Every step of the cluster is matched by steps of the protocol. -/
theorem Linked.step
    {l : Label ι}
    (hinv : Inv RaftLogEntry.term a)
    (h : Linked w a)
    (hok : AppendsAsLeader w l)
    (hstep : worldStep M w l = some w') :
    Simulated a w' := by
  cases l with
  | beginElection i => exact h.beginElection hinv hstep
  | requestVotes i => exact h.requestVotes hstep
  | handleRequestVote v request => exact h.handleRequestVote hinv hstep
  | finishElection i responses => exact h.finishElection hinv hstep
  | abandonElection i =>
      cases hstep
      exact h.silent (h.nodes i).endElection
  | submitSnapshot i command =>
      cases moves_of_worldStep hstep
      exact h.silent { h.nodes i with }
  | submitAppend i => exact h.submitAppend hok hstep
  | beginHeartbeat i => exact h.beginHeartbeat hstep
  | buildRequest i p => exact h.buildRequest hstep
  | handleAppendEntries p request => exact h.handleAppendEntries hinv hstep
  | recordResponse i p response => exact h.recordResponse hinv hstep
  | finishHeartbeat i => exact h.finishHeartbeat hinv hstep
  | abandonHeartbeat i =>
      cases hstep
      exact h.silent (h.nodes i).endHeartbeat
  | markApplied i =>
      cases moves_of_worldStep hstep with
      | markApplied _ n' hn' =>
          obtain rfl := Node.markApplied_eq_some hn'
          exact h.silent { h.nodes i with commitStored := rfl }
  | restart i =>
      cases hstep
      exact h.silent (h.nodes i).restart

end Raft
end DistributedConsensus
