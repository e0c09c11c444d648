import DistributedConsensus.Coordinator.Raft.Atomicity

/-!
# Raft: repairing the log of a follower

A leader tries to replicate its log to a peer again and again.  Each failed attempt moves
the next index of the peer one entry back; the attempt from an entry on which both logs
agree succeeds, and then the peer has the whole log of the leader
(`replication_converges`).
-/

namespace DistributedConsensus
namespace Raft

open Foundations

variable {ι : Type}

/-! ## Logs that the store accepts again -/

/-- Every entry passes the checks of the store, and no command occurs twice. -/
structure LogStore.Sound (s : LogStore) : Prop where
  valid : ∀ e ∈ s.entries, LogStore.validEntry e = true
  distinct : (s.entries.map RaftLogEntry.commandId).Nodup

namespace LogStore.Sound

variable {s s' : LogStore}

theorem deleteFrom
    (h : s.Sound)
    (startIndex : Nat) :
    (s.deleteFrom startIndex).Sound where
  valid e he := h.valid e (List.mem_of_mem_take he)
  distinct := h.distinct.sublist ((List.take_sublist _ _).map _)

/-- The store checks what it adds. -/
theorem append
    {entry : RaftLogEntry}
    (h : s.Sound)
    (happend : s.append entry = .ok s') :
    s'.Sound := by
  rcases append_spec happend with ⟨rfl, -⟩ | ⟨hentries, hindex⟩
  · exact h
  · unfold LogStore.append at happend
    rw [get_eq_none (by omega)] at happend
    simp only at happend
    split_ifs at happend with hinvalid hrepeated
    constructor
    · intro e he
      rw [hentries, List.mem_append, List.mem_singleton] at he
      rcases he with hold | rfl
      · exact h.valid e hold
      · simpa using hinvalid
    · rw [hentries, List.map_append, List.map_singleton, ← List.concat_eq_append]
      refine List.Nodup.concat (fun hmem => hrepeated ?_) h.distinct
      simpa using hmem

theorem appendCommand
    {command : SerializedCommand} {term : Nat} {entry : RaftLogEntry}
    (h : s.Sound)
    (happend : Raft.appendCommand s command term = .ok (s', entry)) :
    s'.Sound := by
  unfold Raft.appendCommand at happend
  split_ifs at happend
  split at happend
  case h_1 => cases happend
  case h_2 nextIndex _ =>
    simp only at happend
    split at happend
    case h_1 => cases happend
    case h_2 s₁ hs₁ =>
      cases happend
      exact h.append hs₁

theorem appendLoop
    {committed : Nat}
    (rest : List RaftLogEntry) (s : LogStore)
    (h : s.Sound) :
    (Raft.appendLoop committed s rest).1.Sound := by
  induction rest generalizing s with
  | nil => exact h
  | cons e rest ih =>
      unfold Raft.appendLoop
      cases s.get e.logIndex with
      | none =>
          simp only
          cases happend : s.append e with
          | error error => exact h
          | ok s₁ => exact ih s₁ (h.append happend)
      | some existing =>
          simp only
          split_ifs
          · exact ih s h
          · exact h
          · cases happend : (s.deleteFrom e.logIndex).append e with
            | error error => exact h.deleteFrom _
            | ok s₁ => exact ih s₁ ((h.deleteFrom _).append happend)

theorem tryAppendEntries
    (h : s.Sound)
    (prevLogIndex prevLogTerm committed : Nat) (entries : List RaftLogEntry) :
    (Raft.tryAppendEntries s prevLogIndex prevLogTerm entries committed).1.Sound := by
  unfold Raft.tryAppendEntries
  cases validateReplicatedEntries prevLogIndex entries with
  | some error => exact h
  | none =>
      simp only
      split_ifs
      · exact h
      · exact appendLoop entries s h
      · cases s.get prevLogIndex with
        | none => exact h
        | some previousEntry =>
            simp only
            split_ifs
            · exact h
            · exact appendLoop entries s h

/-- The end of a sound log passes the check on received entries. -/
theorem validate_drop
    (h : s.Sound)
    (hlength : s.entries.length < maxLong)
    (k : Nat)
    (hk : k ≤ s.entries.length) :
    validateReplicatedEntries k (s.entries.drop k) = none := by
  induction hd : s.entries.length - k generalizing k with
  | zero =>
      have hnext : checkedSucc k = some (k + 1) := if_pos (by omega)
      rw [List.drop_eq_nil_of_le (by omega), validateReplicatedEntries, hnext]
  | succ d ih =>
      have hlt : k < s.entries.length := by omega
      have hnext : checkedSucc k = some (k + 1) := if_pos (by omega)
      have hentry := h.valid _ (List.getElem_mem hlt)
      simp only [LogStore.validEntry, Bool.and_eq_true, decide_eq_true_eq,
        Bool.not_eq_true'] at hentry
      obtain ⟨⟨⟨⟨-, hterm⟩, hid⟩, htype⟩, hpayload⟩ := hentry
      have hindex : s.entries[k].logIndex = k + 1 :=
        s.indexed k _ (List.getElem?_eq_getElem hlt)
      rw [List.drop_eq_getElem_cons hlt, validateReplicatedEntries, hnext]
      simp only
      rw [if_neg (not_not.mpr hindex), if_neg (by omega),
        if_neg (by simpa [htype, hpayload] using hid)]
      exact ih (k + 1) hlt (by omega)

end LogStore.Sound

section Operations

variable [DecidableEq ι] {n n' : Node ι}

theorem handleAppendEntries_logStore
    (h : n.Stored)
    (request : AppendEntriesRequest ι) :
    (n.handleAppendEntries request).1.logStore = n.logStore ∨
      (n.handleAppendEntries request).1.logStore = (n.received request).1 := by
  rcases Node.handleAppendEntries_cases h request with hrefuse | ⟨-, hhandle⟩
  · rw [hrefuse]
    exact Or.inl rfl
  · obtain ⟨st, c, r, heq, -⟩ := Node.replicate_cases (n.seeTerm request.term) request
    rw [hhandle, heq]
    right
    simp only [Node.received, Node.seeTerm_logStore, Node.seeTerm_commitIndex]

/-- An operation leaves the log alone, receives entries or appends a command. -/
theorem operate_logStore
    (h : n.Stored)
    (operation : LogOperation ι) :
    (n.operate operation).logStore = n.logStore ∨
      (∃ request : AppendEntriesRequest ι,
        (n.operate operation).logStore = (n.received request).1) ∨
      ∃ command term entry,
        appendCommand n.logStore command term = .ok ((n.operate operation).logStore, entry) := by
  cases operation with
  | handleAppendEntries request =>
      unfold Node.operate Node.handleWireRequest
      simp only
      split
      · exact Or.inl rfl
      · cases request.leaderId with
        | none => exact Or.inl rfl
        | some leaderId =>
            simp only
            split
            · exact Or.inl rfl
            · cases request.entries with
              | none => exact Or.inl rfl
              | some entries =>
                  rcases handleAppendEntries_logStore h ⟨request.term.toNat, leaderId,
                      request.prevLogIndex.toNat, request.prevLogTerm.toNat,
                      request.leaderCommit.toNat, readEntries entries⟩ with hsame | hreceived
                  · exact Or.inl hsame
                  · exact Or.inr (Or.inl ⟨_, hreceived⟩)
  | appendCommand command term =>
      unfold Node.operate
      simp only
      cases happend : appendCommand n.logStore command term.toNat with
      | error _ => exact Or.inl rfl
      | ok result => exact Or.inr (Or.inr ⟨command, _, result.2, happend⟩)
  | tryAdvanceLeaderCommit currentTerm clusterSize followerMatchIndexes =>
      left
      unfold Node.operate Node.tryAdvanceLeaderCommit
      simp only
      split_ifs
      · rfl
      · rfl
      · rfl
      · cases Node.committableIndex _ _ _ _ _ _ with
        | none => rfl
        | some k =>
            simp only
            cases n.commitState.save k n.lastApplied <;> rfl
  | markApplied logIndex =>
      left
      unfold Node.operate
      simp only
      cases hstep : n.markApplied logIndex.toNat with
      | none => rfl
      | some n' =>
          rw [Node.markApplied_eq_some hstep]
          rfl

/-- Whatever a node is asked to do, its log stays sound. -/
theorem reachable_sound
    (h : (logNode ι).Reachable System.anyStep n) :
    n.logStore.Sound := by
  have hnew : (newNode : Node ι).logStore.Sound :=
    ⟨(fun e he => nomatch he), List.nodup_nil⟩
  refine (System.Reachable.invariant (I := fun n => n.Consistent ∧ n.logStore.Sound)
    ⟨consistent_newNode, hnew⟩ (fun s operation s' _ hs _ hstep => ?_) h).2
  obtain ⟨hconsistent, hs⟩ := hs
  rw [← Option.some.inj hstep]
  refine ⟨(hconsistent.operate operation).1, ?_⟩
  rcases operate_logStore hconsistent.stored operation with
    heq | ⟨request, heq⟩ | ⟨command, term, entry, happend⟩
  · rw [heq]
    exact hs
  · rw [heq]
    exact hs.tryAppendEntries _ _ _ _
  · exact hs.appendCommand happend

/-- **No command twice.**  Whatever requests a node receives, its log holds valid entries
only, and no command occurs in it twice. -/
theorem log_unrepeated
    (h : (logNode ι).Reachable System.anyStep n) :
    (∀ e ∈ n.logStore.entries, LogStore.validEntry e = true) ∧
      (n.logStore.entries.map RaftLogEntry.commandId).Nodup :=
  ⟨(reachable_sound h).valid, (reachable_sound h).distinct⟩

/-- The log of a node that another leader has tried to overwrite. -/
theorem log_unrepeated_sample :
    ∃ n : Node (Fin 2), n.commitIndex = 1 ∧
      (n.logStore.entries.map RaftLogEntry.commandId).Nodup := by
  obtain ⟨n, hrun, hcommit⟩ : ∃ n, (logNode (Fin 2)).Reachable System.anyStep n ∧
      n.commitIndex = 1 := by
    refine System.exists_reaches_of_exec overwriteRun ?_
    decide +kernel
  exact ⟨n, hcommit, (log_unrepeated hrun).2⟩

end Operations

/-! ## Attempts -/

/-- A leader, one of its peers, and the outcome of the last attempt. -/
structure Replication (ι : Type) where
  leader : Node ι
  follower : Node ι
  success : Option Bool

section Attempts

variable [DecidableEq ι]

/-- One attempt: the leader builds a request, the peer handles it and the leader records the
response.  An attempt on which either of them throws has no outcome. -/
def replicateToPeer (nodeId peerId : ι) (r : Replication ι) : Replication ι :=
  match r.leader.buildAppendEntries nodeId r.leader.currentTerm peerId with
  | none => { r with success := none }
  | some request =>
      let (follower, response) := r.follower.handleAppendEntries request
      match response with
      | none => { r with follower := follower, success := none }
      | some response =>
          { leader := r.leader.recordAppendResponse r.leader.currentTerm peerId request response
            follower := follower
            success := some response.success }

/-- Entries of one term at one index end the same logs. -/
def MatchingLogs (l l' : List RaftLogEntry) : Prop :=
  ∀ (k : Nat) (x y : RaftLogEntry), l[k]? = some x → l'[k]? = some y → x.term = y.term →
    l.take (k + 1) = l'.take (k + 1)

/-- The leader of the current term can replicate to the peer from the given index on. -/
structure Repairable (peerId : ι) (r : Replication ι) (nextIndex : Nat) : Prop where
  leads : r.leader.role = .leader
  tracked : r.leader.tracker.term = some r.leader.currentTerm
  progress : ∃ matchIndex, matchIndex ≤ r.leader.logStore.entries.length ∧
    r.leader.tracker.states.get? peerId = some ⟨nextIndex, matchIndex⟩
  positive : 1 ≤ nextIndex
  inLog : nextIndex ≤ r.leader.logStore.entries.length + 1
  sound : r.leader.logStore.Sound
  fits : r.leader.logStore.entries.length < maxLong
  term_le : r.follower.currentTerm ≤ r.leader.currentTerm
  consistent : r.follower.Consistent
  matching : MatchingLogs r.follower.logStore.entries r.leader.logStore.entries
  committed : r.follower.logStore.entries.take r.follower.commitIndex <+:
    r.leader.logStore.entries

/-- The entries of the leader behind an entry on which the logs agree are accepted. -/
theorem appendLoop_eq_ok
    {s L : LogStore} {committed k : Nat}
    (hsound : L.Sound)
    (hlength : L.entries.length < maxLong)
    (hcommitted : s.entries.take committed <+: L.entries)
    (hk : k ≤ s.entries.length)
    (hkL : k ≤ L.entries.length)
    (hagree : s.entries.take k = L.entries.take k) :
    (appendLoop committed s (L.entries.drop k)).2 = .ok true := by
  have hvalid := hsound.validate_drop hlength k hkL
  obtain ⟨agreed, hsplit, -, htake, hlog⟩ := exists_agreed (L.entries.drop k) k hk hvalid
  rw [appendLoop_freshEntries]
  cases hfresh : freshEntries s (L.entries.drop k) with
  | nil => rfl
  | cons e rest =>
      rw [hfresh] at hsplit
      have hrest : validateReplicatedEntries (k + agreed.length) (e :: rest) = none := by
        rw [hsplit] at hvalid
        exact validate_append hvalid
      have hindex := (validate_cons hrest).1
      have hwhole : L.entries = s.entries.take (k + agreed.length) ++ e :: rest := by
        rw [htake, hagree, List.append_assoc, ← hsplit, List.take_append_drop]
      have hkept : (s.entries.take (k + agreed.length)).length = k + agreed.length := by
        rw [List.length_take]
        omega
      have hcut : (s.deleteFrom e.logIndex).entries = s.entries.take (k + agreed.length) := by
        change s.entries.take (e.logIndex - 1) = _
        rw [hindex, Nat.add_sub_cancel]
      rcases appendLoop_fresh committed rest (by omega) (by omega)
          (get_ne_of_freshEntries hfresh) with ⟨⟨existing, hget, hne⟩, hle, -⟩ | ⟨-, hloop⟩
      · -- the committed part of the own log is a part of the leader's log
        obtain ⟨later, hlater⟩ := hcommitted
        rw [hindex, get_succ] at hget
        have hlt : k + agreed.length < (s.entries.take committed).length := by
          rw [List.length_take]
          have := (List.getElem?_eq_some_iff.mp hget).1
          omega
        have hL : L.entries[k + agreed.length]? = some e := by
          rw [hwhole, List.getElem?_append_right hkept.le, hkept]
          simp
        rw [← hlater, List.getElem?_append_left hlt, List.getElem?_take_of_lt (by omega),
          hget] at hL
        exact absurd (Option.some.inj hL) hne
      · rw [hloop]
        have hids : ((s.deleteFrom e.logIndex).entries ++ e :: rest).map
              RaftLogEntry.commandId =
            L.entries.map RaftLogEntry.commandId := by
          rw [hcut, ← hwhole]
        rcases appendLoop_behind committed (e :: rest) (s.deleteFrom e.logIndex)
            (by rw [hcut, hkept]; exact hrest)
            (by
              rw [hcut]
              refine hsound.distinct.sublist (List.Sublist.map _ ?_)
              rw [hwhole]
              exact List.sublist_append_left _ _) with ⟨-, hok, -⟩ | ⟨hrep, -⟩
        · exact hok
        · rw [hids] at hrep
          exact absurd hsound.distinct hrep

/-- A request with the end of the leader's log is refused without a change, because the logs
differ before it, or accepted. -/
theorem tryAppendEntries_drop_cases
    {s L : LogStore} (committed : Nat) {k prevLogTerm : Nat}
    (hsound : L.Sound)
    (hlength : L.entries.length < maxLong)
    (hmatching : MatchingLogs s.entries L.entries)
    (hcommitted : s.entries.take committed <+: L.entries)
    (hkL : k ≤ L.entries.length)
    (hterm : getTermAt L k = some prevLogTerm) :
    0 < k ∧ tryAppendEntries s k prevLogTerm (L.entries.drop k) committed = (s, .ok false) ∨
      (tryAppendEntries s k prevLogTerm (L.entries.drop k) committed).2 = .ok true ∧
        L.entries <+:
          (tryAppendEntries s k prevLogTerm (L.entries.drop k) committed).1.entries := by
  have hvalid := hsound.validate_drop hlength k hkL
  cases k with
  | zero =>
      cases hterm
      have hloop : tryAppendEntries s 0 0 (L.entries.drop 0) committed =
          appendLoop committed s (L.entries.drop 0) := by
        simp only [tryAppendEntries, hvalid, ne_eq, not_true_eq_false, if_true, if_false]
      have hok := appendLoop_eq_ok hsound hlength hcommitted (Nat.zero_le _) hkL rfl
      rw [hloop]
      exact Or.inr ⟨hok,
        (appendLoop_spec (s := s) L.indexed _ 0 (Nat.zero_le _) hkL rfl rfl).matched hok⟩
  | succ k =>
      unfold getTermAt at hterm
      rw [if_neg (Nat.succ_ne_zero k), get_succ, Option.map_eq_some_iff] at hterm
      obtain ⟨y, hy, rfl⟩ := hterm
      unfold tryAppendEntries
      rw [hvalid]
      simp only [Nat.succ_ne_zero, if_false, get_succ]
      cases hx : s.entries[k]? with
      | none => exact Or.inl ⟨Nat.succ_pos k, rfl⟩
      | some x =>
          simp only
          by_cases hsame : x.term = y.term
          · have hk : k + 1 ≤ s.entries.length := (List.getElem?_eq_some_iff.mp hx).1
            have hagree := hmatching k x y hx hy hsame
            have hok := appendLoop_eq_ok hsound hlength hcommitted hk hkL hagree
            rw [if_neg (not_not.mpr hsame)]
            exact Or.inr ⟨hok, (appendLoop_spec L.indexed _ (k + 1) hk hkL hagree rfl).matched hok⟩
          · rw [if_pos hsame]
            exact Or.inl ⟨Nat.succ_pos k, rfl⟩

/-! ## The two sides of an attempt -/

section Sides

variable {n : Node ι} {request : AppendEntriesRequest ι}

omit [DecidableEq ι] in
theorem replicate_refused
    (h : n.received request = (n.logStore, .ok false)) :
    n.replicate request =
      ({ n with role := .follower, leaderId := some request.leaderId },
        some ⟨n.currentTerm, false⟩) := by
  unfold Node.received at h
  unfold Node.replicate
  simp only [h]

omit [DecidableEq ι] in
/-- Once the entries are accepted nothing can fail. -/
theorem replicate_accepted
    (hn : n.Consistent)
    (h : (n.received request).2 = .ok true) :
    (n.replicate request).2 = some ⟨n.currentTerm, true⟩ ∧
      (n.replicate request).1.logStore = (n.received request).1 := by
  obtain ⟨st, c, r, heq, -⟩ := Node.replicate_cases n request
  refine ⟨?_, by rw [heq]⟩
  have happlied := hn.applied
  unfold Node.received at h
  unfold Node.replicate Node.advanceFollowerCommit
  simp only [h, hn.commitState, RaftCommitState.save]
  split_ifs
  · rfl
  · omega
  · omega
  · omega
  · rfl

/-- The node that refuses has moved to the term of the request, with its log as it was. -/
theorem handleAppendEntries_refused
    (request : AppendEntriesRequest ι)
    (hn : n.Consistent)
    (hle : n.currentTerm ≤ request.term)
    (h : n.received request = (n.logStore, .ok false)) :
    ∃ n' : Node ι, n.handleAppendEntries request = (n', some ⟨request.term, false⟩) ∧
      n'.Consistent ∧ n'.currentTerm = request.term ∧ n'.logStore = n.logStore ∧
      n'.commitIndex = n.commitIndex := by
  have hterm : (n.seeTerm request.term).currentTerm = request.term := by
    rw [Node.seeTerm_currentTerm, max_eq_right hle]
  obtain ⟨hseen, -⟩ := hn.seeTerm request.term
  have hreceived : (n.seeTerm request.term).received request =
      ((n.seeTerm request.term).logStore, .ok false) := by
    simpa [Node.received] using h
  refine ⟨{ n.seeTerm request.term with
    role := .follower, leaderId := some request.leaderId }, ?_, ?_, hterm, ?_, ?_⟩
  · rw [Node.handleAppendEntries_eq hn.stored hle, replicate_refused hreceived]
    exact congrArg (fun term => (_, some (⟨term, false⟩ : AppendEntriesResponse))) hterm
  · exact ⟨hseen.stored, hseen.commitState, hseen.applied, hseen.logged⟩
  · exact Node.seeTerm_logStore n request.term
  · exact Node.seeTerm_commitIndex n request.term

theorem handleAppendEntries_accepted
    (request : AppendEntriesRequest ι)
    (hn : n.Consistent)
    (hle : n.currentTerm ≤ request.term)
    (h : (n.received request).2 = .ok true) :
    ∃ n' : Node ι, n.handleAppendEntries request = (n', some ⟨request.term, true⟩) ∧
      n'.logStore = (n.received request).1 := by
  have hterm : (n.seeTerm request.term).currentTerm = request.term := by
    rw [Node.seeTerm_currentTerm, max_eq_right hle]
  have hreceived : (n.seeTerm request.term).received request = n.received request := by
    simp [Node.received]
  rw [← hreceived] at h
  obtain ⟨hresponse, hstore⟩ := replicate_accepted (hn.seeTerm request.term).1 h
  refine ⟨((n.seeTerm request.term).replicate request).1, ?_, hstore.trans (by rw [hreceived])⟩
  rw [Node.handleAppendEntries_eq hn.stored hle, ← hterm, ← hresponse, hterm]

/-- The leader finds the entry before the next one. -/
theorem exists_buildAppendEntries
    {peerId : ι} {nextIndex matchIndex : Nat} (nodeId : ι) (term : Nat)
    (hget : n.tracker.states.get? peerId = some ⟨nextIndex, matchIndex⟩)
    (hpositive : 1 ≤ nextIndex)
    (hlog : nextIndex ≤ n.logStore.entries.length + 1) :
    ∃ prevLogTerm, getTermAt n.logStore (nextIndex - 1) = some prevLogTerm ∧
      n.buildAppendEntries nodeId term peerId = some {
        term := term
        leaderId := nodeId
        prevLogIndex := nextIndex - 1
        prevLogTerm := prevLogTerm
        leaderCommit := n.commitIndex
        entries := n.logStore.entries.drop (nextIndex - 1) } := by
  obtain ⟨prevLogTerm, hterm⟩ : ∃ prevLogTerm,
      getTermAt n.logStore (nextIndex - 1) = some prevLogTerm := by
    obtain ⟨k, rfl⟩ := Nat.exists_eq_succ_of_ne_zero (Nat.ne_of_gt hpositive)
    rw [Nat.succ_eq_add_one, Nat.add_sub_cancel]
    cases k with
    | zero => exact ⟨0, rfl⟩
    | succ k =>
        have hlt : k < n.logStore.entries.length := by omega
        refine ⟨n.logStore.entries[k].term, ?_⟩
        rw [getTermAt, if_neg (Nat.succ_ne_zero k), get_succ, List.getElem?_eq_getElem hlt]
        rfl
  refine ⟨prevLogTerm, hterm, ?_⟩
  unfold Node.buildAppendEntries
  simp only [hget, hterm, LogStore.getFrom]

end Sides

section Recording

variable {n : Node ι} {peerId : ι} {nextIndex matchIndex : Nat}
  {request : AppendEntriesRequest ι}

/-- A failure moves the next index back. -/
theorem recordAppendResponse_failure
    (hleads : n.role = .leader)
    (htracked : n.tracker.term = some n.currentTerm)
    (hget : n.tracker.states.get? peerId = some ⟨nextIndex, matchIndex⟩)
    (hnext : 1 < nextIndex) :
    n.recordAppendResponse n.currentTerm peerId request ⟨n.currentTerm, false⟩ =
      { n with tracker := { n.tracker with
          states := n.tracker.states.set peerId ⟨nextIndex - 1, matchIndex⟩ } } := by
  unfold Node.recordAppendResponse RaftReplicationTracker.recordFailure
  simp [hleads, htracked, hget, hnext]

/-- A success reaches as far as the entries of the request. -/
theorem recordAppendResponse_success
    {last : Nat}
    (hleads : n.role = .leader)
    (htracked : n.tracker.term = some n.currentTerm)
    (hget : n.tracker.states.get? peerId = some ⟨nextIndex, matchIndex⟩)
    (hthrough : request.prevLogIndex + request.entries.length = last)
    (hmatch : matchIndex ≤ last)
    (hlast : last < maxLong) :
    n.recordAppendResponse n.currentTerm peerId request ⟨n.currentTerm, true⟩ =
      { n with tracker := { n.tracker with
          states := n.tracker.states.set peerId ⟨last + 1, last⟩ } } := by
  have hmax : (if last > matchIndex then last else matchIndex) = last := by
    split_ifs <;> omega
  have hnext : checkedSucc last = some (last + 1) := if_pos hlast
  unfold Node.recordAppendResponse RaftReplicationTracker.recordSuccess
  simp [hleads, htracked, hget, hthrough, hmax, hnext]

end Recording

/-! ## Runs of attempts -/

section Convergence

variable {peerId : ι} {r : Replication ι} {nextIndex : Nat}

/-- The peer has the log of the leader, and the leader knows. -/
structure Repaired (peerId : ι) (L : LogStore) (r : Replication ι) : Prop where
  log : r.leader.logStore = L
  agrees : ∀ i, 0 < i → i ≤ L.entries.length → r.follower.logStore.get i = L.get i
  progress : r.leader.tracker.states.get? peerId =
    some ⟨L.entries.length + 1, L.entries.length⟩

/-- A refused attempt moves the next index back; the peer keeps its log. -/
theorem replicateToPeer_refused
    {nodeId : ι} {matchIndex : Nat} {request : AppendEntriesRequest ι}
    (h : Repairable peerId r nextIndex)
    (hget : r.leader.tracker.states.get? peerId = some ⟨nextIndex, matchIndex⟩)
    (hnext : 1 < nextIndex)
    (hbuild : r.leader.buildAppendEntries nodeId r.leader.currentTerm peerId = some request)
    (hterm : request.term = r.leader.currentTerm)
    (hrefused : r.follower.received request = (r.follower.logStore, .ok false)) :
    ∃ n' : Node ι, replicateToPeer nodeId peerId r =
        { leader := { r.leader with tracker := { r.leader.tracker with
            states := r.leader.tracker.states.set peerId ⟨nextIndex - 1, matchIndex⟩ } }
          follower := n'
          success := some false } ∧
      n'.Consistent ∧ n'.currentTerm = r.leader.currentTerm ∧
      n'.logStore = r.follower.logStore ∧ n'.commitIndex = r.follower.commitIndex := by
  obtain ⟨n', hhandle, hconsistent, hmoved, hstore, hcommit⟩ :=
    handleAppendEntries_refused request h.consistent (h.term_le.trans hterm.ge) hrefused
  refine ⟨n', ?_, hconsistent, hmoved.trans hterm, hstore, hcommit⟩
  unfold replicateToPeer
  simp only [hbuild, hhandle, hterm]
  rw [recordAppendResponse_failure h.leads h.tracked hget hnext]

/-- An accepted attempt records the whole log of the leader. -/
theorem replicateToPeer_accepted
    {nodeId : ι} {matchIndex : Nat} {request : AppendEntriesRequest ι}
    (h : Repairable peerId r nextIndex)
    (hget : r.leader.tracker.states.get? peerId = some ⟨nextIndex, matchIndex⟩)
    (hmatch : matchIndex ≤ r.leader.logStore.entries.length)
    (hbuild : r.leader.buildAppendEntries nodeId r.leader.currentTerm peerId = some request)
    (hterm : request.term = r.leader.currentTerm)
    (hthrough : request.prevLogIndex + request.entries.length =
      r.leader.logStore.entries.length)
    (haccepted : (r.follower.received request).2 = .ok true) :
    ∃ n' : Node ι, replicateToPeer nodeId peerId r =
        { leader := { r.leader with tracker := { r.leader.tracker with
            states := r.leader.tracker.states.set peerId
              ⟨r.leader.logStore.entries.length + 1, r.leader.logStore.entries.length⟩ } }
          follower := n'
          success := some true } ∧
      n'.logStore = (r.follower.received request).1 := by
  obtain ⟨n', hhandle, hstore⟩ :=
    handleAppendEntries_accepted request h.consistent (h.term_le.trans hterm.ge) haccepted
  refine ⟨n', ?_, hstore⟩
  unfold replicateToPeer
  simp only [hbuild, hhandle, hterm]
  rw [recordAppendResponse_success h.leads h.tracked hget hthrough hmatch h.fits]

/-- An attempt fails one entry further back, or repairs the log. -/
theorem Repairable.replicateToPeer
    (h : Repairable peerId r nextIndex)
    (nodeId : ι) :
    1 < nextIndex ∧ (replicateToPeer nodeId peerId r).success = some false ∧
        (replicateToPeer nodeId peerId r).leader.logStore = r.leader.logStore ∧
        Repairable peerId (replicateToPeer nodeId peerId r) (nextIndex - 1) ∨
      (replicateToPeer nodeId peerId r).success = some true ∧
        Repaired peerId r.leader.logStore (replicateToPeer nodeId peerId r) := by
  obtain ⟨matchIndex, hmatch, hget⟩ := h.progress
  obtain ⟨prevLogTerm, hprev, hbuild⟩ := exists_buildAppendEntries nodeId r.leader.currentTerm
    hget h.positive h.inLog
  have hle : nextIndex - 1 ≤ r.leader.logStore.entries.length := by
    have := h.inLog
    omega
  rcases tryAppendEntries_drop_cases r.follower.commitIndex h.sound h.fits
      h.matching h.committed hle hprev with ⟨hpos, hrefused⟩ | ⟨hok, hprefix⟩
  · left
    obtain ⟨n', hattempt, hconsistent, hterm, hstore, hcommit⟩ :=
      replicateToPeer_refused h hget (by omega) hbuild rfl hrefused
    rw [hattempt]
    refine ⟨by omega, rfl, rfl, ?_⟩
    exact {
      leads := h.leads
      tracked := h.tracked
      progress := ⟨matchIndex, hmatch, by simp [Dict.get?_set]⟩
      positive := hpos
      inLog := Nat.le_succ_of_le hle
      sound := h.sound
      fits := h.fits
      term_le := hterm.le
      consistent := hconsistent
      matching := by
        rw [hstore]
        exact h.matching
      committed := by
        rw [hstore, hcommit]
        exact h.committed }
  · right
    have hthrough : nextIndex - 1 + (r.leader.logStore.entries.drop (nextIndex - 1)).length =
        r.leader.logStore.entries.length := by
      rw [List.length_drop]
      omega
    obtain ⟨n', hattempt, hstore⟩ :=
      replicateToPeer_accepted h hget hmatch hbuild rfl hthrough hok
    rw [hattempt]
    refine ⟨rfl, rfl, fun i hpos hi => ?_, by simp [Dict.get?_set]⟩
    obtain ⟨later, hlater⟩ := hprefix
    obtain ⟨k, rfl⟩ := Nat.exists_eq_succ_of_ne_zero hpos.ne'
    have hentries : n'.logStore.entries = r.leader.logStore.entries ++ later := by
      rw [hstore]
      exact hlater.symm
    rw [Nat.succ_eq_add_one, get_succ, get_succ, hentries, List.getElem?_append_left (by omega)]

/-- Repeated attempts repair the log of the peer: the first success comes after at most as
many attempts as the next index says, and from then on the peer agrees with the leader on
every index of the leader's log. -/
theorem replication_converges
    (h : Repairable peerId r nextIndex)
    (nodeId : ι) :
    ∃ k, k < nextIndex ∧
      (∀ j, j < k → ((replicateToPeer nodeId peerId)^[j + 1] r).success = some false) ∧
      ((replicateToPeer nodeId peerId)^[k + 1] r).success = some true ∧
      Repaired peerId r.leader.logStore ((replicateToPeer nodeId peerId)^[k + 1] r) := by
  induction nextIndex generalizing r with
  | zero => exact absurd h.positive (by omega)
  | succ nextIndex ih =>
      rcases h.replicateToPeer nodeId with ⟨-, hfailed, hlog, hnext⟩ | ⟨hsuccess, hrepaired⟩
      · obtain ⟨k, hk, hbefore, hsuccess, hrepaired⟩ := ih hnext
        refine ⟨k + 1, by omega, fun j hj => ?_, hsuccess, ?_⟩
        · cases j with
          | zero => exact hfailed
          | succ j => exact hbefore j (by omega)
        · rw [hlog] at hrepaired
          exact hrepaired
      · exact ⟨0, by omega, fun j hj => absurd hj (Nat.not_lt_zero j), hsuccess, hrepaired⟩

/-- The leader of the second term has replaced the second entry, which the peer has not
committed. -/
def outdatedPeer : Replication (Fin 2) where
  leader := { loadNode ⟨2, some 0⟩ (oneCommand.push ⟨2, 2, 3, "Start", "body"⟩ rfl) ⟨1, 0⟩ with
    role := .leader
    tracker := ⟨some 2, Dict.empty.set 1 ⟨3, 0⟩⟩ }
  follower := loadNode ⟨1, none⟩ twoCommands ⟨1, 1⟩
  success := none

theorem repairable_outdatedPeer : Repairable 1 outdatedPeer 3 where
  leads := rfl
  tracked := rfl
  progress := ⟨0, by decide, by decide⟩
  positive := by decide
  inLog := by decide
  sound := ⟨by decide +kernel, by decide⟩
  fits := by decide
  term_le := by decide
  consistent := ⟨rfl, rfl, by decide, by decide⟩
  matching := by
    intro k x y hx hy hterm
    match k with
    | 0 => rfl
    | 1 =>
        cases hx
        cases hy
        cases hterm
    | k + 2 => cases hx
  committed := by decide

theorem replication_converges_sample :
    ∃ k, k < 3 ∧
      (∀ j, j < k → ((replicateToPeer 0 1)^[j + 1] outdatedPeer).success = some false) ∧
      ((replicateToPeer 0 1)^[k + 1] outdatedPeer).success = some true ∧
      Repaired 1 outdatedPeer.leader.logStore ((replicateToPeer 0 1)^[k + 1] outdatedPeer) :=
  replication_converges repairable_outdatedPeer 0

end Convergence

end Attempts

end Raft
end DistributedConsensus
