import DistributedConsensus.Coordinator.Raft.LocalLog

/-!
# Raft: what a replication request leaves in the log

A request that is accepted leaves the old log up to the matching entry, the received
entries, and the old entries behind them if none of the received ones conflicted.  A
request that is refused, or on which the log throws, should leave the log alone.

The log is cut before the received entries are added, one at a time, and only the store
checks the identities of the commands.  A repeated identity is therefore noticed when
the log may have lost its tail and gained some of the entries already
(`received_all_or_nothing_iff`).
-/

namespace DistributedConsensus
namespace Raft

open Foundations

/-- Take over entries as they arrive; what cannot be read is rejected. -/
def tryAppendWireEntries (s : LogStore) (prevLogIndex prevLogTerm : ℤ)
    (entries : Option (List (Option WireEntry))) (committedThroughIndex : ℤ) :
    LogStore × Option Bool :=
  match entries with
  | none => (s, none)
  | some entries =>
      if prevLogIndex < 0 then (s, none)
      else if prevLogTerm < 0 then (s, none)
      else if committedThroughIndex < 0 then (s, none)
      else
        let (s', result) := tryAppendEntries s prevLogIndex.toNat prevLogTerm.toNat
          (readEntries entries) committedThroughIndex.toNat
        (s', result.toOption)

/-- The log holds another entry in the place of a received one. -/
def Conflicts (s : LogStore) (e : RaftLogEntry) : Prop :=
  ∃ existing, s.get e.logIndex = some existing ∧ existing ≠ e

/-- The received entries from the first one on that the log does not hold in its place. -/
def freshEntries (s : LogStore) (entries : List RaftLogEntry) : List RaftLogEntry :=
  entries.dropWhile fun e => decide (s.get e.logIndex = some e)

/-- The entry before the received ones matches. -/
def PreviousMatches (s : LogStore) (prevLogIndex prevLogTerm : Nat) : Prop :=
  if prevLogIndex = 0 then prevLogTerm = 0
  else ∃ previousEntry, s.get prevLogIndex = some previousEntry ∧
    previousEntry.term = prevLogTerm

/-- The log after a request: complete if the result is positive, as before if it is
negative or missing. -/
def AllOrNothing (s : LogStore) (prevLogIndex : Nat) (entries : List RaftLogEntry)
    (s' : LogStore) (result : Option Bool) : Prop :=
  (result = some true →
    s'.entries.take prevLogIndex = s.entries.take prevLogIndex ∧
    ∃ tail, s'.entries.drop prevLogIndex = entries ++ tail ∧
      ((∃ e ∈ entries, Conflicts s e) → tail = []) ∧
      ((∀ e ∈ entries, ¬ Conflicts s e) →
        tail = s.entries.drop (prevLogIndex + entries.length))) ∧
  (result ≠ some true → s'.entries = s.entries)

/-- Nothing has been written when the request is refused.  The first fresh entry would
overwrite a committed one, or stands behind the end of the log and repeats an identity;
otherwise all entries that are kept or added have distinct identities. -/
def Storable (s : LogStore) (prevLogIndex prevLogTerm : Nat) (entries : List RaftLogEntry)
    (committedThroughIndex : Nat) : Prop :=
  validateReplicatedEntries prevLogIndex entries = none →
  PreviousMatches s prevLogIndex prevLogTerm →
  ∀ e rest, freshEntries s entries = e :: rest →
    (Conflicts s e ∧ e.logIndex ≤ committedThroughIndex) ∨
    (s.get e.logIndex = none ∧ e.commandId ∈ s.entries.map RaftLogEntry.commandId) ∨
    ((s.entries.take (e.logIndex - 1) ++ e :: rest).map RaftLogEntry.commandId).Nodup

/-! ## Received entries that pass the check -/

section Validated

variable {prevLogIndex : Nat} {e : RaftLogEntry} {rest : List RaftLogEntry}

theorem lt_maxLong_of_validate
    (h : validateReplicatedEntries prevLogIndex rest = none) :
    prevLogIndex < maxLong := by
  by_contra hlarge
  have hnone : checkedSucc prevLogIndex = none := if_neg hlarge
  cases rest with
  | nil => simp [validateReplicatedEntries, hnone] at h
  | cons e rest => simp [validateReplicatedEntries, hnone] at h

/-- The first entry has the next index and is valid for the store. -/
theorem validate_cons
    (h : validateReplicatedEntries prevLogIndex (e :: rest) = none) :
    e.logIndex = prevLogIndex + 1 ∧ LogStore.validEntry e = true ∧
      validateReplicatedEntries (prevLogIndex + 1) rest = none := by
  have hlt := lt_maxLong_of_validate h
  have hnext : checkedSucc prevLogIndex = some (prevLogIndex + 1) := if_pos hlt
  unfold validateReplicatedEntries at h
  rw [hnext] at h
  simp only at h
  split_ifs at h with hindex hterm hcommand
  push Not at hindex hcommand
  refine ⟨hindex, ?_, h⟩
  simp only [LogStore.validEntry, Bool.and_eq_true, decide_eq_true_eq, Bool.not_eq_true']
  exact ⟨⟨⟨⟨by omega, Nat.pos_of_ne_zero hterm⟩, hcommand.1⟩,
    Bool.eq_false_iff.mpr hcommand.2.1⟩, Bool.eq_false_iff.mpr hcommand.2.2⟩

theorem validate_append
    {agreed : List RaftLogEntry}
    (h : validateReplicatedEntries prevLogIndex (agreed ++ rest) = none) :
    validateReplicatedEntries (prevLogIndex + agreed.length) rest = none := by
  induction agreed generalizing prevLogIndex with
  | nil => exact h
  | cons e agreed ih =>
      have hrest := ih (validate_cons h).2.2
      rwa [List.length_cons, ← Nat.add_assoc, Nat.add_right_comm]

/-- Every entry stands behind the given index. -/
theorem lt_logIndex_of_validate
    (h : validateReplicatedEntries prevLogIndex rest = none)
    (he : e ∈ rest) :
    prevLogIndex < e.logIndex := by
  induction rest generalizing prevLogIndex with
  | nil => cases he
  | cons e' rest ih =>
      obtain ⟨hindex, -, hrest⟩ := validate_cons h
      rcases List.mem_cons.mp he with rfl | hmem
      · omega
      · have := ih hrest hmem
        omega

end Validated

/-! ## The next entries -/

section Next

variable {s : LogStore} {e : RaftLogEntry} {rest : List RaftLogEntry}

/-- A store is its rows. -/
theorem logStore_ext
    {s' : LogStore}
    (h : s.entries = s'.entries) :
    s = s' := by
  cases s
  cases s'
  cases h
  rfl

/-- A log has no entry behind its end. -/
theorem get_eq_none
    {logIndex : Nat}
    (h : s.entries.length < logIndex) :
    s.get logIndex = none := by
  obtain ⟨k, rfl⟩ := Nat.exists_eq_succ_of_ne_zero (Nat.ne_of_gt (Nat.zero_lt_of_lt h))
  rw [Nat.succ_eq_add_one, get_succ, List.getElem?_eq_none (by omega)]

/-- The store takes the next entry unless its identity is taken. -/
theorem append_next
    (hindex : e.logIndex = s.entries.length + 1)
    (hvalid : LogStore.validEntry e = true)
    (hlength : s.entries.length < maxLong)
    (hfresh : e.commandId ∉ s.entries.map RaftLogEntry.commandId) :
    ∃ s', s.append e = .ok s' ∧ s'.entries = s.entries ++ [e] := by
  have hnext : checkedSucc s.entries.length = some (s.entries.length + 1) := if_pos hlength
  have hnew : s.entries.any (fun x => decide (x.commandId = e.commandId)) = false := by
    simpa using hfresh
  refine ⟨s.push e hindex, ?_, rfl⟩
  unfold LogStore.append
  rw [get_eq_none (by omega)]
  simp [hvalid, hnew, hnext, hindex]

theorem append_repeated
    (hindex : e.logIndex = s.entries.length + 1)
    (hvalid : LogStore.validEntry e = true)
    (hrepeated : e.commandId ∈ s.entries.map RaftLogEntry.commandId) :
    s.append e = .error (.commandExists e.commandId) := by
  have hold : s.entries.any (fun x => decide (x.commandId = e.commandId)) = true := by
    simpa using hrepeated
  unfold LogStore.append
  rw [get_eq_none (by omega)]
  simp [hvalid, hold]

variable {committed : Nat}

/-- The loop at an entry behind the end of the log goes on if the store takes it. -/
theorem appendLoop_next
    {s' : LogStore}
    (hindex : e.logIndex = s.entries.length + 1)
    (happend : s.append e = .ok s') :
    appendLoop committed s (e :: rest) = appendLoop committed s' rest := by
  rw [appendLoop, get_eq_none (by omega)]
  simp only [happend]

theorem appendLoop_next_error
    {error : LogError}
    (hindex : e.logIndex = s.entries.length + 1)
    (happend : s.append e = .error error) :
    appendLoop committed s (e :: rest) = (s, .error error) := by
  rw [appendLoop, get_eq_none (by omega)]
  simp only [happend]

/-- Entries behind the end of the log are added as long as their identities are new. -/
theorem appendLoop_behind
    (committed : Nat) (rest : List RaftLogEntry) (s : LogStore)
    (hvalid : validateReplicatedEntries s.entries.length rest = none)
    (hids : (s.entries.map RaftLogEntry.commandId).Nodup) :
    ((s.entries ++ rest).map RaftLogEntry.commandId).Nodup ∧
        (appendLoop committed s rest).2 = .ok true ∧
        (appendLoop committed s rest).1.entries = s.entries ++ rest ∨
      ¬ ((s.entries ++ rest).map RaftLogEntry.commandId).Nodup ∧
        (∃ error, (appendLoop committed s rest).2 = .error error) ∧
        ∃ e behind, rest = e :: behind ∧
          (e.commandId ∈ s.entries.map RaftLogEntry.commandId ∧
              (appendLoop committed s rest).1 = s ∨
            e.commandId ∉ s.entries.map RaftLogEntry.commandId ∧
              s.entries ++ [e] <+: (appendLoop committed s rest).1.entries) := by
  induction rest generalizing s with
  | nil => exact Or.inl ⟨by simpa using hids, rfl, by simp [appendLoop]⟩
  | cons e rest ih =>
      obtain ⟨hindex, hentry, hrest⟩ := validate_cons hvalid
      by_cases hrepeated : e.commandId ∈ s.entries.map RaftLogEntry.commandId
      · rw [appendLoop_next_error hindex (append_repeated hindex hentry hrepeated)]
        refine Or.inr ⟨fun hnodup => ?_, ⟨_, rfl⟩, e, rest, rfl, Or.inl ⟨hrepeated, rfl⟩⟩
        rw [List.map_append, List.nodup_append] at hnodup
        exact hnodup.2.2 _ hrepeated _ (List.mem_map_of_mem List.mem_cons_self) rfl
      · obtain ⟨s', happend, hentries⟩ :=
          append_next hindex hentry (lt_maxLong_of_validate hvalid) hrepeated
        rw [appendLoop_next hindex happend]
        have hsplit : s.entries ++ e :: rest = s'.entries ++ rest := by simp [hentries]
        have hvalid' : validateReplicatedEntries s'.entries.length rest = none := by
          rw [hentries, List.length_append]
          exact hrest
        have hids' : (s'.entries.map RaftLogEntry.commandId).Nodup := by
          rw [hentries, List.map_append, List.map_singleton, ← List.concat_eq_append]
          exact List.Nodup.concat hrepeated hids
        rw [hsplit]
        rcases ih s' hvalid' hids' with hall | ⟨hrep, herror, e', behind, rfl, hstop⟩
        · exact Or.inl hall
        · refine Or.inr ⟨hrep, herror, e, e' :: behind, rfl, Or.inr ⟨hrepeated, ?_⟩⟩
          rw [← hentries]
          rcases hstop with ⟨-, hsame⟩ | ⟨-, hmore⟩
          · rw [hsame]
          · exact (List.prefix_append _ _).trans hmore

end Next

/-! ## The loop over received entries -/

section Loop

variable {s : LogStore} {prevLogIndex committed : Nat} {entries : List RaftLogEntry}

/-- Entries that the log holds already are skipped. -/
theorem appendLoop_freshEntries (committed : Nat) (s : LogStore) (entries : List RaftLogEntry) :
    appendLoop committed s entries = appendLoop committed s (freshEntries s entries) := by
  induction entries with
  | nil => rfl
  | cons e entries ih =>
      by_cases hheld : s.get e.logIndex = some e
      · have hfresh : freshEntries s (e :: entries) = freshEntries s entries := by
          simp [freshEntries, hheld]
        rw [hfresh, ← ih, appendLoop, hheld]
        simp
      · have hfresh : freshEntries s (e :: entries) = e :: entries := by
          simp [freshEntries, hheld]
        rw [hfresh]

/-- The first fresh entry is not in its place. -/
theorem get_ne_of_freshEntries
    {e : RaftLogEntry} {rest : List RaftLogEntry}
    (h : freshEntries s entries = e :: rest) :
    s.get e.logIndex ≠ some e := by
  have hhead := List.head?_dropWhile_not (fun e => decide (s.get e.logIndex = some e)) entries
  unfold freshEntries at h
  rw [h] at hhead
  simpa using hhead

/-- The received entries before the fresh ones continue the log behind the matching
entry. -/
theorem exists_agreed
    (entries : List RaftLogEntry) (prevLogIndex : Nat)
    (hprev : prevLogIndex ≤ s.entries.length)
    (hvalid : validateReplicatedEntries prevLogIndex entries = none) :
    ∃ agreed, entries = agreed ++ freshEntries s entries ∧
      (∀ e ∈ agreed, s.get e.logIndex = some e) ∧
      s.entries.take (prevLogIndex + agreed.length) = s.entries.take prevLogIndex ++ agreed ∧
      prevLogIndex + agreed.length ≤ s.entries.length := by
  induction entries generalizing prevLogIndex with
  | nil => exact ⟨[], rfl, by simp, by simp, hprev⟩
  | cons e entries ih =>
      by_cases hheld : s.get e.logIndex = some e
      · obtain ⟨hindex, -, hrest⟩ := validate_cons hvalid
        have hget : s.entries[prevLogIndex]? = some e := by
          rw [← get_succ, ← hindex, hheld]
        have hlt := (List.getElem?_eq_some_iff.mp hget).1
        obtain ⟨agreed, hsplit, hagreed, htake, hlength⟩ := ih (prevLogIndex + 1) hlt hrest
        have hfresh : freshEntries s (e :: entries) = freshEntries s entries := by
          simp [freshEntries, hheld]
        have hnext : prevLogIndex + (e :: agreed).length = prevLogIndex + 1 + agreed.length := by
          rw [List.length_cons]
          omega
        refine ⟨e :: agreed, ?_, ?_, ?_, by omega⟩
        · rw [hfresh, List.cons_append, ← hsplit]
        · intro e' he'
          rcases List.mem_cons.mp he' with rfl | hmem
          · exact hheld
          · exact hagreed e' hmem
        · rw [hnext, htake, List.take_add_one, hget]
          simp
      · have hfresh : freshEntries s (e :: entries) = e :: entries := by
          simp [freshEntries, hheld]
        exact ⟨[], by rw [hfresh]; rfl, by simp, by simp, hprev⟩

/-- At a fresh entry the loop refuses to cut the committed part, or cuts the log there and
adds what follows. -/
theorem appendLoop_fresh
    (committed : Nat) {e : RaftLogEntry} (rest : List RaftLogEntry)
    (hindex : 0 < e.logIndex)
    (hlog : e.logIndex ≤ s.entries.length + 1)
    (hfresh : s.get e.logIndex ≠ some e) :
    Conflicts s e ∧ e.logIndex ≤ committed ∧
        appendLoop committed s (e :: rest) = (s, .ok false) ∨
      ¬ (Conflicts s e ∧ e.logIndex ≤ committed) ∧
        appendLoop committed s (e :: rest) =
          appendLoop committed (s.deleteFrom e.logIndex) (e :: rest) := by
  have hcut : (s.deleteFrom e.logIndex).entries.length + 1 = e.logIndex := by
    change (s.entries.take (e.logIndex - 1)).length + 1 = e.logIndex
    rw [List.length_take]
    omega
  cases hget : s.get e.logIndex with
  | none =>
      refine Or.inr ⟨fun hconflict => ?_, ?_⟩
      · obtain ⟨existing, hexisting, -⟩ := hconflict.1
        rw [hget] at hexisting
        cases hexisting
      · -- the entry stands behind the end: nothing is cut
        have hend : s.entries.length < e.logIndex := by
          by_contra hle
          obtain ⟨k, hk⟩ := Nat.exists_eq_succ_of_ne_zero hindex.ne'
          rw [hk, Nat.succ_eq_add_one, get_succ, List.getElem?_eq_none_iff] at hget
          omega
        have hsame : s.deleteFrom e.logIndex = s :=
          logStore_ext (List.take_of_length_le (by omega))
        rw [hsame]
  | some existing =>
      have hne : existing ≠ e := fun heq => hfresh (by rw [hget, heq])
      have hconflict : Conflicts s e := ⟨existing, hget, hne⟩
      by_cases hcommitted : e.logIndex ≤ committed
      · refine Or.inl ⟨hconflict, hcommitted, ?_⟩
        rw [appendLoop, hget]
        simp only
        rw [if_neg hne, if_pos hcommitted]
      · refine Or.inr ⟨fun h => hcommitted h.2, ?_⟩
        cases happend : (s.deleteFrom e.logIndex).append e with
        | error error =>
            rw [appendLoop_next_error hcut.symm happend, appendLoop, hget]
            simp only [if_neg hne, if_neg hcommitted, happend]
        | ok s' =>
            rw [appendLoop_next hcut.symm happend, appendLoop, hget]
            simp only [if_neg hne, if_neg hcommitted, happend]

end Loop

/-! ## All or nothing -/

section AllOrNothing

variable {s : LogStore} {prevLogIndex prevLogTerm committed : Nat}
  {entries : List RaftLogEntry}

theorem AllOrNothing.unchanged
    {result : Option Bool}
    (h : result ≠ some true) :
    AllOrNothing s prevLogIndex entries s result :=
  ⟨fun htrue => absurd htrue h, fun _ => rfl⟩

/-- Only a fresh entry can conflict. -/
theorem exists_conflict_iff
    {agreed : List RaftLogEntry} {e : RaftLogEntry} {rest : List RaftLogEntry}
    (hagreed : ∀ x ∈ agreed, s.get x.logIndex = some x)
    (hlog : s.get e.logIndex = none → ∀ x ∈ rest, s.get x.logIndex = none)
    (hfresh : s.get e.logIndex ≠ some e) :
    (∃ x ∈ agreed ++ e :: rest, Conflicts s x) ↔ s.get e.logIndex ≠ none := by
  constructor
  · rintro ⟨x, hx, existing, hget, hne⟩ hnone
    rcases List.mem_append.mp hx with hheld | hbehind
    · rw [hagreed x hheld] at hget
      exact hne (Option.some.inj hget).symm
    · rcases List.mem_cons.mp hbehind with rfl | hmem
      · rw [hnone] at hget
        cases hget
      · rw [hlog hnone x hmem] at hget
        cases hget
  · intro hsome
    obtain ⟨existing, hget⟩ := Option.ne_none_iff_exists'.mp hsome
    exact ⟨e, List.mem_append_right _ List.mem_cons_self, existing, hget,
      fun heq => hfresh (by rw [hget, heq])⟩

/-- The kept part and all received entries make a complete log. -/
theorem AllOrNothing.complete
    {s' : LogStore} {agreed : List RaftLogEntry} {e : RaftLogEntry} {rest : List RaftLogEntry}
    (hprev : prevLogIndex ≤ s.entries.length)
    (hvalid : validateReplicatedEntries prevLogIndex (agreed ++ e :: rest) = none)
    (hagreed : ∀ x ∈ agreed, s.get x.logIndex = some x)
    (htake : s.entries.take (prevLogIndex + agreed.length) =
      s.entries.take prevLogIndex ++ agreed)
    (hlength : prevLogIndex + agreed.length ≤ s.entries.length)
    (hfresh : s.get e.logIndex ≠ some e)
    (hentries : s'.entries = s.entries.take (e.logIndex - 1) ++ e :: rest) :
    AllOrNothing s prevLogIndex (agreed ++ e :: rest) s' (some true) := by
  have hrest := validate_append hvalid
  obtain ⟨hindex, -, hbehind⟩ := validate_cons hrest
  have hkept : s.entries.take (e.logIndex - 1) = s.entries.take prevLogIndex ++ agreed := by
    rw [hindex, Nat.add_sub_cancel, htake]
  have hprefix : (s.entries.take prevLogIndex).length = prevLogIndex := by
    rw [List.length_take]
    omega
  have hconflict : (∃ x ∈ agreed ++ e :: rest, Conflicts s x) ↔ s.get e.logIndex ≠ none := by
    refine exists_conflict_iff hagreed (fun hnone x hx => ?_) hfresh
    have hx' := lt_logIndex_of_validate hbehind hx
    rw [hindex, get_succ, List.getElem?_eq_none_iff] at hnone
    exact get_eq_none (by omega)
  refine ⟨fun _ => ⟨?_, [], ?_, fun _ => rfl, fun hno => ?_⟩, fun h => absurd rfl h⟩
  · rw [hentries, hkept, List.append_assoc, List.take_left' hprefix]
  · rw [hentries, hkept, List.append_assoc, List.drop_left' hprefix, List.append_nil]
  · have hend : s.get e.logIndex = none := by
      by_contra hsome
      obtain ⟨x, hx, hxconflict⟩ := hconflict.mpr hsome
      exact hno x hx hxconflict
    rw [hindex, get_succ, List.getElem?_eq_none_iff] at hend
    rw [List.drop_eq_nil_of_le]
    rw [List.length_append, List.length_cons]
    omega

/-- A loop that only meets entries it holds accepts them and changes nothing. -/
theorem AllOrNothing.held
    (hprev : prevLogIndex ≤ s.entries.length)
    (hheld : ∀ x ∈ entries, s.get x.logIndex = some x)
    (htake : s.entries.take (prevLogIndex + entries.length) =
      s.entries.take prevLogIndex ++ entries) :
    AllOrNothing s prevLogIndex entries s (some true) := by
  have hprefix : (s.entries.take prevLogIndex).length = prevLogIndex := by
    rw [List.length_take]
    omega
  refine ⟨fun _ => ⟨rfl, s.entries.drop (prevLogIndex + entries.length), ?_, ?_, fun _ => rfl⟩,
    fun h => absurd rfl h⟩
  · conv_lhs => rw [← List.take_append_drop (prevLogIndex + entries.length) s.entries, htake,
      List.append_assoc, List.drop_left' hprefix]
  · rintro ⟨x, hx, existing, hget, hne⟩
    rw [hheld x hx] at hget
    exact absurd (Option.some.inj hget).symm hne

/-- A cut log is the old one only if the entry stands behind the end. -/
theorem entries_deleteFrom_eq_iff
    {e : RaftLogEntry}
    (hindex : 0 < e.logIndex) :
    (s.deleteFrom e.logIndex).entries = s.entries ↔ s.get e.logIndex = none := by
  obtain ⟨k, hk⟩ := Nat.exists_eq_succ_of_ne_zero hindex.ne'
  rw [hk, Nat.succ_eq_add_one, get_succ, List.getElem?_eq_none_iff]
  exact List.take_eq_self_iff s.entries

/-- A loop that throws has to leave the old log. -/
theorem AllOrNothing.throws_iff {s' : LogStore} :
    AllOrNothing s prevLogIndex entries s' none ↔ s'.entries = s.entries :=
  ⟨fun h => h.2 (by simp), fun h => ⟨(fun htrue => nomatch htrue), fun _ => h⟩⟩

/-- A loop that throws behind a cut has left the old log only if nothing was cut and
nothing was added. -/
theorem entries_eq_iff_of_stop
    {s' : LogStore} {e : RaftLogEntry}
    (hcut : (s.deleteFrom e.logIndex).entries.length + 1 = e.logIndex)
    (hfresh : s.get e.logIndex ≠ some e)
    (hstop :
      e.commandId ∈ (s.deleteFrom e.logIndex).entries.map RaftLogEntry.commandId ∧
          s' = s.deleteFrom e.logIndex ∨
        e.commandId ∉ (s.deleteFrom e.logIndex).entries.map RaftLogEntry.commandId ∧
          (s.deleteFrom e.logIndex).entries ++ [e] <+: s'.entries) :
    s'.entries = s.entries ↔
      s.get e.logIndex = none ∧ e.commandId ∈ s.entries.map RaftLogEntry.commandId := by
  have hkept := entries_deleteFrom_eq_iff (s := s) (e := e) (by omega)
  rcases hstop with ⟨hold, rfl⟩ | ⟨hnew, hmore⟩
  · rw [hkept]
    refine ⟨fun hnone => ⟨hnone, ?_⟩, fun h => h.1⟩
    rw [hkept.mpr hnone] at hold
    exact hold
  · -- the entry was added, but the old log does not hold it
    refine iff_of_false (fun hsame => ?_) fun ⟨hnone, hold⟩ => ?_
    · rw [hsame] at hmore
      obtain ⟨later, hlater⟩ := hmore
      apply hfresh
      rw [← hcut, get_succ, ← hlater, List.append_assoc, List.getElem?_append_right le_rfl]
      simp
    · rw [hkept.mpr hnone] at hnew
      exact hnew hold

/-- The loop behind a matching entry. -/
theorem allOrNothing_appendLoop_iff
    (hids : (s.entries.map RaftLogEntry.commandId).Nodup)
    (hprev : prevLogIndex ≤ s.entries.length)
    (hvalid : validateReplicatedEntries prevLogIndex entries = none) :
    AllOrNothing s prevLogIndex entries (appendLoop committed s entries).1
        (appendLoop committed s entries).2.toOption ↔
      ∀ e rest, freshEntries s entries = e :: rest →
        (Conflicts s e ∧ e.logIndex ≤ committed) ∨
        (s.get e.logIndex = none ∧ e.commandId ∈ s.entries.map RaftLogEntry.commandId) ∨
        ((s.entries.take (e.logIndex - 1) ++ e :: rest).map RaftLogEntry.commandId).Nodup := by
  obtain ⟨agreed, hsplit, hagreed, htake, hlength⟩ :=
    exists_agreed entries prevLogIndex hprev hvalid
  rw [appendLoop_freshEntries]
  cases hfresh : freshEntries s entries with
  | nil =>
      rw [hfresh, List.append_nil] at hsplit
      subst hsplit
      exact iff_of_true (AllOrNothing.held hprev hagreed htake) fun e rest h => nomatch h
  | cons e rest =>
      have hne := get_ne_of_freshEntries hfresh
      rw [hfresh] at hsplit
      have hrest : validateReplicatedEntries (prevLogIndex + agreed.length) (e :: rest) = none := by
        rw [hsplit] at hvalid
        exact validate_append hvalid
      have hindex := (validate_cons hrest).1
      have hkept : (s.deleteFrom e.logIndex).entries.length = prevLogIndex + agreed.length := by
        change (s.entries.take (e.logIndex - 1)).length = _
        rw [List.length_take]
        omega
      have hone : (∀ e' rest', e :: rest = e' :: rest' →
          (Conflicts s e' ∧ e'.logIndex ≤ committed) ∨
          (s.get e'.logIndex = none ∧ e'.commandId ∈ s.entries.map RaftLogEntry.commandId) ∨
          ((s.entries.take (e'.logIndex - 1) ++ e' :: rest').map
            RaftLogEntry.commandId).Nodup) ↔
          (Conflicts s e ∧ e.logIndex ≤ committed) ∨
          (s.get e.logIndex = none ∧ e.commandId ∈ s.entries.map RaftLogEntry.commandId) ∨
          (((s.deleteFrom e.logIndex).entries ++ e :: rest).map RaftLogEntry.commandId).Nodup :=
        ⟨fun h => h e rest rfl, fun h e' rest' heq => by cases heq; exact h⟩
      rw [hone]
      rcases appendLoop_fresh committed rest (by omega) (by omega) hne with
        ⟨hconflict, hcommitted, hloop⟩ | ⟨hfree, hloop⟩
      · rw [hloop]
        exact iff_of_true (AllOrNothing.unchanged (by simp [Except.toOption]))
          (Or.inl ⟨hconflict, hcommitted⟩)
      · rw [hloop]
        rcases appendLoop_behind committed (e :: rest) (s.deleteFrom e.logIndex)
            (by rw [hkept]; exact hrest) (hids.sublist ((List.take_sublist _ _).map _)) with
          ⟨hnodup, hresult, hentries⟩ | ⟨hrep, ⟨error, hresult⟩, e', behind, heq, hstop⟩
        · rw [hresult]
          rw [hsplit] at hvalid ⊢
          exact iff_of_true
            (AllOrNothing.complete hprev hvalid hagreed htake hlength hne hentries)
            (Or.inr (Or.inr hnodup))
        · cases heq
          rw [hresult, or_iff_right hfree, or_iff_left hrep]
          exact AllOrNothing.throws_iff.trans
            (entries_eq_iff_of_stop (by rw [hkept, hindex]) hne hstop)

/-- The call: a request that is rejected before the loop changes nothing. -/
theorem allOrNothing_tryAppendEntries_iff
    (hids : (s.entries.map RaftLogEntry.commandId).Nodup) :
    AllOrNothing s prevLogIndex entries
        (tryAppendEntries s prevLogIndex prevLogTerm entries committed).1
        (tryAppendEntries s prevLogIndex prevLogTerm entries committed).2.toOption ↔
      Storable s prevLogIndex prevLogTerm entries committed := by
  unfold tryAppendEntries Storable PreviousMatches
  cases hvalid : validateReplicatedEntries prevLogIndex entries with
  | some error =>
      exact iff_of_true (AllOrNothing.unchanged (by simp [Except.toOption]))
        fun h => nomatch h
  | none =>
      simp only [forall_const]
      by_cases hzero : prevLogIndex = 0
      · rw [if_pos hzero, if_pos hzero]
        by_cases hterm : prevLogTerm = 0
        · rw [if_neg (not_not.mpr hterm),
            allOrNothing_appendLoop_iff hids (by omega) hvalid]
          simp only [hterm, forall_const]
        · rw [if_pos hterm]
          exact iff_of_true (AllOrNothing.unchanged (by simp [Except.toOption]))
            fun h => absurd h hterm
      · rw [if_neg hzero, if_neg hzero]
        cases hget : s.get prevLogIndex with
        | none =>
            refine iff_of_true (AllOrNothing.unchanged (by simp [Except.toOption])) ?_
            rintro ⟨previousEntry, hsome, -⟩
            cases hsome
        | some previousEntry =>
            simp only [Option.some.injEq, exists_eq_left']
            by_cases hterm : previousEntry.term = prevLogTerm
            · have hprev : prevLogIndex ≤ s.entries.length := by
                by_contra hlt
                rw [get_eq_none (by omega)] at hget
                cases hget
              rw [if_neg (not_not.mpr hterm), allOrNothing_appendLoop_iff hids hprev hvalid]
              simp only [hterm, forall_const]
            · rw [if_pos hterm]
              exact iff_of_true (AllOrNothing.unchanged (by simp [Except.toOption]))
                fun h => absurd h hterm

/-- A request leaves the log complete or untouched exactly if it cannot be read or no
identity is found repeated after the first change of the log. -/
theorem received_all_or_nothing_iff
    (hids : (s.entries.map RaftLogEntry.commandId).Nodup)
    (prevLogIndex prevLogTerm committedThroughIndex : ℤ)
    (entries : Option (List (Option WireEntry))) :
    AllOrNothing s prevLogIndex.toNat (readEntries (entries.getD []))
        (tryAppendWireEntries s prevLogIndex prevLogTerm entries committedThroughIndex).1
        (tryAppendWireEntries s prevLogIndex prevLogTerm entries committedThroughIndex).2 ↔
      (0 ≤ prevLogIndex → 0 ≤ prevLogTerm → 0 ≤ committedThroughIndex →
        ∀ received, entries = some received →
          Storable s prevLogIndex.toNat prevLogTerm.toNat (readEntries received)
            committedThroughIndex.toNat) := by
  cases entries with
  | none => exact iff_of_true (AllOrNothing.unchanged nofun) fun _ _ _ _ h => nomatch h
  | some received =>
      unfold tryAppendWireEntries
      simp only [Option.getD_some, Option.some.injEq, forall_eq']
      by_cases hindex : prevLogIndex < 0
      · rw [if_pos hindex]
        exact iff_of_true (AllOrNothing.unchanged nofun) fun h => by omega
      · rw [if_neg hindex]
        by_cases hterm : prevLogTerm < 0
        · rw [if_pos hterm]
          exact iff_of_true (AllOrNothing.unchanged nofun) fun _ h => by omega
        · rw [if_neg hterm]
          by_cases hcommitted : committedThroughIndex < 0
          · rw [if_pos hcommitted]
            exact iff_of_true (AllOrNothing.unchanged nofun) fun _ _ h => by omega
          · rw [if_neg hcommitted, allOrNothing_tryAppendEntries_iff hids]
            exact ⟨fun h _ _ _ => h, fun h => h (by omega) (by omega) (by omega)⟩

/-- A command of the first term. -/
def oneCommand : LogStore := LogStore.empty.push ⟨1, 1, 1, "Start", "body"⟩ rfl

/-- Two commands of the first term. -/
def twoCommands : LogStore := oneCommand.push ⟨2, 1, 2, "Start", "body"⟩ rfl

theorem nodup_twoCommands : (twoCommands.entries.map RaftLogEntry.commandId).Nodup := by
  decide

theorem received_all_or_nothing_sample :
    AllOrNothing twoCommands 1 [⟨2, 2, 3, "Start", "body"⟩]
      (tryAppendWireEntries twoCommands 1 1
        (some [some ⟨2, 2, 3, some "Start", some "body"⟩]) 0).1
      (tryAppendWireEntries twoCommands 1 1
        (some [some ⟨2, 2, 3, some "Start", some "body"⟩]) 0).2 := by
  refine (received_all_or_nothing_iff nodup_twoCommands 1 1 0 _).mpr
    fun _ _ _ received hreceived _ _ e rest hfresh => Or.inr (Or.inr ?_)
  cases hreceived
  have hone : freshEntries twoCommands (readEntries [some ⟨2, 2, 3, some "Start", some "body"⟩]) =
      [⟨2, 2, 3, "Start", "body"⟩] := by
    decide +kernel
  have hcons := hone.symm.trans hfresh
  cases hcons
  decide

/-- A new second entry repeats the first command: the old second entry is gone when the
log throws. -/
theorem received_truncated :
    ¬ ∀ (s : LogStore), (s.entries.map RaftLogEntry.commandId).Nodup →
      ∀ (prevLogIndex prevLogTerm committedThroughIndex : ℤ)
        (entries : Option (List (Option WireEntry))),
        AllOrNothing s prevLogIndex.toNat (readEntries (entries.getD []))
          (tryAppendWireEntries s prevLogIndex prevLogTerm entries committedThroughIndex).1
          (tryAppendWireEntries s prevLogIndex prevLogTerm entries committedThroughIndex).2 := by
  intro h
  have hwhole := h twoCommands nodup_twoCommands 1 1 0
    (some [some ⟨2, 2, 1, some "Start", some "body"⟩])
  have hrefused : (tryAppendWireEntries twoCommands 1 1
      (some [some ⟨2, 2, 1, some "Start", some "body"⟩]) 0).2 = none := by
    decide +kernel
  have hcut : (tryAppendWireEntries twoCommands 1 1
      (some [some ⟨2, 2, 1, some "Start", some "body"⟩]) 0).1.entries.length = 1 := by
    decide +kernel
  have hsame := congrArg List.length (hwhole.2 (by rw [hrefused]; nofun))
  rw [hcut] at hsame
  cases hsame

end AllOrNothing

end Raft
end DistributedConsensus
