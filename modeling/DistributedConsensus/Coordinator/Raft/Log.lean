import DistributedConsensus.Foundations.ReplicatedLog
import Mathlib.Algebra.Group.Nat.Defs

/-!
# Raft: the log of a node

The log store and the log manager of a coordinator node.  The store holds the
rows of one node ordered by index; it only accepts the next index and only
deletes suffixes, so the entry with index `k + 1` stands at position `k`.

An operation of the source that throws returns the reason.  What it has written
before it throws stays written.
-/

namespace DistributedConsensus
namespace Raft

open Foundations

/-- The largest value of a signed 64-bit integer. -/
def maxLong : Nat := 2 ^ 63 - 1

/-- Adding one with an overflow check. -/
def checkedSucc (x : Nat) : Option Nat :=
  if x < maxLong then some (x + 1) else none

theorem checkedSucc_eq_some
    {x y : Nat}
    (h : checkedSucc x = some y) :
    y = x + 1 := by
  unfold checkedSucc at h
  split at h
  · exact (Option.some.inj h).symm
  · cases h

/-- A globally unique identifier. -/
abbrev Guid := BitVec 128

instance lawfulBEqGuid : LawfulBEq Guid := inferInstance

theorem guid_one_ne_zero : (1 : Guid) ≠ 0 := by
  decide

/-- The white-space characters of the platform. -/
def isWhiteSpace (c : Char) : Bool :=
  let n := c.toNat
  (0x9 ≤ n && n ≤ 0xD) || n = 0x20 || n = 0x85 || n = 0xA0 || n = 0x1680 ||
    (0x2000 ≤ n && n ≤ 0x200A) || n = 0x2028 || n = 0x2029 || n = 0x202F || n = 0x205F ||
    n = 0x3000

/-- Whether a text is empty or consists of white space. -/
def isNullOrWhiteSpace (text : String) : Bool :=
  text.toList.all isWhiteSpace

/-- A command as the serializer writes it. -/
structure SerializedCommand where
  commandId : Guid
  commandType : String
  payloadJson : String
deriving DecidableEq

/-- An entry of the log. -/
structure RaftLogEntry where
  logIndex : Nat
  term : Nat
  commandId : Guid
  commandType : String
  commandPayloadJson : String
deriving DecidableEq

/-- The reasons for which the log throws. -/
inductive LogError where
  | termNotPositive
  | invalidEntry
  | indexOccupied (logIndex : Nat)
  | commandExists (commandId : Guid)
  | unexpectedIndex (expected received : Nat)
  | missingEntry (logIndex : Nat)
  | overflow
deriving DecidableEq

/-- The rows of one node, ordered by index. -/
structure LogStore where
  entries : List RaftLogEntry
  /-- Indexes are consecutive and start at one. -/
  indexed : ∀ k e, entries[k]? = some e → e.logIndex = k + 1

namespace LogStore

/-- The store of a new node. -/
def empty : LogStore := ⟨[], by simp⟩

/-- The entry with an index. -/
def get (s : LogStore) (logIndex : Nat) : Option RaftLogEntry :=
  if logIndex = 0 then none else s.entries[logIndex - 1]?

/-- The entry with the largest index. -/
def getLast (s : LogStore) : Option RaftLogEntry := s.entries.getLast?

/-- The entries from an index on. -/
def getFrom (s : LogStore) (startIndex : Nat) : List RaftLogEntry :=
  s.entries.drop (startIndex - 1)

/-- The checks on a single entry. -/
def validEntry (entry : RaftLogEntry) : Bool :=
  decide (0 < entry.logIndex) && decide (0 < entry.term) && decide (entry.commandId ≠ 0) &&
    !isNullOrWhiteSpace entry.commandType && !isNullOrWhiteSpace entry.commandPayloadJson

/-- The rows after adding the next one. -/
def push (s : LogStore) (entry : RaftLogEntry) (h : entry.logIndex = s.entries.length + 1) :
    LogStore where
  entries := s.entries ++ [entry]
  indexed k e he := by
    rw [List.getElem?_append] at he
    split at he
    case isTrue => exact s.indexed k e he
    case isFalse hk =>
      have hk0 : k - s.entries.length = 0 := by
        by_contra hne
        rw [List.getElem?_eq_none (by simp; omega)] at he
        cases he
      rw [hk0] at he
      cases he
      omega

/-- Add an entry. -/
def append (s : LogStore) (entry : RaftLogEntry) : Except LogError LogStore :=
  if !validEntry entry then .error .invalidEntry
  else
    match s.get entry.logIndex with
    | some existing =>
        if existing = entry then .ok s else .error (.indexOccupied entry.logIndex)
    | none =>
        if s.entries.any (fun existing => decide (existing.commandId = entry.commandId)) then
          .error (.commandExists entry.commandId)
        else
          match checkedSucc s.entries.length with
          | none => .error .overflow
          | some expectedIndex =>
              if h : entry.logIndex = s.entries.length + 1 then .ok (s.push entry h)
              else .error (.unexpectedIndex expectedIndex entry.logIndex)

/-- Remove the entries from a positive index on. -/
def deleteFrom (s : LogStore) (startIndex : Nat) : LogStore where
  entries := s.entries.take (startIndex - 1)
  indexed k e he := by
    rw [List.getElem?_take] at he
    split at he
    · exact s.indexed k e he
    · cases he

end LogStore

/-! ## The log manager -/

/-- A position in the log. -/
structure RaftLogPosition where
  logIndex : Nat
  term : Nat
deriving DecidableEq

/-- The position of the last entry. -/
def getLastPosition (s : LogStore) : RaftLogPosition :=
  match s.getLast with
  | none => ⟨0, 0⟩
  | some lastEntry => ⟨lastEntry.logIndex, lastEntry.term⟩

/-- The term at an index; index zero stands before the log. -/
def getTermAt (s : LogStore) (logIndex : Nat) : Option Nat :=
  if logIndex = 0 then some 0 else (s.get logIndex).map RaftLogEntry.term

/-- Append a command in a term; the new entry is returned with the store. -/
def appendCommand (s : LogStore) (command : SerializedCommand) (term : Nat) :
    Except LogError (LogStore × RaftLogEntry) :=
  if term = 0 then .error .termNotPositive
  else
    match checkedSucc (getLastPosition s).logIndex with
    | none => .error .overflow
    | some nextIndex =>
        let entry : RaftLogEntry :=
          ⟨nextIndex, term, command.commandId, command.commandType, command.payloadJson⟩
        match s.append entry with
        | .error e => .error e
        | .ok s' => .ok (s', entry)

/-- The checks on received entries. -/
def validateReplicatedEntries : Nat → List RaftLogEntry → Option LogError
  | prevLogIndex, [] =>
      match checkedSucc prevLogIndex with
      | none => some .overflow
      | some _ => none
  | prevLogIndex, entry :: rest =>
      match checkedSucc prevLogIndex with
      | none => some .overflow
      | some expectedIndex =>
          if entry.logIndex ≠ expectedIndex then
            some (.unexpectedIndex expectedIndex entry.logIndex)
          else if entry.term = 0 then some .termNotPositive
          else if entry.commandId = 0 ∨ isNullOrWhiteSpace entry.commandType ∨
              isNullOrWhiteSpace entry.commandPayloadJson then some .invalidEntry
          else validateReplicatedEntries expectedIndex rest

/-- The loop over received entries. -/
def appendLoop (committedThroughIndex : Nat) :
    LogStore → List RaftLogEntry → LogStore × Except LogError Bool
  | s, [] => (s, .ok true)
  | s, incomingEntry :: rest =>
      match s.get incomingEntry.logIndex with
      | some existingEntry =>
          if existingEntry = incomingEntry then appendLoop committedThroughIndex s rest
          else if incomingEntry.logIndex ≤ committedThroughIndex then (s, .ok false)
          else
            match (s.deleteFrom incomingEntry.logIndex).append incomingEntry with
            | .error e => (s.deleteFrom incomingEntry.logIndex, .error e)
            | .ok s' => appendLoop committedThroughIndex s' rest
      | none =>
          match s.append incomingEntry with
          | .error e => (s, .error e)
          | .ok s' => appendLoop committedThroughIndex s' rest

/-- Take over received entries behind a matching one. -/
def tryAppendEntries (s : LogStore) (prevLogIndex prevLogTerm : Nat)
    (entries : List RaftLogEntry) (committedThroughIndex : Nat) :
    LogStore × Except LogError Bool :=
  match validateReplicatedEntries prevLogIndex entries with
  | some e => (s, .error e)
  | none =>
      if prevLogIndex = 0 then
        if prevLogTerm ≠ 0 then (s, .ok false)
        else appendLoop committedThroughIndex s entries
      else
        match s.get prevLogIndex with
        | none => (s, .ok false)
        | some previousEntry =>
            if previousEntry.term ≠ prevLogTerm then (s, .ok false)
            else appendLoop committedThroughIndex s entries

/-! ## What the operations do to the rows -/

section Specs

variable {s s' : LogStore}

theorem get_succ (s : LogStore) (k : Nat) : s.get (k + 1) = s.entries[k]? := by
  simp [LogStore.get]

theorem getLastPosition_logIndex (s : LogStore) :
    (getLastPosition s).logIndex = s.entries.length := by
  unfold getLastPosition LogStore.getLast
  cases hlast : s.entries.getLast? with
  | none => simp [List.getLast?_eq_none_iff.mp hlast]
  | some e =>
      have hne : s.entries ≠ [] := by
        intro hnil
        simp [hnil] at hlast
      have hpos := List.length_pos_iff.mpr hne
      rw [List.getLast?_eq_getElem?] at hlast
      have hindex := s.indexed _ e hlast
      simp only
      omega

theorem getLastPosition_term (s : LogStore) :
    (getLastPosition s).term = ReplicatedLog.lastTerm RaftLogEntry.term s.entries := by
  unfold getLastPosition LogStore.getLast ReplicatedLog.lastTerm
  cases s.entries.getLast? <;> rfl

/-- A successful append adds the entry, unless it is there already. -/
theorem append_spec
    {entry : RaftLogEntry}
    (h : s.append entry = .ok s') :
    (s' = s ∧ s.get entry.logIndex = some entry) ∨
      s'.entries = s.entries ++ [entry] ∧ entry.logIndex = s.entries.length + 1 := by
  unfold LogStore.append at h
  split at h
  case isTrue => cases h
  case isFalse =>
    split at h
    case h_1 existing hget =>
      split at h
      case isTrue heq =>
        cases h
        rw [← heq] at hget ⊢
        exact Or.inl ⟨rfl, hget⟩
      case isFalse => cases h
    case h_2 =>
      split at h
      case isTrue => cases h
      case isFalse =>
        split at h
        case h_1 => cases h
        case h_2 =>
          split at h
          case isTrue hindex =>
            cases h
            exact Or.inr ⟨rfl, hindex⟩
          case isFalse => cases h

/-- An appended command is the last entry and carries the term. -/
theorem appendCommand_spec
    {command : SerializedCommand} {term : Nat} {entry : RaftLogEntry}
    (h : appendCommand s command term = .ok (s', entry)) :
    s'.entries = s.entries ++ [entry] ∧ entry.term = term ∧ 0 < term := by
  unfold appendCommand at h
  split at h
  case isTrue => cases h
  case isFalse hterm =>
    split at h
    case h_1 => cases h
    case h_2 nextIndex hnext =>
      simp only at h
      split at h
      case h_1 => cases h
      case h_2 s₁ happend =>
        cases h
        have hindex : nextIndex = s.entries.length + 1 := by
          rw [checkedSucc_eq_some hnext, getLastPosition_logIndex]
        refine ⟨?_, rfl, by omega⟩
        rcases append_spec happend with ⟨-, hget⟩ | ⟨hentries, -⟩
        · simp only [hindex, get_succ, List.getElem?_length] at hget
          cases hget
        · exact hentries

/-- What the log checks of an appended command: it is identified, not empty, and
not in the log yet. -/
theorem appendCommand_accepted
    {command : SerializedCommand} {term : Nat} {entry : RaftLogEntry}
    (h : appendCommand s command term = .ok (s', entry)) :
    entry.commandId = command.commandId ∧ entry.commandType = command.commandType ∧
      entry.commandPayloadJson = command.payloadJson ∧ command.commandId ≠ 0 ∧
      isNullOrWhiteSpace command.commandType = false ∧
      isNullOrWhiteSpace command.payloadJson = false ∧
      (∀ e ∈ s.entries, e.commandId ≠ command.commandId) ∧ s.entries.length < maxLong := by
  have hentries := (appendCommand_spec h).1
  unfold appendCommand at h
  split at h
  case isTrue => cases h
  case isFalse =>
    split at h
    case h_1 => cases h
    case h_2 nextIndex hnext =>
      simp only at h
      split at h
      case h_1 => cases h
      case h_2 s₁ happend =>
        cases h
        unfold LogStore.append at happend
        split at happend
        case isTrue => cases happend
        case isFalse hvalid =>
          rw [Bool.not_eq_true', Bool.not_eq_false] at hvalid
          simp only [LogStore.validEntry, Bool.and_eq_true, decide_eq_true_eq,
            Bool.not_eq_true'] at hvalid
          split at happend
          case h_1 existing _ =>
            split at happend
            case isTrue =>
              -- The store would be unchanged, but it has grown.
              cases happend
              have hlength := congrArg List.length hentries
              simp at hlength
            case isFalse => cases happend
          case h_2 =>
            split at happend
            case isTrue => cases happend
            case isFalse hfresh =>
              refine ⟨rfl, rfl, rfl, hvalid.1.1.2, hvalid.1.2, hvalid.2, ?_, ?_⟩
              · simpa using hfresh
              · rw [getLastPosition_logIndex] at hnext
                unfold checkedSucc at hnext
                by_contra hlarge
                rw [if_neg hlarge] at hnext
                cases hnext

/-- A text that begins with another character is not blank. -/
theorem isNullOrWhiteSpace_ofList_cons
    {c : Char} {cs : List Char}
    (h : isWhiteSpace c = false) :
    isNullOrWhiteSpace (String.ofList (c :: cs)) = false := by
  simp [isNullOrWhiteSpace, h]

/-- An identified command that is not blank is appended, unless its identity is
taken or the log is full. -/
theorem exists_appendCommand
    {command : SerializedCommand} {term : Nat}
    (hterm : term ≠ 0)
    (hid : command.commandId ≠ 0)
    (htype : isNullOrWhiteSpace command.commandType = false)
    (hpayload : isNullOrWhiteSpace command.payloadJson = false)
    (hfresh : ∀ e ∈ s.entries, e.commandId ≠ command.commandId)
    (hlength : s.entries.length < maxLong) :
    ∃ s' entry, appendCommand s command term = .ok (s', entry) := by
  have hnext : checkedSucc s.entries.length = some (s.entries.length + 1) := if_pos hlength
  have hnew : s.entries.any (fun e => decide (e.commandId = command.commandId)) = false := by
    simpa using hfresh
  have hvalid : LogStore.validEntry ⟨s.entries.length + 1, term, command.commandId,
      command.commandType, command.payloadJson⟩ = true := by
    simpa [LogStore.validEntry, htype, hpayload, Nat.pos_of_ne_zero hterm] using hid
  have hfree : s.get (s.entries.length + 1) = none := by
    rw [get_succ, List.getElem?_length]
  unfold appendCommand LogStore.append
  rw [if_neg hterm, getLastPosition_logIndex, hnext]
  simp only [hvalid, hfree, hnew, Bool.not_true, Bool.false_eq_true, if_false, dif_pos]
  exact ⟨_, _, rfl⟩

/-- Once the own log is an initial part of the received one, the loop only adds
entries of the received log. -/
theorem appendLoop_extend
    {L : List RaftLogEntry} (committed : Nat)
    (hL : ∀ k e, L[k]? = some e → e.logIndex = k + 1)
    (rest : List RaftLogEntry) (s : LogStore)
    (hs : s.entries <+: L)
    (hrest : rest = L.drop s.entries.length) :
    (appendLoop committed s rest).1.entries <+: L ∧
      s.entries <+: (appendLoop committed s rest).1.entries ∧
      ((appendLoop committed s rest).2 = .ok true → L <+: (appendLoop committed s rest).1.entries) := by
  induction rest generalizing s with
  | nil =>
      refine ⟨hs, List.prefix_rfl, fun _ => ?_⟩
      have hlen : L.length ≤ s.entries.length := List.drop_eq_nil_iff.mp hrest.symm
      have heq : s.entries = L := hs.eq_of_length (le_antisymm hs.length_le hlen)
      rw [← heq]
      exact List.prefix_rfl
  | cons e rest ih =>
      have hget : L[s.entries.length]? = some e := by
        rw [← List.head?_drop, ← hrest]
        rfl
      have hindex := hL _ e hget
      have hnone : s.get e.logIndex = none := by
        rw [hindex, get_succ, List.getElem?_length]
      unfold appendLoop
      rw [hnone]
      simp only
      split
      case h_1 => exact ⟨hs, List.prefix_rfl, fun h => by cases h⟩
      case h_2 s₁ happend =>
        rcases append_spec happend with ⟨-, hsome⟩ | ⟨hentries, -⟩
        · rw [hnone] at hsome
          cases hsome
        · have hs₁ : s₁.entries <+: L := by
            rw [hentries]
            exact ReplicatedLog.isPrefix_concat_of_getElem? hs hget
          have hrest₁ : rest = L.drop s₁.entries.length := by
            rw [hentries, List.length_append, List.length_singleton, ← List.tail_drop, ← hrest]
            rfl
          obtain ⟨h₁, h₂, h₃⟩ := ih s₁ hs₁ hrest₁
          refine ⟨h₁, ?_, h₃⟩
          refine List.IsPrefix.trans ?_ h₂
          rw [hentries]
          exact List.prefix_append _ _

/-- Logs that differ at a position have no common initial part beyond it. -/
theorem isPrefix_take_of_ne
    {l a b : List RaftLogEntry} {k : Nat} {x y : RaftLogEntry}
    (ha : a[k]? = some x)
    (hb : b[k]? = some y)
    (hne : x ≠ y)
    (hla : l <+: a)
    (hlb : l <+: b) :
    l <+: a.take k := by
  have hlen : l.length ≤ k := by
    by_contra hlt
    push Not at hlt
    obtain ⟨t, rfl⟩ := hla
    obtain ⟨u, rfl⟩ := hlb
    rw [List.getElem?_append_left hlt] at ha hb
    rw [ha] at hb
    exact hne (Option.some.inj hb)
  exact List.prefix_take_iff.mpr ⟨hla, hlen⟩

theorem take_eq_of_isPrefix
    {l l' : List RaftLogEntry} {c : Nat}
    (h : l <+: l')
    (hc : c ≤ l.length) :
    l'.take c = l.take c := by
  obtain ⟨t, rfl⟩ := h
  exact List.take_append_of_le_length hc

/-- The own log is cut where it differs from the received one; then entries of
the received log are added. -/
theorem appendLoop_conflict
    {committed k : Nat} {L rest : List RaftLogEntry} {x e : RaftLogEntry}
    (hL : ∀ k e, L[k]? = some e → e.logIndex = k + 1)
    (hagree : s.entries.take k = L.take k)
    (hx : s.entries[k]? = some x)
    (he : L[k]? = some e)
    (hne : x ≠ e)
    (hrest : e :: rest = L.drop k)
    (hfree : ¬ e.logIndex ≤ committed) :
    (appendLoop committed s (e :: rest)).1.entries <+: L ∧
      s.entries.take k <+: (appendLoop committed s (e :: rest)).1.entries ∧
      ((appendLoop committed s (e :: rest)).2 = .ok true →
        L <+: (appendLoop committed s (e :: rest)).1.entries) := by
  have hindex := hL k e he
  have hk : k < s.entries.length := (List.getElem?_eq_some_iff.mp hx).1
  have hcut : (s.deleteFrom e.logIndex).entries = s.entries.take k := by
    rw [hindex]
    rfl
  have hlen : (s.deleteFrom e.logIndex).entries.length = k := by
    rw [hcut, List.length_take]
    omega
  have hcutL : (s.deleteFrom e.logIndex).entries <+: L := by
    rw [hcut, hagree]
    exact List.take_prefix _ _
  unfold appendLoop
  rw [hindex, get_succ, hx]
  simp only
  rw [if_neg hne, if_neg (by omega), ← hindex]
  split
  case h_1 =>
    refine ⟨hcutL, ?_, fun h => by cases h⟩
    rw [hcut]
  case h_2 s₁ happend =>
    rcases append_spec happend with ⟨-, hsome⟩ | ⟨hentries, -⟩
    · rw [hindex, get_succ, ← hindex, List.getElem?_eq_none hlen.le] at hsome
      cases hsome
    · have hs₁ : s₁.entries <+: L := by
        rw [hentries]
        exact ReplicatedLog.isPrefix_concat_of_getElem? hcutL (by rw [hlen]; exact he)
      have hrest₁ : rest = L.drop s₁.entries.length := by
        rw [hentries, List.length_append, hlen, List.length_singleton, ← List.tail_drop, ← hrest]
        rfl
      obtain ⟨h₁, h₂, h₃⟩ := appendLoop_extend committed hL rest s₁ hs₁ hrest₁
      refine ⟨h₁, ?_, h₃⟩
      rw [← hcut]
      refine List.IsPrefix.trans ?_ h₂
      rw [hentries]
      exact List.prefix_append _ _

/-- The outcome of receiving the log `L`: the own log is merged with it, contains
it if the outcome is positive, and keeps its committed part. -/
structure Received (L : List RaftLogEntry) (committed : Nat) (s : LogStore)
    (outcome : LogStore × Except LogError Bool) : Prop where
  merged : ReplicatedLog.Merged s.entries L outcome.1.entries
  matched : outcome.2 = .ok true → L <+: outcome.1.entries
  kept : ∀ c, c ≤ committed → c ≤ s.entries.length →
    outcome.1.entries.take c = s.entries.take c

theorem Received.rejected
    {L : List RaftLogEntry} {committed : Nat} {result : Except LogError Bool}
    (h : result ≠ .ok true) :
    Received L committed s (s, result) :=
  ⟨Or.inl rfl, fun hr => absurd hr h, fun _ _ _ => rfl⟩

/-- The effect of the loop on a log that agrees with the sender's log up to the
first received entry. -/
theorem appendLoop_spec
    {committed : Nat} {L : List RaftLogEntry}
    (hL : ∀ k e, L[k]? = some e → e.logIndex = k + 1)
    (rest : List RaftLogEntry) (k : Nat)
    (hk : k ≤ s.entries.length)
    (hkL : k ≤ L.length)
    (hagree : s.entries.take k = L.take k)
    (hrest : rest = L.drop k) :
    Received L committed s (appendLoop committed s rest) := by
  induction rest generalizing k with
  | nil =>
      refine ⟨Or.inl rfl, fun _ => ?_, fun _ _ _ => rfl⟩
      have hlen : L.length ≤ k := List.drop_eq_nil_iff.mp hrest.symm
      rw [← List.take_of_length_le hlen, ← hagree]
      exact List.take_prefix _ _
  | cons e rest ih =>
      have he : L[k]? = some e := by
        rw [← List.head?_drop, ← hrest]
        rfl
      have hkL' : k < L.length := (List.getElem?_eq_some_iff.mp he).1
      have hindex := hL k e he
      cases hx : s.entries[k]? with
      | none =>
          have hlen : s.entries.length = k := le_antisymm (List.getElem?_eq_none_iff.mp hx) hk
          have hs : s.entries <+: L := by
            rw [← List.take_of_length_le hlen.le, hagree]
            exact List.take_prefix _ _
          obtain ⟨h₁, h₂, h₃⟩ := appendLoop_extend committed hL (e :: rest) s hs
            (by rw [hlen]; exact hrest)
          refine ⟨Or.inr ⟨fun hpre => ?_, h₁, fun l hl _ => hl.trans h₂⟩, h₃,
            fun c _ hc => take_eq_of_isPrefix h₂ hc⟩
          have := hpre.length_le
          omega
      | some x =>
          by_cases hxe : x = e
          · subst hxe
            have hskip : appendLoop committed s (x :: rest) = appendLoop committed s rest := by
              rw [appendLoop, hindex, get_succ, hx]
              simp
            rw [hskip]
            refine ih (k + 1) (List.getElem?_eq_some_iff.mp hx).1 hkL' ?_ ?_
            · rw [List.take_add_one, List.take_add_one, hagree, hx, he]
            · rw [← List.tail_drop, ← hrest]
              rfl
          · by_cases hfree : e.logIndex ≤ committed
            · have hstop : appendLoop committed s (e :: rest) = (s, .ok false) := by
                rw [appendLoop, hindex, get_succ, hx]
                simp only
                rw [if_neg hxe, if_pos (by omega)]
              rw [hstop]
              exact Received.rejected (by simp)
            · obtain ⟨h₁, h₂, h₃⟩ := appendLoop_conflict hL hagree hx he hxe hrest hfree
              refine ⟨Or.inr ⟨fun hpre => ?_, h₁, fun l hl hlL => ?_⟩, h₃, fun c hc _ => ?_⟩
              · -- The received log is not part of the own one: they differ here.
                have hpre' := isPrefix_take_of_ne hx he hxe hpre List.prefix_rfl
                have := hpre'.length_le
                rw [List.length_take] at this
                omega
              · exact (isPrefix_take_of_ne hx he hxe hl hlL).trans h₂
              · have hck : c ≤ k := by omega
                rw [take_eq_of_isPrefix h₂ (by rw [List.length_take]; omega), List.take_take,
                  min_eq_left hck]

/-- The effect of receiving entries that describe the sender's log `L`. -/
theorem tryAppendEntries_spec
    {prevLogIndex prevLogTerm committed : Nat} {L : List RaftLogEntry}
    (hL : ∀ k e, L[k]? = some e → e.logIndex = k + 1)
    (hprev : prevLogIndex ≤ L.length)
    (hagree : ∀ p, s.get prevLogIndex = some p → p.term = prevLogTerm →
      s.entries.take prevLogIndex = L.take prevLogIndex) :
    Received L committed s
      (tryAppendEntries s prevLogIndex prevLogTerm (L.drop prevLogIndex) committed) := by
  unfold tryAppendEntries
  split
  case h_1 => exact Received.rejected (by simp)
  case h_2 =>
    split
    case isTrue hzero =>
      split
      case isTrue => exact Received.rejected (by simp)
      case isFalse =>
        subst hzero
        exact appendLoop_spec hL _ 0 (Nat.zero_le _) (Nat.zero_le _) (by simp) rfl
    case isFalse hpos =>
      split
      case h_1 => exact Received.rejected (by simp)
      case h_2 p hget =>
        split
        case isTrue => exact Received.rejected (by simp)
        case isFalse hterm =>
          push Not at hterm
          have hlen : prevLogIndex ≤ s.entries.length := by
            obtain ⟨k, rfl⟩ := Nat.exists_eq_succ_of_ne_zero hpos
            rw [get_succ] at hget
            exact (List.getElem?_eq_some_iff.mp hget).1
          exact appendLoop_spec hL _ prevLogIndex hlen hprev (hagree p hget hterm) rfl

end Specs

end Raft
end DistributedConsensus
