import DistributedConsensus.Coordinator.Lifecycle
import DistributedConsensus.Coordinator.Raft.Node

/-!
# Coordinator: the state machine applier

Commands are serialized into the log when they are submitted; the applier reads
the committed entries in order, restores the commands and hands them to the
command processor.  It stops at the first command that the processor refuses
and starts again with the same command on the next call.

The library that writes and reads the payloads is a parameter.
-/

namespace DistributedConsensus
namespace Coordinator

open Foundations
open Raft (Guid LogStore LogError RaftLogEntry SerializedCommand RaftPersistentState
  RaftCommitState Node isNullOrWhiteSpace checkedSucc maxLong)

/-- Writing and reading of payloads. -/
structure JsonSerializer where
  serialize : CoordinatorCommand → String
  deserialize : String → String → Option CoordinatorCommand

/-- The command types that can be restored. -/
def commandTypes : List String :=
  ["CreateExperimentCommand", "AssignExperimentCommand", "CompleteExperimentCommand",
    "RequestExperimentCancellationCommand", "RequeueExperimentCommand",
    "RecoverExperimentOnStartupCommand"]

/-- The reasons for which the applier throws. -/
inductive ApplierError where
  | overflow
  | missingEntry (logIndex : Nat)
  | commandTypeRequired
  | payloadRequired
  | unsupportedType (commandType : String)
  | invalidPayload (commandType : String)
  | commandIdMismatch (logIndex : Nat)
  | notApplied (error : ApplyError)
  | notMarked (logIndex : Nat)

/-- The result of a call: how many entries were applied, and up to where. -/
structure RaftApplyResult where
  appliedCount : Nat
  lastApplied : Nat

/-- A node and the tables that its committed entries are applied to. -/
structure StateMachineApplier (ι : Type) where
  node : Node ι
  database : Database

section Definitions

variable (json : JsonSerializer)

/-- The serialized form of a command. -/
def serialize (command : CoordinatorCommand) : SerializedCommand :=
  ⟨command.commandId, command.commandType, json.serialize command⟩

/-- Append commands in given terms, one after the other. -/
def appendCommands : LogStore → List (CoordinatorCommand × Nat) → Except LogError LogStore
  | store, [] => .ok store
  | store, (command, term) :: rest =>
      match Raft.appendCommand store (serialize json command) term with
      | .error e => .error e
      | .ok (store, _) => appendCommands store rest

/-- Restore a command. -/
def deserialize (commandType payloadJson : String) : Except ApplierError CoordinatorCommand :=
  if isNullOrWhiteSpace commandType then .error .commandTypeRequired
  else if isNullOrWhiteSpace payloadJson then .error .payloadRequired
  else if commandType ∉ commandTypes then .error (.unsupportedType commandType)
  else
    match json.deserialize commandType payloadJson with
    | none => .error (.invalidPayload commandType)
    | some command => .ok command

/-- Restore the command of an entry. -/
def deserializeCommand (entry : RaftLogEntry) : Except ApplierError CoordinatorCommand :=
  match deserialize json entry.commandType entry.commandPayloadJson with
  | .error e => .error e
  | .ok command =>
      if command.commandId ≠ entry.commandId then .error (.commandIdMismatch entry.logIndex)
      else .ok command

namespace StateMachineApplier

variable {ι : Type} (generate : ValueGenerator)

/-- Apply the next entry.  A command that was applied stays applied when the
index cannot be marked. -/
def applyNext (s : StateMachineApplier ι) : StateMachineApplier ι × Option ApplierError :=
  match checkedSucc s.node.lastApplied with
  | none => (s, some .overflow)
  | some nextIndex =>
      match s.node.logStore.get nextIndex with
      | none => (s, some (.missingEntry nextIndex))
      | some entry =>
          match deserializeCommand json entry with
          | .error e => (s, some e)
          | .ok command =>
              match s.database.apply generate command with
              | .error e => (s, some (.notApplied e))
              | .ok (database, _) =>
                  match s.node.markApplied nextIndex with
                  | none => (⟨s.node, database⟩, some (.notMarked nextIndex))
                  | some node => (⟨node, database⟩, none)

/-- The loop of a call; it ends after as many passes as there are entries left. -/
def applyLoop : Nat → Nat → StateMachineApplier ι →
    StateMachineApplier ι × Except ApplierError RaftApplyResult
  | 0, appliedCount, s => (s, .ok ⟨appliedCount, s.node.lastApplied⟩)
  | passes + 1, appliedCount, s =>
      if s.node.lastApplied ≥ s.node.commitIndex then
        (s, .ok ⟨appliedCount, s.node.lastApplied⟩)
      else
        match s.applyNext json generate with
        | (s, some e) => (s, .error e)
        | (s, none) => applyLoop passes (appliedCount + 1) s

/-- Apply the committed entries. -/
def applyCommittedEntries (s : StateMachineApplier ι) :
    StateMachineApplier ι × Except ApplierError RaftApplyResult :=
  s.applyLoop json generate (s.node.commitIndex - s.node.lastApplied) 0

/-- The state after a number of calls. -/
def afterCalls : Nat → StateMachineApplier ι → StateMachineApplier ι
  | 0, s => s
  | calls + 1, s => afterCalls calls (s.applyCommittedEntries json generate).1

/-- A coordinator whose log and commit index are given, and that has not applied
anything yet. -/
def start (persistentState : RaftPersistentState ι) (store : LogStore) (commitIndex : Nat) :
    StateMachineApplier ι :=
  ⟨Raft.loadNode persistentState store ⟨commitIndex, 0⟩, Database.empty⟩

/-- A call ends without an exception and has applied all committed entries. -/
def Finishes (s : StateMachineApplier ι) : Prop :=
  ∃ result, (s.applyCommittedEntries json generate).2 = .ok result ∧
    result.lastApplied = s.node.commitIndex ∧
    (s.applyCommittedEntries json generate).1.node.lastApplied = s.node.commitIndex

end StateMachineApplier

end Definitions

/-! ## The commands in the log -/

section Log

variable {json : JsonSerializer} {store store' : LogStore} {commands : List CoordinatorCommand}

/-- The log holds the commands: serialized, identified, and each of them once. -/
structure Holds (json : JsonSerializer) (store : LogStore)
    (commands : List CoordinatorCommand) : Prop where
  entries : store.entries.map (fun e =>
    SerializedCommand.mk e.commandId e.commandType e.commandPayloadJson) =
      commands.map (serialize json)
  identified : ∀ c ∈ commands, c.commandId ≠ 0 ∧ isNullOrWhiteSpace c.commandType = false ∧
    isNullOrWhiteSpace (json.serialize c) = false
  nodup : (commands.map CoordinatorCommand.commandId).Nodup
  length_le : store.entries.length ≤ maxLong

theorem holds_empty : Holds json LogStore.empty [] :=
  ⟨rfl, by simp, by simp, Nat.zero_le _⟩

theorem Holds.append
    {c : CoordinatorCommand} {term : Nat} {entry : RaftLogEntry}
    (h : Holds json store commands)
    (happend : Raft.appendCommand store (serialize json c) term = .ok (store', entry)) :
    Holds json store' (commands ++ [c]) := by
  have hentries := (Raft.appendCommand_spec happend).1
  obtain ⟨hid, htype, hpayload, hne, htype', hpayload', hfresh, hlength⟩ :=
    Raft.appendCommand_accepted happend
  refine ⟨?_, ?_, ?_, ?_⟩
  · rw [hentries, List.map_append, List.map_append, h.entries, List.map_singleton,
      List.map_singleton, hid, htype, hpayload]
  · intro c' hc'
    rcases List.mem_append.mp hc' with hold | hlast
    · exact h.identified c' hold
    · rw [List.mem_singleton.mp hlast]
      exact ⟨hne, htype', hpayload'⟩
  · rw [List.map_append, List.map_singleton, List.nodup_append]
    refine ⟨h.nodup, List.nodup_singleton _, ?_⟩
    rintro id hmem id' hlast rfl
    rw [List.mem_singleton] at hlast
    obtain ⟨c', hc', hid'⟩ := List.mem_map.mp hmem
    -- The earlier command would be an entry with the same identity.
    have hser : serialize json c' ∈ store.entries.map (fun e =>
        SerializedCommand.mk e.commandId e.commandType e.commandPayloadJson) := by
      rw [h.entries]
      exact List.mem_map_of_mem hc'
    obtain ⟨e, he, heq⟩ := List.mem_map.mp hser
    refine hfresh e he ?_
    have heid := congrArg SerializedCommand.commandId heq
    exact heid.trans (hid'.trans hlast)
  · rw [hentries, List.length_append, List.length_singleton]
    omega

/-- What is accepted into an empty log is held by it. -/
theorem holds_of_appendCommands
    {submissions : List (CoordinatorCommand × Nat)}
    (h : Holds json store commands)
    (hok : appendCommands json store submissions = .ok store') :
    Holds json store' (commands ++ submissions.map Prod.fst) := by
  induction submissions generalizing store commands with
  | nil =>
      cases hok
      simpa using h
  | cons submission rest ih =>
      obtain ⟨c, term⟩ := submission
      simp only [appendCommands] at hok
      split at hok
      case h_1 => cases hok
      case h_2 store₁ entry happend =>
        have hrest := ih (h.append happend) hok
        simpa using hrest

/-- Commands with new identities that are not blank are accepted one after the
other, as long as the log is not full. -/
theorem exists_appendCommands
    {submissions : List (CoordinatorCommand × Nat)}
    (h : Holds json store commands)
    (hterms : ∀ submission ∈ submissions, submission.2 ≠ 0)
    (hids : ((commands ++ submissions.map Prod.fst).map CoordinatorCommand.commandId).Nodup)
    (hidentified : ∀ c ∈ submissions.map Prod.fst, c.commandId ≠ 0 ∧
      isNullOrWhiteSpace c.commandType = false ∧ isNullOrWhiteSpace (json.serialize c) = false)
    (hlength : store.entries.length + submissions.length ≤ maxLong) :
    ∃ store', appendCommands json store submissions = .ok store' ∧
      store'.entries.length = store.entries.length + submissions.length := by
  induction submissions generalizing store commands with
  | nil => exact ⟨store, rfl, rfl⟩
  | cons submission rest ih =>
      obtain ⟨c, term⟩ := submission
      rw [List.length_cons] at hlength
      obtain ⟨hid, htype, hpayload⟩ := hidentified c (List.mem_cons_self ..)
      have hfresh : ∀ e ∈ store.entries, e.commandId ≠ (serialize json c).commandId := by
        intro e he heq
        have hmem : (⟨e.commandId, e.commandType, e.commandPayloadJson⟩ : SerializedCommand) ∈
            commands.map (serialize json) := by
          rw [← h.entries]
          exact List.mem_map_of_mem he
        obtain ⟨c', hc', hser⟩ := List.mem_map.mp hmem
        have hsame : c'.commandId = c.commandId :=
          (congrArg SerializedCommand.commandId hser).trans heq
        rw [List.map_append, List.nodup_append] at hids
        exact hids.2.2 _ (List.mem_map_of_mem hc') _ (by simp) hsame
      obtain ⟨store₁, entry, happend⟩ := Raft.exists_appendCommand
        (hterms (c, term) (List.mem_cons_self ..)) hid htype hpayload hfresh
        (by omega : store.entries.length < maxLong)
      have hlength₁ : store₁.entries.length = store.entries.length + 1 := by
        rw [(Raft.appendCommand_spec happend).1, List.length_append, List.length_singleton]
      obtain ⟨store', hstore', hlength'⟩ := ih (h.append happend)
        (fun s hs => hterms s (List.mem_cons_of_mem _ hs)) (by simpa using hids)
        (fun c hc => hidentified c (List.mem_cons_of_mem _ hc)) (by omega)
      refine ⟨store', ?_, ?_⟩
      · simp only [appendCommands, happend]
        exact hstore'
      · rw [hlength', hlength₁, List.length_cons]
        omega

theorem commandType_mem_commandTypes (c : CoordinatorCommand) : c.commandType ∈ commandTypes := by
  cases c <;> simp [CoordinatorCommand.commandType, commandTypes]

/-- A command is restored from its entry. -/
theorem Holds.deserializeCommand
    {k : Nat} {c : CoordinatorCommand}
    (h : Holds json store commands)
    (hc : commands[k]? = some c)
    (hjson : json.deserialize c.commandType (json.serialize c) = some c) :
    ∃ entry, store.get (k + 1) = some entry ∧
      Coordinator.deserializeCommand json entry = .ok c := by
  have hget := congrArg (fun l => l[k]?) h.entries
  simp only [List.getElem?_map, hc, Option.map_some, Option.map_eq_some_iff] at hget
  obtain ⟨entry, hentry, heq⟩ := hget
  have hid : entry.commandId = c.commandId := congrArg SerializedCommand.commandId heq
  have htype : entry.commandType = c.commandType := congrArg SerializedCommand.commandType heq
  have hpayload : entry.commandPayloadJson = json.serialize c :=
    congrArg SerializedCommand.payloadJson heq
  obtain ⟨-, hblank, hblank'⟩ := h.identified c (List.mem_of_getElem? hc)
  refine ⟨entry, (Raft.get_succ store k).trans hentry, ?_⟩
  unfold Coordinator.deserializeCommand deserialize
  rw [htype, hpayload, hblank, hblank', hid, hjson]
  simp [commandType_mem_commandTypes]

end Log

/-! ## The progress of the applier -/

section Progress

variable {ι : Type} {json : JsonSerializer} {generate : ValueGenerator} {store : LogStore}
  {commands : List CoordinatorCommand} {committed : Nat}

/-- The applier has applied a number of the committed commands. -/
structure At (store : LogStore) (commands : List CoordinatorCommand) (committed k : Nat)
    (s : StateMachineApplier ι) (h : Lifecycles) : Prop where
  logStore : s.node.logStore = store
  commitIndex : s.node.commitIndex = committed
  commitState : s.node.commitState = ⟨committed, k⟩
  lastApplied : s.node.lastApplied = k
  le : k ≤ committed
  database : Reflects s.database h ((commands.take k).map CoordinatorCommand.commandId)

/-- The stores and the memory of the applier agree on what was applied. -/
structure Stands (store : LogStore) (committed k : Nat) (s : StateMachineApplier ι) : Prop where
  logStore : s.node.logStore = store
  commitIndex : s.node.commitIndex = committed
  commitState : s.node.commitState = ⟨committed, k⟩
  lastApplied : s.node.lastApplied = k
  le : k ≤ committed

theorem At.stands
    {s : StateMachineApplier ι} {h : Lifecycles} {k : Nat}
    (hs : At store commands committed k s h) :
    Stands store committed k s :=
  ⟨hs.logStore, hs.commitIndex, hs.commitState, hs.lastApplied, hs.le⟩

/-- An applied entry can be marked. -/
theorem Stands.markApplied
    {s : StateMachineApplier ι} {k : Nat}
    (hs : Stands store committed k s)
    (hk : k < committed)
    (hmax : committed ≤ maxLong) :
    s.node.markApplied (k + 1) = some { s.node with
      commitState := ⟨committed, k + 1⟩, lastApplied := k + 1 } := by
  unfold Node.markApplied
  rw [hs.lastApplied]
  have hsucc : checkedSucc k = some (k + 1) := by
    unfold checkedSucc
    rw [if_pos (by omega)]
  have hsave : s.node.commitState.save s.node.commitIndex (k + 1) =
      some ⟨committed, k + 1⟩ := by
    rw [hs.commitState, hs.commitIndex]
    unfold RaftCommitState.save
    simp only
    rw [if_neg (by omega), if_neg (by omega), if_neg (by omega)]
  rw [hsucc]
  simp only [ne_eq, not_true_eq_false, if_false, gt_iff_lt]
  rw [if_neg (by rw [hs.commitIndex]; omega), hsave]

/-- The index and the entry of the next command. -/
theorem Stands.nextEntry
    {s : StateMachineApplier ι} {k : Nat} {c : CoordinatorCommand}
    (hholds : Holds json store commands)
    (hs : Stands store committed k s)
    (hk : k < committed)
    (hmax : committed ≤ maxLong)
    (hc : commands[k]? = some c)
    (hjson : json.deserialize c.commandType (json.serialize c) = some c) :
    checkedSucc s.node.lastApplied = some (k + 1) ∧
      ∃ entry, s.node.logStore.get (k + 1) = some entry ∧
        Coordinator.deserializeCommand json entry = .ok c := by
  constructor
  · rw [hs.lastApplied]
    unfold checkedSucc
    rw [if_pos (by omega)]
  · rw [hs.logStore]
    exact hholds.deserializeCommand hc hjson

/-- What a pass does with the next command. -/
theorem Stands.applyNext_eq
    {s : StateMachineApplier ι} {k : Nat} {c : CoordinatorCommand}
    (hholds : Holds json store commands)
    (hs : Stands store committed k s)
    (hk : k < committed)
    (hmax : committed ≤ maxLong)
    (hc : commands[k]? = some c)
    (hjson : json.deserialize c.commandType (json.serialize c) = some c) :
    s.applyNext json generate =
      match s.database.apply generate c with
      | .error e => (s, some (.notApplied e))
      | .ok (database, _) =>
          (⟨{ s.node with commitState := ⟨committed, k + 1⟩, lastApplied := k + 1 },
            database⟩, none) := by
  obtain ⟨hsucc, entry, hentry, hcommand⟩ := hs.nextEntry hholds hk hmax hc hjson
  unfold StateMachineApplier.applyNext
  rw [hsucc]
  simp only
  rw [hentry]
  simp only
  rw [hcommand]
  simp only
  rw [hs.markApplied hk hmax]

/-- A pass applies the next command exactly if the lifecycles admit it, and
changes nothing otherwise. -/
theorem At.applyNext
    {s : StateMachineApplier ι} {h : Lifecycles} {k : Nat} {c : CoordinatorCommand}
    (hholds : Holds json store commands)
    (hs : At store commands committed k s h)
    (hk : k < committed)
    (hmax : committed ≤ maxLong)
    (hc : commands[k]? = some c)
    (hjson : json.deserialize c.commandType (json.serialize c) = some c) :
    (∃ h' s', h.next generate c = some h' ∧ s.applyNext json generate = (s', none) ∧
      At store commands committed (k + 1) s' h') ∨
    h.next generate c = none ∧ ∃ e, s.applyNext json generate = (s, some e) := by
  obtain ⟨hid, -, -⟩ := hholds.identified c (List.mem_of_getElem? hc)
  have hklt : k < commands.length := (List.getElem?_eq_some_iff.mp hc).1
  have htake : (commands.take (k + 1)).map CoordinatorCommand.commandId =
      (commands.take k).map CoordinatorCommand.commandId ++ [c.commandId] := by
    rw [List.take_add_one, hc, List.map_append]
    rfl
  have hnew : c.commandId ∉ (commands.take k).map CoordinatorCommand.commandId := by
    have hnodup : ((commands.take (k + 1)).map CoordinatorCommand.commandId).Nodup :=
      hholds.nodup.sublist ((List.take_sublist _ _).map _)
    rw [htake, List.nodup_append] at hnodup
    intro hmem
    exact hnodup.2.2 _ hmem _ (List.mem_singleton.mpr rfl) rfl
  rw [hs.stands.applyNext_eq hholds hk hmax hc hjson]
  have hmatches := apply_matches generate hs.database hid hnew
  cases hnext : h.next generate c with
  | none =>
      rw [hnext] at hmatches
      obtain ⟨e, he⟩ := hmatches
      rw [he]
      exact Or.inr ⟨rfl, _, rfl⟩
  | some h' =>
      rw [hnext] at hmatches
      obtain ⟨db, r, he, hr⟩ := hmatches
      rw [he]
      refine Or.inl ⟨h', _, rfl, rfl, hs.logStore, hs.commitIndex, rfl, rfl, hk, ?_⟩
      rw [htake]
      exact hr

/-- The applier waits for a command that the lifecycles do not admit. -/
def Stuck (generate : ValueGenerator) (store : LogStore) (commands : List CoordinatorCommand)
    (committed : Nat) (s : StateMachineApplier ι) : Prop :=
  ∃ k h c, At store commands committed k s h ∧ k < committed ∧ commands[k]? = some c ∧
    h.next generate c = none

variable (generate) in
/-- The loop applies all remaining commands, or stops before the first one that
the lifecycles do not admit. -/
theorem At.applyLoop
    {s : StateMachineApplier ι} {h : Lifecycles} {k : Nat} (passes appliedCount : Nat)
    (hholds : Holds json store commands)
    (hjson : ∀ c ∈ commands, json.deserialize c.commandType (json.serialize c) = some c)
    (hcommitted : committed ≤ commands.length)
    (hmax : committed ≤ maxLong)
    (hs : At store commands committed k s h)
    (hpasses : passes = committed - k) :
    (((commands.take committed).drop k).foldlM (Lifecycles.next generate) h ≠ none ∧
      ∃ s' h' r, s.applyLoop json generate passes appliedCount = (s', .ok r) ∧
        At store commands committed committed s' h' ∧ r.lastApplied = committed) ∨
    (((commands.take committed).drop k).foldlM (Lifecycles.next generate) h = none ∧
      ∃ s' e, s.applyLoop json generate passes appliedCount = (s', .error e) ∧
        Stuck generate store commands committed s') := by
  induction passes generalizing k s h appliedCount with
  | zero =>
      have hk : k = committed := le_antisymm hs.le (by omega)
      subst hk
      left
      have hdone : (commands.take k).drop k = [] := by
        rw [List.drop_eq_nil_iff, List.length_take]
        omega
      rw [hdone]
      exact ⟨by simp, s, h, _, rfl, hs, hs.lastApplied⟩
  | succ passes ih =>
      have hk : k < committed := by omega
      have hklt : k < commands.length := by omega
      obtain ⟨c, hc⟩ : ∃ c, commands[k]? = some c := ⟨_, List.getElem?_eq_getElem hklt⟩
      have hdrop : (commands.take committed).drop k = c :: (commands.take committed).drop (k + 1) := by
        rw [List.drop_eq_getElem_cons (by rw [List.length_take]; omega), List.getElem_take]
        rw [List.getElem?_eq_getElem hklt] at hc
        rw [Option.some.inj hc]
      have hguard : ¬ s.node.lastApplied ≥ s.node.commitIndex := by
        rw [hs.lastApplied, hs.commitIndex]
        omega
      rw [hdrop, List.foldlM_cons]
      unfold StateMachineApplier.applyLoop
      rw [if_neg hguard]
      rcases hs.applyNext hholds hk hmax hc (hjson c (List.mem_of_getElem? hc)) with
        ⟨h', s', hnext, hpass, hs'⟩ | ⟨hnext, e, hpass⟩
      · rw [hnext, hpass]
        exact ih (appliedCount + 1) hs' (by omega)
      · rw [hnext, hpass]
        exact Or.inr ⟨rfl, s, e, rfl, k, h, c, hs, hk, hc, hnext⟩

/-- A call of a stuck applier fails and changes nothing. -/
theorem Stuck.applyCommittedEntries
    {s : StateMachineApplier ι}
    (hholds : Holds json store commands)
    (hjson : ∀ c ∈ commands, json.deserialize c.commandType (json.serialize c) = some c)
    (hmax : committed ≤ maxLong)
    (hs : Stuck generate store commands committed s) :
    (s.applyCommittedEntries json generate).1 = s := by
  obtain ⟨k, h, c, hat, hk, hc, hnext⟩ := hs
  have hpasses : s.node.commitIndex - s.node.lastApplied = committed - k - 1 + 1 := by
    rw [hat.commitIndex, hat.lastApplied]
    omega
  have hguard : ¬ s.node.lastApplied ≥ s.node.commitIndex := by
    rw [hat.lastApplied, hat.commitIndex]
    omega
  unfold StateMachineApplier.applyCommittedEntries
  rw [hpasses, StateMachineApplier.applyLoop, if_neg hguard]
  rcases hat.applyNext hholds hk hmax hc (hjson c (List.mem_of_getElem? hc)) with
    ⟨h', s', hsome, -, -⟩ | ⟨-, e, hpass⟩
  · rw [hnext] at hsome
    cases hsome
  · rw [hpass]

theorem Stuck.afterCalls
    {s : StateMachineApplier ι} (calls : Nat)
    (hholds : Holds json store commands)
    (hjson : ∀ c ∈ commands, json.deserialize c.commandType (json.serialize c) = some c)
    (hmax : committed ≤ maxLong)
    (hs : Stuck generate store commands committed s) :
    s.afterCalls json generate calls = s := by
  induction calls with
  | zero => rfl
  | succ calls ih =>
      rw [StateMachineApplier.afterCalls, hs.applyCommittedEntries hholds hjson hmax]
      exact ih

theorem at_start
    (persistentState : RaftPersistentState ι) (store : LogStore)
    (commands : List CoordinatorCommand) (committed : Nat) :
    At store commands committed 0 (StateMachineApplier.start persistentState store committed)
      Lifecycles.empty :=
  ⟨rfl, rfl, rfl, rfl, Nat.zero_le _, reflects_empty⟩

end Progress

section Start

variable {ι : Type} {json : JsonSerializer} {generate : ValueGenerator}
  {persistentState : RaftPersistentState ι} {submissions : List (CoordinatorCommand × Nat)}
  {store : LogStore} {commitIndex : Nat}

variable (generate persistentState) in
/-- The first call applies everything, or leaves a stuck applier. -/
theorem applyCommittedEntries_start
    (hjson : ∀ c ∈ submissions.map Prod.fst,
      json.deserialize c.commandType (json.serialize c) = some c)
    (hholds : Holds json store (submissions.map Prod.fst))
    (hcommit : commitIndex ≤ store.entries.length) :
    (Admissible generate ((submissions.map Prod.fst).take commitIndex) ∧
      ∃ s' h' r, (StateMachineApplier.start persistentState store commitIndex).applyCommittedEntries
          json generate = (s', .ok r) ∧
        At store (submissions.map Prod.fst) commitIndex commitIndex s' h' ∧
        r.lastApplied = commitIndex) ∨
    (¬ Admissible generate ((submissions.map Prod.fst).take commitIndex) ∧
      ∃ s' e, (StateMachineApplier.start persistentState store commitIndex).applyCommittedEntries
          json generate = (s', .error e) ∧
        Stuck generate store (submissions.map Prod.fst) commitIndex s') := by
  have hlength : store.entries.length = (submissions.map Prod.fst).length := by
    have hmap := congrArg List.length hholds.entries
    simpa using hmap
  have hadmissible : Admissible generate ((submissions.map Prod.fst).take commitIndex) ↔
      ((submissions.map Prod.fst).take commitIndex).foldlM (Lifecycles.next generate)
        Lifecycles.empty ≠ none := by
    unfold Admissible
    rw [Option.isSome_iff_ne_none]
  have hloop := (at_start persistentState store (submissions.map Prod.fst) commitIndex).applyLoop
    generate (commitIndex - 0) 0 hholds hjson (by omega) (hcommit.trans hholds.length_le) rfl
  rw [List.drop_zero] at hloop
  rw [hadmissible, not_not]
  exact hloop

/-- Commands that do not follow the lifecycles stop the applier for good. -/
theorem not_finishes_of_not_admissible
    (hjson : ∀ c ∈ submissions.map Prod.fst,
      json.deserialize c.commandType (json.serialize c) = some c)
    (hholds : Holds json store (submissions.map Prod.fst))
    (hcommit : commitIndex ≤ store.entries.length)
    (hnot : ¬ Admissible generate ((submissions.map Prod.fst).take commitIndex)) :
    ¬ (StateMachineApplier.start persistentState store commitIndex).Finishes json generate ∧
      ∀ calls, ((StateMachineApplier.start persistentState store commitIndex).afterCalls json
        generate calls).node.lastApplied < commitIndex := by
  rcases applyCommittedEntries_start generate persistentState hjson hholds hcommit with ⟨hyes, -⟩ | ⟨-, s', e, heq, hstuck⟩
  · exact absurd hyes hnot
  · obtain ⟨k, h, c, hat, hk, -, -⟩ := id hstuck
    constructor
    · rintro ⟨result, hok, -⟩
      rw [heq] at hok
      cases hok
    · intro calls
      cases calls with
      | zero =>
          have hpos : 0 < commitIndex := by omega
          exact hpos
      | succ calls =>
          rw [StateMachineApplier.afterCalls, heq,
            hstuck.afterCalls calls hholds hjson (hcommit.trans hholds.length_le), hat.lastApplied]
          exact hk

end Start

/-- The applier catches up with the commit index exactly if the committed commands
follow the lifecycles of their experiments; otherwise no number of calls helps. -/
theorem finishes_iff_admissible
    {ι : Type} (json : JsonSerializer) (generate : ValueGenerator)
    (persistentState : RaftPersistentState ι) (submissions : List (CoordinatorCommand × Nat))
    (store : LogStore) (commitIndex : Nat)
    (hjson : ∀ c ∈ submissions.map Prod.fst,
      json.deserialize c.commandType (json.serialize c) = some c)
    (haccepted : appendCommands json LogStore.empty submissions = .ok store)
    (hcommit : commitIndex ≤ store.entries.length) :
    ((StateMachineApplier.start persistentState store commitIndex).Finishes json generate ↔
      Admissible generate ((submissions.map Prod.fst).take commitIndex)) ∧
    (¬ Admissible generate ((submissions.map Prod.fst).take commitIndex) →
      ∀ calls, ((StateMachineApplier.start persistentState store commitIndex).afterCalls json
        generate calls).node.lastApplied < commitIndex) := by
  have hholds : Holds json store (submissions.map Prod.fst) :=
    holds_of_appendCommands holds_empty haccepted
  refine ⟨⟨fun hfinishes => ?_, fun hyes => ?_⟩, fun hnot => ?_⟩
  · by_contra hnot
    exact (not_finishes_of_not_admissible hjson hholds hcommit hnot).1 hfinishes
  · rcases applyCommittedEntries_start generate persistentState hjson hholds hcommit with
      ⟨-, s', h', r, heq, hs', hr⟩ | ⟨hnot, -⟩
    · refine ⟨r, congrArg Prod.snd heq, hr, ?_⟩
      exact (congrArg (fun p => p.1.node.lastApplied) heq).trans hs'.lastApplied
    · exact absurd hyes hnot
  · exact (not_finishes_of_not_admissible hjson hholds hcommit hnot).2

/-! ## An assignment that comes too late -/

/-- A serializer that is given by the payloads of some commands. -/
def tableJson (table : List (CoordinatorCommand × String)) : JsonSerializer where
  serialize c := ((table.find? (fun p => decide (p.1 = c))).map Prod.snd).getD "null"
  deserialize _ payload := (table.find? (fun p => decide (p.2 = payload))).map Prod.fst

/-- A generator that never has to generate a key in the runs below. -/
def constantGenerator : ValueGenerator := fun _ => ⟨1, Raft.guid_one_ne_zero⟩

def sampleCreate : CoordinatorCommand :=
  .createExperiment ⟨1, 0, 10, 101, "Sample", "qlearning", "gridworld", 1, 100, 0, 300, false⟩

/-- Two schedulers assign the same attempt of the experiment. -/
def sampleAssign (commandId eventId : Guid) (workerId : String) : CoordinatorCommand :=
  .assignExperiment ⟨commandId, 0, 10, eventId, workerId, 1⟩

def sampleSubmissions : List (CoordinatorCommand × Nat) :=
  [(sampleCreate, 1), (sampleAssign 2 102 "worker-1", 1), (sampleAssign 3 103 "worker-2", 2)]

def sampleJson : JsonSerializer :=
  tableJson [
    (sampleCreate,
      "\x7b\"experimentId\":\"00000000-0000-0000-0000-00000000000a\",\"eventId\":\"00000000-0000-0000-0000-000000000065\",\"name\":\"Sample\",\"algorithm\":\"qlearning\",\"environment\":\"gridworld\",\"seed\":1,\"maxSteps\":100,\"priority\":0,\"timeoutSeconds\":300,\"simulateFailure\":false,\"commandId\":\"00000000-0000-0000-0000-000000000001\",\"occurredAtUtc\":\"0001-01-01T00:00:00+00:00\"\x7d"),
    (sampleAssign 2 102 "worker-1",
      "\x7b\"experimentId\":\"00000000-0000-0000-0000-00000000000a\",\"eventId\":\"00000000-0000-0000-0000-000000000066\",\"workerId\":\"worker-1\",\"attempt\":1,\"commandId\":\"00000000-0000-0000-0000-000000000002\",\"occurredAtUtc\":\"0001-01-01T00:00:00+00:00\"\x7d"),
    (sampleAssign 3 103 "worker-2",
      "\x7b\"experimentId\":\"00000000-0000-0000-0000-00000000000a\",\"eventId\":\"00000000-0000-0000-0000-000000000067\",\"workerId\":\"worker-2\",\"attempt\":1,\"commandId\":\"00000000-0000-0000-0000-000000000003\",\"occurredAtUtc\":\"0001-01-01T00:00:00+00:00\"\x7d")]

/-- A table whose commands and payloads are different restores its commands. -/
theorem tableJson_restores
    {table : List (CoordinatorCommand × String)} {c : CoordinatorCommand} {payload : String}
    (hcommands : (table.map Prod.fst).Nodup)
    (hpayloads : (table.map Prod.snd).Nodup)
    (hmem : (c, payload) ∈ table) (commandType : String) :
    (tableJson table).serialize c = payload ∧
      (tableJson table).deserialize commandType payload = some c := by
  induction table with
  | nil => cases hmem
  | cons p table ih =>
      obtain ⟨c', payload'⟩ := p
      rw [List.map_cons, List.nodup_cons] at hcommands hpayloads
      rcases List.mem_cons.mp hmem with hfirst | hrest
      · cases hfirst
        simp [tableJson]
      · have hc : c' ≠ c := by
          rintro rfl
          exact hcommands.1 (List.mem_map.mpr ⟨_, hrest, rfl⟩)
        have hp : payload' ≠ payload := by
          rintro rfl
          exact hpayloads.1 (List.mem_map.mpr ⟨_, hrest, rfl⟩)
        obtain ⟨hser, hdes⟩ := ih hcommands.2 hpayloads.2 hrest
        simp only [tableJson] at hser hdes ⊢
        rw [List.find?_cons_of_neg (by simpa using hc), List.find?_cons_of_neg (by simpa using hp)]
        exact ⟨hser, hdes⟩

/-- Texts are compared character by character. -/
theorem ofList_ne_ofList
    {cs cs' : List Char}
    (h : cs ≠ cs') :
    String.ofList cs ≠ String.ofList cs' :=
  fun heq => h (String.ofList_injective heq)

set_option maxRecDepth 4000 in
/-- The sample payloads differ and are not blank. -/
theorem exists_sampleTable :
    ∃ table, sampleJson = tableJson table ∧
      table.map Prod.fst = sampleSubmissions.map Prod.fst ∧ (table.map Prod.snd).Nodup ∧
      ∀ p ∈ table, isNullOrWhiteSpace p.2 = false := by
  refine ⟨_, rfl, rfl, ?_, ?_⟩
  · simp only [List.map_cons, List.map_nil, List.nodup_cons, List.mem_cons, List.not_mem_nil,
      or_false, not_or, not_false_eq_true, and_true, List.nodup_nil]
    exact ⟨⟨ofList_ne_ofList (by decide), ofList_ne_ofList (by decide)⟩,
      ofList_ne_ofList (by decide)⟩
  · simp only [List.forall_mem_cons]
    exact ⟨Raft.isNullOrWhiteSpace_ofList_cons rfl, Raft.isNullOrWhiteSpace_ofList_cons rfl,
      Raft.isNullOrWhiteSpace_ofList_cons rfl, by simp⟩

theorem sampleCommands_nodup : (sampleSubmissions.map Prod.fst).Nodup := by
  decide

/-- The sample commands are restored, and their payloads are not blank. -/
theorem sampleJson_spec
    {c : CoordinatorCommand}
    (hc : c ∈ sampleSubmissions.map Prod.fst) :
    sampleJson.deserialize c.commandType (sampleJson.serialize c) = some c ∧
      isNullOrWhiteSpace (sampleJson.serialize c) = false := by
  obtain ⟨table, htable, hcommands, hpayloads, hblank⟩ := exists_sampleTable
  rw [← hcommands, List.mem_map] at hc
  obtain ⟨⟨c, payload⟩, hmem, rfl⟩ := hc
  have hnodup : (table.map Prod.fst).Nodup := by
    rw [hcommands]
    exact sampleCommands_nodup
  obtain ⟨hser, hdes⟩ := tableJson_restores hnodup hpayloads hmem c.commandType
  rw [htable, hser]
  exact ⟨hdes, hblank _ hmem⟩

theorem sampleJson_deserialize :
    ∀ c ∈ sampleSubmissions.map Prod.fst,
      sampleJson.deserialize c.commandType (sampleJson.serialize c) = some c :=
  fun _ hc => (sampleJson_spec hc).1

theorem exists_sampleStore :
    ∃ store, appendCommands sampleJson LogStore.empty sampleSubmissions = .ok store ∧
      3 ≤ store.entries.length := by
  have hterms : ∀ submission ∈ sampleSubmissions, submission.2 ≠ 0 := by decide
  have hids : ((sampleSubmissions.map Prod.fst).map CoordinatorCommand.commandId).Nodup := by
    decide
  have hidentified : ∀ c ∈ sampleSubmissions.map Prod.fst, c.commandId ≠ 0 ∧
      isNullOrWhiteSpace c.commandType = false := by
    decide +kernel
  have hempty : Holds sampleJson LogStore.empty [] := holds_empty
  obtain ⟨store, hstore, hlength⟩ := exists_appendCommands hempty hterms (by simpa using hids)
    (fun c hc => ⟨(hidentified c hc).1, (hidentified c hc).2, (sampleJson_spec hc).2⟩)
    (by decide)
  refine ⟨store, hstore, ?_⟩
  rw [hlength]
  decide

theorem finishes_iff_admissible_sample :
    ∃ store, appendCommands sampleJson LogStore.empty sampleSubmissions = .ok store ∧
      (StateMachineApplier.start (⟨0, none⟩ : RaftPersistentState (Fin 3)) store 2).Finishes
        sampleJson constantGenerator := by
  obtain ⟨store, hstore, hlength⟩ := exists_sampleStore
  refine ⟨store, hstore, ?_⟩
  refine (finishes_iff_admissible sampleJson constantGenerator ⟨0, none⟩ sampleSubmissions store 2
    sampleJson_deserialize hstore (by omega)).1.mpr ?_
  decide +kernel

/-- The second assignment is refused, now and on every later call. -/
theorem not_finishes_sample :
    ∃ store, appendCommands sampleJson LogStore.empty sampleSubmissions = .ok store ∧
      3 ≤ store.entries.length ∧
      ¬ (StateMachineApplier.start (⟨0, none⟩ : RaftPersistentState (Fin 3)) store 3).Finishes
        sampleJson constantGenerator ∧
      ∀ calls, ((StateMachineApplier.start (⟨0, none⟩ : RaftPersistentState (Fin 3)) store
        3).afterCalls sampleJson constantGenerator calls).node.lastApplied < 3 := by
  obtain ⟨store, hstore, hlength⟩ := exists_sampleStore
  have hholds := holds_of_appendCommands holds_empty hstore
  refine ⟨store, hstore, hlength, ?_⟩
  exact not_finishes_of_not_admissible sampleJson_deserialize hholds hlength (by decide +kernel)

end Coordinator
end DistributedConsensus
