import DistributedConsensus.Coordinator.Applier
import DistributedConsensus.Coordinator.Controllers

/-!
# Coordinator: logs that keep one experiment per worker

Tables that are filled from the same entries agree on the lifecycles and on the
applied commands, whatever keys were generated and whatever progress was
reported in between (`Applied.agree`).  So it is a property of a log that none
of its prefixes leads to tables in which two experiments run on one worker.
An entry that does not assign an experiment keeps this property, and so does an
assignment to a worker that has no experiment after the entries before it
(`KeepsOnePerWorker.append`).
-/

namespace DistributedConsensus
namespace Coordinator

open Foundations
open Raft (Guid RaftLogEntry SerializedCommand)

/-! ## Definitions -/

/-- No two running experiments have the same worker. -/
def OnePerWorker (db : Database) : Prop :=
  ∀ id id' row row', db.experiments.get? id = some row → db.experiments.get? id' = some row' →
    row.status = .running → row'.status = .running →
    row.assignedWorkerId = row'.assignedWorkerId → id = id'

/-- The worker that a command assigns an experiment to. -/
def CoordinatorCommand.assignedWorker : CoordinatorCommand → Option String
  | .assignExperiment c => some c.workerId
  | _ => none

/-- The worker that an entry assigns an experiment to. -/
def assignedWorker (json : JsonSerializer) (entry : RaftLogEntry) : Option String :=
  match deserializeCommand json entry with
  | .error _ => none
  | .ok command => command.assignedWorker

/-- Tables that cannot be told apart by the lifecycles and the applied commands. -/
structure Agree (db db' : Database) : Prop where
  lifecycle : db'.lifecycle = db.lifecycle
  applied : db'.appliedCommands.keys = db.appliedCommands.keys

/-- The tables are those of the first entries of a log, each of them applied, up
to what `Agree` does not see. -/
inductive Applied (json : JsonSerializer) (log : List RaftLogEntry) : Nat → Database → Prop
  | start {db : Database} (hagree : Agree Database.empty db) : Applied json log 0 db
  | next {k : Nat} {before after db : Database} {entry : RaftLogEntry}
      {command : CoordinatorCommand} {generate : ValueGenerator} {r : CommandApplicationResult}
      (hbefore : Applied json log k before)
      (hentry : log[k]? = some entry)
      (hid : entry.commandId ≠ 0)
      (hcommand : deserializeCommand json entry = .ok command)
      (happly : before.apply generate command = .ok (after, r))
      (hagree : Agree after db) : Applied json log (k + 1) db

/-- Entries are identified, and no prefix of the log leads to tables in which a
worker has two experiments. -/
structure KeepsOnePerWorker (json : JsonSerializer) (log : List RaftLogEntry) : Prop where
  identified : ∀ e ∈ log, e.commandId ≠ 0
  one : ∀ k db, Applied json log k db → OnePerWorker db

/-! ## One command -/

section Commands

variable {json : JsonSerializer} {db db' : Database} {c : CoordinatorCommand}
  {entry : RaftLogEntry} {workerId : String}

theorem Agree.refl (db : Database) : Agree db db := ⟨rfl, rfl⟩

theorem Agree.symm
    (h : Agree db db') :
    Agree db' db :=
  ⟨h.lifecycle.symm, h.applied.symm⟩

theorem Agree.trans
    {db'' : Database}
    (h : Agree db db')
    (h' : Agree db' db'') :
    Agree db db'' :=
  ⟨h'.lifecycle.trans h.lifecycle, h'.applied.trans h.applied⟩

theorem Agree.keyed
    (h : Agree db db')
    (hkeyed : db.experiments.get? 0 = none) :
    db'.experiments.get? 0 = none := by
  have hzero := congrFun h.lifecycle 0
  unfold Database.lifecycle at hzero
  rw [hkeyed, Option.map_none] at hzero
  exact Option.map_eq_none_iff.mp hzero

/-- Tables in which progress was reported agree with those before. -/
theorem agree_of_reportProgress
    {now : DateTimeOffset} {id : Guid} {request : ReportExperimentProgressRequest}
    {row : ExperimentEntity}
    (h : db.reportProgress now id request = .ok (db', row)) :
    Agree db db' := by
  obtain ⟨hlifecycle, happlied⟩ := reportProgress_ok h
  exact ⟨hlifecycle, by rw [happlied]⟩

theorem onePerWorker_iff :
    OnePerWorker db ↔ ∀ id id' l l', db.lifecycle id = some l → db.lifecycle id' = some l' →
      l.status = .running → l'.status = .running → l.worker = l'.worker → id = id' := by
  constructor
  · intro h id id' l l' hl hl' hrunning hrunning' hworker
    obtain ⟨row, hrow, rfl⟩ := lifecycle_eq_some_iff.mp hl
    obtain ⟨row', hrow', rfl⟩ := lifecycle_eq_some_iff.mp hl'
    exact h id id' row row' hrow hrow' hrunning hrunning' hworker
  · intro h id id' row row' hrow hrow' hrunning hrunning' hworker
    exact h id id' (lifecycleOf row) (lifecycleOf row') (lifecycle_eq_some_iff.mpr ⟨_, hrow, rfl⟩)
      (lifecycle_eq_some_iff.mpr ⟨_, hrow', rfl⟩) hrunning hrunning' hworker

theorem idle_iff :
    db.hasRunningExperiment workerId = false ↔
      ∀ id l, db.lifecycle id = some l → l.status = .running → l.worker ≠ some workerId := by
  rw [hasRunningExperiment_eq_false_iff]
  constructor
  · intro h id l hl hrunning hworker
    obtain ⟨row, hrow, rfl⟩ := lifecycle_eq_some_iff.mp hl
    have hno := h id row hrow
    rw [isRunningOn_iff.mpr ⟨hrunning, hworker⟩] at hno
    cases hno
  · intro h id row hrow
    by_contra hruns
    rw [Bool.not_eq_false, isRunningOn_iff] at hruns
    exact h id (lifecycleOf row) (lifecycle_eq_some_iff.mpr ⟨_, hrow, rfl⟩) hruns.1 hruns.2

/-- Only an assignment makes an experiment run. -/
theorem Lifecycle.next_running
    {l : Option Lifecycle} {l' : Lifecycle}
    (h : Lifecycle.next l c = some l')
    (hrunning : l'.status = .running) :
    (∃ workerId, c.assignedWorker = some workerId ∧ l'.worker = some workerId) ∨
      ∃ before, l = some before ∧ before.status = .running ∧ l'.worker = before.worker := by
  cases l with
  | none =>
      -- a new experiment is pending
      cases c with
      | createExperiment command =>
          simp only [Lifecycle.next] at h
          split at h
          case isTrue => cases h
          case isFalse =>
            cases h
            cases hrunning
      | _ => simp [Lifecycle.next] at h
  | some before =>
      cases c with
      | createExperiment command => cases h
      | assignExperiment command =>
          simp only [Lifecycle.next] at h
          split at h
          case isTrue =>
            cases h
            exact Or.inl ⟨command.workerId, rfl, rfl⟩
          case isFalse => cases h
      | completeExperiment command =>
          simp only [Lifecycle.next] at h
          split at h
          case isTrue hcond =>
            cases h
            exact Or.inr ⟨before, rfl, by rw [hcond], rfl⟩
          case isFalse => cases h
      | requestExperimentCancellation command =>
          cases hstatus : before.status with
          | running =>
              simp only [Lifecycle.next, hstatus, Option.some.injEq] at h
              subst h
              exact Or.inr ⟨before, rfl, hstatus, rfl⟩
          | pending =>
              simp only [Lifecycle.next, hstatus, Option.some.injEq] at h
              subst h
              cases hrunning
          | completed => simp [Lifecycle.next, hstatus] at h
          | failed => simp [Lifecycle.next, hstatus] at h
          | cancelled => simp [Lifecycle.next, hstatus] at h
      | requeueExperiment command =>
          simp only [Lifecycle.next] at h
          split at h
          case isTrue =>
            cases h
            simp only at hrunning
            split at hrunning <;> cases hrunning
          case isFalse => cases h
      | recoverExperimentOnStartup command =>
          simp only [Lifecycle.next] at h
          split at h
          case isTrue =>
            cases h
            cases hrunning
          case isFalse => cases h

/-- A command was applied before and changes nothing, or it moves its experiment
and is recorded. -/
theorem applied_or_moves
    {generate : ValueGenerator} {r : CommandApplicationResult}
    (hkeyed : db.experiments.get? 0 = none)
    (hid : c.commandId ≠ 0)
    (h : db.apply generate c = .ok (db', r)) :
    (c.commandId ∈ db.appliedCommands.keys ∧ db' = db) ∨
      c.commandId ∉ db.appliedCommands.keys ∧
        db'.appliedCommands.keys = db.appliedCommands.keys ++ [c.commandId] ∧
        ∃ l, Lifecycle.next (db.lifecycle c.experimentId) c = some l ∧
          db'.lifecycle = Function.update db.lifecycle c.experimentId (some l) := by
  rcases apply_cases hkeyed h with ⟨heq, -, record, row, hrecord, -⟩ | ⟨-, row, event, happlies⟩
  · left
    refine ⟨?_, heq⟩
    by_contra hnew
    rw [(Dict.get?_eq_none_iff _ _).mpr hnew] at hrecord
    cases hrecord
  · right
    have hnew := (Dict.get?_eq_none_iff _ _).mp happlies.fresh
    have hkey : keyOnAdd generate db.appliedCommands.keys c.commandId = c.commandId :=
      keyOnAdd_of_ne_zero hid
    refine ⟨hnew, ?_, lifecycleOf row, happlies.next, ?_⟩
    · rw [happlies.applied, hkey]
      exact Dict.keys_set_of_get?_eq_none happlies.fresh _
    · funext id
      rw [Function.update_apply]
      unfold Database.lifecycle
      rw [happlies.experiments]
      split <;> rfl

/-- A restored command has the identity of its entry. -/
theorem commandId_of_deserializeCommand
    (h : deserializeCommand json entry = .ok c) :
    c.commandId = entry.commandId := by
  unfold deserializeCommand at h
  split at h
  case h_1 => cases h
  case h_2 =>
    split at h
    case isTrue => cases h
    case isFalse hid =>
      cases h
      exact not_not.mp hid

theorem assignedWorker_eq
    (h : deserializeCommand json entry = .ok c) :
    assignedWorker json entry = c.assignedWorker := by
  unfold assignedWorker
  rw [h]

/-- What is restored from the entry of a command is the command. -/
theorem eq_of_deserializeCommand
    {command : CoordinatorCommand}
    (hjson : json.deserialize c.commandType (json.serialize c) = some c)
    (htype : entry.commandType = c.commandType)
    (hpayload : entry.commandPayloadJson = json.serialize c)
    (h : deserializeCommand json entry = .ok command) :
    command = c := by
  unfold deserializeCommand deserialize at h
  rw [htype, hpayload, hjson] at h
  split at h
  case h_1 => cases h
  case h_2 restored hrestored =>
    obtain ⟨-, hrestored⟩ := ok_of_check hrestored
    obtain ⟨-, hrestored⟩ := ok_of_check hrestored
    obtain ⟨-, hrestored⟩ := ok_of_check hrestored
    cases hrestored
    split at h
    case isTrue => cases h
    case isFalse =>
      cases h
      rfl

end Commands

/-! ## The tables of a log -/

section Logs

variable {json : JsonSerializer} {log log' : List RaftLogEntry} {db db' : Database} {k : Nat}
  {workerId : String}

theorem Applied.keyed
    (h : Applied json log k db) :
    db.experiments.get? 0 = none := by
  induction h with
  | start hagree => exact hagree.keyed rfl
  | next _ _ _ _ happly hagree ih => exact hagree.keyed (keyed_of_apply ih happly)

theorem Applied.length_le
    (h : Applied json log k db) :
    k ≤ log.length := by
  cases h with
  | start => exact Nat.zero_le _
  | next _ hentry => exact (List.getElem?_eq_some_iff.mp hentry).1

theorem Applied.of_agree
    (h : Applied json log k db)
    (hagree : Agree db db') :
    Applied json log k db' := by
  cases h with
  | start hstart => exact .start (hstart.trans hagree)
  | next hbefore hentry hid hcommand happly hafter =>
      exact .next hbefore hentry hid hcommand happly (hafter.trans hagree)

/-- The tables depend on the entries that were applied only. -/
theorem Applied.of_take
    (h : Applied json log k db)
    (htake : log'.take k = log.take k) :
    Applied json log' k db := by
  induction h with
  | start hagree => exact .start hagree
  | @next k before after db entry command generate r _ hentry hid hcommand happly hagree ih =>
      have hget : log'[k]? = log[k]? := by
        rw [← List.getElem?_take_of_lt (Nat.lt_succ_self k), htake,
          List.getElem?_take_of_lt (Nat.lt_succ_self k)]
      refine .next (ih ?_) (hget.trans hentry) hid hcommand happly hagree
      have hmin : min k (k + 1) = k := min_eq_left (Nat.le_succ k)
      rw [← hmin, ← List.take_take, htake, List.take_take, hmin]

/-- **Agreement.**  All tables of the same entries agree. -/
theorem Applied.agree
    (h : Applied json log k db)
    (h' : Applied json log k db') :
    Agree db db' := by
  induction h generalizing db' with
  | start hagree =>
      cases h' with
      | start hagree' => exact hagree.symm.trans hagree'
  | @next k before after db entry command generate r hbefore hentry hid hcommand happly hagree
      ih =>
      cases h' with
      | @next _ before' after' _ entry' command' generate' r' hbefore' hentry' hid' hcommand'
          happly' hagree' =>
          obtain rfl := Option.some.inj (hentry.symm.trans hentry')
          obtain rfl := Except.ok.inj (hcommand.symm.trans hcommand')
          have hsame := ih hbefore'
          rw [← commandId_of_deserializeCommand hcommand] at hid
          refine hagree.symm.trans (Agree.trans ?_ hagree')
          rcases applied_or_moves hbefore.keyed hid happly with
              ⟨hmem, heq⟩ | ⟨hnew, hkeys, l, hnext, hlife⟩ <;>
            rcases applied_or_moves hbefore'.keyed hid happly' with
              ⟨hmem', heq'⟩ | ⟨hnew', hkeys', l', hnext', hlife'⟩
          · rw [heq, heq']
            exact hsame
          · rw [hsame.applied] at hnew'
            exact absurd hmem hnew'
          · rw [hsame.applied] at hmem'
            exact absurd hmem' hnew
          · rw [hsame.lifecycle, hnext] at hnext'
            obtain rfl := Option.some.inj hnext'
            refine ⟨?_, ?_⟩
            · rw [hlife, hlife', hsame.lifecycle]
            · rw [hkeys, hkeys', hsame.applied]

/-- The next entry is applied. -/
theorem Applied.apply
    {entry : RaftLogEntry} {c : CoordinatorCommand} {generate : ValueGenerator}
    {r : CommandApplicationResult}
    (h : Applied json log k db)
    (hentry : log[k]? = some entry)
    (hid : entry.commandId ≠ 0)
    (hcommand : deserializeCommand json entry = .ok c)
    (happly : db.apply generate c = .ok (db', r)) :
    Applied json log (k + 1) db' :=
  .next h hentry hid hcommand happly (Agree.refl db')

/-- The last entry is applied again, which changes nothing. -/
theorem Applied.applyAgain
    {entry : RaftLogEntry} {c : CoordinatorCommand} {generate : ValueGenerator}
    {r : CommandApplicationResult}
    (h : Applied json log (k + 1) db)
    (hentry : log[k]? = some entry)
    (hcommand : deserializeCommand json entry = .ok c)
    (happly : db.apply generate c = .ok (db', r)) :
    db' = db := by
  have hkeyed := h.keyed
  cases h with
  | @next _ before after _ entry' command generate' r' hbefore hentry' hid hcommand' happly'
      hagree =>
      obtain rfl := Option.some.inj (hentry.symm.trans hentry')
      obtain rfl := Except.ok.inj (hcommand.symm.trans hcommand')
      rw [← commandId_of_deserializeCommand hcommand] at hid
      have hmem : c.commandId ∈ db.appliedCommands.keys := by
        rw [hagree.applied]
        rcases applied_or_moves hbefore.keyed hid happly' with ⟨hmem, rfl⟩ | ⟨-, hkeys, -⟩
        · exact hmem
        · rw [hkeys]
          exact List.mem_append_right _ (List.mem_singleton_self _)
      rcases applied_or_moves hkeyed hid happly with ⟨-, heq⟩ | ⟨hnew, -⟩
      · exact heq
      · exact absurd hmem hnew

/-! ## What an entry adds -/

/-- An entry that does not assign an experiment to a worker does not give it one. -/
theorem Applied.idle_next
    {entry : RaftLogEntry}
    (hentry : log[k]? = some entry)
    (hother : assignedWorker json entry ≠ some workerId)
    (h : Applied json log (k + 1) db')
    (hidle : ∀ db, Applied json log k db → db.hasRunningExperiment workerId = false) :
    db'.hasRunningExperiment workerId = false := by
  cases h with
  | @next _ before after _ entry' command generate r hbefore hentry' hid hcommand happly hagree =>
      obtain rfl := Option.some.inj (hentry.symm.trans hentry')
      have hbeforeIdle := hidle before hbefore
      rw [← commandId_of_deserializeCommand hcommand] at hid
      rw [assignedWorker_eq hcommand] at hother
      rw [idle_iff] at hbeforeIdle ⊢
      rw [hagree.lifecycle]
      rcases applied_or_moves hbefore.keyed hid happly with ⟨-, rfl⟩ | ⟨-, -, l, hnext, hlife⟩
      · exact hbeforeIdle
      · intro id l' hl' hrunning hworker
        rw [hlife, Function.update_apply] at hl'
        split at hl'
        case isFalse => exact hbeforeIdle id l' hl' hrunning hworker
        case isTrue =>
          obtain rfl := Option.some.inj hl'
          rcases Lifecycle.next_running hnext hrunning with
            ⟨w, hassigned, hw⟩ | ⟨l₀, hl₀, hrunning₀, hw⟩
          · rw [hassigned, ← hw, hworker] at hother
            exact hother rfl
          · exact hbeforeIdle _ l₀ hl₀ hrunning₀ (hw.symm.trans hworker)

/-- A worker stays idle along entries that assign nothing to it. -/
theorem Applied.idle_of_covered
    {n : Nat}
    (h : Applied json log k db)
    (hidle : db.hasRunningExperiment workerId = false)
    (hkn : k ≤ n)
    (hother : ∀ j entry, k ≤ j → log[j]? = some entry →
      assignedWorker json entry ≠ some workerId)
    (h' : Applied json log n db') :
    db'.hasRunningExperiment workerId = false := by
  induction n, hkn using Nat.le_induction generalizing db' with
  | base =>
      rw [idle_iff] at hidle ⊢
      rw [(h.agree h').lifecycle]
      exact hidle
  | succ n hkn ih =>
      have hlt : n < log.length := h'.length_le
      have hentry : log[n]? = some log[n] := List.getElem?_eq_getElem hlt
      exact Applied.idle_next hentry (hother n _ hkn hentry) h' (fun db hdb => ih hdb)

/-- An entry keeps one experiment per worker unless it assigns an experiment to a
worker that has one. -/
theorem OnePerWorker.next
    {entry : RaftLogEntry}
    (hentry : log[k]? = some entry)
    (hone : ∀ db, Applied json log k db → OnePerWorker db)
    (hidle : ∀ workerId, assignedWorker json entry = some workerId →
      ∀ db, Applied json log k db → db.hasRunningExperiment workerId = false)
    (h : Applied json log (k + 1) db') :
    OnePerWorker db' := by
  cases h with
  | @next _ before after _ entry' command generate r hbefore hentry' hid hcommand happly hagree =>
      obtain rfl := Option.some.inj (hentry.symm.trans hentry')
      have hbeforeOne := hone before hbefore
      rw [← commandId_of_deserializeCommand hcommand] at hid
      rw [assignedWorker_eq hcommand] at hidle
      rw [onePerWorker_iff] at hbeforeOne ⊢
      rw [hagree.lifecycle]
      rcases applied_or_moves hbefore.keyed hid happly with ⟨-, rfl⟩ | ⟨-, -, l, hnext, hlife⟩
      · exact hbeforeOne
      -- No other experiment runs on the worker of the experiment that has moved.
      have hother : ∀ id l', id ≠ command.experimentId → before.lifecycle id = some l' →
          l.status = .running → l'.status = .running → l'.worker ≠ l.worker := by
        intro id l' hne hl' hrunning hrunning' hworker
        rcases Lifecycle.next_running hnext hrunning with
          ⟨w, hassigned, hw⟩ | ⟨l₀, hl₀, hrunning₀, hw⟩
        · have hfree := idle_iff.mp (hidle w hassigned before hbefore)
          exact hfree id l' hl' hrunning' (hworker.trans hw)
        · exact hne (hbeforeOne _ _ _ _ hl' hl₀ hrunning' hrunning₀ (hworker.trans hw))
      intro id id' l₁ l₂ h₁ h₂ hrunning₁ hrunning₂ hworker
      rw [hlife, Function.update_apply] at h₁ h₂
      by_cases hid₁ : id = command.experimentId <;> by_cases hid₂ : id' = command.experimentId
      · exact hid₁.trans hid₂.symm
      · rw [if_pos hid₁] at h₁
        rw [if_neg hid₂] at h₂
        obtain rfl := Option.some.inj h₁
        exact absurd hworker.symm (hother id' l₂ hid₂ h₂ hrunning₁ hrunning₂)
      · rw [if_neg hid₁] at h₁
        rw [if_pos hid₂] at h₂
        obtain rfl := Option.some.inj h₂
        exact absurd hworker (hother id l₁ hid₁ h₁ hrunning₂ hrunning₁)
      · rw [if_neg hid₁] at h₁
        rw [if_neg hid₂] at h₂
        exact hbeforeOne id id' l₁ l₂ h₁ h₂ hrunning₁ hrunning₂ hworker

theorem keepsOnePerWorker_nil (json : JsonSerializer) : KeepsOnePerWorker json [] where
  identified e he := by cases he
  one k db h := by
    cases h with
    | start hagree =>
        rw [onePerWorker_iff, hagree.lifecycle]
        rintro id id' l l' ⟨⟩
    | next _ hentry => cases hentry

/-- Prefixes inherit the property. -/
theorem KeepsOnePerWorker.of_isPrefix
    (hpre : log <+: log')
    (h : KeepsOnePerWorker json log') :
    KeepsOnePerWorker json log where
  identified e he := h.identified e (hpre.subset he)
  one k db hdb := by
    refine h.one k db (hdb.of_take ?_)
    obtain ⟨rest, rfl⟩ := hpre
    exact List.take_append_of_le_length hdb.length_le

/-- A new entry keeps the property unless it assigns an experiment to a worker
that has one after the entries before it. -/
theorem KeepsOnePerWorker.append
    {entry : RaftLogEntry}
    (h : KeepsOnePerWorker json log)
    (hid : entry.commandId ≠ 0)
    (hidle : ∀ workerId, assignedWorker json entry = some workerId →
      ∀ db, Applied json log log.length db → db.hasRunningExperiment workerId = false) :
    KeepsOnePerWorker json (log ++ [entry]) where
  identified e he := by
    rcases List.mem_append.mp he with hold | hlast
    · exact h.identified e hold
    · rw [List.mem_singleton.mp hlast]
      exact hid
  one k db hdb := by
    have hold : ∀ j db, j ≤ log.length → Applied json (log ++ [entry]) j db →
        Applied json log j db := by
      intro j db hj hdb
      exact hdb.of_take (List.take_append_of_le_length hj).symm
    have hle := hdb.length_le
    rw [List.length_append, List.length_singleton] at hle
    rcases hle.lt_or_eq with hlt | rfl
    · exact h.one k db (hold k db (Nat.le_of_lt_succ hlt) hdb)
    · refine OnePerWorker.next (List.getElem?_concat_length) ?_ ?_ hdb
      · intro db hdb
        exact h.one _ db (hold _ db le_rfl hdb)
      · intro workerId hassigned db hdb
        exact hidle workerId hassigned db (hold _ db le_rfl hdb)

end Logs

end Coordinator
end DistributedConsensus
