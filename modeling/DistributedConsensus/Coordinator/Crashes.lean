import DistributedConsensus.Coordinator.Applier
import DistributedConsensus.Coordinator.Effects

/-!
# Coordinator: crashes of the applier

`Apply` and `MarkApplied` are two transactions.  A coordinator that crashes
between them restarts from its stores and applies the same entry again.  The
second application changes nothing, so the tables are those of applying every
entry once, wherever the crashes are: `tables_eq_applyAll`.
-/

namespace DistributedConsensus
namespace Coordinator

open Foundations
open Raft (Guid LogStore RaftPersistentState checkedSucc maxLong)

/-- Apply commands one after the other, each of them once. -/
def Database.applyAll (generate : ValueGenerator) :
    Database → List CoordinatorCommand → Except ApplyError Database
  | db, [] => .ok db
  | db, c :: rest =>
      match db.apply generate c with
      | .error e => .error e
      | .ok (db, _) => Database.applyAll generate db rest

/-- What becomes of a pass of the applier. -/
inductive Pass where
  /-- The entry is applied and marked. -/
  | completes
  /-- The coordinator crashes between `Apply` and `MarkApplied`. -/
  | crashesUnmarked
  /-- The coordinator crashes at another time. -/
  | crashes
deriving DecidableEq

namespace StateMachineApplier

variable {ι : Type} (json : JsonSerializer) (generate : ValueGenerator)

/-- A crash keeps the stores and the tables. -/
def restart (s : StateMachineApplier ι) : StateMachineApplier ι :=
  ⟨s.node.restart, s.database⟩

/-- Apply the next entry without marking it. -/
def applyUnmarked (s : StateMachineApplier ι) : StateMachineApplier ι :=
  match checkedSucc s.node.lastApplied with
  | none => s
  | some nextIndex =>
      match s.node.logStore.get nextIndex with
      | none => s
      | some entry =>
          match deserializeCommand json entry with
          | .error _ => s
          | .ok command =>
              match s.database.apply generate command with
              | .error _ => s
              | .ok (database, _) => ⟨s.node, database⟩

/-- One pass of the loop, or what a crash leaves of it. -/
def pass (s : StateMachineApplier ι) : Pass → StateMachineApplier ι
  | .completes =>
      if s.node.lastApplied ≥ s.node.commitIndex then s else (s.applyNext json generate).1
  | .crashesUnmarked =>
      if s.node.lastApplied ≥ s.node.commitIndex then s.restart
      else (s.applyUnmarked json generate).restart
  | .crashes => s.restart

/-- The state after a number of passes and crashes. -/
def afterPasses (s : StateMachineApplier ι) (passes : List Pass) : StateMachineApplier ι :=
  passes.foldl (pass json generate) s

end StateMachineApplier

/-! ## Prefixes of the log -/

section Prefixes

variable {generate : ValueGenerator} {db db' : Database} {commands rest : List CoordinatorCommand}

theorem applyAll_append :
    db.applyAll generate (commands ++ rest) =
      match db.applyAll generate commands with
      | .error e => .error e
      | .ok db => db.applyAll generate rest := by
  induction commands generalizing db with
  | nil => rfl
  | cons c commands ih =>
      simp only [List.cons_append, Database.applyAll]
      cases db.apply generate c with
      | error e => rfl
      | ok result => exact ih

/-- A prefix of commands that apply applies. -/
theorem applyAll_take
    {k : Nat}
    (h : db.applyAll generate commands = .ok db') :
    ∃ dbₖ, db.applyAll generate (commands.take k) = .ok dbₖ := by
  rw [← List.take_append_drop k commands, applyAll_append] at h
  split at h
  case h_1 => cases h
  case h_2 dbₖ hk => exact ⟨dbₖ, hk⟩

variable (generate db) in
/-- The next command of a prefix. -/
theorem applyAll_take_succ
    {k : Nat} {c : CoordinatorCommand}
    (hc : commands[k]? = some c) :
    db.applyAll generate (commands.take (k + 1)) =
      match db.applyAll generate (commands.take k) with
      | .error e => .error e
      | .ok dbₖ =>
          match dbₖ.apply generate c with
          | .error e => .error e
          | .ok (dbₖ, _) => .ok dbₖ := by
  rw [List.take_add_one, hc, Option.toList_some, applyAll_append]
  rfl

theorem keyed_of_applyAll
    (hkeyed : db.experiments.get? 0 = none)
    (h : db.applyAll generate commands = .ok db') :
    db'.experiments.get? 0 = none := by
  induction commands generalizing db with
  | nil =>
      cases h
      exact hkeyed
  | cons c rest ih =>
      simp only [Database.applyAll] at h
      split at h
      case h_1 => cases h
      case h_2 db₁ r happly => exact ih (keyed_of_apply hkeyed happly) h

end Prefixes

/-! ## The applier under crashes -/

section Crashes

variable {ι : Type} {json : JsonSerializer} {generate : ValueGenerator} {store : LogStore}
  {commands : List CoordinatorCommand} {committed : Nat} {final : Database}

/-- The tables are those of the marked entries, or of one entry more. -/
structure Resumes (generate : ValueGenerator) (store : LogStore)
    (commands : List CoordinatorCommand) (committed k : Nat) (s : StateMachineApplier ι) :
    Prop where
  stands : Stands store committed k s
  database : Database.empty.applyAll generate (commands.take k) = .ok s.database ∨
    k < committed ∧ Database.empty.applyAll generate (commands.take (k + 1)) = .ok s.database

/-- Whether the next entry was applied before or not, applying it now leaves the
tables of one entry more. -/
theorem Resumes.apply
    {s : StateMachineApplier ι} {k : Nat} {c : CoordinatorCommand}
    (hs : Resumes generate store commands committed k s)
    (hc : commands[k]? = some c)
    (hid : c.commandId ≠ 0)
    (hok : ∃ db, Database.empty.applyAll generate (commands.take (k + 1)) = .ok db) :
    ∃ db r, s.database.apply generate c = .ok (db, r) ∧
      Database.empty.applyAll generate (commands.take (k + 1)) = .ok db := by
  obtain ⟨db, hdb⟩ := hok
  have hstep := applyAll_take_succ generate Database.empty hc
  rw [hdb] at hstep
  obtain ⟨dbₖ, hdbₖ⟩ : ∃ dbₖ, Database.empty.applyAll generate (commands.take k) = .ok dbₖ := by
    cases htaken : Database.empty.applyAll generate (commands.take k) with
    | error e =>
        rw [htaken] at hstep
        cases hstep
    | ok dbₖ => exact ⟨dbₖ, rfl⟩
  simp only [hdbₖ] at hstep
  cases happly : dbₖ.apply generate c with
  | error e =>
      rw [happly] at hstep
      cases hstep
  | ok result =>
      obtain ⟨db₁, r⟩ := result
      rw [happly] at hstep
      obtain rfl := Except.ok.inj hstep
      rcases hs.database with hbefore | ⟨-, hafter⟩
      · obtain rfl := Except.ok.inj (hbefore.symm.trans hdbₖ)
        exact ⟨db, r, happly, hdb⟩
      · obtain rfl := Except.ok.inj (hafter.symm.trans hdb)
        have hkeyed : dbₖ.experiments.get? 0 = none := keyed_of_applyAll rfl hdbₖ
        obtain ⟨row, hagain⟩ := apply_idempotent hkeyed hid happly
        exact ⟨_, _, hagain, hdb⟩

/-- The next entry has been applied and marked. -/
theorem Resumes.applyNext
    {s : StateMachineApplier ι} {k : Nat} {c : CoordinatorCommand}
    (hholds : Holds json store commands)
    (hs : Resumes generate store commands committed k s)
    (hk : k < committed)
    (hmax : committed ≤ maxLong)
    (hc : commands[k]? = some c)
    (hjson : json.deserialize c.commandType (json.serialize c) = some c)
    (hok : ∃ db, Database.empty.applyAll generate (commands.take (k + 1)) = .ok db) :
    ∃ s', s.applyNext json generate = (s', none) ∧
      Resumes generate store commands committed (k + 1) s' := by
  obtain ⟨hid, -, -⟩ := hholds.identified c (List.mem_of_getElem? hc)
  obtain ⟨db, r, happly, hdb⟩ := hs.apply hc hid hok
  rw [hs.stands.applyNext_eq hholds hk hmax hc hjson, happly]
  exact ⟨_, rfl, ⟨hs.stands.logStore, hs.stands.commitIndex, rfl, rfl, hk⟩, Or.inl hdb⟩

/-- The next entry has been applied and is not marked. -/
theorem Resumes.applyUnmarked
    {s : StateMachineApplier ι} {k : Nat} {c : CoordinatorCommand}
    (hholds : Holds json store commands)
    (hs : Resumes generate store commands committed k s)
    (hk : k < committed)
    (hmax : committed ≤ maxLong)
    (hc : commands[k]? = some c)
    (hjson : json.deserialize c.commandType (json.serialize c) = some c)
    (hok : ∃ db, Database.empty.applyAll generate (commands.take (k + 1)) = .ok db) :
    Resumes generate store commands committed k (s.applyUnmarked json generate) := by
  obtain ⟨hid, -, -⟩ := hholds.identified c (List.mem_of_getElem? hc)
  obtain ⟨hsucc, entry, hentry, hcommand⟩ := hs.stands.nextEntry hholds hk hmax hc hjson
  obtain ⟨db, r, happly, hdb⟩ := hs.apply hc hid hok
  have hresult : s.applyUnmarked json generate = ⟨s.node, db⟩ := by
    simp only [StateMachineApplier.applyUnmarked, hsucc, hentry, hcommand, happly]
  rw [hresult]
  exact ⟨⟨hs.stands.logStore, hs.stands.commitIndex, hs.stands.commitState,
    hs.stands.lastApplied, hs.stands.le⟩, Or.inr ⟨hk, hdb⟩⟩

/-- A restart finds what was marked. -/
theorem Resumes.restart
    {s : StateMachineApplier ι} {k : Nat}
    (hs : Resumes generate store commands committed k s) :
    Resumes generate store commands committed k s.restart where
  stands :=
    { logStore := hs.stands.logStore
      commitIndex := congrArg (fun st => st.commitIndex) hs.stands.commitState
      commitState := hs.stands.commitState
      lastApplied := congrArg (fun st => st.lastApplied) hs.stands.commitState
      le := hs.stands.le }
  database := hs.database

/-- Every pass, completed or not, keeps the applier in step with the log. -/
theorem Resumes.pass
    {s : StateMachineApplier ι} {k : Nat} (p : Pass)
    (hholds : Holds json store commands)
    (hjson : ∀ c ∈ commands, json.deserialize c.commandType (json.serialize c) = some c)
    (hcommitted : committed ≤ commands.length)
    (hmax : committed ≤ maxLong)
    (hok : ∀ j ≤ committed, ∃ db, Database.empty.applyAll generate (commands.take j) = .ok db)
    (hs : Resumes generate store commands committed k s) :
    ∃ k', Resumes generate store commands committed k' (s.pass json generate p) := by
  have hguard : s.node.lastApplied ≥ s.node.commitIndex ↔ ¬ k < committed := by
    rw [hs.stands.lastApplied, hs.stands.commitIndex]
    omega
  have hnext : k < committed → ∃ c, commands[k]? = some c := by
    intro hk
    exact ⟨_, List.getElem?_eq_getElem (by omega : k < commands.length)⟩
  cases p with
  | completes =>
      unfold StateMachineApplier.pass
      by_cases hk : k < committed
      · rw [if_neg (by rw [hguard]; exact not_not.mpr hk)]
        obtain ⟨c, hc⟩ := hnext hk
        obtain ⟨s', hpass, hs'⟩ := hs.applyNext hholds hk hmax hc
          (hjson c (List.mem_of_getElem? hc)) (hok (k + 1) hk)
        rw [hpass]
        exact ⟨k + 1, hs'⟩
      · rw [if_pos (hguard.mpr hk)]
        exact ⟨k, hs⟩
  | crashesUnmarked =>
      simp only [StateMachineApplier.pass]
      by_cases hk : k < committed
      · rw [if_neg (by rw [hguard]; exact not_not.mpr hk)]
        obtain ⟨c, hc⟩ := hnext hk
        exact ⟨k, (hs.applyUnmarked hholds hk hmax hc (hjson c (List.mem_of_getElem? hc))
          (hok (k + 1) hk)).restart⟩
      · rw [if_pos (hguard.mpr hk)]
        exact ⟨k, hs.restart⟩
  | crashes => exact ⟨k, hs.restart⟩

theorem Resumes.afterPasses
    {s : StateMachineApplier ι} {k : Nat} (passes : List Pass)
    (hholds : Holds json store commands)
    (hjson : ∀ c ∈ commands, json.deserialize c.commandType (json.serialize c) = some c)
    (hcommitted : committed ≤ commands.length)
    (hmax : committed ≤ maxLong)
    (hok : ∀ j ≤ committed, ∃ db, Database.empty.applyAll generate (commands.take j) = .ok db)
    (hs : Resumes generate store commands committed k s) :
    ∃ k', Resumes generate store commands committed k' (s.afterPasses json generate passes) := by
  induction passes generalizing k s with
  | nil => exact ⟨k, hs⟩
  | cons p rest ih =>
      obtain ⟨k', hs'⟩ := hs.pass p hholds hjson hcommitted hmax hok
      exact ih hs'

/-- A call without a crash applies and marks what is left. -/
theorem Resumes.applyLoop
    {s : StateMachineApplier ι} {k : Nat} (passes appliedCount : Nat)
    (hholds : Holds json store commands)
    (hjson : ∀ c ∈ commands, json.deserialize c.commandType (json.serialize c) = some c)
    (hcommitted : committed ≤ commands.length)
    (hmax : committed ≤ maxLong)
    (hok : ∀ j ≤ committed, ∃ db, Database.empty.applyAll generate (commands.take j) = .ok db)
    (hs : Resumes generate store commands committed k s)
    (hpasses : passes = committed - k) :
    ∃ s' r, s.applyLoop json generate passes appliedCount = (s', .ok r) ∧
      r.lastApplied = committed ∧ Resumes generate store commands committed committed s' := by
  induction passes generalizing k s appliedCount with
  | zero =>
      have hk : k = committed := le_antisymm hs.stands.le (by omega)
      subst hk
      exact ⟨s, _, rfl, hs.stands.lastApplied, hs⟩
  | succ passes ih =>
      have hk : k < committed := by omega
      have hguard : ¬ s.node.lastApplied ≥ s.node.commitIndex := by
        rw [hs.stands.lastApplied, hs.stands.commitIndex]
        omega
      have hc : commands[k]? = some (commands.get ⟨k, by omega⟩) :=
        List.getElem?_eq_getElem (by omega : k < commands.length)
      obtain ⟨s', hpass, hs'⟩ := hs.applyNext hholds hk hmax hc
        (hjson _ (List.mem_of_getElem? hc)) (hok (k + 1) hk)
      unfold StateMachineApplier.applyLoop
      rw [if_neg hguard, hpass]
      exact ih (appliedCount + 1) hs' (by omega)

/-- When everything is marked, every entry has been applied once. -/
theorem Resumes.database_eq
    {s : StateMachineApplier ι}
    (hs : Resumes generate store commands committed committed s)
    (hfinal : Database.empty.applyAll generate (commands.take committed) = .ok final) :
    s.database = final := by
  rcases hs.database with hdone | ⟨hlt, -⟩
  · exact Except.ok.inj (hdone.symm.trans hfinal)
  · omega

end Crashes

/-- **Exactly-once application.**  Wherever the coordinator crashes, the next call
that is not interrupted applies and marks all committed entries, and whenever
they are all marked, the tables are those of applying every entry once. -/
theorem tables_eq_applyAll
    {ι : Type} (json : JsonSerializer) (generate : ValueGenerator)
    (persistentState : RaftPersistentState ι) (store : LogStore)
    (commands : List CoordinatorCommand) (commitIndex : Nat) (final : Database)
    (hholds : Holds json store commands)
    (hjson : ∀ c ∈ commands, json.deserialize c.commandType (json.serialize c) = some c)
    (hcommit : commitIndex ≤ store.entries.length)
    (hfinal : Database.empty.applyAll generate (commands.take commitIndex) = .ok final)
    (passes : List Pass) :
    let s := (StateMachineApplier.start persistentState store commitIndex).afterPasses json
      generate passes
    (s.node.lastApplied = commitIndex → s.database = final) ∧
      ∃ s' r, s.applyCommittedEntries json generate = (s', .ok r) ∧
        r.lastApplied = commitIndex ∧ s'.node.lastApplied = commitIndex ∧
        s'.database = final := by
  have hlength : store.entries.length = commands.length := by
    have hmap := congrArg List.length hholds.entries
    simpa using hmap
  have hcommitted : commitIndex ≤ commands.length := by omega
  have hmax : commitIndex ≤ maxLong := hcommit.trans hholds.length_le
  have hok : ∀ j ≤ commitIndex, ∃ db,
      Database.empty.applyAll generate (commands.take j) = .ok db := by
    intro j hj
    obtain ⟨db, hdb⟩ := applyAll_take (k := j) hfinal
    rw [List.take_take, min_eq_left hj] at hdb
    exact ⟨db, hdb⟩
  have hstart : Resumes generate store commands commitIndex 0
      (StateMachineApplier.start persistentState store commitIndex) :=
    ⟨⟨rfl, rfl, rfl, rfl, Nat.zero_le _⟩, Or.inl rfl⟩
  obtain ⟨k, hs⟩ := hstart.afterPasses passes hholds hjson hcommitted hmax hok
  refine ⟨?_, ?_⟩
  · intro hdone
    have hk : k = commitIndex := hs.stands.lastApplied.symm.trans hdone
    rw [hk] at hs
    exact hs.database_eq hfinal
  · obtain ⟨s', r, hloop, hr, hs'⟩ := hs.applyLoop (commitIndex - k) 0 hholds hjson hcommitted
      hmax hok rfl
    refine ⟨s', r, ?_, hr, hs'.stands.lastApplied, hs'.database_eq hfinal⟩
    unfold StateMachineApplier.applyCommittedEntries
    rw [hs.stands.commitIndex, hs.stands.lastApplied]
    exact hloop

/-- An entry is applied three times and marked once. -/
def samplePasses : List Pass :=
  [.crashesUnmarked, .crashesUnmarked, .completes, .crashes, .crashesUnmarked]

theorem tables_eq_applyAll_sample :
    ∃ store final, appendCommands sampleJson LogStore.empty sampleSubmissions = .ok store ∧
      Database.empty.applyAll constantGenerator ((sampleSubmissions.map Prod.fst).take 2) =
        .ok final ∧
      ∃ s' r, ((StateMachineApplier.start (⟨0, none⟩ : RaftPersistentState (Fin 3)) store
          2).afterPasses sampleJson constantGenerator samplePasses).applyCommittedEntries
            sampleJson constantGenerator = (s', .ok r) ∧
        r.lastApplied = 2 ∧ s'.node.lastApplied = 2 ∧ s'.database = final := by
  obtain ⟨store, hstore, hlength⟩ := exists_sampleStore
  obtain ⟨final, hfinal⟩ : ∃ final, Database.empty.applyAll constantGenerator
      ((sampleSubmissions.map Prod.fst).take 2) = .ok final := ⟨_, rfl⟩
  refine ⟨store, final, hstore, hfinal, ?_⟩
  exact (tables_eq_applyAll sampleJson constantGenerator ⟨0, none⟩ store
    (sampleSubmissions.map Prod.fst) 2 final (holds_of_appendCommands holds_empty hstore)
    sampleJson_deserialize (by omega) hfinal samplePasses).2

end Coordinator
end DistributedConsensus
