import DistributedConsensus.Coordinator.Replicated
import DistributedConsensus.Coordinator.Progress
import Mathlib.Data.Fintype.EquivFin
import Mathlib.Data.Fintype.Lattice

/-!
# Coordinator: the cluster refines a single coordinator

A single coordinator applies the commands of a log one after the other to empty tables.
Whatever the nodes of a cluster do, and wherever they crash, there is one log such that
the tables of every node are those of the single coordinator after a prefix of that log,
up to the progress that workers have reported to the node (`tables_refine_log`).

The applied tables play no role in replication, so the steps of a cluster are first
sorted by what they do to the nodes and what they do to the tables (`TableMoves`).
-/

namespace DistributedConsensus
namespace Coordinator

open Foundations
open Foundations.ReplicatedLog
open Raft (Node World Label Membership worldStep initialWorld AppendsAsLeader RaftLogEntry
  checkedSucc)

/-! ## The single coordinator -/

section Single

variable (json : JsonSerializer) (generate : ValueGenerator)

/-- Apply the command of an entry, if it can be restored and is not refused. -/
def Database.applyLogEntry (db : Database) (entry : RaftLogEntry) : Option Database :=
  match deserializeCommand json entry with
  | .error _ => none
  | .ok command =>
      match db.apply generate command with
      | .error _ => none
      | .ok (db, _) => some db

/-- Apply the commands of entries one after the other. -/
def Database.applyLog (db : Database) (entries : List RaftLogEntry) : Option Database :=
  entries.foldlM (Database.applyLogEntry json generate) db

end Single

/-- The commands of the entries bring the keys of their rows. -/
def IdentifiedLog (json : JsonSerializer) (log : List RaftLogEntry) : Prop :=
  ∀ entry ∈ log, ∀ command, deserializeCommand json entry = .ok command → command.Identified

/-- The tables are those of a single coordinator after the first entries of a log, up to
progress. -/
def Reproduces (json : JsonSerializer) (log : List RaftLogEntry) (k : Nat) (db : Database) :
    Prop :=
  ∀ generate, ∃ db', Database.empty.applyLog json generate (log.take k) = some db' ∧
    db.withoutProgress = db'.withoutProgress

section Reproduces

variable {json : JsonSerializer} {generate : ValueGenerator} {log log' : List RaftLogEntry}
  {k : Nat} {db db' : Database} {entry : RaftLogEntry} {c : CoordinatorCommand}
  {r : CommandApplicationResult}

theorem applyLogEntry_eq_some
    (h : db.applyLogEntry json generate entry = some db') :
    ∃ command r, deserializeCommand json entry = .ok command ∧
      db.apply generate command = .ok (db', r) := by
  unfold Database.applyLogEntry at h
  split at h
  case h_1 => cases h
  case h_2 command hcommand =>
    split at h
    case h_1 => cases h
    case h_2 db₁ r happly =>
      cases h
      exact ⟨command, r, hcommand, happly⟩

theorem applyLogEntry_of_apply
    (hcommand : deserializeCommand json entry = .ok c)
    (happly : db.apply generate c = .ok (db', r)) :
    db.applyLogEntry json generate entry = some db' := by
  simp only [Database.applyLogEntry, hcommand, happly]

/-- The last entry is applied to what the entries before it have left. -/
theorem applyLog_take_succ
    (hentry : log[k]? = some entry) :
    db.applyLog json generate (log.take (k + 1)) =
      (db.applyLog json generate (log.take k)).bind
        (fun db => db.applyLogEntry json generate entry) := by
  unfold Database.applyLog
  rw [List.take_add_one, hentry, Option.toList_some, List.foldlM_append]
  refine congrArg (Option.bind _) (funext fun db₁ => ?_)
  simp

theorem keyed_of_applyLog
    {entries : List RaftLogEntry}
    (hkeyed : db.experiments.get? 0 = none)
    (h : db.applyLog json generate entries = some db') :
    db'.experiments.get? 0 = none := by
  induction entries generalizing db with
  | nil =>
      cases h
      exact hkeyed
  | cons entry entries ih =>
      unfold Database.applyLog at h
      rw [List.foldlM_cons, Option.bind_eq_bind, Option.bind_eq_some_iff] at h
      obtain ⟨db₁, hentry, hrest⟩ := h
      obtain ⟨command, r, -, happly⟩ := applyLogEntry_eq_some hentry
      exact ih (keyed_of_apply hkeyed happly) hrest

/-- Tables that differ in progress only have the same outcome up to progress. -/
theorem apply_of_withoutProgress_eq
    (hsame : db.withoutProgress = db'.withoutProgress)
    {db₁ : Database}
    (happly : db.apply generate c = .ok (db₁, r)) :
    ∃ db₁' r', db'.apply generate c = .ok (db₁', r') ∧
      db₁.withoutProgress = db₁'.withoutProgress := by
  have hmap : db.withoutProgress.apply generate c =
      (db.apply generate c).map outcomeWithoutProgress := apply_withoutProgress c
  rw [hsame, apply_withoutProgress, happly] at hmap
  cases houtcome : db'.apply generate c with
  | error e =>
      rw [houtcome] at hmap
      cases hmap
  | ok outcome =>
      rw [houtcome] at hmap
      obtain ⟨db₁', r'⟩ := outcome
      exact ⟨db₁', r', rfl, (congrArg Prod.fst (Except.ok.inj hmap)).symm⟩

theorem Reproduces.of_take
    (h : Reproduces json log k db)
    (htake : log'.take k = log.take k) :
    Reproduces json log' k db := by
  intro generate
  rw [htake]
  exact h generate

theorem Reproduces.of_withoutProgress
    (h : Reproduces json log k db)
    (hsame : db'.withoutProgress = db.withoutProgress) :
    Reproduces json log k db' := by
  intro generate
  obtain ⟨db₀, hdb₀, heq⟩ := h generate
  exact ⟨db₀, hdb₀, hsame.trans heq⟩

/-- The next entry is applied, with whatever keys are generated. -/
theorem Reproduces.apply
    (h : Reproduces json log k db)
    (hentry : log[k]? = some entry)
    (hcommand : deserializeCommand json entry = .ok c)
    (hidentified : c.Identified)
    (happly : db.apply generate c = .ok (db', r)) :
    Reproduces json log (k + 1) db' := by
  intro generate'
  obtain ⟨db₀, hdb₀, heq⟩ := h generate'
  rw [show db.apply generate c = db.apply generate' c from apply_generate hidentified] at happly
  obtain ⟨db₁, r₁, happly₁, hsame⟩ := apply_of_withoutProgress_eq heq happly
  refine ⟨db₁, ?_, hsame⟩
  rw [applyLog_take_succ hentry, hdb₀]
  exact applyLogEntry_of_apply hcommand happly₁

/-- The last entry is applied once more, which changes nothing. -/
theorem Reproduces.applyAgain
    (h : Reproduces json log (k + 1) db)
    (hentry : log[k]? = some entry)
    (hcommand : deserializeCommand json entry = .ok c)
    (hidentified : c.Identified)
    (happly : db.apply generate c = .ok (db', r)) :
    Reproduces json log (k + 1) db' := by
  intro generate'
  obtain ⟨db₁, hdb₁, heq⟩ := h generate'
  refine ⟨db₁, hdb₁, ?_⟩
  rw [applyLog_take_succ hentry, Option.bind_eq_some_iff] at hdb₁
  obtain ⟨db₀, hdb₀, hlast⟩ := hdb₁
  obtain ⟨command, r₀, hcommand', happly₀⟩ := applyLogEntry_eq_some hlast
  obtain rfl := Except.ok.inj (hcommand.symm.trans hcommand')
  have hkeyed : db₀.experiments.get? 0 = none := keyed_of_applyLog rfl hdb₀
  obtain ⟨row, hagain⟩ := apply_idempotent hkeyed hidentified.command happly₀
  rw [show db.apply generate c = db.apply generate' c from apply_generate hidentified] at happly
  obtain ⟨db₂, r₂, happly₂, hsame⟩ := apply_of_withoutProgress_eq heq happly
  rw [hagain] at happly₂
  cases happly₂
  exact hsame

end Reproduces

/-! ## Steps of the nodes and steps of the tables -/

section Moves

variable {ι : Type} [DecidableEq ι] {json : JsonSerializer} {M : Membership ι}
  {s s' : Replicas ι} {label : ReplicaLabel ι}

/-- The command whose submission a step begins. -/
def ReplicaLabel.submits (s : Replicas ι) : ReplicaLabel ι → Option CoordinatorCommand
  | .submit _ command => some command
  | .beginSubmission i =>
      (s.services i).scheduler.submitted.map CoordinatorCommand.assignExperiment
  | _ => none

/-- The tables are the same up to progress, and nothing new waits to be marked. -/
structure Services.SameTables (c c' : Services) : Prop where
  database : c'.database.withoutProgress = c.database.withoutProgress
  unmarked : c'.unmarked = true → c.unmarked = true

theorem Services.SameTables.refl (c : Services) : c.SameTables c := ⟨rfl, id⟩

/-- The step that a label takes among the nodes, if it is not one of the applier. -/
inductive NodeStep (json : JsonSerializer) (s : Replicas ι) :
    ReplicaLabel ι → Label ι → Prop
  | internal (l : Label ι) : l.isInternal = true → NodeStep json s (.raft l) l
  | restart (i : ι) : NodeStep json s (.crash i) (.restart i)
  | append (i : ι) : NodeStep json s (.append i) (.submitAppend i)
  | snapshot (label : ReplicaLabel ι) (i : ι) (command : CoordinatorCommand) :
      label.submits s = some command →
      NodeStep json s label (.submitSnapshot i (serialize json command))

/-- What a step does to the nodes and to the tables. -/
inductive TableMoves (json : JsonSerializer) (M : Membership ι) (s : Replicas ι) :
    ReplicaLabel ι → Replicas ι → Prop
  | nodes (label : ReplicaLabel ι) (l : Label ι) (world : World ι) (services : ι → Services) :
      NodeStep json s label l → worldStep M s.world l = some world →
      (∀ j, (s.services j).SameTables (services j)) →
      TableMoves json M s label ⟨world, services⟩
  | apply (i : ι) (generate : ValueGenerator) (database : Database) :
      applyEntry json generate (s.world.nodes i) (s.services i).database = some database →
      TableMoves json M s (.apply i generate)
        (s.put s.world i { s.services i with database := database, unmarked := true })
  | mark (i : ι) (n : Node ι) :
      (s.services i).unmarked = true →
      (s.world.nodes i).markApplied ((s.world.nodes i).lastApplied + 1) = some n →
      TableMoves json M s (.markApplied i)
        (s.put (s.world.put i n) i { s.services i with unmarked := false })
  | services (label : ReplicaLabel ι) (services : ι → Services) :
      (∀ j, (s.services j).SameTables (services j)) →
      TableMoves json M s label ⟨s.world, services⟩

/-- Only the services of one node change, and its tables do not. -/
theorem sameTables_update
    {i : ι} {c : Services}
    (h : (s.services i).SameTables c) (j : ι) :
    (s.services j).SameTables (Function.update s.services i c j) := by
  by_cases hj : j = i
  · subst hj
    rw [Function.update_self]
    exact h
  · rw [Function.update_of_ne hj]
    exact Services.SameTables.refl _

theorem sameTables_checkWorker
    {c c' : Services} {lastApplied : Nat}
    (h : c.checkWorker lastApplied = some c') :
    c.SameTables c' := by
  unfold Services.checkWorker at h
  split at h
  case h_1 =>
    cases h
    exact ⟨rfl, id⟩
  case h_2 =>
    split at h
    case isTrue | isFalse =>
      cases h
      exact ⟨rfl, id⟩
  case h_3 => cases h

theorem sameTables_choosePending
    {c c' : Services} {stamp : Stamp}
    (h : c.choosePending stamp = some c') :
    c.SameTables c' := by
  unfold Services.choosePending at h
  split at h
  case h_1 =>
    split at h
    case h_1 | h_2 =>
      cases h
      exact ⟨rfl, id⟩
  case h_2 => cases h

theorem reportProgress_withoutProgress
    {db db' : Database} {now : DateTimeOffset} {id : Raft.Guid}
    {request : ReportExperimentProgressRequest} {row : ExperimentEntity}
    (h : db.reportProgress now id request = .ok (db', row)) :
    db'.withoutProgress = db.withoutProgress := by
  unfold Database.reportProgress at h
  obtain ⟨-, h⟩ := ok_of_check h
  obtain ⟨-, h⟩ := ok_of_check h
  obtain ⟨-, h⟩ := ok_of_check h
  split at h
  case h_1 => cases h
  case h_2 =>
    obtain ⟨-, h⟩ := ok_of_check h
    obtain ⟨-, h⟩ := ok_of_check h
    obtain ⟨-, h⟩ := ok_of_check h
    obtain ⟨-, h⟩ := ok_of_check h
    obtain ⟨-, h⟩ := ok_of_check h
    obtain ⟨-, h⟩ := ok_of_check h
    simp only at h
    split at h
    case h_1 => cases h
    case h_2 =>
      split at h
      case isTrue =>
        cases h
        exact tryReportProgress_withoutProgress _ _ _ _ _ _
      case isFalse => cases h

/-- **Inversion of a step of the cluster of coordinators.** -/
theorem tableMoves_of_replicatedStep
    (h : replicatedStep json M s label = some s') :
    TableMoves json M s label s' := by
  cases label with
  | raft l =>
      simp only [replicatedStep, Option.ite_none_right_eq_some] at h
      obtain ⟨hinternal, h⟩ := h
      split at h
      case h_1 => cases h
      case h_2 world hworld =>
        cases h
        exact .nodes _ l world _ (.internal l hinternal) hworld
          fun _ => .refl _
  | crash i =>
      simp only [replicatedStep] at h
      split at h
      case h_1 => cases h
      case h_2 world hworld =>
        cases h
        refine .nodes _ _ world _ (.restart i) hworld (sameTables_update ⟨rfl, ?_⟩)
        rintro ⟨⟩
  | submit i command =>
      simp only [replicatedStep, Option.ite_none_left_eq_some] at h
      obtain ⟨-, h⟩ := h
      split at h
      case isTrue =>
        cases h
        exact .services _ _ fun _ => .refl _
      case isFalse =>
        split at h
        case h_1 => cases h
        case h_2 world hworld =>
          cases h
          exact .nodes _ _ world _ (.snapshot _ i command rfl) hworld
            (sameTables_update ⟨rfl, id⟩)
  | append i =>
      simp only [replicatedStep] at h
      split at h
      case h_1 => cases h
      case h_2 world hworld =>
        split at h
        case isTrue | isFalse =>
          cases h
          exact .nodes _ _ world _ (.append i) hworld (sameTables_update ⟨rfl, id⟩)
  | endSubmission i throws =>
      simp only [replicatedStep, Option.ite_none_left_eq_some, Option.some.injEq] at h
      obtain ⟨-, rfl⟩ := h
      exact .services _ _ (sameTables_update ⟨rfl, id⟩)
  | apply i generate =>
      simp only [replicatedStep, Option.ite_none_left_eq_some] at h
      obtain ⟨-, h⟩ := h
      split at h
      case h_1 => cases h
      case h_2 database hdatabase =>
        cases h
        exact .apply i generate database hdatabase
  | markApplied i =>
      simp only [replicatedStep, Option.ite_none_right_eq_some] at h
      obtain ⟨hunmarked, h⟩ := h
      split at h
      case h_1 =>
        cases h
        refine .services _ _ (sameTables_update ⟨rfl, ?_⟩)
        rintro ⟨⟩
      case h_2 world hworld =>
        cases h
        obtain ⟨n, hn, rfl⟩ := Raft.worldStep_markApplied hworld
        exact .mark i n hunmarked hn
  | reportProgress i now id request =>
      simp only [replicatedStep] at h
      split at h
      case h_1 =>
        cases h
        exact .services _ _ fun _ => .refl _
      case h_2 database row hdatabase =>
        cases h
        exact .services _ _ (sameTables_update ⟨reportProgress_withoutProgress hdatabase, fun hu => hu⟩)
  | beginCycle i onlineWorkers =>
      simp only [replicatedStep, Option.ite_none_left_eq_some] at h
      obtain ⟨-, h⟩ := h
      split at h
      case isTrue =>
        cases h
        exact .services _ _ fun _ => .refl _
      case isFalse =>
        cases h
        exact .services _ _ (sameTables_update ⟨rfl, id⟩)
  | checkWorker i =>
      simp only [replicatedStep] at h
      split at h
      case h_1 => cases h
      case h_2 c hc =>
        cases h
        exact .services _ _ (sameTables_update (sameTables_checkWorker hc))
  | choosePending i stamp =>
      simp only [replicatedStep] at h
      split at h
      case h_1 => cases h
      case h_2 c hc =>
        cases h
        exact .services _ _ (sameTables_update (sameTables_choosePending hc))
  | beginSubmission i =>
      simp only [replicatedStep] at h
      split at h
      case h_2 => cases h
      case h_1 seen command onlineWorkers hscheduler =>
        rw [Option.ite_none_left_eq_some] at h
        obtain ⟨-, h⟩ := h
        split at h
        case isTrue =>
          cases h
          exact .services _ _ (sameTables_update ⟨rfl, id⟩)
        case isFalse =>
          split at h
          case h_1 => cases h
          case h_2 world hworld =>
            cases h
            refine .nodes _ _ world _ (.snapshot _ i (.assignExperiment command) ?_) hworld
              (sameTables_update ⟨rfl, id⟩)
            simp only [ReplicaLabel.submits, hscheduler, SchedulerState.submitted, Option.map_some]

end Moves

/-! ## The invariant -/

section Invariant

variable {ι : Type} {json : JsonSerializer} {n n' : Node ι} {c c' : Services}

/-- A submission is begun with a command that can be restored and brings its keys. -/
def SubmitsIdentified (json : JsonSerializer) (s : Replicas ι) (label : ReplicaLabel ι) : Prop :=
  ∀ command ∈ label.submits s, Restores json command ∧ command.Identified

/-- The tables of a node are those of a single coordinator after a committed prefix of
its log, and what it is about to append can be restored. -/
structure Filled (json : JsonSerializer) (n : Node ι) (c : Services) : Prop where
  commitStored : n.CommitStored
  applied : ∃ k, Reproduces json n.logStore.entries k c.database ∧ n.lastApplied ≤ k ∧
    k ≤ n.lastApplied + 1 ∧ k ≤ n.commitIndex ∧ (c.unmarked = true → k = n.lastApplied + 1)
  submission : ∀ task, n.submission = some task → ∃ command,
    task.command = serialize json command ∧ Restores json command ∧ command.Identified

/-- A node goes on with the same tables, and with the log that it has committed. -/
theorem Filled.goesOn
    (h : Filled json n c)
    (hsame : c.SameTables c')
    (hstored : n'.CommitStored)
    (hlast : n'.lastApplied = n.lastApplied)
    (hcommit : n.commitIndex ≤ n'.commitIndex)
    (htake : ∀ k ≤ n.commitIndex, n'.logStore.entries.take k = n.logStore.entries.take k)
    (hsubmission : ∀ task, n'.submission = some task → ∃ command,
      task.command = serialize json command ∧ Restores json command ∧ command.Identified) :
    Filled json n' c' where
  commitStored := hstored
  applied := by
    obtain ⟨k, hk, hle, hle', hkcommit, hunmarked⟩ := h.applied
    rw [hlast]
    exact ⟨k, (hk.of_take (htake k hkcommit)).of_withoutProgress hsame.database, hle, hle',
      hkcommit.trans hcommit, fun hu => hunmarked (hsame.unmarked hu)⟩
  submission := hsubmission

theorem Filled.apply
    {generate : ValueGenerator} {db : Database}
    (h : Filled json n c)
    (hidentified : IdentifiedLog json n.logStore.entries)
    (happly : applyEntry json generate n c.database = some db) :
    Filled json n { c with database := db, unmarked := true } := by
  obtain ⟨k, hk, hle, hle', hcommit, -⟩ := h.applied
  unfold applyEntry at happly
  rw [Option.ite_none_left_eq_some] at happly
  obtain ⟨hlt, happly⟩ := happly
  split at happly
  case h_1 => cases happly
  case h_2 nextIndex hnext =>
    obtain rfl := Raft.checkedSucc_eq_some hnext
    split at happly
    case h_1 => cases happly
    case h_2 entry hentry =>
      rw [Raft.get_succ] at hentry
      split at happly
      case h_1 => cases happly
      case h_2 command hcommand =>
        split at happly
        case h_1 => cases happly
        case h_2 db' r hdb =>
          cases happly
          have hkeys := hidentified entry (List.mem_of_getElem? hentry) command hcommand
          have happlied : Reproduces json n.logStore.entries (n.lastApplied + 1) db := by
            -- the entry has been applied before if the coordinator crashed in between
            rcases hle.lt_or_eq with hbefore | heq
            · obtain rfl : n.lastApplied + 1 = k := by omega
              exact hk.applyAgain hentry hcommand hkeys hdb
            · rw [← heq] at hk
              exact hk.apply hentry hcommand hkeys hdb
          exact { h with
            applied := ⟨n.lastApplied + 1, happlied, by omega, le_rfl, by omega, fun _ => rfl⟩ }

theorem Filled.mark
    (h : Filled json n c)
    (hunmarked : c.unmarked = true)
    (hmark : n.markApplied (n.lastApplied + 1) = some n') :
    Filled json n' { c with unmarked := false } := by
  obtain rfl := Node.markApplied_eq_some hmark
  obtain ⟨k, hk, -, -, hcommit, hmarks⟩ := h.applied
  obtain rfl := hmarks hunmarked
  exact {
    commitStored := rfl
    applied := by
      refine ⟨n.lastApplied + 1, hk, le_rfl, Nat.le_succ _, hcommit, ?_⟩
      rintro ⟨⟩
    submission := h.submission }

/-- What is appended brings its keys. -/
theorem Filled.identified_append
    {task : Raft.SubmissionTask} {logStore : Raft.LogStore} {entry : RaftLogEntry}
    (h : Filled json n c)
    (hidentified : IdentifiedLog json n.logStore.entries)
    (htask : n.submission = some task)
    (happend : Raft.appendCommand n.logStore task.command task.term = .ok (logStore, entry)) :
    IdentifiedLog json logStore.entries := by
  obtain ⟨command, hcommand, hjson, hkeys⟩ := h.submission task htask
  obtain ⟨-, htype, hpayload, -⟩ := Raft.appendCommand_accepted happend
  rw [(Raft.appendCommand_spec happend).1]
  intro e he restored hrestored
  rcases List.mem_append.mp he with hold | hnew
  · exact hidentified e hold restored hrestored
  · obtain rfl := List.mem_singleton.mp hnew
    rw [hcommand] at htype hpayload
    rw [eq_of_deserializeCommand hjson htype hpayload hrestored]
    exact hkeys

end Invariant

/-! ## Every step keeps the invariant -/

/-- The cluster follows the protocol, and all entries bring their keys. -/
structure Tracked {ι : Type} [Fintype ι] (json : JsonSerializer) (w : World ι)
    (a : Raft.History ι) : Prop where
  inv : Inv RaftLogEntry.term a
  permanent : Permanent RaftLogEntry.term a
  linked : Raft.Linked w a
  kept : Raft.Kept (IdentifiedLog json) a w

/-- A history backs the cluster, and the tables of every node are filled from its log. -/
structure RefinedBy {ι : Type} [Fintype ι] (json : JsonSerializer) (s : Replicas ι)
    (a : Raft.History ι) : Prop where
  tracked : Tracked json s.world a
  filled : ∀ i, Filled json (s.world.nodes i) (s.services i)

section Steps

variable {ι : Type} [Fintype ι] [DecidableEq ι] {json : JsonSerializer} {M : Membership ι}
  {s s' : Replicas ι} {label : ReplicaLabel ι} {w w' : World ι} {a : Raft.History ι}
  {l : Label ι}

/-- A step of the nodes keeps what all logs have in common and what is committed. -/
theorem Tracked.step
    (h : Tracked json w a)
    (hok : AppendsAsLeader w l)
    (hstep : worldStep M w l = some w')
    (hgood : ∀ i, l = .submitAppend i → IdentifiedLog json (w'.nodes i).logStore.entries) :
    ∃ a', Tracked json w' a' ∧
      ∀ j k, k ≤ (w.nodes j).commitIndex → k ≤ (w'.nodes j).commitIndex →
        (w'.nodes j).logStore.entries.take k = (w.nodes j).logStore.entries.take k := by
  obtain ⟨i, a', hacts, hlinked, hkept⟩ := h.linked.step_kept
    (fun _ _ hpre hlog e he => hlog e (hpre.subset he)) h.inv h.kept hok hstep hgood
  have hinv := hacts.inv h.inv
  have hperm := hacts.permanent h.inv h.permanent
  refine ⟨a', ⟨hinv, hperm, hlinked, hkept⟩, ?_⟩
  intro j k hk hk'
  exact Raft.NodeLinked.take_eq hinv hperm hacts.isLocal (h.linked.nodes j) (hlinked.nodes j) hk hk'

omit [Fintype ι] in
/-- What a step that is none of the applier leaves of the applied prefix and of the
submission of a node. -/
theorem NodeStep.goesOn
    (hkind : NodeStep json s label l)
    (hstep : worldStep M s.world l = some w')
    (hstored : ∀ j, (s.world.nodes j).Stored)
    (hcommit : ∀ j, (s.world.nodes j).CommitStored) (j : ι) :
    (w'.nodes j).CommitStored ∧ (w'.nodes j).lastApplied = (s.world.nodes j).lastApplied ∧
      (s.world.nodes j).commitIndex ≤ (w'.nodes j).commitIndex ∧
      ∀ task, (w'.nodes j).submission = some task → (s.world.nodes j).submission = some task ∨
        ∃ command, label.submits s = some command ∧ task.command = serialize json command := by
  -- it suffices to look at the node that takes the step
  suffices hnode : (∃ i n', w'.nodes = Function.update s.world.nodes i n' ∧ n'.CommitStored ∧
      n'.lastApplied = (s.world.nodes i).lastApplied ∧
      (s.world.nodes i).commitIndex ≤ n'.commitIndex ∧
      ∀ task, n'.submission = some task → (s.world.nodes i).submission = some task ∨
        ∃ command, label.submits s = some command ∧ task.command = serialize json command) ∨
      s.world.Steady w' by
    rcases hnode with ⟨i, n', hnodes, hn'⟩ | hsteady
    · rw [hnodes]
      by_cases hj : j = i
      · subst hj
        rw [Function.update_self]
        exact hn'
      · rw [Function.update_of_ne hj]
        exact ⟨hcommit j, rfl, le_rfl, fun _ => Or.inl⟩
    · refine ⟨(hsteady j).commitStored (hcommit j), (hsteady j).lastApplied,
        (hsteady j).commitIndex, fun task htask => Or.inl ?_⟩
      rw [← (hsteady j).submission]
      exact htask
  cases hkind with
  | internal l hinternal => exact Or.inr (Raft.worldStep_internal hstored hinternal hstep).1
  | restart i =>
      cases hstep
      have hmemory : (s.world.nodes i).commitState =
          ⟨(s.world.nodes i).commitIndex, (s.world.nodes i).lastApplied⟩ := hcommit i
      refine Or.inl ⟨i, _, rfl, rfl, ?_, ?_, ?_⟩
      · exact congrArg (fun st => st.lastApplied) hmemory
      · exact (congrArg (fun st => st.commitIndex) hmemory).ge
      · rintro task ⟨⟩
  | append i =>
      obtain ⟨task, -, ⟨e, -, rfl⟩ | ⟨logStore, entry, -, rfl⟩⟩ := Raft.submitAppend_eq_some hstep
      · refine Or.inl ⟨i, _, rfl, hcommit i, rfl, le_rfl, ?_⟩
        rintro task' ⟨⟩
      · refine Or.inl ⟨i, _, rfl, hcommit i, rfl, le_rfl, ?_⟩
        rintro task' ⟨⟩
  | snapshot _ i command hsubmits =>
      obtain rfl := Raft.submitSnapshot_eq_some hstep
      refine Or.inl ⟨i, _, rfl, hcommit i, rfl, le_rfl, ?_⟩
      rintro task ⟨⟩
      exact Or.inr ⟨command, hsubmits, rfl⟩

omit [Fintype ι] [DecidableEq ι] in
/-- Only the append of a command has to be made by a leader. -/
theorem NodeStep.appendsAsLeader
    (hkind : NodeStep json s label l)
    (hok : AppendsInTerm s label) :
    AppendsAsLeader s.world l := by
  cases hkind with
  | internal l hinternal =>
      cases l with
      | submitAppend i => cases hinternal
      | _ => trivial
  | append i => exact hok
  | restart i => trivial
  | snapshot => trivial

/-- The invariant is kept by every step under the conditions. -/
theorem RefinedBy.step
    (h : RefinedBy json s a)
    (hidentified : SubmitsIdentified json s label)
    (hterm : AppendsInTerm s label)
    (hstep : replicatedStep json M s label = some s') :
    ∃ a', RefinedBy json s' a' := by
  obtain ⟨htracked, hall⟩ := h
  cases tableMoves_of_replicatedStep hstep with
  | nodes _ l world services hkind hworld hsame =>
      have hgood : ∀ i, l = .submitAppend i →
          IdentifiedLog json (world.nodes i).logStore.entries := by
        rintro i rfl
        obtain ⟨task, htask, ⟨e, -, rfl⟩ | ⟨logStore, entry, happend, rfl⟩⟩ :=
          Raft.submitAppend_eq_some hworld
        · simp only [World.put, Function.update_self]
          exact htracked.kept.logs i
        · simp only [World.put, Function.update_self]
          exact (hall i).identified_append (htracked.kept.logs i) htask happend
      obtain ⟨a', htracked', htake⟩ :=
        htracked.step (hkind.appendsAsLeader hterm) hworld hgood
      have hnodes := hkind.goesOn hworld (fun i => (htracked.linked.nodes i).stored)
        (fun i => (hall i).commitStored)
      refine ⟨a', htracked', fun j => ?_⟩
      obtain ⟨hstored, hlast, hcommit, hsubmission⟩ := hnodes j
      refine (hall j).goesOn (hsame j) hstored hlast hcommit
        (fun k hk => htake j k hk (hk.trans hcommit)) ?_
      intro task htask
      rcases hsubmission task htask with hold | ⟨command, hsubmits, hcommand⟩
      · exact (hall j).submission task hold
      · exact ⟨command, hcommand, hidentified command hsubmits⟩
  | apply i generate database hdatabase =>
      refine ⟨a, htracked, fun j => ?_⟩
      simp only [Replicas.put]
      by_cases hj : j = i
      · subst hj
        rw [Function.update_self]
        exact (hall j).apply (htracked.kept.logs j) hdatabase
      · rw [Function.update_of_ne hj]
        exact hall j
  | mark i n hunmarked hn =>
      have hworld : worldStep M s.world (.markApplied i) = some (s.world.put i n) := by
        simp only [worldStep, hn]
      obtain ⟨a', htracked', -⟩ := htracked.step (l := .markApplied i) trivial hworld
        (by rintro j ⟨⟩)
      refine ⟨a', htracked', fun j => ?_⟩
      simp only [Replicas.put, World.put]
      by_cases hj : j = i
      · subst hj
        rw [Function.update_self, Function.update_self]
        exact (hall j).mark hunmarked hn
      · rw [Function.update_of_ne hj, Function.update_of_ne hj]
        exact hall j
  | services _ services hsame =>
      refine ⟨a, htracked, fun j => ?_⟩
      exact (hall j).goesOn (hsame j) (hall j).commitStored rfl le_rfl (fun _ _ => rfl)
        (hall j).submission

theorem refinedBy_initial (json : JsonSerializer) (M : Membership ι) :
    RefinedBy json (replicated json M).init State.initial where
  tracked := {
    inv := inv_initial
    permanent := permanent_initial
    linked := Raft.linked_initial
    kept := by
      constructor
      · rintro i e ⟨⟩
      · rintro call ⟨⟩ }
  filled i := {
    commitStored := rfl
    applied := by
      refine ⟨0, fun generate => ⟨Database.empty, rfl, rfl⟩, le_rfl, Nat.le_succ _, le_rfl, ?_⟩
      rintro ⟨⟩
    submission := by rintro task ⟨⟩ }

theorem exists_refinedBy
    (hs : (replicated json M).Reachable (fun s label => SubmitsIdentified json s label ∧
      AppendsInTerm s label) s) :
    ∃ a, RefinedBy json s a := by
  refine System.Reachable.invariant (I := fun s => ∃ a, RefinedBy json s a)
    ⟨State.initial, refinedBy_initial json M⟩ ?_ hs
  rintro s label s' - ⟨a, h⟩ ⟨hidentified, hterm⟩ hstep
  exact h.step hidentified hterm hstep

omit [DecidableEq ι] in
/-- The committed parts of all logs are prefixes of the longest one. -/
theorem Tracked.exists_log
    (h : Tracked json w a) :
    ∃ log : List RaftLogEntry, ∀ i,
      (w.nodes i).logStore.entries.take (w.nodes i).commitIndex <+: log := by
  rcases isEmpty_or_nonempty ι with hempty | hnonempty
  · exact ⟨[], fun i => isEmptyElim i⟩
  · obtain ⟨m, hm⟩ := Finite.exists_max (fun i => (w.nodes i).commitIndex)
    refine ⟨(w.nodes m).logStore.entries.take (w.nodes m).commitIndex, fun i => ?_⟩
    have hi := h.linked.nodes i
    have hm' := h.linked.nodes m
    have hle := hm i
    rcases hi.confirmed.comparable h.inv h.permanent hm'.confirmed with hpre | hpre
    · exact hpre
    · rw [hpre.eq_of_length]
      have hlength := hpre.length_le
      rw [List.length_take_of_le hi.commit_le, List.length_take_of_le hm'.commit_le] at hlength ⊢
      omega

end Steps

/-- **State machine replication.**  In every run in which commands are appended in the
term of their leader and bring their keys, there is one log such that the tables of each
coordinator are those of a single coordinator that has applied a prefix of the log: the
entries that the coordinator has marked as applied, and perhaps the next one. -/
theorem tables_refine_log
    {ι : Type} [Fintype ι] [DecidableEq ι] (json : JsonSerializer) (M : Membership ι)
    (s : Replicas ι)
    (hs : (replicated json M).Reachable (fun s label => SubmitsIdentified json s label ∧
      AppendsInTerm s label) s) :
    ∃ log : List RaftLogEntry, ∀ i,
      (s.world.nodes i).logStore.entries.take (s.world.nodes i).commitIndex <+: log ∧
      ∃ k, (s.world.nodes i).lastApplied ≤ k ∧ k ≤ (s.world.nodes i).lastApplied + 1 ∧
        k ≤ (s.world.nodes i).commitIndex ∧ ∀ generate, ∃ db,
          Database.empty.applyLog json generate (log.take k) = some db ∧
            (s.services i).database.withoutProgress = db.withoutProgress := by
  obtain ⟨a, htracked, hall⟩ := exists_refinedBy hs
  obtain ⟨log, hlog⟩ := htracked.exists_log
  refine ⟨log, fun i => ⟨hlog i, ?_⟩⟩
  obtain ⟨k, hk, hle, hle', hcommit, -⟩ := (hall i).applied
  refine ⟨k, hle, hle', hcommit, hk.of_take ?_⟩
  have hbound := (htracked.linked.nodes i).commit_le
  have htake : log.take k =
      ((s.world.nodes i).logStore.entries.take (s.world.nodes i).commitIndex).take k := by
    refine Raft.take_eq_of_isPrefix (hlog i) ?_
    rw [List.length_take_of_le hbound]
    exact hcommit
  rw [htake, List.take_take, min_eq_left hcommit]

instance decidableIdentified (c : CoordinatorCommand) : Decidable c.Identified :=
  decidable_of_iff (c.commandId ≠ 0 ∧ c.eventId ≠ 0 ∧ c.experimentId ≠ 0)
    ⟨fun h => ⟨h.1, h.2.1, h.2.2⟩, fun h => ⟨h.command, h.event, h.experiment⟩⟩

instance decidableSubmitsIdentified {ι : Type} (json : JsonSerializer) (s : Replicas ι)
    (label : ReplicaLabel ι) :
    Decidable (SubmitsIdentified json s label) :=
  inferInstanceAs (Decidable (∀ command ∈ label.submits s,
    json.deserialize command.commandType (json.serialize command) = some command ∧
      command.Identified))

/-- The first experiment has been applied by the first node and by no other. -/
theorem tables_refine_log_sample :
    ∃ s : Replicas (Fin 3), (replicated schedulingJson (Raft.fullMesh 3)).Reachable
        (fun s label => SubmitsIdentified schedulingJson s label ∧ AppendsInTerm s label) s ∧
      ((s.services 0).database.lifecycle 10).isSome = true ∧
      ((s.services 1).database.lifecycle 10).isSome = false ∧
      ∃ log : List RaftLogEntry, ∀ i,
        (s.world.nodes i).logStore.entries.take (s.world.nodes i).commitIndex <+: log ∧
        ∃ k, (s.world.nodes i).lastApplied ≤ k ∧ k ≤ (s.world.nodes i).lastApplied + 1 ∧
          k ≤ (s.world.nodes i).commitIndex ∧ ∀ generate, ∃ db,
            Database.empty.applyLog schedulingJson generate (log.take k) = some db ∧
              (s.services i).database.withoutProgress = db.withoutProgress := by
  have hrun : ∃ s, (replicated schedulingJson (Raft.fullMesh 3)).Reaches
      (fun s label => SubmitsIdentified schedulingJson s label ∧ AppendsInTerm s label)
      (replicated schedulingJson (Raft.fullMesh 3)).init s ∧
      ((s.services 0).database.lifecycle 10).isSome = true ∧
      ((s.services 1).database.lifecycle 10).isSome = false := by
    refine System.exists_reaches_of_exec (timedOutRun.take 15) ?_
    decide +kernel
  obtain ⟨s, hs, hfirst, hsecond⟩ := hrun
  exact ⟨s, hs, hfirst, hsecond, tables_refine_log schedulingJson (Raft.fullMesh 3) s hs⟩

end Coordinator
end DistributedConsensus
