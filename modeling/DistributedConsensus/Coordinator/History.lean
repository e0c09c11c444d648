import DistributedConsensus.Coordinator.Effects
import DistributedConsensus.Foundations.Runs
import Mathlib.Algebra.Group.Int.Defs
import Mathlib.Algebra.Group.Nat.Defs

/-!
# Coordinator: experiments and their events

The processor takes commands one after the other; a command that throws changes
nothing.  Along every such run the events of an experiment tell its row: the
last event other than a request for cancellation implies the status, and the
attempt counts the assignments.

The attempt has 32 bits and is incremented without an overflow check, so it is
the number of assignments only as long as that number fits:
`told_iff_lt`.
-/

namespace DistributedConsensus
namespace Coordinator

open Foundations
open Raft (Guid)

/-- The tables after a command, accepted or rejected. -/
def Database.process (generate : ValueGenerator) (db : Database) (c : CoordinatorCommand) :
    Database :=
  match db.apply generate c with
  | .ok (db', _) => db'
  | .error _ => db

/-- The processor; every command comes with the keys that are generated for it. -/
def processor : System Database (ValueGenerator × CoordinatorCommand) where
  init := Database.empty
  step db request := some (db.process request.1 request.2)

/-- The events of an experiment, oldest first. -/
def eventsOf (db : Database) (id : Guid) : List ExperimentEventEntity :=
  db.experimentEvents.values.filter (fun e => decide (e.experimentId = id))

/-- The number of assignments among events. -/
def assignedCount (events : List ExperimentEventEntity) : Nat :=
  events.countP (fun e => decide (e.type = .assigned))

/-- The status that an event implies. -/
def impliedStatus : ExperimentEventType → ExperimentStatus
  | .created => .pending
  | .assigned => .running
  | .completed => .completed
  | .failed => .failed
  | .requeued => .pending
  | .recoveredOnStartup => .pending
  | .cancelRequested => .running
  | .cancelled => .cancelled

/-- The last event other than a request for cancellation. -/
def lastChange (events : List ExperimentEventEntity) : Option ExperimentEventEntity :=
  (events.filter (fun e => decide (e.type ≠ .cancelRequested))).getLast?

/-- The experiment has ended. -/
def ExperimentStatus.Terminal (status : ExperimentStatus) : Prop :=
  status = .completed ∨ status = .failed ∨ status = .cancelled

/-- A completion or a requeue that names another worker or another attempt. -/
def Misnames (row : ExperimentEntity) : CoordinatorCommand → Prop
  | .completeExperiment c =>
      row.assignedWorkerId ≠ some c.workerId ∨ row.attempt ≠ c.attempt
  | .requeueExperiment c =>
      row.assignedWorkerId ≠ some c.workerId ∨ row.attempt ≠ c.attempt
  | _ => False

/-- The row of an experiment is told by its events, is final in a final status,
and is not touched by commands that name another worker or attempt. -/
structure Told (db : Database) (id : Guid) (row : ExperimentEntity) : Prop where
  attempt : row.attempt.toInt = assignedCount (eventsOf db id)
  status : ∃ e, lastChange (eventsOf db id) = some e ∧ row.status = impliedStatus e.type
  final : row.status.Terminal → ∀ db', processor.Reaches System.anyStep db db' →
    db'.experiments.get? id = some row
  fenced : ∀ generate c, c.experimentId = id → Misnames row c →
    (db.process generate c).experiments.get? id = some row

/-! ## What a transition adds -/

section Transitions

variable {l l' : Lifecycle} {c : CoordinatorCommand}

/-- The event of a transition tells the new status and whether the attempt has
been incremented. -/
theorem Lifecycle.next_spec
    (h : Lifecycle.next (some l) c = some l') :
    match Lifecycle.eventType (some l) c with
    | none => l'.status = l.status ∧ l'.attempt = l.attempt
    | some .cancelRequested => l'.status = l.status ∧ l'.attempt = l.attempt
    | some .assigned => l'.status = .running ∧ l'.attempt = l.attempt + 1
    | some type => l'.status = impliedStatus type ∧ l'.attempt = l.attempt := by
  cases c with
  | createExperiment command => simp [Lifecycle.next] at h
  | assignExperiment command =>
      simp only [Lifecycle.next] at h
      split at h
      case isTrue hcond =>
        cases h
        simp only [Lifecycle.eventType]
        refine ⟨trivial, ?_⟩
        rw [hcond.2, Int32.sub_add_cancel]
      case isFalse => cases h
  | completeExperiment command =>
      simp only [Lifecycle.next] at h
      split at h
      case isTrue hcond =>
        cases h
        simp only [Lifecycle.eventType, Database.finalStatus]
        cases command.wasCancelled <;> cases command.succeeded <;> simp [impliedStatus]
      case isFalse => cases h
  | requestExperimentCancellation command =>
      cases hstatus : l.status with
      | pending =>
          simp only [Lifecycle.next, hstatus, Option.some.injEq] at h
          subst h
          simp [Lifecycle.eventType, hstatus, impliedStatus]
      | running =>
          simp only [Lifecycle.next, hstatus, Option.some.injEq] at h
          subst h
          cases hrequested : l.cancellationRequested <;>
            simp [Lifecycle.eventType, hstatus, hrequested]
      | completed => simp [Lifecycle.next, hstatus] at h
      | failed => simp [Lifecycle.next, hstatus] at h
      | cancelled => simp [Lifecycle.next, hstatus] at h
  | requeueExperiment command =>
      simp only [Lifecycle.next] at h
      split at h
      case isTrue hcond =>
        cases h
        simp only [Lifecycle.eventType]
        cases command.cancelInsteadOfRequeue <;> simp [impliedStatus]
      case isFalse => cases h
  | recoverExperimentOnStartup command =>
      simp only [Lifecycle.next] at h
      split at h
      case isTrue =>
        cases h
        exact ⟨rfl, rfl⟩
      case isFalse => cases h

/-- An experiment begins with its creation. -/
theorem Lifecycle.next_none
    (h : Lifecycle.next none c = some l') :
    Lifecycle.eventType none c = some .created ∧ l'.status = .pending ∧ l'.attempt = 0 := by
  cases c with
  | createExperiment command =>
      simp only [Lifecycle.next] at h
      split at h
      case isTrue => cases h
      case isFalse =>
        cases h
        exact ⟨rfl, rfl, rfl⟩
  | _ => simp [Lifecycle.next] at h

/-- A final status has no transition. -/
theorem Lifecycle.next_of_terminal
    (h : l.status.Terminal) :
    Lifecycle.next (some l) c = none := by
  have hpending : l.status ≠ .pending := by
    rintro heq
    rcases h with h | h | h <;> simp [h] at heq
  have hrunning : l.status ≠ .running := by
    rintro heq
    rcases h with h | h | h <;> simp [h] at heq
  cases c with
  | createExperiment command => rfl
  | assignExperiment command => simp [Lifecycle.next, hpending]
  | completeExperiment command =>
      refine if_neg ?_
      rintro heq
      exact hrunning (congrArg Lifecycle.status heq)
  | requestExperimentCancellation command =>
      rcases h with h | h | h <;> simp [Lifecycle.next, h]
  | requeueExperiment command =>
      refine if_neg ?_
      rintro heq
      exact hrunning (congrArg Lifecycle.status heq)
  | recoverExperimentOnStartup command => simp [Lifecycle.next, hrunning]

/-- Another worker or another attempt has no transition. -/
theorem Lifecycle.next_of_misnames
    {row : ExperimentEntity}
    (h : Misnames row c) :
    Lifecycle.next (some (lifecycleOf row)) c = none := by
  cases c with
  | completeExperiment command =>
      refine if_neg ?_
      rintro heq
      obtain ⟨-, hworker, hattempt, -⟩ := Lifecycle.mk.inj heq
      rcases h with h | h
      · exact h hworker
      · exact h hattempt
  | requeueExperiment command =>
      refine if_neg ?_
      rintro heq
      obtain ⟨-, hworker, hattempt, -⟩ := Lifecycle.mk.inj heq
      rcases h with h | h
      · exact h hworker
      · exact h hattempt
  | _ => exact absurd h (by simp [Misnames])

end Transitions

/-! ## Steps of the processor -/

section Steps

variable {generate : ValueGenerator} {db db' : Database} {c : CoordinatorCommand} {id : Guid}

variable (generate c) in
/-- A command changes nothing, or leaves its row, event and record. -/
theorem process_cases
    (hkeyed : db.experiments.get? 0 = none) :
    db.process generate c = db ∨
      ∃ row event, Applies generate db c row event (db.process generate c) := by
  unfold Database.process
  cases happly : db.apply generate c with
  | error e => exact Or.inl rfl
  | ok result =>
      obtain ⟨db', r⟩ := result
      rcases apply_cases hkeyed happly with ⟨heq, -⟩ | ⟨-, hrow⟩
      · exact Or.inl heq
      · exact Or.inr hrow

/-- A row without a transition stays. -/
theorem process_of_next_none
    {row : ExperimentEntity}
    (hkeyed : db.experiments.get? 0 = none)
    (hrow : db.experiments.get? id = some row)
    (hnext : c.experimentId = id → Lifecycle.next (some (lifecycleOf row)) c = none) :
    (db.process generate c).experiments.get? id = some row := by
  rcases process_cases generate c hkeyed with heq | ⟨row', event, happlies⟩
  · rw [heq]
    exact hrow
  · rw [happlies.experiments]
    by_cases hid : id = c.experimentId
    · have hstep := happlies.next
      rw [← hid, hrow, Option.map_some, hnext hid.symm] at hstep
      cases hstep
    · rw [if_neg hid]
      exact hrow

/-- The event of a command is the last one of its experiment. -/
theorem Applies.eventsOf_eq
    {row : ExperimentEntity} {event : Option ExperimentEventEntity}
    (h : Applies generate db c row event db') :
    eventsOf db' id = eventsOf db id ++ (if id = c.experimentId then event.toList else []) := by
  have hvalues : db'.experimentEvents.values = db.experimentEvents.values ++ event.toList := by
    unfold Dict.values
    rw [h.events, List.map_append, List.map_map]
    simp
  unfold eventsOf
  rw [hvalues, List.filter_append]
  congr 1
  cases event with
  | none => simp
  | some e =>
      have hexperiment := h.eventExperiment e rfl
      by_cases hid : id = c.experimentId
      · simp [hid, hexperiment]
      · have hne : ¬ e.experimentId = id := by
          rw [hexperiment]
          exact fun heq => hid heq.symm
        simp [hid, hne]

end Steps

/-! ## The invariant -/

/-- The events imply the status and count the assignments up to the width of the
attempt. -/
def Follows (events : List ExperimentEventEntity) (row : ExperimentEntity) : Prop :=
  (∃ e, lastChange events = some e ∧ row.status = impliedStatus e.type) ∧
    row.attempt = Int32.ofNat (assignedCount events)

/-- The invariant of the tables. -/
structure Chronicled (db : Database) : Prop where
  keyed : db.experiments.get? 0 = none
  missing : ∀ id, db.experiments.get? id = none → eventsOf db id = []
  rows : ∀ id row, db.experiments.get? id = some row → Follows (eventsOf db id) row

section Invariant

variable {events : List ExperimentEventEntity} {e : ExperimentEventEntity}

variable (events) in
theorem lastChange_append_of_ne
    (h : e.type ≠ .cancelRequested) :
    lastChange (events ++ [e]) = some e := by
  simp [lastChange, List.filter_append, h]

theorem lastChange_append_of_eq
    (h : e.type = .cancelRequested) :
    lastChange (events ++ [e]) = lastChange events := by
  simp [lastChange, List.filter_append, h]

theorem assignedCount_append :
    assignedCount (events ++ [e]) = assignedCount events + if e.type = .assigned then 1 else 0 := by
  simp [assignedCount, List.countP_append, List.countP_cons]

/-- The row and the events move on together. -/
theorem Follows.next
    {row row' : ExperimentEntity} {event : Option ExperimentEventEntity} {c : CoordinatorCommand}
    (h : Follows events row)
    (hnext : Lifecycle.next (some (lifecycleOf row)) c = some (lifecycleOf row'))
    (htype : event.map (fun e => e.type) = Lifecycle.eventType (some (lifecycleOf row)) c) :
    Follows (events ++ event.toList) row' := by
  obtain ⟨⟨last, hlast, hstatus⟩, hattempt⟩ := h
  have hspec := Lifecycle.next_spec hnext
  rw [← htype] at hspec
  cases event with
  | none =>
      obtain ⟨hsame, hsame'⟩ := hspec
      simp only [Option.toList_none, List.append_nil]
      exact ⟨⟨last, hlast, hsame.trans hstatus⟩, hsame'.trans hattempt⟩
  | some e =>
      simp only [Option.toList_some]
      unfold Follows
      rw [assignedCount_append]
      simp only [Option.map_some] at hspec
      by_cases hrequest : e.type = .cancelRequested
      · rw [hrequest] at hspec
        rw [lastChange_append_of_eq hrequest, hrequest]
        exact ⟨⟨last, hlast, hspec.1.trans hstatus⟩, hspec.2.trans hattempt⟩
      · rw [lastChange_append_of_ne _ hrequest]
        by_cases hassigned : e.type = .assigned
        · rw [hassigned] at hspec
          refine ⟨⟨e, rfl, ?_⟩, ?_⟩
          · rw [hassigned]
            exact hspec.1
          · rw [if_pos hassigned, Int32.ofNat_add, ← hattempt]
            exact hspec.2
        · have hother : row'.status = impliedStatus e.type ∧ row'.attempt = row.attempt := by
            cases hchange : e.type with
            | cancelRequested => exact absurd hchange hrequest
            | assigned => exact absurd hchange hassigned
            | _ =>
                rw [hchange] at hspec
                exact hspec
          refine ⟨⟨e, rfl, hother.1⟩, ?_⟩
          rw [if_neg hassigned]
          exact hother.2.trans hattempt

theorem Follows.created
    {row : ExperimentEntity} {event : Option ExperimentEventEntity} {c : CoordinatorCommand}
    (hnext : Lifecycle.next none c = some (lifecycleOf row))
    (htype : event.map (fun e => e.type) = Lifecycle.eventType none c) :
    Follows event.toList row := by
  obtain ⟨hcreated, hstatus, hattempt⟩ := Lifecycle.next_none hnext
  rw [hcreated] at htype
  obtain ⟨e, rfl, hcreated'⟩ := Option.map_eq_some_iff.mp htype
  have hne : e.type ≠ .cancelRequested := by
    rw [hcreated']
    rintro ⟨⟩
  refine ⟨⟨e, lastChange_append_of_ne [] hne, ?_⟩, ?_⟩
  · rw [hcreated']
    exact hstatus
  · rw [show row.attempt = 0 from hattempt]
    simp [assignedCount, hcreated']

theorem chronicled_empty : Chronicled Database.empty where
  keyed := rfl
  missing _ _ := rfl
  rows _ _ hrow := nomatch hrow

/-- Every command keeps the invariant. -/
theorem Chronicled.process
    {db : Database} {generate : ValueGenerator} {c : CoordinatorCommand}
    (h : Chronicled db) :
    Chronicled (db.process generate c) := by
  rcases process_cases generate c h.keyed with heq | ⟨row', event, happlies⟩
  · rw [heq]
    exact h
  obtain ⟨db', hdb'⟩ : ∃ db', db.process generate c = db' := ⟨_, rfl⟩
  rw [hdb'] at happlies ⊢
  have hkeyed := happlies.experimentId_ne_zero h.keyed
  constructor
  · rw [happlies.experiments, if_neg (Ne.symm hkeyed)]
    exact h.keyed
  · intro id hmissing
    rw [happlies.experiments] at hmissing
    rw [happlies.eventsOf_eq]
    by_cases hid : id = c.experimentId
    · rw [if_pos hid] at hmissing
      cases hmissing
    · rw [if_neg hid] at hmissing ⊢
      rw [h.missing id hmissing, List.append_nil]
  · intro id row hrow
    rw [happlies.experiments] at hrow
    rw [happlies.eventsOf_eq]
    by_cases hid : id = c.experimentId
    · rw [if_pos hid] at hrow ⊢
      obtain rfl := Option.some.inj hrow
      have hnext := happlies.next
      have htype := happlies.eventType
      rw [← hid] at hnext htype
      cases hbefore : db.experiments.get? id with
      | none =>
          rw [hbefore] at hnext htype
          rw [h.missing id hbefore, List.nil_append]
          exact Follows.created hnext htype
      | some before =>
          rw [hbefore] at hnext htype
          exact (h.rows id before hbefore).next hnext htype
    · rw [if_neg hid] at hrow ⊢
      rw [List.append_nil]
      exact h.rows id row hrow

theorem chronicled_of_reachable
    {db : Database}
    (h : processor.Reachable System.anyStep db) :
    Chronicled db := by
  refine System.Reachable.invariant chronicled_empty ?_ h
  intro db request db' _ hinv _ hstep
  cases hstep
  exact hinv.process

/-- A row in a final status stays for ever. -/
theorem Chronicled.final
    {db db' : Database} {id : Guid} {row : ExperimentEntity}
    (h : Chronicled db)
    (hrow : db.experiments.get? id = some row)
    (hterminal : row.status.Terminal)
    (hrun : processor.Reaches System.anyStep db db') :
    db'.experiments.get? id = some row ∧ Chronicled db' := by
  induction hrun with
  | refl => exact ⟨hrow, h⟩
  | tail _ _ hstep ih =>
      cases hstep
      exact ⟨process_of_next_none ih.2.keyed ih.1
        (fun _ => Lifecycle.next_of_terminal hterminal), ih.2.process⟩

end Invariant

/-- **Rows and events.**  In every reachable state a row is told by its events
exactly if the number of its assignments fits into the attempt. -/
theorem told_iff_lt
    {db : Database} {id : Guid} {row : ExperimentEntity}
    (h : processor.Reachable System.anyStep db)
    (hrow : db.experiments.get? id = some row) :
    Told db id row ↔ assignedCount (eventsOf db id) < 2 ^ 31 := by
  have hinv := chronicled_of_reachable h
  obtain ⟨hstatus, hattempt⟩ := hinv.rows id row hrow
  constructor
  · intro htold
    have hcount := htold.attempt
    have hlt := row.attempt.toInt_lt
    omega
  · intro hlt
    refine ⟨?_, hstatus, ?_, ?_⟩
    · rw [hattempt]
      exact Int32.toInt_ofNat_of_lt hlt
    · intro hterminal db' hrun
      exact (hinv.final hrow hterminal hrun).1
    · intro generate c _ hmisnames
      exact process_of_next_none hinv.keyed hrow
        (fun _ => Lifecycle.next_of_misnames hmisnames)

/-! ## An experiment that is assigned and requeued -/

/-- A number as an identifier. -/
def guid (k : Nat) : Guid := BitVec.ofNat 128 k

/-- The first identifiers. -/
def guids (k : Nat) : List Guid := (List.range k).map (fun i => guid (i + 1))

theorem guid_ne_zero
    {k : Nat}
    (hpos : 0 < k)
    (hlt : k < 2 ^ 128) :
    guid k ≠ 0 := by
  intro h
  have hnat := congrArg BitVec.toNat h
  simp only [guid, BitVec.toNat_ofNat, Nat.mod_eq_of_lt hlt] at hnat
  exact absurd hnat (Nat.pos_iff_ne_zero.mp hpos)

theorem guid_not_mem
    {k : Nat}
    (hlt : k + 1 < 2 ^ 128) :
    guid (k + 1) ∉ guids k := by
  intro hmem
  obtain ⟨i, hi, heq⟩ := List.mem_map.mp hmem
  have hik := List.mem_range.mp hi
  have hnat := congrArg BitVec.toNat heq
  simp only [guid, BitVec.toNat_ofNat, Nat.mod_eq_of_lt hlt,
    Nat.mod_eq_of_lt (show i + 1 < 2 ^ 128 by omega)] at hnat
  omega

theorem guids_succ (k : Nat) : guids (k + 1) = guids k ++ [guid (k + 1)] := by
  simp [guids, List.range_succ]

/-- At most one experiment exists, and a number of identifiers is used. -/
def onlyExperiment (l : Option Lifecycle) (used : Nat) : Lifecycles :=
  ⟨fun id => if id = 1 then l else none, guids used⟩

/-- A generator that is never asked for a key. -/
def unusedGenerator : ValueGenerator := fun _ => ⟨1, Raft.guid_one_ne_zero⟩

/-- The processor reaches a state with at most one experiment. -/
def Loops (l : Option Lifecycle) (used : Nat) : Prop :=
  ∃ db, processor.Reachable System.anyStep db ∧ Reflects db (onlyExperiment l used) (guids used)

/-- A command with new identifiers follows the lifecycle. -/
theorem Loops.next
    {l : Option Lifecycle} {l' : Lifecycle} {used : Nat} {c : CoordinatorCommand}
    (h : Loops l used)
    (hlt : used + 1 < 2 ^ 128)
    (hexperiment : c.experimentId = 1)
    (hcommand : c.commandId = guid (used + 1))
    (hevent : c.eventId = guid (used + 1))
    (hrecords : Lifecycle.recordsEvent l c = true)
    (hnext : Lifecycle.next l c = some l') :
    Loops (some l') (used + 1) := by
  obtain ⟨db, hreach, hr⟩ := h
  have hne : guid (used + 1) ≠ 0 := guid_ne_zero (Nat.succ_pos used) hlt
  have hfree := guid_not_mem hlt
  have hrow : (onlyExperiment l used).experiments c.experimentId = l := by
    rw [hexperiment]
    rfl
  have hmatches := apply_matches unusedGenerator hr (by rw [hcommand]; exact hne)
    (by rw [hcommand]; exact hfree)
  have hmoves : (onlyExperiment l used).next unusedGenerator c =
      some (onlyExperiment (some l') (used + 1)) := by
    have hkey : keyOnAdd unusedGenerator (onlyExperiment l used).events c.eventId =
        guid (used + 1) := by
      rw [hevent, keyOnAdd_of_ne_zero hne]
    have hupdate : Function.update (onlyExperiment l used).experiments 1 (some l') =
        (onlyExperiment (some l') (used + 1)).experiments := by
      funext id
      by_cases hid : id = 1
      · subst hid
        rfl
      · rw [Function.update_of_ne hid]
        exact (if_neg hid).trans (if_neg hid).symm
    unfold Lifecycles.next
    rw [hrow, hnext]
    simp only [hrecords]
    unfold Lifecycles.record
    simp only [if_true]
    rw [hkey, hexperiment, hupdate, if_neg (show guid (used + 1) ∉
      (onlyExperiment l used).events from hfree)]
    simp only [onlyExperiment, guids_succ]
  rw [hmoves] at hmatches
  obtain ⟨db', r, happly, hr'⟩ := hmatches
  refine ⟨db', System.Reaches.tail (l := (unusedGenerator, c)) hreach trivial ?_, ?_⟩
  · simp only [processor, Database.process, happly]
  · rw [hcommand, ← guids_succ] at hr'
    exact hr'

theorem loops_none : Loops none 0 := by
  refine ⟨Database.empty, System.Reaches.refl _, ?_, rfl, rfl, rfl⟩
  intro id
  exact (ite_self _).symm

/-- After any number of assignments and worker failures the experiment waits. -/
theorem loops_of_rounds
    (k : Nat)
    (hlt : 2 * k + 1 < 2 ^ 128) :
    Loops (some ⟨.pending, none, Int32.ofNat k, false⟩) (2 * k + 1) := by
  induction k with
  | zero =>
      refine loops_none.next (c := .createExperiment ⟨guid 1, 0, 1, guid 1, "", "", "", 0, 0, 0, 0,
        false⟩) (by decide) rfl rfl rfl rfl ?_
      rfl
  | succ k ih =>
      have hassigned : Loops (some ⟨.running, some "worker", Int32.ofNat (k + 1), false⟩)
          (2 * k + 2) := by
        refine (ih (by omega)).next (c := .assignExperiment ⟨guid (2 * k + 2), 0, 1,
          guid (2 * k + 2), "worker", Int32.ofNat (k + 1)⟩) (by omega) rfl rfl rfl rfl ?_
        simp [Lifecycle.next, Int32.ofNat_add]
      refine hassigned.next (c := .requeueExperiment ⟨guid (2 * k + 3), 0, 1, guid (2 * k + 3),
        "worker", Int32.ofNat (k + 1), false⟩) (by omega) rfl rfl rfl rfl ?_
      simp [Lifecycle.next]

/-- **The attempt overflows.**  After `2 ^ 31` assignments the attempt is negative. -/
theorem exists_not_told :
    ∃ db row, processor.Reachable System.anyStep db ∧ db.experiments.get? 1 = some row ∧
      row.status = .pending ∧ row.attempt.toInt = -2 ^ 31 ∧ ¬ Told db 1 row := by
  obtain ⟨db, hreach, hr⟩ := loops_of_rounds (2 ^ 31) (by decide)
  have hrow := hr.experiments 1
  simp only [onlyExperiment, if_true, Option.map_eq_some_iff] at hrow
  obtain ⟨row, hget, hlifecycle⟩ := hrow
  have hattempt : row.attempt.toInt = -2 ^ 31 := by
    rw [show row.attempt = Int32.ofNat (2 ^ 31) from congrArg Lifecycle.attempt hlifecycle]
    decide
  refine ⟨db, row, hreach, hget, congrArg Lifecycle.status hlifecycle, hattempt, ?_⟩
  intro htold
  have hcount := htold.attempt
  omega

/-- After one assignment the row is told by its events. -/
theorem told_sample :
    ∃ db row, processor.Reachable System.anyStep db ∧ db.experiments.get? 1 = some row ∧
      Told db 1 row := by
  have hrun : ∃ db : Database, processor.Reaches System.anyStep Database.empty db ∧
      (db.experiments.get? 1).isSome = true ∧ assignedCount (eventsOf db 1) < 2 ^ 31 := by
    refine System.exists_reaches_of_exec
      [(unusedGenerator, .createExperiment ⟨1, 0, 1, 1, "", "", "", 0, 0, 0, 0, false⟩),
        (unusedGenerator, .assignExperiment ⟨2, 0, 1, 2, "worker", 1⟩)] ?_
    decide +kernel
  obtain ⟨db, hreach, hsome, hlt⟩ := hrun
  obtain ⟨row, hrow⟩ := Option.isSome_iff_exists.mp hsome
  exact ⟨db, row, hreach, hrow, (told_iff_lt hreach hrow).mpr hlt⟩

end Coordinator
end DistributedConsensus
