import DistributedConsensus.GoPbft.Replica
import Mathlib.Logic.Relation

/-!
# PBFT replica: what a handler may do

The handlers of a replica have few effects on the data that safety depends on:
it enters a view, proposes, accepts a PRE-PREPARE, counts a vote, multicasts its
COMMIT, marks an entry as committed and executes it.  `Acts` lists them with
their conditions, and handling a message is a sequence of them.

The conditions refer to the messages that may be received (`P`), to the entries
whose digest may be replaced (`R`) and to the proposals that may be made (`Q`).
-/

namespace DistributedConsensus
namespace GoPbft

open Foundations

namespace RunState

variable (n : ℕ) (digestOf : ClientRequest → String)

section Conditions

/-- The entry whose digest the message replaces: the PRE-PREPARE names another
digest than the votes that came first, or the digest of the entry is still the
empty text and a vote sets it. -/
def rewritten (rs : RunState) (m : PBFTMessage) : Option LogEntry :=
  match m.kind with
  | .prePrepare view seq digest _ =>
      if rs.active = false ∨ view ≠ rs.view ∨ m.sender ≠ rs.primary n then none
      else (rs.currentEntry view seq).filter fun entry =>
        entry.prePrepared = false ∧ entry.digest ≠ digest
  | .prepare view seq digest | .commit view seq digest =>
      if rs.active = false ∨ view ≠ rs.view then none
      else (rs.currentEntry view seq).filter fun entry =>
        entry.digest = "" ∧ entry.digest ≠ digest
  | _ => none

/-- The view, the sequence number and the digest that the replica proposes when
it receives the message. -/
def proposal (rs : RunState) (m : PBFTMessage) : Option (ℤ × ℤ × String) :=
  match m.kind with
  | .request req =>
      if rs.active ∧ rs.isPrimary n then some (rs.view, rs.nextSeq, digestOf req) else none
  | .viewChange nv _ pending =>
      let rs := rs.joinViewChange n m.sender nv pending
      if rs.completes n nv then
        rs.pendingRequest.map fun req => (nv, rs.lastExecuted + 1, digestOf req)
      else none
  | _ => none

end Conditions

/-- Nothing that safety depends on has changed. -/
structure Quiet (rs rs' : RunState) : Prop where
  id : rs'.id = rs.id
  view : rs'.view = rs.view
  active : rs'.active = true → rs.active = true
  nextSeq : rs'.nextSeq = rs.nextSeq
  lastExecuted : rs'.lastExecuted = rs.lastExecuted
  logs : rs'.logs = rs.logs
  executions : rs'.executions = rs.executions
  sent : rs'.sent = rs.sent

/-- The entry for a sequence number in the current view: the one of the log, or
a new one when there is none or a stale one. -/
def Current (rs : RunState) (seq : ℤ) (digest : String) (entry : LogEntry) : Prop :=
  entry = (rs.currentEntry rs.view seq).getD (newLogEntry rs.view digest)

/-- The effects of a handler. -/
inductive Acts (P : PBFTMessage → Prop) (R : LogEntry → Prop) (Q : ℤ → ℤ → String → Prop)
    (rs : RunState) : RunState → Prop
  | quiet {rs' : RunState} : Quiet rs rs' → Acts P R Q rs rs'
  | suspect (nv : ℤ) : Acts P R Q rs (rs.sendViewChange n nv)
  | lead {nv : ℤ} (proofs : List ℕ) : rs.view < nv → primaryFor nv n = rs.id →
      Acts P R Q rs ((rs.enterView nv).broadcast (List.range n) (.newView nv proofs))
  | follow {nv : ℤ} {proofs : List ℕ} : P ⟨primaryFor nv n, .newView nv proofs⟩ →
      rs.view ≤ nv → Acts P R Q rs (rs.enterView nv)
  | propose {req : ClientRequest} : primaryFor rs.view n = rs.id →
      Q rs.view rs.nextSeq (digestOf req) → Acts P R Q rs (rs.propose n digestOf req)
  | accept {seq : ℤ} {digest : String} {req : ClientRequest} {entry : LogEntry}
      (prepares : Finset ℕ) :
      P ⟨primaryFor rs.view n, .prePrepare rs.view seq digest req⟩ →
      rs.Current seq digest entry → (entry.prePrepared = true → entry.digest = digest) →
      (entry.digest ≠ digest → R entry) →
      Acts P R Q rs (rs.accept n { entry with prepares := prepares } seq digest req)
  | votePrepare {seq : ℤ} {digest : String} {entry : LogEntry} (j : ℕ) :
      P ⟨j, .prepare rs.view seq digest⟩ → rs.Current seq digest entry →
      (entry.digest ≠ digest → R entry) →
      Acts P R Q rs { rs with
        logs := rs.logs.set seq
          { entry with digest := digest, prepares := insert j entry.prepares } }
  | voteCommit {seq : ℤ} {digest : String} {entry : LogEntry} (j : ℕ) :
      P ⟨j, .commit rs.view seq digest⟩ → rs.Current seq digest entry →
      (entry.digest ≠ digest → R entry) →
      Acts P R Q rs { rs with
        logs := rs.logs.set seq
          { entry with digest := digest, commits := insert j entry.commits } }
  | fire {seq : ℤ} {entry : LogEntry} : rs.logs.get? seq = some entry →
      entry.prePrepared = true → entry.preparedFired = false →
      quorumSize n ≤ entry.prepares.card →
      (entry.view = rs.view ∨ entry.committed = true) →
      (∃ j, P ⟨j, .prepare rs.view seq entry.digest⟩ ∨
        ∃ req, P ⟨j, .prePrepare rs.view seq entry.digest req⟩) →
      Acts P R Q rs ({ rs with
        logs := rs.logs.set seq { entry with
          preparedFired := true
          commits := insert rs.id entry.commits } }.broadcast (rs.others n)
            (.commit rs.view seq entry.digest))
  | commit {seq : ℤ} {entry : LogEntry} : rs.logs.get? seq = some entry →
      entry.committed = false → entry.prePrepared = true →
      quorumSize n ≤ entry.commits.card → rs.active = true → entry.view = rs.view →
      Acts P R Q rs { rs with logs := rs.logs.set seq { entry with committed := true } }
  | execute {entry : LogEntry} : rs.logs.get? (rs.lastExecuted + 1) = some entry →
      entry.committed = true → Acts P R Q rs (rs.execute digestOf entry)

/-- A sequence of effects. -/
abbrev Runs (P : PBFTMessage → Prop) (R : LogEntry → Prop) (Q : ℤ → ℤ → String → Prop) :
    RunState → RunState → Prop :=
  Relation.ReflTransGen (Acts n digestOf P R Q)

variable {n} {digestOf} {P : PBFTMessage → Prop} {R : LogEntry → Prop}
  {Q : ℤ → ℤ → String → Prop} {rs rs' : RunState}

theorem currentEntry_spec
    {view seq : ℤ} {entry : LogEntry}
    (h : rs.currentEntry view seq = some entry) :
    rs.logs.get? seq = some entry ∧ (entry.view = view ∨ entry.committed = true) := by
  unfold currentEntry at h
  split at h
  case h_1 => cases h
  case h_2 e he =>
    split at h
    case isTrue => cases h
    case isFalse hcurrent =>
      obtain rfl := Option.some.inj h
      refine ⟨he, ?_⟩
      by_cases hview : e.view = view
      · exact Or.inl hview
      · right
        by_contra hnot
        exact hcurrent ⟨hview, by simpa using hnot⟩

/-- The entry for the current view is the one of the log, or a new one when the
log has none or a stale one. -/
theorem Current.cases
    {seq : ℤ} {digest : String} {entry : LogEntry}
    (h : rs.Current seq digest entry) :
    (entry = newLogEntry rs.view digest ∧ ∀ old, rs.logs.get? seq = some old →
      old.view ≠ rs.view ∧ old.committed = false) ∨
    rs.logs.get? seq = some entry ∧ (entry.view = rs.view ∨ entry.committed = true) := by
  unfold Current at h
  cases hcurrent : rs.currentEntry rs.view seq with
  | none =>
      rw [hcurrent] at h
      refine Or.inl ⟨h, fun old hold => ?_⟩
      by_contra hfresh
      rw [currentEntry, hold] at hcurrent
      simp only [hfresh, if_false] at hcurrent
      cases hcurrent
  | some e =>
      rw [hcurrent] at h
      obtain rfl : entry = e := h
      exact Or.inr (currentEntry_spec hcurrent)

section Execution

theorem executeLoop_runs (k : ℕ) (rs : RunState) :
    Runs n digestOf P R Q rs (rs.executeLoop digestOf k) := by
  induction k generalizing rs with
  | zero => exact Relation.ReflTransGen.refl
  | succ k ih =>
      rw [executeLoop]
      split
      case h_1 => exact Relation.ReflTransGen.refl
      case h_2 e he =>
        split
        case isTrue => exact Relation.ReflTransGen.refl
        case isFalse hready =>
          refine Relation.ReflTransGen.head (Acts.execute he ?_) (ih _)
          by_contra hnot
          exact hready (Or.inl (by simpa using hnot))

/-- Counting the COMMITs of an entry that was just voted for. -/
theorem maybeExecute_runs
    {seq : ℤ}
    (hactive : rs.active = true)
    (hcurrent : ∀ entry, rs.logs.get? seq = some entry →
      entry.view = rs.view ∨ entry.committed = true) :
    Runs n digestOf P R Q rs (rs.maybeExecute n digestOf seq) := by
  unfold maybeExecute
  split
  case h_1 => exact Relation.ReflTransGen.refl
  case h_2 e he =>
    split
    case isTrue => exact Relation.ReflTransGen.refl
    case isFalse hopen =>
      split
      case isTrue => exact Relation.ReflTransGen.refl
      case isFalse hquorum =>
        have hfresh : e.committed = false := by
          by_contra hnot
          exact hopen (Or.inl (by simpa using hnot))
        refine Relation.ReflTransGen.head
          (Acts.commit he hfresh ?_ (not_lt.mp hquorum) hactive ((hcurrent e he).resolve_right ?_))
          (executeLoop_runs _ _)
        · by_contra hnot
          exact hopen (Or.inr (by simpa using hnot))
        · rw [hfresh]
          exact nofun

/-- The COMMIT of an entry that was just accepted or voted for. -/
theorem maybeCommit_runs
    {seq : ℤ}
    (hactive : rs.active = true)
    (hcurrent : ∀ entry, rs.logs.get? seq = some entry →
      (entry.view = rs.view ∨ entry.committed = true) ∧
        ∃ j, P ⟨j, .prepare rs.view seq entry.digest⟩ ∨
          ∃ req, P ⟨j, .prePrepare rs.view seq entry.digest req⟩) :
    Runs n digestOf P R Q rs (rs.maybeCommit n digestOf seq) := by
  unfold maybeCommit
  split
  case h_1 => exact Relation.ReflTransGen.refl
  case h_2 e he =>
    obtain ⟨hview, hnamed⟩ := hcurrent e he
    split
    case isTrue => exact Relation.ReflTransGen.refl
    case isFalse hopen =>
      split
      case isTrue => exact Relation.ReflTransGen.refl
      case isFalse hquorum =>
        refine Relation.ReflTransGen.head
          (Acts.fire he ?_ ?_ (not_lt.mp hquorum) hview hnamed)
          (maybeExecute_runs hactive fun entry hget => ?_)
        · by_contra hnot
          exact hopen (Or.inr (by simpa using hnot))
        · by_contra hnot
          exact hopen (Or.inl (by simpa using hnot))
        · change (rs.logs.set seq _).get? seq = some entry at hget
          rw [Dict.get?_set, if_pos rfl] at hget
          obtain rfl := Option.some.inj hget
          exact hview

end Execution

section Normal

theorem resetTimer_acts (rs : RunState) : Acts n digestOf P R Q rs rs.resetTimer :=
  Acts.quiet ⟨rfl, rfl, fun h => h, rfl, rfl, rfl, rfl, rfl⟩

theorem handleClientRequest_runs
    {req : ClientRequest} {sender : ℕ}
    (hQ : ∀ v s d, rs.proposal n digestOf ⟨sender, .request req⟩ = some (v, s, d) → Q v s d) :
    Runs n digestOf P R Q rs (rs.handleClientRequest n digestOf req) := by
  have hrest : ∀ rs₁ : RunState, rs₁.id = rs.id → rs₁.view = rs.view → rs₁.active = rs.active →
      rs₁.nextSeq = rs.nextSeq → Runs n digestOf P R Q rs₁
        (if rs₁.active = false then rs₁
        else if rs₁.isPrimary n = false then rs₁.resetTimer
        else (rs₁.propose n digestOf req).resetTimer) := by
    intro rs₁ hid hview hactive hnext
    split
    case isTrue => exact Relation.ReflTransGen.refl
    case isFalse hrunning =>
      split
      case isTrue => exact Relation.ReflTransGen.single (resetTimer_acts _)
      case isFalse hprimary =>
        rw [Bool.not_eq_false] at hrunning hprimary
        refine Relation.ReflTransGen.tail (Relation.ReflTransGen.single (Acts.propose ?_ ?_))
          (resetTimer_acts _)
        · simpa [isPrimary, primary] using hprimary
        · refine hQ _ _ _ ?_
          simp only [isPrimary, primary, hid, hview] at hprimary
          rw [hactive] at hrunning
          simp [proposal, isPrimary, primary, hprimary, hrunning, hview, hnext]
  have hpending : Acts n digestOf P R Q rs { rs with
      pendingRequest := if rs.pendingRequest = none then some req else rs.pendingRequest } :=
    Acts.quiet ⟨rfl, rfl, fun h => h, rfl, rfl, rfl, rfl, rfl⟩
  unfold handleClientRequest
  exact Relation.ReflTransGen.trans (Relation.ReflTransGen.single hpending)
    (hrest _ rfl rfl rfl rfl)

theorem handlePrePrepare_runs
    {sender : ℕ} {view seq : ℤ} {digest : String} {req : ClientRequest}
    (hP : P ⟨sender, .prePrepare view seq digest req⟩)
    (hR : ∀ entry, rs.rewritten n ⟨sender, .prePrepare view seq digest req⟩ = some entry →
      R entry) :
    Runs n digestOf P R Q rs (rs.handlePrePrepare n digestOf sender view seq digest req) := by
  unfold handlePrePrepare
  split
  case isTrue => exact Relation.ReflTransGen.refl
  case isFalse hopen =>
    push Not at hopen
    obtain ⟨hactive, rfl⟩ := hopen
    have hrunning : rs.active = true := by simpa using hactive
    split
    case isTrue => exact Relation.ReflTransGen.refl
    case isFalse hsender =>
      rw [not_not] at hsender
      subst hsender
      -- Accepting, then the COMMIT of the accepted entry.
      have hrun : ∀ (entry : LogEntry) (prepares : Finset ℕ), rs.Current seq digest entry →
          (entry.prePrepared = true → entry.digest = digest) →
          (entry.digest ≠ digest → R entry) →
          Runs n digestOf P R Q rs (((rs.accept n { entry with prepares := prepares } seq digest
            req).resetTimer).maybeCommit n digestOf seq) := by
        intro entry prepares hcurrent hsame hrewrite
        refine Relation.ReflTransGen.head (Acts.accept prepares hP hcurrent hsame hrewrite)
          (Relation.ReflTransGen.head (resetTimer_acts _) (maybeCommit_runs hrunning ?_))
        intro e he
        change (rs.logs.set seq _).get? seq = some e at he
        rw [Dict.get?_set, if_pos rfl] at he
        obtain rfl := Option.some.inj he
        refine ⟨?_, _, Or.inr ⟨req, hP⟩⟩
        rcases hcurrent.cases with ⟨rfl, -⟩ | ⟨-, hview⟩
        · exact Or.inl rfl
        · exact hview
      split
      case h_1 e he =>
        have hcurrent : rs.Current seq digest e := by
          unfold Current
          rw [he]
          rfl
        split
        case isTrue => exact Relation.ReflTransGen.refl
        case isFalse hconflict =>
          have hsame : e.prePrepared = true → e.digest = digest := by
            intro hpre
            by_contra hne
            exact hconflict ⟨hpre, hne⟩
          have hrewrite : e.digest ≠ digest → R e := by
            intro hne
            refine hR e ?_
            have hpre : e.prePrepared = false := by
              by_contra hnot
              exact hne (hsame (by simpa using hnot))
            simp [rewritten, hactive, he, hpre, hne]
          split
          case isTrue => exact hrun e ∅ hcurrent hsame hrewrite
          case isFalse => exact hrun e e.prepares hcurrent hsame hrewrite
      case h_2 hnone =>
        have hcurrent : rs.Current seq digest (newLogEntry rs.view digest) := by
          unfold Current
          rw [hnone]
          rfl
        exact hrun _ ∅ hcurrent (fun h => absurd h (by simp [newLogEntry]))
          (fun h => absurd rfl h)

/-- The entry a vote is counted in. -/
theorem votedEntry_spec
    {seq : ℤ} {digest : String} {entry : LogEntry}
    (h : rs.votedEntry rs.view seq digest = some entry) :
    ∃ e, rs.Current seq digest e ∧ (e.digest ≠ digest → e.digest = "") ∧
      entry = { e with digest := digest } := by
  unfold votedEntry at h
  dsimp only at h
  refine ⟨(rs.currentEntry rs.view seq).getD (newLogEntry rs.view digest), rfl, ?_⟩
  generalize (rs.currentEntry rs.view seq).getD (newLogEntry rs.view digest) = e at h ⊢
  by_cases hempty : e.digest = ""
  · rw [if_pos hempty, if_neg (by simp)] at h
    exact ⟨fun _ => hempty, (Option.some.inj h).symm⟩
  · rw [if_neg hempty] at h
    split at h
    case isTrue => cases h
    case isFalse hsame =>
      rw [not_not] at hsame
      subst hsame
      exact ⟨fun hne => absurd rfl hne, (Option.some.inj h).symm⟩

/-- A vote that replaces the digest of its entry is one that the condition on
such votes is about. -/
theorem rewritten_of_current
    {m : PBFTMessage} {seq : ℤ} {digest : String} {e : LogEntry}
    (hactive : rs.active = true)
    (hkind : m.kind = .prepare rs.view seq digest ∨ m.kind = .commit rs.view seq digest)
    (hcurrent : rs.Current seq digest e)
    (hempty : e.digest = "")
    (hne : e.digest ≠ digest) :
    rs.rewritten n m = some e := by
  unfold Current at hcurrent
  cases hget : rs.currentEntry rs.view seq with
  | none =>
      rw [hget] at hcurrent
      subst hcurrent
      exact absurd rfl hne
  | some e' =>
      rw [hget] at hcurrent
      obtain rfl : e = e' := hcurrent
      rw [hempty] at hne
      rcases hkind with hkind | hkind
      all_goals simp [rewritten, hkind, hactive, hget, hempty, hne]

theorem handlePrepare_runs
    {sender : ℕ} {view seq : ℤ} {digest : String}
    (hP : P ⟨sender, .prepare view seq digest⟩)
    (hR : ∀ entry, rs.rewritten n ⟨sender, .prepare view seq digest⟩ = some entry → R entry) :
    Runs n digestOf P R Q rs (rs.handlePrepare n digestOf sender view seq digest) := by
  unfold handlePrepare
  split
  case isTrue => exact Relation.ReflTransGen.refl
  case isFalse hopen =>
    push Not at hopen
    obtain ⟨hactive, rfl⟩ := hopen
    have hrunning : rs.active = true := by simpa using hactive
    split
    case h_1 => exact Relation.ReflTransGen.refl
    case h_2 entry hentry =>
      obtain ⟨e, hcurrent, hempty, rfl⟩ := votedEntry_spec hentry
      refine Relation.ReflTransGen.head (Acts.votePrepare sender hP hcurrent ?_)
        (Relation.ReflTransGen.head (resetTimer_acts _) (maybeCommit_runs hrunning ?_))
      · intro hne
        exact hR e (rewritten_of_current hrunning (Or.inl rfl) hcurrent
          (hempty hne) hne)
      · intro e' he
        change (rs.logs.set seq _).get? seq = some e' at he
        rw [Dict.get?_set, if_pos rfl] at he
        obtain rfl := Option.some.inj he
        refine ⟨?_, sender, Or.inl hP⟩
        rcases hcurrent.cases with ⟨rfl, -⟩ | ⟨-, hview⟩
        · exact Or.inl rfl
        · exact hview

theorem handleCommit_runs
    {sender : ℕ} {view seq : ℤ} {digest : String}
    (hP : P ⟨sender, .commit view seq digest⟩)
    (hR : ∀ entry, rs.rewritten n ⟨sender, .commit view seq digest⟩ = some entry → R entry) :
    Runs n digestOf P R Q rs (rs.handleCommit n digestOf sender view seq digest) := by
  unfold handleCommit
  split
  case isTrue => exact Relation.ReflTransGen.refl
  case isFalse hopen =>
    push Not at hopen
    obtain ⟨hactive, rfl⟩ := hopen
    have hrunning : rs.active = true := by simpa using hactive
    split
    case h_1 => exact Relation.ReflTransGen.refl
    case h_2 entry hentry =>
      obtain ⟨e, hcurrent, hempty, rfl⟩ := votedEntry_spec hentry
      refine Relation.ReflTransGen.head (Acts.voteCommit sender hP hcurrent ?_)
        (Relation.ReflTransGen.head (resetTimer_acts _) (maybeExecute_runs hrunning ?_))
      · intro hne
        exact hR e (rewritten_of_current hrunning (Or.inr rfl) hcurrent
          (hempty hne) hne)
      · intro e' he
        change (rs.logs.set seq _).get? seq = some e' at he
        rw [Dict.get?_set, if_pos rfl] at he
        obtain rfl := Option.some.inj he
        rcases hcurrent.cases with ⟨rfl, -⟩ | ⟨-, hview⟩
        · exact Or.inl rfl
        · exact hview

end Normal

section ViewChange

theorem onTimeout_runs (rs : RunState) :
    Runs n digestOf P R Q rs (rs.onTimeout n) := by
  unfold onTimeout
  dsimp only
  refine Relation.ReflTransGen.head (b := { rs with timer := false })
    (Acts.quiet ⟨rfl, rfl, fun h => h, rfl, rfl, rfl, rfl, rfl⟩) ?_
  split
  case isTrue => exact Relation.ReflTransGen.refl
  case isFalse =>
    exact Relation.ReflTransGen.head (Acts.suspect _)
      (Relation.ReflTransGen.single (resetTimer_acts _))

theorem joinViewChange_runs
    (sender : ℕ) (nv : ℤ) (pending : Option ClientRequest) (rs : RunState) :
    Runs n digestOf P R Q rs (rs.joinViewChange n sender nv pending) := by
  have hrest : ∀ rs₁ : RunState, Runs n digestOf P R Q rs₁
      (if nv > rs₁.view ∧ weakQuorumSize n ≤ (rs₁.votesFor nv).length ∧ rs₁.id ∉ rs₁.votesFor nv then
        rs₁.sendViewChange n nv
      else rs₁) := by
    intro rs₁
    split
    case isTrue => exact Relation.ReflTransGen.single (Acts.suspect nv)
    case isFalse => exact Relation.ReflTransGen.refl
  have hvote : Acts n digestOf P R Q rs { rs.castViewChangeVote nv sender with
      pendingRequest := if rs.pendingRequest = none then pending else rs.pendingRequest } :=
    Acts.quiet ⟨rfl, rfl, fun h => h, rfl, rfl, rfl, rfl, rfl⟩
  unfold joinViewChange
  exact Relation.ReflTransGen.trans (Relation.ReflTransGen.single hvote) (hrest _)

theorem completeViewChange_runs
    {nv : ℤ}
    (hprimary : primaryFor nv n = rs.id)
    (hview : rs.view < nv)
    (hQ : ∀ req, rs.pendingRequest = some req → Q nv (rs.lastExecuted + 1) (digestOf req)) :
    Runs n digestOf P R Q rs (rs.completeViewChange n digestOf nv) := by
  unfold completeViewChange
  dsimp only
  refine Relation.ReflTransGen.head (Acts.lead (sortedProcessIDs (rs.votesFor nv)) hview hprimary) ?_
  split
  case h_1 req hreq =>
    exact Relation.ReflTransGen.head (Acts.propose hprimary (hQ req hreq))
      (Relation.ReflTransGen.single (resetTimer_acts _))
  case h_2 => exact Relation.ReflTransGen.single (resetTimer_acts _)

theorem handleViewChange_runs
    {sender : ℕ} {nv le : ℤ} {pending : Option ClientRequest}
    (hQ : ∀ v s d, rs.proposal n digestOf ⟨sender, .viewChange nv le pending⟩ = some (v, s, d) →
      Q v s d) :
    Runs n digestOf P R Q rs (rs.handleViewChange n digestOf sender nv pending) := by
  unfold handleViewChange
  dsimp only
  refine Relation.ReflTransGen.trans (joinViewChange_runs sender nv pending rs) ?_
  split
  case isTrue hcompletes =>
    obtain ⟨hprimary, -, hview⟩ := of_decide_eq_true hcompletes
    refine completeViewChange_runs hprimary hview fun req hreq => hQ _ _ _ ?_
    simp [proposal, hcompletes, hreq]
  case isFalse => exact Relation.ReflTransGen.refl

theorem handleNewView_runs
    {sender : ℕ} {nv : ℤ} {proofs : List ℕ}
    (hP : P ⟨sender, .newView nv proofs⟩) :
    Runs n digestOf P R Q rs (rs.handleNewView n sender nv proofs) := by
  unfold handleNewView
  split
  case isTrue => exact Relation.ReflTransGen.refl
  case isFalse hsender =>
    rw [not_not] at hsender
    subst hsender
    split
    case isTrue => exact Relation.ReflTransGen.refl
    case isFalse =>
      split
      case isTrue => exact Relation.ReflTransGen.refl
      case isFalse hview =>
        refine Relation.ReflTransGen.head (Acts.follow hP ?_)
          (Relation.ReflTransGen.single (resetTimer_acts _))
        by_contra hlt
        exact hview (Or.inl (not_le.mp hlt))

end ViewChange

/-- Handling a message is a sequence of effects. -/
theorem receive_runs
    {m : PBFTMessage}
    (hP : P m)
    (hR : ∀ entry, rs.rewritten n m = some entry → R entry)
    (hQ : ∀ v s d, rs.proposal n digestOf m = some (v, s, d) → Q v s d) :
    Runs n digestOf P R Q rs (rs.receive n digestOf m) := by
  obtain ⟨sender, kind⟩ := m
  cases kind with
  | request req => exact handleClientRequest_runs hQ
  | prePrepare view seq digest req => exact handlePrePrepare_runs hP hR
  | prepare view seq digest => exact handlePrepare_runs hP hR
  | commit view seq digest => exact handleCommit_runs hP hR
  | viewChange nv le pending => exact handleViewChange_runs hQ
  | newView nv proofs => exact handleNewView_runs hP

end RunState

end GoPbft
end DistributedConsensus
