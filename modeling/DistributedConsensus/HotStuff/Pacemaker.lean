import DistributedConsensus.HotStuff.Types

/-!
# HotStuff: configuration and inputs of a replica

The pacemaker of `hotstuff/pacemaker.py`, the parameters a cluster is built
with, and the inputs a replica task reacts to.  Both replica classes are driven
through the same inputs: the task is started once, then it dispatches the
messages it receives; clients hand it commands and armed timers fire.
-/

namespace DistributedConsensus
namespace HotStuff

/-- Parameters of a cluster. -/
structure Config where
  n : Nat
  f : Nat
  /-- A pinned leader, or rotation by view. -/
  fixedLeader : Option Int
  /-- Whether view timeouts are armed. -/
  timeouts : Bool

namespace Config

/-- Votes that form a certificate. -/
def quorum (cfg : Config) : Nat := cfg.n - cfg.f

/-- The leader of a view. -/
def leader (cfg : Config) (view : Int) : Int :=
  match cfg.fixedLeader with
  | some l => l
  | none => view % cfg.n

/-- Whether a replica leads a view. -/
def isLeader (cfg : Config) (view : Int) (nodeId : Nat) : Bool :=
  cfg.leader view = nodeId

end Config

/-- What happens to one replica. -/
inductive Input (Cmd : Type) where
  /-- The task of the replica starts. -/
  | start
  /-- The task receives a message. -/
  | dispatch (m : Msg Cmd)
  /-- A client hands over a command. -/
  | submit (cmd : Cmd)
  /-- The armed timer fires. -/
  | timeout
  /-- The replica is stopped. -/
  | stop

/-- The first element with the greatest key, as `max` returns it. -/
def maxBy {α : Type} (key : α → Int) : List α → Option α
  | [] => none
  | a :: l =>
      match maxBy key l with
      | some b => if key a < key b then some b else some a
      | none => some a

theorem mem_of_maxBy
    {α : Type} {key : α → Int} {l : List α} {a : α}
    (h : maxBy key l = some a) :
    a ∈ l := by
  induction l with
  | nil => cases h
  | cons x l ih =>
      simp only [maxBy] at h
      split at h
      case h_1 b hb =>
        split at h
        case isTrue =>
          exact List.mem_cons_of_mem _ (ih (by rw [hb]; exact h))
        case isFalse =>
          cases h
          exact List.mem_cons_self
      case h_2 =>
        cases h
        exact List.mem_cons_self

end HotStuff
end DistributedConsensus
