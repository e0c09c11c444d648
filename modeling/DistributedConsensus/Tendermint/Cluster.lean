import DistributedConsensus.Foundations.Runs
import DistributedConsensus.Tendermint.Node

/-!
# Tendermint: a cluster over an unreliable network

The nodes of a configuration.  An iteration of the loop of a correct node takes
any list of messages from its inbox: messages that correct nodes have broadcast,
any number of times, in any order or never, and arbitrary messages of the
Byzantine nodes under their own ids.  Any of the scheduled timers may be due.
A crashed node is never started.
-/

namespace DistributedConsensus
namespace Tendermint

open Foundations

/-- The nodes by their ids. -/
abbrev Cluster := ℕ → Node

variable (cfg : SimConfig) (hash : String → String)

/-- A message that may arrive: sent by its sender, or made up by a Byzantine one. -/
def Cluster.Genuine (w : Cluster) (m : Message) : Prop :=
  m.sender ∈ cfg.byzantine ∨ m ∈ (w m.sender).sent

instance (w : Cluster) (m : Message) : Decidable (w.Genuine cfg m) :=
  inferInstanceAs (Decidable (_ ∨ _))

/-- One iteration of the loop of a node. -/
structure Iteration where
  node : ℕ
  received : List Message
  due : Timer → Bool
  rank : List String → String → ℕ

/-- The state before the first message: every correct node has started round 0. -/
def Cluster.init : Cluster := fun i =>
  if cfg.IsCorrect i then (Node.new i).startRound cfg hash 0 else Node.new i

def Cluster.step (w : Cluster) (l : Iteration) : Option Cluster :=
  if cfg.IsCorrect l.node ∧ ∀ m ∈ l.received, w.Genuine cfg m then
    some (Function.update w l.node ((w l.node).iterate cfg hash l.received l.due l.rank))
  else none

/-- The runs of a configuration. -/
def cluster : System Cluster Iteration where
  init := Cluster.init cfg hash
  step := fun w l => w.step cfg hash l

variable {cfg} {hash}

/-- The effect of one step. -/
theorem Cluster.step_spec
    {w w' : Cluster} {l : Iteration}
    (h : w.step cfg hash l = some w') :
    cfg.IsCorrect l.node ∧ (∀ m ∈ l.received, w.Genuine cfg m) ∧
      w' = Function.update w l.node
        ((w l.node).iterate cfg hash l.received l.due l.rank) := by
  unfold Cluster.step at h
  split at h
  case isTrue hok => exact ⟨hok.1, hok.2, (Option.some.inj h).symm⟩
  case isFalse => cases h

/-- What a node has sent stays genuine. -/
theorem Cluster.Genuine.mono
    {w w' : Cluster} {m : Message}
    (hsub : ∀ i, (w i).sent ⊆ (w' i).sent)
    (h : w.Genuine cfg m) :
    w'.Genuine cfg m :=
  h.imp_right fun hm => hsub _ hm

end Tendermint
end DistributedConsensus
