import DistributedConsensus.HotStuff.ReplicaCases
import DistributedConsensus.HotStuff.ChainedCases
import DistributedConsensus.Foundations.Runs

/-!
# HotStuff: the state machine of a replica

Whatever inputs a replica receives, its state machine is in the state that
results from executing the commands of its committed nodes in order, and each of
them once.  The same holds for Basic and for Chained HotStuff.
-/

namespace DistributedConsensus
namespace HotStuff

open Foundations

variable {Cmd : Type} [Application Cmd]

/-- Execute the command of a node, if it has one. -/
def applyNode (s : Application.State Cmd) (b : Node Cmd) : Application.State Cmd :=
  match b.cmd with
  | some cmd => (Application.apply s cmd).1
  | none => s

/-- Execute the commands of a list of nodes. -/
def replay (s : Application.State Cmd) (bs : List (Node Cmd)) : Application.State Cmd :=
  bs.foldl applyNode s

theorem replay_append_singleton
    (s : Application.State Cmd) (bs : List (Node Cmd)) (b : Node Cmd) :
    replay s (bs ++ [b]) = applyNode (replay s bs) b := by
  simp [replay]

namespace Replica

/-- The state machine is the replay of the committed nodes. -/
def Replayed (sm : Option (Application.State Cmd)) (r : Replica Cmd) : Prop :=
  r.sm = sm.map fun s => replay s r.committed

namespace Replayed

variable {sm : Option (Application.State Cmd)} {cfg : Config} {r : Replica Cmd}

theorem tryPropose
    (h : Replayed sm r)
    (v : Int) :
    Replayed sm (r.tryPropose cfg v) := by
  obtain ⟨pending, keys, heq | ⟨high, cmd, -, heq⟩⟩ := r.tryPropose_cases cfg v
  · rw [heq]
    exact h
  · rw [heq]
    exact h

theorem submit
    (h : Replayed sm r)
    (cmd : Cmd) :
    Replayed sm (r.submit cfg cmd) := by
  unfold Replica.submit
  split
  case isTrue => exact h
  case isFalse =>
    refine tryPropose ?_ _
    exact h

theorem advanceFrom
    (h : Replayed sm r)
    (v : Int) :
    Replayed sm (r.advanceFrom cfg v) := by
  unfold Replica.advanceFrom
  split
  case isTrue => exact h
  case isFalse => exact h

theorem onTimeout
    (h : Replayed sm r)
    (v : Int) :
    Replayed sm (r.onTimeout cfg v) := by
  unfold Replica.onTimeout
  split
  case isTrue => exact h
  case isFalse =>
    refine advanceFrom ?_ _
    exact h

theorem onNewView
    (h : Replayed sm r)
    (m : Msg Cmd) :
    Replayed sm (r.onNewView cfg m) := by
  rcases onNewView_cases cfg r m with heq | heq | ⟨high, -, heq⟩ <;> rw [heq]
  · exact h
  · exact h
  · refine tryPropose ?_ _
    exact h

theorem tally
    (h : Replayed sm r)
    (m : Msg Cmd) :
    Replayed sm (r.tally cfg m).2 := by
  rcases tally_cases cfg r m with heq | heq | ⟨rid, sig, node, -, ⟨-, heq⟩ | ⟨-, heq⟩⟩ <;>
    rw [heq] <;> exact h

theorem onPrepareVote
    (h : Replayed sm r)
    (m : Msg Cmd) :
    Replayed sm (r.onPrepareVote cfg m) := by
  have htally : Replayed sm (r.tally cfg m).2 := h.tally m
  rcases onPrepareVote_cases cfg r m with heq | heq | ⟨votes, qc, qcs, -, -, heq⟩ <;> rw [heq]
  · exact htally
  · exact htally
  · exact htally

theorem onGenericVote
    (h : Replayed sm r)
    (m : Msg Cmd) :
    Replayed sm (r.onGenericVote cfg m) := by
  have htally : Replayed sm (r.tally cfg m).2 := h.tally m
  rcases onGenericVote_cases cfg r m with heq | heq | ⟨votes, qc, t, qcs, -, -, heq⟩ <;> rw [heq]
  · exact htally
  · exact htally
  · exact htally

theorem onPrepare
    (h : Replayed sm r)
    (m : Msg Cmd) :
    Replayed sm (r.onPrepare cfg m) := by
  rcases onPrepare_cases cfg r m with heq | heq |
    ⟨node, qc, -, -, -, -, heq | heq | ⟨parent, -, -, -, heq⟩⟩ <;> rw [heq] <;> exact h

theorem onPreCommit
    (h : Replayed sm r)
    (m : Msg Cmd) :
    Replayed sm (r.onPreCommit cfg m) := by
  rcases onPreCommit_cases cfg r m with heq | ⟨qc, -, heq | ⟨node, -, heq⟩⟩ <;>
    rw [heq] <;> exact h

theorem onCommit
    (h : Replayed sm r)
    (m : Msg Cmd) :
    Replayed sm (r.onCommit cfg m) := by
  rcases onCommit_cases cfg r m with heq | ⟨qc, node, -, -, heq⟩ <;> rw [heq] <;> exact h

theorem onSyncReq
    (h : Replayed sm r)
    (m : Msg Cmd) :
    Replayed sm (r.onSyncReq m) := by
  rcases onSyncReq_cases r m with heq | heq | ⟨hash, heq⟩ <;> rw [heq] <;> exact h

/-- Executing a node extends the log and the replay by the same command. -/
theorem executeNode
    (h : Replayed sm r)
    (b : Node Cmd) :
    Replayed sm (r.executeNode b) := by
  unfold Replayed at h ⊢
  simp only [Replica.executeNode]
  cases hcmd : b.cmd with
  | none =>
      simp only [replay_append_singleton, applyNode, hcmd]
      exact h
  | some cmd =>
      cases sm with
      | none =>
          rw [Option.map_none] at h
          simp [h]
      | some s =>
          rw [Option.map_some] at h
          simp [h, replay_append_singleton, applyNode, hcmd]

theorem execute
    (h : Replayed sm r)
    (b : Node Cmd) :
    Replayed sm (r.execute b) := by
  have hfold : ∀ (bs : List (Node Cmd)) (r : Replica Cmd), Replayed sm r →
      Replayed sm (bs.foldl Replica.executeNode r) := by
    intro bs
    induction bs with
    | nil => exact fun r h => h
    | cons b bs ih => exact fun r h => ih _ (h.executeNode b)
  exact hfold _ r h

theorem leaveDecided
    (h : Replayed sm r)
    (m : Msg Cmd) :
    Replayed sm (r.leaveDecided cfg m) := by
  unfold Replica.leaveDecided
  split
  case isTrue => exact h
  case isFalse =>
    refine advanceFrom ?_ _
    exact h

theorem onDecide
    (h : Replayed sm r)
    (m : Msg Cmd) :
    Replayed sm (r.onDecide cfg m) := by
  rcases onDecide_cases cfg r m with heq | ⟨qc, -, ⟨hash, heq⟩ | heq | ⟨b, -, -, heq⟩⟩ <;> rw [heq]
  · exact h
  · exact h
  · exact h.leaveDecided m
  · exact (h.execute b).leaveDecided m

theorem foldl_onDecide
    (h : Replayed sm r)
    (ms : List (Msg Cmd)) :
    Replayed sm (ms.foldl (Replica.onDecide cfg) r) := by
  induction ms generalizing r with
  | nil => exact h
  | cons m ms ih => exact ih (h.onDecide m)

theorem onSyncResp
    (h : Replayed sm r)
    (m : Msg Cmd) :
    Replayed sm (r.onSyncResp cfg m) := by
  rcases onSyncResp_cases cfg r m with heq | ⟨chain, -, heq⟩ <;> rw [heq]
  · exact h
  · refine foldl_onDecide ?_ _
    exact h

theorem dispatch
    (h : Replayed sm r)
    (m : Msg Cmd) :
    Replayed sm (r.dispatch cfg m) := by
  obtain ⟨s, hs, -, hhandled⟩ := dispatch_handled cfg r m
  have hsync : Replayed sm s := by
    rcases hs with rfl | ⟨-, rfl⟩
    · exact h
    · exact h
  generalize r.dispatch cfg m = r' at hhandled ⊢
  cases hhandled with
  | newView => exact hsync.onNewView m
  | prepareVote => exact hsync.onPrepareVote m
  | prepare => exact hsync.onPrepare m
  | genericVote => exact hsync.onGenericVote m
  | preCommit => exact hsync.onPreCommit m
  | commit => exact hsync.onCommit m
  | decide => exact hsync.onDecide m
  | syncReq => exact hsync.onSyncReq m
  | syncResp => exact hsync.onSyncResp m
  | ignored => exact hsync

theorem step
    {r' : Replica Cmd} {i : Input Cmd}
    (h : Replayed sm r)
    (hstep : r.step cfg i = some r') :
    Replayed sm r' := by
  have hclear : Replayed sm { r with outbox := [], replies := [] } := h
  cases occurs_of_step hstep with
  | start =>
      refine advanceFrom ?_ 0
      exact h
  | dispatch m => exact hclear.dispatch m
  | submit cmd => exact hclear.submit cmd
  | timeout view =>
      refine onTimeout ?_ view
      exact h
  | stop => exact h

end Replayed

/-- A replica that reacts to arbitrary inputs. -/
def exposed (cfg : Config) (id : Nat) (sm : Option (Application.State Cmd)) :
    System (Replica Cmd) (Input Cmd) where
  init := new id sm
  step r i := r.step cfg i

theorem replayed_of_reachable
    {cfg : Config} {id : Nat} {sm : Option (Application.State Cmd)} {r : Replica Cmd}
    (hr : System.Reachable (exposed cfg id sm) System.anyStep r) :
    Replayed sm r := by
  refine System.Reachable.invariant ?_ ?_ hr
  · cases sm <;> rfl
  · intro r i r' _ h _ hstep
    exact h.step hstep

end Replica

namespace ChainedReplica

/-- The state machine is the replay of the committed nodes. -/
def Replayed (sm : Option (Application.State Cmd)) (r : ChainedReplica Cmd) : Prop :=
  r.sm = sm.map fun s => replay s r.committed

namespace Replayed

variable {sm : Option (Application.State Cmd)} {cfg : Config} {r : ChainedReplica Cmd}

theorem tryPropose
    (h : Replayed sm r)
    (v : Int) (qc : QC) :
    Replayed sm (r.tryPropose cfg v qc) := by
  obtain ⟨pending, keys, heq | ⟨cmd, -, heq⟩⟩ := r.tryPropose_cases cfg v qc
  · rw [heq]
    exact h
  · rw [heq]
    exact h

theorem submit
    (h : Replayed sm r)
    (cmd : Cmd) :
    Replayed sm (r.submit cfg cmd) := by
  unfold ChainedReplica.submit
  split
  case isTrue => exact h
  case isFalse =>
    refine tryPropose ?_ _ _
    exact h

theorem advanceFrom
    (h : Replayed sm r)
    (v : Int) :
    Replayed sm (r.advanceFrom cfg v) := by
  unfold ChainedReplica.advanceFrom
  split
  case isTrue => exact h
  case isFalse => exact h

theorem onTimeout
    (h : Replayed sm r)
    (v : Int) :
    Replayed sm (r.onTimeout cfg v) := by
  unfold ChainedReplica.onTimeout
  split
  case isTrue => exact h
  case isFalse =>
    refine advanceFrom ?_ _
    exact h

theorem onNewView
    (h : Replayed sm r)
    (m : Msg Cmd) :
    Replayed sm (r.onNewView cfg m) := by
  rcases r.onNewView_cases cfg m with heq | ⟨-, -, s, rfl, heq | heq | ⟨high, -, -, heq⟩⟩
  · rw [heq]
    exact h
  · rw [heq]
    exact h
  · rw [heq]
    exact h
  · rw [heq]
    refine tryPropose ?_ _ high
    exact h

theorem onGenericVote
    (h : Replayed sm r)
    (m : Msg Cmd) (rid : Int) (sig : Sig) :
    Replayed sm (r.onGenericVote cfg m rid sig) := by
  rcases r.onGenericVote_cases cfg m rid sig with
    heq | heq | ⟨node, formed, qcs, s, -, rfl, heq | heq | ⟨qc, -, -, -, heq⟩⟩
  · rw [heq]
    exact h
  · rw [heq]
    exact h
  · rw [heq]
    exact h
  · rw [heq]
    exact h
  · rw [heq]
    refine tryPropose ?_ _ qc
    exact h

/-- Executing a node extends the log and the replay by the same command. -/
theorem executeNode
    (h : Replayed sm r)
    (b : Node Cmd) :
    Replayed sm (r.executeNode b) := by
  unfold Replayed at h ⊢
  simp only [ChainedReplica.executeNode]
  cases hcmd : b.cmd with
  | none =>
      simp only [replay_append_singleton, applyNode, hcmd]
      exact h
  | some cmd =>
      cases sm with
      | none =>
          rw [Option.map_none] at h
          simp [h]
      | some s =>
          rw [Option.map_some] at h
          simp [h, replay_append_singleton, applyNode, hcmd]

theorem foldl_executeNode
    (h : Replayed sm r)
    (bs : List (Node Cmd)) :
    Replayed sm (bs.foldl ChainedReplica.executeNode r) := by
  induction bs generalizing r with
  | nil => exact h
  | cons b bs ih => exact ih (h.executeNode b)

theorem update
    (h : Replayed sm r)
    (bStar : Node Cmd) :
    Replayed sm (r.update bStar) := by
  rcases r.update_cases bStar with ⟨-, heq | heq⟩ | ⟨qc, -, heq⟩
  · rw [heq]
    exact h
  · rw [heq]
    exact h
  · rw [heq]
    refine foldl_executeNode ?_ _
    exact h

theorem onGeneric
    (h : Replayed sm r)
    (m : Msg Cmd) :
    Replayed sm (r.onGeneric cfg m) := by
  rcases r.onGeneric_cases cfg m with heq | heq | ⟨bStar, qc, -, heq⟩
  · rw [heq]
    exact h
  · rw [heq]
    exact h
  · rw [heq]
    refine update ?_ bStar
    unfold vote
    split
    case isTrue => exact h
    case isFalse => exact h

theorem step
    {r' : ChainedReplica Cmd} {i : Input Cmd}
    (h : Replayed sm r)
    (hstep : r.step cfg i = some r') :
    Replayed sm r' := by
  have hclear : Replayed sm { r with outbox := [], replies := [] } := h
  cases occurs_of_step hstep with
  | start =>
      refine advanceFrom ?_ 0
      exact h
  | newView m => exact hclear.onNewView m
  | genericVote m rid sig => exact hclear.onGenericVote m rid sig
  | generic m => exact hclear.onGeneric m
  | ignored m => exact hclear
  | submit cmd => exact hclear.submit cmd
  | timeout v =>
      refine onTimeout ?_ v
      exact h
  | stop => exact h

end Replayed

/-- A replica that reacts to arbitrary inputs. -/
def exposed (cfg : Config) (id : Nat) (sm : Option (Application.State Cmd)) :
    System (ChainedReplica Cmd) (Input Cmd) where
  init := new id sm
  step r i := r.step cfg i

theorem replayed_of_reachable
    {cfg : Config} {id : Nat} {sm : Option (Application.State Cmd)} {r : ChainedReplica Cmd}
    (hr : System.Reachable (exposed cfg id sm) System.anyStep r) :
    Replayed sm r := by
  refine System.Reachable.invariant ?_ ?_ hr
  · cases sm <;> rfl
  · intro r i r' _ h _ hstep
    exact h.step hstep

end ChainedReplica

end HotStuff
end DistributedConsensus
