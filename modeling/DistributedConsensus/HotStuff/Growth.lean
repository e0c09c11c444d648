import DistributedConsensus.HotStuff.Forest
import DistributedConsensus.HotStuff.Tallies

/-!
# Basic HotStuff: what a replica never gives up

No input removes a stored node, an executed hash or a decided view (`grows_step`).
-/

namespace DistributedConsensus
namespace HotStuff
namespace Replica

open Foundations

variable {Cmd : Type} [Application Cmd]
variable {cfg : Config} {r r' : Replica Cmd} {m : Msg Cmd}

/-- Nothing stored, decided or executed is lost. -/
structure Grows (r r' : Replica Cmd) : Prop where
  tree : ∀ h, r.tree.has h = true → r'.tree.has h = true
  decided : r.decided ⊆ r'.decided
  executed : r.executed ⊆ r'.executed

section Grows

variable {s : Replica Cmd}

theorem Grows.of_eq
    (htree : r'.tree = r.tree)
    (hdecided : r'.decided = r.decided)
    (hexecuted : r'.executed = r.executed) :
    Grows r r' := by
  constructor
  · rw [htree]
    exact fun _ h => h
  · rw [hdecided]
    exact List.Subset.refl _
  · rw [hexecuted]
    exact List.Subset.refl _

theorem Grows.refl (r : Replica Cmd) : Grows r r := .of_eq rfl rfl rfl

theorem Grows.trans
    (h : Grows r s)
    (h' : Grows s r') :
    Grows r r' where
  tree x hx := h'.tree x (h.tree x hx)
  decided := List.Subset.trans h.decided h'.decided
  executed := List.Subset.trans h.executed h'.executed

variable (cfg r)

theorem grows_addNode (b : Node Cmd) : Grows r { r with tree := r.tree.add b } where
  tree h hh := (Tree.has_add r.tree b h).mpr (Or.inr hh)
  decided := List.Subset.refl _
  executed := List.Subset.refl _

theorem grows_advanceFrom (view : Int) : Grows r (r.advanceFrom cfg view) := by
  unfold advanceFrom
  split
  case isTrue => exact Grows.refl r
  case isFalse => exact .of_eq rfl rfl rfl

theorem grows_onTimeout (view : Int) : Grows r (r.onTimeout cfg view) := by
  unfold onTimeout
  split
  case isTrue => exact Grows.refl r
  case isFalse =>
    refine Grows.trans ?_ (grows_advanceFrom cfg _ view)
    exact .of_eq rfl rfl rfl

theorem grows_tryPropose (view : Int) : Grows r (r.tryPropose cfg view) := by
  obtain ⟨pending, keys, heq | ⟨high, cmd, -, heq⟩⟩ := r.tryPropose_cases cfg view
  · rw [heq]
    exact .of_eq rfl rfl rfl
  · rw [heq]
    refine (grows_addNode r (createLeaf high.nodeHash cmd view)).trans ?_
    exact .of_eq rfl rfl rfl

theorem grows_submit (cmd : Cmd) : Grows r (r.submit cfg cmd) := by
  unfold submit
  split
  case isTrue => exact Grows.refl r
  case isFalse =>
    refine Grows.trans ?_ (grows_tryPropose cfg _ _)
    exact .of_eq rfl rfl rfl

theorem grows_onNewView (m : Msg Cmd) : Grows r (r.onNewView cfg m) := by
  rcases onNewView_cases cfg r m with heq | heq | ⟨high, -, heq⟩ <;> rw [heq]
  · exact Grows.refl r
  · exact .of_eq rfl rfl rfl
  · refine Grows.trans ?_ (grows_tryPropose cfg _ _)
    exact .of_eq rfl rfl rfl

theorem grows_tally (m : Msg Cmd) : Grows r (r.tally cfg m).2 := by
  rcases tally_cases cfg r m with heq | heq | ⟨rid, sig, node, -, ⟨-, heq⟩ | ⟨-, heq⟩⟩ <;>
    rw [heq] <;> exact .of_eq rfl rfl rfl

theorem grows_onPrepareVote (m : Msg Cmd) : Grows r (r.onPrepareVote cfg m) := by
  have htally := grows_tally cfg r m
  rcases onPrepareVote_cases cfg r m with heq | heq | ⟨votes, qc, qcs, -, -, heq⟩ <;>
    rw [heq] <;> refine htally.trans ?_
  · exact Grows.refl _
  · exact .of_eq rfl rfl rfl
  · exact .of_eq rfl rfl rfl

theorem grows_onGenericVote (m : Msg Cmd) : Grows r (r.onGenericVote cfg m) := by
  have htally := grows_tally cfg r m
  rcases onGenericVote_cases cfg r m with heq | heq | ⟨votes, qc, t, qcs, -, -, heq⟩ <;>
    rw [heq] <;> refine htally.trans ?_
  · exact Grows.refl _
  · exact .of_eq rfl rfl rfl
  · exact .of_eq rfl rfl rfl

theorem grows_onPrepare (m : Msg Cmd) : Grows r (r.onPrepare cfg m) := by
  rcases onPrepare_cases cfg r m with heq | heq |
    ⟨node, qc, -, -, -, -, heq | heq | ⟨parent, -, -, -, heq⟩⟩ <;> rw [heq]
  · exact Grows.refl r
  · exact .of_eq rfl rfl rfl
  · exact (grows_addNode r node).trans (.of_eq rfl rfl rfl)
  · exact (grows_addNode r node).trans (.of_eq rfl rfl rfl)
  · exact (grows_addNode r node).trans (.of_eq rfl rfl rfl)

theorem grows_onPreCommit (m : Msg Cmd) : Grows r (r.onPreCommit cfg m) := by
  rcases onPreCommit_cases cfg r m with heq | ⟨qc, -, heq | ⟨node, -, heq⟩⟩ <;>
    rw [heq] <;> exact .of_eq rfl rfl rfl

theorem grows_onCommit (m : Msg Cmd) : Grows r (r.onCommit cfg m) := by
  rcases onCommit_cases cfg r m with heq | ⟨qc, node, -, -, heq⟩ <;>
    rw [heq] <;> exact .of_eq rfl rfl rfl

theorem grows_foldl_executeNode (bs : List (Node Cmd)) :
    Grows r (bs.foldl executeNode r) := by
  induction bs generalizing r with
  | nil => exact Grows.refl r
  | cons b bs ih =>
      refine Grows.trans ⟨?_, ?_, ?_⟩ (ih _)
      · unfold executeNode
        cases b.cmd <;> exact fun _ h => h
      · unfold executeNode
        cases b.cmd <;> exact List.Subset.refl _
      · intro x hx
        exact ((executes_executeNode r b).executed x).mpr (Or.inl hx)

theorem grows_leaveDecided (m : Msg Cmd) : Grows r (r.leaveDecided cfg m) := by
  unfold leaveDecided
  split
  case isTrue => exact Grows.refl r
  case isFalse =>
    refine Grows.trans ?_ (grows_advanceFrom cfg _ m.viewNumber)
    exact ⟨fun _ h => h, (fun _ hx => List.mem_insert_of_mem hx), List.Subset.refl _⟩

theorem grows_onDecide (m : Msg Cmd) : Grows r (r.onDecide cfg m) := by
  rcases onDecide_cases cfg r m with heq | ⟨qc, -, ⟨hash, heq⟩ | heq | ⟨b, -, -, heq⟩⟩ <;> rw [heq]
  · exact Grows.refl r
  · exact .of_eq rfl rfl rfl
  · exact grows_leaveDecided cfg r m
  · exact Grows.trans (grows_foldl_executeNode r _) (grows_leaveDecided cfg _ m)

theorem grows_foldl_onDecide (ms : List (Msg Cmd)) : Grows r (ms.foldl (onDecide cfg) r) := by
  induction ms generalizing r with
  | nil => exact Grows.refl r
  | cons m ms ih => exact (grows_onDecide cfg r m).trans (ih _)

theorem grows_addNodes (chain : List (Node Cmd)) :
    Grows r { r with tree := chain.foldl Tree.add r.tree, deferred := [] } where
  tree h hh := (Tree.has_foldl_add chain r.tree h).mpr (Or.inr hh)
  decided := List.Subset.refl _
  executed := List.Subset.refl _

theorem grows_onSyncResp (m : Msg Cmd) : Grows r (r.onSyncResp cfg m) := by
  rcases onSyncResp_cases cfg r m with heq | ⟨chain, -, heq⟩
  · rw [heq]
    exact .of_eq rfl rfl rfl
  · rw [heq]
    exact (grows_addNodes r chain).trans (grows_foldl_onDecide cfg _ _)

theorem grows_onSyncReq (m : Msg Cmd) : Grows r (r.onSyncReq m) := by
  rcases onSyncReq_cases r m with heq | heq | ⟨hash, heq⟩ <;>
    rw [heq] <;> exact .of_eq rfl rfl rfl

variable {cfg r}

theorem Handled.grows
    (h : Handled cfg r m r') :
    Grows r r' := by
  cases h with
  | newView => exact grows_onNewView cfg r m
  | prepareVote => exact grows_onPrepareVote cfg r m
  | prepare => exact grows_onPrepare cfg r m
  | genericVote => exact grows_onGenericVote cfg r m
  | preCommit => exact grows_onPreCommit cfg r m
  | commit => exact grows_onCommit cfg r m
  | decide => exact grows_onDecide cfg r m
  | syncReq => exact grows_onSyncReq r m
  | syncResp => exact grows_onSyncResp cfg r m
  | ignored => exact Grows.refl r

theorem grows_step
    {i : Input Cmd}
    (hstep : r.step cfg i = some r') :
    Grows r r' := by
  have hclear : Grows r { r with outbox := [], replies := [] } := .of_eq rfl rfl rfl
  refine hclear.trans ?_
  cases occurs_of_step hstep with
  | start =>
      refine Grows.trans ?_ (grows_advanceFrom cfg _ 0)
      exact .of_eq rfl rfl rfl
  | dispatch m =>
      obtain ⟨s, hs, -, hhandled⟩ :=
        dispatch_handled cfg { r with outbox := [], replies := [] } m
      refine Grows.trans ?_ hhandled.grows
      rcases hs with rfl | ⟨-, rfl⟩
      · exact Grows.refl _
      · exact .of_eq rfl rfl rfl
  | submit cmd => exact grows_submit cfg _ cmd
  | timeout view =>
      refine Grows.trans ?_ (grows_onTimeout cfg _ view)
      exact .of_eq rfl rfl rfl
  | stop => exact .of_eq rfl rfl rfl

end Grows

end Replica
end HotStuff
end DistributedConsensus
