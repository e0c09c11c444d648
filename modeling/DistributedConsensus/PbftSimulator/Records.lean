import DistributedConsensus.PbftSimulator.Evidence

/-!
# PBFT simulator: what a view change records

A node stores one VIEW-CHANGE message of a replica for a view and counts the
acknowledgements that it receives as the primary of the view.  A handler records
the message it has received first.  What follows changes these records only where
the node gives up its view; otherwise the node forwards what it has stored, enters
a view, or sends the NEW-VIEW message of a view that it leads.
-/

namespace DistributedConsensus
namespace PbftSimulator

open Foundations

/-- A VIEW-CHANGE or a NEW-VIEW. -/
def Message.changesView : Message → Bool
  | viewChange _ | newView _ => true
  | _ => false

namespace Node

variable {c : Config} {n n' n'' : Node} {s u v : ℤ} {d : String}

/-- The records of view changes are the same. -/
structure SameRecords (n n' : Node) : Prop where
  id : n'.id = n.id
  view : n'.view = n.view
  viewChangeLog : n'.viewChangeLog = n.viewChangeLog
  viewChangeAckCount : n'.viewChangeAckCount = n.viewChangeAckCount
  newViewSent : n'.newViewSent = n.newViewSent
  sent : ∀ p ∈ n'.sent, p.msg.changesView = true → p ∈ n.sent

theorem SameRecords.refl (n : Node) : SameRecords n n :=
  ⟨rfl, rfl, rfl, rfl, rfl, fun _ hp _ => hp⟩

theorem SameRecords.trans
    (h : SameRecords n n')
    (h' : SameRecords n' n'') :
    SameRecords n n'' where
  id := h'.id.trans h.id
  view := h'.view.trans h.view
  viewChangeLog := h'.viewChangeLog.trans h.viewChangeLog
  viewChangeAckCount := h'.viewChangeAckCount.trans h.viewChangeAckCount
  newViewSent := h'.newViewSent.trans h.newViewSent
  sent p hp hchanges := h.sent p (h'.sent p hp hchanges) hchanges

section Phases

/-- A packet of another kind is sent. -/
theorem SameRecords.of_append
    {p : Packet}
    (hid : n'.id = n.id)
    (hview : n'.view = n.view)
    (hlog : n'.viewChangeLog = n.viewChangeLog)
    (hacks : n'.viewChangeAckCount = n.viewChangeAckCount)
    (hnew : n'.newViewSent = n.newViewSent)
    (hsent : n'.sent = n.sent ++ [p])
    (hmsg : p.msg.changesView = false) :
    SameRecords n n' := by
  refine ⟨hid, hview, hlog, hacks, hnew, fun p hp hchanges => ?_⟩
  rw [hsent] at hp
  rcases List.mem_append.mp hp with hold | hnew
  · exact hold
  · rw [List.mem_singleton.mp hnew, hmsg] at hchanges
    cases hchanges

theorem sendTo_sameRecords
    {peer : ℤ} {msg : Message}
    (hmsg : msg.changesView = false) :
    SameRecords n (n.sendTo c peer msg) := by
  unfold sendTo
  split
  case isTrue => exact SameRecords.refl n
  case isFalse => exact SameRecords.of_append rfl rfl rfl rfl rfl rfl hmsg

theorem sendReply_sameRecords (n : Node) (client : ℤ) (reply : Reply) :
    SameRecords n (n.sendReply client reply) := by
  unfold sendReply
  split
  case isTrue => exact ⟨rfl, rfl, rfl, rfl, rfl, fun _ hp _ => hp⟩
  case isFalse => exact SameRecords.refl n

theorem startTimerIfNeeded_sameRecords (n : Node) : SameRecords n (n.startTimerIfNeeded c) := by
  unfold startTimerIfNeeded
  repeat' split
  all_goals exact ⟨rfl, rfl, rfl, rfl, rfl, fun _ hp _ => hp⟩

theorem tryCommit_sameRecords (n : Node) : SameRecords n (n.tryCommit c s d v) := by
  unfold tryCommit
  repeat' split
  case isFalse =>
    unfold execute
    split
    case h_1 => exact ⟨rfl, rfl, rfl, rfl, rfl, fun _ hp _ => hp⟩
    case h_2 =>
      refine SameRecords.trans ?_ (sendReply_sameRecords _ _ _)
      exact ⟨rfl, rfl, rfl, rfl, rfl, fun _ hp _ => hp⟩
  all_goals exact SameRecords.refl n

theorem checkPrepared_sameRecords (n : Node) : SameRecords n (n.checkPrepared c s d v) := by
  unfold checkPrepared
  split
  case isTrue =>
    refine SameRecords.trans ?_ (tryCommit_sameRecords _)
    exact SameRecords.of_append rfl rfl rfl rfl rfl rfl rfl
  case isFalse => exact SameRecords.refl n

theorem enterPreparePhase_sameRecords (n : Node) :
    SameRecords n (n.enterPreparePhase c s d v) := by
  have hvote : SameRecords n (n.vote c s d v) := SameRecords.of_append rfl rfl rfl rfl rfl rfl rfl
  have hchecked := hvote.trans (checkPrepared_sameRecords (s := s) (d := d) (v := v) (c := c) _)
  exact ⟨hchecked.id, hchecked.view, hchecked.viewChangeLog, hchecked.viewChangeAckCount,
    hchecked.newViewSent, hchecked.sent⟩

theorem assign_sameRecords (n : Node) (m : Request) : SameRecords n (n.assign c m) := by
  unfold assign
  split
  case isTrue => exact SameRecords.refl n
  case isFalse => exact SameRecords.of_append rfl rfl rfl rfl rfl rfl rfl

theorem onBackupRequest_sameRecords (n : Node) (m : Request) :
    SameRecords n (n.onBackupRequest c m) := by
  unfold onBackupRequest
  split
  case h_1 => exact startTimerIfNeeded_sameRecords n
  case h_2 =>
    refine SameRecords.trans ?_ (enterPreparePhase_sameRecords _)
    refine SameRecords.trans ?_ (startTimerIfNeeded_sameRecords _)
    exact ⟨rfl, rfl, rfl, rfl, rfl, fun _ hp _ => hp⟩

theorem onRequest_sameRecords (n : Node) (m : Request) : SameRecords n (n.onRequest c m) := by
  have hlogged : SameRecords n { n with requestLog := n.requestLog.set m.digest m } :=
    ⟨rfl, rfl, rfl, rfl, rfl, fun _ hp _ => hp⟩
  unfold onRequest
  split
  case h_1 => exact sendReply_sameRecords _ _ _
  case h_2 =>
    simp only
    split
    case isTrue => exact hlogged
    case isFalse =>
      split
      case isTrue => exact hlogged.trans (assign_sameRecords _ _)
      case isFalse => exact hlogged.trans (onBackupRequest_sameRecords _ _)

theorem onPrePrepare_sameRecords (n : Node) (m : PrePrepare) :
    SameRecords n (n.onPrePrepare c m) := by
  have haccepted : SameRecords n (n.accept m.sequence m.digest m.view) :=
    ⟨rfl, rfl, rfl, rfl, rfl, fun _ hp _ => hp⟩
  unfold onPrePrepare
  split
  case isTrue => exact SameRecords.refl n
  case isFalse =>
    split
    case isTrue => exact SameRecords.refl n
    case isFalse =>
      split
      case isTrue => exact SameRecords.refl n
      case isFalse =>
        simp only
        split
        case isTrue => exact haccepted.trans (enterPreparePhase_sameRecords _)
        case isFalse => exact ⟨rfl, rfl, rfl, rfl, rfl, fun _ hp _ => hp⟩

theorem onPrepare_sameRecords (n : Node) (m : Vote) : SameRecords n (n.onPrepare c m) := by
  unfold onPrepare
  split
  case isTrue => exact SameRecords.refl n
  case isFalse =>
    refine SameRecords.trans ?_ (checkPrepared_sameRecords _)
    exact ⟨rfl, rfl, rfl, rfl, rfl, fun _ hp _ => hp⟩

theorem onCommit_sameRecords (n : Node) (m : Vote) : SameRecords n (n.onCommit c m) := by
  unfold onCommit
  split
  case isTrue => exact SameRecords.refl n
  case isFalse =>
    refine SameRecords.trans ?_ (tryCommit_sameRecords _)
    exact ⟨rfl, rfl, rfl, rfl, rfl, fun _ hp _ => hp⟩

theorem processEntry_sameRecords (n : Node) (x : XEntry) :
    SameRecords n (processEntry c u n x) := by
  unfold processEntry
  split
  case isTrue => exact SameRecords.refl n
  case isFalse =>
    simp only
    generalize (if n.requestLog.contains x.digest = true then n.requestLog
      else n.requestLog.set x.digest ⟨0, x.digest, x.payload, 0⟩) = requests
    split
    case isTrue => exact SameRecords.of_append rfl rfl rfl rfl rfl rfl rfl
    case isFalse =>
      refine SameRecords.trans ?_ (enterPreparePhase_sameRecords _)
      exact ⟨rfl, rfl, rfl, rfl, rfl, fun _ hp _ => hp⟩

theorem foldl_processEntry_sameRecords (entries : List XEntry) (n : Node) :
    SameRecords n (entries.foldl (processEntry c u) n) := by
  induction entries generalizing n with
  | nil => exact SameRecords.refl n
  | cons x rest ih =>
      rw [List.foldl_cons]
      exact (processEntry_sameRecords n x).trans (ih _)

theorem fetchMissing_sameRecords (m : NewView) (missing : List VCEntry) (n : Node) :
    SameRecords n (n.fetchMissing c m missing) := by
  unfold fetchMissing
  induction missing generalizing n with
  | nil => exact SameRecords.refl n
  | cons v rest ih =>
      rw [List.foldl_cons]
      exact (sendTo_sameRecords rfl).trans (ih _)

end Phases

section Effects

/-- The node gives up its view and stores its VIEW-CHANGE message, unless it fails
the checks. -/
def resign (c : Config) (o : Orders) (n : Node) : Node :=
  let vc := n.viewChangeMessage o
  let n' := n.leaveView.broadcast c (.viewChange vc)
  if correctViewChange vc = true ∧ n.stored vc.view vc.senderID = none then n'.storeViewChange vc
  else n'

/-- What a handler does to the records after it has recorded its message; `b` tells
whether it may give up the view. -/
inductive Changes (c : Config) (b : Prop) (n : Node) : Node → Prop
  | enter {n' : Node} {v : ℤ} : n.view ≤ v → SameRecords { n with view := v } n' → Changes c b n n'
  | forward {to' : List ℤ} {view sender : ℤ} {vc : ViewChange} : n.stored view sender = some vc →
      Changes c b n { n with sent := n.sent ++ [⟨to', .viewChange vc⟩] }
  | announce {o : Orders} {u : ℤ} : primary c u = n.id → u ∉ n.newViewSent →
      quorumSize c.F ≤ (n.qualified c u).size →
      Changes c b n (n.announce c (n.newViewMessage c o u))
  | resign {o : Orders} : b → Changes c b n (n.resign c o)

/-- A sequence of these effects. -/
abbrev Moves (c : Config) (b : Prop) : Node → Node → Prop := Relation.ReflTransGen (Changes c b)

variable {b : Prop} {o : Orders} {again : Node → Node}

theorem SameRecords.moves (h : SameRecords n n') : Moves c b n n' :=
  Relation.ReflTransGen.single (Changes.enter (le_refl n.view) h)

theorem processNewView_moves
    {m : NewView}
    (hview : n.view ≤ m.view) :
    Moves c b n (n.processNewView c m) := by
  unfold processNewView
  split
  case isTrue => exact Relation.ReflTransGen.refl
  case isFalse =>
    refine Relation.ReflTransGen.single (Changes.enter hview ?_)
    refine SameRecords.trans ?_ (foldl_processEntry_sameRecords _ _)
    exact ⟨rfl, rfl, rfl, rfl, rfl, fun _ hp _ => hp⟩

theorem tryBuildNewView_moves
    (hview : n.view ≤ u) :
    Moves c b n (n.tryBuildNewView c o u) := by
  unfold tryBuildNewView
  split
  case isTrue => exact Relation.ReflTransGen.refl
  case isFalse hprimary =>
    split
    case isTrue => exact Relation.ReflTransGen.refl
    case isFalse hfresh =>
      split
      case isTrue => exact Relation.ReflTransGen.refl
      case isFalse hquorum =>
        split
        case isTrue => exact Relation.ReflTransGen.refl
        case isFalse =>
          refine Relation.ReflTransGen.head
            (Changes.announce (o := o) (not_not.mp hprimary) hfresh (not_lt.mp hquorum)) ?_
          exact processNewView_moves hview

/-- Pending NEW-VIEW messages are kept under their views. -/
def Keyed (n : Node) : Prop := ∀ v m, n.pendingNewView.get? v = some m → m.view = v

/-- Starting a view change moves the records. -/
def Resigns (c : Config) (b : Prop) (again : Node → Node) : Prop :=
  ∀ n, Keyed n → Moves c b n (again n)

theorem tryVerifyNewView_moves
    (hkeyed : n.Keyed)
    (hagain : (n.pendingNewView.get? u).isSome = true → Resigns c b again) :
    Moves c b n (n.tryVerifyNewView c again o u) := by
  have hkeyed' : Keyed { n with pendingNewView := n.pendingNewView.erase u } := by
    intro v m hm
    rw [Dict.get?_erase] at hm
    split at hm
    case isTrue => cases hm
    case isFalse => exact hkeyed v m hm
  have hdrop : SameRecords n { n with pendingNewView := n.pendingNewView.erase u } :=
    ⟨rfl, rfl, rfl, rfl, rfl, fun _ hp _ => hp⟩
  have hreject : Resigns c b again → Moves c b n (n.rejectPendingNewView again u) := by
    intro hagain
    unfold rejectPendingNewView
    simp only
    split
    case isTrue => exact hdrop.moves
    case isFalse => exact hdrop.moves.trans (hagain _ hkeyed')
  unfold tryVerifyNewView
  split
  case h_1 => exact Relation.ReflTransGen.refl
  case h_2 m hm =>
    have hsome : (n.pendingNewView.get? u).isSome = true := by rw [hm]; rfl
    split
    case isTrue => exact Relation.ReflTransGen.refl
    case isFalse hview =>
      simp only
      split
      case isTrue => exact (fetchMissing_sameRecords _ _ _).moves
      case isFalse =>
        split
        case isTrue => exact hreject (hagain hsome)
        case isFalse =>
          split
          case isTrue => exact hreject (hagain hsome)
          case isFalse =>
            have hle : n.view ≤ m.view := by
              rw [hkeyed u m hm]
              omega
            exact hdrop.moves.trans (processNewView_moves hle)

/-- What follows once a VIEW-CHANGE message of the view is stored. -/
theorem settle_moves
    {o' : Orders}
    (hkeyed : n.Keyed)
    (hview : n.view ≤ u)
    (hagain : (n.pendingNewView.get? u).isSome = true → Resigns c b again) :
    Moves c b n ((n.tryBuildNewView c o u).tryVerifyNewView c again o' u) := by
  have hpending : (n.tryBuildNewView c o u).pendingNewView = n.pendingNewView := by
    rcases tryBuildNewView_spec n with hsame | ⟨-, -, hpending⟩
    · rw [hsame]
    · exact hpending
  refine (tryBuildNewView_moves hview).trans (tryVerifyNewView_moves ?_ ?_)
  · unfold Keyed
    rw [hpending]
    exact hkeyed
  · rw [hpending]
    exact hagain

/-- A pass of a view change begins with the own VIEW-CHANGE message. -/
theorem startViewChange_succ (fuel : ℕ) (o : ℕ → Orders) :
    n.startViewChange c (fuel + 1) o = n.resign c (o 0) ∨
      n.startViewChange c (fuel + 1) o =
        ((n.resign c (o 0)).tryBuildNewView c (o 0) (n.view + 1)).tryVerifyNewView c
          (startViewChange c fuel (fun k => o (k + 2))) (o 1) (n.view + 1) := by
  have hview : ¬(n.viewChangeMessage (o 0)).view <
      (n.leaveView.broadcast c (.viewChange (n.viewChangeMessage (o 0)))).view := lt_irrefl _
  rw [startViewChange, onViewChange, if_neg hview]
  unfold resign
  simp only
  cases hcorrect : correctViewChange (n.viewChangeMessage (o 0)) with
  | false => exact Or.inl (by simp)
  | true =>
      cases hstored : n.stored (n.view + 1) n.id with
      | some vc =>
          left
          have hcontains : ((n.leaveView.broadcast c
              (.viewChange (n.viewChangeMessage (o 0)))).viewChangeLog.getD
                (n.viewChangeMessage (o 0)).view Dict.empty).contains
                  (n.viewChangeMessage (o 0)).senderID = true := by
            change (n.stored (n.view + 1) n.id).isSome = true
            rw [hstored]
            rfl
          have hstored' : n.stored (n.viewChangeMessage (o 0)).view
              (n.viewChangeMessage (o 0)).senderID = some vc := hstored
          rw [if_neg (by simp), if_pos hcontains, if_neg (by rw [hstored']; simp)]
      | none =>
          right
          have hcontains : ¬((n.leaveView.broadcast c
              (.viewChange (n.viewChangeMessage (o 0)))).viewChangeLog.getD
                (n.viewChangeMessage (o 0)).view Dict.empty).contains
                  (n.viewChangeMessage (o 0)).senderID = true := by
            change ¬(n.stored (n.view + 1) n.id).isSome = true
            rw [hstored]
            simp
          have hstored' : n.stored (n.viewChangeMessage (o 0)).view
              (n.viewChangeMessage (o 0)).senderID = none := hstored
          rw [if_neg (by simp), if_neg hcontains, if_pos ⟨rfl, hstored'⟩]
          have hself : ((n.leaveView.broadcast c
              (.viewChange (n.viewChangeMessage (o 0)))).storeViewChange
                (n.viewChangeMessage (o 0))).acknowledge c (n.viewChangeMessage (o 0)) =
              (n.leaveView.broadcast c
              (.viewChange (n.viewChangeMessage (o 0)))).storeViewChange
                (n.viewChangeMessage (o 0)) := if_pos rfl
          rw [hself]
          rfl

theorem resign_spec (o : Orders) :
    (n.resign c o).view = n.view + 1 ∧ (n.resign c o).id = n.id ∧
      (n.resign c o).pendingNewView = n.pendingNewView := by
  unfold resign
  dsimp only
  split
  case isTrue => exact ⟨rfl, rfl, rfl⟩
  case isFalse => exact ⟨rfl, rfl, rfl⟩

theorem startViewChange_moves
    (hb : b)
    (fuel : ℕ) (o : ℕ → Orders) :
    Resigns c b (startViewChange c fuel o) := by
  induction fuel generalizing o with
  | zero => exact fun n _ => Relation.ReflTransGen.refl
  | succ fuel ih =>
      intro n hkeyed
      obtain ⟨hview, -, hpending⟩ := resign_spec (c := c) (n := n) (o 0)
      have hresign : Moves c b n (n.resign c (o 0)) :=
        Relation.ReflTransGen.single (Changes.resign hb)
      rcases startViewChange_succ (c := c) (n := n) fuel o with hstop | hgo
      · rw [hstop]
        exact hresign
      · rw [hgo]
        refine hresign.trans (settle_moves ?_ hview.le fun _ => ih _)
        unfold Keyed
        rw [hpending]
        exact hkeyed

theorem changeView_moves (hb : b) (o : ℕ → Orders) : Resigns c b (changeView c o) :=
  fun n => startViewChange_moves hb (n.pendingNewView.size + 1) o n

end Effects

section Handlers

variable {b : Prop} {o : ℕ → Orders}

/-- The node once it has recorded the message. -/
def noted (c : Config) (n : Node) : Message → Node
  | .viewChange vc =>
      if vc.view < n.view ∨ correctViewChange vc = false ∨
          (n.viewChangeLog.getD vc.view Dict.empty).contains vc.senderID = true then n
      else (n.storeViewChange vc).acknowledge c vc
  | .viewChangeAck a => if n.id ≠ primary c a.view then n else n.acknowledged a
  | _ => n

/-- Only a message that makes the node look at a NEW-VIEW message makes it give up
its view. -/
theorem handleMessage_moves
    {m : Message}
    (hkeyed : n.Keyed)
    (havoids : n.Avoids c m .regress) :
    Moves c ((n.looksAt m).isSome = true) (n.noted c m) (n.handleMessage c o m) := by
  cases m with
  | request r => exact (onRequest_sameRecords n r).moves
  | prePrepare p => exact (onPrePrepare_sameRecords n p).moves
  | prepare v => exact (onPrepare_sameRecords n v).moves
  | commit v => exact (onCommit_sameRecords n v).moves
  | viewChange vc =>
      show Moves c ((n.pendingNewView.get? vc.view).isSome = true) (n.noted c (.viewChange vc))
        (n.onViewChange c _ _ _ vc)
      unfold noted onViewChange
      by_cases hview : vc.view < n.view
      · simp only [hview, true_or, if_true]
        exact Relation.ReflTransGen.refl
      by_cases hcorrect : correctViewChange vc = false
      · simp only [hview, hcorrect, true_or, or_true, if_true, if_false]
        exact Relation.ReflTransGen.refl
      by_cases hcontains : (n.viewChangeLog.getD vc.view Dict.empty).contains vc.senderID = true
      · simp only [hview, hcorrect, hcontains, or_true, if_true, if_false]
        exact Relation.ReflTransGen.refl
      · simp only [hview, hcorrect, hcontains, if_false]
        obtain ⟨sent, hsent⟩ := acknowledge_spec (c := c) (n.storeViewChange vc) vc
        rw [hsent]
        refine settle_moves (n := { n.storeViewChange vc with sent := sent }) hkeyed
          (not_lt.mp hview) fun hpending => ?_
        exact changeView_moves hpending _
  | viewChangeAck a =>
      have hnoted : ∀ h : n.id = primary c a.view, n.noted c (.viewChangeAck a) =
          n.acknowledged a := fun h => if_neg (not_not.mpr h)
      have hhandled : ∀ h : n.id = primary c a.view, n.handleMessage c o (.viewChangeAck a) =
          (n.acknowledged a).tryBuildNewView c (o 0) a.view := fun h => if_neg (not_not.mpr h)
      by_cases hprimary : n.id = primary c a.view
      · rw [hnoted hprimary, hhandled hprimary]
        rcases le_or_gt n.view a.view with hle | hlt
        · exact @tryBuildNewView_moves c (n.acknowledged a) a.view _ (o 0) hle
        · have hsmall : (n.acknowledged a).tryBuildNewView c (o 0) a.view = n.acknowledged a :=
            tryBuildNewView_of_size_lt fun _ => havoids a rfl hlt hprimary
          rw [hsmall]
      · have hskip : n.handleMessage c o (.viewChangeAck a) = n.noted c (.viewChangeAck a) :=
          (if_pos hprimary).trans (if_pos hprimary).symm
        rw [hskip]
  | newView m =>
      show Moves c (some m).isSome n (n.onNewView c _ _ m)
      unfold onNewView
      split
      case isTrue => exact Relation.ReflTransGen.refl
      case isFalse =>
        split
        case isTrue => exact Relation.ReflTransGen.refl
        case isFalse =>
          have hhold : SameRecords n { n with
              pendingNewView := n.pendingNewView.set m.view m } :=
            ⟨rfl, rfl, rfl, rfl, rfl, fun _ hp _ => hp⟩
          refine hhold.moves.trans (tryVerifyNewView_moves ?_ fun _ => changeView_moves rfl _)
          intro v m' hm'
          rw [Dict.get?_set] at hm'
          split at hm'
          case isTrue hv => rw [hv, ← Option.some.inj hm']
          case isFalse => exact hkeyed v m' hm'
  | fetchViewChange f =>
      show Moves c _ n (n.onFetchViewChange c f)
      unfold onFetchViewChange
      split
      case h_1 => exact Relation.ReflTransGen.refl
      case h_2 vc hstored =>
        unfold sendTo
        split
        case isTrue => exact Relation.ReflTransGen.refl
        case isFalse => exact Relation.ReflTransGen.single (Changes.forward hstored)

end Handlers

end Node

end PbftSimulator
end DistributedConsensus
