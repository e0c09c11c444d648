import DistributedConsensus.GoHotStuff.Effects

/-!
# Go HotStuff: entering views

A node that enters a view replays the messages that it kept for the view, and a decision
among them lets it enter the next view first.  The nesting ends: every entered view
forgets its messages, so `enterView` satisfies the recursion of the source
(`enterView_eq`).

Whatever a node handles, it moves by actions, or it keeps a message of a later view
(`handle_cases`).
-/

namespace DistributedConsensus
namespace GoHotStuff

open Foundations

namespace Process

/-- An action, or a step to a later view, or the end of the messages of a view. -/
inductive Move (cfg : Config) (K : SignatureShare → Prop) (fresh : MsgType → ℤ → ℤ → Prop)
    (n : Process) : Process → Prop
  | act {n' : Process} : Act cfg K fresh n n' → Move cfg K fresh n n'
  | enter (newView : ℤ) :
      n.viewNumber < newView → Move cfg K fresh n { n with viewNumber := newView }
  | forget (view : ℤ) :
      Move cfg K fresh n { n with futureMessages := n.futureMessages.erase view }

def Moves (cfg : Config) (K : SignatureShare → Prop) (fresh : MsgType → ℤ → ℤ → Prop) :
    Process → Process → Prop :=
  Relation.ReflTransGen (Move cfg K fresh)

/-- Messages of a view that are replayed in their order.  A request for a vote is fresh
in the view, and behind a decision also in the later views. -/
structure Orderly (cfg : Config) (K : SignatureShare → Prop) (fresh : MsgType → ℤ → ℤ → Prop)
    (view : ℤ) (msgs : List Message) : Prop where
  signed : ∀ msg ∈ msgs, msg.Signed K
  now : ∀ msg ∈ msgs, msg.asksForVote cfg = true → fresh msg.type msg.viewNumber view
  late : msgs.Pairwise fun decision msg => decision.decides cfg = true →
    msg.asksForVote cfg = true → ∀ current, view < current → fresh msg.type msg.viewNumber current

/-- All kept messages can be replayed in their order. -/
def Ready (cfg : Config) (K : SignatureShare → Prop) (fresh : MsgType → ℤ → ℤ → Prop)
    (n : Process) : Prop :=
  ∀ view msgs, n.futureMessages.get? view = some msgs → Orderly cfg K fresh view msgs

section Moves

variable {cfg : Config} {K : SignatureShare → Prop} {fresh : MsgType → ℤ → ℤ → Prop}
variable {n n' : Process}

theorem Acts.moves (h : Acts cfg K fresh n n') : Moves cfg K fresh n n' := by
  induction h with
  | refl => exact Relation.ReflTransGen.refl
  | tail _ hact ih => exact ih.tail (Move.act hact)

theorem Move.frame
    (h : Move cfg K fresh n n') :
    n'.id = n.id ∧ n.viewNumber ≤ n'.viewNumber ∧
      n'.futureMessages.size ≤ n.futureMessages.size ∧
      ∀ view msgs, n'.futureMessages.get? view = some msgs →
        n.futureMessages.get? view = some msgs := by
  cases h with
  | act hact =>
      obtain ⟨hid, hview, hfuture⟩ := hact.frame
      rw [hview, hfuture]
      exact ⟨hid, le_refl _, le_refl _, fun _ _ h => h⟩
  | enter newView hlt => exact ⟨rfl, le_of_lt hlt, le_refl _, fun _ _ h => h⟩
  | forget view =>
      refine ⟨rfl, le_refl _, List.length_filter_le _ _, fun view' msgs hget => ?_⟩
      simp only [Dict.get?_erase] at hget
      split at hget
      case isTrue => cases hget
      case isFalse => exact hget

/-- The node keeps its id, its view goes forward and its kept messages get fewer. -/
theorem Moves.frame
    (h : Moves cfg K fresh n n') :
    n'.id = n.id ∧ n.viewNumber ≤ n'.viewNumber ∧
      n'.futureMessages.size ≤ n.futureMessages.size ∧
      ∀ view msgs, n'.futureMessages.get? view = some msgs →
        n.futureMessages.get? view = some msgs := by
  induction h with
  | refl => exact ⟨rfl, le_refl _, le_refl _, fun _ _ h => h⟩
  | tail _ hmove ih =>
      obtain ⟨hid, hview, hsize, hkept⟩ := hmove.frame
      obtain ⟨hid', hview', hsize', hkept'⟩ := ih
      exact ⟨hid.trans hid', le_trans hview' hview, le_trans hsize hsize',
        fun view msgs hget => hkept' _ _ (hkept _ _ hget)⟩

theorem Ready.moves
    (hready : Ready cfg K fresh n)
    (h : Moves cfg K fresh n n') :
    Ready cfg K fresh n' :=
  fun view msgs hget => hready view msgs (h.frame.2.2.2 view msgs hget)

theorem ready_trivial (cfg : Config) (n : Process) :
    Ready cfg (fun _ => True) (fun _ _ _ => True) n := by
  intro view msgs _
  refine ⟨fun _ _ _ _ => trivial, fun _ _ _ => trivial, ?_⟩
  exact List.pairwise_of_forall fun _ _ _ _ _ _ => trivial

/-! ## Replaying messages -/

/-- The messages of a view are replayed, until a decision in the view itself. -/
theorem moves_replayAll
    {enter : ℤ → Process → Process} {view : ℤ} {msgs : List Message}
    (henter : ∀ newView n, Ready cfg K fresh n → Moves cfg K fresh n (enter newView n))
    (hready : Ready cfg K fresh n)
    (hmsgs : Orderly cfg K fresh view msgs)
    (hview : view ≤ n.viewNumber)
    (hlate : n.viewNumber = view ∨ ∀ msg ∈ msgs, msg.asksForVote cfg = true →
      ∀ current, view < current → fresh msg.type msg.viewNumber current) :
    Moves cfg K fresh n (msgs.foldl (fun n msg => n.replay cfg enter msg) n) := by
  induction msgs generalizing n with
  | nil => exact Relation.ReflTransGen.refl
  | cons msg msgs ih =>
      obtain ⟨hsigned, hnow, hpair⟩ := hmsgs
      rw [List.pairwise_cons] at hpair
      have hrest : Orderly cfg K fresh view msgs :=
        ⟨fun m hm => hsigned m (List.mem_cons_of_mem _ hm),
          fun m hm => hnow m (List.mem_cons_of_mem _ hm), hpair.2⟩
      have hfresh : msg.asksForVote cfg = true → fresh msg.type msg.viewNumber n.viewNumber := by
        intro hasks
        rcases eq_or_lt_of_le hview with heq | hlt
        · rw [← heq]
          exact hnow msg List.mem_cons_self hasks
        · rcases hlate with heq | hlate
          · omega
          · exact hlate msg List.mem_cons_self hasks _ hlt
      rw [List.foldl_cons]
      rcases replay_cases cfg K fresh n msg (hsigned msg List.mem_cons_self) hfresh with
        ⟨m, hacts, heq⟩ | ⟨hdecides, m, hacts, heq⟩
      · rw [heq]
        have hsame : m.viewNumber = n.viewNumber := hacts.frame.2.1
        refine hacts.moves.trans (ih (hready.moves hacts.moves) hrest (by omega) ?_)
        rw [hsame]
        exact hlate.imp id fun h m hm => h m (List.mem_cons_of_mem _ hm)
      · rw [heq]
        have hmoves : Moves cfg K fresh n (enter (msg.viewNumber + 1) m) :=
          hacts.moves.trans (henter (msg.viewNumber + 1) m (hready.moves hacts.moves))
        refine hmoves.trans (ih (hready.moves hmoves) hrest (le_trans hview hmoves.frame.2.1) ?_)
        exact Or.inr fun m hm hasks current hlt => hpair.1 m hm hdecides hasks current hlt

theorem moves_moveTo
    {newView : ℤ}
    (hlt : n.viewNumber < newView) :
    Moves cfg K fresh n (n.moveTo cfg newView) := by
  unfold moveTo
  have henter : Moves cfg K fresh n { n with viewNumber := newView, phase := .newView } :=
    (Relation.ReflTransGen.single (Move.enter newView hlt)).tail
      (Move.act (Act.quiet .newView _ _ _ _ _ _))
  exact (henter.trans (acts_sendNewView n.viewNumber newView).moves).tail (Move.forget newView)

theorem moveTo_frame (cfg : Config) (n : Process) (newView : ℤ) :
    (n.moveTo cfg newView).viewNumber = newView ∧
      (n.moveTo cfg newView).futureMessages = n.futureMessages.erase newView := by
  unfold moveTo sendNewView
  simp only
  split
  case isTrue => exact ⟨rfl, rfl⟩
  case isFalse => simp

/-- **Entering a view.** -/
theorem moves_enterViewFuel
    (o : MapOrder String) (fuel : ℕ) (newView : ℤ) (n : Process)
    (hready : Ready cfg K fresh n) :
    Moves cfg K fresh n (enterViewFuel cfg o fuel newView n) := by
  induction fuel generalizing newView n with
  | zero => exact Relation.ReflTransGen.refl
  | succ fuel ih =>
      rw [enterViewFuel]
      split
      case isTrue => exact Relation.ReflTransGen.refl
      case isFalse hview =>
        have hmove : Moves cfg K fresh n (n.moveTo cfg newView) := moves_moveTo (not_le.mp hview)
        have hat := (moveTo_frame cfg n newView).1
        refine hmove.trans (Relation.ReflTransGen.trans ?_ (acts_tryPropose o).moves)
        unfold Dict.getD
        cases hget : n.futureMessages.get? newView with
        | none => exact Relation.ReflTransGen.refl
        | some msgs =>
            exact moves_replayAll (fun view n => ih view n) (hready.moves hmove)
              (hready newView msgs hget) (le_of_eq hat.symm) (Or.inl hat)

/-! ## The nesting ends -/

/-- Replaying depends only on how views are entered with no more messages. -/
theorem replayAll_congr
    (size : ℕ) {enter : ℤ → Process → Process} (enter' : ℤ → Process → Process)
    {msgs : List Message} {m : Process}
    (henter : ∀ newView m, m.futureMessages.size ≤ size → enter newView m = enter' newView m)
    (hshrink : ∀ newView m, (enter newView m).futureMessages.size ≤ m.futureMessages.size)
    (hsize : m.futureMessages.size ≤ size) :
    msgs.foldl (fun n msg => n.replay cfg enter msg) m =
      msgs.foldl (fun n msg => n.replay cfg enter' msg) m := by
  induction msgs generalizing m with
  | nil => rfl
  | cons msg msgs ih =>
      rw [List.foldl_cons, List.foldl_cons]
      rcases replay_cases cfg (fun _ => True) (fun _ _ _ => True) m msg
          (fun _ _ => trivial) (fun _ => trivial) with
        ⟨m', hacts, heq⟩ | ⟨-, m', hacts, heq⟩
      · rw [heq, heq]
        refine ih ?_
        rwa [hacts.frame.2.2]
      · have hsize' : m'.futureMessages.size ≤ size := by rwa [hacts.frame.2.2]
        rw [heq, heq, ← henter _ _ hsize']
        exact ih (le_trans (hshrink _ _) hsize')

theorem size_enterViewFuel
    (o : MapOrder String) (fuel : ℕ) (newView : ℤ) (n : Process) :
    (enterViewFuel cfg o fuel newView n).futureMessages.size ≤ n.futureMessages.size :=
  (moves_enterViewFuel o fuel newView n (ready_trivial cfg n)).frame.2.2.1

/-- Entering a view with more fuel than kept views does not depend on the fuel: the
messages of the entered view are gone when they are replayed. -/
theorem enterViewFuel_succ
    (o : MapOrder String) {fuel : ℕ} {newView : ℤ}
    (hfuel : n.futureMessages.size < fuel) :
    enterViewFuel cfg o fuel newView n = enterViewFuel cfg o (fuel + 1) newView n := by
  induction fuel generalizing newView n with
  | zero => exact absurd hfuel (Nat.not_lt_zero _)
  | succ fuel ih =>
      rw [enterViewFuel, enterViewFuel]
      split
      case isTrue => rfl
      case isFalse hview =>
        cases hget : n.futureMessages.get? newView with
        | none => simp [Dict.getD, hget]
        | some msgs =>
            have hsize := Dict.size_erase_lt hget
            simp only [Dict.getD, hget, Option.getD_some]
            rw [replayAll_congr (fuel - 1) (enterViewFuel cfg o (fuel + 1))]
            · exact fun view m hm => ih (by omega)
            · exact size_enterViewFuel o fuel
            · rw [(moveTo_frame cfg n newView).2]
              omega

theorem enterViewFuel_eq
    (o : MapOrder String) {fuel : ℕ} {newView : ℤ}
    (hfuel : n.futureMessages.size < fuel) :
    enterViewFuel cfg o fuel newView n = n.enterView cfg o newView := by
  obtain ⟨k, rfl⟩ := Nat.exists_eq_add_of_lt hfuel
  induction k with
  | zero => rfl
  | succ k ih =>
      rw [← ih (by omega)]
      exact (enterViewFuel_succ o (by omega)).symm

/-- **`enterView` satisfies the recursion of the source.** -/
theorem enterView_eq
    (o : MapOrder String) (newView : ℤ) :
    n.enterView cfg o newView =
      if newView ≤ n.viewNumber then n
      else
        ((n.futureMessages.getD newView []).foldl
          (fun n msg => n.replay cfg (fun newView n => n.enterView cfg o newView) msg)
          (n.moveTo cfg newView)).tryPropose cfg o := by
  rw [enterView, enterViewFuel]
  split
  case isTrue => rfl
  case isFalse =>
    cases hget : n.futureMessages.get? newView with
    | none => simp [Dict.getD, hget]
    | some msgs =>
        have hsize := Dict.size_erase_lt hget
        simp only [Dict.getD, hget, Option.getD_some]
        rw [replayAll_congr (n.futureMessages.size - 1)
          (fun newView n => n.enterView cfg o newView)]
        · exact fun view m hm => enterViewFuel_eq o (by omega)
        · exact size_enterViewFuel o _
        · rw [(moveTo_frame cfg n newView).2]
          omega

/-! ## Inputs -/

theorem moves_enterView
    (o : MapOrder String) (newView : ℤ)
    (hready : Ready cfg K fresh n) :
    Moves cfg K fresh n (n.enterView cfg o newView) :=
  moves_enterViewFuel o _ newView n hready

/-- **One input.**  The node moves, or it keeps a message of a later view. -/
theorem handle_cases
    {o : MapOrder String} {e : Event}
    (hready : Ready cfg K fresh n)
    (hnow : ∀ type view, fresh type view view)
    (hsigned : ∀ msg, e = .message msg → msg.Signed K) :
    Moves cfg K fresh n (n.handle cfg o e) ∨
      ∃ msg, e = .message msg ∧ n.viewNumber < msg.viewNumber ∧
        n.handle cfg o e = { n with
          futureMessages := n.futureMessages.set msg.viewNumber
            (n.futureMessages.getD msg.viewNumber [] ++ [msg]) } := by
  cases e with
  | start => exact Or.inl (acts_sendNewView 0 1).moves
  | command cmd =>
      left
      simp only [handle, handleClientCommand]
      split
      case isTrue => exact Relation.ReflTransGen.refl
      case isFalse =>
        split
        case isTrue => exact Relation.ReflTransGen.refl
        case isFalse =>
          have hkeep : Acts cfg K fresh n { n with
              knownCommands := cmd.id :: n.knownCommands
              pendingCommands := n.pendingCommands ++ [cmd] } :=
            (Act.quiet n.phase _ _ _ _ _ _).acts
          exact Acts.moves (hkeep.trans (acts_tryPropose o))
  | timeout view =>
      left
      simp only [handle, handleTimeout]
      split
      case isTrue => exact Relation.ReflTransGen.refl
      case isFalse => exact moves_enterView o _ hready
  | message msg =>
      have hmsg := hsigned msg rfl
      simp only [handle, handleMessage]
      split
      case isTrue => exact Or.inl Relation.ReflTransGen.refl
      case isFalse =>
        split
        case isTrue => exact Or.inl (acts_processNewView o).moves
        case isFalse =>
          split
          case isTrue hlater => exact Or.inr ⟨msg, rfl, hlater, rfl⟩
          case isFalse hnot =>
            left
            split
            case isTrue => exact Relation.ReflTransGen.refl
            case isFalse hnot' =>
              have hview : msg.viewNumber = n.viewNumber := by omega
              have hfresh : msg.asksForVote cfg = true →
                  fresh msg.type msg.viewNumber n.viewNumber := by
                intro _
                rw [hview]
                exact hnow _ _
              rcases replay_cases cfg K fresh n msg hmsg hfresh with
                ⟨m, hacts, heq⟩ | ⟨-, m, hacts, heq⟩
              · rw [heq]
                exact hacts.moves
              · rw [heq]
                exact hacts.moves.trans (moves_enterView o _ (hready.moves hacts.moves))

/-! ## Kept messages -/

/-- Messages are kept under their views, and their shares satisfy `K`. -/
def Kept (K : SignatureShare → Prop) (n : Process) : Prop :=
  ∀ view msgs, n.futureMessages.get? view = some msgs →
    ∀ msg ∈ msgs, msg.viewNumber = view ∧ msg.Signed K

/-- No request for a vote of these types is kept behind a decision of its view. -/
def InSequence (cfg : Config) (types : List MsgType) (n : Process) : Prop :=
  ∀ p ∈ n.futureMessages.entries, p.2.Pairwise fun decision msg =>
    decision.decides cfg = true → msg.asksForVote cfg = true → msg.type ∉ types

instance (types : List MsgType) (n : Process) : Decidable (InSequence cfg types n) :=
  inferInstanceAs (Decidable (∀ p ∈ n.futureMessages.entries, p.2.Pairwise _))

/-- A vote of these types is for the current view, any other for no later one. -/
def Fresh (types : List MsgType) (type : MsgType) (viewNumber current : ℤ) : Prop :=
  viewNumber ≤ current ∧ (type ∈ types → viewNumber = current)

variable {types : List MsgType}

theorem ready_of_kept
    (hkept : Kept K n)
    (hseq : InSequence cfg types n) :
    Ready cfg K (Fresh types) n := by
  intro view msgs hget
  refine ⟨fun msg hmsg => (hkept view msgs hget msg hmsg).2, ?_, ?_⟩
  · intro msg hmsg _
    have hview := (hkept view msgs hget msg hmsg).1
    exact ⟨le_of_eq hview, fun _ => hview⟩
  · refine (hseq _ (Dict.mem_entries_of_get? hget)).imp_of_mem ?_
    intro decision msg _ hmsg hlate hdecides hasks current hlt
    have hview := (hkept view msgs hget msg hmsg).1
    exact ⟨by omega, fun hmem => absurd hmem (hlate hdecides hasks)⟩

/-- **One input, with the messages that are kept.** -/
theorem Kept.handle
    {o : MapOrder String} {e : Event}
    (hkept : Kept K n)
    (hseq : InSequence cfg types n)
    (hsigned : ∀ msg, e = .message msg → msg.Signed K) :
    Kept K (n.handle cfg o e) ∧
      (Moves cfg K (Fresh types) n (n.handle cfg o e) ∨
        ∃ futureMessages, n.handle cfg o e = { n with futureMessages := futureMessages }) := by
  rcases handle_cases (o := o) (e := e) (ready_of_kept hkept hseq)
      (fun _ view => ⟨le_refl view, fun _ => rfl⟩) hsigned with hmoves | ⟨msg, he, -, heq⟩
  · refine ⟨fun view msgs hget => hkept view msgs (hmoves.frame.2.2.2 view msgs hget), ?_⟩
    exact Or.inl hmoves
  · refine ⟨?_, Or.inr ⟨_, heq⟩⟩
    rw [heq]
    intro view msgs hget
    simp only [Dict.get?_set] at hget
    split at hget
    case isFalse => exact hkept view msgs hget
    case isTrue hview =>
      cases hget
      intro m hm
      rcases List.mem_append.mp hm with hold | hnew
      · unfold Dict.getD at hold
        cases hget : n.futureMessages.get? msg.viewNumber with
        | none => simp [hget] at hold
        | some old =>
            rw [hview]
            exact hkept _ old hget m (by simpa [hget] using hold)
      · rw [List.mem_singleton] at hnew
        subst hnew
        exact ⟨hview.symm, hsigned m he⟩

end Moves

end Process

end GoHotStuff
end DistributedConsensus
