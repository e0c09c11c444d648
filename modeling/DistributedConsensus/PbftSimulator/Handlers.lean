import DistributedConsensus.PbftSimulator.Decision
import DistributedConsensus.PbftSimulator.Node
import Mathlib.Logic.Relation

/-!
# PBFT simulator: what a handler may do

A handler has few effects on the data that safety depends on.  `Acts` lists them
with their conditions, and every handler is a sequence of them.  While a node
installs a view, the entries of the X set that it has still to process are part of
the stage that it is in.

The code leaves out some checks.  They are named in `Defect`; whether a message
avoids one of them is a condition on the node before the step.  The effects that
only a missing check makes possible are allowed for the defects in `D`.
-/

namespace DistributedConsensus
namespace PbftSimulator

open Foundations

/-- The checks that the code leaves out. -/
inductive Defect where
  /-- A PREPARE of the primary counts. -/
  | primaryVote
  /-- A sequence number becomes prepared without a PRE-PREPARE of the current view. -/
  | stalePrepare
  /-- A PRE-PREPARE is accepted while the NEW-VIEW of its view is missing. -/
  | earlyAccept
  /-- A NEW-VIEW replaces a PRE-PREPARE of the same view. -/
  | contradiction
  /-- A primary returns to a view that it has given up. -/
  | regress
  /-- An X set leaves out decisions. -/
  | looseX
  /-- A request has the digest of the NULL request. -/
  | nullDigest
deriving DecidableEq

namespace Message

def request? : Message → Option Request
  | request m => some m
  | _ => none

def prePrepare? : Message → Option PrePrepare
  | prePrepare m => some m
  | _ => none

def prepare? : Message → Option Vote
  | prepare m => some m
  | _ => none

def viewChangeAck? : Message → Option ViewChangeAck
  | viewChangeAck m => some m
  | _ => none

def newView? : Message → Option NewView
  | newView m => some m
  | _ => none

end Message

namespace Node

variable (c : Config)

/-- An X set that names no sequence number twice and has no empty digest. -/
def Strict (m : NewView) : Prop :=
  (m.xSet.map XEntry.sequence).Nodup ∧ ∀ x ∈ m.xSet, x.digest ≠ ""

instance (m : NewView) : Decidable (Strict m) := inferInstanceAs (Decidable (_ ∧ _))

/-- The new view keeps the PRE-PREPAREs that the node has accepted in it. -/
def Respects (n : Node) (m : NewView) : Prop :=
  ∀ x ∈ m.xSet, x.digest ≠ "null" → n.prePreparedView.get? x.sequence = some m.view →
    n.prePrepareReceived.get? x.sequence = some x.digest

instance (n : Node) (m : NewView) : Decidable (n.Respects m) :=
  inferInstanceAs (Decidable (∀ x ∈ m.xSet, _ → _ → _))

/-- The PREPARE is recorded. -/
def count (n : Node) (m : Vote) : Node :=
  { n with prepareVotes := recordVote n.prepareVotes m.sequence m.view m.digest m.senderID }

/-- The NEW-VIEW message that a received message makes the node look at. -/
def looksAt (n : Node) : Message → Option NewView
  | .newView m => some m
  | .viewChange m => n.pendingNewView.get? m.view
  | _ => none

/-- The own PREPARE is recorded and sent. -/
def vote (n : Node) (sequence : ℤ) (digest : String) (view : ℤ) : Node :=
  { n with
    prepareVotes := recordVote n.prepareVotes sequence view digest n.id }.broadcast c
      (.prepare ⟨view, sequence, digest, n.id⟩)

/-- The acknowledgement is recorded. -/
def acknowledged (n : Node) (a : ViewChangeAck) : Node :=
  { n with
    viewChangeAckCount := n.viewChangeAckCount.set (a.view, a.ackTarget)
      (if a.senderID = a.ackTarget then n.viewChangeAckCount.getD (a.view, a.ackTarget) ∅
        else insert a.senderID (n.viewChangeAckCount.getD (a.view, a.ackTarget) ∅)) }

/-- Receiving the message does not rely on the missing check. -/
def Avoids (n : Node) (m : Message) : Defect → Prop
  | .primaryVote => ∀ v ∈ m.prepare?, v.view = n.view → v.senderID ≠ primary c v.view
  | .stalePrepare =>
      (∀ v ∈ m.prepare?, v.view = n.view →
        (n.count v).isPrepared c v.sequence v.digest v.view = true →
          n.prePreparedView.get? v.sequence = some v.view) ∧
        ∀ r ∈ m.request?, ∀ p ∈ n.pendingPrePrepares.get? r.digest,
          (n.vote c p.sequence p.digest p.view).isPrepared c p.sequence p.digest p.view = true →
            p.view = n.view
  | .earlyAccept => ∀ p ∈ m.prePrepare?, p.view = n.view → p.senderID = primary c p.view →
      n.activeView = true
  | .contradiction => ∀ v ∈ n.looksAt m, v.view = n.view → n.Respects v
  | .regress => ∀ a ∈ m.viewChangeAck?, a.view < n.view → n.id = primary c a.view →
      a.view ∉ n.newViewSent → ((n.acknowledged a).qualified c a.view).size < quorumSize c.F
  | .looseX => ∀ v ∈ m.newView?, v.senderID = primary c v.view → n.view ≤ v.view → Strict v
  | .nullDigest =>
      (∀ r ∈ m.request?, n.activeView = true → primary c n.view = n.id → r.digest ≠ "null") ∧
        ∀ p ∈ m.prePrepare?, p.view = n.view → p.senderID = primary c p.view → p.digest ≠ "null"

instance (n : Node) (m : Message) : ∀ x, Decidable (n.Avoids c m x)
  | .primaryVote => inferInstanceAs (Decidable (∀ v ∈ m.prepare?, _ → _))
  | .stalePrepare => inferInstanceAs (Decidable ((∀ v ∈ m.prepare?, _ → _ → _) ∧
      ∀ r ∈ m.request?, ∀ p ∈ n.pendingPrePrepares.get? r.digest, _ → _))
  | .earlyAccept => inferInstanceAs (Decidable (∀ p ∈ m.prePrepare?, _ → _ → _))
  | .contradiction => inferInstanceAs (Decidable (∀ v ∈ n.looksAt m, _ → _))
  | .regress => inferInstanceAs (Decidable (∀ a ∈ m.viewChangeAck?, _ → _ → _ → _))
  | .looseX => inferInstanceAs (Decidable (∀ v ∈ m.newView?, _ → _ → _))
  | .nullDigest => inferInstanceAs (Decidable ((∀ r ∈ m.request?, _ → _ → _) ∧
      ∀ p ∈ m.prePrepare?, _ → _ → _))

/-- The node has sent the message. -/
def HasSent (n : Node) (m : Message) : Prop := ∃ p ∈ n.sent, p.msg = m

instance (n : Node) (m : Message) : Decidable (n.HasSent m) :=
  inferInstanceAs (Decidable (∃ p ∈ n.sent, p.msg = m))

/-- The VIEW-CHANGE messages of a view that the node has stored. -/
def stored (n : Node) (view sender : ℤ) : Option ViewChange :=
  (n.viewChangeLog.getD view Dict.empty).get? sender

/-- A quorum of stored VIEW-CHANGE messages supports the X set of a new view. -/
structure Supports (n : Node) (S : Dict ℤ ViewChange) (m : NewView) : Prop where
  quorum : quorumSize c.F ≤ S.size
  stored : ∀ k vc, S.get? k = some vc → n.stored m.view k = some vc
  agrees : ∃ o, (decisionProcedure c.F o S).agreesWith m.xSet = true

/-- The X set has an entry for every sequence number that has to be decided. -/
def Covers (S : Dict ℤ ViewChange) (m : NewView) : Prop :=
  ∀ seq ∈ seqSet S.values, ∃ x ∈ m.xSet, x.sequence = seq

/-- Only data that safety does not depend on has changed. -/
def Quiet (n n' : Node) : Prop :=
  ∃ assigned requests timer acks executed replies, n' = { n with
    assignedRequests := assigned
    requestLog := requests
    timerActive := timer
    viewChangeAckCount := acks
    executedDigests := executed
    replies := replies }

theorem Quiet.refl (n : Node) : Quiet n n := ⟨_, _, _, _, _, _, rfl⟩

theorem Quiet.trans
    {n n' n'' : Node}
    (h : Quiet n n')
    (h' : Quiet n' n'') :
    Quiet n n'' := by
  obtain ⟨_, _, _, _, _, _, rfl⟩ := h
  obtain ⟨_, _, _, _, _, _, rfl⟩ := h'
  exact ⟨_, _, _, _, _, _, rfl⟩

/-- A new request gets the next sequence number. -/
def propose (n : Node) (m : Request) : Node :=
  startConsensusFor c { n with seqCounter := n.seqCounter + 1 } m (n.seqCounter + 1)

/-- A node sends its NEW-VIEW message. -/
def announce (n : Node) (m : NewView) : Node :=
  { n with newViewSent := insert m.view n.newViewSent }.broadcast c (.newView m)

/-- A node with the entries of the X set that it has still to process. -/
structure Stage where
  node : Node
  rest : List XEntry

/-- The effects of a handler. -/
inductive Acts (D : Defect → Prop) (e : Option Message) : Stage → Stage → Prop
  | quiet {n n' : Node} {r : List XEntry} : Quiet n n' → Acts D e ⟨n, r⟩ ⟨n', r⟩
  | acknowledge {n : Node} {r : List XEntry} {to' : List ℤ} {a : ViewChangeAck} :
      a.senderID = n.id →
      Acts D e ⟨n, r⟩ ⟨{ n with sent := n.sent ++ [⟨to', .viewChangeAck a⟩] }, r⟩
  | fetch {n : Node} {r : List XEntry} {to' : List ℤ} {f : FetchViewChange} :
      f.senderID = n.id →
      Acts D e ⟨n, r⟩ ⟨{ n with sent := n.sent ++ [⟨to', .fetchViewChange f⟩] }, r⟩
  | forward {n : Node} {r : List XEntry} {to' : List ℤ} {view sender : ℤ} {vc : ViewChange} :
      n.stored view sender = some vc →
      Acts D e ⟨n, r⟩ ⟨{ n with sent := n.sent ++ [⟨to', .viewChange vc⟩] }, r⟩
  | propose {n : Node} {m : Request} : e = some (.request m) → n.activeView = true →
      primary c n.view = n.id → (D .nullDigest ∨ m.digest ≠ "null") →
      Acts D e ⟨n, []⟩ ⟨n.propose c m, []⟩
  | accept {n : Node} {m : PrePrepare} : e = some (.prePrepare m) → m.view = n.view →
      m.senderID = primary c m.view → m.senderID ≠ n.id → n.conflicts m = false →
      (D .earlyAccept ∨ n.activeView = true) → (D .nullDigest ∨ m.digest ≠ "null") →
      Acts D e ⟨n, []⟩ ⟨n.accept m.sequence m.digest m.view, []⟩
  | await {n : Node} {m : PrePrepare} : e = some (.prePrepare m) → m.view = n.view →
      m.senderID = primary c m.view → m.senderID ≠ n.id →
      n.prePrepareReceived.get? m.sequence = some m.digest →
      n.prePreparedView.get? m.sequence = some m.view →
      Acts D e ⟨n, []⟩ ⟨{ n with
        pendingPrePrepares := n.pendingPrePrepares.set m.digest m }, []⟩
  | vote {n : Node} {r : List XEntry} {s v : ℤ} {d : String} : v = n.view →
      primary c v ≠ n.id → n.prePrepareReceived.get? s = some d →
      n.prePreparedView.get? s = some v →
      Acts D e ⟨n, r⟩ ⟨n.vote c s d v, r⟩
  | resume {n : Node} {key : String} {p : PrePrepare} : n.pendingPrePrepares.get? key = some p →
      Acts D e ⟨n, []⟩ ⟨{ n with
        pendingPrePrepares := n.pendingPrePrepares.erase key }.vote c p.sequence p.digest
          p.view, []⟩
  | count {n : Node} {m : Vote} : e = some (.prepare m) → m.view = n.view →
      (D .primaryVote ∨ m.senderID ≠ primary c m.view) → Acts D e ⟨n, []⟩ ⟨n.count m, []⟩
  | prepare {n : Node} {r : List XEntry} {s v : ℤ} {d : String} :
      n.isPrepared c s d v = true →
      (D .stalePrepare ∨ v = n.view ∧ n.prePreparedView.get? s = some v) →
      Acts D e ⟨n, r⟩ ⟨n.setPrepared c s d v, r⟩
  | enter {n : Node} {r : List XEntry} {s v : ℤ} {d : String} :
      n.HasSent (.prepare ⟨v, s, d, n.id⟩) →
      Acts D e ⟨n, r⟩ ⟨{ n with enteredPrePrepared := n.enteredPrePrepared.set s v }, r⟩
  | countCommit {n : Node} {m : Vote} : e = some (.commit m) → m.view = n.view →
      Acts D e ⟨n, []⟩ ⟨{ n with
        commitVotes := recordVote n.commitVotes m.sequence m.view m.digest m.senderID }, []⟩
  | commit {n : Node} {r : List XEntry} {s v : ℤ} {d : String} :
      quorumSize c.F ≤ countVotes n.commitVotes s v d → s ∉ n.committed →
      n.preparedSent.getD s false = true → n.prePrepareReceived.getD s "" = d →
      Acts D e ⟨n, r⟩ ⟨{ n with
        committed := insert s n.committed
        log := n.log ++ [(s, d)] }, r⟩
  | leave {n : Node} (o : Orders) :
      Acts D e ⟨n, []⟩ ⟨n.leaveView.broadcast c (.viewChange (n.viewChangeMessage o)), []⟩
  | store {n : Node} {vc : ViewChange} :
      (e = some (.viewChange vc) ∨ vc.senderID = n.id ∧ n.HasSent (.viewChange vc)) →
      n.stored vc.view vc.senderID = none →
      Acts D e ⟨n, []⟩ ⟨n.storeViewChange vc, []⟩
  | hold {n : Node} {m : NewView} : e = some (.newView m) → m.senderID = primary c m.view →
      m.senderID ≠ n.id → (D .looseX ∨ Strict m) →
      Acts D e ⟨n, []⟩ ⟨{ n with pendingNewView := n.pendingNewView.set m.view m }, []⟩
  | drop {n : Node} {view : ℤ} :
      Acts D e ⟨n, []⟩ ⟨{ n with pendingNewView := n.pendingNewView.erase view }, []⟩
  | announce {n : Node} {m : NewView} {S : Dict ℤ ViewChange} : primary c m.view = n.id →
      m.senderID = n.id → m.view ∉ n.newViewSent → n.Supports c S m → Covers S m →
      n.activeView = true → m.view = n.view → Acts D e ⟨n, []⟩ ⟨n.announce c m, []⟩
  | lead {n : Node} {m : NewView} {S : Dict ℤ ViewChange} : primary c m.view = n.id →
      m.senderID = n.id → m.view ∉ n.newViewSent → n.Supports c S m → Covers S m →
      ¬(n.activeView = true ∧ n.view = m.view) → (D .regress ∨ n.view ≤ m.view) →
      (D .contradiction ∨ n.Respects m) →
      Acts D e ⟨n, []⟩ ⟨(n.announce c m).activate m, m.xSet⟩
  | install {n : Node} {m : NewView} {S : Dict ℤ ViewChange} :
      n.pendingNewView.get? m.view = some m → n.Supports c S m → (D .looseX ∨ Covers S m) →
      ¬(n.activeView = true ∧ n.view = m.view) → n.view ≤ m.view →
      (D .contradiction ∨ n.Respects m) →
      Acts D e ⟨n, []⟩ ⟨{ n with
        pendingNewView := n.pendingNewView.erase m.view }.activate m, m.xSet⟩
  | skip {n : Node} {r : List XEntry} {x : XEntry} : x.digest = "null" →
      Acts D e ⟨n, x :: r⟩ ⟨n, r⟩
  | adopt {n : Node} {r : List XEntry} {x : XEntry} : x.digest ≠ "null" →
      Acts D e ⟨n, x :: r⟩ ⟨n.accept x.sequence x.digest n.view, r⟩
  | repropose {n : Node} {r : List XEntry} {m : NewView} {x : XEntry} :
      n.HasSent (.newView m) → m.senderID = n.id → m.view = n.view → x ∈ m.xSet →
      x.digest ≠ "null" →
      Acts D e ⟨n, r⟩ ⟨n.broadcast c
        (.prePrepare ⟨m.view, x.sequence, x.digest, n.id, x.payload⟩), r⟩

/-- A sequence of effects. -/
abbrev Runs (D : Defect → Prop) (e : Option Message) : Stage → Stage → Prop :=
  Relation.ReflTransGen (Acts c D e)

variable {c} {D : Defect → Prop} {e : Option Message} {n n' : Node} {r : List XEntry} {s s' : Stage}

/-! ## What every effect keeps -/

theorem Acts.id (h : Acts c D e s s') : s'.node.id = s.node.id := by
  cases h with
  | quiet hq =>
      obtain ⟨_, _, _, _, _, _, rfl⟩ := hq
      rfl
  | _ => rfl

theorem Runs.id (h : Runs c D e s s') : s'.node.id = s.node.id := by
  induction h with
  | refl => rfl
  | tail _ hact ih => exact hact.id.trans ih

theorem Acts.sent (h : Acts c D e s s') : s.node.sent <+: s'.node.sent := by
  cases h with
  | quiet hq =>
      obtain ⟨_, _, _, _, _, _, rfl⟩ := hq
      exact List.prefix_refl _
  | acknowledge | fetch | forward | propose | vote | resume | prepare | leave | announce | lead
  | repropose => exact List.prefix_append _ _
  | _ => exact List.prefix_refl _

theorem Runs.sent (h : Runs c D e s s') : s.node.sent <+: s'.node.sent := by
  induction h with
  | refl => exact List.prefix_refl _
  | tail _ hact ih => exact ih.trans hact.sent

theorem HasSent.mono {m : Message} (h : n.HasSent m) (hsent : n.sent <+: n'.sent) :
    n'.HasSent m := by
  obtain ⟨p, hp, hm⟩ := h
  exact ⟨p, hsent.subset hp, hm⟩

/-! ## The NEW-VIEW messages of other nodes -/

/-- The pending NEW-VIEW messages have passed the checks of the source. -/
def Held (c : Config) (D : Defect → Prop) (n : Node) : Prop :=
  ∀ v m, n.pendingNewView.get? v = some m →
    m.view = v ∧ m.senderID = primary c v ∧ m.senderID ≠ n.id ∧ (D .looseX ∨ Strict m)

theorem Held.erase
    {v : ℤ}
    (h : Held c D n) :
    Held c D { n with pendingNewView := n.pendingNewView.erase v } := by
  intro u m hm
  simp only [Dict.get?_erase] at hm
  split at hm
  case isTrue => cases hm
  case isFalse => exact h u m hm

theorem Acts.held
    (hact : Acts c D e s s')
    (h : Held c D s.node) :
    Held c D s'.node := by
  cases hact with
  | quiet hq =>
      obtain ⟨_, _, _, _, _, _, rfl⟩ := hq
      exact h
  | @hold n m _ hsender hother hstrict =>
      intro v m' hm'
      simp only [Dict.get?_set] at hm'
      split at hm'
      case isTrue hv =>
        cases hm'
        exact ⟨hv.symm, by rw [hv]; exact hsender, hother, hstrict⟩
      case isFalse => exact h v m' hm'
  | drop => exact h.erase
  | install => exact h.erase
  | _ => exact h

theorem Runs.held
    (hruns : Runs c D e s s')
    (h : Held c D s.node) :
    Held c D s'.node := by
  induction hruns with
  | refl => exact h
  | tail _ hact ih => exact hact.held ih

/-! ## Sanity of a node that keeps its views -/

/-- What the checks of the code guarantee for a node that never returns to an
earlier view. -/
structure Sane (c : Config) (s : Stage) : Prop where
  bounded : ∀ q v, s.node.prePreparedView.get? q = some v → v ≤ s.node.view
  pending : ∀ key p, s.node.pendingPrePrepares.get? key = some p →
    p.view ≤ s.node.view ∧ (p.view = s.node.view →
      s.node.prePreparedView.get? p.sequence = some p.view)
  own : primary c s.node.view = s.node.id → s.node.activeView = false →
    ∀ q, s.node.prePreparedView.get? q ≠ some s.node.view
  installing : s.rest ≠ [] → s.node.activeView = true

theorem Sane.accept
    {q : ℤ} {d : String}
    (h : Sane c s)
    (hown : primary c s.node.view = s.node.id → s.node.activeView = true)
    (hrest : r ≠ [] → s.node.activeView = true) :
    Sane c ⟨s.node.accept q d s.node.view, r⟩ where
  bounded q' v hv := by
    simp only [Node.accept, Dict.get?_set] at hv
    split at hv
    case isTrue => exact (Option.some.inj hv).ge
    case isFalse => exact h.bounded q' v hv
  pending key p hp := by
    refine ⟨(h.pending key p hp).1, ?_⟩
    intro hview
    simp only [Node.accept, Dict.get?_set]
    split
    case isTrue => exact congrArg some hview.symm
    case isFalse => exact (h.pending key p hp).2 hview
  own hprimary hwaiting := by
    have hactive := hown hprimary
    rw [show s.node.activeView = false from hwaiting] at hactive
    cases hactive
  installing := hrest

/-- A later view, or the same one as an active node. -/
theorem Sane.advance
    {v : ℤ} {b : Bool}
    (h : Sane c s)
    (hview : n'.view = v)
    (hactive : n'.activeView = b)
    (hprePrepared : n'.prePreparedView = s.node.prePreparedView)
    (hpending : n'.pendingPrePrepares = s.node.pendingPrePrepares)
    (hlater : s.node.view < v ∨ s.node.view = v ∧ b = true)
    (hrest : r ≠ [] → b = true) :
    Sane c ⟨n', r⟩ where
  bounded q u hu := by
    have hle := h.bounded q u (by rwa [← hprePrepared])
    show u ≤ n'.view
    omega
  pending key p hp := by
    obtain ⟨hle, hcurrent⟩ := h.pending key p (by rwa [← hpending])
    refine ⟨?_, ?_⟩
    · show p.view ≤ n'.view
      omega
    · intro heq
      show n'.prePreparedView.get? p.sequence = some p.view
      rw [hprePrepared]
      refine hcurrent ?_
      have heq' : p.view = n'.view := heq
      omega
  own hprimary hwaiting q hq := by
    have hwaiting' : b = false := hactive.symm.trans hwaiting
    have hle := h.bounded q n'.view (by rw [← hprePrepared]; exact hq)
    rcases hlater with hlt | ⟨-, htrue⟩
    · omega
    · rw [hwaiting'] at htrue
      cases htrue
  installing hr := hactive.trans (hrest hr)

theorem Acts.sane
    (hD : ¬D .regress)
    (hact : Acts c D e s s')
    (h : Sane c s) :
    Sane c s' := by
  cases hact with
  | quiet hq =>
      obtain ⟨_, _, _, _, _, _, rfl⟩ := hq
      exact ⟨h.bounded, h.pending, h.own, h.installing⟩
  | @propose n m _ hactive hprimary _ =>
      have h' := h.accept (q := n.seqCounter + 1) (d := m.digest) (r := []) (fun _ => hactive)
        (fun _ => hactive)
      exact ⟨h'.bounded, h'.pending, h'.own, h'.installing⟩
  | accept _ hview hsender hother =>
      rw [hview]
      refine h.accept (fun hprimary => ?_) (fun hr => absurd rfl hr)
      rw [hview, hprimary] at hsender
      exact absurd hsender hother
  | @await n m _ hview _ _ _ hcurrent =>
      refine ⟨h.bounded, ?_, h.own, h.installing⟩
      intro key p hp
      simp only [Dict.get?_set] at hp
      split at hp
      case isTrue =>
        cases hp
        exact ⟨hview.le, fun _ => hcurrent⟩
      case isFalse => exact h.pending key p hp
  | @resume n key p _ =>
      refine ⟨h.bounded, ?_, h.own, h.installing⟩
      intro key' p' hp'
      have hp'' : (n.pendingPrePrepares.erase key).get? key' = some p' := hp'
      rw [Dict.get?_erase] at hp''
      split at hp''
      case isTrue => cases hp''
      case isFalse => exact h.pending key' p' hp''
  | @leave n o =>
      exact h.advance (v := n.view + 1) (b := false) rfl rfl rfl rfl
        (Or.inl (show n.view < n.view + 1 by omega)) (fun hr => absurd rfl hr)
  | @lead n m S _ _ _ _ _ hopen hregress _ =>
      have hle := hregress.resolve_left hD
      refine h.advance (v := m.view) (b := true) rfl rfl rfl rfl ?_
        (fun _ => rfl)
      rcases hle.lt_or_eq with hlt | heq
      · exact Or.inl hlt
      · exact Or.inr ⟨heq, rfl⟩
  | @install n m S _ _ _ hopen hle _ =>
      refine h.advance (v := m.view) (b := true) rfl rfl rfl rfl ?_ (fun _ => rfl)
      rcases hle.lt_or_eq with hlt | heq
      · exact Or.inl hlt
      · exact Or.inr ⟨heq, rfl⟩
  | @skip n r x _ =>
      exact ⟨h.bounded, h.pending, h.own, fun _ => h.installing (by simp)⟩
  | @adopt n r x _ =>
      exact h.accept (fun _ => h.installing (by simp)) (fun _ => h.installing (by simp))
  | _ => exact ⟨h.bounded, h.pending, h.own, h.installing⟩

theorem Runs.sane
    (hD : ¬D .regress)
    (hruns : Runs c D e s s')
    (h : Sane c s) :
    Sane c s' := by
  induction hruns with
  | refl => exact h
  | tail _ hact ih => exact hact.sane hD ih

end Node

end PbftSimulator
end DistributedConsensus
