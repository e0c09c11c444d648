import DistributedConsensus.Foundations.Dict
import Mathlib.Data.Int.Notation

/-!
# Link simulator: messages, keys and links

The three links that are stacked on a fair-loss link.  A stubborn link sends all its
messages again every few steps, a perfect link drops copies, an authenticated link
adds a MAC to every message and checks it.

A MAC is represented by its key and its content, so that nobody can compute one
without the key.  Losses are decided by the random numbers of the run.
-/

namespace DistributedConsensus
namespace LinkSimulator

open Foundations

abbrev ProcessID := String

/-- A string in the metadata of a message. -/
inductive Tag where
  /-- A MAC of a content under the key of a process. -/
  | mac (owner : ProcessID) (content : String)
  | text (s : String)
  deriving DecidableEq, Repr

inductive MetaValue where
  | string (s : Tag)
  /-- A value that is no string. -/
  | other (s : String)
  deriving DecidableEq, Repr

/-- A message with a payload of type `δ`. -/
structure Message (δ : Type) where
  fromId : ProcessID
  toId : ProcessID
  type : String
  data : δ
  metadata : Dict String MetaValue

/-! ## Keys -/

/-- The processes with a key. -/
structure KeyRegistry where
  keys : List ProcessID

namespace KeyRegistry

def sign (kr : KeyRegistry) (p : ProcessID) (content : String) : Tag :=
  if p ∈ kr.keys then .mac p content else .text ""

def verify (kr : KeyRegistry) (p : ProcessID) (content : String) (tag : Tag) : Bool :=
  let expected := kr.sign p content
  if expected = .text "" then false else expected = tag

/-- Only the MAC of the content under the key of the process is verified. -/
theorem verify_spec
    {kr : KeyRegistry} {p : ProcessID} {content : String} {tag : Tag}
    (h : kr.verify p content tag = true) :
    tag = .mac p content := by
  unfold verify sign at h
  by_cases hkey : p ∈ kr.keys
  · simp only [if_pos hkey, reduceCtorEq, if_false, decide_eq_true_eq] at h
    exact h.symm
  · simp [if_neg hkey] at h

end KeyRegistry

variable {δ : Type} (fmt : δ → String)

namespace Message

/-- `fmt.Sprintf("%s:%s:%s:%v", m.From, m.To, m.Type, m.Data)`. -/
def contentString (m : Message δ) : String :=
  m.fromId ++ ":" ++ m.toId ++ ":" ++ m.type ++ ":" ++ fmt m.data

/-- `msg.Meta["mac"].(string)`. -/
def tag? (m : Message δ) : Option Tag :=
  match m.metadata.get? "mac" with
  | some (.string t) => some t
  | _ => none

/-- The message has the mark of injected messages. -/
def isInjected (m : Message δ) : Bool := m.metadata.contains "_injected"

/-- The message that `Inject` enqueues. -/
def markInjected (m : Message δ) : Message δ :=
  { m with metadata := m.metadata.set "_injected" (.other "true") }

end Message

/-! ## Fair-loss, stubborn and perfect links -/

/-- `FairLossLink.Send`: the message may be lost. -/
def fairLossSend (lost : Bool) (m : Message δ) : List (Message δ) := if lost then [] else [m]

structure StubbornLink (δ : Type) where
  sent : List (Message δ)
  retransmitInterval : ℤ

namespace StubbornLink

/-- `NewStubbornLink`. -/
def new (retransmitInterval : ℤ) : StubbornLink δ :=
  ⟨[], if retransmitInterval ≤ 0 then 3 else retransmitInterval⟩

def send (l : StubbornLink δ) (lost : Bool) (m : Message δ) :
    StubbornLink δ × List (Message δ) :=
  ({ l with sent := l.sent ++ [m] }, fairLossSend lost m)

def tick (l : StubbornLink δ) (step : ℤ) (losses : ℕ → Bool) : List (Message δ) :=
  if Int.tmod step l.retransmitInterval ≠ 0 then []
  else l.sent.zipIdx.flatMap fun x => fairLossSend (losses x.2) x.1

theorem mem_of_mem_tick
    {l : StubbornLink δ} {step : ℤ} {losses : ℕ → Bool} {m : Message δ}
    (h : m ∈ l.tick step losses) :
    m ∈ l.sent := by
  unfold tick at h
  split at h
  case isTrue => cases h
  case isFalse =>
    obtain ⟨⟨x, k⟩, hx, hm⟩ := List.mem_flatMap.mp h
    unfold fairLossSend at hm
    split at hm
    case isTrue => cases hm
    case isFalse =>
      rw [List.mem_singleton.mp hm]
      exact List.fst_mem_of_mem_zipIdx hx

end StubbornLink

structure PerfectLink (δ : Type) where
  underlying : StubbornLink δ
  delivered : List String

namespace PerfectLink

def send (l : PerfectLink δ) (lost : Bool) (m : Message δ) : PerfectLink δ × List (Message δ) :=
  let out := l.underlying.send lost m
  ({ l with underlying := out.1 }, out.2)

/-- The key of a message is its content string. -/
def receive (l : PerfectLink δ) (m : Message δ) : PerfectLink δ × Bool :=
  let key := m.contentString fmt
  if key ∈ l.delivered then (l, false) else ({ l with delivered := key :: l.delivered }, true)

end PerfectLink

/-! ## The authenticated link -/

structure AuthenticatedLink (δ : Type) where
  underlying : PerfectLink δ
  keys : KeyRegistry

namespace AuthenticatedLink

/-- The message with the MAC under the key of its sender. -/
def authenticate (l : AuthenticatedLink δ) (m : Message δ) : Message δ :=
  { m with
    metadata := m.metadata.set "mac" (.string (l.keys.sign m.fromId (m.contentString fmt))) }

def send (l : AuthenticatedLink δ) (lost : Bool) (m : Message δ) :
    AuthenticatedLink δ × List (Message δ) :=
  let out := l.underlying.send lost (l.authenticate fmt m)
  ({ l with underlying := out.1 }, out.2)

def tick (l : AuthenticatedLink δ) (step : ℤ) (losses : ℕ → Bool) : List (Message δ) :=
  l.underlying.underlying.tick step losses

/-- First the copies are dropped, then the MAC is checked. -/
def receive (l : AuthenticatedLink δ) (m : Message δ) : AuthenticatedLink δ × Bool :=
  let out := l.underlying.receive fmt m
  let l := { l with underlying := out.1 }
  if out.2 = false then (l, false)
  else
    match m.tag? with
    | none => (l, false)
    | some tag => (l, l.keys.verify m.fromId (m.contentString fmt) tag)

/-- The messages that the stubborn link keeps. -/
def sent (l : AuthenticatedLink δ) : List (Message δ) := l.underlying.underlying.sent

variable {fmt} {l : AuthenticatedLink δ} {m : Message δ}

/-- Receiving does not touch the stored messages and the keys. -/
theorem receive_frame (l : AuthenticatedLink δ) (m : Message δ) :
    (l.receive fmt m).1.sent = l.sent ∧ (l.receive fmt m).1.keys = l.keys := by
  simp only [receive, PerfectLink.receive, sent]
  split
  case isTrue => exact ⟨rfl, rfl⟩
  case isFalse =>
    simp only [Bool.true_eq_false, if_false]
    split <;> exact ⟨rfl, rfl⟩

/-- An accepted message carries the MAC of its sender and content. -/
theorem tag_of_receive
    (h : (l.receive fmt m).2 = true) :
    m.tag? = some (.mac m.fromId (m.contentString fmt)) := by
  unfold receive at h
  simp only at h
  split at h
  case isTrue => cases h
  case isFalse =>
    split at h
    case h_1 => cases h
    case h_2 tag htag =>
      rw [htag, KeyRegistry.verify_spec h]

/-- What sending does. -/
theorem send_spec (l : AuthenticatedLink δ) (lost : Bool) (m : Message δ) :
    (l.send fmt lost m).1.sent = l.sent ++ [l.authenticate fmt m] ∧
      ∀ x ∈ (l.send fmt lost m).2, x = l.authenticate fmt m := by
  refine ⟨rfl, ?_⟩
  intro x hx
  change x ∈ fairLossSend lost (l.authenticate fmt m) at hx
  unfold fairLossSend at hx
  split at hx
  case isTrue => cases hx
  case isFalse => exact List.mem_singleton.mp hx

end AuthenticatedLink

end LinkSimulator
end DistributedConsensus
