import DistributedConsensus.Foundations.Runs
import DistributedConsensus.LinkSimulator.Links

/-!
# Link simulator: the runtime

The single-threaded scheduler over an authenticated link.  One step takes a message
from the queue, hands it to the interceptor, applies the failure model and the link,
and delivers it.  The choices of the random number generator, the interceptor and the
losses are the label of the step.

The trace keeps the events that say where a delivered message comes from: what was
injected, what was sent and what was delivered.
-/

namespace DistributedConsensus
namespace LinkSimulator

open Foundations

/-- A failure model with a state of type `φ` that draws random numbers of type `ρ`. -/
structure FailureInjector (δ φ ρ : Type) where
  isAlive : φ → ProcessID → Bool
  shouldDeliver : φ → Message δ → Bool
  maybeAlter : φ → ProcessID → List (Message δ) → ρ → List (Message δ)
  crashProcess : φ → ProcessID → φ

/-- `NoFailure`: all processes are correct. -/
def noFailure (δ ρ : Type) : FailureInjector δ Unit ρ where
  isAlive _ _ := true
  shouldDeliver _ _ := true
  maybeAlter _ _ msgs _ := msgs
  crashProcess s _ := s

/-- The parts of a simulation that do not change during a run. -/
structure Simulation (δ σ φ ρ : Type) where
  /-- How the payload is printed. -/
  fmt : δ → String
  /-- `Process.Handle` of a process in a state. -/
  handle : ProcessID → σ → Message δ → σ × List (Message δ)
  failures : FailureInjector δ φ ρ
  initialFailures : φ
  keys : KeyRegistry
  retransmitInterval : ℤ
  /-- The processes that follow their algorithm. -/
  correct : ProcessID → Bool

inductive Event (δ : Type) where
  | inject (m : Message δ)
  /-- A process sends a message. -/
  | send (p : ProcessID) (m : Message δ)
  | deliver (m : Message δ)

structure Runtime (δ σ φ : Type) where
  processes : Dict ProcessID σ
  queue : List (Message δ)
  link : AuthenticatedLink δ
  failures : φ
  /-- The latest event comes first. -/
  trace : List (Event δ)
  stepCount : ℤ
  /-- The messages that the interceptor was given. -/
  seen : List (Message δ)

/-- The choices of one step. -/
structure Choice (δ ρ : Type) where
  tickLosses : ℕ → Bool
  index : ℕ
  interceptor : Message δ → Message δ
  random : ρ
  sendLosses : ℕ → Bool

inductive Label (δ σ ρ : Type) where
  | register (p : ProcessID) (s : σ)
  | inject (m : Message δ)
  | crashProcess (p : ProcessID)
  | step (c : Choice δ ρ)

variable {δ σ φ ρ : Type} (S : Simulation δ σ φ ρ)

namespace Runtime

/-- `NewRuntime` over a new link. -/
def new : Runtime δ σ φ where
  processes := Dict.empty
  queue := []
  link := ⟨⟨StubbornLink.new S.retransmitInterval, []⟩, S.keys⟩
  failures := S.initialFailures
  trace := []
  stepCount := 0
  seen := []

def register (w : Runtime δ σ φ) (p : ProcessID) (s : σ) : Runtime δ σ φ :=
  { w with processes := w.processes.set p s }

def inject (w : Runtime δ σ φ) (m : Message δ) : Runtime δ σ φ :=
  { w with queue := w.queue ++ [m.markInjected], trace := .inject m :: w.trace }

def crashProcess (w : Runtime δ σ φ) (p : ProcessID) : Runtime δ σ φ :=
  { w with failures := S.failures.crashProcess w.failures p }

/-- The retransmissions of a step. -/
def tick (w : Runtime δ σ φ) (losses : ℕ → Bool) : Runtime δ σ φ :=
  { w with
    stepCount := w.stepCount + 1
    queue := w.queue ++ w.link.tick (w.stepCount + 1) losses }

/-- A message leaves the queue, and the last one takes its place. -/
def dequeue (w : Runtime δ σ φ) (index : ℕ) (m : Message δ) : Runtime δ σ φ :=
  { w with
    queue := (w.queue.set index (w.queue.getLastD m)).dropLast
    seen := m :: w.seen }

/-- `link.Receive`, which injected messages bypass. -/
def receive (w : Runtime δ σ φ) (m : Message δ) : Runtime δ σ φ × Bool :=
  if m.isInjected then (w, true)
  else
    let out := w.link.receive S.fmt m
    ({ w with link := out.1 }, out.2)

/-- A process sends one message. -/
def send (w : Runtime δ σ φ) (p : ProcessID) (lost : Bool) (out : Message δ) :
    Runtime δ σ φ :=
  let enqueued := w.link.send S.fmt lost out
  { w with
    link := enqueued.1
    queue := w.queue ++ enqueued.2
    trace := .send p out :: w.trace }

def sendAll (w : Runtime δ σ φ) (p : ProcessID) (outgoing : List (Message δ × Bool)) :
    Runtime δ σ φ :=
  outgoing.foldl (fun w out => w.send S p out.2 out.1) w

/-- What a process returns for a message, after the failure model. -/
def outgoing (w : Runtime δ σ φ) (s : σ) (m : Message δ) (random : ρ) : List (Message δ) :=
  S.failures.maybeAlter w.failures m.toId (S.handle m.toId s m).2 random

/-- The checks on an intercepted message and its delivery. -/
def deliver (w : Runtime δ σ φ) (c : Choice δ ρ) (m : Message δ) : Runtime δ σ φ :=
  if S.failures.isAlive w.failures m.toId = false then w
  else if S.failures.shouldDeliver w.failures m = false then w
  else
    let received := w.receive S m
    let w := received.1
    if received.2 = false then w
    else
      match w.processes.get? m.toId with
      | none => w
      | some s =>
          let w :=
            { w with
              trace := .deliver m :: w.trace
              processes := w.processes.set m.toId (S.handle m.toId s m).1 }
          w.sendAll S m.toId
            ((w.outgoing S s m c.random).zipIdx.map fun x => (x.1, c.sendLosses x.2))

/-- `Runtime.Step`. -/
def step (w : Runtime δ σ φ) (c : Choice δ ρ) : Option (Runtime δ σ φ) :=
  let w := w.tick c.tickLosses
  if w.queue.isEmpty then some w
  else
    match w.queue[c.index]? with
    | none => none
    | some m => some ((w.dequeue c.index m).deliver S c (c.interceptor m))

/-- The message that a step takes from the queue. -/
def picked (w : Runtime δ σ φ) (c : Choice δ ρ) : Option (Message δ) :=
  (w.tick c.tickLosses).queue[c.index]?

end Runtime

/-- The runs of a simulation. -/
def Simulation.system : System (Runtime δ σ φ) (Label δ σ ρ) where
  init := Runtime.new S
  step w
    | .register p s => some (w.register p s)
    | .inject m => some (w.inject m)
    | .crashProcess p => some (w.crashProcess S p)
    | .step c => w.step S c

/-! ## What the parts of a step do -/

namespace Runtime

variable {S} {w w' : Runtime δ σ φ} {m x : Message δ}

theorem mem_of_mem_dequeue
    {i : ℕ}
    (hm : m ∈ w.queue)
    (h : x ∈ (w.dequeue i m).queue) :
    x ∈ w.queue := by
  rcases List.mem_or_eq_of_mem_set (List.dropLast_subset _ h) with hold | hlast
  · exact hold
  · rw [hlast, List.getLastD_eq_getLast?]
    cases hq : w.queue.getLast? with
    | none => exact hm
    | some y => exact List.mem_of_getLast? hq

/-- Receiving touches nothing but the delivered keys of the link. -/
theorem receive_frame (w : Runtime δ σ φ) (m : Message δ) :
    (w.receive S m).1.queue = w.queue ∧ (w.receive S m).1.link.sent = w.link.sent ∧
      (w.receive S m).1.link.keys = w.link.keys ∧ (w.receive S m).1.trace = w.trace ∧
      (w.receive S m).1.seen = w.seen ∧ (w.receive S m).1.processes = w.processes ∧
      (w.receive S m).1.failures = w.failures := by
  unfold receive
  split
  case isTrue => exact ⟨rfl, rfl, rfl, rfl, rfl, rfl, rfl⟩
  case isFalse =>
    obtain ⟨hsent, hkeys⟩ := @AuthenticatedLink.receive_frame δ S.fmt w.link m
    exact ⟨rfl, hsent, hkeys, rfl, rfl, rfl, rfl⟩

/-- A message that passes `Receive` has the mark or the MAC of its sender. -/
theorem tag_of_receive
    (h : (w.receive S m).2 = true) :
    m.isInjected = true ∨ m.tag? = some (.mac m.fromId (m.contentString S.fmt)) := by
  unfold receive at h
  split at h
  case isTrue hmark => exact Or.inl hmark
  case isFalse => exact Or.inr (AuthenticatedLink.tag_of_receive h)

end Runtime

end LinkSimulator
end DistributedConsensus
