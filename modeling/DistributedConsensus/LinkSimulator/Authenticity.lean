import DistributedConsensus.LinkSimulator.Runtime

/-!
# Link simulator: authentic delivery

A delivered message that names a correct sender should have been sent by that sender,
or injected.  The runtime guarantees it when the interceptor does not put the mark of
injected messages on a message that it changed, when no two messages of a sender have
one content string, and when correct processes are named by their own messages only.

Nobody but the link computes MACs: everything else only reuses those that the
interceptor has seen.
-/

namespace DistributedConsensus
namespace LinkSimulator

open Foundations

variable {δ σ φ ρ : Type}

/-- Two messages with the same sender, recipient, type and payload. -/
def Message.SameContent (m m' : Message δ) : Prop :=
  m.fromId = m'.fromId ∧ m.toId = m'.toId ∧ m.type = m'.type ∧ m.data = m'.data

instance [DecidableEq δ] (m m' : Message δ) : Decidable (m.SameContent m') :=
  inferInstanceAs (Decidable (_ ∧ _ ∧ _ ∧ _))

theorem Message.SameContent.trans
    {m m' m'' : Message δ}
    (h : m.SameContent m')
    (h' : m'.SameContent m'') :
    m.SameContent m'' := by
  obtain ⟨hfrom, hto, htype, hdata⟩ := h
  obtain ⟨hfrom', hto', htype', hdata'⟩ := h'
  exact ⟨hfrom.trans hfrom', hto.trans hto', htype.trans htype', hdata.trans hdata'⟩

namespace Event

/-- The event accounts for a message with this content. -/
def Vouches (m : Message δ) : Event δ → Prop
  | .inject x => x.SameContent m
  | .send p x => p = m.fromId ∧ x.SameContent m
  | .deliver _ => False

/-- The sender of a message did not send a different one with its content string. -/
def Unambiguous (fmt : δ → String) (m : Message δ) : Event δ → Prop
  | .send p x => p = m.fromId → x.contentString fmt = m.contentString fmt → x.SameContent m
  | _ => True

instance [DecidableEq δ] (m : Message δ) : ∀ e : Event δ, Decidable (e.Vouches m)
  | .inject x => inferInstanceAs (Decidable (x.SameContent m))
  | .send p x => inferInstanceAs (Decidable (p = m.fromId ∧ x.SameContent m))
  | .deliver _ => isFalse id

instance [DecidableEq δ] (fmt : δ → String) (m : Message δ) :
    ∀ e : Event δ, Decidable (e.Unambiguous fmt m)
  | .inject _ => isTrue trivial
  | .send p x => inferInstanceAs (Decidable (p = _ → _ → x.SameContent m))
  | .deliver _ => isTrue trivial

end Event

/-- A message with this content was sent by its sender, or injected. -/
def Attributed (trace : List (Event δ)) (m : Message δ) : Prop := ∃ e ∈ trace, e.Vouches m

instance [DecidableEq δ] (trace : List (Event δ)) (m : Message δ) :
    Decidable (Attributed trace m) :=
  inferInstanceAs (Decidable (∃ e ∈ trace, e.Vouches m))

/-- Every message of a correct process was attributed to it before its delivery. -/
def Authentic (correct : ProcessID → Bool) : List (Event δ) → Prop
  | [] => True
  | .deliver m :: earlier =>
      (correct m.fromId = true → Attributed earlier m) ∧ Authentic correct earlier
  | _ :: earlier => Authentic correct earlier

instance decidableAuthentic [DecidableEq δ] (correct : ProcessID → Bool) :
    ∀ trace : List (Event δ), Decidable (Authentic correct trace)
  | [] => isTrue trivial
  | .deliver m :: earlier =>
      haveI := decidableAuthentic correct earlier
      inferInstanceAs (Decidable ((correct m.fromId = true → Attributed earlier m) ∧
        Authentic correct earlier))
  | .inject _ :: earlier => decidableAuthentic correct earlier
  | .send _ _ :: earlier => decidableAuthentic correct earlier

/-! ## The interceptor and the processes -/

variable (S : Simulation δ σ φ ρ)

/-- A MAC under the key of a correct process. -/
def MetaValue.isMacOf (correct : ProcessID → Bool) : MetaValue → Bool
  | .string (.mac p _) => correct p
  | _ => false

/-- The MACs of correct processes in a message were in messages seen before. -/
def Reused (seen : List (Message δ)) (m : Message δ) : Prop :=
  ∀ v ∈ m.metadata.values, v.isMacOf S.correct = true → ∃ x ∈ seen, v ∈ x.metadata.values

instance (seen : List (Message δ)) (m : Message δ) : Decidable (Reused S seen m) :=
  inferInstanceAs (Decidable (∀ v ∈ m.metadata.values, _ → ∃ x ∈ seen, _))

/-- What the recipient of the intercepted message returns. -/
def Runtime.replies (w : Runtime δ σ φ) (c : Choice δ ρ) (m : Message δ) : List (Message δ) :=
  match w.processes.get? m.toId with
  | none => []
  | some s => w.outgoing S s m c.random

/-- Neither the interceptor nor the experiment nor a process computes a MAC of a correct
process. -/
def Unforgeable (w : Runtime δ σ φ) : Label δ σ ρ → Prop
  | .inject m => Reused S w.seen m
  | .step c =>
      ∀ m ∈ w.picked c, Reused S (m :: w.seen) (c.interceptor m) ∧
        ∀ out ∈ w.replies S c (c.interceptor m), Reused S (m :: w.seen) out
  | _ => True

/-- Only a correct process returns messages that name it as their sender. -/
def Honest (w : Runtime δ σ φ) : Label δ σ ρ → Prop
  | .step c =>
      ∀ m ∈ w.picked c, ∀ out ∈ w.replies S c (c.interceptor m),
        S.correct out.fromId = true → out.fromId = (c.interceptor m).toId
  | _ => True

/-- The interceptor keeps the content of a message, or hands over one in the name of a
faulty process, or one that has no mark and whose content string is unambiguous. -/
def Guarded (w : Runtime δ σ φ) : Label δ σ ρ → Prop
  | .step c =>
      ∀ m ∈ w.picked c, S.correct (c.interceptor m).fromId = true →
        m.SameContent (c.interceptor m) ∨
          ((c.interceptor m).isInjected = false ∧
            ∀ e ∈ w.trace, e.Unambiguous S.fmt (c.interceptor m))
  | _ => True

section Decidable

variable (w : Runtime δ σ φ)

instance : ∀ l : Label δ σ ρ, Decidable (Unforgeable S w l)
  | .register _ _ => isTrue trivial
  | .inject m => inferInstanceAs (Decidable (Reused S w.seen m))
  | .crashProcess _ => isTrue trivial
  | .step c => inferInstanceAs (Decidable (∀ m ∈ w.picked c, _ ∧ ∀ out ∈ _, Reused S _ out))

instance : ∀ l : Label δ σ ρ, Decidable (Honest S w l)
  | .register _ _ => isTrue trivial
  | .inject _ => isTrue trivial
  | .crashProcess _ => isTrue trivial
  | .step c => inferInstanceAs (Decidable (∀ m ∈ w.picked c, ∀ out ∈ _, _ → _))

instance [DecidableEq δ] : ∀ l : Label δ σ ρ, Decidable (Guarded S w l)
  | .register _ _ => isTrue trivial
  | .inject _ => isTrue trivial
  | .crashProcess _ => isTrue trivial
  | .step c => inferInstanceAs (Decidable (∀ m ∈ w.picked c, _ → _ ∨ (_ ∧ ∀ e ∈ w.trace, _)))

end Decidable

/-! ## What backs the messages under way -/

/-- The process sent a message with this content string. -/
def Signed (trace : List (Event δ)) (p : ProcessID) (content : String) : Prop :=
  ∃ x, .send p x ∈ trace ∧ x.contentString S.fmt = content

/-- A message in the name of a correct process is attributed, and so are its MACs. -/
structure Backed (trace : List (Event δ)) (m : Message δ) : Prop where
  attributed : S.correct m.fromId = true → Attributed trace m
  signed : ∀ p content, .string (.mac p content) ∈ m.metadata.values →
    S.correct p = true → Signed S trace p content

structure Sound (w : Runtime δ σ φ) : Prop where
  queue : ∀ m ∈ w.queue, Backed S w.trace m
  sent : ∀ m ∈ w.link.sent, Backed S w.trace m
  seen : ∀ m ∈ w.seen, Backed S w.trace m
  authentic : Authentic S.correct w.trace

variable {S} {w w' : Runtime δ σ φ} {m m' out : Message δ} {p : ProcessID}

theorem Attributed.mono
    {trace : List (Event δ)} (e : Event δ)
    (h : Attributed trace m) :
    Attributed (e :: trace) m := by
  obtain ⟨x, hx, hm⟩ := h
  exact ⟨x, List.mem_cons_of_mem _ hx, hm⟩

theorem Attributed.sameContent
    {trace : List (Event δ)}
    (hsame : m.SameContent m')
    (h : Attributed trace m) :
    Attributed trace m' := by
  obtain ⟨e, he, hm⟩ := h
  refine ⟨e, he, ?_⟩
  cases e with
  | inject x => exact Message.SameContent.trans hm hsame
  | send p x => exact ⟨hm.1.trans hsame.1, hm.2.trans hsame⟩
  | deliver x => exact hm

theorem Backed.mono
    {trace : List (Event δ)} (e : Event δ)
    (h : Backed S trace m) :
    Backed S (e :: trace) m where
  attributed hcorrect := (h.attributed hcorrect).mono e
  signed p content hmac hcorrect := by
    obtain ⟨x, hx, hcontent⟩ := h.signed p content hmac hcorrect
    exact ⟨x, List.mem_cons_of_mem _ hx, hcontent⟩

/-- A message that reuses MACs carries MACs of sent messages. -/
theorem Sound.signed_of_reused
    {content : String}
    (hw : Sound S w)
    (hreused : Reused S w.seen m)
    (hmac : MetaValue.string (.mac p content) ∈ m.metadata.values)
    (hcorrect : S.correct p = true) :
    Signed S w.trace p content := by
  obtain ⟨x, hx, hv⟩ := hreused _ hmac hcorrect
  exact (hw.seen x hx).signed p content hv hcorrect

/-! ## The parts of a step -/

/-- Sending a message of the process keeps the runtime sound. -/
theorem Sound.send
    (hw : Sound S w)
    (lost : Bool)
    (hreused : Reused S w.seen out)
    (hhonest : S.correct out.fromId = true → out.fromId = p) :
    Sound S (w.send S p lost out) := by
  obtain ⟨hsent, hqueue⟩ := @AuthenticatedLink.send_spec δ S.fmt w.link lost out
  have hbacked : Backed S (.send p out :: w.trace) (w.link.authenticate S.fmt out) := by
    constructor
    case attributed =>
      intro hcorrect
      exact ⟨.send p out, List.mem_cons_self, (hhonest hcorrect).symm, rfl, rfl, rfl, rfl⟩
    case signed =>
      intro q content hmac hcorrect
      rcases Dict.mem_values_set hmac with hnew | hold
      · have htag := MetaValue.string.inj hnew
        unfold KeyRegistry.sign at htag
        split at htag
        case isTrue =>
          obtain ⟨rfl, rfl⟩ := Tag.mac.inj htag
          refine ⟨out, ?_, rfl⟩
          rw [hhonest hcorrect]
          exact List.mem_cons_self
        case isFalse => cases htag
      · obtain ⟨x, hx, hcontent⟩ := hw.signed_of_reused hreused hold hcorrect
        exact ⟨x, List.mem_cons_of_mem _ hx, hcontent⟩
  constructor
  case queue =>
    intro x hx
    rcases List.mem_append.mp hx with hold | hnew
    · exact (hw.queue x hold).mono _
    · rw [hqueue x hnew]
      exact hbacked
  case sent =>
    intro x hx
    change x ∈ (w.link.send S.fmt lost out).1.sent at hx
    rw [hsent] at hx
    rcases List.mem_append.mp hx with hold | hnew
    · exact (hw.sent x hold).mono _
    · rw [List.mem_singleton.mp hnew]
      exact hbacked
  case seen =>
    intro x hx
    exact (hw.seen x hx).mono _
  case authentic => exact hw.authentic

theorem Sound.sendAll
    {outgoing : List (Message δ × Bool)}
    (hw : Sound S w)
    (hreused : ∀ x ∈ outgoing, Reused S w.seen x.1)
    (hhonest : ∀ x ∈ outgoing, S.correct x.1.fromId = true → x.1.fromId = p) :
    Sound S (w.sendAll S p outgoing) := by
  induction outgoing generalizing w with
  | nil => exact hw
  | cons x xs ih =>
      refine ih (w := w.send S p x.2 x.1) ?_ ?_ ?_
      · exact hw.send x.2 (hreused x List.mem_cons_self) (hhonest x List.mem_cons_self)
      · intro y hy
        exact hreused y (List.mem_cons_of_mem _ hy)
      · intro y hy
        exact hhonest y (List.mem_cons_of_mem _ hy)

/-- Only the messages and the trace matter. -/
theorem Sound.congr
    (hw : Sound S w)
    (hqueue : w'.queue = w.queue)
    (hsent : w'.link.sent = w.link.sent)
    (hseen : w'.seen = w.seen)
    (htrace : w'.trace = w.trace) :
    Sound S w' := by
  obtain ⟨q, s, e, a⟩ := hw
  constructor
  · rwa [hqueue, htrace]
  · rwa [hsent, htrace]
  · rwa [hseen, htrace]
  · rwa [htrace]

/-- An accepted message of a correct process is attributed. -/
theorem Sound.attributed_of_receive
    (hw : Sound S w)
    (hm : m ∈ w.seen)
    (hreused : Reused S w.seen m')
    (hguarded : m.SameContent m' ∨
      (m'.isInjected = false ∧ ∀ e ∈ w.trace, e.Unambiguous S.fmt m'))
    (haccepted : (w.receive S m').2 = true)
    (hcorrect : S.correct m'.fromId = true) :
    Attributed w.trace m' := by
  rcases hguarded with hsame | ⟨hmark, hunambiguous⟩
  · refine Attributed.sameContent hsame ((hw.seen m hm).attributed ?_)
    rw [hsame.1]
    exact hcorrect
  · rcases Runtime.tag_of_receive haccepted with hinjected | htag
    · rw [hmark] at hinjected
      cases hinjected
    · -- the MAC was reused, so the sender signed this content string
      have hmac : MetaValue.string (.mac m'.fromId (m'.contentString S.fmt))
          ∈ m'.metadata.values := by
        unfold Message.tag? at htag
        split at htag
        case h_1 t ht =>
          rw [← Option.some.inj htag]
          exact Dict.mem_values_of_get? ht
        case h_2 => cases htag
      obtain ⟨x, hx, hcontent⟩ := hw.signed_of_reused hreused hmac hcorrect
      exact ⟨_, hx, rfl, hunambiguous _ hx rfl hcontent⟩

/-- Delivering an intercepted message keeps the runtime sound. -/
theorem Sound.deliver
    {c : Choice δ ρ}
    (hw : Sound S w)
    (hm : m ∈ w.seen)
    (hreused : Reused S w.seen m')
    (hguarded : S.correct m'.fromId = true → m.SameContent m' ∨
      (m'.isInjected = false ∧ ∀ e ∈ w.trace, e.Unambiguous S.fmt m'))
    (hreplies : ∀ out ∈ w.replies S c m', Reused S w.seen out ∧
      (S.correct out.fromId = true → out.fromId = m'.toId)) :
    Sound S (w.deliver S c m') := by
  obtain ⟨hqueue, hsent, -, htrace, hseen, hprocesses, hfailures⟩ :=
    Runtime.receive_frame (S := S) w m'
  have hr : Sound S (w.receive S m').1 := hw.congr hqueue hsent hseen htrace
  unfold Runtime.deliver
  split
  case isTrue => exact hw
  case isFalse =>
    split
    case isTrue => exact hw
    case isFalse =>
      simp only
      split
      case isTrue => exact hr
      case isFalse haccepted =>
        rw [Bool.not_eq_false] at haccepted
        rw [hprocesses]
        split
        case h_1 => exact hr
        case h_2 s hs =>
          have hout : ∀ out ∈ (w.receive S m').1.outgoing S s m' c.random,
              Reused S w.seen out ∧ (S.correct out.fromId = true → out.fromId = m'.toId) := by
            intro out hout
            refine hreplies out ?_
            unfold Runtime.replies
            rw [hs]
            unfold Runtime.outgoing at hout ⊢
            rwa [hfailures] at hout
          apply Sound.sendAll
          case hw =>
            constructor
            case queue => exact fun x hx => (hr.queue x hx).mono _
            case sent => exact fun x hx => (hr.sent x hx).mono _
            case seen => exact fun x hx => (hr.seen x hx).mono _
            case authentic =>
              refine ⟨fun hcorrect => ?_, hr.authentic⟩
              rw [htrace]
              exact hw.attributed_of_receive hm hreused (hguarded hcorrect) haccepted hcorrect
          case hreused =>
            intro x hx
            obtain ⟨⟨out, k⟩, hk, rfl⟩ := List.mem_map.mp hx
            change Reused S (w.receive S m').1.seen out
            rw [hseen]
            exact (hout out (List.fst_mem_of_mem_zipIdx hk)).1
          case hhonest =>
            intro x hx
            obtain ⟨⟨out, k⟩, hk, rfl⟩ := List.mem_map.mp hx
            exact (hout out (List.fst_mem_of_mem_zipIdx hk)).2

/-- Retransmitted messages are backed as the stored ones are. -/
theorem Sound.tick
    (hw : Sound S w)
    (losses : ℕ → Bool) :
    Sound S (w.tick losses) := by
  refine ⟨?_, hw.sent, hw.seen, hw.authentic⟩
  intro x hx
  rcases List.mem_append.mp hx with hold | hnew
  · exact hw.queue x hold
  · exact hw.sent x (StubbornLink.mem_of_mem_tick hnew)

theorem Sound.dequeue
    {i : ℕ}
    (hw : Sound S w)
    (hm : m ∈ w.queue) :
    Sound S (w.dequeue i m) := by
  refine ⟨?_, hw.sent, ?_, hw.authentic⟩
  · intro x hx
    exact hw.queue x (Runtime.mem_of_mem_dequeue hm hx)
  · intro x hx
    rcases List.mem_cons.mp hx with rfl | hold
    · exact hw.queue x hm
    · exact hw.seen x hold

/-- Injected messages are accounted for by their injection. -/
theorem Sound.inject
    (hw : Sound S w)
    (hreused : Reused S w.seen m) :
    Sound S (w.inject m) := by
  refine ⟨?_, fun x hx => (hw.sent x hx).mono _, fun x hx => (hw.seen x hx).mono _,
    hw.authentic⟩
  intro x hx
  rcases List.mem_append.mp hx with hold | hnew
  · exact (hw.queue x hold).mono _
  · rw [List.mem_singleton.mp hnew]
    constructor
    case attributed =>
      intro _
      exact ⟨.inject m, List.mem_cons_self, rfl, rfl, rfl, rfl⟩
    case signed =>
      intro p content hmac hcorrect
      rcases Dict.mem_values_set hmac with hmark | hold
      · cases hmark
      · obtain ⟨y, hy, hcontent⟩ := hw.signed_of_reused hreused hold hcorrect
        exact ⟨y, List.mem_cons_of_mem _ hy, hcontent⟩

theorem Sound.step
    {c : Choice δ ρ}
    (hw : Sound S w)
    (hunforgeable : Unforgeable S w (.step c))
    (hhonest : Honest S w (.step c))
    (hguarded : Guarded S w (.step c))
    (h : w.step S c = some w') :
    Sound S w' := by
  have ht := hw.tick c.tickLosses
  unfold Runtime.step at h
  simp only at h
  split at h
  case isTrue =>
    rw [← Option.some.inj h]
    exact ht
  case isFalse =>
    split at h
    case h_1 => cases h
    case h_2 m hm =>
      rw [← Option.some.inj h]
      obtain ⟨hreused, hout⟩ := hunforgeable m hm
      refine (ht.dequeue (List.mem_of_getElem? hm)).deliver List.mem_cons_self hreused
        (hguarded m hm) ?_
      intro out hmem
      exact ⟨hout out hmem, hhonest m hm out hmem⟩

theorem reachable_sound
    (h : S.system.Reachable (fun w l => Unforgeable S w l ∧ Honest S w l ∧ Guarded S w l) w) :
    Sound S w := by
  induction h with
  | refl =>
      refine ⟨?_, ?_, ?_, trivial⟩ <;>
        · intro m hm
          cases hm
  | @tail w w' l _ hok hstep ih =>
      obtain ⟨hunforgeable, hhonest, hguarded⟩ := hok
      cases l with
      | register p s =>
          rw [← Option.some.inj hstep]
          exact ih.congr rfl rfl rfl rfl
      | inject m =>
          rw [← Option.some.inj hstep]
          exact ih.inject hunforgeable
      | crashProcess p =>
          rw [← Option.some.inj hstep]
          exact ih.congr rfl rfl rfl rfl
      | step c => exact ih.step hunforgeable hhonest hguarded hstep

/-! ## Authentic delivery -/

/-- Against an interceptor that reuses MACs only, every delivered message of a correct
process was sent by it or injected, in every run in which no faulty process names a correct
sender and no message with the mark or an ambiguous content string is put in place of
another. -/
theorem deliveries_authentic
    (h : S.system.Reachable (fun w l => Unforgeable S w l ∧ Honest S w l ∧ Guarded S w l) w) :
    Authentic S.correct w.trace :=
  (reachable_sound h).authentic

/-! ## The tamper example -/

/-- `SenderProcess` and `ReceiverProcess`. -/
inductive TamperProcess where
  | sender (peer : ProcessID)
  | receiver (receivedCount : ℕ) (lastData : String)

/-- A string, or no payload. -/
abbrev TamperData := Option String

def TamperProcess.handle (id : ProcessID) (s : TamperProcess) (m : Message TamperData) :
    TamperProcess × List (Message TamperData) :=
  match s with
  | .sender peer =>
      if m.type = "INIT" then
        (s, [⟨id, peer, "SECRET", some "transfer $100 to Bob", Dict.empty⟩])
      else (s, [])
  | .receiver receivedCount lastData =>
      if m.type = "SECRET" then (.receiver (receivedCount + 1) (m.data.getD lastData), [])
      else (s, [])

/-- Alice and Bob over an authenticated link. -/
def tamper : Simulation TamperData TamperProcess Unit Unit where
  fmt := fun data => data.getD "<nil>"
  handle := TamperProcess.handle
  failures := noFailure TamperData Unit
  initialFailures := ()
  keys := ⟨["alice", "bob"]⟩
  retransmitInterval := 5
  correct := fun p => p = "alice" ∨ p = "bob"

/-- A step on the first message of the queue. -/
def tamperStep (interceptor : Message TamperData → Message TamperData) :
    Label TamperData TamperProcess Unit :=
  .step ⟨fun _ => false, 0, interceptor, (), fun _ => false⟩

/-- Alice is told to start, and her message passes the interceptor. -/
def tamperRun (interceptor : Message TamperData → Message TamperData) :
    List (Label TamperData TamperProcess Unit) :=
  [.register "alice" (.sender "bob"), .register "bob" (.receiver 0 ""),
    .inject ⟨"system", "alice", "INIT", none, Dict.empty⟩,
    tamperStep id, tamperStep interceptor]

theorem deliveries_authentic_tamper :
    ∃ w, tamper.system.Reachable
        (fun w l => Unforgeable tamper w l ∧ Honest tamper w l ∧ Guarded tamper w l) w ∧
      w.trace.length = 4 ∧ Authentic tamper.correct w.trace := by
  obtain ⟨w, hw, hlength⟩ : ∃ w, tamper.system.Reachable
      (fun w l => Unforgeable tamper w l ∧ Honest tamper w l ∧ Guarded tamper w l) w ∧
      w.trace.length = 4 := by
    refine System.exists_reaches_of_exec (tamperRun id) ?_
    decide +kernel
  exact ⟨w, hw, hlength, deliveries_authentic hw⟩

/-- The interceptor replaces a message of Alice by one that has the mark of injected
messages, and Bob accepts it. -/
theorem not_deliveries_authentic :
    ¬ ∀ w, tamper.system.Reachable (Unforgeable tamper) w →
      Authentic tamper.correct w.trace := by
  intro hall
  obtain ⟨w, hw, hforged⟩ : ∃ w, tamper.system.Reachable (Unforgeable tamper) w ∧
      ¬ Authentic tamper.correct w.trace := by
    refine System.exists_reaches_of_exec (tamperRun fun m =>
      { m with
        data := some "transfer $10000 to Eve"
        metadata := Dict.empty.set "_injected" (.other "true") }) ?_
    decide +kernel
  exact hforged (hall w hw)

end LinkSimulator
end DistributedConsensus
