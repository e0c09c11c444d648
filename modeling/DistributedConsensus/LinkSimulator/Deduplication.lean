import DistributedConsensus.Foundations.Deduplication
import DistributedConsensus.LinkSimulator.Links

/-!
# Link simulator: copies, forged messages and keys

The perfect link accepts the messages whose content strings are new.  The
authenticated link of the single-threaded simulator drops copies before it checks
the MAC, the one of the parallel simulator afterwards.
-/

namespace DistributedConsensus
namespace LinkSimulator

open Foundations

variable {δ : Type} (fmt : δ → String)

/-- The messages that the calls of `Receive` accept. -/
def accepted {L : Type} (receive : L → Message δ → L × Bool) :
    L → List (Message δ) → List (Message δ)
  | _, [] => []
  | l, m :: ms =>
      let out := receive l m
      if out.2 then m :: accepted receive out.1 ms else accepted receive out.1 ms

/-- `NewPerfectLink`. -/
def PerfectLink.new (underlying : StubbornLink δ) : PerfectLink δ := ⟨underlying, []⟩

/-- The perfect link accepts the first message with each content string. -/
theorem PerfectLink.accepted_eq (l : PerfectLink δ) (ms : List (Message δ)) :
    accepted (PerfectLink.receive fmt) l ms
      = firsts (Message.contentString fmt) l.delivered ms := by
  induction ms generalizing l with
  | nil => rfl
  | cons m ms ih =>
      simp only [accepted, firsts, receive]
      by_cases hm : m.contentString fmt ∈ l.delivered
      · simp [hm, ih]
      · simp [hm, ih]

/-! ## Forged messages -/

/-- The message carries a valid MAC. -/
def KeyRegistry.authentic (keys : KeyRegistry) (m : Message δ) : Bool :=
  match m.tag? with
  | none => false
  | some tag => keys.verify m.fromId (m.contentString fmt) tag

namespace AuthenticatedLink

/-- `AuthenticatedLink.Receive` of the parallel simulator: first the MAC is checked,
then the copies are dropped. -/
def receiveParallel (l : AuthenticatedLink δ) (m : Message δ) : AuthenticatedLink δ × Bool :=
  match m.tag? with
  | none => (l, false)
  | some tag =>
      if l.keys.verify m.fromId (m.contentString fmt) tag = false then (l, false)
      else
        let out := l.underlying.receive fmt m
        ({ l with underlying := out.1 }, out.2)

variable {fmt}

/-- The content strings that the link has seen. -/
def delivered (l : AuthenticatedLink δ) : List String := l.underlying.delivered

theorem receive_eq (l : AuthenticatedLink δ) (m : Message δ) :
    l.receive fmt m =
      if m.contentString fmt ∈ l.delivered then (l, false)
      else
        ({ l with underlying :=
            { l.underlying with delivered := m.contentString fmt :: l.delivered } },
          l.keys.authentic fmt m) := by
  simp only [receive, PerfectLink.receive, delivered, KeyRegistry.authentic]
  by_cases hm : m.contentString fmt ∈ l.underlying.delivered
  · simp [hm]
  · simp only [hm, if_false, Bool.true_eq_false]
    cases m.tag? <;> rfl

theorem receiveParallel_eq (l : AuthenticatedLink δ) (m : Message δ) :
    l.receiveParallel fmt m =
      if l.keys.authentic fmt m = true then
        if m.contentString fmt ∈ l.delivered then (l, false)
        else
          ({ l with underlying :=
              { l.underlying with delivered := m.contentString fmt :: l.delivered } }, true)
      else (l, false) := by
  simp only [receiveParallel, PerfectLink.receive, delivered, KeyRegistry.authentic]
  rcases Option.eq_none_or_eq_some m.tag? with htag | ⟨tag, htag⟩
  · simp [htag]
  · simp only [htag]
    cases l.keys.verify m.fromId (m.contentString fmt) tag with
    | false => simp
    | true =>
        by_cases hm : m.contentString fmt ∈ l.underlying.delivered <;> simp [hm]

/-- The single-threaded link checks what is left after the copies are dropped. -/
theorem accepted_eq (l : AuthenticatedLink δ) (ms : List (Message δ)) :
    accepted (receive fmt) l ms
      = (firsts (Message.contentString fmt) l.delivered ms).filter (l.keys.authentic fmt) := by
  induction ms generalizing l with
  | nil => rfl
  | cons m ms ih =>
      simp only [accepted, firsts, receive_eq]
      split
      case isTrue => exact ih l
      case isFalse =>
        rw [List.filter_cons, ih]
        rfl

/-- The parallel link drops copies from what has passed the check. -/
theorem acceptedParallel_eq (l : AuthenticatedLink δ) (ms : List (Message δ)) :
    accepted (receiveParallel fmt) l ms
      = firsts (Message.contentString fmt) l.delivered (ms.filter (l.keys.authentic fmt)) := by
  induction ms generalizing l with
  | nil => rfl
  | cons m ms ih =>
      simp only [accepted, receiveParallel_eq]
      by_cases hauth : l.keys.authentic fmt m = true
      · rw [if_pos hauth, List.filter_cons_of_pos hauth, firsts]
        split
        case isTrue =>
          rw [if_neg Bool.false_ne_true]
          exact ih l
        case isFalse =>
          rw [if_pos rfl, ih]
          rfl
      · rw [if_neg hauth, List.filter_cons_of_neg hauth, if_neg Bool.false_ne_true]
        exact ih l

variable (fmt)

/-- The authentic messages that are accepted from the sequence are those accepted
when all messages without a valid MAC are left out. -/
def IgnoresForged (receive : AuthenticatedLink δ → Message δ → AuthenticatedLink δ × Bool)
    (l : AuthenticatedLink δ) (ms : List (Message δ)) : Prop :=
  (accepted receive l ms).filter (l.keys.authentic fmt)
    = accepted receive l (ms.filter (l.keys.authentic fmt))

/-- **Forged messages.**  They never suppress authentic ones in the parallel
simulator, and they do in the single-threaded one exactly when a forged message is the
first with the content of a later authentic message. -/
theorem ignoresForged_iff (l : AuthenticatedLink δ) (ms : List (Message δ)) :
    IgnoresForged fmt (receive fmt) l ms ∧ IgnoresForged fmt (receiveParallel fmt) l ms ↔
      Unspoiled (Message.contentString fmt) (l.keys.authentic fmt) l.delivered ms := by
  have hparallel : IgnoresForged fmt (receiveParallel fmt) l ms := by
    unfold IgnoresForged
    rw [acceptedParallel_eq, acceptedParallel_eq, List.filter_filter, filter_firsts_filter]
    simp only [Bool.and_self]
  have hsingle : IgnoresForged fmt (receive fmt) l ms ↔
      Unspoiled (Message.contentString fmt) (l.keys.authentic fmt) l.delivered ms := by
    unfold IgnoresForged
    rw [accepted_eq, accepted_eq, List.filter_filter, filter_firsts_filter]
    simp only [Bool.and_self]
    exact filter_firsts_eq_iff
  rw [hsingle]
  exact and_iff_left hparallel

/-- A link with a key for `alice`. -/
def aliceLink : AuthenticatedLink String := ⟨PerfectLink.new (StubbornLink.new 3), ⟨["alice"]⟩⟩

/-- A message of `alice` without a MAC. -/
def unsigned : Message String := ⟨"alice", "bob", "transfer", "100", .empty⟩

/-- **A suppressed message.**  The copy without a MAC arrives first. -/
theorem not_ignoresForged :
    ¬∀ (fmt : String → String) (l : AuthenticatedLink String) (ms : List (Message String)),
      IgnoresForged fmt (receive fmt) l ms ∧ IgnoresForged fmt (receiveParallel fmt) l ms := by
  intro hall
  have h := (ignoresForged_iff _ _ _).mp
    (hall id aliceLink [unsigned, aliceLink.authenticate id unsigned])
  revert h
  decide +kernel

end AuthenticatedLink

/-! ## Different messages -/

/-- What makes two messages different. -/
def Message.fields (m : Message δ) : ProcessID × ProcessID × String × δ :=
  (m.fromId, m.toId, m.type, m.data)

/-- Copies of different sent messages arrive, at least one of each. -/
structure Arrivals (sent arrivals : List (Message δ)) : Prop where
  different : (sent.map Message.fields).Nodup
  copies : ∀ a ∈ arrivals, a.fields ∈ sent.map Message.fields
  complete : ∀ m ∈ sent, m.fields ∈ arrivals.map Message.fields

/-- The new link accepts every sent message once. -/
def ExactlyOnce [DecidableEq δ] (underlying : StubbornLink δ)
    (sent arrivals : List (Message δ)) : Prop :=
  ∀ m ∈ sent, ((accepted (PerfectLink.receive fmt) (PerfectLink.new underlying) arrivals).filter
    fun a => a.fields = m.fields).length = 1

/-- The content string depends on the fields alone. -/
theorem contentString_congr
    {m m' : Message δ}
    (h : m.fields = m'.fields) :
    m.contentString fmt = m'.contentString fmt := by
  simp only [Message.fields, Prod.mk.injEq] at h
  obtain ⟨hfrom, hto, htype, hdata⟩ := h
  simp only [Message.contentString, hfrom, hto, htype, hdata]

/-- **The perfect link delivers each message exactly once** if and only if the content
strings of the sent messages are different. -/
theorem exactlyOnce_iff [DecidableEq δ]
    {underlying : StubbornLink δ} {sent arrivals : List (Message δ)}
    (h : Arrivals sent arrivals) :
    ExactlyOnce fmt underlying sent arrivals ↔
      (sent.map (Message.contentString fmt)).Nodup := by
  unfold ExactlyOnce
  rw [PerfectLink.accepted_eq]
  set acc := firsts (Message.contentString fmt) (PerfectLink.new underlying).delivered arrivals
    with hacc
  have hkeys : (acc.map (Message.contentString fmt)).Nodup := nodup_keys_firsts _ _ _
  have hmem : ∀ a ∈ acc, a ∈ arrivals := fun a ha => (mem_of_mem_firsts ha).1
  constructor
  · -- Two messages with one content string cannot both be accepted.
    intro honce
    have hfound : ∀ m ∈ sent, ∃ a ∈ acc, a.fields = m.fields := by
      intro m hm
      obtain ⟨a, ha⟩ := List.exists_mem_of_length_pos (by rw [honce m hm]; exact Nat.one_pos)
      rw [List.mem_filter, decide_eq_true_eq] at ha
      exact ⟨a, ha⟩
    refine List.Nodup.map_on ?_ (List.Nodup.of_map _ h.different)
    intro m hm m' hm' hkey
    obtain ⟨a, ha, hfields⟩ := hfound m hm
    obtain ⟨a', ha', hfields'⟩ := hfound m' hm'
    have heq : a = a' := by
      refine List.inj_on_of_nodup_map hkeys ha ha' ?_
      rw [contentString_congr fmt hfields, contentString_congr fmt hfields', hkey]
    refine List.inj_on_of_nodup_map h.different hm hm' ?_
    rw [← hfields, ← hfields', heq]
  · intro hnodup m hm
    -- The accepted message with this content string is a copy of this message.
    obtain ⟨a, ha, hfields⟩ := List.mem_map.mp (h.complete m hm)
    obtain ⟨b, hb, hkey⟩ : ∃ b ∈ acc, b.contentString fmt = a.contentString fmt := by
      rw [hacc]
      exact exists_mem_firsts ha List.not_mem_nil
    obtain ⟨m', hm', hfields'⟩ := List.mem_map.mp (h.copies b (hmem b hb))
    have hsame : m' = m := by
      refine List.inj_on_of_nodup_map hnodup hm' hm ?_
      rw [contentString_congr fmt hfields', hkey, contentString_congr fmt hfields]
    subst hsame
    have hall : ∀ x ∈ acc.filter fun a => a.fields = m'.fields, x = b := by
      intro x hx
      rw [List.mem_filter, decide_eq_true_eq] at hx
      refine List.inj_on_of_nodup_map hkeys hx.1 hb ?_
      rw [contentString_congr fmt hx.2, ← contentString_congr fmt hfields']
    have hin : b ∈ acc.filter fun a => a.fields = m'.fields :=
      List.mem_filter.mpr ⟨hb, by simpa using hfields'.symm⟩
    have hsub : (acc.filter fun a => a.fields = m'.fields).Nodup :=
      (List.Nodup.of_map _ hkeys).filter _
    rw [List.length_eq_one_iff]
    refine ⟨b, ?_⟩
    have hperm := (List.perm_ext_iff_of_nodup hsub (List.nodup_singleton b)).mpr fun x => by
      rw [List.mem_singleton]
      exact ⟨hall x, fun heq => heq ▸ hin⟩
    exact List.perm_singleton.mp hperm

section Example

/-- A transfer between two accounts. -/
def transfer (payer payee : ProcessID) : Message String := ⟨payer, payee, "transfer", "100", .empty⟩

/-- Copies of two messages that arrive mixed. -/
theorem arrivals_two :
    Arrivals [transfer "alice" "bob", transfer "bob" "alice"]
      [transfer "bob" "alice", transfer "alice" "bob", transfer "bob" "alice"] :=
  ⟨by decide, by decide, by decide⟩

theorem exactlyOnce_iff_two :
    ExactlyOnce id (StubbornLink.new 3) [transfer "alice" "bob", transfer "bob" "alice"]
        [transfer "bob" "alice", transfer "alice" "bob", transfer "bob" "alice"] ↔
      ([transfer "alice" "bob", transfer "bob" "alice"].map
        (Message.contentString id)).Nodup :=
  exactlyOnce_iff id arrivals_two

/-- **A lost message.**  A colon in an identity moves the border between the fields. -/
theorem not_exactlyOnce :
    ¬∀ (fmt : String → String) (underlying : StubbornLink String)
      (sent arrivals : List (Message String)),
      Arrivals sent arrivals → ExactlyOnce fmt underlying sent arrivals := by
  intro hall
  have harrivals : Arrivals [transfer "a:b" "c", transfer "a" "b:c"]
      [transfer "a:b" "c", transfer "a" "b:c"] := ⟨by decide, by decide, by decide⟩
  have h := (exactlyOnce_iff id harrivals).mp (hall id (StubbornLink.new 3) _ _ harrivals)
  revert h
  decide +kernel

end Example

end LinkSimulator
end DistributedConsensus
