import DistributedConsensus.Foundations.Text
import DistributedConsensus.Ibft.Messages

/-!
# IBFT: the signed payload

The text that `SignMessage` signs is put together from the fields of a message
without escaping.  The texts `|from=…|lambda=…|round=…|value=` and `|pr=…|pv=`
mark the borders between the fields, and a justification is appended element by
element.

A payload has one reading exactly if the message has no justification and the
borders do not occur inside its strings: `payload_unambiguous_iff`.
-/

namespace DistributedConsensus
namespace Ibft

open Foundations

/-- The text of a message type. -/
def MessageType.text : MessageType → String
  | .prePrepare => "PRE-PREPARE"
  | .prepare => "PREPARE"
  | .commit => "COMMIT"
  | .roundChange => "ROUND-CHANGE"
  | .decisionCertificate => "DECISION-CERTIFICATE"
  | .other name => name

@[simp] theorem MessageType.text_other (name : String) :
    (MessageType.other name).text = name := rfl

/-- The border between the type and the value. -/
def header (fromId lambda round : Int) : List Char :=
  ['|', 'f', 'r', 'o', 'm', '='] ++ (decimal fromId ++
    (['|', 'l', 'a', 'm', 'b', 'd', 'a', '='] ++ (decimal lambda ++
      (['|', 'r', 'o', 'u', 'n', 'd', '='] ++ (decimal round ++
        ['|', 'v', 'a', 'l', 'u', 'e', '='])))))

/-- The border between the value and the prepared value. -/
def preparedBorder (preparedRound : Int) : List Char :=
  ['|', 'p', 'r', '='] ++ (decimal preparedRound ++ ['|', 'p', 'v', '='])

/-- The text of one element of a justification. -/
def justificationText (j : Message) : List Char :=
  ['|', 'j', ':'] ++ j.type.text.toList ++ [':'] ++ decimal j.fromId ++ [':'] ++
    decimal j.lambda ++ [':'] ++ decimal j.round ++ [':'] ++ j.value.toList ++ [':'] ++
    decimal j.preparedRound ++ [':'] ++ j.preparedValue.toList ++ [':'] ++ j.signature.toList

/-- The text of a justification. -/
def justificationsText (js : List Message) : List Char := js.flatMap justificationText

/-- The text that is signed; its bytes are the UTF-8 form, which determines it. -/
def messagePayload (msg : Message) : List Char :=
  msg.type.text.toList ++ (header msg.fromId msg.lambda msg.round ++ (msg.value.toList ++
    (preparedBorder msg.preparedRound ++ (msg.preparedValue.toList ++
      justificationsText msg.justification))))

/-- The range of an integer. -/
def IsInt64 (i : Int) : Prop := -2 ^ 63 ≤ i ∧ i < 2 ^ 63

/-- The integers of a message are in range. -/
structure Message.IntFields (m : Message) : Prop where
  fromId : IsInt64 m.fromId
  lambda : IsInt64 m.lambda
  round : IsInt64 m.round
  preparedRound : IsInt64 m.preparedRound

/-- The integers that are written into a payload are in range. -/
structure Message.InRange (m : Message) : Prop where
  fields : m.IntFields
  justification : ∀ j ∈ m.justification, j.IntFields

/-- The fields of a justification element that are written. -/
def Message.listed (j : Message) :
    String × Int × Int × Int × String × Int × String × String :=
  (j.type.text, j.fromId, j.lambda, j.round, j.value, j.preparedRound, j.preparedValue,
    j.signature)

/-- The messages agree in all fields that are signed. -/
structure Message.Agrees (m m' : Message) : Prop where
  type : m.type.text = m'.type.text
  fromId : m.fromId = m'.fromId
  lambda : m.lambda = m'.lambda
  round : m.round = m'.round
  value : m.value = m'.value
  preparedRound : m.preparedRound = m'.preparedRound
  preparedValue : m.preparedValue = m'.preparedValue
  justification : m.justification.map Message.listed = m'.justification.map Message.listed

/-- The message has no justification, and no border occurs inside its strings. -/
structure Message.Plain (m : Message) : Prop where
  justification : m.justification = []
  type : ∀ f l r, IsInt64 f → IsInt64 l → IsInt64 r → ¬ header f l r <:+: m.type.text.toList
  value : ∀ f l r, IsInt64 f → IsInt64 l → IsInt64 r → ¬ header f l r <:+: m.value.toList
  valuePrepared : ∀ p, IsInt64 p → ¬ preparedBorder p <:+: m.value.toList
  preparedValue : ∀ p, IsInt64 p → ¬ preparedBorder p <:+: m.preparedValue.toList
  preparedSuffix : ∀ js : List Message, js ≠ [] → (∀ j ∈ js, j.IntFields) →
    ¬ justificationsText js <:+ m.preparedValue.toList

/-! ## The borders -/

/-- The borders of the first kind. -/
def headers : Set (List Char) := {s | ∃ f l r, s = header f l r}

/-- The borders of the second kind. -/
def preparedBorders : Set (List Char) := {s | ∃ p, s = preparedBorder p}

theorem bar_not_mem_decimal (i : Int) : '|' ∉ decimal i := by
  intro h
  have hdecimal := isDecimal_of_mem_decimal h
  revert hdecimal
  decide

theorem header_append_inj
    {f l r f' l' r' : Int} {v v' : List Char}
    (h : header f l r ++ v = header f' l' r' ++ v') :
    f = f' ∧ l = l' ∧ r = r' ∧ v = v' := by
  simp only [header, List.append_assoc, List.append_cancel_left_eq] at h
  obtain ⟨rfl, hlambda⟩ := decimal_append_inj (by exact rfl) (by exact rfl) h
  obtain ⟨rfl, hround⟩ := decimal_append_inj (by exact rfl) (by exact rfl)
    (List.append_cancel_left hlambda)
  obtain ⟨rfl, hvalue⟩ := decimal_append_inj (by exact rfl) (by exact rfl)
    (List.append_cancel_left hround)
  exact ⟨rfl, rfl, rfl, List.append_cancel_left hvalue⟩

theorem preparedBorder_append_inj
    {p p' : Int} {v v' : List Char}
    (h : preparedBorder p ++ v = preparedBorder p' ++ v') :
    p = p' ∧ v = v' := by
  simp only [preparedBorder, List.append_assoc, List.append_cancel_left_eq] at h
  obtain ⟨rfl, hvalue⟩ := decimal_append_inj (by exact rfl) (by exact rfl) h
  exact ⟨rfl, List.append_cancel_left hvalue⟩

/-- After its first bar a border of the first kind goes on with other letters. -/
theorem header_tail
    {f l r : Int} {a b : List Char}
    (h : header f l r = '|' :: (a ++ '|' :: b)) :
    ∃ c rest, c ≠ 'f' ∧ b = c :: rest := by
  simp only [header, List.cons_append, List.nil_append, List.cons.injEq, true_and] at h
  have hfrom : a ++ '|' :: b = (['f', 'r', 'o', 'm', '='] ++ decimal f) ++
      '|' :: (['l', 'a', 'm', 'b', 'd', 'a', '='] ++ decimal l ++
        '|' :: (['r', 'o', 'u', 'n', 'd', '='] ++ decimal r ++
          '|' :: ['v', 'a', 'l', 'u', 'e', '='])) := by
    rw [← h]
    simp
  rcases append_separator_cases (by simp [bar_not_mem_decimal]) hfrom with rfl | ⟨a', hlambda⟩
  · exact ⟨'l', _, by decide, rfl⟩
  · rcases append_separator_cases (by simp [bar_not_mem_decimal]) hlambda with
      rfl | ⟨a'', hround⟩
    · exact ⟨'r', _, by decide, rfl⟩
    · rcases append_separator_cases (by simp [bar_not_mem_decimal]) hround with
        rfl | ⟨a₃, hvalue⟩
      · exact ⟨'v', _, by decide, rfl⟩
      · have hmem : '|' ∈ ['v', 'a', 'l', 'u', 'e', '='] := by
          rw [← hvalue]
          simp
        simp at hmem

theorem preparedBorder_tail
    {p : Int} {a b : List Char}
    (h : preparedBorder p = '|' :: (a ++ '|' :: b)) :
    b = ['p', 'v', '='] := by
  simp only [preparedBorder, List.cons_append, List.nil_append, List.cons.injEq, true_and] at h
  have hround : a ++ '|' :: b = (['p', 'r', '='] ++ decimal p) ++ '|' :: ['p', 'v', '='] := by
    rw [← h]
    simp
  rcases append_separator_cases (by simp [bar_not_mem_decimal]) hround with hb | ⟨a', hvalue⟩
  · exact hb
  · have hmem : '|' ∈ ['p', 'v', '='] := by
      rw [← hvalue]
      simp
    simp at hmem

/-- A proper end of a border that begins another one begins with a bar. -/
theorem exists_bar_of_overlap
    {s a b v w : List Char} {t : List Char}
    (hs : s = '|' :: t)
    (hab : s = a ++ b)
    (ha : a ≠ [])
    (hb : b ≠ [])
    (h : b ++ v = '|' :: w) :
    ∃ a' b', b = '|' :: b' ∧ s = '|' :: (a' ++ '|' :: b') := by
  obtain ⟨c, a', rfl⟩ := List.exists_cons_of_ne_nil ha
  obtain ⟨d, b', rfl⟩ := List.exists_cons_of_ne_nil hb
  rw [List.cons_append, List.cons.injEq] at h
  obtain ⟨rfl, -⟩ := h
  rw [hs, List.cons_append, List.cons.injEq] at hab
  obtain ⟨rfl, rfl⟩ := hab
  exact ⟨a', b', rfl, hs⟩

theorem markers_headers : Markers headers where
  read := by
    rintro _ ⟨f, l, r, rfl⟩ _ ⟨f', l', r', rfl⟩ v v' h
    obtain ⟨rfl, rfl, rfl, rfl⟩ := header_append_inj h
    exact ⟨rfl, rfl⟩
  apart := by
    rintro _ ⟨f, l, r, rfl⟩ _ ⟨f', l', r', rfl⟩ a b v v' hab ha hb h
    have hbar : b ++ v = '|' :: (['f', 'r', 'o', 'm', '='] ++ (decimal f' ++
        (['|', 'l', 'a', 'm', 'b', 'd', 'a', '='] ++ (decimal l' ++
          (['|', 'r', 'o', 'u', 'n', 'd', '='] ++ (decimal r' ++
            ['|', 'v', 'a', 'l', 'u', 'e', '=']))))) ++ v') := h
    obtain ⟨a', b', rfl, hheader⟩ := exists_bar_of_overlap rfl hab ha hb hbar
    obtain ⟨c, rest, hc, rfl⟩ := header_tail hheader
    simp only [List.cons_append, List.cons.injEq, true_and] at hbar
    exact hc hbar.1

theorem markers_preparedBorders : Markers preparedBorders where
  read := by
    rintro _ ⟨p, rfl⟩ _ ⟨p', rfl⟩ v v' h
    obtain ⟨rfl, rfl⟩ := preparedBorder_append_inj h
    exact ⟨rfl, rfl⟩
  apart := by
    rintro _ ⟨p, rfl⟩ _ ⟨p', rfl⟩ a b v v' hab ha hb h
    have hbar : b ++ v = '|' :: (['p', 'r', '='] ++ (decimal p' ++ ['|', 'p', 'v', '=']) ++ v') := h
    obtain ⟨a', b', rfl, hborder⟩ := exists_bar_of_overlap rfl hab ha hb hbar
    rw [preparedBorder_tail hborder] at hbar
    simp at hbar

/-! ## Readings of a payload -/

section Readings

variable {m m' : Message}

/-- A payload without borders inside its strings has one reading. -/
theorem Message.Plain.agrees
    (hm : m.Plain)
    (hm' : m'.InRange)
    (h : messagePayload m = messagePayload m') :
    m.Agrees m' := by
  have hrange := hm'.fields
  have hjs : justificationsText m.justification = [] := by
    rw [hm.justification]
    rfl
  unfold messagePayload at h
  rw [hjs, List.append_nil] at h
  have hprepared : ∀ {u u' v : List Char} , u ++ (preparedBorder m.preparedRound ++
      m.preparedValue.toList) = u' ++ (preparedBorder m'.preparedRound ++ v) →
      (u = u' ∧ preparedBorder m.preparedRound = preparedBorder m'.preparedRound ∧
        m.preparedValue.toList = v) ∨ preparedBorder m'.preparedRound <:+: u := by
    intro u u' v heq
    rcases markers_preparedBorders.cases ⟨_, rfl⟩ ⟨_, rfl⟩ heq with
      hsame | ⟨w, hu, -⟩ | ⟨w, -, hv⟩
    · exact Or.inl hsame
    · exact Or.inr ⟨u', w, by rw [hu, List.append_assoc]⟩
    · exact absurd ⟨w, v, by rw [hv, List.append_assoc]⟩
        (hm.preparedValue m'.preparedRound hrange.preparedRound)
  rcases markers_headers.cases ⟨_, _, _, rfl⟩ ⟨_, _, _, rfl⟩ h with
    ⟨htype, hheader, hrest⟩ | ⟨w, htype, -⟩ | ⟨w, -, hrest⟩
  · obtain ⟨hfrom, hlambda, hround, -⟩ := header_append_inj (congrArg (· ++ []) hheader)
    rcases hprepared hrest with ⟨hvalue, hborder, hpv⟩ | hinfix
    · obtain ⟨hpr, -⟩ := preparedBorder_append_inj (congrArg (· ++ []) hborder)
      have hnone : m'.justification = [] := by
        by_contra hne
        exact hm.preparedSuffix m'.justification hne hm'.justification ⟨_, hpv.symm⟩
      rw [hnone] at hpv
      refine ⟨String.toList_injective htype, hfrom, hlambda, hround,
        String.toList_injective hvalue, hpr, String.toList_injective ?_, ?_⟩
      · rw [hpv]
        exact List.append_nil _
      · rw [hm.justification, hnone]
    · exact absurd hinfix (hm.valuePrepared _ hrange.preparedRound)
  · exact absurd ⟨_, w, by rw [htype, List.append_assoc]⟩
      (hm.type _ _ _ hrange.fromId hrange.lambda hrange.round)
  · -- The second border of the first kind would lie inside the value.
    have hassoc : m.value.toList ++ (preparedBorder m.preparedRound ++ m.preparedValue.toList) =
        (w ++ (header m'.fromId m'.lambda m'.round ++ m'.value.toList)) ++
          (preparedBorder m'.preparedRound ++ (m'.preparedValue.toList ++
            justificationsText m'.justification)) := by
      rw [hrest]
      simp only [List.append_assoc]
    rcases hprepared hassoc with ⟨hvalue, -, -⟩ | hinfix
    · exact absurd ⟨w, m'.value.toList, by rw [hvalue, List.append_assoc]⟩
        (hm.value _ _ _ hrange.fromId hrange.lambda hrange.round)
    · exact absurd hinfix (hm.valuePrepared _ hrange.preparedRound)

/-- The payload has another reading. -/
def Message.Ambiguous (m : Message) : Prop :=
  ∃ m' : Message, m'.InRange ∧ messagePayload m = messagePayload m' ∧ ¬ m.Agrees m'

/-- A justification can be read as the end of the prepared value. -/
theorem ambiguous_of_justification
    (hm : m.InRange)
    (h : m.justification ≠ []) :
    m.Ambiguous := by
  refine ⟨{ m with
    preparedValue := String.ofList (m.preparedValue.toList ++ justificationsText m.justification)
    justification := [] }, ⟨⟨hm.fields.fromId, hm.fields.lambda, hm.fields.round,
      hm.fields.preparedRound⟩, by simp⟩, ?_, ?_⟩
  · simp only [messagePayload, String.toList_ofList, justificationsText, List.flatMap_nil,
      List.append_nil]
  · intro hagrees
    have hnil := hagrees.justification
    simp only [List.map_nil, List.map_eq_nil_iff] at hnil
    exact h hnil

theorem ambiguous_of_type
    {f l r : Int}
    (hm : m.InRange)
    (hf : IsInt64 f)
    (hl : IsInt64 l)
    (hr : IsInt64 r)
    (h : header f l r <:+: m.type.text.toList) :
    m.Ambiguous := by
  obtain ⟨before, after, htext⟩ := h
  refine ⟨{ m with
    type := .other (String.ofList before)
    fromId := f
    lambda := l
    round := r
    value := String.ofList (after ++ (header m.fromId m.lambda m.round ++ m.value.toList)) },
    ⟨⟨hf, hl, hr, hm.fields.preparedRound⟩, hm.justification⟩, ?_, ?_⟩
  · simp only [messagePayload, MessageType.text_other, String.toList_ofList, ← htext,
      List.append_assoc]
  · intro hagrees
    have hlength := congrArg (fun s => s.toList.length) hagrees.type
    simp only [MessageType.text_other, String.toList_ofList, ← htext, header, List.length_append,
      List.length_cons] at hlength
    omega

theorem ambiguous_of_value
    {f l r : Int}
    (hm : m.InRange)
    (hf : IsInt64 f)
    (hl : IsInt64 l)
    (hr : IsInt64 r)
    (h : header f l r <:+: m.value.toList) :
    m.Ambiguous := by
  obtain ⟨before, after, htext⟩ := h
  refine ⟨{ m with
    type := .other (String.ofList (m.type.text.toList ++
      (header m.fromId m.lambda m.round ++ before)))
    fromId := f
    lambda := l
    round := r
    value := String.ofList after },
    ⟨⟨hf, hl, hr, hm.fields.preparedRound⟩, hm.justification⟩, ?_, ?_⟩
  · simp only [messagePayload, MessageType.text_other, String.toList_ofList, ← htext,
      List.append_assoc]
  · intro hagrees
    have hlength := congrArg (fun s => s.toList.length) hagrees.type
    simp only [MessageType.text_other, String.toList_ofList, header, List.length_append,
      List.length_cons] at hlength
    omega

theorem ambiguous_of_valuePrepared
    {p : Int}
    (hm : m.InRange)
    (hp : IsInt64 p)
    (h : preparedBorder p <:+: m.value.toList) :
    m.Ambiguous := by
  obtain ⟨before, after, htext⟩ := h
  refine ⟨{ m with
    value := String.ofList before
    preparedRound := p
    preparedValue := String.ofList (after ++
      (preparedBorder m.preparedRound ++ m.preparedValue.toList)) },
    ⟨⟨hm.fields.fromId, hm.fields.lambda, hm.fields.round, hp⟩, hm.justification⟩, ?_, ?_⟩
  · simp only [messagePayload, String.toList_ofList, ← htext, List.append_assoc]
  · intro hagrees
    have hlength := congrArg (fun s => s.toList.length) hagrees.value
    simp only [String.toList_ofList, ← htext, preparedBorder, List.length_append,
      List.length_cons] at hlength
    omega

theorem ambiguous_of_preparedValue
    {p : Int}
    (hm : m.InRange)
    (hp : IsInt64 p)
    (h : preparedBorder p <:+: m.preparedValue.toList) :
    m.Ambiguous := by
  obtain ⟨before, after, htext⟩ := h
  refine ⟨{ m with
    value := String.ofList (m.value.toList ++ (preparedBorder m.preparedRound ++ before))
    preparedRound := p
    preparedValue := String.ofList after },
    ⟨⟨hm.fields.fromId, hm.fields.lambda, hm.fields.round, hp⟩, hm.justification⟩, ?_, ?_⟩
  · simp only [messagePayload, String.toList_ofList, ← htext, List.append_assoc]
  · intro hagrees
    have hlength := congrArg (fun s => s.toList.length) hagrees.value
    simp only [String.toList_ofList, preparedBorder, List.length_append,
      List.length_cons] at hlength
    omega

/-- The end of the prepared value can be read as a justification. -/
theorem ambiguous_of_preparedSuffix
    {js : List Message}
    (hm : m.InRange)
    (hnone : m.justification = [])
    (hjs : js ≠ [])
    (hrange : ∀ j ∈ js, j.IntFields)
    (h : justificationsText js <:+ m.preparedValue.toList) :
    m.Ambiguous := by
  obtain ⟨before, htext⟩ := h
  refine ⟨{ m with
    preparedValue := String.ofList before
    justification := js }, ⟨⟨hm.fields.fromId, hm.fields.lambda, hm.fields.round,
      hm.fields.preparedRound⟩, hrange⟩, ?_, ?_⟩
  · simp only [messagePayload, String.toList_ofList, ← htext, hnone, justificationsText,
      List.flatMap_nil, List.append_nil]
  · intro hagrees
    have hnil := hagrees.justification
    simp only [hnone, List.map_nil] at hnil
    exact hjs (List.map_eq_nil_iff.mp hnil.symm)

theorem plain_of_not_ambiguous
    (hm : m.InRange)
    (h : ¬ m.Ambiguous) :
    m.Plain := by
  have hnone : m.justification = [] := by
    by_contra hne
    exact h (ambiguous_of_justification hm hne)
  exact {
    justification := hnone
    type := fun f l r hf hl hr htext => h (ambiguous_of_type hm hf hl hr htext)
    value := fun f l r hf hl hr htext => h (ambiguous_of_value hm hf hl hr htext)
    valuePrepared := fun p hp htext => h (ambiguous_of_valuePrepared hm hp htext)
    preparedValue := fun p hp htext => h (ambiguous_of_preparedValue hm hp htext)
    preparedSuffix := fun js hjs hrange htext =>
      h (ambiguous_of_preparedSuffix hm hnone hjs hrange htext) }

end Readings

/-! ## Signatures -/

/-- The signature library and the registered keys. -/
structure Ed25519 where
  PublicKey : Type
  Signature : Type
  publicKeyFor : Int → Option PublicKey
  decodeString : String → Option Signature
  verify : PublicKey → List Char → Signature → Bool

/-- The check of the signature on a message. -/
def Ed25519.verifySignature (e : Ed25519) (msg : Message) : Bool :=
  match e.publicKeyFor msg.fromId with
  | none => false
  | some publicKey =>
      match e.decodeString msg.signature with
      | none => false
      | some signature => e.verify publicKey (messagePayload msg) signature

/-- A signature is valid for one text. -/
def Ed25519.Binding (e : Ed25519) : Prop :=
  ∀ key text text' signature, e.verify key text signature = true →
    e.verify key text' signature = true → text = text'

/-- Messages with one sender and one valid signature have one payload. -/
theorem messagePayload_eq_of_verifySignature
    {e : Ed25519} {m m' : Message}
    (he : e.Binding)
    (hfrom : m'.fromId = m.fromId)
    (hsig : m'.signature = m.signature)
    (h : e.verifySignature m = true)
    (h' : e.verifySignature m' = true) :
    messagePayload m = messagePayload m' := by
  unfold Ed25519.verifySignature at h h'
  rw [hfrom, hsig] at h'
  split at h
  case h_1 => cases h
  case h_2 key hkey =>
    rw [hkey] at h'
    simp only at h'
    split at h
    case h_1 => cases h
    case h_2 signature hdecode =>
      rw [hdecode] at h'
      exact he key _ _ signature h h'

/-- **Unambiguous payloads.**  The payload of a message determines the signed
fields exactly if the message is plain; then a signature on it validates no
message with other fields. -/
theorem payload_unambiguous_iff
    (m : Message)
    (hm : m.InRange) :
    ((∀ m' : Message, m'.InRange → messagePayload m = messagePayload m' → m.Agrees m') ↔
      m.Plain) ∧
    (m.Plain → ∀ e : Ed25519, e.Binding → ∀ m' : Message, m'.InRange →
      m'.fromId = m.fromId → m'.signature = m.signature →
      e.verifySignature m = true → e.verifySignature m' = true → m.Agrees m') := by
  refine ⟨⟨fun hunique => ?_, fun hplain m' hm' h => hplain.agrees hm' h⟩, ?_⟩
  · refine plain_of_not_ambiguous hm ?_
    rintro ⟨m', hm', hpayload, hnot⟩
    exact hnot (hunique m' hm' hpayload)
  · intro hplain e he m' hm' hfrom hsig h h'
    exact hplain.agrees hm' (messagePayload_eq_of_verifySignature he hfrom hsig h h')

/-- Strings without a bar contain no border. -/
theorem Message.plain_of_no_bar
    {m : Message}
    (hjs : m.justification = [])
    (htype : '|' ∉ m.type.text.toList)
    (hvalue : '|' ∉ m.value.toList)
    (hprepared : '|' ∉ m.preparedValue.toList) :
    m.Plain := by
  have hheader : ∀ f l r, '|' ∈ header f l r := by
    intro f l r
    simp [header]
  have hborder : ∀ p, '|' ∈ preparedBorder p := by
    intro p
    simp [preparedBorder]
  refine ⟨hjs, ?_, ?_, ?_, ?_, ?_⟩
  · exact fun f l r _ _ _ h => htype (h.subset (hheader f l r))
  · exact fun f l r _ _ _ h => hvalue (h.subset (hheader f l r))
  · exact fun p _ h => hvalue (h.subset (hborder p))
  · exact fun p _ h => hprepared (h.subset (hborder p))
  · intro js hne _ h
    obtain ⟨j, rest, rfl⟩ := List.exists_cons_of_ne_nil hne
    refine hprepared (h.subset ?_)
    simp [justificationsText, justificationText]

/-- A vote of validator 1 in round 1. -/
def vote (value preparedValue : String) : Message where
  type := .prepare
  fromId := 1
  lambda := 1
  round := 1
  value := value
  preparedRound := 0
  preparedValue := preparedValue
  justification := []
  signature := ""

theorem vote_inRange (value preparedValue : String) : (vote value preparedValue).InRange := by
  have hzero : IsInt64 0 := ⟨by decide, by decide⟩
  have hone : IsInt64 1 := ⟨by decide, by decide⟩
  refine ⟨⟨hone, hone, hone, hzero⟩, ?_⟩
  intro j hj
  cases hj

theorem payload_unambiguous_vote :
    (vote "A" "").Plain ∧
      ∀ m' : Message, m'.InRange → messagePayload (vote "A" "") = messagePayload m' →
        (vote "A" "").Agrees m' := by
  have hplain : (vote "A" "").Plain :=
    Message.plain_of_no_bar rfl (by decide) (by decide) (by decide)
  exact ⟨hplain, ((payload_unambiguous_iff (vote "A" "") (vote_inRange _ _)).1).mpr hplain⟩

/-- **Two votes with one payload.**  The border between the fields is moved; the
signature on a vote for one value is valid on a vote for another. -/
theorem exists_votes_same_payload :
    (vote "A" "x|pr=0|pv=").InRange ∧ (vote "A|pr=0|pv=x" "").InRange ∧
      messagePayload (vote "A" "x|pr=0|pv=") = messagePayload (vote "A|pr=0|pv=x" "") ∧
      (vote "A" "x|pr=0|pv=").value ≠ (vote "A|pr=0|pv=x" "").value ∧
      ∀ e : Ed25519, e.verifySignature (vote "A" "x|pr=0|pv=") =
        e.verifySignature (vote "A|pr=0|pv=x" "") := by
  have hpayload : messagePayload (vote "A" "x|pr=0|pv=") =
      messagePayload (vote "A|pr=0|pv=x" "") := by
    decide +kernel
  refine ⟨vote_inRange _ _, vote_inRange _ _, hpayload, by decide, ?_⟩
  intro e
  unfold Ed25519.verifySignature
  rw [hpayload]
  rfl

end Ibft
end DistributedConsensus
