import DistributedConsensus.Foundations.Dict
import DistributedConsensus.Foundations.Quorum
import Mathlib.Algebra.Group.Int.Defs
import Mathlib.Algebra.Group.Nat.Defs
import Mathlib.Data.Finset.Dedup
import Mathlib.Data.List.Infix

/-!
# IBFT: messages and their validation

Messages of the Istanbul BFT validators, the quorum and leader functions and
the checks that every received message has to pass.  A message carries the
messages that justify it, so the type is recursive.

The signature scheme is a parameter.  A signature is made over the whole
message and checked against the key that its sender has registered.

Integers are 64 bits wide in the source; the additions that can leave that
range are wrapped explicitly.
-/

namespace DistributedConsensus
namespace Ibft

/-- Reduce to the range of a signed 64-bit integer. -/
def wrap64 (x : Int) : Int := Int.bmod x (2 ^ 64)

/-- The round of a validator that has not prepared anything. -/
def noPreparedRound : Int := 0

/-- The value of a validator that has not prepared anything. -/
def noPreparedValue : String := ""

/-- The kind of a message; the type is a string on the wire. -/
inductive MessageType where
  | prePrepare
  | prepare
  | commit
  | roundChange
  | decisionCertificate
  | other (name : String)
deriving DecidableEq, Repr

/-- A protocol message. -/
structure Message where
  type : MessageType
  fromId : Int
  lambda : Int
  round : Int
  value : String
  preparedRound : Int
  preparedValue : String
  justification : List Message
  signature : String

namespace Message

mutual

/-- Equality of messages is decided field by field. -/
def decEq : (a b : Message) → Decidable (a = b)
  | ⟨t, i, l, r, v, pr, pv, js, s⟩, ⟨t', i', l', r', v', pr', pv', js', s'⟩ =>
      match decEqList js js' with
      | isTrue hjs =>
          decidable_of_iff
            (t = t' ∧ i = i' ∧ l = l' ∧ r = r' ∧ v = v' ∧ pr = pr' ∧ pv = pv' ∧ s = s')
            (by simp [hjs])
      | isFalse hjs => isFalse (by simp [hjs])

/-- Equality of lists of messages. -/
def decEqList : (as bs : List Message) → Decidable (as = bs)
  | [], [] => isTrue rfl
  | [], _ :: _ => isFalse (by simp)
  | _ :: _, [] => isFalse (by simp)
  | a :: as, b :: bs =>
      match decEq a b, decEqList as bs with
      | isTrue ha, isTrue has => isTrue (by simp [ha, has])
      | isFalse ha, _ => isFalse (by simp [ha])
      | _, isFalse has => isFalse (by simp [has])

end

instance : DecidableEq Message := decEq

mutual

/-- A message together with every message inside its justification. -/
def parts : Message → List Message
  | ⟨t, i, l, r, v, pr, pv, js, s⟩ => ⟨t, i, l, r, v, pr, pv, js, s⟩ :: partsList js

/-- The parts of all messages of a list. -/
def partsList : List Message → List Message
  | [] => []
  | m :: ms => m.parts ++ partsList ms

end

theorem parts_eq (m : Message) : m.parts = m :: partsList m.justification := by
  cases m
  rw [parts]

theorem self_mem_parts (m : Message) : m ∈ m.parts := by
  rw [parts_eq]
  exact List.mem_cons_self

theorem mem_partsList
    {m : Message} {ms : List Message} :
    m ∈ partsList ms ↔ ∃ j ∈ ms, m ∈ j.parts := by
  induction ms with
  | nil => simp [partsList]
  | cons j ms ih => simp [partsList, ih]

/-- The parts of a message are the message and the parts of its justification. -/
theorem mem_parts
    {m p : Message} :
    p ∈ m.parts ↔ p = m ∨ ∃ j ∈ m.justification, p ∈ j.parts := by
  rw [parts_eq, List.mem_cons, mem_partsList]

end Message

/-- The most faults that `n` validators tolerate. -/
def maxFaultyNodes (n : Nat) : Nat := (n - 1) / 3

/-- The number of senders that a certificate needs. -/
def quorumSize (n : Nat) : Nat := (n + maxFaultyNodes n) / 2 + 1

/-- The number of round changes that make a validator follow. -/
def roundChangeSetSize (n : Nat) : Nat := maxFaultyNodes n + 1

/-- Twice a quorum exceeds the validators by more than the faults. -/
theorem add_maxFaultyNodes_lt_two_quorums (n : Nat) :
    n + maxFaultyNodes n < 2 * quorumSize n := by
  unfold quorumSize
  omega

/-- The validator that proposes in a round. -/
def leader (lambda round : Int) (validators : List Int) : Int :=
  if validators.length = 0 then -1
  else
    let index := (wrap64 (lambda + round - 2)).tmod validators.length
    let index := if index < 0 then index + validators.length else index
    validators.getD index.toNat (-1)

/-- The validator identities `0, …, n - 1`. -/
def validatorsFromCount (n : Nat) : List Int :=
  (List.range n).map (fun (i : Nat) => (i : Int))

theorem mem_validatorsFromCount
    {n : Nat} {k : Int} :
    k ∈ validatorsFromCount n ↔ ∃ i : Fin n, k = i := by
  simp only [validatorsFromCount, List.mem_map, List.mem_range]
  constructor
  · rintro ⟨i, hi, rfl⟩
    exact ⟨⟨i, hi⟩, rfl⟩
  · rintro ⟨i, rfl⟩
    exact ⟨i, i.isLt, rfl⟩

theorem length_validatorsFromCount (n : Nat) : (validatorsFromCount n).length = n := by
  simp [validatorsFromCount]

/-- The application's check of a value. -/
def beta (value : String) : Bool :=
  if value = "" then false
  else !decide ("INVALID".toList <:+: value.toList)

theorem beta_empty : beta "" = false := rfl

/-- Whether the identity is one of the validators. -/
def isValidator (id : Int) (validators : List Int) : Bool :=
  validators.any (fun validatorID => decide (validatorID = id))

/-- Signatures: making one with the key of a validator, and checking the one on
a message against the key registered for its sender. -/
structure SignatureScheme where
  signMessage : Message → Int → String
  verifySignature : Message → Bool

section Validation

variable (keys : SignatureScheme)

/-- The checks made on the content of a message. -/
def isValidContent (msg : Message) : Bool :=
  match msg.type with
  | .prePrepare | .prepare | .commit => beta msg.value
  | .roundChange =>
      if msg.preparedRound ≠ noPreparedRound ∧ msg.preparedRound ≥ msg.round then false
      else
        let hasPreparedRound := decide (msg.preparedRound ≠ noPreparedRound)
        let hasPreparedValue := decide (msg.preparedValue ≠ noPreparedValue)
        if hasPreparedRound ≠ hasPreparedValue then false
        else if hasPreparedValue && !beta msg.preparedValue then false
        else true
  | .decisionCertificate =>
      if msg.value = "" then false else beta msg.value
  | .other _ => false

/-- The checks that every received message has to pass. -/
def isValidMessage (msg : Message) (validators : List Int) : Bool :=
  if !isValidator msg.fromId validators then false
  else if !keys.verifySignature msg then false
  else if msg.lambda ≤ 0 then false
  else if msg.round < 1 then false
  else isValidContent msg

variable {keys} {msg : Message} {n : Nat}

/-- What a valid message satisfies whatever its kind. -/
theorem isValidMessage_spec
    (h : isValidMessage keys msg (validatorsFromCount n) = true) :
    (∃ i : Fin n, msg.fromId = i) ∧ keys.verifySignature msg = true ∧ 1 ≤ msg.round ∧
      isValidContent msg = true := by
  unfold isValidMessage at h
  split at h
  case isTrue => cases h
  case isFalse hval =>
    split at h
    case isTrue => cases h
    case isFalse hsig =>
      split at h
      case isTrue => cases h
      case isFalse =>
        split at h
        case isTrue => cases h
        case isFalse hround =>
          refine ⟨?_, by simpa using hsig, by omega, h⟩
          apply mem_validatorsFromCount.mp
          simpa [isValidator] using hval

/-- Valid votes carry a value that passes the application's check. -/
theorem value_ne_empty_of_valid
    (h : isValidMessage keys msg (validatorsFromCount n) = true)
    (htype : msg.type = .prepare ∨ msg.type = .commit) :
    msg.value ≠ "" := by
  obtain ⟨-, -, -, hcontent⟩ := isValidMessage_spec h
  intro hempty
  rcases htype with htype | htype <;> simp [isValidContent, htype, hempty, beta_empty] at hcontent

end Validation

end Ibft
end DistributedConsensus
