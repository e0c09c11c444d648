import DistributedConsensus.Foundations.Json
import Mathlib.Data.List.Sort

/-!
# HotStuff: the canonical encoding of commands

`canonical_bytes` of `hotstuff/types.py` on the values that a command may be:
constants, numbers, strings, lists, tuples, dictionaries and dataclasses, nested
arbitrarily.  A Python string is a sequence of code points, surrogates included;
its JSON text is made of UTF-16 code units.

The encoder writes a dataclass as the dictionary of its fields, a tuple as a
list, and a dictionary key that is not a string as a string.  Of floating-point
numbers only the text and the order as keys matter; both are parameters.
-/

namespace DistributedConsensus
namespace HotStuff

open Foundations

/-- Unicode code points, with surrogates. -/
abbrev CodePoint := Fin 0x110000

/-- Python strings. -/
abbrev PyStr := List CodePoint

/-- The string with given characters. -/
def ofChars (chars : List Char) : PyStr :=
  chars.map fun c => ⟨c.toNat, by
    have hvalid := c.valid
    rcases hvalid with h | h
    · exact Nat.lt_trans h (by decide)
    · exact h.2⟩

/-- The string of a literal. -/
def pyStr (s : String) : PyStr := ofChars s.toList

/-- The code units of a code point. -/
def utf16 (c : CodePoint) : List CodeUnit :=
  if h : c.val < 0x10000 then [⟨c.val, h⟩]
  else
    [⟨0xd800 + (c.val - 0x10000) / 0x400, by omega⟩,
      ⟨0xdc00 + (c.val - 0x10000) % 0x400, by omega⟩]

/-- The code units of a string. -/
def PyStr.units (s : PyStr) : List CodeUnit := s.flatMap utf16

/-- Python integers; `True` and `False` are integers. -/
inductive PyInt where
  | int (i : Int)
  | bool (b : Bool)
deriving DecidableEq

/-- The numerical value. -/
def PyInt.value : PyInt → Int
  | .int i => i
  | .bool b => if b then 1 else 0

/-- A settlement instruction between two banks; `recipient` is the field `to`. -/
structure Transfer where
  sender : PyStr
  recipient : PyStr
  amount : PyInt
  nonce : PyInt
deriving DecidableEq

/-- The floating-point numbers of the interpreter: their texts, and their order
among themselves and the integers. -/
class PyFloat (F : Type) where
  repr : F → Json.Token
  le : F ⊕ Int → F ⊕ Int → Bool

/-- Dictionary keys that the encoder accepts. -/
inductive PyKey (F : Type) where
  | str (s : PyStr)
  | int (i : PyInt)
  | float (x : F)
  | none

/-- Python values.  A dataclass is given by its fields; `other` stands for the
objects that the encoder refuses. -/
inductive PyValue (F : Type) where
  | none
  | int (i : PyInt)
  | float (x : F)
  | str (s : PyStr)
  | list (items : List (PyValue F))
  | tuple (items : List (PyValue F))
  | dict (items : List (PyKey F × PyValue F))
  | transfer (t : Transfer)
  | dataclass (fields : List (PyStr × PyValue F))
  | other

section Tokens

/-- A token that is given by its text. -/
def tokenOf (s : String) (h : s.toList ≠ [] ∧ ∀ c ∈ s.toList, Json.isPlain c = true) :
    Json.Token :=
  ⟨s.toList, h.1, h.2⟩

theorem plainText_of_all
    {s : String}
    (hne : s.toList ≠ [])
    (h : s.toList.all Json.isPlain = true) :
    s.toList ≠ [] ∧ ∀ c ∈ s.toList, Json.isPlain c = true :=
  ⟨hne, List.all_eq_true.mp h⟩

def nullToken : Json.Token := tokenOf "null" (plainText_of_all (by decide) (by decide))

theorem isPlain_of_isDecimal
    {c : Char}
    (h : isDecimal c = true) :
    Json.isPlain c = true := by
  unfold Json.isPlain
  rw [Bool.not_eq_true']
  rw [← Bool.not_eq_true]
  intro hmem
  simp only [List.contains_eq_mem, List.mem_cons, List.not_mem_nil, or_false,
    decide_eq_true_eq] at hmem
  rcases hmem with rfl | rfl | rfl | rfl | rfl | rfl | rfl <;> revert h <;> decide

/-- The text of an integer. -/
def PyInt.token : PyInt → Json.Token
  | .int i => ⟨decimal i, decimal_ne_nil i, fun _ hc =>
      isPlain_of_isDecimal (isDecimal_of_mem_decimal hc)⟩
  | .bool true => tokenOf "true" (plainText_of_all (by decide) (by decide))
  | .bool false => tokenOf "false" (plainText_of_all (by decide) (by decide))

theorem PyInt.token_injective : Function.Injective PyInt.token := by
  have hbool : ∀ (i : Int) (b : Bool), PyInt.token (.int i) ≠ PyInt.token (.bool b) := by
    intro i b h
    have hchars := congrArg Json.Token.chars h
    have hall : (PyInt.token (.bool b)).chars.all isDecimal = true := by
      rw [← hchars]
      exact List.all_eq_true.mpr fun c hc => isDecimal_of_mem_decimal hc
    revert hall
    cases b <;> decide
  intro a b h
  cases a with
  | int i =>
      cases b with
      | int j => rw [decimal_injective (congrArg Json.Token.chars h)]
      | bool b => exact absurd h (hbool i b)
  | bool a =>
      cases b with
      | int j => exact absurd h.symm (hbool j a)
      | bool b =>
          revert h
          cases a <;> cases b <;> decide

end Tokens

section Encoder

variable {F : Type} [PyFloat F]

/-- The order of strings, by code points. -/
def strLe : PyStr → PyStr → Bool
  | [], _ => true
  | _ :: _, [] => false
  | c :: s, d :: t => if c = d then strLe s t else c < d

/-- The order of keys of one kind. -/
def PyKey.le : PyKey F → PyKey F → Bool
  | .str s, .str t => strLe s t
  | .int i, .int j => i.value ≤ j.value
  | .int i, .float y => PyFloat.le (.inr i.value : F ⊕ Int) (.inl y)
  | .float x, .int j => PyFloat.le (.inl x : F ⊕ Int) (.inr j.value)
  | .float x, .float y => PyFloat.le (.inl x : F ⊕ Int) (.inl y)
  | _, _ => true

/-- A string key. -/
def PyKey.isStr : PyKey F → Bool
  | .str _ => true
  | _ => false

/-- A numerical key. -/
def PyKey.isNumber : PyKey F → Bool
  | .int _ => true
  | .float _ => true
  | _ => false

/-- The string that a key is written as. -/
def PyKey.units : PyKey F → List CodeUnit
  | .str s => s.units
  | .int i => (ofChars i.token.chars).units
  | .float x => (ofChars (PyFloat.repr x).chars).units
  | .none => (ofChars nullToken.chars).units

/-- Keys that can be sorted: there is at most one, or all are of one kind. -/
def sortable (keys : List (PyKey F)) : Bool :=
  keys.length ≤ 1 || keys.all PyKey.isStr || keys.all PyKey.isNumber

/-- The members of an object, sorted by key.  Keys that cannot be compared
raise. -/
def sortItems (items : List (PyKey F × Json)) : Option (List (List CodeUnit × Json)) :=
  if sortable (items.map Prod.fst) then
    some ((items.insertionSort (fun a b => a.1.le b.1)).map fun p => (p.1.units, p.2))
  else none

/-- The fields of a dataclass, sorted by name. -/
def sortFields (fields : List (PyStr × Json)) : List (List CodeUnit × Json) :=
  (fields.insertionSort (fun a b => strLe a.1 b.1)).map fun p => (p.1.units, p.2)

/-- The fields of a transfer. -/
def Transfer.asdict (t : Transfer) : List (PyStr × Json) :=
  [(pyStr "sender", .string t.sender.units), (pyStr "to", .string t.recipient.units),
    (pyStr "amount", .token t.amount.token), (pyStr "nonce", .token t.nonce.token)]

mutual

/-- The JSON value of a command; the encoder raises on some values. -/
def toJson : PyValue F → Option Json
  | .none => some (.token nullToken)
  | .int i => some (.token i.token)
  | .float x => some (.token (PyFloat.repr x))
  | .str s => some (.string s.units)
  | .list items => (toJsonItems items).map .array
  | .tuple items => (toJsonItems items).map .array
  | .dict items => ((toJsonDict items).bind sortItems).map .object
  | .transfer t => some (.object (sortFields t.asdict))
  | .dataclass fields => (toJsonFields fields).map fun l => .object (sortFields l)
  | .other => none

def toJsonItems : List (PyValue F) → Option (List Json)
  | [] => some []
  | x :: xs =>
      match toJson x, toJsonItems xs with
      | some j, some js => some (j :: js)
      | _, _ => none

def toJsonDict : List (PyKey F × PyValue F) → Option (List (PyKey F × Json))
  | [] => some []
  | (k, x) :: xs =>
      match toJson x, toJsonDict xs with
      | some j, some js => some ((k, j) :: js)
      | _, _ => none

def toJsonFields : List (PyStr × PyValue F) → Option (List (PyStr × Json))
  | [] => some []
  | (k, x) :: xs =>
      match toJson x, toJsonFields xs with
      | some j, some js => some ((k, j) :: js)
      | _, _ => none

end

/-- The canonical encoding; the text is ASCII. -/
def canonicalBytes (cmd : PyValue F) : Option String :=
  (toJson cmd).map fun j => String.ofList j.render

/-- Equal encodings come from equal JSON values. -/
theorem toJson_eq_of_canonicalBytes
    {a b : PyValue F}
    (h : canonicalBytes a = canonicalBytes b) :
    toJson a = toJson b := by
  unfold canonicalBytes at h
  cases ha : toJson a with
  | none =>
      rw [ha, Option.map_none] at h
      exact (Option.map_eq_none_iff.mp h.symm).symm
  | some j =>
      rw [ha, Option.map_some] at h
      obtain ⟨j', hj', htext⟩ := Option.map_eq_some_iff.mp h.symm
      rw [hj', Json.render_injective (String.ofList_injective htext)]

/-- The fields of a transfer in the order of their names. -/
theorem sortFields_asdict (t : Transfer) :
    sortFields t.asdict =
      [((pyStr "amount").units, .token t.amount.token),
        ((pyStr "nonce").units, .token t.nonce.token),
        ((pyStr "sender").units, .string t.sender.units),
        ((pyStr "to").units, .string t.recipient.units)] := by
  rfl

/-- Transfers with equal encodings agree in their numbers, and in the code units
of their names. -/
theorem transfer_eq_of_canonicalBytes
    {t t' : Transfer}
    (h : canonicalBytes (.transfer t : PyValue F) = canonicalBytes (.transfer t' : PyValue F)) :
    t.amount = t'.amount ∧ t.nonce = t'.nonce ∧ t.sender.units = t'.sender.units ∧
      t.recipient.units = t'.recipient.units := by
  have hjson := toJson_eq_of_canonicalBytes h
  simp only [toJson, sortFields_asdict, Option.some.injEq, Json.object.injEq, List.cons.injEq,
    Prod.mk.injEq, true_and, Json.token.injEq, Json.string.injEq, and_true] at hjson
  obtain ⟨hamount, hnonce, hsender, hto⟩ := hjson
  exact ⟨PyInt.token_injective hamount, PyInt.token_injective hnonce, hsender, hto⟩

end Encoder

end HotStuff
end DistributedConsensus
