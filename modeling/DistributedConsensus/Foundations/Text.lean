import Mathlib.Data.List.Basic
import Mathlib.Data.Set.Basic

/-!
# Texts that are read from left to right

A text is a list of characters.  These facts are used to split a concatenation
again: a block of characters of one kind ends where a character of another kind
follows, the decimal form of an integer determines the integer, and two
occurrences of markers that do not overlap are equal or follow one another.
-/

namespace DistributedConsensus
namespace Foundations

/-- The text ends here, or goes on with a character of another kind. -/
def Stops (p : Char → Bool) : List Char → Prop
  | [] => True
  | c :: _ => p c = false

theorem stops_cons
    {p : Char → Bool} {c : Char} {rest : List Char}
    (h : p c = false) :
    Stops p (c :: rest) := h

/-- A block that ends where another kind of character follows can be read. -/
theorem append_inj_of_stops
    {p : Char → Bool} {u u' s s' : List Char}
    (hu : ∀ c ∈ u, p c = true)
    (hu' : ∀ c ∈ u', p c = true)
    (hs : Stops p s)
    (hs' : Stops p s')
    (h : u ++ s = u' ++ s') :
    u = u' ∧ s = s' := by
  induction u generalizing u' with
  | nil =>
      cases u' with
      | nil => exact ⟨rfl, h⟩
      | cons c rest =>
          rw [List.nil_append, List.cons_append] at h
          rw [h] at hs
          have hplain := hu' c List.mem_cons_self
          rw [Stops, hplain] at hs
          cases hs
  | cons c u ih =>
      cases u' with
      | nil =>
          rw [List.nil_append, List.cons_append] at h
          rw [← h] at hs'
          have hplain := hu c List.mem_cons_self
          rw [Stops, hplain] at hs'
          cases hs'
      | cons c' rest =>
          rw [List.cons_append, List.cons_append, List.cons.injEq] at h
          obtain ⟨rfl, htail⟩ := h
          obtain ⟨rfl, rfl⟩ := ih (fun d hd => hu d (List.mem_cons_of_mem _ hd))
            (fun d hd => hu' d (List.mem_cons_of_mem _ hd)) htail
          exact ⟨rfl, rfl⟩

/-- The decimal form of an integer. -/
def decimal : Int → List Char
  | .ofNat n => Nat.toDigits 10 n
  | .negSucc n => '-' :: Nat.toDigits 10 (n + 1)

/-- The characters of decimal forms. -/
def isDecimal (c : Char) : Bool := c.isDigit || c == '-'

theorem isDigit_of_mem_digits
    {n : Nat} {c : Char}
    (h : c ∈ Nat.toDigits 10 n) :
    c.isDigit = true :=
  Nat.isDigit_of_mem_toDigits (by omega) (by omega) h

theorem isDecimal_of_mem_decimal
    {i : Int} {c : Char}
    (h : c ∈ decimal i) :
    isDecimal c = true := by
  cases i with
  | ofNat n => simp [isDecimal, isDigit_of_mem_digits h]
  | negSucc n =>
      rcases List.mem_cons.mp h with rfl | hmem
      · rfl
      · simp [isDecimal, isDigit_of_mem_digits hmem]

theorem decimal_ne_nil (i : Int) : decimal i ≠ [] := by
  cases i with
  | ofNat n => exact Nat.toDigits_ne_nil
  | negSucc n => exact List.cons_ne_nil _ _

theorem toDigits_injective
    {m n : Nat}
    (h : Nat.toDigits 10 m = Nat.toDigits 10 n) :
    m = n := by
  have hvalue := congrArg (fun l => Nat.ofDigitChars 10 l 0) h
  simpa only [Nat.ofDigitChars_ten_toDigits] using hvalue

theorem decimal_injective : Function.Injective decimal := by
  have hsign : ∀ m n : Nat, Nat.toDigits 10 m ≠ '-' :: Nat.toDigits 10 n := by
    intro m n heq
    have hmem : '-' ∈ Nat.toDigits 10 m := by
      rw [heq]
      exact List.mem_cons_self
    have hdigit := isDigit_of_mem_digits hmem
    revert hdigit
    decide
  intro i j h
  cases i with
  | ofNat m =>
      cases j with
      | ofNat n => rw [toDigits_injective h]
      | negSucc n => exact absurd h (hsign _ _)
  | negSucc m =>
      cases j with
      | ofNat n => exact absurd h.symm (hsign _ _)
      | negSucc n =>
          simp only [decimal, List.cons.injEq, true_and] at h
          have hmn := toDigits_injective h
          rw [Nat.add_right_cancel hmn]

/-- A character that does not occur in a block comes after it. -/
theorem exists_append_of_not_mem
    {c : Char} {a b block rest : List Char}
    (hc : c ∉ block)
    (h : a ++ c :: b = block ++ rest) :
    ∃ a', a = block ++ a' ∧ a' ++ c :: b = rest := by
  induction block generalizing a with
  | nil => exact ⟨a, rfl, h⟩
  | cons d block ih =>
      rw [List.mem_cons, not_or] at hc
      cases a with
      | nil =>
          rw [List.nil_append, List.cons_append, List.cons.injEq] at h
          exact absurd h.1 hc.1
      | cons e a =>
          rw [List.cons_append, List.cons_append, List.cons.injEq] at h
          obtain ⟨rfl, htail⟩ := h
          obtain ⟨a', rfl, hrest⟩ := ih hc.2 htail
          exact ⟨a', rfl, hrest⟩

/-- A separator is the first one after a block, or comes later. -/
theorem append_separator_cases
    {c : Char} {a b block rest : List Char}
    (hc : c ∉ block)
    (h : a ++ c :: b = block ++ c :: rest) :
    b = rest ∨ ∃ a', a' ++ c :: b = rest := by
  obtain ⟨a', -, hrest⟩ := exists_append_of_not_mem hc h
  cases a' with
  | nil =>
      rw [List.nil_append, List.cons.injEq] at hrest
      exact Or.inl hrest.2
  | cons d a' =>
      rw [List.cons_append, List.cons.injEq] at hrest
      exact Or.inr ⟨a', hrest.2⟩

/-- A decimal form ends where something other than a digit follows. -/
theorem decimal_append_inj_of_digits
    {i j : Int} {s s' : List Char}
    (hs : Stops Char.isDigit s)
    (hs' : Stops Char.isDigit s')
    (h : decimal i ++ s = decimal j ++ s') :
    i = j ∧ s = s' := by
  have hdigits : ∀ m n : Nat, Nat.toDigits 10 m ++ s = Nat.toDigits 10 n ++ s' →
      m = n ∧ s = s' := by
    intro m n hmn
    obtain ⟨heq, hrest⟩ := append_inj_of_stops (fun c hc => isDigit_of_mem_digits hc)
      (fun c hc => isDigit_of_mem_digits hc) hs hs' hmn
    exact ⟨toDigits_injective heq, hrest⟩
  have hsign : ∀ (m : Nat) (t t' : List Char), Nat.toDigits 10 m ++ t ≠ '-' :: t' := by
    intro m t t' heq
    obtain ⟨c, rest, hm⟩ := List.exists_cons_of_ne_nil (Nat.toDigits_ne_nil (n := m) (b := 10))
    have hc : c.isDigit = true := isDigit_of_mem_digits (n := m) (by simp [hm])
    rw [hm, List.cons_append, List.cons.injEq] at heq
    rw [heq.1] at hc
    exact absurd hc (by decide)
  cases i with
  | ofNat m =>
      cases j with
      | ofNat n =>
          obtain ⟨rfl, hrest⟩ := hdigits m n h
          exact ⟨rfl, hrest⟩
      | negSucc n => exact absurd h (hsign m s _)
  | negSucc m =>
      cases j with
      | ofNat n => exact absurd h.symm (hsign n s' _)
      | negSucc n =>
          obtain ⟨hmn, hrest⟩ := hdigits _ _ (List.cons.inj h).2
          rw [Nat.add_right_cancel hmn]
          exact ⟨rfl, hrest⟩

/-- A decimal form ends where another kind of character follows. -/
theorem decimal_append_inj
    {i j : Int} {s s' : List Char}
    (hs : Stops isDecimal s)
    (hs' : Stops isDecimal s')
    (h : decimal i ++ s = decimal j ++ s') :
    i = j ∧ s = s' := by
  obtain ⟨hij, hrest⟩ := append_inj_of_stops (fun c hc => isDecimal_of_mem_decimal hc)
    (fun c hc => isDecimal_of_mem_decimal hc) hs hs' h
  exact ⟨decimal_injective hij, hrest⟩

/-- Markers that can be read off a text and do not overlap. -/
structure Markers (S : Set (List Char)) : Prop where
  read : ∀ s ∈ S, ∀ s' ∈ S, ∀ v v', s ++ v = s' ++ v' → s = s' ∧ v = v'
  apart : ∀ s ∈ S, ∀ s' ∈ S, ∀ a b v v', s = a ++ b → a ≠ [] → b ≠ [] → b ++ v ≠ s' ++ v'

namespace Markers

variable {S : Set (List Char)} {s s' u u' v v' : List Char}

/-- A marker that begins later begins after the end of the first one. -/
theorem exists_append_of_le
    (hS : Markers S)
    (hs : s ∈ S)
    (hs' : s' ∈ S)
    {w : List Char}
    (hu : u' = u ++ w)
    (hw : w ≠ [])
    (h : u ++ (s ++ v) = u' ++ (s' ++ v')) :
    ∃ w, u' = u ++ (s ++ w) ∧ v = w ++ (s' ++ v') := by
  rw [hu, List.append_assoc, List.append_cancel_left_eq] at h
  rcases List.append_eq_append_iff.mp h with ⟨b, hb, hrest⟩ | ⟨b, hb, hrest⟩
  · exact ⟨b, by rw [hu, hb], hrest⟩
  · cases b with
    | nil =>
        rw [List.append_nil] at hb
        exact ⟨[], by rw [hu, hb, List.append_nil], hrest.symm⟩
    | cons c b =>
        exact absurd hrest.symm (hS.apart s hs s' hs' w (c :: b) v v' hb hw (List.cons_ne_nil _ _))

/-- Two occurrences of markers are the same, or one comes after the other. -/
theorem cases
    (hS : Markers S)
    (hs : s ∈ S)
    (hs' : s' ∈ S)
    (h : u ++ (s ++ v) = u' ++ (s' ++ v')) :
    (u = u' ∧ s = s' ∧ v = v') ∨
      (∃ w, u = u' ++ (s' ++ w) ∧ v' = w ++ (s ++ v)) ∨
      ∃ w, u' = u ++ (s ++ w) ∧ v = w ++ (s' ++ v') := by
  rcases List.append_eq_append_iff.mp h with ⟨w, hu, hrest⟩ | ⟨w, hu, hrest⟩
  · cases w with
    | nil =>
        rw [List.append_nil] at hu
        rw [List.nil_append] at hrest
        exact Or.inl ⟨hu.symm, hS.read s hs s' hs' v v' hrest⟩
    | cons c w =>
        exact Or.inr (Or.inr (hS.exists_append_of_le hs hs' hu (List.cons_ne_nil _ _) h))
  · cases w with
    | nil =>
        rw [List.append_nil] at hu
        rw [List.nil_append] at hrest
        exact Or.inl ⟨hu, hS.read s hs s' hs' v v' hrest.symm⟩
    | cons c w =>
        exact Or.inr (Or.inl (hS.exists_append_of_le hs' hs hu (List.cons_ne_nil _ _) h.symm))

end Markers

end Foundations
end DistributedConsensus
