import DistributedConsensus.Foundations.Text
import DistributedConsensus.PbftSimulator.Message
import Mathlib.Algebra.Group.Int.Defs
import Mathlib.Logic.IsEmpty.Defs

/-!
# PBFT simulator: the digest of a VIEW-CHANGE message

The digest is the text of the P set and the Q set, with the digests of the requests
as they are.  A request digest that contains the end of one entry and the beginning
of the next one can be read as two entries.

Without such a border in the digests the text determines the message; every digest
with a border occurs in a message that shares its text with another one.
-/

namespace DistributedConsensus
namespace PbftSimulator

open Foundations

/-- The range of an integer. -/
def IsGoInt (i : ℤ) : Prop := -2 ^ 63 ≤ i ∧ i < 2 ^ 63

theorem isGoInt_zero : IsGoInt 0 := by
  constructor <;> decide

/-- What stands between the view of an entry and the sequence number of the next one,
in one set or across the two sets. -/
inductive Border : List Char → Prop
  | entries : Border ['\x7d', ' ', '\x7b']
  | sets : Border ['\x7d', ']', '-', '[', '\x7b']

/-- A text that can be read as the end of an entry and the beginning of another one. -/
structure Split (d : List Char) where
  before : List Char
  view : ℤ
  border : List Char
  sequence : ℤ
  after : List Char
  isBorder : Border border
  view_range : IsGoInt view
  sequence_range : IsGoInt sequence
  /-- The sequence number ends here. -/
  ends : after = [] ∨ ∃ rest, after = ' ' :: rest
  text : d = before ++ ' ' :: (decimal view ++ (border ++ (decimal sequence ++ after)))

/-- The digest has no border inside. -/
def Unsplit (d : String) : Prop := IsEmpty (Split d.toList)

namespace ViewChange

/-- The entries of both sets. -/
def entries (m : ViewChange) : List PQEntry := m.pSet ++ m.qSet

/-- The integers of the message are 64-bit integers. -/
def InRange (m : ViewChange) : Prop := ∀ e ∈ m.entries, IsGoInt e.sequence ∧ IsGoInt e.view

/-- No digest of the message has a border inside. -/
def Separable (m : ViewChange) : Prop := ∀ e ∈ m.entries, Unsplit e.digest

end ViewChange

/-! ## The texts as lists of characters -/

theorem toList_toString (i : ℤ) : (toString i).toList = decimal i := by
  cases i with
  | ofNat n =>
      rw [Int.toString_eq_repr, Int.repr_eq_if]
      simp [decimal, Nat.repr_eq_ofList_toDigits]
  | negSucc n =>
      rw [Int.toString_eq_repr, Int.repr_eq_if]
      simp [decimal, Nat.repr_eq_ofList_toDigits]

/-- The text of an entry after its opening brace. -/
def PQEntry.chars (e : PQEntry) : List Char :=
  decimal e.sequence ++ ' ' :: (e.digest.toList ++ ' ' :: (decimal e.view ++ ['\x7d']))

theorem PQEntry.toList_format (e : PQEntry) : e.format.toList = '\x7b' :: e.chars := by
  unfold PQEntry.format PQEntry.chars
  simp only [String.toList_append, toList_toString]
  simp

/-- The text of further entries. -/
def moreChars (entries : List PQEntry) : List Char :=
  entries.flatMap fun e => ' ' :: '\x7b' :: e.chars

/-- The text of a set after its opening bracket. -/
def setChars : List PQEntry → List Char
  | [] => [']']
  | e :: rest => '\x7b' :: (e.chars ++ (moreChars rest ++ [']']))

@[simp] theorem setChars_cons
    (e : PQEntry)
    (rest : List PQEntry) :
    setChars (e :: rest) = '\x7b' :: (e.chars ++ (moreChars rest ++ [']'])) := rfl

theorem toList_formatEntries (entries : List PQEntry) :
    (formatEntries entries).toList = '[' :: setChars entries := by
  unfold formatEntries
  cases entries with
  | nil => rfl
  | cons e rest =>
      have hmore : ∀ e : PQEntry, (String.intercalate " " ((e :: rest).map PQEntry.format)).toList
          = '\x7b' :: (e.chars ++ moreChars rest) := by
        induction rest with
        | nil =>
            intro e
            simp [String.intercalate_singleton, PQEntry.toList_format, moreChars]
        | cons e' rest ih =>
            intro e
            rw [List.map_cons, List.map_cons, String.intercalate_cons_cons]
            have htail := ih e'
            rw [List.map_cons] at htail
            simp [htail, PQEntry.toList_format, moreChars]
      simp only [String.toList_append, hmore]
      simp [setChars]

/-- The digest as a list of characters. -/
theorem toList_viewChangeDigest (m : ViewChange) :
    (viewChangeDigest m).toList = ['v', 'c', '-'] ++ (decimal m.view ++ '-' ::
      (decimal m.senderID ++ '-' :: '[' :: (setChars m.pSet ++ '-' :: '[' :: setChars m.qSet))) := by
  unfold viewChangeDigest
  simp only [String.toList_append, toList_toString, toList_formatEntries]
  simp

/-! ## Reading the text -/

theorem space_not_mem_decimal (i : ℤ) : ' ' ∉ decimal i := by
  intro h
  have hdecimal := isDecimal_of_mem_decimal h
  revert hdecimal
  decide

/-- What comes after the closing brace of an entry: another entry, or the end of the
text. -/
def Follows (rest : List Char) : Prop :=
  ' ' ∉ rest ∨ ∃ border s more, Border border ∧ IsGoInt s ∧
    '}' :: rest = border ++ (decimal s ++ ' ' :: more)

/-- A text before a space reaches beyond a whole border. -/
theorem border_of_space
    {u tail more border : List Char} {s v : ℤ}
    (hborder : Border border)
    (h : u ++ ' ' :: (decimal v ++ tail) = border ++ (decimal s ++ ' ' :: more)) :
    ∃ after, (after = [] ∨ ∃ rest, after = ' ' :: rest) ∧
      u = border ++ (decimal s ++ after) := by
  have hblock : ∀ (block u : List Char), ' ' ∉ block →
      u ++ ' ' :: (decimal v ++ tail) = block ++ ' ' :: more →
      ∃ after, (after = [] ∨ ∃ rest, after = ' ' :: rest) ∧ u = block ++ after := by
    intro block u hspace heq
    obtain ⟨after, hu, hrest⟩ := exists_append_of_not_mem hspace heq
    refine ⟨after, ?_, hu⟩
    cases after with
    | nil => exact Or.inl rfl
    | cons c after =>
        rw [List.cons_append, List.cons.injEq] at hrest
        exact Or.inr ⟨after, by rw [hrest.1]⟩
  have hdecimal := space_not_mem_decimal s
  cases hborder with
  | sets =>
      rw [← List.append_assoc] at h
      obtain ⟨after, hends, hu⟩ := hblock _ u (by simp [hdecimal]) h
      exact ⟨after, hends, by rw [hu, List.append_assoc]⟩
  | entries =>
      cases u with
      | nil =>
          rw [List.nil_append, List.cons_append, List.cons.injEq] at h
          exact absurd h.1 (by decide)
      | cons c u =>
          rw [List.cons_append, List.cons_append, List.cons.injEq] at h
          obtain ⟨rfl, h⟩ := h
          cases u with
          | nil =>
              -- the space of the border is followed by a brace
              rw [List.nil_append, List.cons_append, List.cons.injEq, List.cons_append] at h
              obtain ⟨c, rest, hv⟩ := List.exists_cons_of_ne_nil (decimal_ne_nil v)
              have hc : isDecimal c = true := isDecimal_of_mem_decimal (i := v) (by simp [hv])
              rw [hv, List.cons_append, List.cons.injEq] at h
              rw [h.2.1] at hc
              exact absurd hc (by decide)
          | cons c u =>
              rw [List.cons_append, List.cons_append, List.cons.injEq] at h
              obtain ⟨rfl, h⟩ := h
              obtain ⟨after, hends, hu⟩ := hblock ('{' :: decimal s) u (by simp [hdecimal]) h
              exact ⟨after, hends, by rw [hu]; rfl⟩

/-- A digest that is longer than the one read at the same place has a border inside. -/
theorem split_of_longer
    {d w rest rest' : List Char} {c : Char} {v v' : ℤ}
    (hv : IsGoInt v)
    (hrest : Follows rest)
    (h : d ++ ' ' :: (decimal v ++ '}' :: rest)
      = (d ++ c :: w) ++ ' ' :: (decimal v' ++ '}' :: rest')) :
    Nonempty (Split (d ++ c :: w)) := by
  rw [List.append_assoc, List.append_cancel_left_eq, List.cons_append, List.cons.injEq] at h
  obtain ⟨rfl, h⟩ := h
  obtain ⟨u, rfl, hu⟩ := exists_append_of_not_mem (space_not_mem_decimal v) h.symm
  rcases hrest with hnone | ⟨border, s, more, hborder, hs, htext⟩
  · have hmem : ' ' ∈ '}' :: rest := by
      rw [← hu]
      simp
    simp [hnone] at hmem
  · rw [htext] at hu
    obtain ⟨after, hends, rfl⟩ := border_of_space hborder hu
    exact ⟨⟨d, v, border, s, after, hborder, hv, hs, hends, rfl⟩⟩

/-- Without borders inside the digests an entry ends at the same place. -/
theorem entry_append_inj
    {e e' : PQEntry} {rest rest' : List Char}
    (he : Unsplit e.digest)
    (he' : Unsplit e'.digest)
    (hv : IsGoInt e.view)
    (hv' : IsGoInt e'.view)
    (hrest : Follows rest)
    (hrest' : Follows rest')
    (h : e.chars ++ rest = e'.chars ++ rest') :
    e = e' ∧ rest = rest' := by
  obtain ⟨s, d, v⟩ := e
  obtain ⟨s', d', v'⟩ := e'
  unfold PQEntry.chars at h
  simp only [List.append_assoc, List.cons_append, List.nil_append] at h
  obtain ⟨rfl, hdigest⟩ := decimal_append_inj (by exact rfl) (by exact rfl) h
  replace h := (List.cons.inj hdigest).2
  rcases List.append_eq_append_iff.mp h with ⟨w, hw, -⟩ | ⟨w, hw, -⟩
  · cases w with
    | nil =>
        rw [List.append_nil] at hw
        rw [← hw, List.append_cancel_left_eq, List.cons.injEq] at h
        obtain ⟨rfl, hend⟩ := decimal_append_inj (by exact rfl) (by exact rfl) h.2
        exact ⟨by rw [String.toList_inj.mp hw], (List.cons.inj hend).2⟩
    | cons c w =>
        rw [hw] at h
        have hsplit := split_of_longer hv hrest h
        rw [← hw] at hsplit
        exact absurd hsplit (not_nonempty_iff.mpr he')
  · cases w with
    | nil =>
        rw [List.append_nil] at hw
        rw [hw, List.append_cancel_left_eq, List.cons.injEq] at h
        obtain ⟨rfl, hend⟩ := decimal_append_inj (by exact rfl) (by exact rfl) h.2
        exact ⟨by rw [String.toList_inj.mp hw], (List.cons.inj hend).2⟩
    | cons c w =>
        rw [hw] at h
        have hsplit := split_of_longer hv' hrest' h.symm
        rw [← hw] at hsplit
        exact absurd hsplit (not_nonempty_iff.mpr he)

/-- What may come after the closing bracket of a set. -/
def Ends (rest : List Char) : Prop :=
  ' ' ∉ rest ∨ ∃ s more, IsGoInt s ∧
    rest = ['-', '[', '{'] ++ (decimal s ++ ' ' :: more)

theorem follows_more
    {entries : List PQEntry} {rest : List Char}
    (hrange : ∀ e ∈ entries, IsGoInt e.sequence)
    (hrest : Ends rest) :
    Follows (moreChars entries ++ ']' :: rest) := by
  cases entries with
  | nil =>
      rcases hrest with hnone | ⟨s, more, hs, rfl⟩
      · exact Or.inl (by simp [moreChars, hnone])
      · exact Or.inr ⟨_, s, more, Border.sets, hs, rfl⟩
  | cons e entries =>
      let more := e.digest.toList ++ ' ' :: (decimal e.view ++
        '\x7d' :: (moreChars entries ++ ']' :: rest))
      refine Or.inr ⟨_, e.sequence, more, Border.entries, hrange e List.mem_cons_self, ?_⟩
      simp [more, moreChars, PQEntry.chars]

/-- The entries of a set can be read one after the other. -/
theorem more_append_inj
    {entries entries' : List PQEntry} {rest rest' : List Char}
    (h : ∀ e ∈ entries, Unsplit e.digest ∧ IsGoInt e.sequence ∧ IsGoInt e.view)
    (h' : ∀ e ∈ entries', Unsplit e.digest ∧ IsGoInt e.sequence ∧ IsGoInt e.view)
    (hrest : Ends rest)
    (hrest' : Ends rest')
    (heq : moreChars entries ++ ']' :: rest = moreChars entries' ++ ']' :: rest') :
    entries = entries' ∧ rest = rest' := by
  induction entries generalizing entries' with
  | nil =>
      cases entries' with
      | nil => exact ⟨rfl, (List.cons.inj heq).2⟩
      | cons e' entries' => exact absurd (List.cons.inj heq).1 (by decide)
  | cons e entries ih =>
      cases entries' with
      | nil => exact absurd (List.cons.inj heq).1 (by decide)
      | cons e' entries' =>
          have htail := fun x hx => h x (List.mem_cons_of_mem _ hx)
          have htail' := fun x hx => h' x (List.mem_cons_of_mem _ hx)
          obtain ⟨hclean, -, hview⟩ := h e List.mem_cons_self
          obtain ⟨hclean', -, hview'⟩ := h' e' List.mem_cons_self
          simp only [moreChars, List.flatMap_cons, List.append_assoc, List.cons_append,
            List.cons.injEq, true_and] at heq
          obtain ⟨rfl, hmore⟩ := entry_append_inj hclean hclean' hview hview'
            (follows_more (fun x hx => (htail x hx).2.1) hrest)
            (follows_more (fun x hx => (htail' x hx).2.1) hrest') heq
          obtain ⟨rfl, rfl⟩ := ih htail htail' hmore
          exact ⟨rfl, rfl⟩

/-- A set ends at the same place. -/
theorem set_append_inj
    {entries entries' : List PQEntry} {rest rest' : List Char}
    (h : ∀ e ∈ entries, Unsplit e.digest ∧ IsGoInt e.sequence ∧ IsGoInt e.view)
    (h' : ∀ e ∈ entries', Unsplit e.digest ∧ IsGoInt e.sequence ∧ IsGoInt e.view)
    (hrest : Ends rest)
    (hrest' : Ends rest')
    (heq : setChars entries ++ rest = setChars entries' ++ rest') :
    entries = entries' ∧ rest = rest' := by
  have hshape : ∀ (entries : List PQEntry) (rest : List Char), entries ≠ [] →
      ' ' :: (setChars entries ++ rest) = moreChars entries ++ ']' :: rest := by
    intro entries rest hne
    cases entries with
    | nil => exact absurd rfl hne
    | cons e entries => simp [setChars, moreChars]
  cases entries with
  | nil =>
      cases entries' with
      | nil => exact ⟨rfl, (List.cons.inj heq).2⟩
      | cons e' entries' => exact absurd (List.cons.inj heq).1 (by decide)
  | cons e entries =>
      cases entries' with
      | nil => exact absurd (List.cons.inj heq).1 (by decide)
      | cons e' entries' =>
          refine more_append_inj h h' hrest hrest' ?_
          rw [← hshape _ _ (List.cons_ne_nil _ _), ← hshape _ _ (List.cons_ne_nil _ _), heq]

theorem ends_setChars
    {entries : List PQEntry}
    (hrange : ∀ e ∈ entries, IsGoInt e.sequence) :
    Ends ('-' :: '[' :: setChars entries) := by
  cases entries with
  | nil => exact Or.inl (by decide)
  | cons e entries =>
      let more := e.digest.toList ++ ' ' :: (decimal e.view ++
        '\x7d' :: (moreChars entries ++ [']']))
      refine Or.inr ⟨e.sequence, more, hrange e List.mem_cons_self, ?_⟩
      simp [more, setChars, PQEntry.chars]

/-! ## Which messages share their digest -/

/-- Without borders inside the request digests the digest identifies the message. -/
theorem eq_of_viewChangeDigest_eq
    {m m' : ViewChange}
    (hrange : m.InRange)
    (hrange' : m'.InRange)
    (hm : m.Separable)
    (hm' : m'.Separable)
    (h : viewChangeDigest m = viewChangeDigest m') :
    m = m' := by
  have hentries : ∀ m : ViewChange, m.InRange → m.Separable →
      (∀ e ∈ m.pSet, Unsplit e.digest ∧ IsGoInt e.sequence ∧ IsGoInt e.view) ∧
        ∀ e ∈ m.qSet, Unsplit e.digest ∧ IsGoInt e.sequence ∧ IsGoInt e.view := by
    intro m hrange hm
    constructor
    · intro e he
      exact ⟨hm e (List.mem_append_left _ he), hrange e (List.mem_append_left _ he)⟩
    · intro e he
      exact ⟨hm e (List.mem_append_right _ he), hrange e (List.mem_append_right _ he)⟩
  obtain ⟨hp, hq⟩ := hentries m hrange hm
  obtain ⟨hp', hq'⟩ := hentries m' hrange' hm'
  have htext := congrArg String.toList h
  rw [toList_viewChangeDigest, toList_viewChangeDigest, List.append_cancel_left_eq] at htext
  obtain ⟨hview, hsender⟩ := decimal_append_inj_of_digits (by exact rfl) (by exact rfl) htext
  obtain ⟨hid, hsets⟩ := decimal_append_inj_of_digits (by exact rfl) (by exact rfl)
    (List.cons.inj hsender).2
  obtain ⟨hpset, hrest⟩ := set_append_inj hp hp' (ends_setChars fun e he => (hq e he).2.1)
    (ends_setChars fun e he => (hq' e he).2.1) (List.cons.inj (List.cons.inj hsets).2).2
  have hends : Ends [] := Or.inl List.not_mem_nil
  have hlast := (List.cons.inj (List.cons.inj hrest).2).2
  rw [← List.append_nil (setChars m.qSet), ← List.append_nil (setChars m'.qSet)] at hlast
  obtain ⟨hqset, -⟩ := set_append_inj hq hq' hends hends hlast
  cases m
  cases m'
  congr

/-- Two messages of one text of which the first has the digest `d`. -/
theorem collision
    {d x : String} {v : ℤ} {pRest qSet pRest' qSet' : List PQEntry}
    (hv : IsGoInt v)
    (hx : x ≠ d)
    (hrange : ∀ e ∈ pRest ++ qSet ++ (pRest' ++ qSet'), IsGoInt e.sequence ∧ IsGoInt e.view)
    (htext : d.toList ++ ' ' :: '0' :: '\x7d' :: (moreChars pRest ++
        ']' :: '-' :: '[' :: setChars qSet)
      = x.toList ++ ' ' :: (decimal v ++ '\x7d' :: (moreChars pRest' ++
        ']' :: '-' :: '[' :: setChars qSet'))) :
    ∃ m m' : ViewChange, m.InRange ∧ m'.InRange ∧ (∃ e ∈ m.entries, e.digest = d) ∧
      viewChangeDigest m = viewChangeDigest m' ∧ m ≠ m' := by
  have hdecimal : decimal 0 = ['0'] := rfl
  refine ⟨⟨1, 0, ⟨0, d, 0⟩ :: pRest, qSet⟩, ⟨1, 0, ⟨0, x, v⟩ :: pRest', qSet'⟩, ?_, ?_, ?_, ?_, ?_⟩
  · intro e he
    rcases List.mem_cons.mp he with rfl | hrest
    · exact ⟨isGoInt_zero, isGoInt_zero⟩
    · exact hrange e (List.mem_append_left _ hrest)
  · intro e he
    rcases List.mem_cons.mp he with rfl | hrest
    · exact ⟨isGoInt_zero, hv⟩
    · exact hrange e (List.mem_append_right _ hrest)
  · exact ⟨⟨0, d, 0⟩, List.mem_cons_self, rfl⟩
  · apply String.toList_inj.mp
    rw [toList_viewChangeDigest, toList_viewChangeDigest]
    simp [PQEntry.chars, hdecimal, htext]
  · intro h
    simp only [ViewChange.mk.injEq, List.cons.injEq, PQEntry.mk.injEq] at h
    exact hx h.2.2.1.1.2.1.symm

/-- A digest with a border inside occurs in a message that shares its text with
another one. -/
theorem exists_collision
    {d : String}
    (hsplit : Nonempty (Split d.toList)) :
    ∃ m m' : ViewChange, m.InRange ∧ m'.InRange ∧ (∃ e ∈ m.entries, e.digest = d) ∧
      viewChangeDigest m = viewChangeDigest m' ∧ m ≠ m' := by
  obtain ⟨before, v, border, s, after, hborder, hv, hs, hends, htext⟩ := hsplit
  have hdecimal : decimal 0 = ['0'] := rfl
  have hx : String.ofList before ≠ d := by
    intro h
    rw [← h, String.toList_ofList] at htext
    have hlength := congrArg List.length htext
    simp at hlength
  -- the second entry begins with the sequence number behind the border; where the
  -- digest ends there, it takes its space from an empty digest
  cases hborder with
  | entries =>
      rcases hends with rfl | ⟨rest, rfl⟩
      · refine @collision d (String.ofList before) v [⟨0, "", 0⟩] []
          [⟨s, "0\x7d \x7b0 ", 0⟩] [] hv hx (by simp [isGoInt_zero, hs]) ?_
        simp [htext, moreChars, PQEntry.chars, hdecimal]
      · refine @collision d (String.ofList before) v [] []
          [⟨s, String.ofList rest, 0⟩] [] hv hx (by simp [isGoInt_zero, hs]) ?_
        simp [htext, moreChars, PQEntry.chars, hdecimal]
  | sets =>
      rcases hends with rfl | ⟨rest, rfl⟩
      · refine @collision d (String.ofList before) v [] [⟨0, "", 0⟩]
          [] [⟨s, "0\x7d]-[\x7b0 ", 0⟩] hv hx (by simp [isGoInt_zero, hs]) ?_
        simp [htext, moreChars, PQEntry.chars, hdecimal]
      · refine @collision d (String.ofList before) v [] [⟨0, "", 0⟩]
          [] [⟨s, String.ofList (rest ++ " 0\x7d]-[\x7b0 ".toList), 0⟩] hv hx
          (by simp [isGoInt_zero, hs]) ?_
        simp [htext, moreChars, PQEntry.chars, hdecimal]

/-- The digest identifies the messages without borders inside their request digests,
and every request digest with a border inside occurs in a message with the digest of
another one. -/
theorem viewChangeDigest_identifies_iff
    (m m' : ViewChange)
    (d : String) :
    (m.InRange → m'.InRange → m.Separable → m'.Separable →
      (viewChangeDigest m = viewChangeDigest m' ↔ m = m')) ∧
    (¬Unsplit d → ∃ m₁ m₂ : ViewChange, m₁.InRange ∧ m₂.InRange ∧
      (∃ e ∈ m₁.entries, e.digest = d) ∧ viewChangeDigest m₁ = viewChangeDigest m₂ ∧ m₁ ≠ m₂) := by
  constructor
  · intro hrange hrange' hm hm'
    constructor
    · exact eq_of_viewChangeDigest_eq hrange hrange' hm hm'
    · exact congrArg viewChangeDigest
  · intro hd
    exact exists_collision (not_isEmpty_iff.mp hd)

/-- An operation that reads like two entries: the messages with one entry and with
two entries have one digest. -/
theorem not_viewChangeDigest_identifies :
    viewChangeDigest ⟨3, 1, [⟨1, "a 0\x7d \x7b2 b", 0⟩], []⟩
        = viewChangeDigest ⟨3, 1, [⟨1, "a", 0⟩, ⟨2, "b", 0⟩], []⟩ ∧
      (⟨3, 1, [⟨1, "a 0\x7d \x7b2 b", 0⟩], []⟩ : ViewChange)
        ≠ ⟨3, 1, [⟨1, "a", 0⟩, ⟨2, "b", 0⟩], []⟩ := by
  constructor
  · apply String.toList_inj.mp
    rw [toList_viewChangeDigest, toList_viewChangeDigest]
    decide
  · decide

end PbftSimulator
end DistributedConsensus
