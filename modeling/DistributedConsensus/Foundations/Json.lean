import DistributedConsensus.Foundations.Text

/-!
# JSON texts in ASCII

Values and their compact texts: numbers and the constants are plain tokens,
strings are sequences of UTF-16 code units, and the members of an object are
written in the order in which they are given.  Code units outside printable
ASCII are escaped.

A text determines the value it was written for: `render_injective`.
-/

namespace DistributedConsensus
namespace Foundations

/-- UTF-16 code units. -/
abbrev CodeUnit := Fin 65536

namespace Json

/-- Characters that do not end a token. -/
def isPlain (c : Char) : Bool :=
  !([',', ':', '[', ']', '\x7b', '\x7d', '"'].contains c)

/-- Numbers and constants. -/
structure Token where
  chars : List Char
  ne_nil : chars ≠ []
  plain : ∀ c ∈ chars, isPlain c = true
deriving DecidableEq

end Json

/-- JSON values. -/
inductive Json where
  | token (t : Json.Token)
  | string (s : List CodeUnit)
  | array (items : List Json)
  | object (members : List (List CodeUnit × Json))

namespace Json

/-- Four lower-case hexadecimal digits. -/
def hex (n : Nat) : List Char :=
  [Nat.digitChar (n / 4096 % 16), Nat.digitChar (n / 256 % 16), Nat.digitChar (n / 16 % 16),
    Nat.digitChar (n % 16)]

/-- The short escapes. -/
def shortEscape (u : CodeUnit) : Option Char :=
  if u = 0x22 then some '"'
  else if u = 0x5c then some '\\'
  else if u = 0x08 then some 'b'
  else if u = 0x0c then some 'f'
  else if u = 0x0a then some 'n'
  else if u = 0x0d then some 'r'
  else if u = 0x09 then some 't'
  else none

/-- A code unit inside a string. -/
def escape (u : CodeUnit) : List Char :=
  match shortEscape u with
  | some c => ['\\', c]
  | none =>
      if 0x20 ≤ u.val ∧ u.val ≤ 0x7e then [Char.ofNat u.val]
      else '\\' :: 'u' :: hex u.val

/-- The rest of a string, with the closing quote. -/
def renderUnits : List CodeUnit → List Char
  | [] => ['"']
  | u :: s => escape u ++ renderUnits s

/-- A string. -/
def renderString (s : List CodeUnit) : List Char := '"' :: renderUnits s

mutual

/-- The text of a value. -/
def render : Json → List Char
  | .token t => t.chars
  | .string s => renderString s
  | .array [] => ['[', ']']
  | .array (x :: xs) => '[' :: (render x ++ renderItems xs)
  | .object [] => ['\x7b', '\x7d']
  | .object ((k, x) :: xs) => '\x7b' :: (renderString k ++ ':' :: (render x ++ renderMembers xs))

/-- The items after the first one, with the closing bracket. -/
def renderItems : List Json → List Char
  | [] => [']']
  | x :: xs => ',' :: (render x ++ renderItems xs)

/-- The members after the first one, with the closing brace. -/
def renderMembers : List (List CodeUnit × Json) → List Char
  | [] => ['\x7d']
  | (k, x) :: xs => ',' :: (renderString k ++ ':' :: (render x ++ renderMembers xs))

end

section Strings

/-- The value of a hexadecimal digit. -/
def hexValue (c : Char) : Nat :=
  if c.isDigit then c.toNat - 48 else c.toNat - 87

theorem hexValue_digitChar : ∀ d : Fin 16, hexValue (Nat.digitChar d) = d := by
  decide

theorem hex_injective
    {m n : Nat}
    (hm : m < 65536)
    (hn : n < 65536)
    (h : hex m = hex n) :
    m = n := by
  have hdigit : ∀ a b : Nat, Nat.digitChar (a % 16) = Nat.digitChar (b % 16) →
      a % 16 = b % 16 := by
    intro a b hab
    have hval := congrArg hexValue hab
    have ha := hexValue_digitChar ⟨a % 16, Nat.mod_lt _ (by omega)⟩
    have hb := hexValue_digitChar ⟨b % 16, Nat.mod_lt _ (by omega)⟩
    simp only at ha hb
    omega
  simp only [hex, List.cons.injEq, and_true] at h
  obtain ⟨h3, h2, h1, h0⟩ := h
  have := hdigit _ _ h3
  have := hdigit _ _ h2
  have := hdigit _ _ h1
  have := hdigit _ _ h0
  omega

/-- The code unit of a short escape. -/
def shortUnit (c : Char) : CodeUnit :=
  if c = '"' then 0x22
  else if c = '\\' then 0x5c
  else if c = 'b' then 0x08
  else if c = 'f' then 0x0c
  else if c = 'n' then 0x0a
  else if c = 'r' then 0x0d
  else 0x09

theorem shortUnit_of_shortEscape
    {u : CodeUnit} {c : Char}
    (hu : shortEscape u = some c) :
    shortUnit c = u := by
  unfold shortEscape at hu
  split_ifs at hu <;> cases hu <;> subst u <;> rfl

/-- The escapes with a short form are not confused with the long form. -/
theorem shortEscape_ne_u
    {u : CodeUnit} {c : Char}
    (hu : shortEscape u = some c) :
    c ≠ 'u' := by
  unfold shortEscape at hu
  split_ifs at hu <;> cases hu <;> decide

theorem printable_spec
    {n : Nat}
    (h : 0x20 ≤ n ∧ n ≤ 0x7e) :
    (Char.ofNat n).toNat = n := by
  have hvalid : n.isValidChar := by
    left
    omega
  rw [Char.ofNat, dif_pos hvalid]
  rfl

/-- A code unit that is written as it is differs from the quote and the
backslash. -/
theorem printable_ne
    {u : CodeUnit}
    (hshort : shortEscape u = none)
    (h : 0x20 ≤ u.val ∧ u.val ≤ 0x7e) :
    Char.ofNat u.val ≠ '\\' ∧ Char.ofNat u.val ≠ '"' := by
  have hnat := printable_spec h
  unfold shortEscape at hshort
  split_ifs at hshort with hquote hslash
  constructor
  · intro heq
    rw [heq] at hnat
    exact hslash (Fin.ext hnat.symm)
  · intro heq
    rw [heq] at hnat
    exact hquote (Fin.ext hnat.symm)

/-- The possible forms of a code unit. -/
theorem escape_cases (u : CodeUnit) :
    (∃ c, shortEscape u = some c ∧ c ≠ 'u' ∧ escape u = ['\\', c]) ∨
    (∃ c, c ≠ '\\' ∧ c ≠ '"' ∧ c.toNat = u.val ∧ escape u = [c]) ∨
    escape u = '\\' :: 'u' :: hex u.val := by
  unfold escape
  cases hshort : shortEscape u with
  | some c => exact Or.inl ⟨c, rfl, shortEscape_ne_u hshort, rfl⟩
  | none =>
      right
      simp only
      split
      case isTrue h =>
        obtain ⟨hslash, hquote⟩ := printable_ne hshort h
        exact Or.inl ⟨_, hslash, hquote, printable_spec h, rfl⟩
      case isFalse => exact Or.inr rfl

/-- A code unit can be read off a text. -/
theorem escape_append_inj
    {u v : CodeUnit} {s t : List Char}
    (h : escape u ++ s = escape v ++ t) :
    u = v ∧ s = t := by
  rcases escape_cases u with ⟨c, hc, hcu, hu⟩ | ⟨c, hslash, hquote, hval, hu⟩ | hu <;>
  rcases escape_cases v with ⟨d, hd, hdu, hv⟩ | ⟨d, hslash', hquote', hval', hv⟩ | hv <;>
  rw [hu, hv] at h
  · simp only [List.cons_append, List.nil_append, List.cons.injEq, true_and] at h
    obtain ⟨rfl, rfl⟩ := h
    exact ⟨(shortUnit_of_shortEscape hc).symm.trans (shortUnit_of_shortEscape hd), rfl⟩
  · simp only [List.cons_append, List.nil_append, List.cons.injEq] at h
    exact absurd h.1.symm hslash'
  · simp only [List.cons_append, List.nil_append, List.cons.injEq, true_and] at h
    exact absurd h.1 hcu
  · simp only [List.cons_append, List.nil_append, List.cons.injEq] at h
    exact absurd h.1 hslash
  · simp only [List.cons_append, List.nil_append, List.cons.injEq] at h
    obtain ⟨rfl, rfl⟩ := h
    exact ⟨Fin.ext (hval.symm.trans hval'), rfl⟩
  · simp only [List.cons_append, List.nil_append, List.cons.injEq] at h
    exact absurd h.1 hslash
  · simp only [List.cons_append, List.nil_append, List.cons.injEq, true_and] at h
    exact absurd h.1.symm hdu
  · simp only [List.cons_append, List.nil_append, List.cons.injEq] at h
    exact absurd h.1.symm hslash'
  · rw [List.cons_append, List.cons_append, List.cons_append, List.cons_append,
      List.cons.injEq, List.cons.injEq] at h
    obtain ⟨hhex, hrest⟩ := List.append_inj h.2.2 rfl
    exact ⟨Fin.ext (hex_injective u.isLt v.isLt hhex), hrest⟩

/-- No code unit is written with a leading quote. -/
theorem escape_append_ne_quote
    {u : CodeUnit} {s t : List Char} :
    escape u ++ s ≠ '"' :: t := by
  intro h
  rcases escape_cases u with ⟨c, -, -, hu⟩ | ⟨c, -, hquote, -, hu⟩ | hu
  · rw [hu] at h
    simp at h
  · rw [hu] at h
    simp only [List.cons_append, List.nil_append, List.cons.injEq] at h
    exact hquote h.1
  · rw [hu] at h
    simp at h

/-- A string can be read off a text. -/
theorem renderUnits_append_inj
    {s t : List CodeUnit} {r r' : List Char}
    (h : renderUnits s ++ r = renderUnits t ++ r') :
    s = t ∧ r = r' := by
  induction s generalizing t with
  | nil =>
      cases t with
      | nil =>
          simp only [renderUnits, List.cons_append, List.nil_append, List.cons.injEq,
            true_and] at h
          exact ⟨rfl, h⟩
      | cons v t =>
          simp only [renderUnits, List.append_assoc, List.cons_append, List.nil_append] at h
          exact absurd h.symm escape_append_ne_quote
  | cons u s ih =>
      cases t with
      | nil =>
          simp only [renderUnits, List.append_assoc, List.cons_append, List.nil_append] at h
          exact absurd h escape_append_ne_quote
      | cons v t =>
          simp only [renderUnits, List.append_assoc] at h
          obtain ⟨rfl, htail⟩ := escape_append_inj h
          obtain ⟨rfl, rfl⟩ := ih htail
          exact ⟨rfl, rfl⟩

theorem renderString_append_inj
    {s t : List CodeUnit} {r r' : List Char}
    (h : renderString s ++ r = renderString t ++ r') :
    s = t ∧ r = r' := by
  simp only [renderString, List.cons_append, List.cons.injEq, true_and] at h
  exact renderUnits_append_inj h

end Strings

section Values

/-- A token ends where the text ends or a delimiter follows. -/
def Delimited (s : List Char) : Prop := Stops isPlain s

theorem delimited_cons
    {c : Char} {s : List Char}
    (h : isPlain c = false) :
    Delimited (c :: s) := stops_cons h

theorem delimited_renderItems_append (xs : List Json) (s : List Char) :
    Delimited (renderItems xs ++ s) := by
  cases xs with
  | nil =>
      simp only [renderItems, List.cons_append]
      exact delimited_cons rfl
  | cons x xs =>
      simp only [renderItems, List.cons_append]
      exact delimited_cons rfl

theorem delimited_renderMembers_append (xs : List (List CodeUnit × Json)) (s : List Char) :
    Delimited (renderMembers xs ++ s) := by
  cases xs with
  | nil =>
      simp only [renderMembers, List.cons_append]
      exact delimited_cons rfl
  | cons x xs =>
      simp only [renderMembers, List.cons_append]
      exact delimited_cons rfl

/-- No token begins with a delimiter. -/
theorem token_append_ne_cons
    {t : Token} {c : Char} {s r : List Char}
    (hc : isPlain c = false) :
    t.chars ++ s ≠ c :: r := by
  intro h
  obtain ⟨d, rest, hchars⟩ := List.exists_cons_of_ne_nil t.ne_nil
  rw [hchars, List.cons_append, List.cons.injEq] at h
  have hplain := t.plain d (by rw [hchars]; exact List.mem_cons_self)
  rw [h.1, hc] at hplain
  cases hplain

theorem token_append_inj
    {t t' : Token} {s s' : List Char}
    (hs : Delimited s)
    (hs' : Delimited s')
    (h : t.chars ++ s = t'.chars ++ s') :
    t = t' ∧ s = s' := by
  obtain ⟨hchars, hrest⟩ := append_inj_of_stops t.plain t'.plain hs hs' h
  refine ⟨?_, hrest⟩
  cases t
  cases t'
  simpa using hchars

/-- The character that a value other than a token begins with. -/
def opening : Json → Option Char
  | .token _ => none
  | .string _ => some '"'
  | .array _ => some '['
  | .object _ => some '\x7b'

theorem render_of_opening
    {j : Json} {c : Char}
    (h : opening j = some c) :
    isPlain c = false ∧ ∃ s, render j = c :: s := by
  match j with
  | .token t => cases h
  | .string s =>
      cases h
      exact ⟨rfl, _, by simp only [render]; rfl⟩
  | .array [] =>
      cases h
      exact ⟨rfl, _, by simp only [render]; rfl⟩
  | .array (x :: xs) =>
      cases h
      exact ⟨rfl, _, by simp only [render]; rfl⟩
  | .object [] =>
      cases h
      exact ⟨rfl, _, by simp only [render]; rfl⟩
  | .object ((k, x) :: xs) =>
      cases h
      exact ⟨rfl, _, by simp only [render]; rfl⟩

theorem render_of_opening_eq_none
    {j : Json}
    (h : opening j = none) :
    ∃ t, j = .token t := by
  cases j with
  | token t => exact ⟨t, rfl⟩
  | string s => cases h
  | array items => cases h
  | object members => cases h

/-- The text of a value begins with a given delimiter only if the value does. -/
theorem opening_of_render
    {j : Json} {c : Char} {s r : List Char}
    (hc : isPlain c = false)
    (h : render j ++ s = c :: r) :
    opening j = some c := by
  cases hj : opening j with
  | none =>
      obtain ⟨t, rfl⟩ := render_of_opening_eq_none hj
      simp only [render] at h
      exact absurd h (token_append_ne_cons hc)
  | some d =>
      obtain ⟨-, u, hu⟩ := render_of_opening hj
      rw [hu, List.cons_append, List.cons.injEq] at h
      rw [h.1]

/-- Equal texts begin values of the same kind. -/
theorem opening_eq
    {j j' : Json} {s s' : List Char}
    (h : render j ++ s = render j' ++ s') :
    opening j = opening j' := by
  cases hj' : opening j' with
  | some c =>
      obtain ⟨hc, u, hu⟩ := render_of_opening hj'
      rw [hu, List.cons_append] at h
      exact opening_of_render hc h
  | none =>
      cases hj : opening j with
      | none => rfl
      | some c =>
          obtain ⟨hc, u, hu⟩ := render_of_opening hj
          rw [hu, List.cons_append] at h
          have hopen := opening_of_render hc h.symm
          rw [hj'] at hopen
          cases hopen

theorem opening_ne_close (j : Json) : opening j ≠ some ']' := by
  cases j <;> simp [opening]

mutual

/-- A value can be read off a text. -/
theorem render_append_inj (j j' : Json) (s s' : List Char)
    (hs : Delimited s) (hs' : Delimited s') (h : render j ++ s = render j' ++ s') :
    j = j' ∧ s = s' := by
  have hopen := opening_eq h
  match j, j' with
  | .token t, .token t' =>
      simp only [render] at h
      obtain ⟨rfl, rfl⟩ := token_append_inj hs hs' h
      exact ⟨rfl, rfl⟩
  | .string a, .string b =>
      simp only [render] at h
      obtain ⟨rfl, rfl⟩ := renderString_append_inj h
      exact ⟨rfl, rfl⟩
  | .array [], .array [] =>
      simp only [render, List.cons_append, List.nil_append, List.cons.injEq, true_and] at h
      exact ⟨rfl, h⟩
  | .array [], .array (y :: ys) =>
      simp only [render, List.cons_append, List.nil_append, List.append_assoc, List.cons.injEq,
        true_and] at h
      exact absurd (opening_of_render rfl h.symm) (opening_ne_close y)
  | .array (x :: xs), .array [] =>
      simp only [render, List.cons_append, List.nil_append, List.append_assoc, List.cons.injEq,
        true_and] at h
      exact absurd (opening_of_render rfl h) (opening_ne_close x)
  | .array (x :: xs), .array (y :: ys) =>
      simp only [render, List.cons_append, List.append_assoc, List.cons.injEq, true_and] at h
      obtain ⟨rfl, htail⟩ := render_append_inj x y _ _ (delimited_renderItems_append _ _)
        (delimited_renderItems_append _ _) h
      obtain ⟨rfl, rfl⟩ := renderItems_append_inj xs ys s s' htail
      exact ⟨rfl, rfl⟩
  | .object [], .object [] =>
      simp only [render, List.cons_append, List.nil_append, List.cons.injEq, true_and] at h
      exact ⟨rfl, h⟩
  | .object [], .object ((l, y) :: ys) =>
      simp [render, renderString] at h
  | .object ((k, x) :: xs), .object [] =>
      simp [render, renderString] at h
  | .object ((k, x) :: xs), .object ((l, y) :: ys) =>
      simp only [render, List.cons_append, List.append_assoc, List.cons.injEq, true_and] at h
      obtain ⟨rfl, hrest⟩ := renderString_append_inj h
      rw [List.cons.injEq] at hrest
      obtain ⟨rfl, htail⟩ := render_append_inj x y _ _ (delimited_renderMembers_append _ _)
        (delimited_renderMembers_append _ _) hrest.2
      obtain ⟨rfl, rfl⟩ := renderMembers_append_inj xs ys s s' htail
      exact ⟨rfl, rfl⟩
  | .token _, .string _ => cases hopen
  | .token _, .array _ => cases hopen
  | .token _, .object _ => cases hopen
  | .string _, .token _ => cases hopen
  | .string _, .array _ => simp [opening] at hopen
  | .string _, .object _ => simp [opening] at hopen
  | .array _, .token _ => cases hopen
  | .array _, .string _ => simp [opening] at hopen
  | .array _, .object _ => simp [opening] at hopen
  | .object _, .token _ => cases hopen
  | .object _, .string _ => simp [opening] at hopen
  | .object _, .array _ => simp [opening] at hopen

/-- The items of an array can be read off a text. -/
theorem renderItems_append_inj : ∀ (xs ys : List Json) (s s' : List Char),
    renderItems xs ++ s = renderItems ys ++ s' → xs = ys ∧ s = s'
  | [], [], s, s', h => by
      simp only [renderItems, List.cons_append, List.nil_append, List.cons.injEq, true_and] at h
      exact ⟨rfl, h⟩
  | [], y :: ys, s, s', h => by
      simp [renderItems] at h
  | x :: xs, [], s, s', h => by
      simp [renderItems] at h
  | x :: xs, y :: ys, s, s', h => by
      simp only [renderItems, List.cons_append, List.append_assoc, List.cons.injEq,
        true_and] at h
      obtain ⟨rfl, htail⟩ := render_append_inj x y _ _ (delimited_renderItems_append _ _)
        (delimited_renderItems_append _ _) h
      obtain ⟨rfl, rfl⟩ := renderItems_append_inj xs ys s s' htail
      exact ⟨rfl, rfl⟩

/-- The members of an object can be read off a text. -/
theorem renderMembers_append_inj : ∀ (xs ys : List (List CodeUnit × Json)) (s s' : List Char),
    renderMembers xs ++ s = renderMembers ys ++ s' → xs = ys ∧ s = s'
  | [], [], s, s', h => by
      simp only [renderMembers, List.cons_append, List.nil_append, List.cons.injEq,
        true_and] at h
      exact ⟨rfl, h⟩
  | [], (l, y) :: ys, s, s', h => by
      simp [renderMembers] at h
  | (k, x) :: xs, [], s, s', h => by
      simp [renderMembers] at h
  | (k, x) :: xs, (l, y) :: ys, s, s', h => by
      simp only [renderMembers, List.cons_append, List.append_assoc, List.cons.injEq,
        true_and] at h
      obtain ⟨rfl, hrest⟩ := renderString_append_inj h
      rw [List.cons.injEq] at hrest
      obtain ⟨rfl, htail⟩ := render_append_inj x y _ _ (delimited_renderMembers_append _ _)
        (delimited_renderMembers_append _ _) hrest.2
      obtain ⟨rfl, rfl⟩ := renderMembers_append_inj xs ys s s' htail
      exact ⟨rfl, rfl⟩

end

/-- A text determines its value. -/
theorem render_injective : Function.Injective render := by
  intro j j' h
  exact (render_append_inj j j' [] [] trivial trivial (by rw [h])).1

end Values

end Json
end Foundations
end DistributedConsensus
