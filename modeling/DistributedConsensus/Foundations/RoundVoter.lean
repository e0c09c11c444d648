import DistributedConsensus.Foundations.RoundLocks
import Mathlib.Logic.Relation

/-!
# Participants that vote with a lock

The votes of one participant of an agreement with prevotes, precommits and a
lock.  In a round of a height the participant first prevotes and then precommits
a value or nil.  A precommit for a value needs a quorum of prevotes and locks the
value; a locked participant prevotes another value only when a quorum has
prevoted that value since.

Rounds and heights only increase, so the participant casts each kind of vote once
in a round.  The votes of all participants at one height are sound in the sense
of `RoundLocks`, hence at one height a quorum precommits one value only.
-/

namespace DistributedConsensus
namespace Foundations
namespace RoundVoter

universe u v

inductive Kind where
  | prevote
  | precommit
  deriving DecidableEq

/-- A vote; the value `none` is nil. -/
structure Ballot (V : Type v) where
  kind : Kind
  height : ℤ
  round : ℤ
  value : Option V

/-- How far the participant is in its round. -/
inductive Phase where
  | start
  | prevoted
  | precommitted
  deriving DecidableEq

/-- A participant. -/
structure Voter (V : Type v) where
  height : ℤ
  round : ℤ
  phase : Phase
  /-- The locked value, and the round of the lock. -/
  lock : Option (ℤ × V)
  /-- The votes that the participant has cast. -/
  votes : List (Ballot V)

variable {V : Type v}

/-- A vote of the kind may have been cast in the phase. -/
def Cast : Kind → Phase → Prop
  | .prevote, s => s ≠ .start
  | .precommit, s => s = .precommitted

namespace Voter

/-- The vote of the participant in its round. -/
def ballot (p : Voter V) (kind : Kind) (value : Option V) : Ballot V :=
  ⟨kind, p.height, p.round, value⟩

variable (K : ℤ → ℤ → V → Prop)

/-- The lock allows a prevote for the value. -/
def Allows (p : Voter V) (x : V) : Prop :=
  ∀ l ∈ p.lock, l.2 = x ∨ ∃ q, l.1 ≤ q ∧ q < p.round ∧ K p.height q x

/-- What a participant does in one step.  The relation `K` says which values have
a quorum of prevotes in which height and round. -/
inductive Acts : Voter V → Voter V → Prop
  | prevote {p : Voter V} {x : Option V} :
      p.phase = .start → (∀ y ∈ x, p.Allows K y) →
      Acts p { p with phase := .prevoted, votes := p.votes ++ [p.ballot .prevote x] }
  | precommitNil {p : Voter V} :
      p.phase = .prevoted →
      Acts p { p with phase := .precommitted, votes := p.votes ++ [p.ballot .precommit none] }
  | precommit {p : Voter V} {x : V} :
      p.phase = .prevoted → K p.height p.round x →
      Acts p { p with
        phase := .precommitted
        lock := some (p.round, x)
        votes := p.votes ++ [p.ballot .precommit (some x)] }
  | enter {p : Voter V} {r : ℤ} :
      p.round < r →
      Acts p { p with round := r, phase := .start }
  | advance {p : Voter V} {h r : ℤ} :
      p.height < h →
      Acts p { p with height := h, round := r, phase := .start, lock := none }

/-- The vote belongs to an earlier height or round, or to the current round. -/
def Before (p : Voter V) (b : Ballot V) : Prop :=
  b.height < p.height ∨ b.height = p.height ∧
    (b.round < p.round ∨ b.round = p.round ∧ Cast b.kind p.phase)

/-- The participant is locked, since the round `r` or later, on a value with a
quorum of prevotes. -/
def LockedSince (p : Voter V) (r : ℤ) : Prop :=
  ∃ l ∈ p.lock, r ≤ l.1 ∧ K p.height l.1 l.2 ∧
    (l.1 < p.round ∨ l.1 = p.round ∧ p.phase = .precommitted)

/-- The invariant of a participant. -/
structure Legal (p : Voter V) : Prop where
  before : ∀ b ∈ p.votes, p.Before b
  once : ∀ b ∈ p.votes, ∀ b' ∈ p.votes, b.kind = b'.kind → b.height = b'.height →
    b.round = b'.round → b = b'
  justified : ∀ b ∈ p.votes, b.kind = .precommit → ∀ x ∈ b.value, K b.height b.round x
  locked : ∀ b ∈ p.votes, b.kind = .precommit → ∀ x ∈ b.value, b.height = p.height →
    p.LockedSince K b.round
  carried : ∀ b ∈ p.votes, ∀ b' ∈ p.votes, b.kind = .precommit → b'.kind = .prevote →
    b.height = b'.height → b.round < b'.round → (∃ x, b.value = some x) → ∀ y ∈ b'.value,
    ∃ q, b.round ≤ q ∧ q < b'.round ∧ K b.height q y

variable {K} {K' : ℤ → ℤ → V → Prop} {p p' : Voter V}

/-- A participant that has not voted. -/
theorem legal_of_votes_eq_nil (h : p.votes = []) : p.Legal K where
  before b hb := by
    rw [h] at hb
    cases hb
  once b hb := by
    rw [h] at hb
    cases hb
  justified b hb := by
    rw [h] at hb
    cases hb
  locked b hb := by
    rw [h] at hb
    cases hb
  carried b hb := by
    rw [h] at hb
    cases hb

theorem LockedSince.mono
    {r : ℤ}
    (hsub : ∀ h r x, K h r x → K' h r x)
    (h : p.LockedSince K r) :
    p.LockedSince K' r := by
  obtain ⟨l, hl, hr, hK, hround⟩ := h
  exact ⟨l, hl, hr, hsub _ _ _ hK, hround⟩

theorem Legal.mono
    (hsub : ∀ h r x, K h r x → K' h r x)
    (h : p.Legal K) :
    p.Legal K' where
  before := h.before
  once := h.once
  justified b hb hk x hx := hsub _ _ _ (h.justified b hb hk x hx)
  locked b hb hk x hx hh := (h.locked b hb hk x hx hh).mono hsub
  carried b hb b' hb' hk hk' hh hr hx y hy := by
    obtain ⟨q, hq, hq', hK⟩ := h.carried b hb b' hb' hk hk' hh hr hx y hy
    exact ⟨q, hq, hq', hsub _ _ _ hK⟩

/-- No vote of a kind was cast in the round when the phase is before it. -/
theorem Legal.fresh
    {k : Kind}
    (h : p.Legal K)
    (hk : ¬Cast k p.phase) :
    ∀ b ∈ p.votes, b.kind = k → b.height = p.height → b.round < p.round := by
  rintro b hb rfl hheight
  rcases h.before b hb with hlt | ⟨-, hlt | ⟨-, hcast⟩⟩
  · omega
  · exact hlt
  · exact absurd hcast hk

/-- One more vote, of a kind not yet cast in the round. -/
theorem Legal.cast
    {k : Kind} {x : Option V} {s : Phase} {l : Option (ℤ × V)}
    (h : p.Legal K)
    (hfresh : ¬Cast k p.phase)
    (hcast : Cast k s)
    (hsteps : ∀ k, Cast k p.phase → Cast k s)
    (hjustified : k = .precommit → ∀ y ∈ x, K p.height p.round y)
    (hlocked : ∀ r, p.LockedSince K r → LockedSince K { p with phase := s, lock := l } r)
    (hlock : k = .precommit → ∀ y ∈ x,
      LockedSince K { p with phase := s, lock := l } p.round)
    (hcarried : k = .prevote → ∀ r, p.LockedSince K r → ∀ y ∈ x,
      ∃ q, r ≤ q ∧ q < p.round ∧ K p.height q y) :
    Legal K { p with phase := s, lock := l, votes := p.votes ++ [p.ballot k x] } := by
  have hmem : ∀ b, b ∈ p.votes ++ [p.ballot k x] → b ∈ p.votes ∨ b = p.ballot k x := by
    intro b hb
    rw [List.mem_append, List.mem_singleton] at hb
    exact hb
  have hnew := h.fresh hfresh
  constructor
  · intro b hb
    rcases hmem b hb with hold | rfl
    · rcases h.before b hold with hlt | ⟨heq, hlt | ⟨heq', hc⟩⟩
      · exact Or.inl hlt
      · exact Or.inr ⟨heq, Or.inl hlt⟩
      · exact Or.inr ⟨heq, Or.inr ⟨heq', hsteps _ hc⟩⟩
    · exact Or.inr ⟨rfl, Or.inr ⟨rfl, hcast⟩⟩
  · intro b hb b' hb' hkind hheight hround
    rcases hmem b hb with hold | rfl
    · rcases hmem b' hb' with hold' | rfl
      · exact h.once b hold b' hold' hkind hheight hround
      · have hlt := hnew b hold hkind hheight
        exact absurd hround hlt.ne
    · rcases hmem b' hb' with hold' | rfl
      · have hlt := hnew b' hold' hkind.symm hheight.symm
        exact absurd hround.symm hlt.ne
      · rfl
  · intro b hb hkind y hy
    rcases hmem b hb with hold | rfl
    · exact h.justified b hold hkind y hy
    · exact hjustified hkind y hy
  · intro b hb hkind y hy hheight
    rcases hmem b hb with hold | rfl
    · obtain ⟨l', hl', hr, hK, hround⟩ := hlocked _ (h.locked b hold hkind y hy hheight)
      exact ⟨l', hl', hr, hK, hround⟩
    · obtain ⟨l', hl', hr, hK, hround⟩ := hlock hkind y hy
      exact ⟨l', hl', hr, hK, hround⟩
  · intro b hb b' hb' hkind hkind' hheight hlt hx y hy
    rcases hmem b' hb' with hold' | rfl
    · rcases hmem b hb with hold | rfl
      · exact h.carried b hold b' hold' hkind hkind' hheight hlt hx y hy
      · -- The prevote lies in an earlier round than the new precommit.
        rcases h.before b' hold' with hlt' | ⟨-, hlt' | ⟨heq, -⟩⟩
        all_goals simp only [ballot] at hheight hlt
        all_goals omega
    · rcases hmem b hb with hold | rfl
      · obtain ⟨z, hz⟩ := hx
        have hsince := h.locked b hold hkind z hz hheight
        obtain ⟨q, hq, hq', hK⟩ := hcarried hkind' _ hsince y hy
        rw [hheight]
        exact ⟨q, hq, hq', hK⟩
      · exact absurd hlt (lt_irrefl _)

/-- A step keeps the invariant. -/
theorem Legal.acts
    (hact : Acts K p p')
    (h : p.Legal K) :
    p'.Legal K := by
  cases hact with
  | @prevote x hphase hallows =>
      have hearlier : ∀ r, p.LockedSince K r →
          ∃ l ∈ p.lock, r ≤ l.1 ∧ K p.height l.1 l.2 ∧ l.1 < p.round := by
        rintro r ⟨l, hl, hr, hK, hlt | ⟨-, hcommitted⟩⟩
        · exact ⟨l, hl, hr, hK, hlt⟩
        · rw [hphase] at hcommitted
          cases hcommitted
      refine h.cast (k := .prevote) ?_ nofun ?_ nofun ?_ nofun ?_
      · exact fun hcast => hcast hphase
      · rintro (_ | _) hcast
        · exact nofun
        · rw [hphase] at hcast
          cases hcast
      · intro r hsince
        obtain ⟨l, hl, hr, hK, hlt⟩ := hearlier r hsince
        exact ⟨l, hl, hr, hK, Or.inl hlt⟩
      · intro _ r hsince y hy
        obtain ⟨l, hl, hr, hK, hlt⟩ := hearlier r hsince
        rcases hallows y hy l hl with heq | ⟨q, hle, hq, hKq⟩
        · subst heq
          exact ⟨l.1, hr, hlt, hK⟩
        · exact ⟨q, hr.trans hle, hq, hKq⟩
  | precommitNil hphase =>
      refine h.cast (k := .precommit) (x := none) ?_ rfl ?_ nofun ?_ nofun nofun
      · intro hcast
        rw [hphase] at hcast
        cases hcast
      · rintro (_ | _) hcast
        · exact nofun
        · rfl
      · rintro r ⟨l, hl, hr, hK, hlt | ⟨heq, -⟩⟩
        · exact ⟨l, hl, hr, hK, Or.inl hlt⟩
        · exact ⟨l, hl, hr, hK, Or.inr ⟨heq, rfl⟩⟩
  | @precommit x hphase hquorum =>
      have hlock : ∀ r, r ≤ p.round →
          LockedSince K { p with phase := .precommitted, lock := some (p.round, x) } r :=
        fun r hr => ⟨(p.round, x), rfl, hr, hquorum, Or.inr ⟨rfl, rfl⟩⟩
      refine h.cast (k := .precommit) (x := some x) ?_ rfl ?_ ?_ ?_ ?_ nofun
      · intro hcast
        rw [hphase] at hcast
        cases hcast
      · rintro (_ | _) hcast
        · exact nofun
        · rfl
      · rintro - y hy
        obtain rfl := Option.some.inj hy
        exact hquorum
      · rintro r ⟨l, -, hr, -, hlt | ⟨heq, -⟩⟩
        · exact hlock r (by omega)
        · exact hlock r (by omega)
      · exact fun _ _ _ => hlock _ (le_refl _)
  | @enter r hlt =>
      constructor
      · intro b hb
        rcases h.before b hb with hearlier | ⟨heq, hearlier | ⟨heq', -⟩⟩
        · exact Or.inl hearlier
        · exact Or.inr ⟨heq, Or.inl (hearlier.trans hlt)⟩
        · exact Or.inr ⟨heq, Or.inl (heq'.trans_lt hlt)⟩
      · exact h.once
      · exact h.justified
      · intro b hb hkind x hx hheight
        obtain ⟨l, hl, hr, hK, hround⟩ := h.locked b hb hkind x hx hheight
        refine ⟨l, hl, hr, hK, Or.inl ?_⟩
        rcases hround with hround | ⟨hround, -⟩
        · exact hround.trans hlt
        · exact hround.trans_lt hlt
      · exact h.carried
  | @advance height r hlt =>
      have hpast : ∀ b ∈ p.votes, b.height < height := by
        intro b hb
        rcases h.before b hb with hearlier | ⟨heq, -⟩
        · exact hearlier.trans hlt
        · exact heq.trans_lt hlt
      constructor
      · exact fun b hb => Or.inl (hpast b hb)
      · exact h.once
      · exact h.justified
      · intro b hb _ _ _ hheight
        exact absurd hheight (hpast b hb).ne
      · exact h.carried

end Voter

/-! ## The votes of all participants -/

section Group

variable {ι : Type u} (S : QuorumSystem ι)

/-- The votes of all participants at one height. -/
def record (votes : ι → List (Ballot V)) (h : ℤ) : RoundLocks.Record ι V where
  prevotes i r x := ⟨.prevote, h, r, some x⟩ ∈ votes i
  precommits i r x := ⟨.precommit, h, r, some x⟩ ∈ votes i

/-- A quorum has prevoted the value. -/
def Prevoted (votes : ι → List (Ballot V)) (h r : ℤ) (x : V) : Prop :=
  RoundLocks.Prevoted S (record votes h) r x

/-- A quorum has precommitted the value. -/
def Precommitted (votes : ι → List (Ballot V)) (h r : ℤ) (x : V) : Prop :=
  RoundLocks.Precommitted S (record votes h) r x

variable {S} {votes votes' : ι → List (Ballot V)}

theorem Prevoted.mono
    {h r : ℤ} {x : V}
    (hsub : ∀ i, votes i ⊆ votes' i)
    (hx : Prevoted S votes h r x) :
    Prevoted S votes' h r x := by
  obtain ⟨Q, hQ, hvotes⟩ := hx
  exact ⟨Q, hQ, fun i hi hc => hsub i (hvotes i hi hc)⟩

theorem Precommitted.mono
    {h r : ℤ} {x : V}
    (hsub : ∀ i, votes i ⊆ votes' i)
    (hx : Precommitted S votes h r x) :
    Precommitted S votes' h r x := by
  obtain ⟨Q, hQ, hvotes⟩ := hx
  exact ⟨Q, hQ, fun i hi hc => hsub i (hvotes i hi hc)⟩

/-- The votes of participants that keep the invariant are sound at every height. -/
theorem sound_record
    {voters : ι → Voter V}
    (h : ∀ i, i ∉ S.faulty → (voters i).Legal (Prevoted S fun i => (voters i).votes))
    (height : ℤ) :
    RoundLocks.Sound S (record (fun i => (voters i).votes) height) where
  prevote_unique i hi r v w hv hw := by
    have heq := (h i hi).once _ hv _ hw rfl rfl rfl
    injection heq with _ _ _ heq
    exact Option.some.inj heq
  precommit_prevoted i hi r v hv := (h i hi).justified _ hv rfl v rfl
  prevote_carried i hi r v s w hv hw hlt :=
    (h i hi).carried _ hv _ hw rfl rfl rfl hlt ⟨v, rfl⟩ w rfl

/-- At one height a quorum precommits one value only, whatever the rounds. -/
theorem precommitted_unique
    {voters : ι → Voter V} {height r s : ℤ} {x y : V}
    (h : ∀ i, i ∉ S.faulty → (voters i).Legal (Prevoted S fun i => (voters i).votes))
    (hx : Precommitted S (fun i => (voters i).votes) height r x)
    (hy : Precommitted S (fun i => (voters i).votes) height s y) :
    x = y :=
  (sound_record h height).precommitted_unique hx hy

end Group

end RoundVoter
end Foundations
end DistributedConsensus
