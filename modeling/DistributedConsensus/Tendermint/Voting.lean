import DistributedConsensus.Tendermint.NodeSteps

/-!
# Tendermint: the votes of one node

The invariant of a correct node that agreement rests on.  The messages that a
node has sent lie before its current height, round and step, and it sends one
message of each type in a round.  A precommit for a value is backed by a quorum
of prevotes; it locks the node, and a later prevote for another value needs a
quorum of prevotes from the locked round on.

The relation `K` says which values have a quorum of prevotes in which height
and round; it is supplied by the cluster.
-/

namespace DistributedConsensus
namespace Tendermint

open Foundations

/-- A message of the type may have been sent in the step of a round. -/
def Past : MessageType → Step → Prop
  | .proposal, _ => True
  | .prevote, s => s ≠ .propose
  | .precommit, s => s = .precommit

/-- The message votes with a precommit for a value. -/
def Message.Precommits (m : Message) (x : String) : Prop :=
  m.type = .precommit ∧ m.valueId = some x

/-- The message votes with a prevote for a value. -/
def Message.Prevotes (m : Message) (x : String) : Prop :=
  m.type = .prevote ∧ m.valueId = some x

namespace Node

/-- The message belongs to an earlier height or round, or to the current round
and a step that the node has passed. -/
def Before (n : Node) (m : Message) : Prop :=
  m.height < n.h ∨
    m.height = n.h ∧ (m.round < n.round ∨ m.round = n.round ∧ Past m.type n.step)

/-- The node is locked, since the round `r` or later, on a value with a quorum
of prevotes. -/
def LockedSince (hash : String → String) (K : ℤ → ℤ → String → Prop) (n : Node) (r : ℤ) :
    Prop :=
  ∃ v, n.lockedValue = some v ∧ r ≤ n.lockedRound ∧ K n.h n.lockedRound (hash v) ∧
    (n.lockedRound < n.round ∨ n.lockedRound = n.round ∧ n.step = .precommit)

/-- The invariant of a correct node. -/
structure Voting (hash : String → String) (K : ℤ → ℤ → String → Prop) (n : Node) : Prop where
  nonneg : 0 ≤ n.round
  sender : ∀ m ∈ n.sent, m.sender = n.id
  round_nonneg : ∀ m ∈ n.sent, 0 ≤ m.round
  before : ∀ m ∈ n.sent, n.Before m
  once : ∀ m ∈ n.sent, ∀ m' ∈ n.sent, m.type = m'.type → m.height = m'.height →
    m.round = m'.round → m = m'
  justified : ∀ m ∈ n.sent, ∀ x, m.Precommits x → K m.height m.round x
  locked : ∀ m ∈ n.sent, ∀ x, m.Precommits x → m.height = n.h → n.LockedSince hash K m.round
  carried : ∀ m ∈ n.sent, ∀ m' ∈ n.sent, ∀ x y, m.Precommits x → m'.Prevotes y →
    m.height = m'.height → m.round < m'.round →
    ∃ q, m.round ≤ q ∧ q < m'.round ∧ K m'.height q y

variable {hash : String → String} {K K' : ℤ → ℤ → String → Prop} {n n' : Node}

theorem LockedSince.mono
    {r : ℤ}
    (hsub : ∀ h r x, K h r x → K' h r x)
    (h : n.LockedSince hash K r) :
    n.LockedSince hash K' r := by
  obtain ⟨v, hv, hr, hK, hround⟩ := h
  exact ⟨v, hv, hr, hsub _ _ _ hK, hround⟩

namespace Voting

theorem mono
    (hsub : ∀ h r x, K h r x → K' h r x)
    (hn : Voting hash K n) :
    Voting hash K' n where
  nonneg := hn.nonneg
  sender := hn.sender
  round_nonneg := hn.round_nonneg
  before := hn.before
  once := hn.once
  justified := fun m hm x hx => hsub _ _ _ (hn.justified m hm x hx)
  locked := fun m hm x hx hh => (hn.locked m hm x hx hh).mono hsub
  carried := by
    intro m hm m' hm' x y hx hy hh hr
    obtain ⟨q, hq, hq', hK⟩ := hn.carried m hm m' hm' x y hx hy hh hr
    exact ⟨q, hq, hq', hsub _ _ _ hK⟩

theorem quiet
    (hq : Quiet n n')
    (hn : Voting hash K n) :
    Voting hash K n' := by
  have hlocked : ∀ r, n.LockedSince hash K r → n'.LockedSince hash K r := by
    rintro r ⟨v, hv, hr, hK, hround⟩
    refine ⟨v, ?_, ?_, ?_, ?_⟩
    · rw [hq.lockedValue, hv]
    · rw [hq.lockedRound]
      exact hr
    · rw [hq.h, hq.lockedRound]
      exact hK
    · rw [hq.lockedRound, hq.round, hq.step]
      exact hround
  have hbefore : ∀ m, n.Before m → n'.Before m := by
    intro m hm
    unfold Before at hm ⊢
    rw [hq.h, hq.round, hq.step]
    exact hm
  constructor
  · rw [hq.round]
    exact hn.nonneg
  all_goals rw [hq.sent]
  · rw [hq.id]
    exact hn.sender
  · exact hn.round_nonneg
  · exact fun m hm => hbefore m (hn.before m hm)
  · exact hn.once
  · exact hn.justified
  · intro m hm x hx hh
    rw [hq.h] at hh
    exact hlocked _ (hn.locked m hm x hx hh)
  · exact hn.carried

/-- No message of the type was sent in the current round. -/
theorem fresh_of_not_past
    {t : MessageType}
    (hn : Voting hash K n)
    (ht : ¬ Past t n.step) :
    ∀ m ∈ n.sent, m.type = t → m.height = n.h → m.round < n.round := by
  rintro m hm rfl hh
  rcases hn.before m hm with hlt | ⟨-, hlt | ⟨-, hpast⟩⟩
  · omega
  · exact hlt
  · exact absurd hpast ht

/-- One more message, of a type not yet sent in the current round. -/
theorem send
    {m₀ : Message}
    (hn : Voting hash K n)
    (hid : n'.id = n.id)
    (hh : n'.h = n.h)
    (hround : n'.round = n.round)
    (hsent : n'.sent = n.sent ++ [m₀])
    (hsender : m₀.sender = n.id)
    (hheight : m₀.height = n.h)
    (hm₀ : m₀.round = n.round)
    (hfresh : ∀ m ∈ n.sent, m.type = m₀.type → m.height = n.h → m.round < n.round)
    (hpast : Past m₀.type n'.step)
    (hsteps : ∀ t, Past t n.step → Past t n'.step)
    (hjustified : ∀ x, m₀.Precommits x → K n.h n.round x)
    (hlocked : ∀ m ∈ n'.sent, ∀ x, m.Precommits x → m.height = n.h →
      n'.LockedSince hash K m.round)
    (hcarried : ∀ m ∈ n.sent, ∀ x y, m.Precommits x → m₀.Prevotes y → m.height = n.h →
      m.round < n.round → ∃ q, m.round ≤ q ∧ q < n.round ∧ K n.h q y) :
    Voting hash K n' := by
  have hmem : ∀ m, m ∈ n'.sent → m ∈ n.sent ∨ m = m₀ := by
    intro m hm
    rw [hsent] at hm
    simpa using hm
  have hlate : ∀ m ∈ n.sent, m.height = n.h → m.round ≤ n.round := by
    intro m hm hheight
    rcases hn.before m hm with hlt | ⟨-, hlt | ⟨heq, -⟩⟩ <;> omega
  constructor
  · rw [hround]
    exact hn.nonneg
  · intro m hm
    rw [hid]
    rcases hmem m hm with hold | rfl
    · exact hn.sender m hold
    · exact hsender
  · intro m hm
    rcases hmem m hm with hold | rfl
    · exact hn.round_nonneg m hold
    · rw [hm₀]
      exact hn.nonneg
  · intro m hm
    unfold Before
    rw [hh, hround]
    rcases hmem m hm with hold | rfl
    · rcases hn.before m hold with hlt | ⟨heq, hlt | ⟨heq', hp⟩⟩
      · exact Or.inl hlt
      · exact Or.inr ⟨heq, Or.inl hlt⟩
      · exact Or.inr ⟨heq, Or.inr ⟨heq', hsteps _ hp⟩⟩
    · exact Or.inr ⟨hheight, Or.inr ⟨hm₀, hpast⟩⟩
  · intro m hm m' hm' ht hheights hrounds
    rcases hmem m hm with hold | rfl
    · rcases hmem m' hm' with hold' | rfl
      · exact hn.once m hold m' hold' ht hheights hrounds
      · have hlt := hfresh m hold ht (by omega)
        omega
    · rcases hmem m' hm' with hold' | rfl
      · have hlt := hfresh m' hold' ht.symm (by omega)
        omega
      · rfl
  · intro m hm x hx
    rcases hmem m hm with hold | rfl
    · exact hn.justified m hold x hx
    · rw [hheight, hm₀]
      exact hjustified x hx
  · intro m hm x hx hmh
    rw [hh] at hmh
    exact hlocked m hm x hx hmh
  · intro m hm m' hm' x y hx hy hheights hlt
    rcases hmem m' hm' with hold' | rfl
    · rcases hmem m hm with hold | rfl
      · exact hn.carried m hold m' hold' x y hx hy hheights hlt
      · -- The new message is the precommit, so the prevote lies before it.
        have hle := hlate m' hold' (by omega)
        omega
    · rcases hmem m hm with hold | rfl
      · rw [hheight, hm₀]
        exact hcarried m hold x y hx hy (by omega) (by omega)
      · omega

variable {cfg : SimConfig}

/-- A prevote that the lock allows. -/
theorem prevote
    {x : Option String}
    (hn : Voting hash K n)
    (hstep : n.step = .propose)
    (hallowed : ∀ y, x = some y → ∀ r, 0 ≤ r → r ≤ n.lockedRound →
      n.LockedSince hash K r → ∃ q, r ≤ q ∧ q < n.round ∧ K n.h q y) :
    Voting hash K { n.sendPrevote x with step := .prevote } := by
  have hkeep : ∀ m ∈ n.sent, ∀ z, m.Precommits z → m.height = n.h →
      n.LockedSince hash K m.round := hn.locked
  refine hn.send rfl rfl rfl rfl rfl rfl rfl ?_ ?_ ?_ ?_ ?_ ?_
  · exact hn.fresh_of_not_past (t := .prevote) (fun h => h hstep)
  · intro h
    cases h
  · intro t ht
    cases t with
    | proposal => trivial
    | prevote => exact absurd hstep ht
    | precommit =>
        rw [hstep] at ht
        cases ht
  · rintro y ⟨hprecommit, -⟩
    cases hprecommit
  · intro m hm z hz hheight
    simp only [sendPrevote, broadcast, List.mem_append, List.mem_singleton] at hm
    rcases hm with hold | rfl
    · obtain ⟨v, hv, hr, hK, hlt | ⟨-, hprecommit⟩⟩ := hkeep m hold z hz hheight
      · exact ⟨v, hv, hr, hK, Or.inl hlt⟩
      · rw [hstep] at hprecommit
        cases hprecommit
    · cases hz.1
  · intro m hm z y hz hy hheight hlt
    have hlock := hkeep m hm z hz hheight
    have hle := hlock.choose_spec.2.1
    exact hallowed y hy.2 m.round (hn.round_nonneg m hm) hle hlock

theorem precommitNil
    (hn : Voting hash K n)
    (hstep : n.step = .prevote) :
    Voting hash K { n.sendPrecommit none with step := .precommit } := by
  refine hn.send rfl rfl rfl rfl rfl rfl rfl ?_ ?_ ?_ ?_ ?_ ?_
  · refine hn.fresh_of_not_past (t := .precommit) fun h => ?_
    rw [hstep] at h
    cases h
  · exact rfl
  · intro t ht
    cases t with
    | proposal => trivial
    | prevote =>
        intro h
        cases h
    | precommit => rfl
  · rintro x ⟨-, hx⟩
    cases hx
  · intro m hm z hz hheight
    simp only [sendPrecommit, broadcast, List.mem_append, List.mem_singleton] at hm
    rcases hm with hold | rfl
    · obtain ⟨v, hv, hr, hK, hlt | ⟨-, hprecommit⟩⟩ := hn.locked m hold z hz hheight
      · exact ⟨v, hv, hr, hK, Or.inl hlt⟩
      · rw [hstep] at hprecommit
        cases hprecommit
    · cases hz.2
  · rintro m - z y - ⟨hprevote, -⟩
    cases hprevote

/-- The lock on a value with a quorum of prevotes. -/
theorem lock
    {v : String}
    (hn : Voting hash K n)
    (hstep : n.step = .prevote)
    (hK : K n.h n.round (hash v)) :
    Voting hash K (n.lock hash v) := by
  refine hn.send rfl rfl rfl rfl rfl rfl rfl ?_ ?_ ?_ ?_ ?_ ?_
  · refine hn.fresh_of_not_past (t := .precommit) fun h => ?_
    rw [hstep] at h
    cases h
  · exact rfl
  · intro t ht
    cases t with
    | proposal => trivial
    | prevote =>
        intro h
        cases h
    | precommit => rfl
  · rintro x ⟨-, hx⟩
    obtain rfl := Option.some.inj hx
    exact hK
  · intro m hm z hz hheight
    refine ⟨v, rfl, ?_, hK, Or.inr ⟨rfl, rfl⟩⟩
    simp only [Node.lock, sendPrecommit, broadcast, List.mem_append, List.mem_singleton] at hm
    rcases hm with hold | rfl
    · change m.round ≤ n.round
      rcases hn.before m hold with hlt | ⟨-, hlt | ⟨heq, -⟩⟩ <;> omega
    · exact le_refl _
  · rintro m - z y - ⟨hprevote, -⟩
    cases hprevote

/-- A round that the node has not been in. -/
theorem startRound
    {r : ℤ}
    (hn : Voting hash K n)
    (hr : 0 ≤ r)
    (hnew : ∀ m ∈ n.sent, m.height = n.h → m.round < r)
    (hlock : ∀ r', n.LockedSince hash K r' → n.lockedRound < r) :
    Voting hash K (n.startRound cfg hash r) := by
  have hopen : Voting hash K { n with round := r, step := .propose } := by
    constructor
    · exact hr
    · exact hn.sender
    · exact hn.round_nonneg
    · intro m hm
      rcases hn.before m hm with hlt | ⟨heq, -⟩
      · exact Or.inl hlt
      · exact Or.inr ⟨heq, Or.inl (hnew m hm heq)⟩
    · exact hn.once
    · exact hn.justified
    · intro m hm x hx hheight
      have hlocked := hn.locked m hm x hx hheight
      have hlt := hlock _ hlocked
      obtain ⟨v, hv, hle, hK, -⟩ := hlocked
      exact ⟨v, hv, hle, hK, Or.inl hlt⟩
    · exact hn.carried
  have hproposal : ∀ (k : ℕ) (value : Option String) (vr : ℤ),
      Voting hash K ({ n with round := r, step := .propose, valueCounter := k }.sendProposal
        hash value vr) := by
    intro k value vr
    refine hopen.send rfl rfl rfl rfl rfl rfl rfl ?_ trivial (fun _ h => h) ?_ ?_ ?_
    · exact fun m hm _ hheight => hnew m hm hheight
    · rintro x ⟨hprecommit, -⟩
      cases hprecommit
    · intro m hm x hx hheight
      simp only [sendProposal, broadcast, List.mem_append, List.mem_singleton] at hm
      rcases hm with hold | rfl
      · exact hopen.locked m hold x hx hheight
      · cases hx.1
    · rintro m - x y - ⟨hprevote, -⟩
      cases hprevote
  unfold Node.startRound
  dsimp only
  split
  case isTrue =>
    split
    case h_1 value _ => exact hproposal n.valueCounter _ _
    case h_2 => exact hproposal (n.valueCounter + 1) _ _
  case isFalse =>
    have hquiet : Quiet { n with round := r, step := .propose }
        ({ n with round := r, step := .propose }.scheduleTimeout .propose) :=
      ⟨rfl, rfl, rfl, rfl, rfl, rfl, rfl, rfl, rfl⟩
    exact hopen.quiet hquiet

/-- The next height: nothing was sent in it. -/
theorem decideValue
    {value : Option String}
    (hn : Voting hash K n) :
    Voting hash K (n.decideValue cfg hash value) := by
  have hpast : ∀ m ∈ n.sent, m.height < n.h + 1 := by
    intro m hm
    rcases hn.before m hm with hlt | ⟨heq, -⟩ <;> omega
  have hnext : ∀ n₁ : Node, n₁.id = n.id → n₁.h = n.h + 1 → n₁.sent = n.sent →
      0 ≤ n₁.round → Voting hash K n₁ := by
    intro n₁ hid hh hsent hround
    constructor
    · exact hround
    all_goals rw [hsent]
    · rw [hid]
      exact hn.sender
    · exact hn.round_nonneg
    · intro m hm
      left
      rw [hh]
      exact hpast m hm
    · exact hn.once
    · exact hn.justified
    · intro m hm x _ hheight
      have hlt := hpast m hm
      omega
    · exact hn.carried
  unfold Node.decideValue
  dsimp only
  split
  case isTrue =>
    refine Voting.startRound (hnext _ rfl rfl rfl (le_refl 0)) (le_refl 0) ?_ ?_
    · intro m hm hheight
      have hlt := hpast m hm
      change m.height = n.h + 1 at hheight
      omega
    · rintro r' ⟨v, hv, -⟩
      cases hv
  case isFalse => exact hnext _ rfl rfl rfl hn.nonneg

/-- Every effect keeps the invariant, when the quorums of the log are known. -/
theorem acts
    (hK : ∀ h r x, hasQuorum cfg n.messageLog .prevote h r (some (some x)) = true → K h r x)
    (hact : Acts cfg hash n n')
    (hn : Voting hash K n) :
    Voting hash K n' := by
  cases hact with
  | quiet hq => exact hn.quiet hq
  | prevoteNil hstep =>
      refine hn.prevote hstep ?_
      intro y hy
      cases hy
  | prevote hstep _ hunlocked =>
      refine hn.prevote hstep ?_
      rintro y hy r hr hle ⟨w, hw, -, hKw, hround⟩
      obtain rfl := Option.some.inj hy
      have hlt : n.lockedRound < n.round := by
        rcases hround with hlt | ⟨-, hprecommit⟩
        · exact hlt
        · rw [hstep] at hprecommit
          cases hprecommit
      rcases hunlocked with hfree | hsame | ⟨vr, hvr, hlocked, hquorum⟩
      · omega
      · rw [hw] at hsame
        obtain rfl := Option.some.inj hsame
        exact ⟨n.lockedRound, hle, hlt, hKw⟩
      · exact ⟨vr, by omega, hvr, hK _ _ _ hquorum⟩
  | precommitNil hstep => exact hn.precommitNil hstep
  | precommit hstep _ hquorum => exact hn.lock hstep (hK _ _ _ hquorum)
  | enter hlt =>
      have hnonneg := hn.nonneg
      refine hn.startRound (by omega) ?_ ?_
      · intro m hm hheight
        rcases hn.before m hm with hlt' | ⟨-, hlt' | ⟨heq, -⟩⟩ <;> omega
      · rintro r' ⟨v, -, -, -, hround⟩
        omega
  | decide _ => exact hn.decideValue

end Voting

end Node

end Tendermint
end DistributedConsensus
