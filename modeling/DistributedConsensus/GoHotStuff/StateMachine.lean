import DistributedConsensus.Foundations.DictSums
import Mathlib.Algebra.Order.Group.Int

/-!
# Go HotStuff: the replicated bank

The state machine that executes the decided commands: transfers, blocked accounts and
approved loans.  Amounts and balances are 64-bit integers that wrap around.

A command that is not rejected blocks an account, moves money between two accounts, or
credits an account with a loan.  Money is conserved as long as no credit exceeds the
64-bit range.
-/

namespace DistributedConsensus
namespace GoHotStuff

open Foundations

inductive CommandType where
  | transfer
  | blockAccount
  | approveLoan
  | other (s : String)
  deriving DecidableEq, Repr

structure Command where
  id : String
  type : CommandType
  fromAccount : String
  toAccount : String
  amount : Int64
  metadata : String
  deriving DecidableEq

structure StateMachine where
  balances : Dict String Int64
  blocked : Dict String Bool
  approvedLoans : Dict String Int64

namespace StateMachine

/-- `NewStateMachine`. -/
def new : StateMachine where
  balances := ((Dict.empty.set "Marko" 1000).set "Ana" 200).set "Luka" 100
  blocked := Dict.empty
  approvedLoans := Dict.empty

def balance (sm : StateMachine) (account : String) : Int64 := sm.balances.getD account 0

def isBlocked (sm : StateMachine) (account : String) : Bool := sm.blocked.getD account false

/-- `sm.Balances[account] += amount`. -/
def credit (sm : StateMachine) (account : String) (amount : Int64) : StateMachine :=
  { sm with balances := sm.balances.set account (sm.balance account + amount) }

/-- `sm.Balances[account] -= amount`. -/
def debit (sm : StateMachine) (account : String) (amount : Int64) : StateMachine :=
  { sm with balances := sm.balances.set account (sm.balance account - amount) }

def execute (sm : StateMachine) (cmd : Command) : StateMachine × Bool :=
  if cmd.id = "" then (sm, false)
  else
    match cmd.type with
    | .transfer =>
        if sm.isBlocked cmd.fromAccount then (sm, false)
        else if cmd.amount ≤ 0 ∨ cmd.fromAccount = "" ∨ cmd.toAccount = "" then (sm, false)
        else if sm.balance cmd.fromAccount ≥ cmd.amount then
          ((sm.debit cmd.fromAccount cmd.amount).credit cmd.toAccount cmd.amount, true)
        else (sm, false)
    | .blockAccount =>
        if cmd.fromAccount = "" then (sm, false)
        else ({ sm with blocked := sm.blocked.set cmd.fromAccount true }, true)
    | .approveLoan =>
        if sm.isBlocked cmd.fromAccount then (sm, false)
        else if cmd.fromAccount = "" ∨ cmd.metadata = "" ∨ cmd.amount ≤ 0 then (sm, false)
        else if sm.approvedLoans.contains cmd.metadata then (sm, false)
        else
          ({ sm with approvedLoans := sm.approvedLoans.set cmd.metadata cmd.amount }.credit
            cmd.fromAccount cmd.amount, true)
    | .other _ => (sm, false)

/-! ## What a command does -/

/-- The checks of a transfer. -/
def MayTransfer (sm : StateMachine) (cmd : Command) : Prop :=
  cmd.id ≠ "" ∧ cmd.type = .transfer ∧ sm.isBlocked cmd.fromAccount = false ∧ 0 < cmd.amount ∧
    cmd.fromAccount ≠ "" ∧ cmd.toAccount ≠ "" ∧ cmd.amount ≤ sm.balance cmd.fromAccount

/-- The checks of a loan. -/
def MayLend (sm : StateMachine) (cmd : Command) : Prop :=
  cmd.id ≠ "" ∧ cmd.type = .approveLoan ∧ sm.isBlocked cmd.fromAccount = false ∧ cmd.fromAccount ≠ "" ∧
    cmd.metadata ≠ "" ∧ 0 < cmd.amount ∧ sm.approvedLoans.contains cmd.metadata = false

/-- The checks of a block command. -/
def MayBlock (cmd : Command) : Prop :=
  cmd.id ≠ "" ∧ cmd.type = .blockAccount ∧ cmd.fromAccount ≠ ""

section Cases

variable {sm : StateMachine} {cmd : Command}

theorem not_mayTransfer (htype : cmd.type ≠ .transfer) : ¬ sm.MayTransfer cmd :=
  fun h => htype h.2.1

theorem not_mayLend (htype : cmd.type ≠ .approveLoan) : ¬ sm.MayLend cmd :=
  fun h => htype h.2.1

theorem execute_transfer
    (hid : cmd.id ≠ "")
    (htype : cmd.type = .transfer) :
    sm.execute cmd = (sm, false) ∧ ¬ sm.MayTransfer cmd ∨
      sm.MayTransfer cmd ∧ sm.execute cmd
        = ((sm.debit cmd.fromAccount cmd.amount).credit cmd.toAccount cmd.amount, true) := by
  unfold execute
  rw [if_neg hid, htype]
  by_cases hok : sm.MayTransfer cmd
  · right
    obtain ⟨-, -, hblocked, hamount, hfrom, hto, hfunds⟩ := id hok
    refine ⟨hok, ?_⟩
    have hform : ¬ (cmd.amount ≤ 0 ∨ cmd.fromAccount = "" ∨ cmd.toAccount = "") := by
      rintro (h | h | h)
      · exact absurd hamount (Int64.not_lt.mpr h)
      · exact hfrom h
      · exact hto h
    simp only [hblocked, Bool.false_eq_true, if_false, if_neg hform, ge_iff_le, if_pos hfunds]
  · left
    refine ⟨?_, hok⟩
    simp only
    split
    case isTrue => rfl
    case isFalse hblocked =>
      split
      case isTrue => rfl
      case isFalse hform =>
        rw [if_neg]
        intro hfunds
        push Not at hform
        exact hok ⟨hid, htype, Bool.eq_false_iff.mpr hblocked,
          Int64.not_le.mp hform.1, hform.2.1, hform.2.2, hfunds⟩

theorem execute_approveLoan
    (hid : cmd.id ≠ "")
    (htype : cmd.type = .approveLoan) :
    sm.execute cmd = (sm, false) ∧ ¬ sm.MayLend cmd ∨
      sm.MayLend cmd ∧ sm.execute cmd
        = ({ sm with approvedLoans := sm.approvedLoans.set cmd.metadata cmd.amount }.credit
            cmd.fromAccount cmd.amount, true) := by
  unfold execute
  rw [if_neg hid, htype]
  by_cases hok : sm.MayLend cmd
  · right
    obtain ⟨-, -, hblocked, hfrom, hmetadata, hamount, hnew⟩ := id hok
    refine ⟨hok, ?_⟩
    have hform : ¬ (cmd.fromAccount = "" ∨ cmd.metadata = "" ∨ cmd.amount ≤ 0) := by
      rintro (h | h | h)
      · exact hfrom h
      · exact hmetadata h
      · exact absurd hamount (Int64.not_lt.mpr h)
    simp only [hblocked, Bool.false_eq_true, if_false, if_neg hform, hnew]
  · left
    refine ⟨?_, hok⟩
    simp only
    split
    case isTrue => rfl
    case isFalse hblocked =>
      split
      case isTrue => rfl
      case isFalse hform =>
        rw [if_pos]
        by_contra hnew
        push Not at hform
        exact hok ⟨hid, htype, Bool.eq_false_iff.mpr hblocked, hform.1,
          hform.2.1, Int64.not_le.mp hform.2.2, Bool.eq_false_iff.mpr hnew⟩

end Cases

/-- A command is rejected, or passes the checks of its type and is carried out. -/
theorem execute_cases (sm : StateMachine) (cmd : Command) :
    sm.execute cmd = (sm, false) ∧ ¬ sm.MayTransfer cmd ∧ ¬ sm.MayLend cmd ∨
      sm.MayTransfer cmd ∧ sm.execute cmd
        = ((sm.debit cmd.fromAccount cmd.amount).credit cmd.toAccount cmd.amount, true) ∨
      sm.MayLend cmd ∧ sm.execute cmd
        = ({ sm with approvedLoans := sm.approvedLoans.set cmd.metadata cmd.amount }.credit
            cmd.fromAccount cmd.amount, true) ∨
      MayBlock cmd ∧ ¬ sm.MayTransfer cmd ∧ ¬ sm.MayLend cmd ∧
        sm.execute cmd = ({ sm with blocked := sm.blocked.set cmd.fromAccount true }, true) := by
  by_cases hid : cmd.id = ""
  · left
    exact ⟨if_pos hid, fun h => h.1 hid, fun h => h.1 hid⟩
  cases htype : cmd.type with
  | transfer =>
      rcases execute_transfer hid htype with ⟨hsame, hmay⟩ | hdone
      · exact Or.inl ⟨hsame, hmay, not_mayLend (by simp [htype])⟩
      · exact Or.inr (Or.inl hdone)
  | approveLoan =>
      rcases execute_approveLoan hid htype with ⟨hsame, hmay⟩ | hdone
      · exact Or.inl ⟨hsame, not_mayTransfer (by simp [htype]), hmay⟩
      · exact Or.inr (Or.inr (Or.inl hdone))
  | blockAccount =>
      have hblock : sm.execute cmd = if cmd.fromAccount = "" then (sm, false)
          else ({ sm with blocked := sm.blocked.set cmd.fromAccount true }, true) := by
        unfold execute
        rw [if_neg hid, htype]
      have htransfer : ¬ sm.MayTransfer cmd := not_mayTransfer (by simp [htype])
      have hlend : ¬ sm.MayLend cmd := not_mayLend (by simp [htype])
      rw [hblock]
      by_cases hfrom : cmd.fromAccount = ""
      · left
        exact ⟨if_pos hfrom, htransfer, hlend⟩
      · right; right; right
        exact ⟨⟨hid, htype, hfrom⟩, htransfer, hlend, if_neg hfrom⟩
  | other s =>
      left
      refine ⟨?_, not_mayTransfer (by simp [htype]), not_mayLend (by simp [htype])⟩
      unfold execute
      rw [if_neg hid, htype]

end StateMachine

/-! ## Sums and 64-bit arithmetic -/

/-- The sum of the values of a map. -/
def funds (d : Dict String Int64) : ℤ := (d.values.map Int64.toInt).sum

/-- Storing a value changes the sum by the difference to the stored one. -/
theorem funds_set (d : Dict String Int64) (k : String) (v : Int64) :
    funds (d.set k v) = funds d - (d.getD k 0).toInt + v.toInt := by
  have hsum := Dict.sum_values_set Int64.toInt d k v
  have hold : ((d.get? k).map Int64.toInt).getD 0 = (d.getD k 0).toInt := by
    unfold Dict.getD
    cases d.get? k <;> rfl
  rw [hold] at hsum
  exact hsum

section Arithmetic

variable {a b : Int64}

theorem toInt_sub_of_le
    (ha : 0 ≤ a.toInt)
    (hab : a.toInt ≤ b.toInt) :
    (b - a).toInt = b.toInt - a.toInt := by
  have hb := b.toInt_lt
  rw [Int64.toInt_sub, Int.bmod_eq_of_le] <;> omega

theorem toInt_add_of_lt
    (ha : 0 ≤ a.toInt)
    (hb : 0 ≤ b.toInt)
    (hab : b.toInt + a.toInt < 2 ^ 63) :
    (b + a).toInt = b.toInt + a.toInt := by
  rw [Int64.toInt_add, Int.bmod_eq_of_le] <;> omega

/-- A sum beyond the range is negative. -/
theorem toInt_add_neg
    (ha : 0 ≤ a.toInt)
    (hb : 0 ≤ b.toInt)
    (hab : 2 ^ 63 ≤ b.toInt + a.toInt) :
    (b + a).toInt < 0 := by
  have hlta := a.toInt_lt
  have hltb := b.toInt_lt
  rw [Int64.toInt_add, Int.bmod_def]
  split <;> omega

end Arithmetic

namespace StateMachine

variable {sm : StateMachine} {cmd : Command} {account : String} {amount : Int64}

theorem balance_credit (account' : String) :
    (sm.credit account amount).balance account'
      = if account' = account then sm.balance account + amount else sm.balance account' := by
  unfold credit balance
  rw [Dict.getD_set]

theorem balance_debit (account' : String) :
    (sm.debit account amount).balance account'
      = if account' = account then sm.balance account - amount else sm.balance account' := by
  unfold debit balance
  rw [Dict.getD_set]

/-! ## Conservation -/

/-- No balance is negative, and the money is the initial money and the loans. -/
structure Sound (sm : StateMachine) : Prop where
  nonneg : ∀ account, 0 ≤ (sm.balance account).toInt
  conserved : funds sm.balances = funds new.balances + funds sm.approvedLoans

/-- What an execution must guarantee. -/
structure Conserves (sm : StateMachine) (cmd : Command) : Prop where
  sound : (sm.execute cmd).1.Sound
  rejected : (sm.execute cmd).2 = false → (sm.execute cmd).1 = sm
  /-- A blocked account stays blocked and loses nothing. -/
  blocked : ∀ account, sm.isBlocked account = true →
    (sm.execute cmd).1.isBlocked account = true ∧
      (sm.balance account).toInt ≤ ((sm.execute cmd).1.balance account).toInt

/-- The credited balance stays within 64 bits. -/
def Fits (sm : StateMachine) (cmd : Command) : Prop :=
  (sm.MayTransfer cmd → cmd.fromAccount ≠ cmd.toAccount →
    (sm.balance cmd.toAccount).toInt + cmd.amount.toInt < 2 ^ 63) ∧
  (sm.MayLend cmd → (sm.balance cmd.fromAccount).toInt + cmd.amount.toInt < 2 ^ 63)

theorem funds_credit :
    funds (sm.credit account amount).balances
      = funds sm.balances - (sm.balance account).toInt + (sm.balance account + amount).toInt :=
  funds_set _ _ _

theorem funds_debit :
    funds (sm.debit account amount).balances
      = funds sm.balances - (sm.balance account).toInt + (sm.balance account - amount).toInt :=
  funds_set _ _ _

/-- A credit that fits raises one balance and the sum by the amount. -/
theorem credit_spec
    (sm : StateMachine)
    (account : String)
    (hnonneg : ∀ account, 0 ≤ (sm.balance account).toInt)
    (hamount : 0 ≤ amount.toInt)
    (hfits : (sm.balance account).toInt + amount.toInt < 2 ^ 63) :
    (∀ x, (sm.balance x).toInt ≤ ((sm.credit account amount).balance x).toInt) ∧
      funds (sm.credit account amount).balances = funds sm.balances + amount.toInt := by
  have hsum := toInt_add_of_lt hamount (hnonneg account) hfits
  constructor
  · intro x
    rw [balance_credit]
    split
    case isTrue hx =>
      rw [hx, hsum]
      omega
    case isFalse => exact le_refl _
  · rw [funds_credit, hsum]
    omega

/-- A credit that does not fit leaves a negative balance. -/
theorem credit_neg
    (sm : StateMachine)
    (account : String)
    (hnonneg : ∀ account, 0 ≤ (sm.balance account).toInt)
    (hamount : 0 ≤ amount.toInt)
    (hfits : 2 ^ 63 ≤ (sm.balance account).toInt + amount.toInt) :
    ((sm.credit account amount).balance account).toInt < 0 := by
  rw [balance_credit, if_pos rfl]
  exact toInt_add_neg hamount (hnonneg account) hfits

/-- A debit of covered funds. -/
theorem debit_spec
    (hnonneg : ∀ account, 0 ≤ (sm.balance account).toInt)
    (hamount : 0 ≤ amount.toInt)
    (hfunds : amount.toInt ≤ (sm.balance account).toInt) :
    (∀ x, 0 ≤ ((sm.debit account amount).balance x).toInt) ∧
      ((sm.debit account amount).balance account).toInt
        = (sm.balance account).toInt - amount.toInt ∧
      (∀ x, x ≠ account → (sm.debit account amount).balance x = sm.balance x) ∧
      funds (sm.debit account amount).balances = funds sm.balances - amount.toInt := by
  have hrest := toInt_sub_of_le hamount hfunds
  refine ⟨?_, ?_, ?_, ?_⟩
  · intro x
    rw [balance_debit]
    split
    case isTrue =>
      rw [hrest]
      omega
    case isFalse => exact hnonneg x
  · rw [balance_debit, if_pos rfl, hrest]
  · intro x hx
    rw [balance_debit, if_neg hx]
  · rw [funds_debit, hrest]
    omega

theorem toInt_pos_of_pos
    (h : 0 < amount) :
    0 < amount.toInt := by
  have hlt := Int64.lt_iff_toInt_lt.mp h
  rwa [Int64.toInt_zero] at hlt

/-- A transfer conserves the money exactly if the receiver's balance fits. -/
theorem conserves_transfer_iff
    (hsm : sm.Sound)
    (hok : sm.MayTransfer cmd)
    (hexecute : sm.execute cmd
      = ((sm.debit cmd.fromAccount cmd.amount).credit cmd.toAccount cmd.amount, true)) :
    sm.Conserves cmd ↔ (cmd.fromAccount ≠ cmd.toAccount →
      (sm.balance cmd.toAccount).toInt + cmd.amount.toInt < 2 ^ 63) := by
  obtain ⟨-, -, hblocked, hamount, -, -, hcovered⟩ := hok
  have hpos := toInt_pos_of_pos hamount
  obtain ⟨hnonneg, hself, hother, hfunds⟩ :=
    debit_spec hsm.nonneg hpos.le (Int64.le_iff_toInt_le.mp hcovered)
  constructor
  · intro h hne
    by_contra hover
    have hlarge : 2 ^ 63 ≤ ((sm.debit cmd.fromAccount cmd.amount).balance cmd.toAccount).toInt
        + cmd.amount.toInt := by
      rw [hother _ (Ne.symm hne)]
      omega
    have hneg := credit_neg _ cmd.toAccount hnonneg hpos.le hlarge
    have hsound := h.sound.nonneg cmd.toAccount
    rw [hexecute] at hsound
    exact absurd hsound (not_le.mpr hneg)
  · intro h
    have hfits : ((sm.debit cmd.fromAccount cmd.amount).balance cmd.toAccount).toInt
        + cmd.amount.toInt < 2 ^ 63 := by
      by_cases heq : cmd.toAccount = cmd.fromAccount
      · have hlt := (sm.balance cmd.fromAccount).toInt_lt
        rw [heq, hself]
        omega
      · rw [hother _ heq]
        exact h (Ne.symm heq)
    obtain ⟨hgrows, htotal⟩ := credit_spec _ cmd.toAccount hnonneg hpos.le hfits
    constructor
    case sound =>
      rw [hexecute]
      constructor
      case nonneg => exact fun x => (hnonneg x).trans (hgrows x)
      case conserved =>
        rw [htotal, hfunds]
        have hconserved := hsm.conserved
        change _ = funds new.balances + funds sm.approvedLoans
        omega
    case rejected =>
      rw [hexecute]
      intro hfalse
      cases hfalse
    case blocked =>
      rw [hexecute]
      intro x hx
      refine ⟨hx, ?_⟩
      have hne : x ≠ cmd.fromAccount := by
        rintro rfl
        rw [hblocked] at hx
        cases hx
      have hle := hgrows x
      rwa [hother x hne] at hle

/-- A loan conserves the money exactly if the credited balance fits. -/
theorem conserves_loan_iff
    (hsm : sm.Sound)
    (hok : sm.MayLend cmd)
    (hexecute : sm.execute cmd
      = ({ sm with approvedLoans := sm.approvedLoans.set cmd.metadata cmd.amount }.credit
          cmd.fromAccount cmd.amount, true)) :
    sm.Conserves cmd ↔
      (sm.balance cmd.fromAccount).toInt + cmd.amount.toInt < 2 ^ 63 := by
  obtain ⟨-, -, hblocked, -, -, hamount, hnew⟩ := hok
  have hpos := toInt_pos_of_pos hamount
  constructor
  · intro h
    by_contra hover
    have hneg := credit_neg
      { sm with approvedLoans := sm.approvedLoans.set cmd.metadata cmd.amount }
      cmd.fromAccount hsm.nonneg hpos.le (not_lt.mp hover)
    have hsound := h.sound.nonneg cmd.fromAccount
    rw [hexecute] at hsound
    exact absurd hsound (not_le.mpr hneg)
  · intro hfits
    obtain ⟨hgrows, htotal⟩ := credit_spec
      { sm with approvedLoans := sm.approvedLoans.set cmd.metadata cmd.amount }
      cmd.fromAccount hsm.nonneg hpos.le hfits
    constructor
    case sound =>
      rw [hexecute]
      constructor
      case nonneg => exact fun x => (hsm.nonneg x).trans (hgrows x)
      case conserved =>
        have hloans := funds_set sm.approvedLoans cmd.metadata cmd.amount
        have hnone : sm.approvedLoans.getD cmd.metadata 0 = 0 := by
          unfold Dict.contains at hnew
          unfold Dict.getD
          rw [Option.isSome_eq_false_iff, Option.isNone_iff_eq_none] at hnew
          rw [hnew]
          rfl
        rw [hnone, Int64.toInt_zero] at hloans
        rw [htotal]
        have hconserved := hsm.conserved
        change funds sm.balances + _ = funds new.balances + funds (sm.approvedLoans.set _ _)
        omega
    case rejected =>
      rw [hexecute]
      intro hfalse
      cases hfalse
    case blocked =>
      rw [hexecute]
      exact fun x hx => ⟨hx, hgrows x⟩

/-- From a sound state a command conserves the money exactly if its credit fits. -/
theorem conserves_iff_fits
    (hsm : sm.Sound) :
    sm.Conserves cmd ↔ sm.Fits cmd := by
  rcases sm.execute_cases cmd with
    ⟨hexecute, htransfer, hlend⟩ | ⟨hok, hexecute⟩ | ⟨hok, hexecute⟩ |
      ⟨-, htransfer, hlend, hexecute⟩
  · have hfits : sm.Fits cmd := ⟨fun h => absurd h htransfer, fun h => absurd h hlend⟩
    refine ⟨fun _ => hfits, fun _ => ?_⟩
    constructor
    case sound =>
      rw [hexecute]
      exact hsm
    case rejected =>
      rw [hexecute]
      exact fun _ => rfl
    case blocked =>
      rw [hexecute]
      exact fun x hx => ⟨hx, le_refl _⟩
  · rw [conserves_transfer_iff hsm hok hexecute]
    refine ⟨fun h => ⟨fun _ => h, fun hlend => ?_⟩, fun h => h.1 hok⟩
    have htype := hok.2.1.symm.trans hlend.2.1
    cases htype
  · rw [conserves_loan_iff hsm hok hexecute]
    refine ⟨fun h => ⟨fun htransfer => ?_, fun _ => h⟩, fun h => h.2 hok⟩
    have htype := hok.2.1.symm.trans htransfer.2.1
    cases htype
  · have hfits : sm.Fits cmd := ⟨fun h => absurd h htransfer, fun h => absurd h hlend⟩
    refine ⟨fun _ => hfits, fun _ => ?_⟩
    constructor
    case sound =>
      rw [hexecute]
      exact ⟨hsm.nonneg, hsm.conserved⟩
    case rejected =>
      rw [hexecute]
      intro hfalse
      cases hfalse
    case blocked =>
      rw [hexecute]
      intro x hx
      refine ⟨?_, le_refl _⟩
      change (sm.blocked.set cmd.fromAccount true).getD x false = true
      rw [Dict.getD_set]
      split
      case isTrue => rfl
      case isFalse => exact hx

/-! ## Sequences of commands -/

/-- Every command of the sequence meets a condition in the state it is executed in. -/
def Along (P : StateMachine → Command → Prop) : StateMachine → List Command → Prop
  | _, [] => True
  | sm, cmd :: cmds => P sm cmd ∧ Along P (sm.execute cmd).1 cmds

theorem sound_new : new.Sound := by
  constructor
  case nonneg =>
    intro account
    change 0 ≤ ((((Dict.empty.set "Marko" 1000).set "Ana" 200).set "Luka" 100).getD
      account 0 : Int64).toInt
    rw [Dict.getD_set, Dict.getD_set, Dict.getD_set, Dict.getD_empty]
    split
    · decide
    · split
      · decide
      · split <;> decide
  case conserved => rfl

theorem along_iff
    (hsm : sm.Sound)
    (cmds : List Command) :
    Along Conserves sm cmds ↔ Along Fits sm cmds := by
  induction cmds generalizing sm with
  | nil => exact Iff.rfl
  | cons cmd cmds ih =>
      constructor
      · rintro ⟨hcmd, hcmds⟩
        exact ⟨(conserves_iff_fits hsm).mp hcmd, (ih hcmd.sound).mp hcmds⟩
      · rintro ⟨hcmd, hcmds⟩
        have hconserves := (conserves_iff_fits hsm).mpr hcmd
        exact ⟨hconserves, (ih hconserves.sound).mpr hcmds⟩

/-- **Conservation.**  A sequence of commands keeps all balances non-negative, conserves
the money, changes nothing by rejected commands and takes nothing from blocked accounts,
exactly if none of its transfers and loans credits a balance beyond 64 bits. -/
theorem money_conserved_iff (cmds : List Command) :
    Along Conserves new cmds ↔ Along Fits new cmds :=
  along_iff sound_new cmds

/-- A loan of the largest amount makes the balance of its account negative. -/
theorem not_money_conserved : ¬ ∀ cmds : List Command, Along Conserves new cmds := by
  intro h
  obtain ⟨hconserves, -⟩ := h [⟨"b1", .approveLoan, "Marko", "", 9223372036854775807, "L-1"⟩]
  have hnonneg := hconserves.sound.nonneg "Marko"
  revert hnonneg
  decide

end StateMachine

end GoHotStuff
end DistributedConsensus
