import DistributedConsensus.Foundations.DictSums
import DistributedConsensus.HotStuff.Ledger

/-!
# HotStuff: what no sequence of commands can do to the ledger

The ledger of `bank/ledger.py` after any list of commands, malformed objects and
replays included.  A command either leaves the tables alone, or consumes a fresh nonce,
or consumes it and moves money between two accounts; every law is read off these cases.
-/

namespace DistributedConsensus
namespace HotStuff

open Foundations

variable {F : Type}

namespace Ledger

/-- The sum of all balances. -/
def total (l : Ledger F) : Int := l.balances.values.sum

/-- Money is conserved and no account is negative. -/
def checkInvariants (initialTotal : Int) (l : Ledger F) : Bool :=
  l.total = initialTotal && l.balances.values.all (fun v => 0 ≤ v)

/-- Apply commands in commit order. -/
def applyAll (l : Ledger F) (cmds : List (PyValue F)) : Ledger F :=
  cmds.foldl (fun l cmd => (l.apply cmd).1) l

end Ledger

/-- The key under which the nonce of a transfer is used. -/
def nonceKey : PyValue F → Option (PyStr × Int)
  | .transfer t => some (t.sender, t.nonce.value)
  | _ => none

/-- The outcome of a transfer that has used its nonce. -/
def Outcome.Consumes (outcome : Outcome) : Prop :=
  outcome ≠ .nonceReused ∧ outcome ≠ .malformed

instance (outcome : Outcome) : Decidable outcome.Consumes :=
  inferInstanceAs (Decidable (_ ∧ _))

namespace Ledger

/-- The number of transfers in the history that have used a nonce. -/
def uses (l : Ledger F) (key : PyStr × Int) : Nat :=
  l.history.countP (fun e => nonceKey e.1 = some key ∧ e.2.Consumes)

/-! ## One command -/

theorem nonceKey_of_accepted
    {cmd : PyValue F} {t : Transfer}
    (h : accepted cmd = some t) :
    nonceKey cmd = some (t.sender, t.nonce.value) := by
  obtain ⟨rfl, -, -⟩ := accepted_eq_some h
  rfl

/-- What a command does: nothing but an entry, or a fresh nonce is used, or a fresh
nonce is used and a covered amount is moved. -/
theorem apply_cases (l : Ledger F) (cmd : PyValue F) :
    (∃ outcome : Outcome, ¬ outcome.Consumes ∧ l.apply cmd = l.record cmd outcome) ∨
      ∃ key, nonceKey cmd = some key ∧ key ∉ l.usedNonces ∧
        (l.apply cmd = { l with usedNonces := key :: l.usedNonces }.record cmd .insufficient ∨
          ∃ t : Transfer, t.amount.value ≤ l.balances.getD t.sender 0 ∧
            0 < t.amount.value ∧ t.sender ≠ t.recipient ∧
            l.apply cmd = { l with
              balances := move l.balances t
              usedNonces := key :: l.usedNonces }.record cmd .ok) := by
  cases h : accepted cmd with
  | none =>
      exact Or.inl ⟨.malformed, by decide, apply_of_not_accepted h l⟩
  | some t =>
      obtain ⟨-, hamount, hne⟩ := accepted_eq_some h
      rw [apply_of_accepted h]
      by_cases hused : (t.sender, t.nonce.value) ∈ l.usedNonces
      · rw [if_pos hused]
        exact Or.inl ⟨.nonceReused, by decide, rfl⟩
      · rw [if_neg hused]
        refine Or.inr ⟨_, nonceKey_of_accepted h, hused, ?_⟩
        by_cases hfunds : l.balances.getD t.sender 0 < t.amount.value
        · rw [if_pos hfunds]
          exact Or.inl rfl
        · rw [if_neg hfunds]
          exact Or.inr ⟨t, not_lt.mp hfunds, hamount, hne, rfl⟩

/-- Only an accepted transfer that is covered changes the balances. -/
theorem balances_apply
    {l : Ledger F} {cmd : PyValue F}
    (h : (l.apply cmd).2 ≠ .ok) :
    (l.apply cmd).1.balances = l.balances := by
  rcases apply_cases l cmd with ⟨_, -, heq⟩ | ⟨_, -, -, heq | ⟨_, -, -, -, heq⟩⟩
  · rw [heq]
    rfl
  · rw [heq]
    rfl
  · rw [heq] at h
    exact absurd rfl h

@[simp] theorem history_apply (l : Ledger F) (cmd : PyValue F) :
    (l.apply cmd).1.history = l.history ++ [(cmd, (l.apply cmd).2)] := by
  rcases apply_cases l cmd with ⟨_, -, heq⟩ | ⟨_, -, -, heq | ⟨_, -, -, -, heq⟩⟩ <;>
    rw [heq] <;> rfl

/-! ## Moving money -/

theorem sum_values_set (d : Dict PyStr Int) (account : PyStr) (v : Int) :
    (d.set account v).values.sum = d.values.sum - d.getD account 0 + v := by
  have hsum := Dict.sum_values_set (fun v : Int => v) d account v
  simpa [Dict.getD] using hsum

/-- A move conserves the sum. -/
theorem sum_values_move (balances : Dict PyStr Int) (t : Transfer) :
    (move balances t).values.sum = balances.values.sum := by
  simp only [move, sum_values_set]
  omega

/-- A covered move leaves no negative balance. -/
theorem nonneg_move
    {balances : Dict PyStr Int} {t : Transfer}
    (h : ∀ v ∈ balances.values, 0 ≤ v)
    (hamount : 0 < t.amount.value)
    (hne : t.sender ≠ t.recipient)
    (hfunds : t.amount.value ≤ balances.getD t.sender 0) :
    ∀ v ∈ (move balances t).values, 0 ≤ v := by
  have hold : ∀ account, 0 ≤ balances.getD account 0 := by
    intro account
    rcases Dict.getD_mem_values_or balances account 0 with hmem | hzero
    · exact h _ hmem
    · exact hzero.ge
  intro v hv
  simp only [move, Dict.getD_set, if_neg hne.symm] at hv
  rcases Dict.mem_values_set hv with rfl | hv
  · have := hold t.recipient
    omega
  · rcases Dict.mem_values_set hv with rfl | hv
    · omega
    · exact h v hv

/-! ## Any sequence of commands -/

/-- What every sequence of commands keeps. -/
structure Safe (initialTotal : Int) (l : Ledger F) : Prop where
  conserved : l.total = initialTotal
  nonneg : ∀ v ∈ l.balances.values, 0 ≤ v
  once : ∀ key, l.uses key ≤ 1
  unused : ∀ key, key ∉ l.usedNonces → l.uses key = 0

theorem uses_record
    (l : Ledger F) (cmd : PyValue F) (outcome : Outcome) (key : PyStr × Int) :
    (l.record cmd outcome).1.uses key =
      l.uses key + if nonceKey cmd = some key ∧ outcome.Consumes then 1 else 0 := by
  simp [uses, record, List.countP_append, List.countP_singleton]

/-- A fresh nonce is used once. -/
theorem Safe.use
    {initialTotal : Int} {l l' : Ledger F} {cmd : PyValue F} {outcome : Outcome}
    {key : PyStr × Int}
    (h : l.Safe initialTotal)
    (hkey : nonceKey cmd = some key)
    (hfresh : key ∉ l.usedNonces)
    (hused : l'.usedNonces = key :: l.usedNonces)
    (hhistory : l'.history = l.history)
    (hconserved : l'.total = initialTotal)
    (hnonneg : ∀ v ∈ l'.balances.values, 0 ≤ v) :
    (l'.record cmd outcome).1.Safe initialTotal := by
  have huses : ∀ k, l'.uses k = l.uses k := fun k => by rw [uses, uses, hhistory]
  refine ⟨hconserved, hnonneg, fun k => ?_, fun k hk => ?_⟩
  · rw [uses_record, huses]
    by_cases hsame : nonceKey cmd = some k
    · have hk : key = k := Option.some.inj (hkey.symm.trans hsame)
      rw [← hk, h.unused key hfresh]
      split <;> omega
    · rw [if_neg fun hand => hsame hand.1]
      exact h.once k
  · have hk' : k ∉ key :: l.usedNonces := by
      rw [← hused]
      exact hk
    rw [List.mem_cons, not_or] at hk'
    have hother : nonceKey cmd ≠ some k := by
      rw [hkey]
      exact fun heq => hk'.1 (Option.some.inj heq).symm
    rw [uses_record, huses, h.unused k hk'.2, if_neg fun hand => hother hand.1]

/-- One command. -/
theorem Safe.apply
    {initialTotal : Int} {l : Ledger F}
    (h : l.Safe initialTotal)
    (cmd : PyValue F) :
    (l.apply cmd).1.Safe initialTotal := by
  rcases apply_cases l cmd with
    ⟨outcome, hvoid, heq⟩ | ⟨key, hkey, hfresh, heq | ⟨t, hfunds, hamount, hne, heq⟩⟩
  · rw [heq]
    have huses : ∀ key, (l.record cmd outcome).1.uses key = l.uses key := by
      intro key
      rw [uses_record, if_neg fun hand => hvoid hand.2, Nat.add_zero]
    exact ⟨h.conserved, h.nonneg, fun key => (huses key).trans_le (h.once key),
      fun key hkey => (huses key).trans (h.unused key hkey)⟩
  · rw [heq]
    exact h.use hkey hfresh rfl rfl h.conserved h.nonneg
  · rw [heq]
    refine h.use hkey hfresh rfl rfl ?_ (nonneg_move h.nonneg hamount hne hfunds)
    exact (sum_values_move l.balances t).trans h.conserved

theorem safe_new
    {balances : Dict PyStr Int}
    (h : ∀ v ∈ balances.values, 0 ≤ v) :
    (new balances : Ledger F).Safe balances.values.sum :=
  ⟨rfl, h, fun _ => Nat.zero_le _, fun _ _ => rfl⟩

theorem Safe.applyAll
    {initialTotal : Int} {l : Ledger F}
    (h : l.Safe initialTotal)
    (cmds : List (PyValue F)) :
    (l.applyAll cmds).Safe initialTotal := by
  induction cmds generalizing l with
  | nil => exact h
  | cons cmd cmds ih => exact ih (h.apply cmd)

/-- Every command leaves an entry, in commit order. -/
theorem history_applyAll (l : Ledger F) (cmds : List (PyValue F)) :
    (l.applyAll cmds).history.map Prod.fst = l.history.map Prod.fst ++ cmds := by
  induction cmds generalizing l with
  | nil => exact (List.append_nil _).symm
  | cons cmd cmds ih =>
      rw [applyAll, List.foldl_cons]
      exact (ih _).trans (by simp)

end Ledger

/-- **Ledger safety.**  From balances that are not negative, any list of commands keeps
the total and leaves no balance negative; a command without the outcome `OK` leaves the
balances alone; and for each pair of a sender and a nonce, at most one of the recorded
commands has another outcome than a reused nonce or a malformed command. -/
theorem ledger_safe
    (balances : Dict PyStr Int)
    (hnonneg : ∀ v ∈ balances.values, 0 ≤ v)
    (cmds : List (PyValue F)) :
    ((Ledger.new balances).applyAll cmds).checkInvariants balances.values.sum = true ∧
      (∀ before cmd after, cmds = before ++ cmd :: after →
        (((Ledger.new balances).applyAll before).apply cmd).2 ≠ .ok →
          ((Ledger.new balances).applyAll (before ++ [cmd])).balances =
            ((Ledger.new balances).applyAll before).balances) ∧
      ((Ledger.new balances).applyAll cmds).history.map Prod.fst = cmds ∧
      ∀ key, ((Ledger.new balances).applyAll cmds).history.countP
        (fun e => nonceKey e.1 = some key ∧ e.2 ≠ .nonceReused ∧ e.2 ≠ .malformed) ≤ 1 := by
  have hsafe := (Ledger.safe_new (F := F) hnonneg).applyAll cmds
  refine ⟨?_, fun before cmd after _ houtcome => ?_, Ledger.history_applyAll _ cmds, hsafe.once⟩
  · rw [Ledger.checkInvariants, Bool.and_eq_true, decide_eq_true_eq, List.all_eq_true]
    exact ⟨hsafe.conserved, fun v hv => decide_eq_true (hsafe.nonneg v hv)⟩
  · have hlast : (Ledger.new balances : Ledger F).applyAll (before ++ [cmd]) =
        (((Ledger.new balances).applyAll before).apply cmd).1 := by
      simp [Ledger.applyAll]
    rw [hlast]
    exact Ledger.balances_apply houtcome

/-- A transfer, its replay, and a transfer that the rest does not cover. -/
theorem ledger_safe_sample :
    ((Ledger.new ((Dict.empty.set (pyStr "A") 100).set (pyStr "B") 0)).applyAll
      [sampleTransfer, sampleTransfer, .none,
        .transfer ⟨pyStr "A", pyStr "B", .int 95, .int 2⟩]).checkInvariants 100 = true :=
  (ledger_safe ((Dict.empty.set (pyStr "A") 100).set (pyStr "B") 0) (by decide +kernel)
    [sampleTransfer, sampleTransfer, .none,
      .transfer ⟨pyStr "A", pyStr "B", .int 95, .int 2⟩]).1

end HotStuff
end DistributedConsensus
