import DistributedConsensus.HotStuff.Canonical
import DistributedConsensus.HotStuff.Replay

/-!
# HotStuff: the settlement ledger

The replicated state machine of `bank/ledger.py`, as the application that the
replicas execute.

A node is identified by the canonical encoding of its command.  Two commands with
the same encoding are judged alike from every ledger exactly if neither of them
is a transfer that passes the first check of `apply`, or both are, with the same
accounts.  Under this condition replicas with the same committed hashes have the
same ledger.
-/

namespace DistributedConsensus
namespace HotStuff

open Foundations

/-- Outcomes of a command. -/
inductive Outcome where
  | ok
  | insufficient
  | nonceReused
  | malformed
deriving DecidableEq, Repr

/-- Accounts, used nonces, and the judged commands in commit order. -/
structure Ledger (F : Type) where
  balances : Dict PyStr Int
  usedNonces : List (PyStr × Int)
  history : List (PyValue F × Outcome)

namespace Ledger

variable {F : Type}

/-- A new ledger. -/
def new (balances : Dict PyStr Int) : Ledger F := ⟨balances, [], []⟩

/-- Append to the history. -/
def record (l : Ledger F) (cmd : PyValue F) (outcome : Outcome) : Ledger F × Outcome :=
  ({ l with history := l.history ++ [(cmd, outcome)] }, outcome)

/-- Move the amount of a transfer.  The sender has an account, since the amount
is positive and covered. -/
def move (balances : Dict PyStr Int) (t : Transfer) : Dict PyStr Int :=
  let balances := balances.set t.sender (balances.getD t.sender 0 - t.amount.value)
  balances.set t.recipient (balances.getD t.recipient 0 + t.amount.value)

/-- Apply one committed command. -/
def apply (l : Ledger F) (cmd : PyValue F) : Ledger F × Outcome :=
  match cmd with
  | .transfer t =>
      if t.amount.value ≤ 0 ∨ t.sender = t.recipient then l.record cmd .malformed
      else
        let key := (t.sender, t.nonce.value)
        if key ∈ l.usedNonces then l.record cmd .nonceReused
        else if l.balances.getD t.sender 0 < t.amount.value then
          { l with usedNonces := key :: l.usedNonces }.record cmd .insufficient
        else
          { l with
            balances := move l.balances t
            usedNonces := key :: l.usedNonces }.record cmd .ok
  | _ => l.record cmd .malformed

end Ledger

section Judgement

variable {F : Type}

/-- The transfer that passes the first check of `apply`, if there is one. -/
def accepted : PyValue F → Option Transfer
  | .transfer t => if t.amount.value ≤ 0 ∨ t.sender = t.recipient then none else some t
  | _ => none

/-- Neither command is an acceptable transfer, or both are, with the same
accounts. -/
def JudgedAlike (a b : PyValue F) : Prop :=
  match accepted a, accepted b with
  | none, none => True
  | some t, some t' => t.sender = t'.sender ∧ t.recipient = t'.recipient
  | _, _ => False

instance (a b : PyValue F) : Decidable (JudgedAlike a b) := by
  unfold JudgedAlike
  split <;> infer_instance

theorem accepted_eq_some
    {cmd : PyValue F} {t : Transfer}
    (h : accepted cmd = some t) :
    cmd = .transfer t ∧ 0 < t.amount.value ∧ t.sender ≠ t.recipient := by
  unfold accepted at h
  split at h
  case h_2 => cases h
  case h_1 t' =>
    split at h
    case isTrue => cases h
    case isFalse hguard =>
      cases h
      push Not at hguard
      exact ⟨rfl, hguard⟩

namespace Ledger

/-- A command that is not an acceptable transfer is recorded as malformed. -/
theorem apply_of_not_accepted
    {cmd : PyValue F}
    (h : accepted cmd = none)
    (l : Ledger F) :
    l.apply cmd = l.record cmd .malformed := by
  unfold accepted at h
  split at h
  case h_2 hnot =>
    unfold apply
    split
    case h_1 t => exact absurd rfl (hnot t)
    case h_2 => rfl
  case h_1 t =>
    split at h
    case isTrue hguard =>
      unfold apply
      exact if_pos hguard
    case isFalse => cases h

/-- An acceptable transfer is judged by the balances and the used nonces. -/
theorem apply_of_accepted
    {cmd : PyValue F} {t : Transfer}
    (h : accepted cmd = some t)
    (l : Ledger F) :
    l.apply cmd =
      if (t.sender, t.nonce.value) ∈ l.usedNonces then l.record cmd .nonceReused
      else if l.balances.getD t.sender 0 < t.amount.value then
        { l with usedNonces := (t.sender, t.nonce.value) :: l.usedNonces }.record cmd
          .insufficient
      else
        { l with
          balances := move l.balances t
          usedNonces := (t.sender, t.nonce.value) :: l.usedNonces }.record cmd .ok := by
  obtain ⟨rfl, hamount, hne⟩ := accepted_eq_some h
  have hguard : ¬ (t.amount.value ≤ 0 ∨ t.sender = t.recipient) := by
    rintro (hle | heq)
    · omega
    · exact hne heq
  unfold apply
  exact if_neg hguard

end Ledger

variable [PyFloat F]

/-- Acceptable transfers with the same encoding and the same accounts are
equal. -/
theorem accepted_eq_of_judgedAlike
    {a b : PyValue F} {t t' : Transfer}
    (henc : canonicalBytes a = canonicalBytes b)
    (ha : accepted a = some t)
    (hb : accepted b = some t')
    (halike : JudgedAlike a b) :
    t = t' := by
  unfold JudgedAlike at halike
  rw [ha, hb] at halike
  obtain ⟨hsender, hrecipient⟩ := halike
  obtain ⟨rfl, -, -⟩ := accepted_eq_some ha
  obtain ⟨rfl, -, -⟩ := accepted_eq_some hb
  obtain ⟨hamount, hnonce, -, -⟩ := transfer_eq_of_canonicalBytes henc
  cases t
  cases t'
  simp only at hsender hrecipient hamount hnonce
  rw [hsender, hrecipient, hamount, hnonce]

/-- Ledgers that agree in everything but the recorded commands. -/
structure SameLedger (l l' : Ledger F) : Prop where
  balances : l.balances = l'.balances
  usedNonces : l.usedNonces = l'.usedNonces
  outcomes : l.history.map Prod.snd = l'.history.map Prod.snd

omit [PyFloat F] in
theorem SameLedger.refl (l : Ledger F) : SameLedger l l := ⟨rfl, rfl, rfl⟩

omit [PyFloat F] in
theorem SameLedger.record
    {l l' : Ledger F}
    (h : SameLedger l l')
    (a b : PyValue F) (outcome : Outcome) :
    SameLedger (l.record a outcome).1 (l'.record b outcome).1 := by
  refine ⟨h.balances, h.usedNonces, ?_⟩
  simp only [Ledger.record, List.map_append, List.map_cons, h.outcomes]

/-- **Commands judged alike.**  They have the same outcome and keep ledgers the
same. -/
theorem SameLedger.apply
    {l l' : Ledger F} {a b : PyValue F}
    (h : SameLedger l l')
    (henc : canonicalBytes a = canonicalBytes b)
    (halike : JudgedAlike a b) :
    (l.apply a).2 = (l'.apply b).2 ∧ SameLedger (l.apply a).1 (l'.apply b).1 := by
  have hjudged := halike
  unfold JudgedAlike at hjudged
  cases ha : accepted a with
  | none =>
      cases hb : accepted b with
      | none =>
          rw [Ledger.apply_of_not_accepted ha, Ledger.apply_of_not_accepted hb]
          exact ⟨rfl, h.record a b _⟩
      | some t' =>
          rw [ha, hb] at hjudged
          exact hjudged.elim
  | some t =>
      cases hb : accepted b with
      | none =>
          rw [ha, hb] at hjudged
          exact hjudged.elim
      | some t' =>
          obtain rfl := accepted_eq_of_judgedAlike henc ha hb halike
          rw [Ledger.apply_of_accepted ha, Ledger.apply_of_accepted hb, ← h.balances,
            ← h.usedNonces]
          split
          case isTrue => exact ⟨rfl, h.record a b _⟩
          case isFalse =>
            split
            case isTrue =>
              refine ⟨rfl, SameLedger.record ?_ a b _⟩
              exact ⟨rfl, rfl, h.outcomes⟩
            case isFalse =>
              refine ⟨rfl, SameLedger.record ?_ a b _⟩
              exact ⟨rfl, rfl, h.outcomes⟩

/-- The ledger that tells a given transfer from others: its sender owns just the
amount. -/
def fundedBy (t : Transfer) : Ledger F :=
  Ledger.new (Dict.empty.set t.sender t.amount.value)

omit [PyFloat F] in
theorem fundedBy_getD (t : Transfer) (account : PyStr) :
    (fundedBy t : Ledger F).balances.getD account 0 =
      if account = t.sender then t.amount.value else 0 := by
  simp only [fundedBy, Ledger.new, Dict.getD_set, Dict.getD_empty]

omit [PyFloat F] in
/-- In its own ledger a transfer succeeds and credits the recipient alone. -/
theorem fundedBy_apply
    {cmd : PyValue F} {t : Transfer}
    (h : accepted cmd = some t) :
    ((fundedBy t).apply cmd).2 = .ok ∧
      ∀ account, account ≠ t.sender →
        ((fundedBy t).apply cmd).1.balances.get? account =
          if account = t.recipient then some t.amount.value else none := by
  obtain ⟨-, -, hne⟩ := accepted_eq_some h
  rw [Ledger.apply_of_accepted h]
  have hnonce : (t.sender, t.nonce.value) ∉ (fundedBy t : Ledger F).usedNonces := by
    simp [fundedBy, Ledger.new]
  have hfunds : ¬ (fundedBy t : Ledger F).balances.getD t.sender 0 < t.amount.value := by
    rw [fundedBy_getD, if_pos rfl]
    omega
  rw [if_neg hnonce, if_neg hfunds]
  refine ⟨rfl, ?_⟩
  intro account haccount
  simp only [Ledger.record, Ledger.move, Dict.get?_set, Dict.getD_set, fundedBy_getD,
    if_neg (Ne.symm hne), if_neg haccount, Int.zero_add]
  split
  case isTrue => rfl
  case isFalse =>
    simp only [fundedBy, Ledger.new, Dict.get?_set, if_neg haccount]
    rfl

/-- A command that does in that ledger what the transfer does is judged like
it. -/
theorem judgedAlike_of_fundedBy
    {a b : PyValue F} {t : Transfer}
    (henc : canonicalBytes a = canonicalBytes b)
    (ha : accepted a = some t)
    (hsame : ((fundedBy t).apply a).2 = ((fundedBy t).apply b).2 ∧
      ∀ account, ((fundedBy t).apply a).1.balances.get? account =
        ((fundedBy t).apply b).1.balances.get? account) :
    JudgedAlike a b := by
  obtain ⟨hok, hcredit⟩ := fundedBy_apply ha
  obtain ⟨htransfer, hamount, hne⟩ := accepted_eq_some ha
  cases hb : accepted b with
  | none =>
      have houtcome := hsame.1
      rw [hok, Ledger.apply_of_not_accepted hb] at houtcome
      cases houtcome
  | some t' =>
      obtain ⟨htransfer', hamount', hne'⟩ := accepted_eq_some hb
      have hamounts : t.amount = t'.amount := by
        rw [htransfer, htransfer'] at henc
        exact (transfer_eq_of_canonicalBytes henc).1
      -- The sender must own the amount, and only one account does.
      have hsender : t'.sender = t.sender := by
        by_contra hother
        have houtcome := hsame.1
        rw [hok, Ledger.apply_of_accepted hb, if_neg (by simp [fundedBy, Ledger.new]),
          if_pos (by rw [fundedBy_getD, if_neg hother]; exact hamount')] at houtcome
        cases houtcome
      have hfunded : (fundedBy t' : Ledger F) = fundedBy t := by
        simp only [fundedBy, hsender, hamounts]
      have hcredit' := (fundedBy_apply hb).2
      rw [hfunded] at hcredit'
      have hrecipient : t.recipient = t'.recipient := by
        have hbalance := hsame.2 t.recipient
        rw [hcredit t.recipient (Ne.symm hne), if_pos rfl,
          hcredit' t.recipient (by rw [hsender]; exact Ne.symm hne)] at hbalance
        split at hbalance
        case isTrue heq => exact heq
        case isFalse => cases hbalance
      unfold JudgedAlike
      rw [ha, hb]
      exact ⟨hsender.symm, hrecipient⟩

omit [PyFloat F] in
theorem JudgedAlike.symm
    {a b : PyValue F}
    (h : JudgedAlike a b) :
    JudgedAlike b a := by
  unfold JudgedAlike at h ⊢
  cases ha : accepted a with
  | none =>
      cases hb : accepted b with
      | none => trivial
      | some t' =>
          rw [ha, hb] at h
          exact h
  | some t =>
      cases hb : accepted b with
      | none =>
          rw [ha, hb] at h
          exact h
      | some t' =>
          rw [ha, hb] at h
          exact ⟨h.1.symm, h.2.symm⟩

/-- Equal encodings are judged alike from every ledger exactly under the
condition. -/
theorem forall_apply_eq_iff
    {a b : PyValue F}
    (henc : canonicalBytes a = canonicalBytes b) :
    (∀ l : Ledger F, (l.apply a).2 = (l.apply b).2 ∧
      ∀ account, (l.apply a).1.balances.get? account =
        (l.apply b).1.balances.get? account) ↔ JudgedAlike a b := by
  constructor
  · intro hsame
    cases ha : accepted a with
    | some t => exact judgedAlike_of_fundedBy henc ha (hsame _)
    | none =>
        cases hb : accepted b with
        | none =>
            unfold JudgedAlike
            rw [ha, hb]
            trivial
        | some t' =>
            refine (judgedAlike_of_fundedBy henc.symm hb ?_).symm
            have hother := hsame (fundedBy t')
            exact ⟨hother.1.symm, fun account => (hother.2 account).symm⟩
  · intro halike l
    obtain ⟨houtcome, hledger⟩ := (SameLedger.refl l).apply henc halike
    refine ⟨houtcome, ?_⟩
    rw [hledger.balances]
    exact fun _ => rfl

end Judgement

section Replicas

variable {F : Type} [PyFloat F]

/-- Commands: the values other than `None` that can be encoded. -/
structure Command (F : Type) [PyFloat F] where
  value : PyValue F
  text : String
  encoded : canonicalBytes value = some text
  ne_none : value ≠ .none

/-- The ledger as the state machine that the replicas execute. -/
instance : Application (Command F) where
  canonicalBytes c := c.text
  State := Ledger F
  Result := Outcome
  apply l c := l.apply c.value

/-- The commands of two nodes are judged alike. -/
def NodesAlike (b b' : Node (Command F)) : Prop :=
  ∀ c ∈ b.cmd, ∀ c' ∈ b'.cmd, JudgedAlike c.value c'.value

instance (b b' : Node (Command F)) : Decidable (NodesAlike b b') :=
  inferInstanceAs (Decidable (∀ c ∈ b.cmd, ∀ c' ∈ b'.cmd, JudgedAlike c.value c'.value))

theorem SameLedger.applyNode
    {l l' : Ledger F} {b b' : Node (Command F)}
    (h : SameLedger l l')
    (hhash : b.hash = b'.hash)
    (halike : NodesAlike b b') :
    SameLedger (@HotStuff.applyNode (Command F) _ l b) (@HotStuff.applyNode (Command F) _ l' b') := by
  have hkey : b.cmd.map cmdKey = b'.cmd.map cmdKey := by
    simp only [Node.hash, Digest.node.injEq] at hhash
    exact hhash.2.1
  unfold HotStuff.applyNode
  cases hb : b.cmd with
  | none =>
      rw [hb, Option.map_none] at hkey
      rw [Option.map_eq_none_iff.mp hkey.symm]
      exact h
  | some c =>
      rw [hb, Option.map_some] at hkey
      obtain ⟨c', hb', htext⟩ := Option.map_eq_some_iff.mp hkey.symm
      rw [hb']
      have henc : canonicalBytes c.value = canonicalBytes c'.value := by
        rw [c.encoded, c'.encoded]
        exact congrArg some htext.symm
      exact (h.apply henc (halike c hb c' hb')).2

/-- Equal hash lists of nodes that are judged alike lead to the same ledger. -/
theorem SameLedger.replay
    {l l' : Ledger F} {bs bs' : List (Node (Command F))}
    (h : SameLedger l l')
    (hhash : bs.map Node.hash = bs'.map Node.hash)
    (halike : List.Forall₂ NodesAlike bs bs') :
    SameLedger (@HotStuff.replay (Command F) _ l bs) (@HotStuff.replay (Command F) _ l' bs') := by
  induction halike generalizing l l' with
  | nil => exact h
  | cons hhead _ ih =>
      rw [List.map_cons, List.map_cons, List.cons.injEq] at hhash
      exact ih (h.applyNode hhash.1 hhead) hhash.2

/-- Replicas of Basic HotStuff that have executed the same hashes. -/
theorem sameLedger_of_committed
    {cfg cfg' : Config} {id id' : Nat} {l : Ledger F} {r r' : Replica (Command F)}
    (hr : System.Reachable (Replica.exposed cfg id (some l)) System.anyStep r)
    (hr' : System.Reachable (Replica.exposed cfg' id' (some l)) System.anyStep r')
    (hhash : r.committed.map Node.hash = r'.committed.map Node.hash)
    (halike : List.Forall₂ NodesAlike r.committed r'.committed) :
    ∃ s s', r.sm = some s ∧ r'.sm = some s' ∧ SameLedger s s' :=
  ⟨_, _, Replica.replayed_of_reachable hr, Replica.replayed_of_reachable hr',
    (SameLedger.refl l).replay hhash halike⟩

/-- Replicas of Chained HotStuff that have executed the same hashes. -/
theorem chained_sameLedger_of_committed
    {cfg cfg' : Config} {id id' : Nat} {l : Ledger F} {r r' : ChainedReplica (Command F)}
    (hr : System.Reachable (ChainedReplica.exposed cfg id (some l)) System.anyStep r)
    (hr' : System.Reachable (ChainedReplica.exposed cfg' id' (some l)) System.anyStep r')
    (hhash : r.committed.map Node.hash = r'.committed.map Node.hash)
    (halike : List.Forall₂ NodesAlike r.committed r'.committed) :
    ∃ s s', r.sm = some s ∧ r'.sm = some s' ∧ SameLedger s s' :=
  ⟨_, _, ChainedReplica.replayed_of_reachable hr, ChainedReplica.replayed_of_reachable hr',
    (SameLedger.refl l).replay hhash halike⟩

/-- **Same encoding, same judgement.**  Commands with equal encodings have the
same outcome and leave the same balances from every ledger exactly if they are
judged alike, and replicas that have executed equal hashes of commands judged
alike have the same ledger. -/
theorem same_ledger_iff_judgedAlike (F : Type) [PyFloat F] :
    (∀ (a b : PyValue F) (text : String),
      canonicalBytes a = some text → canonicalBytes b = some text →
      ((∀ l : Ledger F, (l.apply a).2 = (l.apply b).2 ∧
        ∀ account, (l.apply a).1.balances.get? account =
          (l.apply b).1.balances.get? account) ↔ JudgedAlike a b)) ∧
    (∀ (cfg cfg' : Config) (id id' : Nat) (l : Ledger F) (r r' : Replica (Command F)),
      System.Reachable (Replica.exposed cfg id (some l)) System.anyStep r →
      System.Reachable (Replica.exposed cfg' id' (some l)) System.anyStep r' →
      r.committed.map Node.hash = r'.committed.map Node.hash →
      List.Forall₂ NodesAlike r.committed r'.committed →
      ∃ s s', r.sm = some s ∧ r'.sm = some s' ∧ SameLedger s s') ∧
    (∀ (cfg cfg' : Config) (id id' : Nat) (l : Ledger F) (r r' : ChainedReplica (Command F)),
      System.Reachable (ChainedReplica.exposed cfg id (some l)) System.anyStep r →
      System.Reachable (ChainedReplica.exposed cfg' id' (some l)) System.anyStep r' →
      r.committed.map Node.hash = r'.committed.map Node.hash →
      List.Forall₂ NodesAlike r.committed r'.committed →
      ∃ s s', r.sm = some s ∧ r'.sm = some s' ∧ SameLedger s s') := by
  refine ⟨?_, ?_, ?_⟩
  · intro a b text ha hb
    exact forall_apply_eq_iff (ha.trans hb.symm)
  · intro cfg cfg' id id' l r r' hr hr' hhash halike
    exact sameLedger_of_committed hr hr' hhash halike
  · intro cfg cfg' id id' l r r' hr hr' hhash halike
    exact chained_sameLedger_of_committed hr hr' hhash halike

/-! ## A dictionary with the fields of a transfer -/

/-- Commands without floating-point numbers. -/
instance : PyFloat Empty where
  repr x := nomatch x
  le _ _ := true

def sampleTransfer : PyValue Empty :=
  .transfer ⟨pyStr "A", pyStr "B", .int 10, .int 1⟩

def sampleFields : PyValue Empty :=
  .dict [(.str (pyStr "sender"), .str (pyStr "A")), (.str (pyStr "to"), .str (pyStr "B")),
    (.str (pyStr "amount"), .int (.int 10)), (.str (pyStr "nonce"), .int (.int 1))]

theorem toJson_sampleFields : toJson sampleFields = toJson sampleTransfer := by
  rfl

/-- A tuple with the transfer and a list with the dictionary have one encoding, and
both are malformed. -/
theorem same_ledger_iff_judgedAlike_sample :
    ∀ l : Ledger Empty,
      (l.apply (.tuple [sampleTransfer])).2 = (l.apply (.list [sampleFields])).2 := by
  intro l
  have htext : ∃ text, canonicalBytes (.tuple [sampleTransfer] : PyValue Empty) = some text ∧
      canonicalBytes (.list [sampleFields] : PyValue Empty) = some text :=
    ⟨_, rfl, rfl⟩
  obtain ⟨text, ha, hb⟩ := htext
  exact (((same_ledger_iff_judgedAlike Empty).1 _ _ text ha hb).mpr trivial l).1

/-- **One encoding, two outcomes.**  The transfer succeeds where the dictionary of
its fields, with the same encoding, is malformed. -/
theorem exists_same_encoding_different_outcome :
    ∃ text, canonicalBytes sampleTransfer = some text ∧ canonicalBytes sampleFields = some text ∧
      ∃ l : Ledger Empty, (l.apply sampleTransfer).2 = .ok ∧
        (l.apply sampleFields).2 = .malformed := by
  refine ⟨_, rfl, ?_, Ledger.new (Dict.empty.set (pyStr "A") 100), ?_, rfl⟩
  · unfold canonicalBytes
    rw [toJson_sampleFields]
    rfl
  · decide +kernel

end Replicas

end HotStuff
end DistributedConsensus
