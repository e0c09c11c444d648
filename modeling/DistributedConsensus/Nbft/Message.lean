import Mathlib.Data.List.Dedup
import Mathlib.Data.List.Sort
import Mathlib.Data.String.Basic
import Mathlib.Data.Int.Notation

/-!
# NBFT: parameters, signatures and messages

A signature is the readable token `node~digest`; the signer is what stands before the
first `~`.  Nothing in the token tells the view or the sequence number.

The hash functions are parameters of the model.
-/

namespace DistributedConsensus
namespace Nbft

/-- Derived parameters for a network of `n` nodes grouped by `m`, as the constructor
accepts them. -/
structure ConsensusParams where
  n : ℕ
  m : ℕ
  le_m : 4 ≤ m
  m_mod : (m - 1) % 3 = 0
  enough_groups : 4 ≤ (n - 1) / m

namespace ConsensusParams

variable (p : ConsensusParams)

/-- Number of consensus groups. -/
def R : ℕ := (p.n - 1) / p.m

/-- Byzantine nodes tolerated inside a single group. -/
def E : ℕ := (p.m - 1) / 3

/-- Groups whose consensus may fail without breaking the network. -/
def w : ℕ := (p.R - 1) / 3

/-- Upper bound of the fault-tolerance interval. -/
def T : ℕ := p.w * p.m + (p.R - p.w) * p.E

/-- Signatures a representative must aggregate. -/
def sigQuorum : ℕ := 2 * p.E + 1

/-- Valid signatures needed for a group to count as `m` votes. -/
def fullVoteQuorum : ℕ := p.m - p.E

/-- Network-wide vote threshold in out-prepare. -/
def voteThreshold : ℕ := (p.R - p.w) * p.m

/-- Minimum distinct signatures a network-wide proof must carry. -/
def proofQuorum : ℕ := (p.R - p.w) * p.fullVoteQuorum

theorem m_pos : 0 < p.m := by
  have := p.le_m
  omega

theorem two_le_n : 2 ≤ p.n := by
  have hgroups := p.enough_groups
  by_contra hlt
  rw [show p.n - 1 = 0 by omega, Nat.zero_div] at hgroups
  omega

theorem grouped_lt_n : p.R * p.m < p.n := by
  have hdiv : p.R * p.m ≤ p.n - 1 := Nat.div_mul_le_self (p.n - 1) p.m
  have htwo := p.two_le_n
  omega

theorem fullVoteQuorum_le_m : p.fullVoteQuorum ≤ p.m := Nat.sub_le p.m p.E

end ConsensusParams

/-- The functions of `hashlib` that the program uses. -/
structure Hashes where
  sha256 : String → String
  ringHash : String → ℕ

def Hashes.genesisHash (h : Hashes) : String := h.sha256 "nbft-genesis"

/-- Digest of a client request. -/
def payloadDigest (h : Hashes) (payload : String) : String :=
  String.ofList ((h.sha256 payload).toList.take 16)

/-! ## Signatures -/

def sign (nodeId digest : String) : String := nodeId ++ "~" ++ digest

def sigSigner (sig : String) : String := String.ofList (sig.toList.takeWhile (· ≠ '~'))

def sigValid (sig digest : String) : Bool :=
  decide (sig.toList.dropWhile (· ≠ '~') = '~' :: digest.toList)

/-- The name has no separator of signatures inside. -/
def Plain (nodeId : String) : Prop := '~' ∉ nodeId.toList

instance (nodeId : String) : Decidable (Plain nodeId) :=
  inferInstanceAs (Decidable ('~' ∉ nodeId.toList))

theorem toList_sign (nodeId digest : String) :
    (sign nodeId digest).toList = nodeId.toList ++ '~' :: digest.toList := by
  simp [sign]

theorem takeWhile_append_cons
    {l rest : List Char}
    (h : '~' ∉ l) :
    (l ++ '~' :: rest).takeWhile (· ≠ '~') = l := by
  induction l with
  | nil => simp
  | cons c l ih =>
      rw [List.mem_cons, not_or] at h
      have hc : c ≠ '~' := fun heq => h.1 heq.symm
      rw [List.cons_append, List.takeWhile_cons_of_pos (by simpa using hc), ih h.2]

theorem dropWhile_append_cons
    {l rest : List Char}
    (h : '~' ∉ l) :
    (l ++ '~' :: rest).dropWhile (· ≠ '~') = '~' :: rest := by
  induction l with
  | nil => simp
  | cons c l ih =>
      rw [List.mem_cons, not_or] at h
      have hc : c ≠ '~' := fun heq => h.1 heq.symm
      rw [List.cons_append, List.dropWhile_cons_of_pos (by simpa using hc), ih h.2]

/-- The signer of a signature. -/
theorem sigSigner_sign
    {nodeId digest : String}
    (h : Plain nodeId) :
    sigSigner (sign nodeId digest) = nodeId := by
  rw [sigSigner, toList_sign, takeWhile_append_cons h, String.ofList_toList]

theorem sigValid_sign
    {nodeId digest : String}
    (h : Plain nodeId) :
    sigValid (sign nodeId digest) digest = true := by
  rw [sigValid, toList_sign, dropWhile_append_cons h]
  exact decide_eq_true rfl

/-! ## Messages -/

inductive MsgType
  | request
  | preprepare1
  | inPrepare1
  | inPrepare2
  | outPrepare
  | commit
  | preprepare2
  | reply
  | viewChange
deriving DecidableEq

/-- One record for every phase; fields that a phase does not use stay at their
defaults. -/
structure Message where
  type : MsgType
  sender : String
  view : ℤ
  seq : ℤ
  digest : String := ""
  payload : String := ""
  signatures : List String := []
  group : Option ℕ := none
  votes : ℤ := 0
  newView : Option ℤ := none
deriving DecidableEq

/-- The distinct signatures of `digest`, in order. -/
def validSignatures (signatures : List String) (digest : String) : List String :=
  (signatures.filter fun sig => sigValid sig digest).dedup.insertionSort (· ≤ ·)

/-- The proof check of the primary. -/
def commitAccepted (p : ConsensusParams) (msg : Message) : Bool :=
  decide (p.voteThreshold ≤ msg.votes) &&
    decide (p.proofQuorum ≤ (validSignatures msg.signatures msg.digest).length)

/-- The proof check of the other nodes. -/
def preprepare2Accepted (p : ConsensusParams) (msg : Message) : Bool :=
  decide (p.voteThreshold ≤ msg.votes) &&
    decide (p.proofQuorum ≤
      ((msg.signatures.filter fun sig => sigValid sig msg.digest).map sigSigner).dedup.length)

theorem mem_validSignatures
    {signatures : List String} {digest sig : String} :
    sig ∈ validSignatures signatures digest ↔ sig ∈ signatures ∧ sigValid sig digest = true := by
  simp [validSignatures]

end Nbft
end DistributedConsensus
