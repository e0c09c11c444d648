import DistributedConsensus.GoHotStuff.StateMachine
import DistributedConsensus.Foundations.MapOrder
import Mathlib.Data.List.Sort
import Mathlib.Data.String.Basic

/-!
# Go HotStuff: messages, certificates and the shared services

The nodes of one process share a network with a store of tree nodes, and a
verifier that keeps a record for every combined certificate.  A certificate
carries the token of its record.

A signature names its signer and what it signs; all other bytes are no
signature.  The digest of a tree node and the token of a certificate are
functions of the hashed contents.
-/

namespace DistributedConsensus
namespace GoHotStuff

open Foundations

def genesisHash : String := "GENESIS"

inductive MsgType where
  | newView
  | prepare
  | preCommit
  | commit
  | decide
  | other (s : String)
  deriving DecidableEq

structure TreeNode where
  parentHash : String
  cmd : Command
  hash : String
  proposedView : ℤ
  deriving DecidableEq

structure QuorumCertificate where
  type : MsgType
  viewNumber : ℤ
  nodeHash : String
  thresholdSignature : String
  deriving DecidableEq

/-- A signature of `signer` on the payload of a vote. -/
structure Signature where
  signer : String
  type : MsgType
  viewNumber : ℤ
  nodeHash : String
  deriving DecidableEq

structure SignatureShare where
  signerID : String
  signature : Option Signature
  deriving DecidableEq

structure Message where
  type : MsgType
  viewNumber : ℤ
  node : Option TreeNode
  justify : Option QuorumCertificate
  senderID : String
  partialSig : Option SignatureShare
  isVote : Bool
  deriving DecidableEq

/-- The nodes of a network and the digests. -/
structure Config where
  nodeIDs : List String
  /-- The digest of a parent hash and a command. -/
  hash : String → Command → String
  /-- The token of a certificate with the given signatures. -/
  token : MsgType → ℤ → String → List (String × Option Signature) → String

namespace Config

variable (cfg : Config)

def quorum : ℕ := cfg.nodeIDs.length - (cfg.nodeIDs.length - 1) / 3

def leaderForView (viewNumber : ℤ) : String :=
  if viewNumber < 1 ∨ cfg.nodeIDs.length = 0 then ""
  else cfg.nodeIDs.getD ((viewNumber - 1) % cfg.nodeIDs.length).toNat ""

def hashNode (node : TreeNode) : String := cfg.hash node.parentHash node.cmd

end Config

/-! ## The verifier -/

structure CertificateRecord where
  type : MsgType
  viewNumber : ℤ
  nodeHash : String
  shares : Dict String SignatureShare

section Verifier

variable (cfg : Config)

def isMember (nodeID : String) : Bool := decide (nodeID ∈ cfg.nodeIDs)

def verifyShare (share : SignatureShare) (type : MsgType) (viewNumber : ℤ)
    (nodeHash : String) : Bool :=
  isMember cfg share.signerID &&
    decide (share.signature = some ⟨share.signerID, type, viewNumber, nodeHash⟩)

/-- Every share is stored under its signer and signs the given vote. -/
def sharesValid (shares : Dict String SignatureShare) (type : MsgType) (viewNumber : ℤ)
    (nodeHash : String) : Bool :=
  shares.entries.all fun p =>
    decide (p.1 = p.2.signerID) && verifyShare cfg p.2 type viewNumber nodeHash

/-- The token of the shares, in the order of their signers. -/
def tokenOf (type : MsgType) (viewNumber : ℤ) (nodeHash : String)
    (shares : Dict String SignatureShare) : String :=
  cfg.token type viewNumber nodeHash
    ((shares.entries.insertionSort fun p q => p.1 ≤ q.1).map fun p => (p.1, p.2.signature))

/-- `Combine`: the token and the certificates with the new record. -/
def combine (certificates : Dict String CertificateRecord) (type : MsgType) (viewNumber : ℤ)
    (nodeHash : String) (shares : Dict String SignatureShare) :
    Option (String × Dict String CertificateRecord) :=
  if shares.size < cfg.quorum then none
  else if sharesValid cfg shares type viewNumber nodeHash then
    let token := tokenOf cfg type viewNumber nodeHash shares
    some (token, certificates.set token ⟨type, viewNumber, nodeHash, shares⟩)
  else none

def verifyQC (certificates : Dict String CertificateRecord) (qc : QuorumCertificate) : Bool :=
  if qc.thresholdSignature = "" then false
  else
    match certificates.get? qc.thresholdSignature with
    | none => false
    | some record =>
        decide (record.type = qc.type ∧ record.viewNumber = qc.viewNumber ∧
          record.nodeHash = qc.nodeHash) &&
        decide (cfg.quorum ≤ record.shares.size) &&
        sharesValid cfg record.shares qc.type qc.viewNumber qc.nodeHash

end Verifier

/-! ## The node store -/

/-- `Network.NodeStore`: every node is stored under its hash. -/
structure NodeStore where
  nodes : Dict String TreeNode
  keyed : ∀ h node, nodes.get? h = some node → node.hash = h

namespace NodeStore

def empty : NodeStore := ⟨Dict.empty, fun _ _ h => by cases h⟩

/-- `StoreNode`: the first node with a hash stays. -/
def storeNode (store : NodeStore) (node : TreeNode) : NodeStore :=
  if node.hash = "" ∨ store.nodes.contains node.hash then store
  else
    { nodes := store.nodes.set node.hash node
      keyed := by
        intro h x hx
        rw [Dict.get?_set] at hx
        split at hx
        case isTrue heq =>
          cases hx
          exact heq.symm
        case isFalse => exact store.keyed h x hx }

def fetchNode (store : NodeStore) (nodeHash : String) : Option TreeNode :=
  store.nodes.get? nodeHash

end NodeStore

/-- A vote as it was signed: `current` is the view of the voter at that moment. -/
structure Ballot where
  voter : String
  current : ℤ
  phase : MsgType
  viewNumber : ℤ
  nodeHash : String
  deriving DecidableEq

/-- The services that the nodes share, the messages sent to each receiver, and the
votes signed so far, the latest first. -/
structure Shared where
  nodeStore : NodeStore
  certificates : Dict String CertificateRecord
  sent : List (String × Message)
  signed : List Ballot

namespace Shared

def empty : Shared := ⟨NodeStore.empty, Dict.empty, [], []⟩

end Shared

/-! ## What a valid certificate says -/

section Valid

variable {cfg : Config} {type : MsgType} {viewNumber : ℤ} {nodeHash : String}

theorem verifyShare_iff
    {share : SignatureShare} :
    verifyShare cfg share type viewNumber nodeHash = true ↔
      share.signerID ∈ cfg.nodeIDs ∧
        share.signature = some ⟨share.signerID, type, viewNumber, nodeHash⟩ := by
  simp [verifyShare, isMember]

theorem sharesValid_iff
    {shares : Dict String SignatureShare} :
    sharesValid cfg shares type viewNumber nodeHash = true ↔
      ∀ id share, shares.get? id = some share →
        id = share.signerID ∧ id ∈ cfg.nodeIDs ∧
          share.signature = some ⟨id, type, viewNumber, nodeHash⟩ := by
  unfold sharesValid
  rw [List.all_eq_true]
  constructor
  · intro h id share hget
    have hentry := h _ (Dict.mem_entries_of_get? hget)
    rw [Bool.and_eq_true, decide_eq_true_eq, verifyShare_iff] at hentry
    obtain ⟨heq, hmem, hsig⟩ := hentry
    simp only at heq hmem hsig
    subst heq
    exact ⟨rfl, hmem, hsig⟩
  · rintro h ⟨id, share⟩ hentry
    obtain ⟨rfl, hmem, hsig⟩ := h id share (Dict.get?_of_mem_entries hentry)
    rw [Bool.and_eq_true, decide_eq_true_eq, verifyShare_iff]
    exact ⟨rfl, hmem, hsig⟩

theorem combine_eq_some
    {certificates certificates' : Dict String CertificateRecord}
    {shares : Dict String SignatureShare} {token : String}
    (h : combine cfg certificates type viewNumber nodeHash shares = some (token, certificates')) :
    sharesValid cfg shares type viewNumber nodeHash = true ∧
      certificates' = certificates.set token ⟨type, viewNumber, nodeHash, shares⟩ := by
  simp only [combine] at h
  split at h
  case isTrue => cases h
  case isFalse =>
    split at h
    case isTrue hvalid =>
      cases h
      exact ⟨hvalid, rfl⟩
    case isFalse => cases h

/-- A valid certificate has a record with the shares of a quorum. -/
theorem verifyQC_iff
    {certificates : Dict String CertificateRecord} {qc : QuorumCertificate} :
    verifyQC cfg certificates qc = true ↔
      qc.thresholdSignature ≠ "" ∧
        ∃ shares, certificates.get? qc.thresholdSignature
            = some ⟨qc.type, qc.viewNumber, qc.nodeHash, shares⟩ ∧
          cfg.quorum ≤ shares.size ∧
          sharesValid cfg shares qc.type qc.viewNumber qc.nodeHash = true := by
  unfold verifyQC
  by_cases htoken : qc.thresholdSignature = ""
  · simp [htoken]
  · rw [if_neg htoken]
    cases hget : certificates.get? qc.thresholdSignature with
    | none => simp
    | some record =>
        obtain ⟨t, v, x, shares⟩ := record
        simp only [Bool.and_eq_true, decide_eq_true_eq, Option.some.injEq,
          CertificateRecord.mk.injEq]
        constructor
        · rintro ⟨⟨⟨ht, hv, hx⟩, hsize⟩, hvalid⟩
          exact ⟨htoken, shares, ⟨ht, hv, hx, rfl⟩, hsize, hvalid⟩
        · rintro ⟨-, shares', ⟨ht, hv, hx, rfl⟩, hsize, hvalid⟩
          exact ⟨⟨⟨ht, hv, hx⟩, hsize⟩, hvalid⟩

end Valid

end GoHotStuff
end DistributedConsensus
