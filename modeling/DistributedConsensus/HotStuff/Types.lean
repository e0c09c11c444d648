import Mathlib.Data.List.Infix
import Mathlib.Order.Defs.Unbundled

/-!
# HotStuff: hashes, nodes, certificates and messages

The data model of `hotstuff/types.py` and `hotstuff/tree.py`.

A node hash is SHA-256 over the canonical encoding of the parent hash, the
command and the view.  The hash is assumed to be collision free, so a digest is
represented by the triple it was computed from.  A string that is not the hash
of a node is a `text`, and `absent` is the missing hash of a node without a
parent.  The `justify` field of a node is not part of its hash.

A signature is represented by the key and the triple it was made for, or it is
a byte string that no key produced.
-/

namespace DistributedConsensus
namespace HotStuff

/-- Message and certificate tags. -/
inductive MsgType where
  | newView
  | prepare
  | preCommit
  | commit
  | decide
  | generic
  | syncReq
  | syncResp
deriving DecidableEq, Repr

/-- An optional hash string, with collision-free hashing of nodes. -/
inductive Digest where
  | absent
  | text (s : String)
  | node (parent : Digest) (cmd : Option String) (view : Int)
deriving DecidableEq, Repr

/-- Certificates are formed once for a type, a view and a hash. -/
instance lawfulBEqCertificateKey : LawfulBEq (MsgType × Int × Digest) := inferInstance

/-- Votes are collected by view and hash. -/
instance lawfulBEqVoteKey : LawfulBEq (Int × Digest) := inferInstance

namespace Digest

/-- Python truth value of an optional string. -/
def truthy : Digest → Bool
  | .absent => false
  | .text s => s ≠ ""
  | .node _ _ _ => true

/-- The hashes on the parent chain, starting with the hash itself. -/
def ancestors : Digest → List Digest
  | .node p c v => .node p c v :: ancestors p
  | d => [d]

/-- The second hash lies on the parent chain of the first. -/
def Extends (d a : Digest) : Prop := a ∈ ancestors d

instance (d a : Digest) : Decidable (Extends d a) :=
  inferInstanceAs (Decidable (a ∈ ancestors d))

theorem Extends.refl (d : Digest) : Extends d d := by
  cases d <;> simp [Extends, ancestors]

/-- One step up the parent chain. -/
theorem extends_node_iff
    {p : Digest} {c : Option String} {v : Int} {a : Digest} :
    Extends (.node p c v) a ↔ a = .node p c v ∨ Extends p a := by
  simp [Extends, ancestors]

theorem Extends.trans
    {a b c : Digest}
    (hab : Extends a b)
    (hbc : Extends b c) :
    Extends a c := by
  induction a with
  | absent =>
      simp only [Extends, ancestors, List.mem_singleton] at hab
      subst hab
      exact hbc
  | text s =>
      simp only [Extends, ancestors, List.mem_singleton] at hab
      subst hab
      exact hbc
  | node p cmd v ih =>
      rcases extends_node_iff.mp hab with rfl | hab
      · exact hbc
      · exact extends_node_iff.mpr (Or.inr (ih hab))

/-- The ancestors of an ancestor are the tail of the parent chain. -/
theorem ancestors_suffix_of_extends
    {d a : Digest}
    (h : Extends d a) :
    ancestors a <:+ ancestors d := by
  induction d with
  | absent =>
      simp only [Extends, ancestors, List.mem_singleton] at h
      subst h
      exact List.suffix_refl _
  | text s =>
      simp only [Extends, ancestors, List.mem_singleton] at h
      subst h
      exact List.suffix_refl _
  | node p c v ih =>
      rcases extends_node_iff.mp h with rfl | h
      · exact List.suffix_refl _
      · exact (ih h).trans (List.suffix_cons _ _)

theorem head?_ancestors (d : Digest) : (ancestors d).head? = some d := by
  cases d <;> rfl

/-- Two hashes that extend each other are equal. -/
theorem Extends.antisymm
    {a b : Digest}
    (hab : Extends a b)
    (hba : Extends b a) :
    a = b := by
  have hsuf := ancestors_suffix_of_extends hab
  have hsuf' := ancestors_suffix_of_extends hba
  have heq : ancestors a = ancestors b :=
    hsuf'.eq_of_length (Nat.le_antisymm hsuf'.length_le hsuf.length_le)
  have hhead := congrArg List.head? heq
  rw [head?_ancestors, head?_ancestors] at hhead
  exact Option.some.inj hhead

instance : IsPreorder Digest Extends where
  refl := Extends.refl
  trans _ _ _ := Extends.trans

end Digest

/-- The part of the system that HotStuff does not look into: how a command is
encoded, and the replicated state machine that executes commands. -/
class Application (Cmd : Type) where
  /-- `canonical_bytes` of a command. -/
  canonicalBytes : Cmd → String
  /-- States of the replicated state machine. -/
  State : Type
  /-- Outcomes reported to clients. -/
  Result : Type
  /-- Execute one command. -/
  apply : State → Cmd → State × Result

/-- Commands that are given by their encoding and executed by logging them. -/
instance : Application String where
  canonicalBytes := id
  State := List String
  Result := Nat
  apply log cmd := (log ++ [cmd], log.length)

/-- Stable identity of a command. -/
def cmdKey {Cmd : Type} [Application Cmd] (cmd : Cmd) : String :=
  Application.canonicalBytes cmd

/-- A signature, or bytes that no key produced. -/
inductive Sig where
  | signed (key : Nat) (type : MsgType) (view : Int) (nodeHash : Digest)
  | junk (bytes : Nat)
deriving DecidableEq, Repr

/-- Quorum certificate over a type, a view and a node hash. -/
structure QC where
  type : MsgType
  viewNumber : Int
  nodeHash : Digest
  sigs : List (Int × Sig)
deriving DecidableEq, Repr

/-- A block of the tree. -/
structure Node (Cmd : Type) where
  parentHash : Digest
  cmd : Option Cmd
  viewNumber : Int
  justify : Option QC
deriving DecidableEq, Repr

/-- The hash of a node; its `justify` field is excluded. -/
def Node.hash {Cmd : Type} [Application Cmd] (b : Node Cmd) : Digest :=
  .node b.parentHash (b.cmd.map cmdKey) b.viewNumber

/-- Contents of the catch-up messages. -/
inductive Payload (Cmd : Type) where
  | none
  | hash (nodeHash : Digest)
  | nodes (chain : List (Node Cmd))
deriving DecidableEq, Repr

/-- A protocol message. -/
structure Msg (Cmd : Type) where
  type : MsgType
  viewNumber : Int
  sender : Int
  node : Option (Node Cmd)
  justify : Option QC
  partialSig : Option (Int × Sig)
  payload : Payload Cmd
deriving DecidableEq, Repr

/-- The certificate has the given type and view. -/
def matchingQc (qc : Option QC) (t : MsgType) (v : Int) : Bool :=
  match qc with
  | some qc => qc.type = t && qc.viewNumber = v
  | none => false

/-- The genesis block. -/
def genesis {Cmd : Type} : Node Cmd where
  parentHash := .absent
  cmd := none
  viewNumber := 0
  justify := none

/-- The hash of the genesis block. -/
def genesisHash : Digest := .node .absent none 0

@[simp] theorem genesis_hash {Cmd : Type} [Application Cmd] :
    (genesis : Node Cmd).hash = genesisHash := rfl

/-- The certificate of the genesis block; it carries no signatures. -/
def genesisQc : QC where
  type := .prepare
  viewNumber := 0
  nodeHash := genesisHash
  sigs := []

namespace Digest

/-- The branch from the genesis block to a hash, oldest first and without the
genesis block. -/
def path : Digest → List Digest
  | .node p c v =>
      if (.node p c v : Digest) = genesisHash then []
      else path p ++ [.node p c v]
  | _ => []

@[simp] theorem path_genesisHash : path genesisHash = [] := by
  simp [genesisHash, path]

/-- A branch grows by one hash at a time. -/
theorem path_node
    {p : Digest} {c : Option String} {v : Int}
    (h : (.node p c v : Digest) ≠ genesisHash) :
    path (.node p c v) = path p ++ [.node p c v] := by
  simp [path, h]

/-- The branch of an ancestor is a prefix. -/
theorem path_prefix_of_extends
    {d a : Digest}
    (h : Extends d a) :
    path a <+: path d := by
  induction d with
  | absent =>
      simp only [Extends, ancestors, List.mem_singleton] at h
      subst h
      exact List.prefix_refl _
  | text s =>
      simp only [Extends, ancestors, List.mem_singleton] at h
      subst h
      exact List.prefix_refl _
  | node p c v ih =>
      rcases extends_node_iff.mp h with rfl | h
      · exact List.prefix_refl _
      · by_cases hg : (.node p c v : Digest) = genesisHash
        · -- The only proper ancestor of the genesis block is the missing hash.
          have hp : p = .absent := by
            have hg' := hg
            simp only [genesisHash, Digest.node.injEq] at hg'
            exact hg'.1
          subst hp
          simp only [Extends, ancestors, List.mem_singleton] at h
          subst h
          simp [path]
        · rw [path_node hg]
          exact (ih h).trans (List.prefix_append _ _)

/-- A hash whose parent chain reaches the genesis block. -/
def Rooted (d : Digest) : Prop := Extends d genesisHash

/-- The tip of a branch belongs to it, unless it is the genesis block. -/
theorem mem_path_self
    {p : Digest} {c : Option String} {v : Int}
    (h : (.node p c v : Digest) ≠ genesisHash) :
    (.node p c v : Digest) ∈ path (.node p c v) := by
  rw [path_node h]
  simp

/-- Every rooted ancestor is the genesis block or lies on the branch. -/
theorem mem_path_of_extends
    {d a : Digest}
    (h : Extends d a)
    (ha : Rooted a) :
    a = genesisHash ∨ a ∈ path d := by
  cases a with
  | absent =>
      simp [Rooted, Extends, ancestors, genesisHash] at ha
  | text s =>
      simp [Rooted, Extends, ancestors, genesisHash] at ha
  | node p c v =>
      by_cases hg : (.node p c v : Digest) = genesisHash
      · exact Or.inl hg
      · exact Or.inr ((path_prefix_of_extends h).subset (mem_path_self hg))

/-- Every hash of a branch is an ancestor of its tip. -/
theorem extends_of_mem_path
    {d a : Digest}
    (h : a ∈ path d) :
    Extends d a := by
  induction d with
  | absent => simp [path] at h
  | text s => simp [path] at h
  | node p c v ih =>
      by_cases hg : (.node p c v : Digest) = genesisHash
      · rw [hg] at h
        simp at h
      · rw [path_node hg, List.mem_append, List.mem_singleton] at h
        rcases h with h | rfl
        · exact extends_node_iff.mpr (Or.inr (ih h))
        · exact Extends.refl _

end Digest

end HotStuff
end DistributedConsensus
