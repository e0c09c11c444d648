import DistributedConsensus.Foundations.MapOrder
import Mathlib.Data.Int.Notation
import Mathlib.Data.List.Dedup

/-!
# PBFT simulator: messages and the decision of a view change

`message.go`, and from `node.go` the functions that look at VIEW-CHANGE messages
only.  A message of the source has the fields of all types; here every type has
the fields that are set for it, without the water mark, which is always zero.

Go iterates over a map in an unspecified order: a loop whose result may depend on
it takes the order as an argument.
-/

namespace DistributedConsensus
namespace PbftSimulator

open Foundations

/-! ## Messages -/

structure PQEntry where
  sequence : ℤ
  digest : String
  view : ℤ
deriving DecidableEq

structure XEntry where
  sequence : ℤ
  digest : String
  payload : String
deriving DecidableEq

structure VCEntry where
  replicaID : ℤ
  digest : String
deriving DecidableEq

structure Request where
  senderID : ℤ
  digest : String
  payload : String
  timestamp : ℤ
deriving DecidableEq

structure PrePrepare where
  view : ℤ
  sequence : ℤ
  digest : String
  senderID : ℤ
  payload : String
deriving DecidableEq

/-- A PREPARE or a COMMIT. -/
structure Vote where
  view : ℤ
  sequence : ℤ
  digest : String
  senderID : ℤ
deriving DecidableEq

structure ViewChange where
  view : ℤ
  senderID : ℤ
  pSet : List PQEntry
  qSet : List PQEntry
deriving DecidableEq

structure ViewChangeAck where
  view : ℤ
  senderID : ℤ
  ackTarget : ℤ
  ackDigest : String
deriving DecidableEq

structure NewView where
  view : ℤ
  senderID : ℤ
  vSet : List VCEntry
  xSet : List XEntry
deriving DecidableEq

structure FetchViewChange where
  view : ℤ
  senderID : ℤ
  ackTarget : ℤ
deriving DecidableEq

structure Reply where
  view : ℤ
  senderID : ℤ
  payload : String
  timestamp : ℤ
deriving DecidableEq

inductive Message where
  | request (m : Request)
  | prePrepare (m : PrePrepare)
  | prepare (m : Vote)
  | commit (m : Vote)
  | viewChange (m : ViewChange)
  | viewChangeAck (m : ViewChangeAck)
  | newView (m : NewView)
  | fetchViewChange (m : FetchViewChange)
deriving DecidableEq

/-- The replica or the client that a message names as its sender. -/
def Message.senderID : Message → ℤ
  | request m => m.senderID
  | prePrepare m => m.senderID
  | prepare m | commit m => m.senderID
  | viewChange m => m.senderID
  | viewChangeAck m => m.senderID
  | newView m => m.senderID
  | fetchViewChange m => m.senderID

/-! ## VIEW-CHANGE messages -/

/-- The text of an entry under `%v`. -/
def PQEntry.format (e : PQEntry) : String :=
  "\x7b" ++ toString e.sequence ++ " " ++ e.digest ++ " " ++ toString e.view ++ "\x7d"

/-- The text of a slice under `%v`. -/
def formatEntries (entries : List PQEntry) : String :=
  "[" ++ String.intercalate " " (entries.map PQEntry.format) ++ "]"

def viewChangeDigest (msg : ViewChange) : String :=
  "vc-" ++ toString msg.view ++ "-" ++ toString msg.senderID ++ "-" ++ formatEntries msg.pSet ++
    "-" ++ formatEntries msg.qSet

/-- The entries are of earlier views than the message. -/
def correctViewChange (msg : ViewChange) : Bool :=
  msg.pSet.all (fun p => decide (p.view < msg.view)) &&
    msg.qSet.all (fun q => decide (q.view < msg.view))

/-! ## The decision procedure -/

/-- The size of a quorum among `3F + 1` replicas. -/
def quorumSize (F : ℕ) : ℕ := 2 * F + 1

/-- The size of a set with a correct replica. -/
def weakSize (F : ℕ) : ℕ := F + 1

/-- The entry that stands for the message in condition A. -/
def ViewChange.candidate (m : ViewChange) (seq : ℤ) : Option PQEntry :=
  m.pSet.find? (fun p => decide (p.sequence = seq))

theorem ViewChange.candidate_spec
    {m : ViewChange} {seq : ℤ} {c : PQEntry}
    (h : c ∈ m.candidate seq) :
    c ∈ m.pSet ∧ c.sequence = seq := by
  unfold candidate at h
  exact ⟨List.mem_of_find?_eq_some h, by simpa using List.find?_some h⟩

/-- The message has no entry that speaks against the candidate. -/
def ViewChange.supports (seq : ℤ) (c : PQEntry) (m : ViewChange) : Bool :=
  m.pSet.all (fun p => !(decide (p.sequence = seq) &&
    !(decide (p.view < c.view) || (decide (p.view = c.view) && decide (p.digest = c.digest)))))

/-- The sender has pre-prepared the candidate. -/
def ViewChange.vouches (seq : ℤ) (c : PQEntry) (m : ViewChange) : Bool :=
  m.qSet.any (fun q => decide (q.sequence = seq) && decide (q.digest = c.digest) &&
    decide (c.view ≤ q.view))

/-- Conditions A1 and A2. -/
def conditionA (F : ℕ) (S : List ViewChange) (seq : ℤ) (c : PQEntry) : Bool :=
  decide (quorumSize F ≤ S.countP (ViewChange.supports seq c)) &&
    decide (weakSize F ≤ S.countP (ViewChange.vouches seq c))

/-- The message has prepared nothing for the sequence number. -/
def ViewChange.lacks (seq : ℤ) (m : ViewChange) : Bool :=
  !m.pSet.any (fun p => decide (p.sequence = seq))

def conditionB (F : ℕ) (S : List ViewChange) (seq : ℤ) : Bool :=
  decide (quorumSize F ≤ S.countP (ViewChange.lacks seq))

/-- The decision for a sequence number: the first candidate that satisfies
condition A, in the order in which the messages are visited. -/
def decideSequence (F : ℕ) (visited S : List ViewChange) (seq : ℤ) : Option String :=
  match (visited.filterMap (ViewChange.candidate · seq)).find? (conditionA F S seq) with
  | some c => some c.digest
  | none => if conditionB F S seq then some "null" else none

/-- The sequence numbers that the messages mention. -/
def seqSet (S : List ViewChange) : List ℤ :=
  (S.flatMap (fun vc => vc.pSet.map PQEntry.sequence ++ vc.qSet.map PQEntry.sequence)).dedup

theorem mem_seqSet {S : List ViewChange} {seq : ℤ} :
    seq ∈ seqSet S ↔ ∃ vc ∈ S, ∃ e, (e ∈ vc.pSet ∨ e ∈ vc.qSet) ∧ e.sequence = seq := by
  unfold seqSet
  rw [List.mem_dedup, List.mem_flatMap]
  constructor
  · rintro ⟨vc, hvc, h⟩
    rw [List.mem_append, List.mem_map, List.mem_map] at h
    rcases h with ⟨e, he, rfl⟩ | ⟨e, he, rfl⟩
    · exact ⟨vc, hvc, e, Or.inl he, rfl⟩
    · exact ⟨vc, hvc, e, Or.inr he, rfl⟩
  · rintro ⟨vc, hvc, e, he, rfl⟩
    refine ⟨vc, hvc, ?_⟩
    rw [List.mem_append, List.mem_map, List.mem_map]
    exact he.imp (fun he => ⟨e, he, rfl⟩) (fun he => ⟨e, he, rfl⟩)

/-- The orders of the loops over maps in one pass of a handler. -/
structure Orders where
  /-- The VIEW-CHANGE messages, when a sequence number is decided. -/
  replicas : ℤ → MapOrder ℤ
  /-- The VIEW-CHANGE messages, when the V set is built. -/
  qualified : MapOrder ℤ
  /-- The sequence numbers that are decided, and the decisions. -/
  sequences : MapOrder ℤ
  /-- The sequence numbers of the P set. -/
  preparedSent : MapOrder ℤ
  /-- The sequence numbers of the Q set. -/
  enteredPrePrepared : MapOrder ℤ

/-- The order of insertion everywhere. -/
def Orders.insertion : Orders :=
  ⟨fun _ => .insertion ℤ, .insertion ℤ, .insertion ℤ, .insertion ℤ, .insertion ℤ⟩

structure Decision where
  h : ℤ
  decisions : Dict ℤ String
  complete : Bool

/-- Decide the sequence numbers one after another. -/
def decideAll (F : ℕ) (o : Orders) (S : Dict ℤ ViewChange) : List ℤ → Dict ℤ String
  | [] => Dict.empty
  | seq :: rest =>
      match decideSequence F ((S.inOrder (o.replicas seq)).map Prod.snd) S.values seq with
      | some digest => (decideAll F o S rest).set seq digest
      | none => decideAll F o S rest

/-- The decisions about the requests that earlier views have left. -/
def decisionProcedure (F : ℕ) (o : Orders) (S : Dict ℤ ViewChange) : Decision :=
  let sequences := seqSet S.values
  let decisions := decideAll F o S (o.sequences.arrange sequences)
  ⟨0, decisions, decide (decisions.size = sequences.length)⟩

/-- The X set of the primary: the decisions with the payloads that it knows. -/
def xEntries (requestLog : Dict String Request) (o : Orders) (decisions : Dict ℤ String) :
    List XEntry :=
  (decisions.inOrder o.sequences).map fun p =>
    ⟨p.1, p.2, if p.2 = "null" then "" else ((requestLog.get? p.2).map Request.payload).getD ""⟩

/-- A backup's own decision agrees with the X set of the primary. -/
def Decision.agreesWith (d : Decision) (xSet : List XEntry) : Bool :=
  d.complete && decide (d.decisions.size = xSet.length) &&
    xSet.all (fun x => decide (d.decisions.getD x.sequence "" = x.digest))

end PbftSimulator
end DistributedConsensus
