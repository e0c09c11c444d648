import DistributedConsensus.Foundations.Nodes
import DistributedConsensus.Nbft.Steps

/-!
# NBFT: one chain for all

All nodes run the program; a message reaches its recipient after any delay or never.
A VIEW-CHANGE carries no record of blocks and a PREPREPARE2 is accepted whatever its
sequence number, so that chains can fork.

They do not in the runs in which a node appends a block only under the next number,
and a primary accepts a COMMIT only when it has every block that another node has.
-/

namespace DistributedConsensus
namespace Nbft

open Foundations

variable (S : Setting)

/-- The message is a request of the client, or was sent to the node. -/
def Received (w : String → Node) (i : String) (msg : Message) : Prop :=
  (msg.type = .request ∧ msg.sender = "client") ∨
    (msg.sender ∈ S.ring.ids ∧ (i, msg) ∈ (w msg.sender).sent)

instance (w : String → Node) (i : String) (msg : Message) : Decidable (Received S w i msg) :=
  inferInstanceAs (Decidable (_ ∨ _))

/-- The event can happen at the node. -/
def Happens (w : String → Node) (i : String) : Event → Prop
  | .deliver msg => i ∈ S.ring.ids ∧ Received S w i msg
  | .repTimeout view seq => i ∈ S.ring.ids ∧ (w i).Armed (.repTimeout view seq)
  | .repPartialTimeout view seq => i ∈ S.ring.ids ∧ (w i).Armed (.repPartialTimeout view seq)
  | .watchdog digest => i ∈ S.ring.ids ∧ (w i).Armed (.watchdog digest)

instance (w : String → Node) (i : String) : ∀ e, Decidable (Happens S w i e)
  | .deliver _ => inferInstanceAs (Decidable (_ ∧ _))
  | .repTimeout _ _ => inferInstanceAs (Decidable (_ ∧ _))
  | .repPartialTimeout _ _ => inferInstanceAs (Decidable (_ ∧ _))
  | .watchdog _ => inferInstanceAs (Decidable (_ ∧ _))

/-- The nodes as a network. -/
def honestNodes : Nodes String Node Event where
  start := Node.new S
  Enabled := Happens S
  handle := fun _ n e => n.act S e

instance (w : String → Node) (i : String) (e : Event) :
    Decidable ((honestNodes S).Enabled w i e) :=
  inferInstanceAs (Decidable (Happens S w i e))

/-- The runs of a network without Byzantine nodes. -/
def honestCluster : System (String → Node) (String × Event) := (honestNodes S).system

/-- The numbers and digests of the chain. -/
def Node.record (n : Node) : List (ℤ × String) := n.chain.map fun b => (b.seq, b.digest)

/-- Of any two chains one is a prefix of the other. -/
def Consistent (w : String → Node) : Prop :=
  ∀ i ∈ S.ring.ids, ∀ j ∈ S.ring.ids,
    (w i).record <+: (w j).record ∨ (w j).record <+: (w i).record

instance (w : String → Node) : Decidable (Consistent S w) :=
  inferInstanceAs (Decidable (∀ i ∈ S.ring.ids, ∀ j ∈ S.ring.ids, _ ∨ _))

/-- Blocks are appended under the next number, and a primary that accepts a COMMIT has
every block that another node has. -/
def UpToDate (w : String → Node) (l : String × Event) : Prop :=
  match l.2 with
  | .deliver msg => (w l.1).Accepts S msg = true →
      (msg.type = .preprepare2 → (w l.1).Undecided msg = true → msg.seq = (w l.1).nextSeq) ∧
      (msg.type = .commit → msg.seq = (w l.1).nextSeq ∧
        ∀ j ∈ S.ring.ids, (w j).chain.length ≤ (w l.1).chain.length)
  | _ => True

instance (w : String → Node) : ∀ l, Decidable (UpToDate S w l)
  | (_, .deliver _) => inferInstanceAs (Decidable (_ → _ ∧ _))
  | (_, .repTimeout _ _) => inferInstanceAs (Decidable True)
  | (_, .repPartialTimeout _ _) => inferInstanceAs (Decidable True)
  | (_, .watchdog _) => inferInstanceAs (Decidable True)

/-! ## What a node knows of its blocks -/

/-- The digest of a PREPREPARE2 is that of the block with its number, or of an earlier
one. -/
def Announced (n : Node) (msg : Message) : Prop :=
  ∃ k : ℕ, msg.seq = k + 1 ∧ k ≤ n.chain.length ∧
    (msg.digest ∈ (n.record.take k).map Prod.snd ∨ n.record[k]? = some (msg.seq, msg.digest))

/-- What holds of a node. -/
structure Orderly (i : String) (n : Node) : Prop where
  id_eq : n.id = i
  /-- A round that has been executed has its block. -/
  executed_le : ∀ view seq, (n.state view seq).executed = true → seq ≤ n.chain.length
  /-- The second broadcasts of the node are about its own blocks. -/
  announced : ∀ x ∈ n.sent, x.2.type = .preprepare2 → x.2.sender = i ∧ Announced n x.2

variable {S} {w w' : String → Node} {i : String} {n n' : Node}

theorem orderly_new : Orderly i (Node.new S i) where
  id_eq := rfl
  executed_le := by
    intro view seq h
    cases h
  announced := nofun

/-- Blocks at the end of the chain do not touch what was announced. -/
theorem Announced.append
    {msg : Message} {more : List (ℤ × String)}
    (h : Announced n msg)
    (hrecord : n'.record = n.record ++ more) :
    Announced n' msg := by
  obtain ⟨k, hseq, hk, hdigest⟩ := h
  have hlength : n.record.length = n.chain.length := List.length_map _
  have hlength' : n'.chain.length = n.chain.length + more.length := by
    have hcount := congrArg List.length hrecord
    rwa [List.length_append, hlength, Node.record, List.length_map] at hcount
  refine ⟨k, hseq, by omega, ?_⟩
  rw [hrecord]
  rcases hdigest with hearlier | hblock
  · left
    rwa [List.take_append_of_le_length (by omega)]
  · right
    obtain ⟨hlt, -⟩ := List.getElem?_eq_some_iff.mp hblock
    rwa [List.getElem?_append_left hlt]

theorem record_of_moves
    (h : n.Moves S n') :
    n'.record = n.record := by
  unfold Node.record
  rw [h.chain_eq]

theorem record_of_decides
    {msg : Message}
    (h : n.Decides S n' msg) :
    n'.record = n.record ++ if n.Undecided msg then [(msg.seq, msg.digest)] else [] := by
  unfold Node.record
  rw [h.chain_eq, List.map_append]
  split <;> rfl

theorem Orderly.moves
    (h : Orderly i n)
    (hmoves : n.Moves S n') :
    Orderly i n' where
  id_eq := hmoves.id_eq.trans h.id_eq
  executed_le := by
    intro view seq hexecuted
    rw [hmoves.executed] at hexecuted
    rw [hmoves.chain_eq]
    exact h.executed_le view seq hexecuted
  announced := by
    intro x hx htype
    obtain ⟨more, hsent, hmore⟩ := hmoves.sent
    rw [hsent] at hx
    rcases List.mem_append.mp hx with hold | hnew
    · obtain ⟨hsender, hann⟩ := h.announced x hold htype
      exact ⟨hsender, hann.append (by rw [record_of_moves hmoves, List.append_nil])⟩
    · exact absurd htype (hmore x hnew)

theorem mem_record_of_committed
    {digest : String} :
    digest ∈ n.record.map Prod.snd ↔ n.committed digest = true := by
  simp [Node.record, Node.committed]

/-- What has been decided before the next number is a digest of the chain. -/
theorem mem_record_of_decided
    {msg : Message}
    (h : Orderly i n)
    (hdecided : n.Undecided msg = false)
    (hseq : msg.seq = n.nextSeq) :
    msg.digest ∈ n.record.map Prod.snd := by
  rw [Node.Undecided, Bool.not_eq_false', Bool.or_eq_true] at hdecided
  rcases hdecided with hexecuted | hcommitted
  · have hle := h.executed_le _ _ hexecuted
    rw [hseq, Node.nextSeq] at hle
    omega
  · exact mem_record_of_committed.mpr hcommitted

/-- A node that decides under the next number. -/
theorem Orderly.decides
    {msg : Message}
    (h : Orderly i n)
    (hdecides : n.Decides S n' msg)
    (hnext : n.Undecided msg = true → msg.seq = n.nextSeq)
    (hcommit : msg.type = .commit → msg.seq = n.nextSeq) :
    Orderly i n' := by
  have hrecord := record_of_decides hdecides
  have hlength : n'.chain.length = n.chain.length + if n.Undecided msg then 1 else 0 := by
    rw [hdecides.chain_eq, List.length_append]
    split <;> rfl
  refine ⟨hdecides.id_eq.trans h.id_eq, ?_, ?_⟩
  · intro view seq hexecuted
    rcases hdecides.executed view seq hexecuted with hold | ⟨hundecided, -, rfl⟩
    · have hle := h.executed_le view seq hold
      rw [hlength]
      omega
    · rw [hlength, if_pos hundecided, hnext hundecided]
      simp [Node.nextSeq]
  · intro x hx htype
    obtain ⟨more, hsent, hmore⟩ := hdecides.sent
    rw [hsent] at hx
    rcases List.mem_append.mp hx with hold | hnew
    · obtain ⟨hsender, hann⟩ := h.announced x hold htype
      exact ⟨hsender, hann.append hrecord⟩
    · obtain ⟨hctype, hsender, hseq, hdigest⟩ := hmore x hnew htype
      refine ⟨hsender.trans h.id_eq, n.chain.length, ?_, by omega, ?_⟩
      · rw [hseq, hcommit hctype, Node.nextSeq]
      · have hcount : n.record.length = n.chain.length := List.length_map _
        cases hundecided : n.Undecided msg with
        | true =>
            right
            rw [hrecord, hundecided, if_pos rfl, hseq, hdigest, ← hcount]
            exact List.getElem?_concat_length
        | false =>
            left
            rw [hdigest, hrecord, ← hcount, List.take_left]
            exact mem_record_of_decided h hundecided (hcommit hctype)

/-! ## All nodes -/

/-- The invariant of the runs in which the primaries are up to date. -/
structure ClusterInv (S : Setting) (w : String → Node) : Prop where
  orderly : ∀ i, Orderly i (w i)
  consistent : Consistent S w

/-- A chain that is as long as all the others may grow. -/
theorem isPrefix_of_length_le
    {l l' : List (ℤ × String)}
    (h : l <+: l' ∨ l' <+: l)
    (hlength : l'.length ≤ l.length) :
    l' <+: l := by
  rcases h with h | h
  · rw [h.eq_of_length (le_antisymm h.length_le hlength)]
  · exact h

/-- The next block of a node is the one that the primary has appended. -/
theorem record_decides_preprepare2
    {msg : Message} {p : Node}
    (hdecides : n.Decides S n' msg)
    (hundecided : n.Undecided msg = true)
    (hnext : msg.seq = n.nextSeq)
    (hannounced : Announced p msg)
    (hcompare : n.record <+: p.record ∨ p.record <+: n.record) :
    n'.record <+: p.record := by
  obtain ⟨k, hseq, hk, hdigest⟩ := hannounced
  have hcount : n.record.length = n.chain.length := List.length_map _
  have hcount' : p.record.length = p.chain.length := List.length_map _
  have hnumber : k = n.record.length := by
    rw [hnext, Node.nextSeq] at hseq
    omega
  have htake : n.record = p.record.take k := by
    have hle := isPrefix_of_length_le hcompare.symm (by omega)
    rw [hnumber]
    exact List.prefix_iff_eq_take.mp hle
  rw [record_of_decides hdecides, if_pos hundecided]
  rcases hdigest with hearlier | hblock
  · rw [← htake, mem_record_of_committed] at hearlier
    simp [Node.Undecided, hearlier] at hundecided
  · have hone : p.record.take (k + 1) = n.record ++ [(msg.seq, msg.digest)] := by
      rw [List.take_add_one, hblock, ← htake]
      rfl
    rw [← hone]
    exact List.take_prefix _ _

/-- Chains stay consistent when the new one is comparable with all the old ones. -/
theorem consistent_update
    (h : Consistent S w)
    (hcomparable : ∀ j ∈ S.ring.ids,
      n'.record <+: (w j).record ∨ (w j).record <+: n'.record) :
    Consistent S (Function.update w i n') := by
  intro j hj k hk
  by_cases hji : j = i
  · by_cases hki : k = i
    · rw [hji, hki]
      exact Or.inl (List.prefix_refl _)
    · rw [hji, Function.update_self, Function.update_of_ne hki]
      exact hcomparable k hk
  · by_cases hki : k = i
    · rw [hki, Function.update_self, Function.update_of_ne hji]
      exact (hcomparable j hj).symm
    · rw [Function.update_of_ne hji, Function.update_of_ne hki]
      exact h j hj k hk

theorem orderly_update
    (h : ∀ j, Orderly j (w j))
    (hi : Orderly i n') :
    ∀ j, Orderly j (Function.update w i n' j) := by
  intro j
  by_cases hji : j = i
  · subst hji
    rwa [Function.update_self]
  · rw [Function.update_of_ne hji]
    exact h j

theorem Happens.mem_ids
    {e : Event}
    (h : Happens S w i e) :
    i ∈ S.ring.ids := by
  cases e <;> exact h.1

/-- A second broadcast that a node has received is about a block of its sender. -/
theorem ClusterInv.announced
    {msg : Message}
    (h : ClusterInv S w)
    (hreceived : Received S w i msg)
    (htype : msg.type = .preprepare2) :
    msg.sender ∈ S.ring.ids ∧ Announced (w msg.sender) msg := by
  rcases hreceived with ⟨hrequest, -⟩ | ⟨hsender, hsent⟩
  · rw [htype] at hrequest
    cases hrequest
  · exact ⟨hsender, ((h.orderly msg.sender).announced _ hsent htype).2⟩

/-- The chain of a node that decides on a PREPREPARE2 stays comparable. -/
theorem ClusterInv.comparable_preprepare2
    {msg : Message}
    (h : ClusterInv S w)
    (hi : i ∈ S.ring.ids)
    (hreceived : Received S w i msg)
    (htype : msg.type = .preprepare2)
    (hdecides : (w i).Decides S n' msg)
    (hnext : (w i).Undecided msg = true → msg.seq = (w i).nextSeq) :
    ∀ j ∈ S.ring.ids, n'.record <+: (w j).record ∨ (w j).record <+: n'.record := by
  intro j hj
  cases hundecided : (w i).Undecided msg with
  | false =>
      rw [record_of_decides hdecides, hundecided]
      simpa using h.consistent i hi j hj
  | true =>
      obtain ⟨hsender, hannounced⟩ := h.announced hreceived htype
      have hcompare := record_decides_preprepare2 hdecides hundecided (hnext hundecided)
        hannounced (h.consistent i hi _ hsender)
      rcases h.consistent _ hsender j hj with hle | hle
      · exact Or.inl (hcompare.trans hle)
      · exact List.prefix_or_prefix_of_prefix hcompare hle

/-- The chain of an up-to-date primary that decides on a COMMIT stays comparable. -/
theorem ClusterInv.comparable_commit
    {msg : Message}
    (h : ClusterInv S w)
    (hi : i ∈ S.ring.ids)
    (hdecides : (w i).Decides S n' msg)
    (hlongest : ∀ j ∈ S.ring.ids, (w j).chain.length ≤ (w i).chain.length) :
    ∀ j ∈ S.ring.ids, n'.record <+: (w j).record ∨ (w j).record <+: n'.record := by
  intro j hj
  have hlength := hlongest j hj
  have hle : (w j).record <+: (w i).record :=
    isPrefix_of_length_le (h.consistent i hi j hj) (by simpa [Node.record] using hlength)
  rw [record_of_decides hdecides]
  exact Or.inr (hle.trans (List.prefix_append _ _))

theorem type_of_accepts
    {msg : Message}
    (h : n.Accepts S msg = true) :
    msg.type = .commit ∨ msg.type = .preprepare2 := by
  cases htype : msg.type with
  | commit => exact Or.inl rfl
  | preprepare2 => exact Or.inr rfl
  | request | preprepare1 | inPrepare1 | inPrepare2 | outPrepare | reply | viewChange =>
      simp [Node.Accepts, htype] at h

/-- One event keeps the invariant. -/
theorem ClusterInv.act
    {e : Event}
    (h : ClusterInv S w)
    (hhappens : Happens S w i e)
    (hok : UpToDate S w (i, e)) :
    ClusterInv S (Function.update w i ((w i).act S e)) := by
  have hi := hhappens.mem_ids
  rcases (w i).act_spec (S := S) e with ⟨msg, rfl, haccepts, hdecides⟩ | ⟨-, hmoves⟩
  · obtain ⟨hpreprepare2, hcommit⟩ := hok haccepts
    have hnext : (w i).Undecided msg = true → msg.seq = (w i).nextSeq := by
      intro hundecided
      rcases type_of_accepts haccepts with htype | htype
      · exact (hcommit htype).1
      · exact hpreprepare2 htype hundecided
    have horderly := (h.orderly i).decides hdecides hnext fun htype => (hcommit htype).1
    refine ⟨orderly_update h.orderly horderly, consistent_update h.consistent ?_⟩
    rcases type_of_accepts haccepts with htype | htype
    · exact h.comparable_commit hi hdecides (hcommit htype).2
    · exact h.comparable_preprepare2 hi hhappens.2 htype hdecides hnext
  · refine ⟨orderly_update h.orderly ((h.orderly i).moves hmoves), ?_⟩
    refine consistent_update h.consistent ?_
    intro j hj
    rw [record_of_moves hmoves]
    exact h.consistent i hi j hj

theorem clusterInv_of_reachable
    (h : (honestCluster S).Reachable (UpToDate S) w) :
    ClusterInv S w := by
  refine System.Reachable.invariant (I := ClusterInv S) ⟨fun _ => orderly_new, ?_⟩ ?_ h
  · intro i _ j _
    exact Or.inl (List.prefix_refl _)
  · intro v l v' _ hinv hok hstep
    obtain ⟨henabled, rfl⟩ := Nodes.step_spec hstep
    exact hinv.act henabled hok

/-- With up-to-date primaries the chains never fork. -/
theorem chains_consistent
    (S : Setting)
    {w : String → Node}
    (h : (honestCluster S).Reachable (UpToDate S) w) :
    Consistent S w :=
  (clusterInv_of_reachable h).consistent

/-! ## Two rounds -/

section Rounds

variable (seq : ℤ) (digest : String)

/-- The tokens of some nodes for the digest of the round. -/
def tokens (signers : List String) : List String := signers.map fun nid => sign nid digest

def firstRequest : Event := .deliver
  { type := .request, sender := "client", view := 0, seq := 0, digest := digest,
    payload := digest }

def firstProposal : Event := .deliver
  { type := .preprepare1, sender := "a", view := 0, seq := seq, digest := digest,
    payload := digest, signatures := tokens digest ["a"] }

def memberPrepare (i : String) (group : ℕ) : Event := .deliver
  { type := .inPrepare1, sender := i, view := 0, seq := seq, digest := digest,
    signatures := tokens digest [i], group := some group }

def groupAggregate (rep : String) (group : ℕ) (signers : List String) : Event := .deliver
  { type := .outPrepare, sender := rep, view := 0, seq := seq, digest := digest,
    signatures := tokens digest signers, group := some group }

/-- The members of three groups that sign. -/
def signing : List String := ["b", "c", "d", "f", "g", "h", "j", "k", "l"]

def groupCommit : Event := .deliver
  { type := .commit, sender := "b", view := 0, seq := seq, digest := digest,
    signatures := tokens digest signing, votes := 12 }

def secondBroadcast : Event := .deliver
  { type := .preprepare2, sender := "a", view := 0, seq := seq, digest := digest,
    signatures := tokens digest signing, votes := 12 }

/-- One round of the primary `a` and three of the four groups, up to the block of the
primary. -/
def roundRun : List (String × Event) :=
  [("a", firstRequest digest)] ++ signing.map (fun i => (i, firstProposal seq digest)) ++
    [("b", memberPrepare seq digest "c" 0), ("b", memberPrepare seq digest "d" 0),
      ("f", memberPrepare seq digest "g" 1), ("f", memberPrepare seq digest "h" 1),
      ("j", memberPrepare seq digest "k" 2), ("j", memberPrepare seq digest "l" 2),
      ("b", groupAggregate seq digest "f" 1 ["f", "g", "h"]),
      ("b", groupAggregate seq digest "j" 2 ["j", "k", "l"]),
      ("a", groupCommit seq digest)]

end Rounds

/-- After one round the primary and another node have the block. -/
theorem chains_consistent_readable :
    ∃ w : String → Node, (w "a").record = [(1, "tx")] ∧ (w "b").record = [(1, "tx")] ∧
      Consistent readable w := by
  obtain ⟨w, hreach, ha, hb⟩ : ∃ w, (honestCluster readable).Reachable (UpToDate readable) w ∧
      (w "a").record = [(1, "tx")] ∧ (w "b").record = [(1, "tx")] := by
    refine System.exists_reaches_of_exec
      (roundRun 1 "tx" ++ [("b", secondBroadcast 1 "tx")]) ?_
    decide +kernel
  exact ⟨w, ha, hb, chains_consistent readable hreach⟩

/-- A node that has missed the first block appends the second one as its first. -/
theorem not_chains_consistent :
    ¬∀ (S : Setting) (w : String → Node),
      (honestCluster S).Reachable System.anyStep w → Consistent S w := by
  intro hall
  obtain ⟨w, hreach, ha, hq⟩ : ∃ w,
      (honestCluster readable).Reachable System.anyStep w ∧
      (w "a").record = [(1, "tx"), (2, "ty")] ∧ (w "q").record = [(2, "ty")] := by
    refine System.exists_reaches_of_exec
      (roundRun 1 "tx" ++ signing.map (fun i => (i, secondBroadcast 1 "tx")) ++
        roundRun 2 "ty" ++ [("q", secondBroadcast 2 "ty")]) ?_
    decide +kernel
  have hconsistent := hall readable w hreach "a" (by decide) "q" (by decide)
  rw [ha, hq] at hconsistent
  revert hconsistent
  decide

end Nbft
end DistributedConsensus
