import DistributedConsensus.Foundations.Runs
import DistributedConsensus.Nbft.Steps

/-!
# NBFT: the chain of one node

One honest node that receives any messages, also crafted ones.  The hashes of a chain
always link and no digest is appended twice.  The sequence number of a block is that
of the message, and a payload the node does not know is taken from the round or empty:
the chain is well formed in exactly the runs in which every block fits.
-/

namespace DistributedConsensus
namespace Nbft

open Foundations

variable (S : Setting)

/-- A well-formed chain; the first block has number one. -/
structure WellFormed (chain : List Block) : Prop where
  seq_eq : ∀ (i : ℕ) (b : Block), chain[i]? = some b → b.seq = i + 1
  first : ∀ b : Block, chain[0]? = some b → b.previousHash = S.hashes.genesisHash
  next : ∀ (i : ℕ) (a b : Block), chain[i]? = some a → chain[i + 1]? = some b →
    b.previousHash = a.blockHash S.hashes
  payload : ∀ b ∈ chain, payloadDigest S.hashes b.payload = b.digest
  distinct : (chain.map Block.digest).Nodup

/-- The events of one node: any message, and the timers that are armed. -/
def alone (id : String) : System Node Event where
  init := Node.new S id
  step := fun n e => if n.Armed e then some (n.act S e) else none

/-- The message has the next sequence number, and its payload is known. -/
def Node.Fits (n : Node) (msg : Message) : Prop :=
  msg.seq = n.nextSeq ∧ (n.pending.contains msg.digest = true ∨
    payloadDigest S.hashes ((n.state msg.view msg.seq).payload.getD "") = msg.digest)

instance (n : Node) (msg : Message) : Decidable (n.Fits S msg) :=
  inferInstanceAs (Decidable (_ ∧ _))

/-- A block that is appended fits. -/
def FittingBlocks (n : Node) : Event → Prop
  | .deliver msg => n.Accepts S msg = true → n.Undecided msg = true → n.Fits S msg
  | _ => True

instance (n : Node) : ∀ e, Decidable (FittingBlocks S n e)
  | .deliver _ => inferInstanceAs (Decidable (_ → _ → _))
  | .repTimeout _ _ => inferInstanceAs (Decidable True)
  | .repPartialTimeout _ _ => inferInstanceAs (Decidable True)
  | .watchdog _ => inferInstanceAs (Decidable True)

variable {S} {id : String} {n n' : Node}

theorem wellFormed_nil : WellFormed S [] where
  seq_eq := nofun
  first := nofun
  next := nofun
  payload := nofun
  distinct := List.nodup_nil

/-- The payload of a block is that of its digest exactly when the node knows it, or
has it in the round. -/
theorem payloadDigest_blockOf
    {msg : Message}
    (hsound : n.PendingSound S) :
    payloadDigest S.hashes (n.blockOf S msg).payload = msg.digest ↔
      (n.pending.contains msg.digest = true ∨
        payloadDigest S.hashes ((n.state msg.view msg.seq).payload.getD "") = msg.digest) := by
  unfold Node.blockOf Dict.contains Dict.getD
  cases hget : n.pending.get? msg.digest with
  | some payload => simp [hsound _ _ hget]
  | none => simp

theorem getElem?_concat_eq_some
    {l : List Block} {b x : Block} {i : ℕ} :
    (l ++ [b])[i]? = some x ↔ l[i]? = some x ∨ (i = l.length ∧ b = x) := by
  rcases Nat.lt_trichotomy i l.length with hlt | rfl | hgt
  · rw [List.getElem?_append_left hlt]
    simp [hlt.ne]
  · simp
  · have hout : l[i]? = none := List.getElem?_eq_none hgt.le
    have hout' : (l ++ [b])[i]? = none := List.getElem?_eq_none (by simp; omega)
    rw [hout, hout']
    simp [hgt.ne']

/-- A chain that links so far, with one more block of the node. -/
theorem WellFormed.concat_iff
    {msg : Message}
    (h : WellFormed S n.chain)
    (hsound : n.PendingSound S)
    (hundecided : n.Undecided msg = true) :
    WellFormed S (n.chain ++ [n.blockOf S msg]) ↔ n.Fits S msg := by
  have hfresh : msg.digest ∉ n.chain.map Block.digest := by
    simp only [Node.Undecided, Node.committed, Bool.not_eq_true', Bool.or_eq_false_iff,
      List.any_eq_false, decide_eq_true_eq] at hundecided
    rw [List.mem_map]
    rintro ⟨b, hb, heq⟩
    exact hundecided.2 b hb heq
  constructor
  · intro hnew
    refine ⟨?_, (payloadDigest_blockOf hsound).mp ?_⟩
    · exact hnew.seq_eq n.chain.length _ (getElem?_concat_eq_some.mpr (Or.inr ⟨rfl, rfl⟩))
    · exact hnew.payload _ (List.mem_append_right _ List.mem_cons_self)
  · rintro ⟨hseq, hpayload⟩
    refine ⟨?_, ?_, ?_, ?_, ?_⟩
    · intro i x hx
      rcases getElem?_concat_eq_some.mp hx with hold | ⟨rfl, rfl⟩
      · exact h.seq_eq i x hold
      · exact hseq
    · intro x hx
      rcases getElem?_concat_eq_some.mp hx with hold | ⟨hlength, rfl⟩
      · exact h.first x hold
      · have hnil : n.chain = [] := List.length_eq_zero_iff.mp hlength.symm
        simp [Node.blockOf, Node.headHash, hnil]
    · intro i x y hx hy
      rcases getElem?_concat_eq_some.mp hy with hold | ⟨hlength, rfl⟩
      · refine h.next i x y ?_ hold
        rcases getElem?_concat_eq_some.mp hx with hold' | ⟨rfl, -⟩
        · exact hold'
        · have hbound := (List.getElem?_eq_some_iff.mp hold).1
          omega
      · have hlast : n.chain.getLast? = some x := by
          rcases getElem?_concat_eq_some.mp hx with hold' | ⟨rfl, -⟩
          · rw [List.getLast?_eq_getElem?, ← hlength]
            exact hold'
          · omega
        simp [Node.blockOf, Node.headHash, hlast]
    · intro x hx
      rcases List.mem_append.mp hx with hold | hlast
      · exact h.payload x hold
      · rw [List.mem_singleton.mp hlast]
        exact (payloadDigest_blockOf hsound).mpr hpayload
    · rw [List.map_append, List.nodup_append]
      refine ⟨h.distinct, List.nodup_singleton _, ?_⟩
      intro d hd d' hd' heq
      rw [List.map_singleton, List.mem_singleton] at hd'
      subst heq hd'
      exact hfresh hd

/-- What holds along the runs whose blocks fit. -/
def ChainInv (S : Setting) (n : Node) : Prop := WellFormed S n.chain ∧ n.PendingSound S

/-- One event keeps a well-formed chain exactly when a block that it appends fits. -/
theorem wellFormed_act_iff
    {e : Event}
    (h : ChainInv S n) :
    (WellFormed S (n.act S e).chain ↔ FittingBlocks S n e) ∧ (n.act S e).PendingSound S := by
  rcases n.act_spec e with ⟨msg, rfl, haccepts, hdecides⟩ | ⟨hno, hmoves⟩
  · constructor
    · rw [hdecides.chain_eq]
      cases hundecided : n.Undecided msg with
      | true =>
          rw [if_pos rfl, h.1.concat_iff h.2 hundecided]
          simp [FittingBlocks, haccepts, hundecided]
      | false => simp [FittingBlocks, hundecided, h.1]
    · unfold Node.PendingSound
      rw [hdecides.pending_eq]
      exact h.2
  · constructor
    · rw [hmoves.chain_eq]
      refine iff_of_true h.1 ?_
      cases e with
      | deliver msg => simp [FittingBlocks, hno msg rfl]
      | repTimeout view seq => trivial
      | repPartialTimeout view seq => trivial
      | watchdog digest => trivial
    · exact hmoves.pending h.2

theorem chainInv_of_reachable
    (h : (alone S id).Reachable (FittingBlocks S) n) :
    ChainInv S n := by
  refine System.Reachable.invariant (I := ChainInv S) ⟨wellFormed_nil, ?_⟩ ?_ h
  · intro digest payload hget
    cases hget
  · intro n e n' _ hinv hfits hstep
    simp only [alone] at hstep
    split at hstep
    case isFalse => cases hstep
    case isTrue =>
      obtain rfl := Option.some.inj hstep
      obtain ⟨hchain, hpending⟩ := wellFormed_act_iff (e := e) hinv
      exact ⟨hchain.mpr hfits, hpending⟩

/-- In the runs in which every block fits the chain is well formed in every state, and
the first block that does not fit breaks it. -/
theorem chain_wellFormed_iff
    (S : Setting)
    (id : String)
    {n : Node}
    (h : (alone S id).Reachable (FittingBlocks S) n) :
    WellFormed S n.chain ∧ ∀ e n', (alone S id).step n e = some n' →
      (WellFormed S n'.chain ↔ FittingBlocks S n e) := by
  have hinv := chainInv_of_reachable h
  refine ⟨hinv.1, ?_⟩
  intro e n' hstep
  simp only [alone] at hstep
  split at hstep
  case isFalse => cases hstep
  case isTrue =>
    obtain rfl := Option.some.inj hstep
    exact (wellFormed_act_iff hinv).1

/-- The second broadcast of the first primary, with the signatures of nine nodes. -/
def provenBlock (seq : ℤ) (digest : String) : Message where
  type := .preprepare2
  sender := "a"
  view := 0
  seq := seq
  digest := digest
  signatures := ["b", "c", "d", "f", "g", "h", "j", "k", "l"].map fun nid => sign nid digest
  votes := 12

/-- A block whose request is known. -/
theorem chain_wellFormed_iff_readable :
    ∃ n : Node, n.chain.length = 1 ∧ WellFormed readable n.chain ∧
      ∀ e n', (alone readable "b").step n e = some n' →
        (WellFormed readable n'.chain ↔ FittingBlocks readable n e) := by
  obtain ⟨n, hreach, hlength⟩ : ∃ n, (alone readable "b").Reachable (FittingBlocks readable) n ∧
      n.chain.length = 1 := by
    refine System.exists_reaches_of_exec
      [.deliver ⟨.request, "client", 0, 0, "", "tx", [], none, 0, none⟩,
        .deliver (provenBlock 1 "tx")] ?_
    decide +kernel
  exact ⟨n, hlength, chain_wellFormed_iff readable "b" hreach⟩

/-- The number of the message becomes the number of the block. -/
theorem not_chain_wellFormed :
    ¬∀ (S : Setting) (id : String) (n : Node),
      (alone S id).Reachable System.anyStep n → WellFormed S n.chain := by
  intro hall
  obtain ⟨n, hreach, b, hb, hseq⟩ : ∃ n, (alone readable "b").Reachable System.anyStep n ∧
      ∃ b ∈ n.chain[0]?, b.seq = 5 := by
    refine System.exists_reaches_of_exec [.deliver (provenBlock 5 "tx")] ?_
    decide +kernel
  have hwell := (hall readable "b" n hreach).seq_eq 0 b hb
  rw [hseq] at hwell
  exact absurd hwell (by decide)

end Nbft
end DistributedConsensus
