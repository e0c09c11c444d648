import DistributedConsensus.RustTendermint.Consensus
import DistributedConsensus.Foundations.Runs
import Mathlib.Algebra.BigOperators.Group.Finset.Piecewise

/-!
# Rust Tendermint: the gossip link

A broadcast is sent to the peers of its node only.  A node delivers the bytes that
it receives for the first time, judged by their digest, and sends them on to its own
peers.  The node that broadcasts does not mark its bytes as seen: it delivers them
when they come back.

Requests and packets are processed in any order; no send fails, and a node is never
blocked by a full channel.

When the peers connect the nodes strongly, the flooding ends, and then every node has
delivered every message exactly once.
-/

namespace DistributedConsensus
namespace RustTendermint

open Foundations

abbrev Bytes := List UInt8

/-- The topology, `serde_json` and `Sha256`. -/
structure Gossip where
  nodes : Finset NodeId
  /-- The keys of `peer_addresses`. -/
  peers : NodeId → List NodeId
  encode : Message → Bytes
  decode : Bytes → Option Message
  digest : Bytes → String

structure PerfectLink where
  requests : List PlRequest
  seenMessages : Finset String
  /-- The events `PlDeliver`. -/
  delivered : List (NodeId × Message)

/-- A packet and its destination. -/
abbrev Packet := NodeId × Bytes

namespace PerfectLink

variable (G : Gossip) (i : NodeId) (link : PerfectLink)

def sendToPeer (dest : NodeId) (raw : Bytes) : List Packet :=
  if dest ∈ G.peers i then [(dest, raw)] else []

def sendToPeers (raw : Bytes) : List Packet :=
  (G.peers i).flatMap fun dest => sendToPeer G i dest raw

/-- The packets of a request. -/
def process : PlRequest → List Packet
  | .send dest msg => sendToPeer G i dest (G.encode msg)
  | .broadcast msg => sendToPeers G i (G.encode msg)

/-- The branch of `run` for received bytes. -/
def receive (raw : Bytes) : PerfectLink × List Packet :=
  let hash := G.digest raw
  if hash ∈ link.seenMessages then (link, [])
  else
    let link := { link with seenMessages := insert hash link.seenMessages }
    match G.decode raw with
    | none => (link, [])
    | some msg =>
        ({ link with delivered := link.delivered ++ [(msg.sender, msg)] }, sendToPeers G i raw)

theorem mem_sendToPeers {raw : Bytes} {p : Packet} :
    p ∈ sendToPeers G i raw ↔ p.1 ∈ G.peers i ∧ p.2 = raw := by
  unfold sendToPeers sendToPeer
  rw [List.mem_flatMap]
  constructor
  · rintro ⟨dest, hdest, hp⟩
    rw [if_pos hdest, List.mem_singleton] at hp
    subst hp
    exact ⟨hdest, rfl⟩
  · rintro ⟨hdest, rfl⟩
    exact ⟨p.1, hdest, by rw [if_pos hdest]; exact List.mem_singleton.mpr rfl⟩

theorem length_sendToPeers (raw : Bytes) :
    (sendToPeers G i raw).length = (G.peers i).length := by
  have hall : ∀ l : List NodeId, (∀ dest ∈ l, dest ∈ G.peers i) →
      (l.flatMap fun dest => sendToPeer G i dest raw).length = l.length := by
    intro l
    induction l with
    | nil =>
        intro _
        rfl
    | cons dest l ih =>
        intro hl
        rw [List.flatMap_cons, List.length_append,
          ih fun d hd => hl d (List.mem_cons_of_mem _ hd), sendToPeer, if_pos (hl dest (by simp)),
          List.length_cons]
        simp
        omega
  exact hall _ fun _ h => h

end PerfectLink

/-- The links of all nodes and the packets in flight. -/
structure Wire where
  links : NodeId → PerfectLink
  flight : List Packet

/-- What happens next: a node processes its next request, or receives the packet at a
position of the packets in flight. -/
inductive Delivery where
  | request (i : NodeId)
  | receive (k : ℕ)

/-- Broadcasts that have been handed to the nodes. -/
def handedTo (handed : List (NodeId × Message)) (i : NodeId) : PerfectLink where
  requests := (handed.filter fun p => p.1 = i).map fun p => .broadcast p.2
  seenMessages := ∅
  delivered := []

def Wire.step (G : Gossip) (w : Wire) : Delivery → Option Wire
  | .request i =>
      match (w.links i).requests with
      | [] => none
      | req :: rest => some {
          links := Function.update w.links i { w.links i with requests := rest }
          flight := w.flight ++ PerfectLink.process G i req }
  | .receive k =>
      match w.flight[k]? with
      | none => none
      | some (i, raw) =>
          let out := (w.links i).receive G i raw
          some {
            links := Function.update w.links i out.1
            flight := w.flight.eraseIdx k ++ out.2 }

/-- The flooding of the broadcasts. -/
def flooding (G : Gossip) (handed : List (NodeId × Message)) : System Wire Delivery where
  init := ⟨handedTo handed, []⟩
  step := Wire.step G

/-- No request waits and nothing is in flight. -/
def Wire.Quiet (w : Wire) : Prop := w.flight = [] ∧ ∀ i, (w.links i).requests = []

/-- A strongly connected network of at least two nodes that exchanges different
messages. -/
structure Gossip.Connected (G : Gossip) (handed : List (NodeId × Message)) : Prop where
  two_le : 2 ≤ G.nodes.card
  peers_mem : ∀ i ∈ G.nodes, ∀ j ∈ G.peers i, j ∈ G.nodes
  connected : ∀ i ∈ G.nodes, ∀ j ∈ G.nodes, Relation.ReflTransGen (fun a b => b ∈ G.peers a) i j
  handed_mem : ∀ p ∈ handed, p.1 ∈ G.nodes
  different : (handed.map fun p => G.encode p.2).Nodup
  roundTrip : ∀ p ∈ handed, G.decode (G.encode p.2) = some p.2
  collisionFree : Function.Injective G.digest

section Invariants

variable {G : Gossip} {handed : List (NodeId × Message)} {w w' : Wire} {a : Delivery}

/-- The node has seen the message. -/
def Wire.Seen (G : Gossip) (w : Wire) (i : NodeId) (m : Message) : Prop :=
  G.digest (G.encode m) ∈ (w.links i).seenMessages

/-- The node has seen the message, or the message is on its way to it. -/
def Wire.Reached (G : Gossip) (w : Wire) (i : NodeId) (m : Message) : Prop :=
  w.Seen G i m ∨ (i, G.encode m) ∈ w.flight

/-- What holds while the messages spread. -/
structure Wire.Spreads (G : Gossip) (handed : List (NodeId × Message)) (w : Wire) : Prop where
  carried : ∀ p ∈ w.flight, p.1 ∈ G.nodes ∧ ∃ q ∈ handed, p.2 = G.encode q.2
  pending : ∀ i, ∀ req ∈ (w.links i).requests, ∃ m, req = .broadcast m ∧ (i, m) ∈ handed
  sent : ∀ p ∈ handed, .broadcast p.2 ∈ (w.links p.1).requests ∨
    ∀ j ∈ G.peers p.1, w.Reached G j p.2
  relayed : ∀ i, ∀ p ∈ handed, w.Seen G i p.2 → ∀ j ∈ G.peers i, w.Reached G j p.2
  delivered : ∀ i x, x ∈ (w.links i).delivered ↔
    ∃ p ∈ handed, w.Seen G i p.2 ∧ x = (p.2.sender, p.2)
  once : ∀ i, (w.links i).delivered.Nodup

/-- Nothing has been sent before the first step. -/
theorem spreads_init : ((flooding G handed).init).Spreads G handed := by
  constructor
  · intro p hp
    cases hp
  · intro i req hreq
    obtain ⟨p, hp, rfl⟩ := List.mem_map.mp hreq
    rw [List.mem_filter, decide_eq_true_eq] at hp
    obtain ⟨hp, rfl⟩ := hp
    exact ⟨p.2, rfl, hp⟩
  · intro p hp
    left
    exact List.mem_map.mpr ⟨p, List.mem_filter.mpr ⟨hp, by simp⟩, rfl⟩
  · intro i p _ hseen
    cases hseen
  · intro i x
    constructor
    · intro hx
      cases hx
    · rintro ⟨p, -, hseen, -⟩
      cases hseen
  · intro i
    exact List.nodup_nil

/-- The next request of a node is processed. -/
theorem Wire.Spreads.request
    (hG : G.Connected handed)
    {i : NodeId} {req : PlRequest} {rest : List PlRequest}
    (hreqs : (w.links i).requests = req :: rest)
    (h : w.Spreads G handed) :
    Wire.Spreads G handed {
      links := Function.update w.links i { w.links i with requests := rest }
      flight := w.flight ++ PerfectLink.process G i req } := by
  obtain ⟨m, rfl, hm⟩ := h.pending i req (by rw [hreqs]; exact List.mem_cons_self)
  generalize hw : (Wire.mk _ _ : Wire) = w'
  have hlinks : w'.links = Function.update w.links i { w.links i with requests := rest } := by
    rw [← hw]
  have hflight : w'.flight = w.flight ++ PerfectLink.sendToPeers G i (G.encode m) := by
    rw [← hw]
    rfl
  have hseen : ∀ j, (w'.links j).seenMessages = (w.links j).seenMessages := by
    intro j
    rw [hlinks]
    by_cases hj : j = i
    · subst hj
      rw [Function.update_self]
    · rw [Function.update_of_ne hj]
  have hdelivered : ∀ j, (w'.links j).delivered = (w.links j).delivered := by
    intro j
    rw [hlinks]
    by_cases hj : j = i
    · subst hj
      rw [Function.update_self]
    · rw [Function.update_of_ne hj]
  have hreached : ∀ j x, w.Reached G j x → w'.Reached G j x := by
    rintro j x (hold | hold)
    · left
      rw [Seen, hseen]
      exact hold
    · right
      rw [hflight]
      exact List.mem_append_left _ hold
  constructor
  · intro p hp
    rw [hflight, List.mem_append] at hp
    rcases hp with hp | hp
    · exact h.carried p hp
    · rw [PerfectLink.mem_sendToPeers] at hp
      exact ⟨hG.peers_mem i (hG.handed_mem _ hm) _ hp.1, _, hm, hp.2⟩
  · intro j x hx
    rw [hlinks] at hx
    by_cases hj : j = i
    · subst hj
      rw [Function.update_self] at hx
      exact h.pending j x (by rw [hreqs]; exact List.mem_cons_of_mem _ hx)
    · rw [Function.update_of_ne hj] at hx
      exact h.pending j x hx
  · intro p hp
    rcases h.sent p hp with hwait | hsent
    · by_cases hi : p.1 = i
      · rw [hi, hreqs, List.mem_cons] at hwait
        rcases hwait with heq | hwait
        · -- The request of this message is the processed one.
          right
          intro j hj
          right
          rw [hflight]
          refine List.mem_append_right _ ((PerfectLink.mem_sendToPeers G i).mpr ?_)
          cases heq
          rw [hi] at hj
          exact ⟨hj, rfl⟩
        · left
          rw [hlinks, hi, Function.update_self]
          exact hwait
      · left
        rw [hlinks, Function.update_of_ne hi]
        exact hwait
    · right
      exact fun j hj => hreached j _ (hsent j hj)
  · intro j p hp hs k hk
    rw [Seen, hseen] at hs
    exact hreached k _ (h.relayed j p hp hs k hk)
  · intro j x
    rw [hdelivered, h.delivered j x]
    unfold Seen
    rw [hseen]
  · intro j
    rw [hdelivered]
    exact h.once j

/-- Different messages have different digests. -/
theorem Gossip.Connected.eq_of_digest
    (hG : G.Connected handed)
    {p q : NodeId × Message}
    (hp : p ∈ handed)
    (hq : q ∈ handed)
    (h : G.digest (G.encode p.2) = G.digest (G.encode q.2)) :
    p = q :=
  List.inj_on_of_nodup_map hG.different hp hq (hG.collisionFree h)

/-- The other packets stay in flight. -/
theorem mem_eraseIdx_or_eq
    {l : List Packet} {k : ℕ} {p x : Packet}
    (hk : l[k]? = some p)
    (hx : x ∈ l) :
    x ∈ l.eraseIdx k ∨ x = p := by
  obtain ⟨n, hn⟩ := List.mem_iff_getElem?.mp hx
  by_cases heq : n = k
  · right
    rw [heq, hk] at hn
    exact (Option.some.inj hn).symm
  · left
    exact List.mem_eraseIdx_iff_getElem?.mpr ⟨n, heq, hn⟩

/-- A packet with a message that its receiver has seen is dropped. -/
theorem Wire.Spreads.drop
    {k : ℕ} {i : NodeId} {q : NodeId × Message}
    (hk : w.flight[k]? = some (i, G.encode q.2))
    (hseen : w.Seen G i q.2)
    (h : w.Spreads G handed) :
    Wire.Spreads G handed { w with flight := w.flight.eraseIdx k } := by
  have hreached : ∀ j x, w.Reached G j x →
      Wire.Reached G { w with flight := w.flight.eraseIdx k } j x := by
    rintro j x (hold | hold)
    · exact Or.inl hold
    · rcases mem_eraseIdx_or_eq hk hold with hstay | heq
      · exact Or.inr hstay
      · left
        rw [Prod.mk.injEq] at heq
        obtain ⟨rfl, heq⟩ := heq
        show G.digest (G.encode x) ∈ _
        rw [heq]
        exact hseen
  refine ⟨fun p hp => h.carried p (List.mem_of_mem_eraseIdx hp), h.pending, ?_, ?_,
    h.delivered, h.once⟩
  · intro p hp
    rcases h.sent p hp with hwait | hsent
    · exact Or.inl hwait
    · exact Or.inr fun j hj => hreached j _ (hsent j hj)
  · exact fun j p hp hs x hx => hreached x _ (h.relayed j p hp hs x hx)

/-- A packet with a new message is delivered and sent on. -/
theorem Wire.Spreads.deliver
    (hG : G.Connected handed)
    {k : ℕ} {i : NodeId} {q : NodeId × Message}
    (hq : q ∈ handed)
    (hi : i ∈ G.nodes)
    (hk : w.flight[k]? = some (i, G.encode q.2))
    (hnew : ¬w.Seen G i q.2)
    (h : w.Spreads G handed) :
    Wire.Spreads G handed {
      links := Function.update w.links i {
        requests := (w.links i).requests
        seenMessages := insert (G.digest (G.encode q.2)) (w.links i).seenMessages
        delivered := (w.links i).delivered ++ [(q.2.sender, q.2)] }
      flight := w.flight.eraseIdx k ++ PerfectLink.sendToPeers G i (G.encode q.2) } := by
  generalize hw : (Wire.mk _ _ : Wire) = w'
  have hself : w'.links i = {
      requests := (w.links i).requests
      seenMessages := insert (G.digest (G.encode q.2)) (w.links i).seenMessages
      delivered := (w.links i).delivered ++ [(q.2.sender, q.2)] } := by
    rw [← hw]
    exact Function.update_self _ _ _
  have hother : ∀ j, j ≠ i → w'.links j = w.links j := by
    intro j hj
    rw [← hw]
    exact Function.update_of_ne hj _ _
  have hflight : w'.flight
      = w.flight.eraseIdx k ++ PerfectLink.sendToPeers G i (G.encode q.2) := by
    rw [← hw]
  have hrequests : ∀ j, (w'.links j).requests = (w.links j).requests := by
    intro j
    by_cases hj : j = i
    · subst hj
      rw [hself]
    · rw [hother j hj]
  -- The receiver has now seen this message, and nothing else changes.
  have hseen : ∀ j, ∀ p ∈ handed, w'.Seen G j p.2 ↔ w.Seen G j p.2 ∨ j = i ∧ p = q := by
    intro j p hp
    unfold Seen
    by_cases hj : j = i
    · subst hj
      rw [hself]
      simp only [Finset.mem_insert, true_and]
      constructor
      · rintro (heq | hold)
        · exact Or.inr (hG.eq_of_digest hp hq heq)
        · exact Or.inl hold
      · rintro (hold | rfl)
        · exact Or.inr hold
        · exact Or.inl rfl
    · rw [hother j hj]
      simp [hj]
  have hreached : ∀ j, ∀ p ∈ handed, w.Reached G j p.2 → w'.Reached G j p.2 := by
    rintro j p hp (hold | hold)
    · exact Or.inl ((hseen j p hp).mpr (Or.inl hold))
    · rcases mem_eraseIdx_or_eq hk hold with hstay | heq
      · right
        rw [hflight]
        exact List.mem_append_left _ hstay
      · left
        rw [Prod.mk.injEq] at heq
        exact (hseen j p hp).mpr
          (Or.inr ⟨heq.1, hG.eq_of_digest hp hq (congrArg G.digest heq.2)⟩)
  constructor
  · intro p hp
    rw [hflight, List.mem_append] at hp
    rcases hp with hp | hp
    · exact h.carried p (List.mem_of_mem_eraseIdx hp)
    · rw [PerfectLink.mem_sendToPeers] at hp
      exact ⟨hG.peers_mem i hi _ hp.1, q, hq, hp.2⟩
  · intro j req hreq
    rw [hrequests] at hreq
    exact h.pending j req hreq
  · intro p hp
    rw [hrequests]
    rcases h.sent p hp with hwait | hsent
    · exact Or.inl hwait
    · exact Or.inr fun j hj => hreached j p hp (hsent j hj)
  · intro j p hp hs x hx
    rcases (hseen j p hp).mp hs with hold | ⟨rfl, rfl⟩
    · exact hreached x p hp (h.relayed j p hp hold x hx)
    · right
      rw [hflight]
      exact List.mem_append_right _ ((PerfectLink.mem_sendToPeers G j).mpr ⟨hx, rfl⟩)
  · intro j x
    have hcases : (∃ p ∈ handed, w'.Seen G j p.2 ∧ x = (p.2.sender, p.2)) ↔
        (∃ p ∈ handed, w.Seen G j p.2 ∧ x = (p.2.sender, p.2)) ∨
          j = i ∧ x = (q.2.sender, q.2) := by
      constructor
      · rintro ⟨p, hp, hs, rfl⟩
        rcases (hseen j p hp).mp hs with hold | ⟨hj, rfl⟩
        · exact Or.inl ⟨p, hp, hold, rfl⟩
        · exact Or.inr ⟨hj, rfl⟩
      · rintro (⟨p, hp, hs, rfl⟩ | ⟨hj, rfl⟩)
        · exact ⟨p, hp, (hseen j p hp).mpr (Or.inl hs), rfl⟩
        · exact ⟨q, hq, (hseen j q hq).mpr (Or.inr ⟨hj, rfl⟩), rfl⟩
    rw [hcases, ← h.delivered j x]
    by_cases hj : j = i
    · subst hj
      rw [hself]
      simp
    · rw [hother j hj]
      simp [hj]
  · intro j
    by_cases hj : j = i
    · subst hj
      rw [hself]
      refine List.nodup_append.mpr ⟨h.once j, List.nodup_singleton _, ?_⟩
      intro x hx y hy heq
      rw [List.mem_singleton] at hy
      subst heq
      subst hy
      obtain ⟨p, hp, hs, heq⟩ := (h.delivered j _).mp hx
      rw [Prod.mk.injEq] at heq
      unfold Seen at hnew
      rw [heq.2] at hnew
      exact hnew hs
    · rw [hother j hj]
      exact h.once j

/-- What receiving a message does. -/
theorem PerfectLink.receive_encode
    (hG : G.Connected handed)
    {q : NodeId × Message}
    (hq : q ∈ handed) (i : NodeId) (link : PerfectLink) :
    link.receive G i (G.encode q.2) =
      if G.digest (G.encode q.2) ∈ link.seenMessages then (link, [])
      else
        ({ requests := link.requests
           seenMessages := insert (G.digest (G.encode q.2)) link.seenMessages
           delivered := link.delivered ++ [(q.2.sender, q.2)] },
          sendToPeers G i (G.encode q.2)) := by
  simp only [receive, hG.roundTrip q hq]

/-- **One step of the flooding.** -/
theorem Wire.Spreads.step
    (hG : G.Connected handed)
    (h : w.Spreads G handed)
    (hstep : w.step G a = some w') :
    w'.Spreads G handed := by
  cases a with
  | request i =>
      simp only [Wire.step] at hstep
      split at hstep
      case h_1 => cases hstep
      case h_2 req rest hreqs =>
        cases hstep
        exact h.request hG hreqs
  | receive k =>
      simp only [Wire.step] at hstep
      split at hstep
      case h_1 => cases hstep
      case h_2 i raw hk =>
        cases hstep
        obtain ⟨hi, q, hq, hraw⟩ := h.carried _ (List.mem_of_getElem? hk)
        simp only at hraw
        subst hraw
        rw [PerfectLink.receive_encode hG hq]
        split
        case isTrue hseen =>
          rw [Function.update_eq_self, List.append_nil]
          exact h.drop hk hseen
        case isFalse hnew => exact h.deliver hG hq hi hk hnew

theorem spreads_of_reachable
    (hG : G.Connected handed)
    (hw : (flooding G handed).Reachable System.anyStep w) :
    w.Spreads G handed := by
  refine System.Reachable.invariant (I := fun w => w.Spreads G handed) spreads_init ?_ hw
  intro w a w' _ h _ hstep
  exact h.step hG hstep

/-- At rest, the messages have crossed every edge that leaves a node which has sent
or seen them. -/
theorem Wire.Spreads.seen_of_quiet
    (hG : G.Connected handed)
    (h : w.Spreads G handed)
    (hquiet : w.Quiet)
    {p : NodeId × Message}
    (hp : p ∈ handed)
    {j : NodeId}
    (hj : j ∈ G.nodes) :
    w.Seen G j p.2 := by
  have harrived : ∀ k, w.Reached G k p.2 → w.Seen G k p.2 := by
    rintro k (hs | hflight)
    · exact hs
    · rw [hquiet.1] at hflight
      cases hflight
  have hfirst : ∀ k ∈ G.peers p.1, w.Seen G k p.2 := by
    rcases h.sent p hp with hwait | hsent
    · rw [hquiet.2] at hwait
      cases hwait
    · exact fun k hk => harrived k (hsent k hk)
  have hpath : ∀ k l, w.Seen G k p.2 →
      Relation.ReflTransGen (fun a b => b ∈ G.peers a) k l → w.Seen G l p.2 := by
    intro k l hk hkl
    induction hkl with
    | refl => exact hk
    | tail _ hedge ih => exact harrived _ (h.relayed _ p hp ih _ hedge)
  -- Some peer of the origin starts a path to the node, also when the node is the origin.
  have horigin := hG.handed_mem p hp
  have hmany : 1 < G.nodes.card := hG.two_le
  obtain ⟨k, hk, hne⟩ := Finset.exists_mem_ne hmany p.1
  obtain hrefl | ⟨x, hx, -⟩ := (hG.connected p.1 horigin k hk).cases_head
  · exact absurd hrefl.symm hne
  · exact hpath x j (hfirst x hx) (hG.connected x (hG.peers_mem _ horigin x hx) j hj)

/-! ## The flooding ends -/

/-- The steps that a node can still cause. -/
def PerfectLink.work (G : Gossip) (handed : List (NodeId × Message)) (i : NodeId)
    (link : PerfectLink) : ℕ :=
  link.requests.length * (1 + (G.peers i).length) +
    (handed.filter fun p => G.digest (G.encode p.2) ∉ link.seenMessages).length *
      (G.peers i).length

/-- A bound on the steps that are left. -/
def Wire.work (G : Gossip) (handed : List (NodeId × Message)) (w : Wire) : ℕ :=
  ∑ i ∈ G.nodes, (w.links i).work G handed i + w.flight.length

/-- Only the node that takes a step changes its share. -/
theorem sum_work_update
    {i : NodeId}
    (hi : i ∈ G.nodes) (links : NodeId → PerfectLink) (link : PerfectLink) :
    ∑ j ∈ G.nodes, (Function.update links i link j).work G handed j + (links i).work G handed i
      = ∑ j ∈ G.nodes, (links j).work G handed j + link.work G handed i := by
  rw [← Finset.add_sum_erase _ _ hi, ← Finset.add_sum_erase G.nodes (fun j => (links j).work G handed j) hi,
    Function.update_self]
  have hrest : ∑ j ∈ G.nodes.erase i, (Function.update links i link j).work G handed j
      = ∑ j ∈ G.nodes.erase i, (links j).work G handed j := by
    refine Finset.sum_congr rfl fun j hj => ?_
    rw [Function.update_of_ne (Finset.ne_of_mem_erase hj)]
  rw [hrest]
  omega

/-- A new message is one message less to see. -/
theorem length_unseen_lt
    {seen : Finset String} {q : NodeId × Message}
    (hq : q ∈ handed)
    (hnew : G.digest (G.encode q.2) ∉ seen) :
    (handed.filter fun p => G.digest (G.encode p.2) ∉
        insert (G.digest (G.encode q.2)) seen).length
      < (handed.filter fun p => G.digest (G.encode p.2) ∉ seen).length := by
  have hsplit : (handed.filter fun p => G.digest (G.encode p.2) ∉
      insert (G.digest (G.encode q.2)) seen)
      = (handed.filter fun p => G.digest (G.encode p.2) ∉ seen).filter
          fun p => G.digest (G.encode p.2) ≠ G.digest (G.encode q.2) := by
    rw [List.filter_filter]
    refine List.filter_congr fun p _ => ?_
    simp [Finset.mem_insert, not_or]
  rw [hsplit, List.length_filter_lt_length_iff_exists]
  exact ⟨q, List.mem_filter.mpr ⟨hq, by simpa using hnew⟩, by simp⟩

/-- **Every step uses up work.** -/
theorem Wire.Spreads.work_step
    (hG : G.Connected handed)
    (h : w.Spreads G handed)
    (hstep : w.step G a = some w') :
    w'.work G handed < w.work G handed := by
  cases a with
  | request i =>
      simp only [Wire.step] at hstep
      split at hstep
      case h_1 => cases hstep
      case h_2 req rest hreqs =>
        cases hstep
        obtain ⟨m, rfl, hm⟩ := h.pending i req (by rw [hreqs]; exact List.mem_cons_self)
        have hsum := @sum_work_update G handed i (hG.handed_mem _ hm) w.links
          ⟨rest, (w.links i).seenMessages, (w.links i).delivered⟩
        have hself : (w.links i).work G handed i = PerfectLink.work G handed i
            ⟨rest, (w.links i).seenMessages, (w.links i).delivered⟩ +
              (1 + (G.peers i).length) := by
          unfold PerfectLink.work
          rw [hreqs, List.length_cons, Nat.succ_mul]
          simp only
          omega
        unfold Wire.work
        simp only [PerfectLink.process, List.length_append, PerfectLink.length_sendToPeers]
        omega
  | receive k =>
      simp only [Wire.step] at hstep
      split at hstep
      case h_1 => cases hstep
      case h_2 i raw hk =>
        cases hstep
        obtain ⟨hi, q, hq, hraw⟩ := h.carried _ (List.mem_of_getElem? hk)
        simp only at hraw hi
        subst hraw
        have hpos : k < w.flight.length := (List.getElem?_eq_some_iff.mp hk).1
        have hlength := List.length_eraseIdx_of_lt hpos
        rw [PerfectLink.receive_encode hG hq]
        unfold Wire.work
        split
        case isTrue =>
          simp only [Function.update_eq_self, List.append_nil]
          omega
        case isFalse hnew =>
          have hsum := @sum_work_update G handed i hi w.links {
            requests := (w.links i).requests
            seenMessages := insert (G.digest (G.encode q.2)) (w.links i).seenMessages
            delivered := (w.links i).delivered ++ [(q.2.sender, q.2)] }
          have hlt := length_unseen_lt hq hnew
          have hself : PerfectLink.work G handed i {
              requests := (w.links i).requests
              seenMessages := insert (G.digest (G.encode q.2)) (w.links i).seenMessages
              delivered := (w.links i).delivered ++ [(q.2.sender, q.2)] } +
                (G.peers i).length ≤ (w.links i).work G handed i := by
            unfold PerfectLink.work
            have hmul := Nat.mul_le_mul_right (G.peers i).length hlt
            rw [Nat.succ_mul] at hmul
            simp only
            omega
          simp only [List.length_append, PerfectLink.length_sendToPeers]
          omega

/-- A run has no more steps than there was work at its beginning. -/
theorem length_add_work_le
    (hG : G.Connected handed)
    {ls : List Delivery}
    (h : w.Spreads G handed)
    (hrun : System.exec (flooding G handed) System.anyStep w ls = some w') :
    ls.length + w'.work G handed ≤ w.work G handed := by
  induction ls generalizing w with
  | nil =>
      simp only [System.exec, Option.some.injEq] at hrun
      subst hrun
      simp
  | cons l ls ih =>
      rw [System.exec, if_pos (show System.anyStep w l from trivial)] at hrun
      split at hrun
      case h_1 w₁ hstep =>
        have hle := ih (h.step hG hstep) hrun
        have hlt := h.work_step hG hstep
        rw [List.length_cons]
        omega
      case h_2 => cases hrun

/-- The messages of the broadcasts are different. -/
theorem Gossip.Connected.nodup_events (hG : G.Connected handed) :
    (handed.map fun p => (p.2.sender, p.2)).Nodup := by
  refine List.Nodup.of_map (fun x : NodeId × Message => G.encode x.2) ?_
  rw [List.map_map]
  exact hG.different

/-- **Gossip delivers exactly once.**  Every order of the requests and packets comes
to an end, and then every node has delivered every message exactly once, and nothing
else. -/
theorem gossip_delivers_once
    (hG : G.Connected handed) :
    (∃ bound, ∀ ls w, System.exec (flooding G handed) System.anyStep (flooding G handed).init ls
        = some w → ls.length ≤ bound) ∧
    ∀ w, (flooding G handed).Reachable System.anyStep w → w.Quiet →
      ∀ i ∈ G.nodes, (w.links i).delivered.Perm (handed.map fun p => (p.2.sender, p.2)) := by
  constructor
  · refine ⟨(flooding G handed).init.work G handed, fun ls w hrun => ?_⟩
    have hle := length_add_work_le hG spreads_init hrun
    omega
  · intro w hw hquiet i hi
    have h := spreads_of_reachable hG hw
    rw [List.perm_ext_iff_of_nodup (h.once i) hG.nodup_events]
    intro x
    rw [h.delivered i x, List.mem_map]
    constructor
    · rintro ⟨p, hp, -, rfl⟩
      exact ⟨p, hp, rfl⟩
    · rintro ⟨p, hp, rfl⟩
      exact ⟨p, hp, h.seen_of_quiet hG hquiet hp hi, rfl⟩

end Invariants

/-! ## A ring of three nodes -/

section Ring

/-- The text of a nil vote. -/
def nilVoteText (v : Vote) : String :=
  "\x7b\"Vote\":\x7b\"vote_type\":\"" ++
    (match v.voteType with
      | .prevote => "Prevote"
      | .precommit => "Precommit") ++
    "\",\"height\":" ++ toString v.height.toNat ++ ",\"round\":" ++ toString v.round.toNat ++
    ",\"value\":null,\"sender\":" ++ toString v.sender.toNat ++ "\x7d\x7d"

/-- The nil prevote of a node in the first round. -/
def nilPrevote (i : NodeId) : Vote := ⟨.prevote, 1, 0, none, i⟩

/-- A digest that keeps all bytes. -/
def keepBytes (raw : Bytes) : String :=
  String.ofList (raw.map fun b => Char.ofNat b.toNat)

theorem keepBytes_injective : Function.Injective keepBytes := by
  have hchar : ∀ b : UInt8, (Char.ofNat b.toNat).toNat = b.toNat := by
    intro b
    have hlt := b.toNat_lt
    have hvalid : b.toNat.isValidChar := by
      left
      omega
    rw [Char.ofNat, dif_pos hvalid]
    rfl
  intro x y h
  have hlist := String.ofList_injective h
  refine List.map_injective_iff.mpr ?_ hlist
  intro b c hbc
  have hnat := congrArg Char.toNat hbc
  rw [hchar, hchar] at hnat
  exact UInt8.toNat_inj.mp hnat

/-- Nodes 0, 1 and 2 send to the next one. -/
def ring : Gossip where
  nodes := {0, 1, 2}
  peers i := if i = 0 then [1] else if i = 1 then [2] else if i = 2 then [0] else []
  encode
    | .vote v => (nilVoteText v).toUTF8.toList
    | .proposal _ => []
  decode raw :=
    if raw = (nilVoteText (nilPrevote 0)).toUTF8.toList then some (.vote (nilPrevote 0))
    else if raw = (nilVoteText (nilPrevote 1)).toUTF8.toList then some (.vote (nilPrevote 1))
    else none
  digest := keepBytes

/-- Nodes 0 and 1 broadcast a nil prevote each. -/
def twoVotes : List (NodeId × Message) :=
  [(0, .vote (nilPrevote 0)), (1, .vote (nilPrevote 1))]

theorem connected_ring : ring.Connected twoVotes := by
  have h01 : (1 : NodeId) ∈ ring.peers 0 := by decide
  have h12 : (2 : NodeId) ∈ ring.peers 1 := by decide
  have h20 : (0 : NodeId) ∈ ring.peers 2 := by decide
  have hzero : ∀ j ∈ ring.nodes, Relation.ReflTransGen (fun a b => b ∈ ring.peers a) 0 j := by
    intro j hj
    simp only [ring, Finset.mem_insert, Finset.mem_singleton] at hj
    rcases hj with rfl | rfl | rfl
    · exact Relation.ReflTransGen.refl
    · exact Relation.ReflTransGen.single h01
    · exact (Relation.ReflTransGen.single h01).tail h12
  refine ⟨by decide, ?_, ?_, ?_, by decide +kernel, ?_, keepBytes_injective⟩
  · intro i hi j hj
    simp only [ring, Finset.mem_insert, Finset.mem_singleton] at hi hj ⊢
    rcases hi with rfl | rfl | rfl <;> simp_all
  · intro i hi j hj
    refine Relation.ReflTransGen.trans ?_ (hzero j hj)
    simp only [ring, Finset.mem_insert, Finset.mem_singleton] at hi
    rcases hi with rfl | rfl | rfl
    · exact Relation.ReflTransGen.refl
    · exact (Relation.ReflTransGen.single h12).tail h20
    · exact Relation.ReflTransGen.single h20
  · intro p hp
    simp only [twoVotes, List.mem_cons, List.not_mem_nil, or_false] at hp
    rcases hp with rfl | rfl
    · decide
    · decide
  · intro p hp
    simp only [twoVotes, List.mem_cons, List.not_mem_nil, or_false] at hp
    rcases hp with rfl | rfl
    · decide +kernel
    · decide +kernel

/-- Both votes go around the ring. -/
theorem gossip_delivers_once_ring :
    ∃ w, (flooding ring twoVotes).Reachable System.anyStep w ∧ w.Quiet ∧
      ∀ i ∈ ring.nodes,
        (w.links i).delivered.Perm (twoVotes.map fun p => (p.2.sender, p.2)) := by
  obtain ⟨w, hw, hflight, h0, h1⟩ : ∃ w, (flooding ring twoVotes).Reachable System.anyStep w ∧
      w.flight = [] ∧ (w.links 0).requests = [] ∧ (w.links 1).requests = [] := by
    refine System.exists_reaches_of_exec
      [.request 0, .request 1, .receive 1, .receive 0, .receive 0, .receive 0, .receive 1,
        .receive 0, .receive 0, .receive 0] ?_
    decide +kernel
  have hquiet : w.Quiet := by
    refine ⟨hflight, fun i => List.eq_nil_iff_forall_not_mem.mpr fun req hreq => ?_⟩
    obtain ⟨m, -, hm⟩ := (spreads_of_reachable connected_ring hw).pending i req hreq
    simp only [twoVotes, List.mem_cons, Prod.mk.injEq, List.not_mem_nil, or_false] at hm
    rcases hm with ⟨rfl, -⟩ | ⟨rfl, -⟩
    · rw [h0] at hreq
      cases hreq
    · rw [h1] at hreq
      cases hreq
  exact ⟨w, hw, hquiet, (gossip_delivers_once connected_ring).2 w hw hquiet⟩

end Ring

end RustTendermint
end DistributedConsensus
