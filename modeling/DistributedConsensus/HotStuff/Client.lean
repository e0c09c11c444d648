import DistributedConsensus.Foundations.DictSums
import DistributedConsensus.HotStuff.Ledger
import Mathlib.Data.Finset.Card

/-!
# HotStuff: what the client accepts

The class `Client` of `hotstuff/client.py`.  Replies of a command are counted by their
`repr`, and the reply that completes a count of `f + 1` is accepted.  Before that no
count exceeds `f`, so the count that is completed is the one of the last reply: `f + 1`
replicas have sent replies with the `repr` of the accepted result.  They have sent the
accepted result itself if `repr` tells results apart, as it does for the outcomes of the
ledger, but not for every object (`accepted_supported`, `not_accepted_supported`).
-/

namespace DistributedConsensus
namespace HotStuff

open Foundations

/-- The replies by command and replica, and the accepted results. -/
structure Client (ρ : Type) where
  f : Int
  replies : Dict String (Dict Int ρ)
  accepted : Dict String ρ

/-- A callback: a replica reports the result of a command. -/
structure Reply (Cmd ρ : Type) where
  rid : Int
  cmd : Cmd
  result : ρ

namespace Client

section Defs

variable {Cmd ρ : Type} [Application Cmd]

def new (f : Int) : Client ρ := ⟨f, Dict.empty, Dict.empty⟩

/-- How often each text occurs among the replies. -/
def tally (repr : ρ → PyStr) (replies : Dict Int ρ) : Dict PyStr Int :=
  Dict.counts (replies.values.map repr)

/-- Store the reply, and accept it when some count reaches `f + 1`. -/
def onExecute (repr : ρ → PyStr) (c : Client ρ) (reply : Reply Cmd ρ) : Client ρ :=
  let k := cmdKey reply.cmd
  if c.accepted.contains k then c
  else
    let replies := (c.replies.getD k Dict.empty).set reply.rid reply.result
    let c := { c with replies := c.replies.set k replies }
    match (tally repr replies).values.max? with
    | none => c
    | some most =>
        if c.f + 1 ≤ most then { c with accepted := c.accepted.set k reply.result } else c

/-- The client after a sequence of callbacks. -/
def run (repr : ρ → PyStr) (f : Int) (calls : List (Reply Cmd ρ)) : Client ρ :=
  calls.foldl (onExecute repr) (new f)

/-- The latest reply of a replica for a command. -/
def latest (calls : List (Reply Cmd ρ)) (k : String) (rid : Int) : Option ρ :=
  ((calls.filter (fun call => cmdKey call.cmd = k ∧ call.rid = rid)).getLast?).map Reply.result

/-- At least `f + 1` distinct replicas have latest replies of a kind. -/
def Supported (f : Int) (calls : List (Reply Cmd ρ)) (k : String) (P : ρ → Prop) : Prop :=
  ∃ ids : List Int, ids.Nodup ∧ f + 1 ≤ ids.length ∧
    ∀ id ∈ ids, ∃ x, latest calls k id = some x ∧ P x

end Defs

section Tallies

variable {ρ : Type} (repr : ρ → PyStr)

/-- The replies with a text. -/
def count (replies : Dict Int ρ) (text : PyStr) : Nat :=
  replies.values.countP (fun x => repr x = text)

theorem count_set (replies : Dict Int ρ) (rid : Int) (x : ρ) (text : PyStr) :
    count repr (replies.set rid x) text ≤
      count repr replies text + if repr x = text then 1 else 0 := by
  have h := Dict.countP_values_set (fun x => decide (repr x = text)) replies rid x
  simp only [decide_eq_true_eq] at h
  unfold count
  omega

/-- The largest count reaches a bound if the count of some reply does. -/
theorem max?_tally
    (replies : Dict Int ρ) (bound : Int) :
    (∃ most, (tally repr replies).values.max? = some most ∧ bound ≤ most) ↔
      ∃ x ∈ replies.values, bound ≤ count repr replies (repr x) := by
  have hcount : ∀ x, (replies.values.map repr).countP (fun text => text = repr x) =
      count repr replies (repr x) := fun x => List.countP_map
  constructor
  · rintro ⟨most, hmost, hle⟩
    obtain ⟨text, htext, rfl⟩ := Dict.mem_values_counts.mp (List.max?_mem hmost)
    obtain ⟨x, hx, rfl⟩ := List.mem_map.mp htext
    rw [hcount] at hle
    exact ⟨x, hx, hle⟩
  · rintro ⟨x, hx, hle⟩
    have hmem : (count repr replies (repr x) : Int) ∈ (tally repr replies).values :=
      Dict.mem_values_counts.mpr ⟨repr x, List.mem_map_of_mem hx, by rw [hcount]⟩
    cases hmax : (tally repr replies).values.max? with
    | none =>
        rw [List.max?_eq_none_iff] at hmax
        rw [hmax] at hmem
        cases hmem
    | some most =>
        exact ⟨most, rfl, hle.trans ((List.max?_eq_some_iff.mp hmax).2 _ hmem)⟩

end Tallies

section Runs

variable {Cmd ρ : Type} [Application Cmd] {repr : ρ → PyStr} {f : Int}
  {calls : List (Reply Cmd ρ)}

/-- What a callback does to the replies and to the accepted results. -/
theorem onExecute_cases (repr : ρ → PyStr) (c : Client ρ) (reply : Reply Cmd ρ) :
    (∃ r, c.accepted.get? (cmdKey reply.cmd) = some r) ∧ onExecute repr c reply = c ∨
      c.accepted.get? (cmdKey reply.cmd) = none ∧
        ∃ replies : Dict Int ρ,
          replies = (c.replies.getD (cmdKey reply.cmd) Dict.empty).set reply.rid reply.result ∧
          ((∃ x ∈ replies.values, c.f + 1 ≤ count repr replies (repr x)) ∧
              onExecute repr c reply = { c with
                replies := c.replies.set (cmdKey reply.cmd) replies
                accepted := c.accepted.set (cmdKey reply.cmd) reply.result } ∨
            (∀ x ∈ replies.values, (count repr replies (repr x) : Int) ≤ c.f) ∧
              onExecute repr c reply =
                { c with replies := c.replies.set (cmdKey reply.cmd) replies }) := by
  cases haccepted : c.accepted.get? (cmdKey reply.cmd) with
  | some r =>
      refine Or.inl ⟨⟨r, rfl⟩, ?_⟩
      simp [onExecute, Dict.contains, haccepted]
  | none =>
      refine Or.inr ⟨rfl, _, rfl, ?_⟩
      set replies := (c.replies.getD (cmdKey reply.cmd) Dict.empty).set reply.rid reply.result
        with hreplies
      have hcross := max?_tally repr replies (c.f + 1)
      have hopen : c.accepted.contains (cmdKey reply.cmd) = false := by
        simp [Dict.contains, haccepted]
      unfold onExecute
      simp only [hopen, Bool.false_eq_true, if_false, ← hreplies]
      by_cases hreached : ∃ x ∈ replies.values, c.f + 1 ≤ count repr replies (repr x)
      · left
        obtain ⟨most, hmost, hle⟩ := hcross.mpr hreached
        refine ⟨hreached, ?_⟩
        simp only [hmost, if_pos hle]
      · right
        refine ⟨fun x hx => ?_, ?_⟩
        · by_contra hlt
          exact hreached ⟨x, hx, by omega⟩
        · cases hmost : (tally repr replies).values.max? with
          | none => rfl
          | some most =>
              have hlt : ¬ c.f + 1 ≤ most := fun hle => hreached (hcross.mp ⟨most, hmost, hle⟩)
              simp only [if_neg hlt]

theorem run_concat (calls : List (Reply Cmd ρ)) (reply : Reply Cmd ρ) :
    run repr f (calls ++ [reply]) = onExecute repr (run repr f calls) reply := by
  simp [run]

theorem latest_concat
    (calls : List (Reply Cmd ρ)) (reply : Reply Cmd ρ) (k : String) (rid : Int) :
    latest (calls ++ [reply]) k rid =
      if cmdKey reply.cmd = k ∧ reply.rid = rid then some reply.result else latest calls k rid := by
  unfold latest
  by_cases h : cmdKey reply.cmd = k ∧ reply.rid = rid
  · rw [if_pos h]
    simp [List.filter_append, h]
  · rw [if_neg h]
    simp [List.filter_append, h]

/-- The replies of a command are the latest ones, and none of them has reached the
threshold, until a result is accepted. -/
structure Tallied (repr : ρ → PyStr) (f : Int) (calls : List (Reply Cmd ρ)) (c : Client ρ) :
    Prop where
  threshold : c.f = f
  recent : ∀ k, c.accepted.get? k = none → ∀ rid,
    (c.replies.getD k Dict.empty).get? rid = latest calls k rid
  below : ∀ k, c.accepted.get? k = none → ∀ x ∈ (c.replies.getD k Dict.empty).values,
    (count repr (c.replies.getD k Dict.empty) (repr x) : Int) ≤ f

/-- The replies that a callback of this command leaves are the latest ones. -/
theorem Tallied.get?_set
    {c : Client ρ} {reply : Reply Cmd ρ}
    (h : Tallied repr f calls c)
    (hopen : c.accepted.get? (cmdKey reply.cmd) = none)
    (rid : Int) :
    ((c.replies.getD (cmdKey reply.cmd) Dict.empty).set reply.rid reply.result).get? rid =
      latest (calls ++ [reply]) (cmdKey reply.cmd) rid := by
  rw [Dict.get?_set, latest_concat, h.recent _ hopen]
  by_cases hrid : reply.rid = rid
  · rw [if_pos hrid.symm, if_pos ⟨rfl, hrid⟩]
  · rw [if_neg (Ne.symm hrid), if_neg fun hand => hrid hand.2]

theorem Tallied.onExecute
    {c : Client ρ}
    (h : Tallied repr f calls c)
    (reply : Reply Cmd ρ) :
    Tallied repr f (calls ++ [reply]) (onExecute repr c reply) := by
  have hother : ∀ k, cmdKey reply.cmd ≠ k → ∀ rid,
      latest (calls ++ [reply]) k rid = latest calls k rid := by
    intro k hk rid
    rw [latest_concat, if_neg fun hand => hk hand.1]
  rcases onExecute_cases repr c reply with
    ⟨⟨r, hr⟩, heq⟩ | ⟨hopen, replies, hreplies, ⟨-, heq⟩ | ⟨hbelow, heq⟩⟩
  · rw [heq]
    refine ⟨h.threshold, fun k hk rid => ?_, h.below⟩
    have hne : cmdKey reply.cmd ≠ k := by
      rintro rfl
      rw [hr] at hk
      cases hk
    rw [hother k hne, h.recent k hk]
  · rw [heq]
    have hclosed : ∀ k, (c.accepted.set (cmdKey reply.cmd) reply.result).get? k = none →
        cmdKey reply.cmd ≠ k ∧ c.accepted.get? k = none := by
      intro k hk
      rw [Dict.get?_set] at hk
      split at hk
      case isTrue => cases hk
      case isFalse hne => exact ⟨Ne.symm hne, hk⟩
    refine ⟨h.threshold, fun k hk rid => ?_, fun k hk x hx => ?_⟩
    · obtain ⟨hne, hk⟩ := hclosed k hk
      rw [Dict.getD_set, if_neg (Ne.symm hne), hother k hne, h.recent k hk]
    · obtain ⟨hne, hk⟩ := hclosed k hk
      rw [Dict.getD_set, if_neg (Ne.symm hne)] at hx ⊢
      exact h.below k hk x hx
  · rw [heq]
    refine ⟨h.threshold, fun k hk rid => ?_, fun k hk x hx => ?_⟩
    · rw [Dict.getD_set]
      split
      case isTrue hsame =>
        rw [hsame, hreplies]
        exact h.get?_set hopen rid
      case isFalse hne => rw [hother k (Ne.symm hne), h.recent k hk]
    · rw [Dict.getD_set] at hx ⊢
      split at hx
      case isTrue hsame =>
        rw [if_pos hsame, ← h.threshold]
        exact hbelow x hx
      case isFalse hne =>
        rw [if_neg hne]
        exact h.below k hk x hx

theorem tallied_run (repr : ρ → PyStr) (f : Int) (calls : List (Reply Cmd ρ)) :
    Tallied repr f calls (run repr f calls) := by
  induction calls using List.reverseRecOn with
  | nil => exact ⟨rfl, fun _ _ _ => rfl, fun _ _ x hx => nomatch hx⟩
  | append_singleton calls reply ih =>
      rw [run_concat]
      exact ih.onExecute reply

/-- The replicas with a given text among the latest replies. -/
theorem supported_of_count
    {replies : Dict Int ρ} {k : String} {text : PyStr}
    (hlatest : ∀ rid, replies.get? rid = latest calls k rid)
    (hcount : f + 1 ≤ count repr replies text) :
    Supported f calls k (fun x => repr x = text) := by
  refine ⟨(replies.entries.filter (fun e => repr e.2 = text)).map Prod.fst, ?_, ?_, ?_⟩
  · exact replies.nodup.sublist (List.Sublist.map _ List.filter_sublist)
  · rw [count, Dict.values, List.countP_map, List.countP_eq_length_filter] at hcount
    rw [List.length_map]
    exact hcount
  · intro id hid
    obtain ⟨⟨rid, x⟩, hmem, rfl⟩ := List.mem_map.mp hid
    obtain ⟨hentry, htext⟩ := List.mem_filter.mp hmem
    exact ⟨x, (hlatest rid).symm.trans (Dict.get?_of_mem_entries hentry),
      of_decide_eq_true htext⟩

/-- The count that the last reply completes is its own. -/
theorem count_of_crossing
    {replies : Dict Int ρ} {rid : Int} {x y : ρ}
    (hbelow : ∀ x ∈ replies.values, (count repr replies (repr x) : Int) ≤ f)
    (hy : y ∈ (replies.set rid x).values)
    (hcross : f + 1 ≤ count repr (replies.set rid x) (repr y)) :
    f + 1 ≤ count repr (replies.set rid x) (repr x) := by
  by_cases hsame : repr x = repr y
  · rw [hsame]
    exact hcross
  · exfalso
    have hset := count_set repr replies rid x (repr y)
    rw [if_neg hsame, Nat.add_zero] at hset
    rcases Dict.mem_values_set hy with rfl | hold
    · exact hsame rfl
    · have := hbelow y hold
      omega

/-- An accepted result is not replaced. -/
theorem accepted_onExecute
    {c : Client ρ} {k : String} {r : ρ}
    (h : c.accepted.get? k = some r)
    (reply : Reply Cmd ρ) :
    (onExecute repr c reply).accepted.get? k = some r := by
  rcases onExecute_cases repr c reply with
    ⟨-, heq⟩ | ⟨hopen, _, -, ⟨-, heq⟩ | ⟨-, heq⟩⟩
  · rw [heq]
    exact h
  · have hne : k ≠ cmdKey reply.cmd := by
      rintro rfl
      rw [hopen] at h
      cases h
    rw [heq]
    exact (Dict.get?_set _ _ _ _).trans ((if_neg hne).trans h)
  · rw [heq]
    exact h

theorem accepted_append
    {k : String} {r : ρ}
    (h : (run repr f calls).accepted.get? k = some r)
    (more : List (Reply Cmd ρ)) :
    (run repr f (calls ++ more)).accepted.get? k = some r := by
  induction more using List.reverseRecOn with
  | nil => rwa [List.append_nil]
  | append_singleton more reply ih =>
      rw [← List.append_assoc, run_concat]
      exact accepted_onExecute ih reply

/-- A callback that accepts a result has it, and the replicas to support it. -/
theorem supported_of_accepts
    {k : String} {r : ρ} {reply : Reply Cmd ρ}
    (hopen : (run repr f calls).accepted.get? k = none)
    (h : (run repr f (calls ++ [reply])).accepted.get? k = some r) :
    Supported f (calls ++ [reply]) k (fun x => repr x = repr r) := by
  have htallied := tallied_run repr f calls
  rw [run_concat] at h
  rcases onExecute_cases repr (run repr f calls) reply with
    ⟨-, heq⟩ | ⟨hfirst, replies, hreplies, ⟨⟨y, hy, hcross⟩, heq⟩ | ⟨-, heq⟩⟩
  · rw [heq, hopen] at h
    cases h
  · rw [heq, Dict.get?_set] at h
    split at h
    case isFalse =>
      rw [hopen] at h
      cases h
    case isTrue hk =>
      cases h
      rw [hk]
      rw [hreplies] at hy hcross
      refine supported_of_count (htallied.get?_set hfirst) ?_
      rw [htallied.threshold] at hcross
      exact count_of_crossing (htallied.below _ hfirst) hy hcross
  · rw [heq, hopen] at h
    cases h

/-- Every accepted result was accepted by some callback. -/
theorem exists_accepts
    {k : String} {r : ρ}
    (h : (run repr f calls).accepted.get? k = some r) :
    ∃ before reply after, calls = before ++ reply :: after ∧
      (run repr f before).accepted.get? k = none ∧
      (run repr f (before ++ [reply])).accepted.get? k = some r := by
  induction calls using List.reverseRecOn with
  | nil => cases h
  | append_singleton calls reply ih =>
      cases hbefore : (run repr f calls).accepted.get? k with
      | none => exact ⟨calls, reply, [], rfl, hbefore, h⟩
      | some r' =>
          have hkept := accepted_append hbefore [reply]
          rw [h] at hkept
          obtain rfl := Option.some.inj hkept
          obtain ⟨before, call, after, rfl, hopen, haccepts⟩ := ih hbefore
          exact ⟨before, call, after ++ [reply], by simp, hopen, haccepts⟩

/-- Among `f + 1` replicas there is one that is not faulty. -/
theorem Supported.exists_correct
    {k : String} {P : ρ → Prop}
    (h : Supported f calls k P)
    (faulty : Finset Int)
    (hfaulty : (faulty.card : Int) ≤ f) :
    ∃ id, id ∉ faulty ∧ ∃ x, latest calls k id = some x ∧ P x := by
  obtain ⟨ids, hnodup, hlength, hids⟩ := h
  have hcard : faulty.card < ids.toFinset.card := by
    rw [List.toFinset_card_of_nodup hnodup]
    omega
  obtain ⟨id, hid, hcorrect⟩ := Finset.exists_mem_notMem_of_card_lt_card hcard
  exact ⟨id, hcorrect, hids id (List.mem_toFinset.mp hid)⟩

end Runs

end Client

/-- **Sound acceptance.**  When a result is accepted, the latest replies of at least
`f + 1` distinct replicas have its `repr`, so if at most `f` are faulty then a correct
replica has reported such a result; they have reported the accepted result itself if no
two results have one `repr`.  An accepted result never changes. -/
theorem accepted_supported
    {Cmd ρ : Type} [Application Cmd]
    (repr : ρ → PyStr) (f : Int) (calls more : List (Reply Cmd ρ)) (k : String) (r : ρ)
    (h : (Client.run repr f calls).accepted.get? k = some r) :
    (∃ before reply after, calls = before ++ reply :: after ∧
      (Client.run repr f before).accepted.get? k = none ∧
      (Client.run repr f (before ++ [reply])).accepted.get? k = some r ∧
      Client.Supported f (before ++ [reply]) k (fun x => repr x = repr r) ∧
      (∀ faulty : Finset Int, (faulty.card : Int) ≤ f → ∃ id, id ∉ faulty ∧
        ∃ x, Client.latest (before ++ [reply]) k id = some x ∧ repr x = repr r) ∧
      (Function.Injective repr →
        Client.Supported f (before ++ [reply]) k (fun x => x = r))) ∧
    (Client.run repr f (calls ++ more)).accepted.get? k = some r := by
  refine ⟨?_, Client.accepted_append h more⟩
  obtain ⟨before, reply, after, hsplit, hopen, haccepts⟩ := Client.exists_accepts h
  have hsupported := Client.supported_of_accepts hopen haccepts
  refine ⟨before, reply, after, hsplit, hopen, haccepts, hsupported, ?_, ?_⟩
  · exact fun faulty hfaulty => hsupported.exists_correct faulty hfaulty
  · intro hinjective
    obtain ⟨ids, hnodup, hlength, hids⟩ := hsupported
    refine ⟨ids, hnodup, hlength, fun id hid => ?_⟩
    obtain ⟨x, hlatest, hx⟩ := hids id hid
    exact ⟨x, hlatest, hinjective hx⟩

/-! ## Outcomes and other results -/

/-- The outcomes of the ledger are strings. -/
def Outcome.text : Outcome → String
  | .ok => "OK"
  | .insufficient => "REJECT(insufficient_funds)"
  | .nonceReused => "REJECT(nonce_reused)"
  | .malformed => "REJECT(malformed)"

def Outcome.repr (outcome : Outcome) : PyStr := pyStr ("'" ++ outcome.text ++ "'")

/-- No two outcomes have one text. -/
theorem Outcome.repr_injective : Function.Injective Outcome.repr := by
  intro a b h
  cases a <;> cases b <;> first | rfl | exact absurd h (by decide +kernel)

/-- A faulty replica contradicts itself; the outcome of the two others is accepted. -/
def bankReplies : List (Reply String Outcome) :=
  [⟨0, "pay", .ok⟩, ⟨1, "pay", .insufficient⟩, ⟨1, "pay", .malformed⟩, ⟨2, "pay", .ok⟩]

theorem accepted_supported_sample :
    (Client.run Outcome.repr 1 bankReplies).accepted.get? "pay" = some .ok ∧
      ∃ before : List (Reply String Outcome),
        Client.Supported 1 before "pay" (fun x => x = Outcome.ok) := by
  have haccepted : (Client.run Outcome.repr 1 bankReplies).accepted.get? "pay" = some .ok := by
    decide +kernel
  obtain ⟨⟨before, reply, -, -, -, -, -, -, hsupported⟩, -⟩ :=
    accepted_supported Outcome.repr 1 bankReplies [] "pay" .ok haccepted
  exact ⟨haccepted, _, hsupported Outcome.repr_injective⟩

/-- The text of an integer in a formatted string. -/
def PyInt.format : PyInt → PyStr
  | .int i => ofChars (decimal i)
  | .bool true => pyStr "True"
  | .bool false => pyStr "False"

/-- `Transfer.__repr__`. -/
def Transfer.repr (t : Transfer) : PyStr :=
  pyStr "TRANSFER(" ++ t.sender ++ pyStr "->" ++ t.recipient ++ pyStr " " ++ t.amount.format ++
    pyStr " #" ++ t.nonce.format ++ pyStr ")"

/-- The transfer of `A->B` to `C`, and the transfer of `A` to `B->C`. -/
def arrowSender : Transfer := ⟨pyStr "A->B", pyStr "C", .int 10, .int 1⟩

def arrowRecipient : Transfer := ⟨pyStr "A", pyStr "B->C", .int 10, .int 1⟩

/-- Two replicas reply with the two transfers. -/
def arrowReplies : List (Reply String Transfer) :=
  [⟨0, "echo", arrowSender⟩, ⟨1, "echo", arrowRecipient⟩]

/-- **Results with one text.**  The second reply completes the count of both, and is
accepted although no other replica has sent it. -/
theorem not_accepted_supported :
    ¬ ∀ (f : Int) (calls : List (Reply String Transfer)) (k : String) (r : Transfer),
      (Client.run Transfer.repr f calls).accepted.get? k = some r →
        ∃ before reply after, calls = before ++ reply :: after ∧
          (Client.run Transfer.repr f before).accepted.get? k = none ∧
          (Client.run Transfer.repr f (before ++ [reply])).accepted.get? k = some r ∧
          Client.Supported f (before ++ [reply]) k (fun x => x = r) := by
  intro hclaim
  obtain ⟨before, reply, after, hsplit, -, -, ids, hnodup, hlength, hids⟩ :=
    hclaim 1 arrowReplies "echo" arrowRecipient (by decide +kernel)
  have hone : ∀ id ∈ ids, id = 1 := by
    intro id hid
    obtain ⟨x, hlatest, rfl⟩ := hids id hid
    obtain ⟨call, hlast, hresult⟩ := Option.map_eq_some_iff.mp hlatest
    have hcall := List.mem_filter.mp (List.mem_of_getLast? hlast)
    have hmem : call ∈ arrowReplies := by
      rw [hsplit, ← List.singleton_append, ← List.append_assoc]
      exact List.mem_append_left _ hcall.1
    have hrid := (of_decide_eq_true hcall.2).2
    rcases List.mem_cons.mp hmem with rfl | hmem
    · exact absurd hresult (by decide +kernel)
    · rw [List.mem_singleton.mp hmem] at hrid
      exact hrid.symm
  have hshort : ids.length ≤ [1].length :=
    (hnodup.subperm fun id hid => List.mem_singleton.mpr (hone id hid)).length_le
  simp only [List.length_singleton] at hshort
  omega

end HotStuff
end DistributedConsensus
