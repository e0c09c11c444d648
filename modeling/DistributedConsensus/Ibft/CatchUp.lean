import DistributedConsensus.Ibft.Agreement

/-!
# IBFT: catching up with a decision

A decided node answers a round change with its commit certificate.  The
certificate of a correct node always passes `validateCommitCertificate`, for
its own instance and with the value that it has decided, whichever way it has
decided.

The message around the certificate names the prepared round of its sender.  A
node can decide on the commit messages of others without having prepared
anything, and a message of round 0 is not valid.  So the receiver catches up
exactly if the sender has prepared a value or has caught up itself:
`catchesUp_iff_prepared`.
-/

namespace DistributedConsensus
namespace Ibft

open Foundations

/-- A signature made with the key of a validator passes its check. -/
def SignsOwn (keys : SignatureScheme) (n : Nat) : Prop :=
  ∀ (i : Fin n) (msg : Message), msg.fromId = i →
    keys.verifySignature { msg with signature := keys.signMessage msg i } = true

variable {n : Nat} {keys : SignatureScheme} {byz : Finset (Fin n)}

/-- A valid message names an instance of the protocol. -/
theorem lambda_pos_of_valid
    {msg : Message} {validators : List Int}
    (h : isValidMessage keys msg validators = true) :
    0 < msg.lambda := by
  by_contra hnot
  unfold isValidMessage at h
  split at h
  · cases h
  · rw [if_pos (by omega : msg.lambda ≤ 0)] at h
    simp at h

/-! ## Commit certificates -/

section Certificates

variable {lambda round : Int} {value : String}

/-- A commit message for a value in a round. -/
structure IsCommitFor (keys : SignatureScheme) (n : Nat) (lambda round : Int) (value : String)
    (m : Message) : Prop where
  valid : isValidMessage keys m (validatorsFromCount n) = true
  type : m.type = .commit
  lambda : m.lambda = lambda
  round : m.round = round
  value : m.value = value

/-- The loop accepts commit messages that agree with the first one. -/
theorem scanCommitCertificate_of_commits
    {l : List Message} {value' : String} {round' : Int} {seen : Finset Int}
    (hl : ∀ m ∈ l, IsCommitFor keys n lambda round value m)
    (hstart : value' = "" ∧ l ≠ [] ∨ value' = value ∧ round' = round) :
    Node.scanCommitCertificate keys lambda n l value' round' seen =
      some (value, round, seen ∪ (l.map (fun m => m.fromId)).toFinset) := by
  induction l generalizing value' round' seen with
  | nil =>
      rcases hstart with ⟨-, hne⟩ | ⟨rfl, rfl⟩
      · exact absurd rfl hne
      · simp [Node.scanCommitCertificate]
  | cons m rest ih =>
      have hm := hl m List.mem_cons_self
      have hkeep : (if value' = "" then (m.value, m.round) else (value', round')) =
          (value, round) := by
        rcases hstart with ⟨rfl, -⟩ | ⟨rfl, rfl⟩
        · simp [hm.value, hm.round]
        · simp [hm.value, hm.round]
      unfold Node.scanCommitCertificate
      simp only [hm.valid, hm.type, hm.lambda, Bool.not_true, Bool.false_eq_true, if_false,
        ne_eq, not_true_eq_false, hkeep]
      simp only [hm.value, hm.round, not_true_eq_false, or_self, if_false]
      rw [ih (fun m' hm' => hl m' (List.mem_cons_of_mem m hm')) (Or.inr ⟨rfl, rfl⟩)]
      simp [Finset.insert_union, Finset.union_insert]

theorem quorumSize_pos (n : Nat) : 0 < quorumSize n := by
  unfold quorumSize
  omega

/-- A quorum of commit messages of distinct senders is a valid certificate. -/
theorem validateCommitCertificate_of_commits
    {certificate : List Message}
    (hcommits : ∀ m ∈ certificate, IsCommitFor keys n lambda round value m)
    (hnodup : (certificate.map (fun m => m.fromId)).Nodup)
    (hquorum : quorumSize n ≤ certificate.length) :
    Node.validateCommitCertificate keys certificate lambda n = some (value, round) := by
  have hne : certificate ≠ [] := by
    rintro rfl
    have hpos := quorumSize_pos n
    simp only [List.length_nil] at hquorum
    omega
  have hcard : (certificate.map (fun m => m.fromId)).toFinset.card = certificate.length := by
    rw [List.toFinset_card_of_nodup hnodup, List.length_map]
  unfold Node.validateCommitCertificate
  rw [if_neg (by omega), scanCommitCertificate_of_commits hcommits (Or.inl ⟨rfl, hne⟩)]
  simp only [Finset.empty_union]
  rw [if_neg (by omega)]

/-- A valid certificate contains a commit message for its value. -/
theorem exists_commit_of_validateCommitCertificate
    {certificate : List Message}
    (h : Node.validateCommitCertificate keys certificate lambda n = some (value, round)) :
    certificate ≠ [] ∧ ∃ m ∈ certificate, IsCommitFor keys n lambda round value m := by
  unfold Node.validateCommitCertificate at h
  split at h
  case isTrue => cases h
  case isFalse hlength =>
    split at h
    case h_1 => cases h
    case h_2 value' round' seen hscan =>
      split at h
      case isTrue => cases h
      case isFalse hcard =>
        simp only [Option.some.injEq, Prod.mk.injEq] at h
        obtain ⟨rfl, rfl⟩ := h
        have hpos := quorumSize_pos n
        obtain ⟨k, hk⟩ := Finset.card_pos.mp (show 0 < seen.card by omega)
        obtain ⟨-, hseen⟩ := scanCommitCertificate_spec certificate "" 0 ∅ hscan
        rcases hseen k hk with hempty | ⟨m, hm, -, hvalid, htype, hlambda, hvalue, hround⟩
        · simp at hempty
        · exact ⟨List.ne_nil_of_mem hm, m, hm, hvalid, htype, hlambda, hround, hvalue⟩

/-- The value of a valid certificate passes the application's check, and its
round is a round of the protocol. -/
theorem beta_of_validateCommitCertificate
    {certificate : List Message}
    (h : Node.validateCommitCertificate keys certificate lambda n = some (value, round)) :
    beta value = true ∧ 1 ≤ round := by
  obtain ⟨-, m, -, hcommit⟩ := exists_commit_of_validateCommitCertificate h
  obtain ⟨-, -, hround, hcontent⟩ := isValidMessage_spec hcommit.valid
  simp only [isValidContent, hcommit.type] at hcontent
  rw [hcommit.value] at hcontent
  rw [hcommit.round] at hround
  exact ⟨hcontent, hround⟩

end Certificates

/-! ## The certificate of a correct node -/

/-- What is kept of a correct node and its own announcements. -/
structure Certified (keys : SignatureScheme) (i : Fin n) (nd : Node) (sent : List Message) :
    Prop where
  id_eq : nd.id = i
  validators_eq : nd.validators = validatorsFromCount n
  mode_eq : nd.byzantineMode = .none
  round_pos : 1 ≤ nd.currentRound
  prepared_nonneg : 0 ≤ nd.preparedRound
  commits : ∀ key k m, (k, m) ∈ (nd.commitMessages.getD key Dict.empty).entries →
    m.fromId = k ∧ IsCommitFor keys n key.lambda key.round key.value m
  certificate : nd.decided = true → ∃ r,
    Node.validateCommitCertificate keys nd.decisionCertificate nd.lambda n =
      some (nd.decisionValue, r)
  announced : ∀ m ∈ sent, m.fromId = i → m.type = .roundChange → m.lambda = nd.lambda

namespace Certified

variable {i : Fin n} {nd : Node} {sent sent' : List Message} {msg : Message}

/-- Messages that are no round changes of another instance keep the invariant. -/
theorem extend
    (h : Certified keys i nd sent)
    (hnew : ∀ m ∈ sent', m ∈ sent ∨ (m.fromId = i → m.type = .roundChange → m.lambda = nd.lambda)) :
    Certified keys i nd sent' := by
  refine { h with announced := ?_ }
  intro m hm hfrom htype
  rcases hnew m hm with hold | hother
  · exact h.announced m hold hfrom htype
  · exact hother hfrom htype

theorem recordCommit
    (h : Certified keys i nd sent)
    (hvalid : isValidMessage keys msg nd.validators = true)
    (htype : msg.type = .commit) :
    Certified keys i (nd.recordCommit msg) sent := by
  refine { h with commits := ?_ }
  intro key k m hm
  simp only [Node.recordCommit, Dict.getD_set] at hm
  split at hm
  case isTrue hkey =>
    rcases Dict.mem_entries_set hm with heq | hold
    · obtain ⟨rfl, rfl⟩ := Prod.mk.inj heq
      rw [h.validators_eq] at hvalid
      rw [hkey]
      exact ⟨rfl, hvalid, htype, rfl, rfl, rfl⟩
    · rw [hkey]
      exact h.commits _ k m hold
  case isFalse => exact h.commits key k m hm

/-- A quorum of stored commit messages is a valid certificate. -/
theorem concluded
    {ρ : MapOrders} {value : String}
    (h : Certified keys i nd sent)
    (hquorum : quorumSize nd.validators.length ≤
      (nd.commitMessages.getD (messageKey nd.lambda nd.currentRound value) Dict.empty).size) :
    Certified keys i (nd.concluded value
      (nd.commitCertificateForKey ρ (messageKey nd.lambda nd.currentRound value))) sent := by
  refine { h with certificate := fun _ => ⟨nd.currentRound, ?_⟩ }
  obtain ⟨votes, hvotes⟩ : ∃ votes, nd.commitMessages.getD
      (messageKey nd.lambda nd.currentRound value) Dict.empty = votes := ⟨_, rfl⟩
  have hstored := h.commits (messageKey nd.lambda nd.currentRound value)
  rw [h.validators_eq, length_validatorsFromCount] at hquorum
  simp only [Node.concluded, Node.commitCertificateForKey]
  rw [hvotes] at hquorum hstored ⊢
  have hperm := ρ.slices.perm votes
  have hsenders : votes.values.map (fun m => m.fromId) = votes.keys := by
    unfold Dict.values Dict.keys
    rw [List.map_map]
    apply List.map_congr_left
    rintro ⟨k, m⟩ hp
    exact (hstored k m hp).1
  apply validateCommitCertificate_of_commits
  · intro m hm
    obtain ⟨⟨k, m'⟩, hp, rfl⟩ := List.mem_map.mp (RangeOrder.mem_visit.mp hm)
    exact (hstored k m' hp).2
  · rw [(hperm.map (fun m => m.fromId)).nodup_iff, hsenders]
    exact votes.nodup
  · rw [hperm.length_eq, Dict.length_values]
    exact hquorum

/-- A node that catches up takes over a certificate that it has checked. -/
theorem caughtUp
    {value : String} {round : Int} {certificate : List Message}
    (h : Certified keys i nd sent)
    (hcert : Node.validateCommitCertificate keys certificate nd.lambda nd.validators.length =
      some (value, round)) :
    Certified keys i (nd.caughtUp value round certificate) sent := by
  rw [h.validators_eq, length_validatorsFromCount] at hcert
  have hround : 1 ≤ round := (beta_of_validateCommitCertificate hcert).2
  refine { h with prepared_nonneg := ?_, certificate := fun _ => ⟨round, hcert⟩ }
  exact le_trans (by decide) hround

theorem entered
    {round : Int}
    (h : Certified keys i nd sent)
    (hlater : nd.currentRound < round) :
    Certified keys i (nd.entered round) sent := by
  have hpos := h.round_pos
  refine { h with round_pos := ?_, commits := ?_ }
  · simp only [Node.entered]
    omega
  · intro key k m hm
    simp only [Node.entered, Dict.getD_empty] at hm
    cases hm

end Certified

/-! ## Actions, steps and runs -/

/-- What is kept within one step of a correct node that began with the network
`base`. -/
structure Keeps (keys : SignatureScheme) (i : Fin n) (lambda : Int) (base : Network)
    (s : Node × Network) : Prop where
  node : Certified keys i s.1 s.2.messages
  lambda_eq : s.1.lambda = lambda
  grows : base.queue ⊆ s.2.queue
  own : ∀ m ∈ s.2.messages, m ∈ base.messages ∨ m.fromId = i

theorem queue_subset_broadcast (net : Network) (msg : Message) :
    net.queue ⊆ (net.broadcast msg).queue := by
  unfold Network.broadcast
  generalize net.nodeOrder = ids
  induction ids generalizing net with
  | nil => exact List.Subset.refl _
  | cons id ids ih =>
      rw [List.foldl_cons]
      exact List.Subset.trans (List.subset_append_left _ _) (ih (net.send id msg))

section Steps

variable {i : Fin n} {lambda : Int} {base : Network} {ρ : MapOrders}
variable {nd nd' : Node} {net net' : Network} {s t : Node × Network}

/-- The network has taken one more message of the node. -/
theorem Keeps.of_message
    {msg : Message}
    (h : Keeps keys i lambda base (nd, net))
    (hqueue : net.queue ⊆ net'.queue)
    (hnew : ∀ m ∈ net'.messages, m ∈ net.messages ∨ m = msg)
    (hfrom : msg.fromId = i)
    (hannounced : msg.type = .roundChange → msg.lambda = nd'.lambda)
    (hlambda : nd'.lambda = nd.lambda)
    (hnode : Certified keys i nd' net.messages) :
    Keeps keys i lambda base (nd', net') where
  node := by
    apply hnode.extend
    intro m hm
    rcases hnew m hm with hold | rfl
    · exact Or.inl hold
    · exact Or.inr (fun _ => hannounced)
  lambda_eq := hlambda.trans h.lambda_eq
  grows := List.Subset.trans h.grows hqueue
  own m hm := by
    rcases hnew m hm with hold | rfl
    · exact h.own m hold
    · exact Or.inr hfrom

/-- The network has taken a broadcast of the node. -/
theorem Keeps.of_broadcast
    {msg : Message}
    (h : Keeps keys i lambda base (nd, net))
    (hfrom : msg.fromId = i)
    (hannounced : msg.type = .roundChange → msg.lambda = nd'.lambda)
    (hlambda : nd'.lambda = nd.lambda)
    (hnode : Certified keys i nd' net.messages) :
    Keeps keys i lambda base (nd', net.broadcast msg) :=
  h.of_message (queue_subset_broadcast net msg) (fun _ hm => mem_messages_broadcast hm) hfrom
    hannounced hlambda hnode

/-- Every action of a correct node keeps the invariant. -/
theorem Keeps.action
    {K : Message → Prop}
    (h : Keeps keys i lambda base s)
    (hact : Action keys ρ K s t) :
    Keeps keys i lambda base t := by
  have hnode := h.node
  cases hact with
  | timer nd net t => exact { h with node := { hnode with } }
  | recordPrepare nd net msg _ _ _ => exact { h with node := { hnode with } }
  | recordCommit nd net msg _ hvalid htype =>
      exact { h with node := hnode.recordCommit hvalid htype }
  | recordRoundChange nd net msg _ => exact { h with node := { hnode with } }
  | accept nd net msg _ _ _ _ _ =>
      refine h.of_broadcast hnode.id_eq ?_ rfl { hnode with }
      intro htype
      cases htype
  | commit nd net value _ =>
      have hpos := hnode.round_pos
      refine h.of_broadcast hnode.id_eq ?_ rfl { hnode with prepared_nonneg := ?_ }
      · intro htype
        cases htype
      · exact le_trans (by decide) hpos
  | conclude nd net value hquorum => exact { h with node := hnode.concluded hquorum }
  | catchUp nd net msg value round _ hcert => exact { h with node := hnode.caughtUp hcert }
  | enter nd net round hlater => exact { h with node := hnode.entered hlater }
  | roundChange nd net round _ _ =>
      exact h.of_broadcast hnode.id_eq (fun _ => rfl) rfl { hnode with }
  | propose nd net round value =>
      refine h.of_broadcast hnode.id_eq ?_ rfl { hnode with }
      intro htype
      cases htype
  | sendCertificate nd net toId =>
      refine h.of_message (List.subset_append_left _ _) (fun m hm => mem_messages_send.mp hm)
        hnode.id_eq ?_ rfl hnode
      intro htype
      cases htype

theorem Keeps.actions
    {K : Message → Prop}
    (h : Keeps keys i lambda base s)
    (hsteps : Actions keys ρ K s t) :
    Keeps keys i lambda base t := by
  induction hsteps with
  | refl => exact h
  | tail _ hstep ih => exact ih.action hstep

end Steps

/-- The invariant of the cluster. -/
structure CertifiedWorld (keys : SignatureScheme) (byz : Finset (Fin n)) (w : World n) :
    Prop where
  node : ∀ i, i ∉ byz → Certified keys i (w.nodes i) w.net.messages
  fresh : ∀ i, i ∉ byz → w.started i = false → ∀ m ∈ w.net.messages, m.fromId ≠ i

/-- What a later state keeps of an earlier one. -/
structure Extends (byz : Finset (Fin n)) (w w' : World n) : Prop where
  queue : w.net.queue ⊆ w'.net.queue
  started : ∀ i, w.started i = true → w'.started i = true
  lambda : ∀ i, i ∉ byz → w.started i = true → (w'.nodes i).lambda = (w.nodes i).lambda

section Runs

variable {w w' : World n}

theorem certifiedWorld_init : CertifiedWorld keys byz (initialWorld n) where
  node _ _ :=
    { id_eq := rfl
      validators_eq := rfl
      mode_eq := rfl
      round_pos := le_refl 1
      prepared_nonneg := le_refl 0
      commits := fun _ _ _ hm => nomatch hm
      certificate := fun hd => nomatch hd
      announced := fun _ hm => nomatch hm }
  fresh _ _ _ _ hm := nomatch hm

/-- The step of one node leaves the others alone. -/
theorem CertifiedWorld.put
    {i : Fin n} {lambda : Int} {s : Node × Network}
    (hinv : CertifiedWorld keys byz w)
    (hkeeps : Keeps keys i lambda w.net s)
    (hnodes : w'.nodes = Function.update w.nodes i s.1)
    (hnet : w'.net = s.2)
    (hself : w'.started i = true)
    (hothers : ∀ j, j ≠ i → w'.started j = w.started j) :
    CertifiedWorld keys byz w' := by
  have hdistinct : ∀ j, j ≠ i → ∀ m ∈ s.2.messages, m.fromId = j → m ∈ w.net.messages := by
    intro j hji m hm hfrom
    rcases hkeeps.own m hm with hold | hown
    · exact hold
    · exact absurd (Fin.ext (Int.ofNat.inj (hfrom.symm.trans hown))) hji
  constructor
  · intro j hj
    rw [hnodes, hnet]
    by_cases hji : j = i
    · subst hji
      rw [Function.update_self]
      exact hkeeps.node
    · rw [Function.update_of_ne hji]
      refine { hinv.node j hj with announced := ?_ }
      intro m hm hfrom
      exact (hinv.node j hj).announced m (hdistinct j hji m hm hfrom) hfrom
  · intro j hj hstarted m hm hfrom
    rw [hnet] at hm
    have hji : j ≠ i := by
      rintro rfl
      rw [hself] at hstarted
      cases hstarted
    rw [hothers j hji] at hstarted
    exact hinv.fresh j hj hstarted m (hdistinct j hji m hm hfrom) hfrom

/-- A step keeps the invariant and what earlier states have fixed. -/
theorem CertifiedWorld.step
    {l : Label n}
    (hinv : CertifiedWorld keys byz w)
    (hstep : worldStep keys byz w l = some w') :
    CertifiedWorld keys byz w' ∧ Extends byz w w' := by
  obtain ⟨i, s, ρ, hi, ⟨hstarted, rfl, hacts⟩ | ⟨lambda, value, hstarted, rfl, hacts⟩⟩ :=
    worldStep_cases (K := fun _ => True) (fun i hi => (hinv.node i hi).mode_eq)
      (fun _ _ _ => trivial) hstep
  · have hkeeps : Keeps keys i (w.nodes i).lambda w.net (w.nodes i, w.net) :=
      ⟨hinv.node i hi, rfl, List.Subset.refl _, fun _ hm => Or.inl hm⟩
    have hkept := hkeeps.actions hacts
    refine ⟨hinv.put hkept rfl rfl hstarted (fun _ _ => rfl), hkept.grows, fun _ h => h, ?_⟩
    intro j _ _
    by_cases hji : j = i
    · subst hji
      simp only [World.put, Function.update_self]
      exact hkept.lambda_eq
    · simp only [World.put, Function.update_of_ne hji]
  · have hnode := hinv.node i hi
    have hkeeps : Keeps keys i lambda w.net ((w.nodes i).reset lambda value, w.net) := by
      refine ⟨?_, rfl, List.Subset.refl _, fun _ hm => Or.inl hm⟩
      exact
        { hnode with
          round_pos := le_refl 1
          prepared_nonneg := le_refl 0
          commits := fun _ _ _ hm => nomatch hm
          certificate := fun hd => nomatch hd
          announced := fun m hm hfrom => absurd hfrom (hinv.fresh i hi hstarted m hm) }
    have hkept := hkeeps.actions hacts
    refine ⟨hinv.put hkept rfl rfl (Function.update_self ..)
      (fun j hj => Function.update_of_ne hj ..), hkept.grows, ?_, ?_⟩
    · intro j hj
      by_cases hji : j = i
      · subst hji
        exact Function.update_self ..
      · exact (Function.update_of_ne hji ..).trans hj
    · intro j _ hj
      have hji : j ≠ i := by
        rintro rfl
        rw [hstarted] at hj
        cases hj
      simp only [World.markStarted, World.put, Function.update_of_ne hji]

theorem certifiedWorld_of_reachable
    (hw : (cluster keys byz).Reachable System.anyStep w) :
    CertifiedWorld keys byz w :=
  System.Reachable.invariant certifiedWorld_init
    (fun _ _ _ _ hinv _ hstep => (hinv.step hstep).1) hw

/-- A run keeps the invariant and what earlier states have fixed. -/
theorem CertifiedWorld.run
    (hinv : CertifiedWorld keys byz w)
    (hrun : (cluster keys byz).Reaches System.anyStep w w') :
    CertifiedWorld keys byz w' ∧ Extends byz w w' := by
  induction hrun with
  | refl => exact ⟨hinv, List.Subset.refl _, fun _ h => h, fun _ _ _ => rfl⟩
  | tail _ _ hstep ih =>
      obtain ⟨hmid, hext⟩ := ih
      obtain ⟨hlast, hext'⟩ := hmid.step hstep
      refine ⟨hlast, List.Subset.trans hext.queue hext'.queue, ?_, ?_⟩
      · intro i hi
        exact hext'.started i (hext.started i hi)
      · intro i hi hstarted
        rw [hext'.lambda i hi (hext.started i hstarted), hext.lambda i hi hstarted]

end Runs

/-! ## Sender and receiver -/

section CatchingUp

variable {i j : Fin n} {nd : Node} {sent : List Message} {msg : Message} {value : String} {r : Int}

/-- The certificate message of a decided node is valid exactly if the node has
prepared a value. -/
theorem isValidMessage_decisionMessage_iff
    (hsign : SignsOwn keys n)
    (h : Certified keys i nd sent)
    (hdecided : nd.decided = true)
    (hlambda : 0 < nd.lambda) :
    isValidMessage keys (nd.decisionMessage keys) (validatorsFromCount n) = true ↔
      nd.preparedRound ≠ noPreparedRound := by
  obtain ⟨r, hcert⟩ := h.certificate hdecided
  obtain ⟨hbeta, -⟩ := beta_of_validateCommitCertificate hcert
  have hvalue : nd.decisionValue ≠ "" := by
    intro hempty
    rw [hempty, beta_empty] at hbeta
    cases hbeta
  have hmember : isValidator (nd.decisionMessage keys).fromId (validatorsFromCount n) = true := by
    simp only [isValidator, List.any_eq_true, decide_eq_true_eq]
    exact ⟨i, mem_validatorsFromCount.mpr ⟨i, rfl⟩, h.id_eq.symm⟩
  have hsigned : keys.verifySignature (nd.decisionMessage keys) = true := by
    unfold Node.decisionMessage Node.signMessage
    rw [h.id_eq]
    exact hsign i _ rfl
  have hcontent : isValidContent (nd.decisionMessage keys) = true := by
    simp [isValidContent, Node.decisionMessage, Node.signMessage, plainMessage, hvalue, hbeta]
  have hround : (nd.decisionMessage keys).round = nd.preparedRound := rfl
  have hinstance : ¬ (nd.decisionMessage keys).lambda ≤ 0 := by
    simp only [Node.decisionMessage, Node.signMessage, plainMessage]
    omega
  unfold isValidMessage
  rw [if_neg (by simp [hmember]), if_neg (by simp [hsigned]), if_neg hinstance, hround, hcontent]
  have hnonneg := h.prepared_nonneg
  unfold noPreparedRound
  constructor
  · intro hvalid hzero
    rw [if_pos (by omega)] at hvalid
    cases hvalid
  · intro hne
    rw [if_neg (by omega)]

/-- A valid certificate message decides its receiver. -/
theorem handleMessage_certificate
    {ρ : MapOrders} {net : Network}
    (h : Certified keys j nd sent)
    (hundecided : nd.decided = false)
    (hvalid : isValidMessage keys msg nd.validators = true)
    (htype : msg.type = .decisionCertificate)
    (hlambda : msg.lambda = nd.lambda)
    (hcert : Node.validateCommitCertificate keys msg.justification nd.lambda
      nd.validators.length = some (value, r)) :
    (nd.handleMessage keys ρ msg net).1.decided = true ∧
      (nd.handleMessage keys ρ msg net).1.decisionValue = value := by
  unfold Node.handleMessage
  simp only [h.mode_eq, hvalid, hlambda, hundecided, htype, Bool.not_true, Bool.false_eq_true,
    if_false, ne_eq, not_true_eq_false]
  unfold Node.handleDecisionCertificate
  simp only [hlambda, hundecided, hcert, ne_eq, not_true_eq_false, if_false, Bool.false_eq_true]
  exact ⟨rfl, rfl⟩

/-- A decided node answers a valid round change of its instance. -/
theorem handleMessage_roundChange
    {ρ : MapOrders} {net : Network}
    (h : Certified keys i nd sent)
    (hdecided : nd.decided = true)
    (hvalid : isValidMessage keys msg nd.validators = true)
    (htype : msg.type = .roundChange)
    (hlambda : msg.lambda = nd.lambda) :
    nd.handleMessage keys ρ msg net = (nd, net.send msg.fromId (nd.decisionMessage keys)) := by
  obtain ⟨r, hcert⟩ := h.certificate hdecided
  have hne : nd.decisionCertificate.length ≠ 0 := by
    simpa using (exists_commit_of_validateCommitCertificate hcert).1
  unfold Node.handleMessage
  simp only [h.mode_eq, hvalid, hlambda, hdecided, htype, Bool.not_true, Bool.false_eq_true,
    if_false, if_true, ne_eq, not_true_eq_false]
  unfold Node.sendDecisionCertificate
  simp [hdecided, hne]

end CatchingUp

/-- A round change of a correct node comes from the instance that it runs. -/
theorem CertifiedWorld.instance_of_roundChange
    {w : World n} {i j : Fin n} {msg : Message}
    (hinv : CertifiedWorld keys byz w)
    (hdeliverable : Deliverable keys byz w.net i msg)
    (hj : j ∉ byz)
    (hfrom : msg.fromId = j)
    (htype : msg.type = .roundChange)
    (hvalid : isValidMessage keys msg (validatorsFromCount n) = true) :
    w.started j = true ∧ (w.nodes j).lambda = msg.lambda := by
  have hsent : msg ∈ w.net.messages := by
    rcases hdeliverable with hqueue | hknown
    · exact List.mem_map_of_mem hqueue
    · exact hknown.genuine j hfrom hj (isValidMessage_spec hvalid).2.1
  refine ⟨?_, ((hinv.node j hj).announced msg hsent hfrom htype).symm⟩
  by_contra hnot
  exact hinv.fresh j hj (by simpa using hnot) msg hsent hfrom

/-- The certificate is on its way to the node; as long as the node is undecided,
the certificate passes both checks, and its delivery makes the node decide the
value. -/
def CatchesUp (keys : SignatureScheme) (byz : Finset (Fin n)) (w : World n) (j : Fin n)
    (certificate : Message) (value : String) : Prop :=
  ⟨j, certificate⟩ ∈ w.net.queue ∧
  ∀ w', (cluster keys byz).Reaches System.anyStep w w' → (w'.nodes j).decided = false →
    isValidMessage keys certificate (w'.nodes j).validators = true ∧
    (∃ r, Node.validateCommitCertificate keys certificate.justification (w'.nodes j).lambda
      (w'.nodes j).validators.length = some (value, r)) ∧
    ∀ ρ, ∃ w'', worldStep keys byz w' (.deliver j certificate ρ) = some w'' ∧
      (w''.nodes j).decided = true ∧ (w''.nodes j).decisionValue = value

/-- **Catching up.**  In every reachable state, when a decided correct node
receives a valid round change of its instance from an undecided correct node,
the latter catches up through the certificate exactly if the former has
prepared a value. -/
theorem catchesUp_iff_prepared
    {n : Nat} (keys : SignatureScheme) (byz : Finset (Fin n))
    (hsign : SignsOwn keys n)
    {w w' : World n}
    (hw : (cluster keys byz).Reachable System.anyStep w)
    {i j : Fin n} {msg : Message} {ρ : MapOrders}
    (hdecided : (w.nodes i).decided = true)
    (hj : j ∉ byz)
    (hundecided : (w.nodes j).decided = false)
    (hfrom : msg.fromId = j)
    (htype : msg.type = .roundChange)
    (hlambda : msg.lambda = (w.nodes i).lambda)
    (hvalid : isValidMessage keys msg (w.nodes i).validators = true)
    (hreceive : worldStep keys byz w (.deliver i msg ρ) = some w') :
    CatchesUp keys byz w' j ((w.nodes i).decisionMessage keys) (w.nodes i).decisionValue ↔
      (w.nodes i).preparedRound ≠ noPreparedRound := by
  have hinv := certifiedWorld_of_reachable hw
  obtain ⟨hinv', -⟩ := hinv.step hreceive
  have hinst : i ∉ byz ∧ w.started i = true ∧ Deliverable keys byz w.net i msg := by
    by_contra hnot
    simp only [worldStep, if_neg hnot] at hreceive
    cases hreceive
  obtain ⟨hi, -, hdeliverable⟩ := hinst
  have hsender := hinv.node i hi
  have hstep : w' = w.put i (w.nodes i, w.net.send j ((w.nodes i).decisionMessage keys)) := by
    simp only [worldStep] at hreceive
    split at hreceive
    case isTrue =>
      rw [handleMessage_roundChange hsender hdecided hvalid htype hlambda, hfrom] at hreceive
      exact (Option.some.inj hreceive).symm
    case isFalse => cases hreceive
  have hji : j ≠ i := by
    rintro rfl
    rw [hdecided] at hundecided
    cases hundecided
  -- the round change was sent by the undecided node, which runs the same instance
  rw [hsender.validators_eq] at hvalid
  obtain ⟨hstarted, hown⟩ := hinv.instance_of_roundChange hdeliverable hj hfrom htype hvalid
  have hsame : (w.nodes j).lambda = (w.nodes i).lambda := hown.trans hlambda
  have hpositive : 0 < (w.nodes i).lambda := by
    rw [← hlambda]
    exact lambda_pos_of_valid hvalid
  have hmessage := isValidMessage_decisionMessage_iff hsign hsender hdecided hpositive
  have hunchanged : w'.nodes j = w.nodes j := by
    rw [hstep]
    exact Function.update_of_ne hji ..
  constructor
  · rintro ⟨-, hcatch⟩
    have hnow := (hcatch w' (System.Reaches.refl w') (by rw [hunchanged]; exact hundecided)).1
    rw [hunchanged, (hinv.node j hj).validators_eq] at hnow
    exact hmessage.mp hnow
  · intro hprepared
    have hqueue : ⟨j, (w.nodes i).decisionMessage keys⟩ ∈ w'.net.queue := by
      rw [hstep]
      exact List.mem_append_right _ List.mem_cons_self
    refine ⟨hqueue, ?_⟩
    intro w₂ hrun hstill
    obtain ⟨hinv₂, hext⟩ := hinv'.run hrun
    have hreceiver := hinv₂.node j hj
    have hstarted' : w'.started j = true := by
      rw [hstep]
      exact hstarted
    have hlambda₂ : (w₂.nodes j).lambda = (w.nodes i).lambda := by
      rw [hext.lambda j hj hstarted', hunchanged, hsame]
    obtain ⟨r, hcert⟩ := hsender.certificate hdecided
    have hvalid₂ : isValidMessage keys ((w.nodes i).decisionMessage keys)
        (w₂.nodes j).validators = true := by
      rw [hreceiver.validators_eq]
      exact hmessage.mpr hprepared
    have hcert₂ : Node.validateCommitCertificate keys
        ((w.nodes i).decisionMessage keys).justification (w₂.nodes j).lambda
        (w₂.nodes j).validators.length = some ((w.nodes i).decisionValue, r) := by
      rw [hlambda₂, hreceiver.validators_eq, length_validatorsFromCount]
      exact hcert
    refine ⟨hvalid₂, ⟨r, hcert₂⟩, ?_⟩
    intro ρ'
    have hdeliver : j ∉ byz ∧ w₂.started j = true ∧
        Deliverable keys byz w₂.net j ((w.nodes i).decisionMessage keys) :=
      ⟨hj, hext.started j hstarted', Or.inl (hext.queue hqueue)⟩
    refine ⟨_, if_pos hdeliver, ?_⟩
    simp only [World.put, Function.update_self]
    exact handleMessage_certificate hreceiver hstill hvalid₂ rfl hlambda₂.symm hcert₂

/-! ## Runs of four validators -/

theorem textSignatures_signsOwn (n : Nat) : SignsOwn textSignatures n := by
  intro i msg hfrom
  simp only [textSignatures, decide_eq_true_eq, hfrom]

/-- Delivery to a node, with maps visited in the order of insertion. -/
def receives (i : Fin 4) (m : Message) : Label 4 := .deliver i m insertionOrders

/-- A round change of node 1 that has prepared a value in round 1. -/
def requestOf (prepares : List Message) : Message :=
  signedOf { plainMessage .roundChange 1 1 2 "" with
    preparedRound := 1
    preparedValue := "a"
    justification := prepares }

/-- Node 0 prepares and decides, node 1 prepares and times out. -/
def preparedRun : List (Label 4) :=
  [.start 0 1 "a" insertionOrders, .start 1 1 "b" insertionOrders] ++
  [receives 0 (voteOf .prePrepare 0 "a"), receives 1 (voteOf .prePrepare 0 "a")] ++
  (certificateOf .prepare "a").map (receives 0) ++
  (certificateOf .prepare "a").map (receives 1) ++
  (certificateOf .commit "a").map (receives 0) ++
  [.timeout 1 insertionOrders]

/-- The situation of the theorem at nodes 0 and 1. -/
def Asks (w : World 4) (msg : Message) : Prop :=
  (w.nodes 0).decided = true ∧ (w.nodes 1).decided = false ∧
    msg.lambda = (w.nodes 0).lambda ∧
    isValidMessage textSignatures msg (w.nodes 0).validators = true ∧
    (worldStep textSignatures {3} w (receives 0 msg)).isSome = true

instance (w : World 4) (msg : Message) : Decidable (Asks w msg) :=
  inferInstanceAs (Decidable (_ ∧ _ ∧ _ ∧ _ ∧ _))

theorem catchesUp_preparedRun :
    ∃ w w' : World 4, (cluster textSignatures {3}).Reachable System.anyStep w ∧
      worldStep textSignatures {3} w (receives 0 (requestOf (certificateOf .prepare "a"))) =
        some w' ∧
      CatchesUp textSignatures {3} w' 1 ((w.nodes 0).decisionMessage textSignatures)
        (w.nodes 0).decisionValue := by
  have hrun : ∃ w : World 4,
      (cluster textSignatures ({3} : Finset (Fin 4))).Reaches System.anyStep (initialWorld 4) w ∧
      Asks w (requestOf (certificateOf .prepare "a")) ∧
      (w.nodes 0).preparedRound ≠ noPreparedRound := by
    refine System.exists_reaches_of_exec preparedRun ?_
    decide +kernel
  obtain ⟨w, hreach, ⟨hdecided, hundecided, hlambda, hvalid, hsome⟩, hprepared⟩ := hrun
  obtain ⟨w', hreceive⟩ := Option.isSome_iff_exists.mp hsome
  exact ⟨w, w', hreach, hreceive, (catchesUp_iff_prepared textSignatures {3}
    (textSignatures_signsOwn 4) hreach hdecided (by decide) hundecided rfl rfl hlambda hvalid
    hreceive).mpr hprepared⟩

/-- Votes of the nodes 1, 2 and 3. -/
def othersOf (type : MessageType) : List Message :=
  [voteOf type 1 "a", voteOf type 2 "a", voteOf type 3 "a"]

/-- Nodes 1 and 2 prepare and commit.  Node 0 decides on their commit messages
and the one of node 3 before any prepare message reaches it. -/
def unpreparedRun : List (Label 4) :=
  [.start 0 1 "a" insertionOrders, .start 1 1 "b" insertionOrders,
    .start 2 1 "c" insertionOrders] ++
  [receives 0 (voteOf .prePrepare 0 "a"), receives 1 (voteOf .prePrepare 0 "a"),
    receives 2 (voteOf .prePrepare 0 "a")] ++
  (othersOf .prepare).map (receives 1) ++
  (othersOf .prepare).map (receives 2) ++
  (othersOf .commit).map (receives 0) ++
  [.timeout 1 insertionOrders]

/-- The certificate of a node that has not prepared anything. -/
def roundZeroCertificate : Message :=
  signedOf { plainMessage .decisionCertificate 0 1 0 "a" with justification := othersOf .commit }

/-- **A decision that does not spread.**  Node 0 has decided and answers the round
change of node 1; its message is not valid, and node 1 stays undecided. -/
theorem exists_not_catchesUp :
    ∃ w w' w'' : World 4, (cluster textSignatures {3}).Reachable System.anyStep w ∧
      Asks w (requestOf (othersOf .prepare)) ∧
      worldStep textSignatures {3} w (receives 0 (requestOf (othersOf .prepare))) = some w' ∧
      ⟨1, roundZeroCertificate⟩ ∈ w'.net.queue ∧
      isValidMessage textSignatures roundZeroCertificate (w'.nodes 1).validators = false ∧
      worldStep textSignatures {3} w' (receives 1 roundZeroCertificate) = some w'' ∧
      (w''.nodes 1).decided = false ∧
      ¬ CatchesUp textSignatures {3} w' 1 ((w.nodes 0).decisionMessage textSignatures)
        (w.nodes 0).decisionValue := by
  have hrun : ∃ w : World 4,
      (cluster textSignatures ({3} : Finset (Fin 4))).Reaches System.anyStep (initialWorld 4) w ∧
      Asks w (requestOf (othersOf .prepare)) ∧
      (w.nodes 0).decisionMessage textSignatures = roundZeroCertificate ∧
      (worldStep textSignatures {3} w (receives 0 (requestOf (othersOf .prepare)))).any
        (fun w' => decide (⟨1, roundZeroCertificate⟩ ∈ w'.net.queue) &&
          !isValidMessage textSignatures roundZeroCertificate (w'.nodes 1).validators &&
          !(w'.nodes 1).decided &&
          (worldStep textSignatures {3} w' (receives 1 roundZeroCertificate)).any
            (fun w'' => !(w''.nodes 1).decided)) = true := by
    refine System.exists_reaches_of_exec unpreparedRun ?_
    decide +kernel
  obtain ⟨w, hreach, hasks, hmessage, hstep⟩ := hrun
  obtain ⟨w', hreceive, hafter⟩ := Option.any_eq_true .. |>.mp hstep
  simp only [Bool.and_eq_true, decide_eq_true_eq, Bool.not_eq_true'] at hafter
  obtain ⟨⟨⟨hqueue, hinvalid⟩, hundecided⟩, hlast⟩ := hafter
  obtain ⟨w'', hdeliver, hstill⟩ := Option.any_eq_true .. |>.mp hlast
  refine ⟨w, w', w'', hreach, hasks, hreceive, hqueue, hinvalid, hdeliver, by simpa using hstill, ?_⟩
  rintro ⟨-, hcatch⟩
  have hvalid := (hcatch w' (System.Reaches.refl w') hundecided).1
  rw [hmessage, hinvalid] at hvalid
  cases hvalid

end Ibft
end DistributedConsensus
