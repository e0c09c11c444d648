import DistributedConsensus.IbftSimulator.Voting

/-!
# IBFT simulator: agreement

As long as every message that a node acts upon belongs to the block that the node
is working on, the announcements of a block are a sound record of round-based
voting, and all nodes that confirm the block confirm one value.

The handlers do not look at the `Lambda` of a message.  A node that is still
working on the first block confirms it with the COMMITs of the second one.
-/

namespace DistributedConsensus
namespace IbftSimulator

open Foundations

namespace IBFTNode

variable {n n' : IBFTNode} {e : Option IBFTMessage}

theorem start_grows (n : IBFTNode) (lambda round : ℤ) (value : String)
    (proof : List RoundChange) : Cluster.Grows n (n.start lambda round value proof) := by
  unfold start
  simp only
  split
  case isTrue => exact ⟨rfl, List.prefix_append _ _⟩
  case isFalse => exact ⟨rfl, List.prefix_refl _⟩

theorem Acts.grows (hact : Acts e n n') : Cluster.Grows n n' := by
  cases hact with
  | quiet hquiet =>
      obtain ⟨_, _, rfl⟩ := hquiet
      exact ⟨rfl, List.prefix_refl _⟩
  | countPrepares | countCommits | store | lock | decide => exact ⟨rfl, List.prefix_refl _⟩
  | prepare | commit | changeRound => exact ⟨rfl, List.prefix_append _ _⟩
  | lead _ _ _ => exact start_grows { n with lastStartedRound := n.round } _ _ _ _
  | nextInstance honline =>
      unfold IBFTNode.nextInstance
      rw [if_neg (by rw [honline]; exact Bool.false_ne_true)]
      exact start_grows _ _ _ _ _

/-- An event is a sequence of effects. -/
theorem handle_runs
    {ev : Event}
    (hsame : ∀ m ∈ ev.input.message, n.SameInstance m) :
    Runs ev.input.message n (n.handle ev) := by
  obtain ⟨input, o⟩ := ev
  cases input with
  | deliver m => exact handleMessage_runs (hsame m rfl) o
  | timer => exact onTimerExpire_runs n
  | next =>
      exact Relation.ReflTransGen.head (Acts.quiet ⟨n.isOffline, n.pending - 1, rfl⟩)
        (nextInstance_runs { n with pending := n.pending - 1 })
  | stop => exact Relation.ReflTransGen.single (Acts.quiet ⟨true, n.pending, rfl⟩)

end IBFTNode

namespace Cluster

variable {D : Deployment} {w : Cluster} {n n' : IBFTNode} {e : Option IBFTMessage}

theorem Upright.runs
    (hw : ∀ j, (w j).id = j ∧ w.Upright D (w j))
    (he : ∀ m ∈ e, w.Known D m)
    (hruns : IBFTNode.Runs e n n')
    (h : w.Upright D n) :
    Grows n n' ∧ w.Upright D n' := by
  induction hruns with
  | refl => exact ⟨.refl _, h⟩
  | tail _ hact ih => exact ⟨ih.1.trans hact.grows, ih.2.acts hw he hact⟩

/-- A node that has sent nothing. -/
theorem upright_new
    (i : ℤ) {input : String} (scenario : Scenario)
    (hinput : input ≠ "") :
    w.Upright D (IBFTNode.new i input D.validators scenario) where
  validators := rfl
  input := hinput
  round_pos := le_refl _
  backed m hm := by cases hm
  past m hm := by cases hm
  prepares v j hj := absurd hj (Finset.notMem_empty j)
  commits v j hj := absurd hj (Finset.notMem_empty j)
  roundChanges r j m hm := by cases hm
  reports := Or.inl rfl
  proposed p p' hp := by cases hp
  started p hp := by cases hp
  locked c hc := by cases hc
  carried c m hc := by cases hc
  decisions lambda v hv := by cases hv

/-- A node that has been started for the first block. -/
theorem upright_boot (i : ℤ) : (D.boot i).id = i ∧ Upright D D.boot (D.boot i) := by
  have hgrows := IBFTNode.start_grows
    (IBFTNode.new i (D.input i) D.validators (D.scenario i)) 1 1 (D.value i) []
  refine ⟨hgrows.1, ?_⟩
  have hentered : Upright D D.boot
      ((IBFTNode.new i (D.input i) D.validators (D.scenario i)).enter 1 1) :=
    upright_new i (D.scenario i) (IBFTNode.blockValue_ne_empty 1)
  refine Upright.start (n := IBFTNode.new i (D.input i) D.validators (D.scenario i))
    (Or.inl (le_refl _)) (Or.inl (le_refl _)) ?_ hentered
  intro p hp
  cases hp

theorem reachable_upright
    (hreach : (cluster D).Reachable SameInstance w) :
    ∀ i, (w i).id = i ∧ w.Upright D (w i) := by
  refine Nodes.reachable_invariant (N := nodes D) (R := Grows)
    (I := fun w i => (w i).id = i ∧ Cluster.Upright D w (w i)) Grows.refl upright_boot ?_ ?_ hreach
  · intro w i e _ hw hsame henabled
    have hknown : ∀ m ∈ e.input.message, Known D w m := by
      obtain ⟨input, o⟩ := e
      intro m hm
      cases input with
      | deliver m' =>
          obtain rfl := Option.some.inj hm
          exact henabled.2
      | timer | next | stop => cases hm
    obtain ⟨hgrows, hupright⟩ := (hw i).2.runs hw hknown (IBFTNode.handle_runs hsame)
    refine ⟨hgrows, fun hext => ?_⟩
    rw [Function.update_self]
    exact ⟨hgrows.1.trans (hw i).1, hupright.mono hext⟩
  · intro w w' i hext hsame hi
    rw [hsame]
    exact ⟨hi.1, hi.2.mono hext⟩

/-- The announcements of a block are sound. -/
theorem sound_record
    (hw : ∀ j, (w j).id = j ∧ w.Upright D (w j))
    (lambda : ℤ) :
    RoundVoting.Sound (votingGroup D) (w.record D lambda) 1 where
  prepare_unique i _ r v v' hv hv' := by
    obtain ⟨-, -, ⟨p, hp, hl, hr, rfl⟩, -⟩ := (hw i).2.backed _ hv
    obtain ⟨-, -, ⟨p', hp', hl', hr', rfl⟩, -⟩ := (hw i).2.backed _ hv'
    -- Both proposals come from the leader of the round.
    have hleader : p.senderID = p'.senderID := by
      rw [(hp.spec hw).2.2.1, (hp'.spec hw).2.2.1, hl, hr, hl', hr']
    have hmem := hp.2
    change .prePrepare p ∈ (w p.senderID).sent at hmem
    rw [hleader] at hmem
    rw [(hw _).2.proposed p p' hmem hp'.2 (hl.trans hl'.symm) (hr.trans hr'.symm)]
  prepare_justified i _ r v hv := by
    obtain ⟨-, -, -, hjustified⟩ := (hw i).2.backed _ hv
    exact hjustified
  commit_prepared i _ r v hv := by
    obtain ⟨-, -, hprepared⟩ := (hw i).2.backed _ hv
    exact hprepared
  commit_carried i _ r v s c hv hc hlt := by
    obtain ⟨m, hm, rfl, rfl, rfl⟩ := hc
    have hle := (hw i).2.carried _ m hv hm rfl hlt
    obtain ⟨-, -, hpos, -⟩ := (hw i).2.backed _ hv
    change 1 ≤ r at hpos
    change r ≤ m.preparedRound at hle
    refine ⟨m.preparedRound, if_neg ?_, hle⟩
    omega

/-- Nodes that have confirmed a block have confirmed one value. -/
def Agree (D : Deployment) (w : Cluster) : Prop :=
  ∀ i j, D.IsNode i → D.IsNode j → ∀ lambda v v',
    (lambda, v) ∈ (w i).decisions → (lambda, v') ∈ (w j).decisions → v = v'

end Cluster

/-- **Agreement.**  When every message that a node acts upon belongs to its block, no
two nodes confirm different values for one block. -/
theorem decisions_agree_sameInstance
    (D : Deployment)
    {w : Cluster}
    (hreach : (cluster D).Reachable SameInstance w) :
    w.Agree D := by
  intro i j _ _ lambda v v' hv hv'
  have hw := Cluster.reachable_upright hreach
  obtain ⟨r, hr⟩ := (hw i).2.decisions lambda v hv
  obtain ⟨s, hs⟩ := (hw j).2.decisions lambda v' hv'
  exact (Cluster.sound_record hw lambda).committed_unique hr hs

/-! ## Concrete runs -/

section Runs

/-- Four nodes that are started with the data of the first block. -/
def fourNodes : Deployment where
  f := 1
  input _ := blockValue 1
  value _ := blockValue 1
  scenario _ := ⟨false, false, false⟩

def deliver (i : ℤ) (m : IBFTMessage) : ℤ × Event := (i, ⟨.deliver m, .insertion ℤ⟩)

def act (input : Input) (i : ℤ) : ℤ × Event := (i, ⟨input, .insertion ℤ⟩)

/-- A PREPARE for the data of a block. -/
def prepareOf (lambda round : ℤ) (j : ℤ) : IBFTMessage :=
  .prepare ⟨lambda, round, blockValue lambda, j, some j⟩

def commitOf (lambda round : ℤ) (j : ℤ) : IBFTMessage :=
  .commit ⟨lambda, round, blockValue lambda, j, some j⟩

/-- The nodes 0, 1 and 2. -/
def three : List ℤ := [0, 1, 2]

/-- Every one of the three nodes receives the messages of all three. -/
def exchange (m : ℤ → IBFTMessage) : List (ℤ × Event) :=
  three.flatMap fun i => three.map fun j => deliver i (m j)

/-- The three nodes confirm the first block. -/
def firstBlock : List (ℤ × Event) :=
  three.map (fun i => deliver i (.prePrepare ⟨1, 1, blockValue 1, 2, some 2, []⟩)) ++
    exchange (prepareOf 1 1) ++ exchange (commitOf 1 1)

def timeoutOf (j : ℤ) : RoundChange := ⟨2, 2, j, some j, -1, ""⟩

/-- The three nodes go on to the second block and prepare it in its second round. -/
def secondBlock : List (ℤ × Event) :=
  three.map (act .next) ++ three.map (act .timer) ++
    three.map (fun j => deliver 0 (.roundChange (timeoutOf j))) ++
    three.map (fun i => deliver i
      (.prePrepare ⟨2, 2, blockValue 2, 0, some 0, three.map timeoutOf⟩)) ++
    exchange (prepareOf 2 2)

/-- Node 3 has been in the second round of the first block all along. -/
def lateNode : List (ℤ × Event) := act .timer 3 :: three.map fun j => deliver 3 (commitOf 2 2 j)

end Runs

/-- Three nodes confirm the first block in a run that meets the condition. -/
theorem decisions_agree_firstBlock :
    ∃ w, (cluster fourNodes).Reachable SameInstance w ∧
      (1, blockValue 1) ∈ (w 0).decisions ∧ (1, blockValue 1) ∈ (w 1).decisions ∧
      w.Agree fourNodes := by
  obtain ⟨w, hreach, h0, h1⟩ : ∃ w, (cluster fourNodes).Reachable SameInstance w ∧
      (1, blockValue 1) ∈ (w 0).decisions ∧ (1, blockValue 1) ∈ (w 1).decisions := by
    refine System.exists_reaches_of_exec firstBlock ?_
    decide +kernel
  exact ⟨w, hreach, h0, h1, decisions_agree_sameInstance fourNodes hreach⟩

/-- The COMMITs of the second block confirm the first one. -/
theorem not_decisions_agree :
    ¬∀ (D : Deployment) (w : Cluster), (cluster D).Reachable System.anyStep w → w.Agree D := by
  intro hall
  obtain ⟨w, hreach, h0, h3⟩ : ∃ w, (cluster fourNodes).Reachable System.anyStep w ∧
      (1, blockValue 1) ∈ (w 0).decisions ∧ (1, blockValue 2) ∈ (w 3).decisions := by
    refine System.exists_reaches_of_exec (firstBlock ++ secondBlock ++ lateNode) ?_
    decide +kernel
  have heq := hall fourNodes w hreach 0 3 (by decide) (by decide) _ _ _ h0 h3
  exact absurd heq (by decide)

end IbftSimulator
end DistributedConsensus
