import Aimp.Crdt.Proofs.CausalProofs
import Aimp.Process.Proofs.EvidenceProofs

/-!
# Ticks and the order of the DAG

The actor chooses the parents of a mutation when it handles it, and by then the task has drawn its tick
long ago. The nodes that the process has created lie above one another in the order in which they were
handled, so their ticks follow the DAG if and only if they are handled in the order of their ticks.
-/

namespace Aimp.Process

open Aimp.Crdt Aimp.Rules Frontier

/-- The tick of the node is smaller in the first vector clock. -/
def TickBefore (P : Host) (c c' : VClock) : Prop :=
  ∀ p ∈ c.entries, ∀ q ∈ c'.entries, p.1 = P.clockKey → q.1 = P.clockKey → p.2 < q.2

instance (P : Host) (c c' : VClock) : Decidable (TickBefore P c c') :=
  inferInstanceAs (Decidable (∀ p ∈ c.entries, ∀ q ∈ c'.entries, _ → _ → _))

/-- The tick of the mutation is larger than those of `created`. -/
def Letter.After (P : Host) (created : List (DagNode × DecisionEngine)) : Letter → Prop
  | .own _ _ vclock _ _ => ∀ x ∈ created, TickBefore P x.1.vclock vclock
  | .other _ => True

instance (P : Host) (created : List (DagNode × DecisionEngine)) (l : Letter) :
    Decidable (l.After P created) :=
  match l with
  | .own _ _ vclock _ _ => inferInstanceAs (Decidable (∀ x ∈ created, TickBefore P x.1.vclock vclock))
  | .other _ => inferInstanceAs (Decidable True)

namespace NodeProcess

variable {P : Host} {s t : NodeProcess} {a : Action} {d : DecisionDispatcher} {file : Option String}
  {actions : List Action}

/-- Among the nodes created for the tasks an ancestor has the smaller tick. -/
def TicksFollowDag (P : Host) (s : NodeProcess) : Prop :=
  ∀ x ∈ s.created, ∀ y ∈ s.created, Ancestor P.blake3 s.actor.1 x.1 y.1 →
    TickBefore P x.1.vclock y.1.vclock

/-- The actor handles a mutation of this node only if its tick is larger than those of the mutations
handled before. -/
def InOrder (P : Host) (s : NodeProcess) : Action → Prop
  | .process _ _ => ∀ l ∈ s.mailbox.head?, l.After P s.created
  | _ => True

instance (P : Host) (s : NodeProcess) (a : Action) : Decidable (s.InOrder P a) :=
  match a with
  | .process _ _ => inferInstanceAs (Decidable (∀ l ∈ s.mailbox.head?, l.After P s.created))
  | .spawn .. | .reload _ | .evaluate _ | .draw _ | .readHash .. | .send _ | .deliver _ =>
    inferInstanceAs (Decidable True)

/-- The created nodes lie above one another, and the actor is as it should be. -/
structure Causal (P : Host) (s : NodeProcess) : Prop where
  coherent : s.actor.2.engine.Coherent P.blake3
  holds : s.actor.2.engine.arena.Holds P.blake3 s.actor.1
  below : CrdtActor.BelowHeads P.blake3 s.actor.1 s.actor.2
  accepted : ∀ x ∈ s.created, x.1 ∈ s.actor.1
  ancestors : s.created.Pairwise fun x y => Ancestor P.blake3 s.actor.1 x.1 y.1

/-! ## One step -/

/-- Only the actor touches its state and creates nodes. -/
theorem step_actor (hstep : s.step P a = some t) :
    (t.actor = s.actor ∧ t.created = s.created ∧ s.InOrder P a) ∨
    ∃ heads disk l rest, a = .process heads disk ∧ s.mailbox = l :: rest ∧
      heads.Perm s.actor.2.engine.heads ∧ t = s.handle P heads disk l rest := by
  cases step_transition hstep with
  | draw =>
    unfold NodeProcess.draw
    split
    · exact .inl ⟨rfl, rfl, trivial⟩
    · exact .inl ⟨rfl, rfl, trivial⟩
  | process hmail horder => exact .inr ⟨_, _, _, _, rfl, hmail, horder, rfl⟩
  | spawn | reload | evaluate | readHash | send | deliver => exact .inl ⟨rfl, rfl, trivial⟩

/-- The nodes accepted before a step are still accepted after it. -/
theorem step_accepted (hstep : s.step P a = some t) : ∀ n ∈ s.actor.1, n ∈ t.actor.1 := by
  intro n hn
  rcases step_actor hstep with ⟨hactor, -, -⟩ | ⟨heads, disk, l, rest, -, -, -, rfl⟩
  · rw [hactor]
    exact hn
  · exact List.mem_append_left _ hn

/-- A mutation that is handled lies above everything created before. -/
theorem Causal.handle (hs : s.Causal P) {heads : List Hash32} {disk : Hash32 → Bool} {l : Letter}
    {rest : List Letter} (horder : heads.Perm s.actor.2.engine.heads)
    (hac : Acyclic (nodeCards P.blake3 (s.handle P heads disk l rest).actor.1)) :
    (s.handle P heads disk l rest).Causal P := by
  have hstep : CrdtActor.Step P.blake3 s.actor l.msg (s.handle P heads disk l rest).actor :=
    .mk l.msg disk horder
  obtain ⟨hcoherent, hholds⟩ := hstep.coherent hac hs.coherent hs.holds
  have hmono : ∀ n ∈ s.actor.1, n ∈ (s.handle P heads disk l rest).actor.1 := hstep.accepted_mono
  have hold := hs.ancestors.imp fun h => h.mono hmono
  refine ⟨hcoherent, hholds, hstep.belowHeads hac hs.coherent hs.holds hs.below, ?_, ?_⟩
  · intro x hx
    cases l with
    | other m => exact hmono _ (hs.accepted x hx)
    | own dataHash signature vclock evidence e =>
      rcases List.mem_append.mp hx with hx | hx
      · exact hmono _ (hs.accepted x hx)
      · obtain rfl := List.mem_singleton.mp hx
        exact List.mem_append_right _ (List.mem_singleton_self _)
  · cases l with
    | other m => exact hold
    | own dataHash signature vclock evidence e =>
      refine List.pairwise_append.mpr ⟨hold, List.pairwise_singleton .., ?_⟩
      intro x hx y hy
      obtain rfl := List.mem_singleton.mp hy
      have hbelow : CrdtActor.BelowHeads P.blake3 s.actor.1 (s.actor.2.withHeads heads) := by
        intro n hn
        obtain ⟨h, hh, hnh⟩ := hs.below n hn
        exact ⟨h, horder.mem_iff.mpr hh, hnh⟩
      exact hbelow.mutation dataHash signature vclock (some evidence) (hs.accepted x hx)

theorem step_causal (hs : s.Causal P) (hstep : s.step P a = some t)
    (hac : Acyclic (nodeCards P.blake3 t.actor.1)) : t.Causal P := by
  rcases step_actor hstep with ⟨hactor, hcreated, -⟩ | ⟨heads, disk, l, rest, -, -, horder, rfl⟩
  · obtain ⟨hcoherent, hholds, hbelow, haccepted, hancestors⟩ := hs
    constructor
    all_goals rw [hactor]
    · exact hcoherent
    · exact hholds
    · exact hbelow
    · rw [hcreated]
      exact haccepted
    · rw [hcreated]
      exact hancestors
  · exact hs.handle horder hac

/-- The created nodes have increasing ticks. -/
def Increasing (P : Host) (s : NodeProcess) : Prop :=
  s.created.Pairwise fun x y => TickBefore P x.1.vclock y.1.vclock

theorem step_increasing (hs : s.Increasing P) (hstep : s.step P a = some t) :
    t.Increasing P ↔ s.InOrder P a := by
  unfold Increasing at hs ⊢
  rcases step_actor hstep with ⟨-, hcreated, ha⟩ | ⟨heads, disk, l, rest, rfl, hmail, -, rfl⟩
  · rw [hcreated]
    exact iff_of_true hs ha
  · simp only [InOrder, hmail, List.head?_cons, Option.mem_some_iff, forall_eq']
    cases l with
    | other m => exact iff_of_true hs trivial
    | own dataHash signature vclock evidence e =>
      show (s.created ++ [_]).Pairwise _ ↔ ∀ x ∈ s.created, TickBefore P x.1.vclock vclock
      rw [List.pairwise_append]
      constructor
      · rintro ⟨-, -, hlast⟩ x hx
        exact hlast x hx _ (List.mem_singleton_self _)
      · intro hlast
        refine ⟨hs, List.pairwise_singleton .., ?_⟩
        intro x hx y hy
        obtain rfl := List.mem_singleton.mp hy
        exact hlast x hx

/-! ## Runs -/

/-- Two created nodes are the same, or their ticks increase, or the second one is an ancestor of the
first. -/
theorem Causal.created_cases (hs : s.Causal P) (h : s.Increasing P) {x y : DagNode × DecisionEngine}
    (hx : x ∈ s.created) (hy : y ∈ s.created) :
    x = y ∨ TickBefore P x.1.vclock y.1.vclock ∨ Ancestor P.blake3 s.actor.1 y.1 x.1 := by
  refine List.Pairwise.forall_of_forall_of_flip (R := fun x y =>
    x = y ∨ TickBefore P x.1.vclock y.1.vclock ∨ Ancestor P.blake3 s.actor.1 y.1 x.1) ?_ ?_ ?_ hx hy
  · exact fun _ _ => .inl rfl
  · exact h.imp fun htick => .inr (.inl htick)
  · exact hs.ancestors.imp fun hxy => .inr (.inr hxy)

/-- Of two created nodes one is an ancestor of the other, so the DAG is followed if and only if the ticks
increase in the order of creation. -/
theorem ticksFollowDag_iff (hs : s.Causal P) (hac : Acyclic (nodeCards P.blake3 s.actor.1)) :
    s.TicksFollowDag P ↔ s.Increasing P := by
  constructor
  · intro h
    refine hs.ancestors.imp_of_mem ?_
    intro x y hx hy hxy
    exact h x hx y hy hxy
  · intro h x hx y hy hxy
    -- one of the two has been created before the other
    obtain rfl | htick | hyx : x = y ∨ TickBefore P x.1.vclock y.1.vclock ∨
        Ancestor P.blake3 s.actor.1 y.1 x.1 :=
      hs.created_cases h hx hy
    · exact absurd hxy (hac _)
    · exact htick
    · exact absurd (hxy.trans hyx) (hac _)

theorem start_causal {store : Option PersistentStore}
    (hstore : ∀ p, store = some p → p.Honest P.blake3) (threshold gcThreshold : ℕ)
    (hac : Acyclic (nodeCards P.blake3 (storedNodes store))) :
    (start d file (storedNodes store, .new store threshold gcThreshold)).Causal P := by
  obtain ⟨hcoherent, hholds⟩ := CrdtActor.new_spec hstore threshold gcThreshold
  exact ⟨hcoherent, hholds, CrdtActor.belowHeads_new hstore threshold gcThreshold hac,
    fun x hx => absurd hx List.not_mem_nil, .nil⟩

/-- If the mutations are handled in the order of their ticks, then the ticks follow the DAG; and the first
mutation that is not handled in this order breaks that. -/
theorem ticks_follow_dag {store : Option PersistentStore}
    (hstore : ∀ p, store = some p → p.Honest P.blake3) {threshold gcThreshold : ℕ}
    (hrun : Run (fun s a t => s.step P a = some t ∧ s.InOrder P a)
      (start d file (storedNodes store, .new store threshold gcThreshold)) actions s)
    (hac : Acyclic (nodeCards P.blake3 s.actor.1)) :
    s.TicksFollowDag P ∧
    ∀ a t, s.step P a = some t → Acyclic (nodeCards P.blake3 t.actor.1) →
      (t.TicksFollowDag P ↔ s.InOrder P a) := by
  obtain ⟨hincreasing, hcausal⟩ : s.Increasing P ∧
      (Acyclic (nodeCards P.blake3 s.actor.1) → s.Causal P) := by
    refine hrun.invariant (P := fun s => s.Increasing P ∧
      (Acyclic (nodeCards P.blake3 s.actor.1) → s.Causal P)) ?_ ?_
    · exact ⟨.nil, start_causal hstore threshold gcThreshold⟩
    · rintro s a t ⟨hincreasing, hcausal⟩ ⟨hstep, ha⟩
      refine ⟨(step_increasing hincreasing hstep).mpr ha, fun hac => ?_⟩
      exact step_causal (hcausal (hac.mono (nodeCards_mono (step_accepted hstep)))) hstep hac
  refine ⟨(ticksFollowDag_iff (hcausal hac) hac).mpr hincreasing, ?_⟩
  intro a t hstep hac'
  rw [ticksFollowDag_iff (step_causal (hcausal hac) hstep hac') hac']
  exact step_increasing hincreasing hstep

/-! ## Two tasks -/

/-- A node and a node on top of it. -/
theorem acyclic_pair {blake3 : List Byte → Hash32} {x y : DagNode} (hx : x.parents = [])
    (hy : y.parents = [x.computeHash blake3]) (hne : x.computeHash blake3 ≠ y.computeHash blake3) :
    Acyclic (nodeCards blake3 [x, y]) := by
  apply acyclic_of_level fun h => if h = y.computeHash blake3 then 1 else 0
  rintro p c ⟨ps, ⟨n, hn, rfl, rfl⟩, hp⟩
  simp only [List.mem_cons, List.not_mem_nil, or_false] at hn
  rcases hn with rfl | rfl
  · rw [hx] at hp
    cases hp
  · rw [hy, List.mem_singleton] at hp
    simp [hp, hne]

/-- Two tasks one after the other. -/
theorem ticks_follow_dag_orderly :
    ∃ s, Run (fun s a t => s.step sampleHost a = some t ∧ s.InOrder sampleHost a) sampleStart orderly s ∧
      s.created.length = 2 ∧ s.TicksFollowDag sampleHost := by
  have hlog : (orderly.foldlM (fun s a => if InOrder sampleHost s a then step sampleHost s a else none)
      sampleStart).map log = some ([gasNode [] 1 gasEngine.engineHash, lowNode [gasDigest] 2],
        [gasEngine.engineHash, emptyEngine.engineHash],
        [gasNode [] 1 gasEngine.engineHash, lowNode [gasDigest] 2]) := by
    decide +kernel
  obtain ⟨s, hs, hlog⟩ := Option.map_eq_some_iff.mp hlog
  obtain ⟨hnodes, hrest⟩ := Prod.mk.inj hlog
  obtain ⟨-, haccepted⟩ := Prod.mk.inj hrest
  have hrun := Run.of_checked hs
  have hac : Acyclic (nodeCards sampleHost.blake3 s.actor.1) := by
    rw [haccepted]
    exact acyclic_pair rfl (by decide +kernel) (by decide +kernel)
  refine ⟨s, hrun, by simpa using congrArg List.length hnodes, ?_⟩
  have hnone : ∀ p, (none : Option PersistentStore) = some p → p.Honest sampleHost.blake3 :=
    fun _ h => nomatch h
  exact (ticks_follow_dag hnone hrun hac).1

/-- The task that has drawn the second tick is served first. -/
theorem ticks_reversed :
    ∃ s, Run (fun s a t => s.step sampleHost a = some t) sampleStart overtaking s ∧
      Acyclic (nodeCards sampleHost.blake3 s.actor.1) ∧ ¬ s.TicksFollowDag sampleHost := by
  obtain ⟨s, hrun, hlog⟩ := exec_overtaking
  obtain ⟨hnodes, hrest⟩ := Prod.mk.inj hlog
  obtain ⟨-, haccepted⟩ := Prod.mk.inj hrest
  refine ⟨s, hrun, ?_, ?_⟩
  · rw [haccepted]
    exact acyclic_pair rfl (by decide +kernel) (by decide +kernel)
  · intro hticks
    obtain ⟨x, y, hcreated⟩ := List.length_eq_two.mp (by simpa using congrArg List.length hnodes)
    rw [hcreated] at hnodes
    simp only [List.map_cons, List.map_nil, List.cons.injEq, and_true] at hnodes
    have hbefore := hticks x (by simp [hcreated]) y (by simp [hcreated]) ?_
    · rw [hnodes.1, hnodes.2] at hbefore
      exact absurd hbefore (by decide)
    · apply Relation.TransGen.single
      refine ⟨y.1.parents, ⟨y.1, by simp [haccepted, hnodes.2], rfl, rfl⟩, ?_⟩
      rw [hnodes.1, hnodes.2]
      exact List.mem_singleton.mpr (by decide +kernel)

end NodeProcess

end Aimp.Process
