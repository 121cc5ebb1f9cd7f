import Aimp.Lib.Spread
import Aimp.Crdt.Proofs.AntiEntropyProofs
import Mathlib.Combinatorics.SimpleGraph.Hasse

/-!
# Anti-entropy among many replicas

A transfer from one replica to another: the receiver tells its heads, the sender finds what is not below
them, and the receiver merges it. The arena of the receiver is then the union of both, so that the arenas
spread over any sequence of transfers like sets of nodes.
-/

namespace Aimp.Crdt

open Frontier

variable {ι : Type*} {blake3 : List Byte → Hash32}

namespace DagArena

variable {a b u : DagArena}

/-- The nodes of an arena, each with its hash. -/
def nodes (a : DagArena) : Set (Hash32 × DagNode) := {c | a.getByHash c.1 = some c.2}

theorem isUnion_iff : u.IsUnion a b ↔ u.nodes = a.nodes ∪ b.nodes := by
  constructor
  · intro h
    ext ⟨k, n⟩
    exact h k n
  · intro h k n
    exact Set.ext_iff.mp h (k, n)

theorem IsUnion.parentClosed (h : u.IsUnion a b) (ha : a.ParentClosed) (hb : b.ParentClosed) :
    u.ParentClosed := by
  intro k n hn p hp
  rcases (h k n).mp hn with hn | hn
  · exact h.left.contains (ha k n hn p hp)
  · exact h.right.contains (hb k n hn p hp)

end DagArena

namespace CrdtActor

/-- What a message does to the actor does not depend on what was accepted before. -/
theorem Step.with_accepted {t u : List DagNode × CrdtActor} {m : CrdtMsg} (hstep : Step blake3 t m u)
    (D : List DagNode) : ∃ D', Step blake3 (D, t.2) m (D', u.2) := by
  cases hstep with
  | mk _ disk horder => exact ⟨_, .mk _ disk horder⟩

/-- One transfer among replicas: `(a, b)` lets `b` merge what `a` finds for the heads of `b`. -/
inductive Transfer [DecidableEq ι] (blake3 : List Byte → Hash32) : (ι → List DagNode × CrdtActor) → ι × ι →
    (ι → List DagNode × CrdtActor) → Prop where
  | mk {w : ι → List DagNode × CrdtActor} {a b : ι} {nodes : List DagNode}
      {t : List DagNode × CrdtActor} (hdiff : (w a).2.Diff (w b).2.engine.heads nodes)
      (hstep : Step blake3 (w b) (.merge nodes) t) :
      Transfer blake3 w (a, b) (Function.update w b t)

/-- Replicas can always go on with transfers. -/
theorem exists_run_transfer [DecidableEq ι] (blake3 : List Byte → Hash32)
    (w : ι → List DagNode × CrdtActor) (ts : List (ι × ι)) : ∃ w', Run (Transfer blake3) w ts w' := by
  induction ts using List.reverseRecOn with
  | nil => exact ⟨w, .nil⟩
  | append_singleton ts t ih =>
    obtain ⟨w', hrun⟩ := ih
    exact ⟨_, hrun.snoc (.mk (a := t.1) (b := t.2) ⟨_, .refl _, rfl⟩ (.here _ _ _ fun _ => true))⟩

/-- What replicas need for their transfers to be complete; `U` are the nodes they may have. -/
structure Ready (blake3 : List Byte → Hash32) (U : List DagNode)
    (w : ι → List DagNode × CrdtActor) : Prop where
  covered : ∀ i, (w i).2.engine.Covered blake3 U
  closed : ∀ i, (w i).2.engine.arena.ParentClosed
  shallow : ∀ i, (w i).2.engine.arena.Shallow

variable {w w' : ι → List DagNode × CrdtActor} {U : List DagNode} {ts : List (ι × ι)}

theorem Ready.heads_present (h : Ready blake3 U w) (i : ι) :
    ∀ k ∈ (w i).2.engine.heads, (w i).2.engine.arena.contains k = true :=
  fun k hk => DagArena.mem_names.mp ((h.covered i).present k hk)

variable [DecidableEq ι]

/-- A transfer gives the receiver the nodes of both, and it stays ready. -/
theorem Ready.transfer {t : ι × ι} (h : Ready blake3 U w) (hU : CollisionFree blake3 U)
    (htr : Transfer blake3 w t w') : Ready blake3 U w' ∧
      (fun i => (w' i).2.engine.arena.nodes) =
        Function.update (fun i => (w i).2.engine.arena.nodes) t.2
          ((w t.2).2.engine.arena.nodes ∪ (w t.1).2.engine.arena.nodes) := by
  cases htr with
  | @mk a b nodes t hdiff hstep =>
    obtain ⟨D', B'⟩ := t
    have hcf : CollisionFree blake3 (U ++ U) := hU.mono fun n hn => (List.mem_append.mp hn).elim id id
    obtain ⟨D'', hstep'⟩ := hstep.with_accepted U
    obtain ⟨hu, hcov⟩ := merge_diff (h.covered a) (h.covered b) hcf (h.closed b) (h.shallow a)
      (h.shallow b) (h.heads_present b) hdiff hstep'
    have hall : ∀ {P : CrdtActor → Prop}, (∀ i, P (w i).2) → P B' →
        ∀ i, P (Function.update w b (D', B') i).2 := by
      intro P hP hB i
      by_cases hi : i = b
      · rwa [hi, Function.update_self]
      · rw [Function.update_of_ne hi]
        exact hP i
    refine ⟨⟨?_, ?_, ?_⟩, funext fun i => ?_⟩
    · exact hall (P := fun s => s.engine.Covered blake3 U) h.covered
        (hcov.mono fun n hn => (List.mem_append.mp hn).elim id id)
    · exact hall (P := fun s => s.engine.arena.ParentClosed) h.closed
        (hu.parentClosed (h.closed a) (h.closed b))
    · exact hall (P := fun s => s.engine.arena.Shallow) h.shallow
        (hu.shallow (h.closed a) (h.closed b) (h.shallow a) (h.shallow b))
    · by_cases hi : i = b
      · subst hi
        rw [Function.update_self, Function.update_self, Set.union_comm]
        exact DagArena.isUnion_iff.mp hu
      · rw [Function.update_of_ne hi, Function.update_of_ne hi]

/-- After any transfers the arena of a replica holds what the replicas had that it has heard of, directly
or through others. -/
theorem Ready.nodes_of_run (h : Ready blake3 U w) (hU : CollisionFree blake3 U)
    (hrun : Run (Transfer blake3) w ts w') : Ready blake3 U w' ∧
      ∀ i, (w' i).2.engine.arena.nodes = ⋃ j ∈ Spread.sources ts i, (w j).2.engine.arena.nodes := by
  refine ⟨hrun.invariant h fun h htr => (h.transfer hU htr).1, ?_⟩
  have hrun' := hrun.with_invariant (P := Ready blake3 U) h fun h htr => (h.transfer hU htr).1
  let content (w : ι → List DagNode × CrdtActor) (i : ι) : Set (Hash32 × DagNode) :=
    (w i).2.engine.arena.nodes
  have hcontent : ∀ w e w', Ready blake3 U w ∧ Transfer blake3 w e w' →
      content w' = Function.update (content w) e.2 (content w e.2 ∪ content w e.1) :=
    fun w e w' hstep => (hstep.1.transfer hU hstep.2).2
  exact Spread.content_of_run (fun {w e w'} => hcontent w e w') hrun'

end CrdtActor

end Aimp.Crdt
