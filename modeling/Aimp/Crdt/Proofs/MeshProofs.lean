import Aimp.Crdt.Mesh
import Aimp.Crdt.Proofs.GcProofs
import Aimp.Formal.Proofs.CrdtConvergenceProofs

/-!
# The mesh refines the convergence specification

A node of the DAG stands for the node of the specification whose id is its place in the order of
creation. Every message that a replica handles is a run of the specification then: an `Append` is a
`Mutate` step, or a `Receive` step if another replica has created the same node; a `Merge` is a
`Receive` step for each node that is new to the replica.
-/

namespace Aimp.Crdt

open Frontier
open CrdtActor (lastBytes plainNode)

variable {ι : Type*} {blake3 : List Byte → Hash32}

namespace Mesh

/-- The id of a hash: its place among the created nodes, counted from one. -/
def idOf (blake3 : List Byte → Hash32) (created : List DagNode) (h : Hash32) : ℕ :=
  created.findIdx (fun n => n.computeHash blake3 = h) + 1

/-- A node as the specification sees it. -/
def encode (blake3 : List Byte → Hash32) (created : List DagNode) (n : DagNode) : Formal.DagNode :=
  ⟨idOf blake3 created (n.computeHash blake3), (n.parents.map (idOf blake3 created)).toFinset⟩

/-- The mesh as the specification sees it. -/
def abs {π δ : Type*} (blake3 : List Byte → Hash32) (w : Mesh ι) : Formal.State ι π δ where
  store i := ((w.replica i).1.map (encode blake3 w.created)).toFinset
  heads i := ((w.replica i).2.engine.heads.map (idOf blake3 w.created)).toFinset
  network := (w.created.map (encode blake3 w.created)).toFinset
  quorum _ _ := ∅
  nextId := w.created.length + 1

/-! ## The ids -/

variable {created : List DagNode} {n m : DagNode} {h k : Hash32}

/-- Some created node has this hash. -/
def Known (blake3 : List Byte → Hash32) (created : List DagNode) (h : Hash32) : Prop :=
  ∃ n ∈ created, n.computeHash blake3 = h

theorem idOf_le (h : Known blake3 created k) : idOf blake3 created k ≤ created.length := by
  obtain ⟨n, hn, hk⟩ := h
  exact List.findIdx_lt_length_of_exists ⟨n, hn, decide_eq_true hk⟩

/-- The created node at the place of a known hash has this hash. -/
theorem getElem_findIdx (hlt : created.findIdx (fun n => n.computeHash blake3 = h) < created.length) :
    (created[created.findIdx (fun n => n.computeHash blake3 = h)]).computeHash blake3 = h :=
  of_decide_eq_true (List.findIdx_getElem (w := hlt))

theorem idOf_inj (hh : Known blake3 created h) (hk : Known blake3 created k)
    (heq : idOf blake3 created h = idOf blake3 created k) : h = k := by
  have hfind : created.findIdx (fun n => n.computeHash blake3 = h) =
      created.findIdx (fun n => n.computeHash blake3 = k) := Nat.succ.inj heq
  have hget := getElem_findIdx (idOf_le hh)
  simp only [hfind] at hget
  exact hget.symm.trans (getElem_findIdx (idOf_le hk))

/-- Creating another node changes no id. -/
theorem idOf_append (hh : Known blake3 created h) (n : DagNode) :
    idOf blake3 (created ++ [n]) h = idOf blake3 created h := by
  have hlt : created.findIdx (fun n => n.computeHash blake3 = h) < created.length := idOf_le hh
  unfold idOf
  rw [List.findIdx_append, if_pos hlt]

/-- A new node gets the next id. -/
theorem idOf_new (hnew : ¬ Known blake3 created (n.computeHash blake3)) :
    idOf blake3 (created ++ [n]) (n.computeHash blake3) = created.length + 1 := by
  have hnone : created.findIdx (fun m => m.computeHash blake3 = n.computeHash blake3) =
      created.length := by
    rw [List.findIdx_eq_length]
    intro m hm
    rw [decide_eq_false_iff_not]
    exact fun heq => hnew ⟨m, hm, heq⟩
  unfold idOf
  rw [List.findIdx_append, hnone, if_neg (lt_irrefl _), List.findIdx_singleton]
  simp

/-! ## What a run of the mesh keeps -/

/-- Parents were created before their children, replicas have accepted created nodes only, and their
heads are those of what they have accepted. -/
structure Consistent (blake3 : List Byte → Hash32) (w : Mesh ι) : Prop where
  parents : ∀ n ∈ w.created, ∀ p ∈ n.parents, Known blake3 w.created p ∧
    idOf blake3 w.created p < idOf blake3 w.created (n.computeHash blake3)
  accepted : ∀ i, ∀ n ∈ (w.replica i).1, n ∈ w.created
  coherent : ∀ i, (w.replica i).2.engine.Coherent blake3
  holds : ∀ i, (w.replica i).2.engine.arena.Holds blake3 (w.replica i).1
  heads : ∀ i, CrdtActor.HeadsOfAccepted blake3 (w.replica i)

variable {w w' : Mesh ι} {i j : ι}

/-- Created nodes are not linked in a cycle. -/
theorem Consistent.acyclic (hc : Consistent blake3 w) : Acyclic (nodeCards blake3 w.created) := by
  apply acyclic_of_level (idOf blake3 w.created)
  rintro p h ⟨_, ⟨n, hn, rfl, rfl⟩, hp⟩
  exact (hc.parents n hn p hp).2

theorem Consistent.known_head (hc : Consistent blake3 w)
    (hh : h ∈ (w.replica i).2.engine.heads) : Known blake3 w.created h := by
  obtain ⟨⟨n, hn, hnh⟩, -⟩ := (hc.heads i h).mp hh
  exact ⟨n, hc.accepted i n hn, hnh⟩

/-- The ids of the heads are the frontier of the store. -/
theorem Consistent.abs_heads {π δ : Type*} (hc : Consistent blake3 w) (i : ι) :
    (w.abs blake3 : Formal.State ι π δ).heads i =
      Formal.headsOf ((w.abs blake3 : Formal.State ι π δ).store i) := by
  have hknown : ∀ n ∈ (w.replica i).1, Known blake3 w.created (n.computeHash blake3) :=
    fun n hn => ⟨n, hc.accepted i n hn, rfl⟩
  ext x
  simp only [abs, Formal.mem_headsOf, List.mem_toFinset, List.mem_map, encode]
  constructor
  · rintro ⟨h, hh, rfl⟩
    obtain ⟨⟨n, hn, rfl⟩, hlist⟩ := (hc.heads i h).mp hh
    refine ⟨⟨_, ⟨n, hn, rfl⟩, rfl⟩, ?_⟩
    rintro _ ⟨m, hm, rfl⟩ hx
    simp only [List.mem_toFinset, List.mem_map] at hx
    obtain ⟨p, hp, hid⟩ := hx
    have hpk := (hc.parents m (hc.accepted i m hm) p hp).1
    exact hlist m hm (idOf_inj hpk (hknown n hn) hid ▸ hp)
  · rintro ⟨⟨_, ⟨n, hn, rfl⟩, rfl⟩, hlist⟩
    refine ⟨n.computeHash blake3, (hc.heads i _).mpr ⟨⟨n, hn, rfl⟩, fun m hm hp => ?_⟩, rfl⟩
    refine hlist _ ⟨m, hm, rfl⟩ ?_
    simp only [List.mem_toFinset, List.mem_map]
    exact ⟨_, hp, rfl⟩

theorem Consistent.abs_consistent {π δ : Type*} (hc : Consistent blake3 w) :
    Formal.Consistent (w.abs blake3 : Formal.State ι π δ) where
  heads := hc.abs_heads
  store i m hm := by
    obtain ⟨n, hn, rfl⟩ := List.mem_map.mp (List.mem_toFinset.mp hm)
    exact List.mem_toFinset.mpr (List.mem_map_of_mem (hc.accepted i n hn))
  id_lt m hm := by
    obtain ⟨n, hn, rfl⟩ := List.mem_map.mp (List.mem_toFinset.mp hm)
    exact Nat.lt_succ_of_le (idOf_le ⟨n, hn, rfl⟩)
  parent_lt m hm p hp := by
    obtain ⟨n, hn, rfl⟩ := List.mem_map.mp (List.mem_toFinset.mp hm)
    obtain ⟨q, hq, rfl⟩ := List.mem_map.mp (List.mem_toFinset.mp hp)
    exact (hc.parents n hn q hq).2

/-- Replicas with equal stores in the specification have the same heads. -/
theorem Consistent.heads_perm {π δ : Type*} (hc : Consistent blake3 w)
    (heq : (w.abs blake3 : Formal.State ι π δ).heads i = (w.abs blake3 : Formal.State ι π δ).heads j) :
    (w.replica i).2.engine.heads.Perm (w.replica j).2.engine.heads := by
  have hsub : ∀ {i j}, (w.abs blake3 : Formal.State ι π δ).heads i =
      (w.abs blake3 : Formal.State ι π δ).heads j →
      ∀ h ∈ (w.replica i).2.engine.heads, h ∈ (w.replica j).2.engine.heads := by
    intro i j heq h hh
    have hid : idOf blake3 w.created h ∈ (w.abs blake3 : Formal.State ι π δ).heads i :=
      List.mem_toFinset.mpr (List.mem_map_of_mem hh)
    rw [heq] at hid
    obtain ⟨k, hk, hkid⟩ := List.mem_map.mp (List.mem_toFinset.mp hid)
    exact idOf_inj (hc.known_head hk) (hc.known_head hh) hkid ▸ hk
  exact (List.perm_ext_iff_of_nodup (hc.coherent i).nodup (hc.coherent j).nodup).mpr
    fun h => ⟨hsub heq h, hsub heq.symm h⟩

/-- Different created nodes are different nodes of the specification. -/
theorem encode_inj (hcf : CollisionFree blake3 created) (hn : n ∈ created) (hm : m ∈ created)
    (heq : encode blake3 created n = encode blake3 created m) : n = m :=
  hcf n hn m hm (idOf_inj ⟨n, hn, rfl⟩ ⟨m, hm, rfl⟩ (congrArg Formal.DagNode.id heq))

/-- Creating another node changes no created node of the specification. -/
theorem Consistent.encode_append (hc : Consistent blake3 w) (hm : m ∈ w.created) (n : DagNode) :
    encode blake3 (w.created ++ [n]) m = encode blake3 w.created m := by
  have hps : m.parents.map (idOf blake3 (w.created ++ [n])) = m.parents.map (idOf blake3 w.created) :=
    List.map_congr_left fun p hp => idOf_append (hc.parents m hm p hp).1 n
  unfold encode
  rw [idOf_append ⟨m, hm, rfl⟩, hps]

theorem consistent_init (threshold gcThreshold : ι → ℕ) :
    Consistent blake3 (init threshold gcThreshold) where
  parents n hn := absurd hn List.not_mem_nil
  accepted i n hn := absurd hn List.not_mem_nil
  coherent i := (CrdtActor.new_spec (by simp) _ _).1
  holds i := (@CrdtActor.new_spec _ none (by simp) _ _).2
  heads i h := by simp [init, CrdtActor.new, MerkleCrdtEngine.withGcThreshold]

variable {t : List DagNode × CrdtActor} {D nodes : List DagNode} {s s' : CrdtActor}

/-- A replica goes on with created nodes. -/
theorem Consistent.set [DecidableEq ι] (hc : Consistent blake3 w) (haccepted : ∀ n ∈ t.1, n ∈ w.created)
    (hcoh : t.2.engine.Coherent blake3) (hholds : t.2.engine.arena.Holds blake3 t.1)
    (hheads : CrdtActor.HeadsOfAccepted blake3 t) :
    Consistent blake3 ⟨Function.update w.replica i t, w.created⟩ := by
  have hall : ∀ {P : List DagNode × CrdtActor → Prop}, (∀ j, P (w.replica j)) → P t →
      ∀ j, P (Function.update w.replica i t j) := by
    intro P hP ht j
    by_cases hj : j = i
    · rwa [hj, Function.update_self]
    · rw [Function.update_of_ne hj]
      exact hP j
  exact ⟨hc.parents, hall (P := fun t => ∀ n ∈ t.1, n ∈ w.created) hc.accepted haccepted,
    hall (P := fun t => t.2.engine.Coherent blake3) hc.coherent hcoh,
    hall (P := fun t => t.2.engine.arena.Holds blake3 t.1) hc.holds hholds, hall hc.heads hheads⟩

theorem mem_announce : m ∈ announce created n ↔ m ∈ created ∨ m = n := by
  unfold announce
  split
  · rename_i hn
    refine ⟨Or.inl, fun h => h.elim id fun h => ?_⟩
    rwa [h]
  · rw [List.mem_append, List.mem_singleton]

theorem announce_of_not_mem (hn : n ∉ created) : announce created n = created ++ [n] := if_neg hn

theorem not_known (hn : n ∉ created) (hcf : CollisionFree blake3 (created ++ [n])) :
    ¬ Known blake3 created (n.computeHash blake3) := by
  rintro ⟨m, hm, hh⟩
  obtain rfl := hcf m (List.mem_append_left _ hm) n
    (List.mem_append_right _ (List.mem_singleton_self _)) hh
  exact hn hm

/-- A node whose parents are known is created. -/
theorem Consistent.announce (hc : Consistent blake3 w)
    (hcf : CollisionFree blake3 (announce w.created n))
    (hps : ∀ p ∈ n.parents, Known blake3 w.created p) :
    Consistent blake3 ⟨w.replica, Mesh.announce w.created n⟩ := by
  by_cases hn : n ∈ w.created
  · unfold Mesh.announce
    rw [if_pos hn]
    exact hc
  · rw [announce_of_not_mem hn] at hcf ⊢
    have hnew := not_known hn hcf
    refine ⟨fun m hm p hp => ?_, fun i m hm => List.mem_append_left _ (hc.accepted i m hm),
      hc.coherent, hc.holds, hc.heads⟩
    have hext : ∀ {h}, Known blake3 w.created h → Known blake3 (w.created ++ [n]) h :=
      fun ⟨k, hk, hh⟩ => ⟨k, List.mem_append_left _ hk, hh⟩
    rcases List.mem_append.mp hm with hm | hm
    · obtain ⟨hpk, hlt⟩ := hc.parents m hm p hp
      refine ⟨hext hpk, ?_⟩
      rwa [idOf_append hpk, idOf_append ⟨m, hm, rfl⟩]
    · obtain rfl := List.mem_singleton.mp hm
      have hpk := hps p hp
      refine ⟨hext hpk, ?_⟩
      rw [idOf_append hpk, idOf_new hnew]
      exact Nat.lt_succ_of_le (idOf_le hpk)

/-- What a message adds to the accepted nodes. -/
theorem accepted_of_step {m : CrdtMsg} {u : List DagNode × CrdtActor}
    (hstep : CrdtActor.Step blake3 t m u) :
    ∃ heads, heads.Perm t.2.engine.heads ∧ u.1 = t.1 ++ (t.2.withHeads heads).accepts m := by
  cases hstep with
  | mk _ _ horder => exact ⟨_, horder, rfl⟩

/-- The parents of an appended node are the heads, in some order. -/
theorem parents_of_append {dataHash : Hash32} {signature : Signature} {vclock : VClock}
    {evidence : Option AiEvidence}
    (hstep : CrdtActor.Step blake3 (D, s) (.append dataHash signature vclock evidence)
      (D ++ [n], s')) : n.parents.Perm s.engine.heads := by
  obtain ⟨heads, horder, hD⟩ := accepted_of_step hstep
  obtain rfl := (List.cons.inj (List.append_cancel_left hD)).1
  exact horder

variable [DecidableEq ι]

/-- Every step keeps the mesh consistent. -/
theorem Consistent.step {m : CrdtMsg} (hc : Consistent blake3 w)
    (hno : CrdtActor.NoOrphan blake3 (w.replica i) m) (hstep : Step blake3 w (i, m) w')
    (hcf : CollisionFree blake3 w'.created) : Consistent blake3 w' := by
  -- what a step of the actor does if it accepts created nodes only
  have key : ∀ {v : Mesh ι} {t nodes}, Consistent blake3 v → v.replica = w.replica →
      CollisionFree blake3 v.created → CrdtActor.Step blake3 (w.replica i) m t →
      t.1 = (w.replica i).1 ++ nodes → (∀ n ∈ nodes, n ∈ v.created) →
      Consistent blake3 ⟨Function.update v.replica i t, v.created⟩ := by
    intro v t nodes hv hi hcf hstep ht hnodes
    rw [← hi] at hno hstep ht
    have hall : ∀ n ∈ t.1, n ∈ v.created := by
      intro n hn
      rw [ht] at hn
      exact (List.mem_append.mp hn).elim (hv.accepted i n) (hnodes n)
    have hac := hv.acyclic.mono (nodeCards_mono hall)
    obtain ⟨h1, h2⟩ := hstep.coherent hac (hv.coherent i) (hv.holds i)
    exact hv.set hall h1 h2 ((hstep.headsOfAccepted (hcf.mono hall) hac (hv.coherent i) (hv.holds i)
      (hv.heads i)).mpr hno)
  cases hstep with
  | @append _ D s s' node _ _ _ _ hi hstep =>
    have hps : ∀ p ∈ node.parents, Known blake3 w.created p := by
      intro p hp
      refine hc.known_head (i := i) ?_
      rw [hi]
      exact (parents_of_append hstep).mem_iff.mp hp
    refine key (hc.announce hcf hps) rfl hcf (hi ▸ hstep) (by rw [hi]) fun n hn => ?_
    exact mem_announce.mpr (Or.inr (List.mem_singleton.mp hn))
  | merge hsent hstep =>
    obtain ⟨heads, -, ht⟩ := accepted_of_step hstep
    exact key hc rfl hcf hstep ht hsent
  | getRoot hstep =>
    obtain ⟨heads, -, ht⟩ := accepted_of_step hstep
    exact key hc rfl hcf hstep ht fun n hn => absurd hn List.not_mem_nil
  | getDiff hstep =>
    obtain ⟨heads, -, ht⟩ := accepted_of_step hstep
    exact key hc rfl hcf hstep ht fun n hn => absurd hn List.not_mem_nil

/-! ## The simulation -/

theorem Step.created_grows {m : ι × CrdtMsg} (hstep : Step blake3 w m w') :
    w.created <+: w'.created := by
  cases hstep with
  | append =>
    show _ <+: Mesh.announce _ _
    unfold Mesh.announce
    split
    · exact List.prefix_rfl
    · exact List.prefix_append _ _
  | merge => exact List.prefix_rfl
  | getRoot => exact List.prefix_rfl
  | getDiff => exact List.prefix_rfl

variable {π δ : Type*}

/-- A replica that creates a node mutates. -/
theorem Consistent.mutates (hc : Consistent blake3 w)
    (hc' : Consistent blake3 ⟨Function.update w.replica i t, w.created ++ [n]⟩)
    (ht : t.1 = (w.replica i).1 ++ [n]) (hps : n.parents.Perm (w.replica i).2.engine.heads)
    (hnew : ¬ Known blake3 w.created (n.computeHash blake3)) :
    (abs blake3 ⟨Function.update w.replica i t, w.created ++ [n]⟩ : Formal.State ι π δ) =
      Formal.mutate (w.abs blake3) i := by
  have hnode : encode blake3 (w.created ++ [n]) n =
      ⟨w.created.length + 1, (w.abs blake3 : Formal.State ι π δ).heads i⟩ := by
    have hids : n.parents.map (idOf blake3 (w.created ++ [n])) =
        n.parents.map (idOf blake3 w.created) :=
      List.map_congr_left fun p hp => idOf_append (hc.known_head (hps.mem_iff.mp hp)) n
    unfold encode
    rw [idOf_new hnew, hids, List.toFinset_eq_of_perm _ _ (hps.map _)]
    rfl
  have hold : ∀ D : List DagNode, (∀ m ∈ D, m ∈ w.created) →
      D.map (encode blake3 (w.created ++ [n])) = D.map (encode blake3 w.created) :=
    fun D hD => List.map_congr_left fun m hm => hc.encode_append (hD m hm) n
  have hstore : ∀ j, (abs blake3 ⟨Function.update w.replica i t, w.created ++ [n]⟩ :
      Formal.State ι π δ).store j = (Formal.mutate (w.abs blake3 : Formal.State ι π δ) i).store j := by
    intro j
    show ((Function.update w.replica i t j).1.map (encode blake3 (w.created ++ [n]))).toFinset =
      Function.update (w.abs blake3 : Formal.State ι π δ).store i _ j
    by_cases hj : j = i
    · subst hj
      rw [Function.update_self, Function.update_self, ht, List.map_append, hold _ (hc.accepted j),
        List.toFinset_append, List.map_singleton, hnode, Finset.union_comm]
      rfl
    · rw [Function.update_of_ne hj, Function.update_of_ne hj, hold _ (hc.accepted j)]
      rfl
  refine Formal.State.ext (funext hstore) (funext fun j => ?_) ?_ rfl ?_
  · rw [hc'.abs_heads, hstore]
    exact ((hc.abs_consistent.mutate i).heads j).symm
  · show ((w.created ++ [n]).map (encode blake3 (w.created ++ [n]))).toFinset =
      insert _ (w.created.map (encode blake3 w.created)).toFinset
    rw [List.map_append, hold _ fun m hm => hm, List.toFinset_append, List.map_singleton, hnode,
      Finset.union_comm]
    rfl
  · show (w.created ++ [n]).length + 1 = w.created.length + 1 + 1
    rw [List.length_append, List.length_singleton]

variable [DecidableEq π] [DecidableEq δ] {c : Formal.Constants ι}

/-- A replica that accepts created nodes receives them one after another. -/
theorem Consistent.receives (hc : Consistent blake3 w)
    (hc' : Consistent blake3 ⟨Function.update w.replica i t, w.created⟩)
    (ht : t.1 = (w.replica i).1 ++ nodes) (hnodes : ∀ n ∈ nodes, n ∈ w.created)
    (hi : i ∈ c.nodes) :
    ∃ as, Run (Formal.Next c) (w.abs blake3 : Formal.State ι π δ) as
      (abs blake3 ⟨Function.update w.replica i t, w.created⟩) := by
  let s : Formal.State ι π δ := w.abs blake3
  obtain ⟨as, hrun⟩ := Formal.exists_run_receives (c := c) (s := s) hi
    (nodes.map (encode blake3 w.created)) (hc.abs_heads i) fun m hm => by
      obtain ⟨n, hn, rfl⟩ := List.mem_map.mp hm
      exact List.mem_toFinset.mpr (List.mem_map_of_mem (hnodes n hn))
  refine ⟨as, ?_⟩
  have hstore : ∀ j, (abs blake3 ⟨Function.update w.replica i t, w.created⟩ :
      Formal.State ι π δ).store j = Function.update (w.abs blake3 : Formal.State ι π δ).store i
        ((w.abs blake3 : Formal.State ι π δ).store i ∪
          (nodes.map (encode blake3 w.created)).toFinset) j := by
    intro j
    by_cases hj : j = i
    · subst hj
      rw [Function.update_self]
      show ((Function.update w.replica j t j).1.map _).toFinset = _
      rw [Function.update_self, ht, List.map_append, List.toFinset_append]
      rfl
    · rw [Function.update_of_ne hj]
      show ((Function.update w.replica i t j).1.map _).toFinset = _
      rw [Function.update_of_ne hj]
      rfl
  convert hrun using 1
  refine Formal.State.ext (funext hstore) (funext fun j => ?_) rfl rfl rfl
  rw [hc'.abs_heads, hstore]
  dsimp only
  by_cases hj : j = i
  · subst hj
    rw [Function.update_self, Function.update_self]
  · rw [Function.update_of_ne hj, Function.update_of_ne hj, hc.abs_heads]

/-- Every message that a replica handles is a run of the specification. -/
theorem Consistent.simulated {m : CrdtMsg} (hc : Consistent blake3 w)
    (hno : CrdtActor.NoOrphan blake3 (w.replica i) m) (hstep : Step blake3 w (i, m) w')
    (hcf : CollisionFree blake3 w'.created) (hi : i ∈ c.nodes)
    (hmax : w'.created.length ≤ c.maxMutations) :
    ∃ as, Run (Formal.Next c) (w.abs blake3 : Formal.State ι π δ) as (w'.abs blake3) := by
  have hc' := hc.step hno hstep hcf
  cases hstep with
  | @append _ D s s' node _ _ _ _ hD hstep =>
    have ht : D ++ [node] = (w.replica i).1 ++ [node] := by rw [hD]
    by_cases hold : node ∈ w.created
    · rw [Mesh.announce, if_pos hold] at hc' ⊢
      exact hc.receives hc' ht (fun n hn => List.mem_singleton.mp hn ▸ hold) hi
    · have hps : node.parents.Perm (w.replica i).2.engine.heads := by
        rw [hD]
        exact parents_of_append hstep
      rw [announce_of_not_mem hold] at hc' hcf hmax ⊢
      rw [List.length_append, List.length_singleton] at hmax
      refine ⟨[.mutate i], ?_⟩
      rw [hc.mutates hc' ht hps (not_known hold hcf)]
      have hcard : ((w.abs blake3 : Formal.State ι π δ).store i).card ≤ w.created.length :=
        (Finset.card_le_card (hc.abs_consistent.store i)).trans
          ((List.toFinset_card_le _).trans_eq (List.length_map _))
      have hnodes : 1 ≤ c.nodes.card := Finset.card_pos.mpr ⟨i, hi⟩
      refine Run.single (.mutate hi (by omega) ?_)
      calc w.created.length + 1 ≤ c.maxMutations := hmax
        _ ≤ c.nodes.card * c.maxMutations := Nat.le_mul_of_pos_left _ hnodes
  | merge hsent hstep =>
    obtain ⟨heads, -, ht⟩ := accepted_of_step hstep
    exact hc.receives hc' ht hsent hi
  | getRoot hstep =>
    obtain ⟨heads, -, ht⟩ := accepted_of_step hstep
    exact hc.receives hc' ht (fun n hn => absurd hn List.not_mem_nil) hi
  | getDiff hstep =>
    obtain ⟨heads, -, ht⟩ := accepted_of_step hstep
    exact hc.receives hc' ht (fun n hn => absurd hn List.not_mem_nil) hi

/-- A run of the mesh in which no node arrives late, without hash collisions among the created nodes, is a
run of the specification, however often the garbage collector runs. Hence replicas that have accepted the
same nodes have the same heads and the same root. -/
theorem refines {threshold gcThreshold : ι → ℕ} {ms : List (ι × CrdtMsg)}
    (hrun : Run (fun w m w' => CrdtActor.NoOrphan blake3 (w.replica m.1) m.2 ∧ Step blake3 w m w')
      (init threshold gcThreshold) ms w)
    (hcf : CollisionFree blake3 w.created) (hnodes : ∀ m ∈ ms, m.1 ∈ c.nodes)
    (hmax : w.created.length ≤ c.maxMutations) :
    (∃ as, Run (Formal.Next c) (Formal.init : Formal.State ι π δ) as (w.abs blake3)) ∧
    ∀ i j, (∀ n, n ∈ (w.replica i).1 ↔ n ∈ (w.replica j).1) →
      (w.replica i).2.engine.heads.Perm (w.replica j).2.engine.heads ∧
      ((w.replica i).2.engine.getMerkleRoot blake3).2 =
        ((w.replica j).2.engine.getMerkleRoot blake3).2 := by
  let R : Mesh ι → Formal.State ι π δ → Prop := fun w s => CollisionFree blake3 w.created →
    w.created.length ≤ c.maxMutations → Consistent blake3 w ∧ s = w.abs blake3
  have hinit : R (init threshold gcThreshold) Formal.init :=
    fun _ _ => ⟨consistent_init threshold gcThreshold, rfl⟩
  have hsim : ∃ as s, Run (Formal.Next c) (Formal.init : Formal.State ι π δ) as s ∧ R w s := by
    refine hrun.with_mem.simulation hinit ?_
    rintro w ⟨i, m⟩ w' s hR ⟨hmem, hno, hstep⟩
    by_cases hok : CollisionFree blake3 w'.created ∧ w'.created.length ≤ c.maxMutations
    · have hpre := hstep.created_grows
      obtain ⟨hc, rfl⟩ := hR (hok.1.mono fun n hn => hpre.subset hn) (hpre.length_le.trans hok.2)
      have hspec : ∃ as, Run (Formal.Next c) (w.abs blake3 : Formal.State ι π δ) as (w'.abs blake3) :=
        hc.simulated hno hstep hok.1 (hnodes _ hmem) hok.2
      obtain ⟨as, hrun⟩ := hspec
      exact ⟨as, _, hrun, fun _ _ => ⟨hc.step hno hstep hok.1, rfl⟩⟩
    · exact ⟨[], s, .nil, fun h1 h2 => absurd ⟨h1, h2⟩ hok⟩
  obtain ⟨as, s, hspec, hR⟩ := hsim
  obtain ⟨hc, rfl⟩ := hR hcf hmax
  refine ⟨⟨as, hspec⟩, fun i j hsame => ?_⟩
  have hstore : (w.abs blake3 : Formal.State ι π δ).store i =
      (w.abs blake3 : Formal.State ι π δ).store j := by
    ext m
    simp only [abs, List.mem_toFinset, List.mem_map, hsame]
  have hspec' := Formal.consistent_of_run hspec
  have hheads : (w.abs blake3 : Formal.State ι π δ).heads i =
      (w.abs blake3 : Formal.State ι π δ).heads j := by
    rw [hspec'.heads, hspec'.heads, hstore]
  have hperm := hc.heads_perm hheads
  refine ⟨hperm, ?_⟩
  rw [(MerkleCrdtEngine.getMerkleRoot_spec (hc.coherent i)).1,
    (MerkleCrdtEngine.getMerkleRoot_spec (hc.coherent j)).1, rootOf_perm hperm]

/-- One replica creates a node, the other one receives it. -/
theorem refines_two_replicas : ∃ w : Mesh Bool, w.created.length = 1 ∧
    (w.replica true).2.engine.heads.Perm (w.replica false).2.engine.heads := by
  let n := plainNode [] 1
  have hrun : Run (fun w m w' => CrdtActor.NoOrphan lastBytes (w.replica m.1) m.2 ∧
      Step lastBytes w m w') (init (fun _ : Bool => 2) fun _ => 1000)
      (([] ++ [(true, .append n.dataHash (zeros 64) ⟨[], VClock.sorted_nil⟩ none)]) ++
        [(false, .merge [n])]) _ :=
    .snoc (.snoc .nil ⟨trivial, .append rfl (.here _ _ _ fun _ => true)⟩)
      ⟨fun m hm _ ⟨a, ha, _⟩ => absurd ha List.not_mem_nil,
        .merge (fun m hm => hm) (.here _ _ _ fun _ => true)⟩
  let c : Formal.Constants Bool := ⟨Finset.univ, 1, 2⟩
  have hspec : (∃ as, Run (Formal.Next c) (Formal.init : Formal.State Bool Unit Unit) as _) ∧ _ :=
    refines hrun (by unfold CollisionFree; decide +kernel) (fun _ _ => Finset.mem_univ _) (by decide)
  have hheads := hspec.2
  exact ⟨_, rfl, (hheads true false fun m => Iff.rfl).1⟩

end Mesh

end Aimp.Crdt
