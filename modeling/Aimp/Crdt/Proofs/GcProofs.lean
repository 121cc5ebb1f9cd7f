import Aimp.Crdt.Proofs.CollectProofs
import Aimp.Crdt.Proofs.ConvergenceProofs

/-!
# Garbage collection and the frontier

The garbage collector forgets nodes. A node that arrives again, or for the first time, after all its
children were forgotten becomes a head, although nodes accepted earlier list it as a parent. This is
the only way in which garbage collection changes the frontier.
-/

namespace Aimp.Crdt

open Frontier

variable {blake3 : List Byte → Hash32}

theorem finite_names_nodeCards (D : List DagNode) : (names (nodeCards blake3 D)).Finite := by
  refine (List.finite_toSet (D.map fun n => n.computeHash blake3)).subset ?_
  intro h hh
  obtain ⟨n, hn, hnh⟩ := mem_names_nodeCards.mp hh
  exact List.mem_map.mpr ⟨n, hn, hnh⟩

theorem nodeCards_concat (D : List DagNode) (n : DagNode) :
    nodeCards blake3 (D ++ [n]) = insert (n.computeHash blake3, n.parents) (nodeCards blake3 D) := by
  ext ⟨h, ps⟩
  simp only [nodeCards_append, Set.mem_union, Set.mem_insert_iff, Prod.mk.injEq]
  constructor
  · rintro (h1 | ⟨m, hm, hh, hps⟩)
    · exact Or.inr h1
    · obtain rfl := List.mem_singleton.mp hm
      exact Or.inl ⟨hh.symm, hps.symm⟩
  · rintro (⟨rfl, rfl⟩ | h1)
    · exact Or.inr ⟨n, List.mem_singleton_self _, rfl, rfl⟩
    · exact Or.inl h1

/-- Without collisions a `Merge` adds exactly the cards of its nodes. -/
theorem DagArena.Delivered.cards_eq {a b : DagArena} {D nodes : List DagNode}
    (h : a.Delivered blake3 nodes b) (hD : a.Holds blake3 D)
    (hcf : CollisionFree blake3 (D ++ nodes)) : b.cards = a.cards ∪ nodeCards blake3 nodes := by
  ext ⟨k, ps⟩
  constructor
  · rintro ⟨n, hn, rfl⟩
    rcases h.origin k n hn with h1 | ⟨h1, h2⟩
    · exact Or.inl ⟨n, h1, rfl⟩
    · exact Or.inr ⟨n, h1, h2, rfl⟩
  · rintro (⟨n, hn, rfl⟩ | ⟨n, hn, hk, rfl⟩)
    · exact ⟨n, h.sub k n hn, rfl⟩
    · obtain ⟨m, hm⟩ := contains_iff.mp (h.present n hn)
      obtain ⟨h1, h2⟩ := h.holds hD _ m hm
      obtain rfl := hcf m h1 n (List.mem_append_right _ hn) h2
      exact ⟨m, hk ▸ hm, rfl⟩

namespace CrdtActor

/-- The heads are the accepted nodes that no accepted node lists as a parent. -/
def HeadsOfAccepted (blake3 : List Byte → Hash32) (t : List DagNode × CrdtActor) : Prop :=
  ∀ h, h ∈ t.2.engine.heads ↔
    (∃ n ∈ t.1, n.computeHash blake3 = h) ∧ ∀ n ∈ t.1, h ∉ n.parents

/-- No node arrives late: a node that `Merge` delivers, that is not in the arena and that an accepted
node lists as a parent, is listed by a node in the arena or in the same batch as well. -/
def NoOrphan (blake3 : List Byte → Hash32) (t : List DagNode × CrdtActor) : CrdtMsg → Prop
  | .merge nodes => ∀ n ∈ nodes, t.2.engine.arena.contains (n.computeHash blake3) = false →
      (∃ a ∈ t.1, n.computeHash blake3 ∈ a.parents) →
      (∃ k a, t.2.engine.arena.getByHash k = some a ∧ n.computeHash blake3 ∈ a.parents) ∨
        ∃ a ∈ nodes, n.computeHash blake3 ∈ a.parents
  | _ => True

theorem headsOfAccepted_iff {t : List DagNode × CrdtActor} :
    HeadsOfAccepted blake3 t ↔
      ∀ h, h ∈ t.2.engine.heads ↔ h ∈ tips (nodeCards blake3 t.1) := by
  have hfr : ∀ h, h ∈ tips (nodeCards blake3 t.1) ↔
      (∃ n ∈ t.1, n.computeHash blake3 = h) ∧ ∀ n ∈ t.1, h ∉ n.parents := by
    intro h
    show h ∈ names _ ∧ ¬ h ∈ listed _ ↔ _
    rw [mem_names_nodeCards, mem_listed_nodeCards]
    push Not
    rfl
  unfold HeadsOfAccepted
  simp only [hfr]

variable {s s' : CrdtActor} {D D' : List DagNode}

theorem HeadsOfAccepted.not_mem {n : DagNode} {h : Hash32} (hlaw : HeadsOfAccepted blake3 (D, s))
    (hn : n ∈ D) (hp : h ∈ n.parents) : h ∉ s.engine.heads :=
  fun hh => ((hlaw h).mp hh).2 n hn hp

/-- A delivered node is late if it is not in the arena and only the accepted nodes list it. -/
theorem noOrphan_merge_iff (nodes : List DagNode) :
    NoOrphan blake3 (D, s) (.merge nodes) ↔
      ∀ h ∈ names (nodeCards blake3 nodes), h ∉ names s.engine.arena.cards →
        h ∈ listed (nodeCards blake3 D) → h ∈ listed (s.engine.arena.cards ∪ nodeCards blake3 nodes) := by
  constructor
  · intro hno h hN hS hT
    obtain ⟨n, hn, rfl⟩ := mem_names_nodeCards.mp hN
    rw [DagArena.mem_names, Bool.not_eq_true] at hS
    rcases hno n hn hS (mem_listed_nodeCards.mp hT) with h1 | h1
    · exact listed_mono Set.subset_union_left (DagArena.mem_listed.mpr h1)
    · exact listed_mono Set.subset_union_right (mem_listed_nodeCards.mpr h1)
  · intro hall n hn hcont hT
    have hlist := hall _ (mem_names_nodeCards.mpr ⟨n, hn, rfl⟩)
      (by rw [DagArena.mem_names, hcont]; simp) (mem_listed_nodeCards.mpr hT)
    obtain ⟨k, ps, hk | hk, hp⟩ := hlist
    · exact Or.inl (DagArena.mem_listed.mp ⟨k, ps, hk, hp⟩)
    · exact Or.inr (mem_listed_nodeCards.mp ⟨k, ps, hk, hp⟩)

/-- One message: the heads are still those of the accepted nodes if and only if no node arrives
late. -/
theorem Step.headsOfAccepted {m : CrdtMsg} (hstep : Step blake3 (D, s) m (D', s'))
    (hcf : CollisionFree blake3 D') (hac : Acyclic (nodeCards blake3 D'))
    (hc : s.engine.Coherent blake3) (hD : s.engine.arena.Holds blake3 D)
    (hlaw : HeadsOfAccepted blake3 (D, s)) :
    HeadsOfAccepted blake3 (D', s') ↔ NoOrphan blake3 (D, s) m := by
  rw [headsOfAccepted_iff] at hlaw ⊢
  cases hstep with
  | @mk _ _ _ disk heads horder =>
    have hc' := coherent_withHeads hc horder
    have hD' : (s.withHeads heads).engine.arena.Holds blake3 D := hD
    cases m with
    | append dataHash signature vclock evidence =>
      obtain ⟨-, h2, -⟩ := handleAppend_spec disk hc' hD' hac
      refine ⟨fun _ => trivial, fun _ h => ?_⟩
      show h ∈ (CrdtActor.handleAppend blake3 disk _ dataHash signature vclock
        evidence).1.engine.heads ↔ _
      simp only [accepts, nodeCards_concat] at hac ⊢
      rw [h2, (frontier_insert_top (finite_names_nodeCards D) hac fun f hf =>
        horder.mem_iff.mpr ((hlaw f).mpr hf)).2, List.mem_singleton, Set.mem_singleton_iff]
    | merge nodes =>
      obtain ⟨h1, h2⟩ := handleMerge_spec disk nodes hc'
      have hsame : tips s.engine.arena.cards = tips (nodeCards blake3 D) := by
        ext h
        rw [← hc.mem_heads, hlaw]
      have hcards : _ = s.engine.arena.cards ∪ nodeCards blake3 nodes := h2.cards_eq hD' hcf
      have hunion := frontier_union (N := nodeCards blake3 nodes) hD.cards hsame
      rw [← hcards, ← nodeCards_append] at hunion
      refine Iff.trans ?_ (hunion.trans ?_)
      · rw [Set.ext_iff]
        exact forall_congr' fun h => by rw [← h1.mem_heads]; rfl
      · rw [hcards]
        exact (noOrphan_merge_iff nodes).symm
    | getRoot =>
      refine ⟨fun _ => trivial, fun _ h => ?_⟩
      obtain ⟨-, -, h3, -, -⟩ := MerkleCrdtEngine.getMerkleRoot_spec hc'
      show h ∈ (MerkleCrdtEngine.getMerkleRoot blake3 _).1.heads ↔ h ∈ tips (nodeCards _ (D ++ []))
      rw [h3, List.append_nil]
      exact horder.mem_iff.trans (hlaw h)
    | getDiff remoteHeads =>
      refine ⟨fun _ => trivial, fun _ h => ?_⟩
      show h ∈ heads ↔ h ∈ tips (nodeCards _ (D ++ []))
      rw [List.append_nil]
      exact horder.mem_iff.trans (hlaw h)

/-- A replica that has received some nodes in one batch, and nothing else. -/
theorem run_merge (threshold gcThreshold : ℕ) {nodes : List DagNode}
    (hcf : CollisionFree blake3 nodes) : ∃ s : CrdtActor,
      Run (Step blake3) ([], new none threshold gcThreshold) [.merge nodes] (nodes, s) ∧
      s.engine.Coherent blake3 ∧ s.engine.arena.cards = nodeCards blake3 nodes ∧
      s.engine.gcThreshold = gcThreshold ∧
      ∀ n ∈ nodes, s.engine.arena.getByHash (n.computeHash blake3) = some n := by
  have hnone : ∀ p, (none : Option PersistentStore) = some p → p.Honest blake3 := by simp
  obtain ⟨hc, hD⟩ := new_spec hnone threshold gcThreshold
  obtain ⟨hc', hdel⟩ := handleMerge_spec (fun _ => true) nodes hc
  have hD' := hdel.holds hD
  have hrun : Run (Step blake3) ([], new none threshold gcThreshold) ([] ++ [.merge nodes])
      ([] ++ nodes, _) := .snoc .nil (.here [] (new none threshold gcThreshold) (.merge nodes)
        fun _ => true)
  refine ⟨_, hrun, hc', ?_, (handleMerge_counter _ _ _ _).1, fun n hn => ?_⟩
  · refine (hdel.cards_eq hD hcf).trans (Set.union_eq_right.mpr ?_)
    rintro c ⟨n, hn, -⟩
    exact absurd hn (by simp [new, MerkleCrdtEngine.withGcThreshold])
  · obtain ⟨m, hm⟩ := DagArena.contains_iff.mp (hdel.present n hn)
    obtain ⟨hmD, hh⟩ := hD' _ m hm
    obtain rfl := hcf m hmD n hn hh
    exact hm

/-- The hash of a plain node. -/
def plainHash (i : Byte) : Hash32 := ⟨i :: List.replicate 31 0, length_leading i⟩

/-- The `i`-th node of a chain. -/
def chainNode (i : Byte) : DagNode := plainNode (if i ≤ 1 then [] else [plainHash (i - 1)]) i

/-- A chain of 102 nodes. -/
def chain : List DagNode := (List.range' 1 102).map fun i => chainNode (Fin.ofNat 256 i)

/-- A chain is received in one batch; a node is appended to it, which lets the garbage collector drop
the first two nodes of the chain; then the first one is received again. -/
def lateMsgs : List CrdtMsg :=
  [.merge chain, .append (plainHash 200) (zeros 64) ⟨[], VClock.sorted_nil⟩ none,
    .merge [chainNode 1]]

/-- The nodes accepted in that run. -/
def lateAccepted : List DagNode :=
  chain ++ [plainNode [plainHash 102] 200] ++ [chainNode 1]

theorem mem_chain {n : DagNode} : n ∈ chain ↔ ∃ i : Byte, 1 ≤ i.val ∧ i.val ≤ 102 ∧ n = chainNode i := by
  simp only [chain, List.mem_map, List.mem_range'_1]
  constructor
  · rintro ⟨i, ⟨hi, hi'⟩, rfl⟩
    have hval : (Fin.ofNat 256 i).val = i := Nat.mod_eq_of_lt (by omega)
    exact ⟨Fin.ofNat 256 i, by omega, by omega, rfl⟩
  · rintro ⟨i, hi, hi', rfl⟩
    have hval : Fin.ofNat 256 i.val = i := Fin.ext (Nat.mod_eq_of_lt i.isLt)
    exact ⟨i.val, ⟨hi, by omega⟩, congrArg chainNode hval⟩

theorem computeHash_plainNode (ps : List Hash32) (i : Byte) :
    (plainNode ps i).computeHash lastBytes = plainHash i := by
  have hlen : ∀ b : List Byte, b.length = 32 → ∀ l, (lastBytes (l ++ b)).val = b := by
    intro b hb l
    have hdrop : (l ++ b).length = (List.replicate 32 (0 : Byte) ++ l).length := by
      rw [List.length_append, List.length_append, List.length_replicate, hb, Nat.add_comm]
    show ((List.replicate 32 (0 : Byte) ++ (l ++ b)).drop (l ++ b).length) = b
    rw [← List.append_assoc, hdrop, List.drop_left]
  refine Subtype.ext ?_
  show (lastBytes ((ps.flatMap Subtype.val ++ (zeros 64).val ++ _ ++ []) ++ [])).val = _
  rw [List.append_nil, List.append_nil]
  exact hlen _ (plainNode ps i).dataHash.2 _

theorem plainHash_inj {i j : Byte} (h : plainHash i = plainHash j) : i = j :=
  (List.cons.inj (congrArg Subtype.val h)).1

/-- The position of a plain node above the start of the chain, by the first byte of its hash. -/
def level (h : Hash32) : ℕ := if h = plainHash 200 then 103 else (h.val.headD 0).val

/-- The accepted nodes are plain, every parent is one level below its child, and what has no parents is
the start of the chain. -/
theorem lateAccepted_spec {n : DagNode} (hn : n ∈ lateAccepted) :
    ∃ i ps, n = plainNode ps i ∧ (ps = if level (plainHash i) ≤ 1 then [] else
      [plainHash (if i = 200 then 102 else i - 1)]) ∧
      ∀ p ∈ ps, level (plainHash i) = level p + 1 := by
  have hchain : ∀ i : Byte, 1 ≤ i.val → i.val ≤ 102 → level (plainHash i) = i.val := by
    intro i _ hi
    have hne : plainHash i ≠ plainHash 200 := by
      intro h
      rw [plainHash_inj h] at hi
      exact absurd hi (by decide)
    unfold level
    rw [if_neg hne]
    rfl
  have hnode : ∀ i : Byte, 1 ≤ i.val → i.val ≤ 102 → ∃ j ps, chainNode i = plainNode ps j ∧
      (ps = if level (plainHash j) ≤ 1 then [] else [plainHash (if j = 200 then 102 else j - 1)]) ∧
      ∀ p ∈ ps, level (plainHash j) = level p + 1 := by
    intro i hi hi'
    have hne : i ≠ 200 := by
      rintro rfl
      exact absurd hi' (by decide)
    have hle : i ≤ 1 ↔ i.val ≤ 1 := Fin.le_def
    refine ⟨i, _, rfl, ?_, fun p hp => ?_⟩
    · simp only [hchain i hi hi', hle, if_neg hne]
    · split at hp
      · exact absurd hp List.not_mem_nil
      · rename_i h1
        have hval : (i - 1).val = i.val - 1 := Fin.sub_val_of_le (le_of_lt (not_le.mp h1))
        rw [hle] at h1
        rw [List.mem_singleton.mp hp, hchain i hi hi', hchain (i - 1) (by omega) (by omega), hval]
        omega
  rcases List.mem_append.mp hn with hn | hn
  · rcases List.mem_append.mp hn with hn | hn
    · obtain ⟨i, hi, hi', rfl⟩ := mem_chain.mp hn
      exact hnode i hi hi'
    · rw [List.mem_singleton.mp hn]
      exact ⟨200, _, rfl, by decide, by decide⟩
  · rw [List.mem_singleton.mp hn]
    exact hnode 1 (by decide) (by decide)

theorem lateAccepted_collisionFree : CollisionFree lastBytes lateAccepted := by
  intro m hm n hn h
  obtain ⟨i, ps, rfl, hps, -⟩ := lateAccepted_spec hm
  obtain ⟨j, ps', rfl, hps', -⟩ := lateAccepted_spec hn
  rw [computeHash_plainNode, computeHash_plainNode] at h
  obtain rfl := plainHash_inj h
  rw [hps, hps']

/-- Every link goes up one level. -/
theorem level_of_child {p h : Hash32} (hc : Child (nodeCards lastBytes lateAccepted) p h) :
    level h = level p + 1 := by
  obtain ⟨_, ⟨n, hn, rfl, rfl⟩, hp⟩ := hc
  obtain ⟨i, ps, rfl, -, hps⟩ := lateAccepted_spec hn
  rw [computeHash_plainNode]
  exact hps p hp

theorem level_of_chain {l : List Hash32} {h t : Hash32}
    (hl : (h :: l).IsChain (Child (nodeCards lastBytes lateAccepted)))
    (ht : (h :: l).getLast? = some t) : level t = level h + l.length := by
  induction l generalizing h with
  | nil =>
    obtain rfl := Option.some.inj ht
    rfl
  | cons x l ih =>
    obtain ⟨hx, hl⟩ := List.isChain_cons_cons.mp hl
    rw [List.getLast?_cons_cons] at ht
    rw [ih hl ht, level_of_child hx, List.length_cons]
    omega

theorem lateAccepted_acyclic : Acyclic (nodeCards lastBytes lateAccepted) := by
  apply acyclic_of_level level
  intro p h hc
  rw [level_of_child hc]
  omega

/-- The only node of the chain that is nobody's parent is the last one. -/
theorem tips_chain : tips (nodeCards lastBytes chain) = {plainHash 102} := by
  have hparents : ∀ i : Byte, ¬ i ≤ 1 → (chainNode i).parents = [plainHash (i - 1)] :=
    fun i hi => if_neg hi
  ext h
  rw [Set.mem_singleton_iff]
  constructor
  · rintro ⟨hname, hlisted⟩
    obtain ⟨n, hn, rfl⟩ := mem_names_nodeCards.mp hname
    obtain ⟨i, hi, hi', rfl⟩ := mem_chain.mp hn
    rw [chainNode, computeHash_plainNode] at hlisted ⊢
    by_contra hne
    have hlt : i.val < 102 := by
      refine lt_of_le_of_ne hi' fun heq => hne ?_
      rw [show i = 102 from Fin.ext heq]
    have hsucc : (i + 1).val = i.val + 1 := by
      rw [Fin.val_add]
      exact Nat.mod_eq_of_lt (by show i.val + 1 < 256; omega)
    refine hlisted (mem_listed_nodeCards.mpr ⟨chainNode (i + 1), mem_chain.mpr
      ⟨i + 1, by omega, by omega, rfl⟩, ?_⟩)
    have h1 : ¬ i + 1 ≤ 1 := by
      rw [Fin.le_def, hsucc]
      show ¬ i.val + 1 ≤ 1
      omega
    have hback : i + 1 - 1 = i := by
      refine Fin.ext ?_
      rw [Fin.sub_val_of_le (le_of_lt (not_le.mp h1)), hsucc]
      rfl
    rw [hparents _ h1, hback]
    exact List.mem_singleton_self _
  · rintro rfl
    refine ⟨mem_names_nodeCards.mpr ⟨chainNode 102, mem_chain.mpr ⟨102, by decide, by decide, rfl⟩,
      computeHash_plainNode _ _⟩, fun hlisted => ?_⟩
    obtain ⟨n, hn, hp⟩ := mem_listed_nodeCards.mp hlisted
    obtain ⟨j, hj, hj', rfl⟩ := mem_chain.mp hn
    by_cases h1 : j ≤ 1
    · rw [chainNode, if_pos h1] at hp
      exact absurd hp List.not_mem_nil
    · rw [hparents j h1, List.mem_singleton] at hp
      have hval : (j - 1).val = j.val - 1 := Fin.sub_val_of_le (le_of_lt (not_le.mp h1))
      have h102 := congrArg Fin.val (plainHash_inj hp)
      rw [hval] at h102
      have : ((102 : Byte) : ℕ) = 102 := rfl
      omega

/-- A replica that has received the chain, and then a node on top of it. -/
theorem run_topped : ∃ s : CrdtActor, Run (Step lastBytes) ([], new none 2 1)
      [.merge chain, .append (plainHash 200) (zeros 64) ⟨[], by simp⟩ none]
      (chain ++ [plainNode [plainHash 102] 200], s) ∧
    ∀ i, level (plainHash i) ≤ 2 → s.engine.arena.contains (plainHash i) = false := by
  have hsub : ∀ n ∈ chain, n ∈ lateAccepted := fun n hn =>
    List.mem_append_left _ (List.mem_append_left _ hn)
  obtain ⟨s, hrun, hc, hcards, hthreshold, -⟩ :=
    run_merge 2 1 (lateAccepted_collisionFree.mono hsub)
  have hheads : s.engine.heads = [plainHash 102] := by
    refine List.perm_singleton.mp
      ((List.perm_ext_iff_of_nodup hc.nodup (List.nodup_singleton _)).mpr fun h => ?_)
    rw [hc.mem_heads, hcards, tips_chain, Set.mem_singleton_iff, List.mem_singleton]
  have hnode : s.engine.mutation (plainHash 200) (zeros 64) ⟨[], by simp⟩ none =
      plainNode [plainHash 102] 200 := by
    unfold MerkleCrdtEngine.mutation
    rw [hheads]
    rfl
  have hstep : Step lastBytes (chain, s) (.append (plainHash 200) (zeros 64) ⟨[], by simp⟩ none)
      (chain ++ [s.engine.mutation (plainHash 200) (zeros 64) ⟨[], by simp⟩ none], _) :=
    .here chain s _ fun _ => true
  refine ⟨_, .snoc hrun (hnode ▸ hstep), fun i hi => ?_⟩
  set node := plainNode [plainHash 102] 200 with hnodedef
  have hcards' : insert (node.computeHash lastBytes, node.parents) s.engine.arena.cards ⊆
      nodeCards lastBytes lateAccepted := by
    rw [hcards]
    refine Set.insert_subset ⟨node, ?_, rfl, rfl⟩ (nodeCards_mono hsub)
    exact List.mem_append_left _ (List.mem_append_right _ (List.mem_singleton_self _))
  obtain ⟨htop, hhead, hget⟩ := MerkleCrdtEngine.addTop_spec (fun _ => true) hc (hheads ▸ rfl)
    (lateAccepted_acyclic.mono hcards')
  have hkept := @handleAppend_arena lastBytes s (fun _ => true) (plainHash 200) (zeros 64)
    ⟨[], by simp⟩ none _ rfl
  rw [hnode, if_pos (hthreshold.trans_le (Nat.le_add_left _ _))] at hkept
  rw [Bool.eq_false_iff]
  intro hcont
  obtain ⟨l, hl, hlen, r, hr, hlast⟩ := MerkleCrdtEngine.hangs_of_kept
    ((congrArg (fun a => a.contains (plainHash i)) hkept).symm.trans hcont)
  rw [hhead, List.mem_singleton] at hr
  have hchain : (plainHash i :: l).IsChain (Child (nodeCards lastBytes lateAccepted)) := by
    refine hl.imp fun p h hp => child_mono hcards' p h ?_
    obtain ⟨n, hn, hpn⟩ := DagArena.child_iff.mp hp
    rw [hget] at hn
    split at hn
    · obtain rfl := Option.some.inj hn
      exact ⟨node.parents, Or.inl (by simp_all), hpn⟩
    · exact ⟨n.parents, Or.inr ⟨n, hn, rfl⟩, hpn⟩
  -- the top is too many levels above the node
  have hlevel := level_of_chain hchain hlast
  rw [hr, computeHash_plainNode] at hlevel
  have htopLevel : level (plainHash 200) = 103 := if_pos rfl
  have hlen' : l.length ≤ 100 := hlen
  omega

end CrdtActor

end Aimp.Crdt
