import Aimp.Crdt.Proofs.GcProofs
import Aimp.Lib.DepthRoute

/-!
# The depth limit of the history

`compact_history` and `get_vdiff` take their stack from the top. Their walk marks a name when it comes
to it first, so that a name that it first reaches at the limit keeps it from the parents, also where a
shorter way leads there. Unless that can happen, both go exactly as far as the limit
(`compactHistory_exact`, `getVdiff_exact`).
-/

namespace Aimp.Crdt

open DepthWalk

/-- The same node with the parents in another order. -/
def DagNode.Reordered (n n' : DagNode) : Prop :=
  ∃ parents, n.parents.Perm parents ∧ n' = { n with parents := parents }

/-- The parent `p` comes last. -/
def DagNode.lastParent (n : DagNode) (p : Hash32) : DagNode :=
  { n with parents := n.parents.erase p ++ [p] }

theorem DagNode.reordered_lastParent {n : DagNode} {p : Hash32} (hp : p ∈ n.parents) :
    n.Reordered (n.lastParent p) :=
  ⟨_, (List.perm_cons_erase hp).trans (List.perm_append_singleton p _).symm, rfl⟩

theorem DagNode.Reordered.refl (n : DagNode) : n.Reordered n := ⟨n.parents, .refl _, rfl⟩

/-- Every node of a list puts the one before it in the list last. -/
def leadTo : List Hash32 → Hash32 → DagNode → DagNode
  | c :: k :: l, h, n => if h = k then n.lastParent c else leadTo (k :: l) h n
  | _, _, n => n

namespace MerkleCrdtEngine

/-- What the history is walked over. -/
def spec (e : MerkleCrdtEngine) (stop : Hash32 → Bool) : Spec Hash32 DagNode :=
  ⟨e.arena.getByHash, DagNode.parents, stop, dagHistoryDepth⟩

/-- The engines differ in the order of the heads and of the parents of the nodes. -/
structure SameUpToOrder (e e' : MerkleCrdtEngine) : Prop where
  heads : e.heads.Perm e'.heads
  nodes : ∀ h, Option.Rel DagNode.Reordered (e.arena.getByHash h) (e'.arena.getByHash h)

/-- The state of the walk after `k` rounds. -/
def historyRounds (e : MerkleCrdtEngine) (stop : Hash32 → Bool) (k : ℕ) : State Hash32 DagNode :=
  run (e.spec stop) k ⟨(e.heads.map (·, 0)).reverse, [], []⟩

variable {e e' : MerkleCrdtEngine} {stop : Hash32 → Bool}

theorem SameUpToOrder.reordered (h : e.SameUpToOrder e') (stop : Hash32 → Bool) :
    Reordered (e.spec stop) (e'.spec stop) e.heads e'.heads where
  root _ := h.heads.mem_iff
  below p k := by
    have hk := h.nodes k
    unfold Spec.Below spec
    dsimp only
    generalize e.arena.getByHash k = node, e'.arena.getByHash k = node' at hk ⊢
    cases hk with
    | none => rfl
    | @some n n' hn =>
      obtain ⟨parents, hperm, rfl⟩ := hn
      simp only [Option.some.injEq, exists_eq_left']
      exact hperm.mem_iff
  present k := by
    have hk := h.nodes k
    unfold spec
    dsimp only
    generalize e.arena.getByHash k = node, e'.arena.getByHash k = node' at hk ⊢
    cases hk with
    | none => rfl
    | some _ => rfl
  stop := rfl
  limit := rfl

/-! ## An order that takes a route first -/

theorem leadTo_reordered {l : List Hash32} (hl : (e.spec stop).Route e.heads l) {h : Hash32}
    {n : DagNode} (hn : e.arena.getByHash h = some n) : n.Reordered (leadTo l h n) := by
  induction hl with
  | root _ _ => exact .refl n
  | @link c k l _ hbelow _ ih =>
    unfold leadTo
    split
    · rename_i hk
      obtain ⟨m, hm, hc⟩ := hbelow
      have hm : e.arena.getByHash k = some m := hm
      rw [← hk, hn] at hm
      obtain rfl := Option.some.inj hm
      exact DagNode.reordered_lastParent hc
    · exact ih

theorem leading_of_leadTo {u : Hash32} {l : List Hash32} (hl : (e.spec stop).Route e.heads (u :: l))
    (hnodup : (u :: l).Nodup) (hhead : ∃ r, (u :: l).getLast? = some r ∧ e'.heads.getLast? = some r)
    (hnodes : ∀ h ∈ l, e'.arena.getByHash h = (e.arena.getByHash h).map (leadTo (u :: l) h)) :
    Leading (e'.spec stop) e'.heads (u :: l) := by
  induction l generalizing u with
  | nil =>
    cases hl with
    | root hr hstop =>
      obtain ⟨r, hlast, hhead⟩ := hhead
      obtain rfl := Option.some.inj hlast
      exact .root hhead hstop
  | cons k l ih =>
    cases hl with
    | link hl hbelow hstop =>
      obtain ⟨hnew, hnodup⟩ := List.nodup_cons.mp hnodup
      obtain ⟨n, hn, hu⟩ := hbelow
      have hn : e.arena.getByHash k = some n := hn
      have hk := hnodes k (List.mem_cons_self ..)
      rw [hn, Option.map_some, leadTo, if_pos rfl] at hk
      refine .link (ih hl hnodup ?_ fun h hh => ?_) hk ?_ hstop hnew
      · rwa [List.getLast?_cons_cons] at hhead
      · have hne : h ≠ k := fun heq => (List.nodup_cons.mp hnodup).1 (heq ▸ hh)
        rw [hnodes h (List.mem_cons_of_mem k hh)]
        simp only [leadTo, if_neg hne]
      · show (n.parents.erase u ++ [u]).getLast? = some u
        rw [List.getLast?_append_of_ne_nil _ (List.cons_ne_nil _ _)]
        rfl

end MerkleCrdtEngine

/-- The arena with the given nodes. -/
@[irreducible] def arenaOf (nodes : List (Hash32 × DagNode)) : DagArena :=
  nodes.foldl (fun a c => (a.insert c.1 c.2).1) DagArena.new

theorem getByHash_foldl_insert {nodes : List (Hash32 × DagNode)} {a : DagArena}
    (hnodup : (nodes.map Prod.fst).Nodup) (hnew : ∀ c ∈ nodes, a.contains c.1 = false) (h : Hash32)
    {n : DagNode} : (nodes.foldl (fun a c => (a.insert c.1 c.2).1) a).getByHash h = some n ↔
      a.getByHash h = some n ∨ (h, n) ∈ nodes := by
  induction nodes generalizing a with
  | nil => simp
  | cons c nodes ih =>
    obtain ⟨hc, hnew⟩ := List.forall_mem_cons.mp hnew
    rw [List.map_cons, List.nodup_cons] at hnodup
    have hinsert := DagArena.getByHash_insert (n := c.2) hc
    rw [List.foldl_cons, ih hnodup.2 fun c' hc' => ?_, hinsert, List.mem_cons]
    · by_cases hh : h = c.1
      · subst hh
        have hnone : a.getByHash c.1 = none := by
          cases hg : a.getByHash c.1 with
          | none => rfl
          | some m =>
            rw [DagArena.contains_iff.mpr ⟨m, hg⟩] at hc
            cases hc
        have hnot : (c.1, n) ∉ nodes := fun hmem =>
          hnodup.1 (List.mem_map.mpr ⟨_, hmem, rfl⟩)
        simp only [if_true, hnone, hnot, or_false, Option.some.injEq, reduceCtorEq, false_or]
        exact ⟨fun heq => Prod.ext rfl heq.symm, fun heq => (congrArg Prod.snd heq).symm⟩
      · rw [if_neg hh]
        have hne : (h, n) ≠ c := fun heq => hh (congrArg Prod.fst heq)
        simp only [hne, false_or]
    · rw [← Bool.not_eq_true, DagArena.contains_insert, hnew c' hc']
      have hne : c'.1 ≠ c.1 := fun heq => hnodup.1 (heq ▸ List.mem_map.mpr ⟨c', hc', rfl⟩)
      simp [hne]

theorem getByHash_arenaOf {nodes : List (Hash32 × DagNode)} (hnodup : (nodes.map Prod.fst).Nodup)
    {h : Hash32} {n : DagNode} : (arenaOf nodes).getByHash h = some n ↔ (h, n) ∈ nodes := by
  unfold arenaOf
  refine (getByHash_foldl_insert hnodup (fun _ _ => rfl) h).trans ?_
  rw [DagArena.getByHash_new]
  simp

namespace MerkleCrdtEngine

variable {e e' : MerkleCrdtEngine} {stop : Hash32 → Bool}

/-- Some order of the heads and of the parents lets the walk take a route first. -/
theorem exists_leading {u : Hash32} {l : List Hash32} (hl : (e.spec stop).Route e.heads (u :: l))
    (hnodup : (u :: l).Nodup) :
    ∃ e', e.SameUpToOrder e' ∧ Leading (e'.spec stop) e'.heads (u :: l) := by
  obtain ⟨r, hr, hlast⟩ := hl.exists_root
  have hkeys : ((e.arena.getAllIter.map fun c => (c.1, leadTo (u :: l) c.1 c.2)).map
      Prod.fst).Nodup := by
    rw [List.map_map]
    exact e.arena.nodup_keys_getAllIter
  have hget : ∀ h, (arenaOf (e.arena.getAllIter.map fun c => (c.1, leadTo (u :: l) c.1 c.2))).getByHash
      h = (e.arena.getByHash h).map (leadTo (u :: l) h) := by
    intro h
    ext n
    rw [getByHash_arenaOf hkeys, Option.map_eq_some_iff]
    simp only [List.mem_map, Prod.mk.injEq, Prod.exists, DagArena.mem_getAllIter]
    constructor
    · rintro ⟨h, m, hm, rfl, rfl⟩
      exact ⟨m, hm, rfl⟩
    · rintro ⟨m, hm, rfl⟩
      exact ⟨h, m, hm, rfl, rfl⟩
  refine ⟨{ e with
    heads := e.heads.erase r ++ [r]
    arena := arenaOf (e.arena.getAllIter.map fun c => (c.1, leadTo (u :: l) c.1 c.2)) }, ⟨?_, ?_⟩, ?_⟩
  · exact (List.perm_cons_erase hr).trans (List.perm_append_singleton r _).symm
  · intro h
    dsimp only
    rw [hget]
    cases hn : e.arena.getByHash h with
    | none => exact .none
    | some n => exact .some (leadTo_reordered hl hn)
  · refine leading_of_leadTo hl hnodup ⟨r, hlast, ?_⟩ fun h _ => hget h
    rw [List.getLast?_append_of_ne_nil _ (List.cons_ne_nil _ _)]
    rfl

/-- The limit can cut a node off exactly if it does so in some order of the heads and of the parents. -/
theorem cuts_iff : (e.spec stop).Cuts e.heads ↔
    ∃ e' k u q, e.SameUpToOrder e' ∧
      CutsOff (e'.spec stop) e'.heads (e'.historyRounds stop k) u q := by
  constructor
  · rintro ⟨u, l, q, hl, hnodup, hlen, hnear, hbelow, hstop, hn, hroot, habove⟩
    obtain ⟨e', hsame, hlead⟩ := exists_leading hl hnodup
    have horder := hsame.reordered stop
    obtain ⟨d, hd, hnear⟩ := hnear
    refine ⟨e', dagHistoryDepth, u, q, hsame, cutsOff_of_leading hlead hlen
      ⟨d, hd, horder.within.mp hnear⟩ ((horder.below _ _).mp hbelow) hstop ?_ ?_ ?_⟩
    · rwa [← horder.present]
    · exact fun hr => hroot ((horder.root q).mpr hr)
    · exact fun k hk hb => habove k hk ((horder.below _ _).mpr hb)
  · rintro ⟨e', k, u, q, hsame, hcut⟩
    exact (hsame.reordered stop).symm.cuts ((traced_run (e'.spec stop) e'.heads k).cuts hcut)

/-- Otherwise the walk visits what is within the limit, in every order. -/
theorem mem_history_iff (hcuts : ¬ (e.spec stop).Cuts e.heads) (hsame : e.SameUpToOrder e')
    {h : Hash32} (hh : e'.arena.contains h = true) :
    h ∈ (e'.history stop).visited ↔ (e.spec stop).Within e.heads dagHistoryDepth h := by
  have horder := hsame.reordered stop
  obtain ⟨n, hn⟩ := DagArena.contains_iff.mp hh
  have hcuts' : ¬ (e'.spec stop).Cuts e'.heads := fun hc => hcuts (horder.symm.cuts hc)
  refine (mem_walk_visited_iff (w := e'.spec stop) (e'.history_queue stop) hcuts' ?_).trans
    horder.within.symm
  show (e'.arena.getByHash h).isSome
  rw [hn]
  rfl

/-- Only `u` lists `q` as a parent, among the nodes nearer than the limit. -/
def OnlyNearChild (e : MerkleCrdtEngine) (stop : Hash32 → Bool) (q u : Hash32) : Prop :=
  ∀ c d, d < dagHistoryDepth → (e.spec stop).Within e.heads d c → (e.spec stop).Below q c → c = u

/-- A node that is cut off from its only child nearer than the limit is never visited. -/
theorem not_mem_history_of_cutsOff (hsame : e.SameUpToOrder e') {k : ℕ} {u q : Hash32}
    (hcut : CutsOff (e'.spec stop) e'.heads (e'.historyRounds stop k) u q)
    (honly : e.OnlyNearChild stop q u) :
    (e.spec stop).Within e.heads dagHistoryDepth q ∧ q ∉ (e'.history stop).visited := by
  have horder := hsame.reordered stop
  have hlost := hcut.not_mem_walk (fun c d hd hc hb =>
    honly c d hd (horder.within.mpr hc) ((horder.below q c).mpr hb)) (e'.history_queue stop)
  obtain ⟨-, -, -, -, ⟨d, hd, l, hl, hlen⟩, hbelow, hstop, -⟩ := hcut
  have hd : d < dagHistoryDepth := hd
  refine ⟨⟨u :: l, .link (horder.symm.route hl) ((horder.below _ _).mpr hbelow) hstop, ?_⟩, hlost⟩
  rw [List.length_cons]
  omega

end MerkleCrdtEngine

/-! ## A fork at the end of a chain -/

section Fork

open CrdtActor MerkleCrdtEngine

/-- A chain of 102 nodes, and a node on top of the second one of the chain. -/
def forkNodes : List (Hash32 × DagNode) :=
  ((List.range' 1 102).map fun i => (plainHash (Fin.ofNat 256 i), chainNode (Fin.ofNat 256 i))) ++
    [(plainHash 200, plainNode [plainHash 2] 200)]

/-- An engine with these nodes, that iterates over its two heads in the given order. -/
def forkEngine (heads : List Hash32) : MerkleCrdtEngine :=
  { withGcThreshold none 1 with
    arena := arenaOf forkNodes
    heads := heads
    headsSoa := heads }

theorem plainHash_ofNat_inj {i j : ℕ} (hi : i < 256) (hj : j < 256)
    (h : plainHash (Fin.ofNat 256 i) = plainHash (Fin.ofNat 256 j)) : i = j := by
  have hval := congrArg Fin.val (plainHash_inj h)
  simpa [Fin.ofNat, Nat.mod_eq_of_lt hi, Nat.mod_eq_of_lt hj] using hval

theorem forkNodes_keys_nodup : (forkNodes.map Prod.fst).Nodup := by
  have hkeys : forkNodes.map Prod.fst =
      (List.range' 1 102 ++ [200]).map fun i => plainHash (Fin.ofNat 256 i) := by
    unfold forkNodes
    rw [List.map_append, List.map_append, List.map_map]
    rfl
  have hlt : ∀ i ∈ List.range' 1 102 ++ [200], i < 256 := by decide
  have hnodup : (List.range' 1 102 ++ [200]).Nodup :=
    (List.nodup_range' ..).append (List.nodup_singleton 200) (by simp)
  rw [hkeys]
  exact hnodup.map_on fun i hi j hj h => plainHash_ofNat_inj (hlt i hi) (hlt j hj) h

variable {heads : List Hash32}

theorem getByHash_forkEngine {h : Hash32} {n : DagNode} :
    (forkEngine heads).arena.getByHash h = some n ↔ (h, n) ∈ forkNodes :=
  getByHash_arenaOf forkNodes_keys_nodup

theorem getByHash_chain {i : ℕ} (hi : 1 ≤ i) (hi' : i ≤ 102) :
    (forkEngine heads).arena.getByHash (plainHash (Fin.ofNat 256 i)) =
      some (chainNode (Fin.ofNat 256 i)) :=
  getByHash_forkEngine.mpr (List.mem_append_left _
    (List.mem_map.mpr ⟨i, List.mem_range'_1.mpr ⟨hi, by omega⟩, rfl⟩))

theorem parents_chainNode {i : ℕ} (hi : 2 ≤ i) (hi' : i ≤ 102) :
    (chainNode (Fin.ofNat 256 i)).parents = [plainHash (Fin.ofNat 256 (i - 1))] := by
  have hval : ∀ {j : ℕ}, j < 256 → (Fin.ofNat 256 j).val = j := fun hj => Nat.mod_eq_of_lt hj
  have hone : ((1 : Byte) : ℕ) = 1 := rfl
  have hgt : ¬ Fin.ofNat 256 i ≤ 1 := by
    rw [Fin.le_def, hval (by omega)]
    omega
  have hsub : Fin.ofNat 256 i - 1 = Fin.ofNat 256 (i - 1) := by
    refine Fin.ext ?_
    rw [Fin.sub_val_of_le (not_le.mp hgt).le, hval (by omega), hval (by omega), hone]
  unfold chainNode plainNode
  rw [if_neg hgt, hsub]

/-- The name of a node is its data hash here. -/
theorem name_of_forkNodes {h : Hash32} {n : DagNode} (hn : (h, n) ∈ forkNodes) : h = n.dataHash := by
  rcases List.mem_append.mp hn with hn | hn
  · obtain ⟨i, -, heq⟩ := List.mem_map.mp hn
    rw [← (Prod.mk.inj heq).1, ← (Prod.mk.inj heq).2]
    rfl
  · obtain ⟨rfl, rfl⟩ := Prod.mk.inj (List.mem_singleton.mp hn)
    rfl

theorem sameUpToOrder_forkEngine {heads' : List Hash32} (h : heads.Perm heads') :
    (forkEngine heads).SameUpToOrder (forkEngine heads') where
  heads := h
  nodes k := by
    show Option.Rel DagNode.Reordered ((arenaOf forkNodes).getByHash k)
      ((arenaOf forkNodes).getByHash k)
    cases (arenaOf forkNodes).getByHash k with
    | none => exact .none
    | some n => exact .some (.refl n)

variable {stop : Hash32 → Bool} (hstop : ∀ h, stop h = false)
include hstop

/-- If the end of the chain comes first, then the walk goes along the chain. -/
theorem leading_chain (hlast : heads.getLast? = some (plainHash 102)) (i : ℕ) (hi : i ≤ 100) :
    Leading ((forkEngine heads).spec stop) heads
      ((List.range' (102 - i) (i + 1)).map fun k => plainHash (Fin.ofNat 256 k)) := by
  induction i with
  | zero => exact .root hlast (hstop _)
  | succ i ih =>
    have hsucc : List.range' (102 - (i + 1)) (i + 1 + 1) =
        (101 - i) :: List.range' (102 - i) (i + 1) := by
      rw [List.range'_succ, show 102 - (i + 1) + 1 = 102 - i by omega,
        show 102 - (i + 1) = 101 - i by omega]
    have hcons : List.range' (102 - i) (i + 1) = (102 - i) :: List.range' (102 - i + 1) i :=
      List.range'_succ ..
    have hnew : plainHash (Fin.ofNat 256 (101 - i)) ∉
        (List.range' (102 - i) (i + 1)).map fun k => plainHash (Fin.ofNat 256 k) := by
      intro hmem
      obtain ⟨k, hk, heq⟩ := List.mem_map.mp hmem
      obtain ⟨hle, hlt⟩ := List.mem_range'_1.mp hk
      have := plainHash_ofNat_inj (by omega) (by omega) heq
      omega
    have hlink : (((forkEngine heads).spec stop).links (chainNode (Fin.ofNat 256 (102 - i)))).getLast? =
        some (plainHash (Fin.ofNat 256 (101 - i))) := by
      have hparents := parents_chainNode (i := 102 - i) (by omega) (by omega)
      rw [show 102 - i - 1 = 101 - i by omega] at hparents
      exact congrArg List.getLast? hparents
    have hih := ih (by omega)
    rw [hsucc, List.map_cons]
    rw [hcons, List.map_cons] at hih hnew ⊢
    exact .link hih (getByHash_chain (by omega) (by omega)) hlink (hstop _) hnew

omit hstop in
/-- Only the second node of the chain lists the first one as a parent. -/
theorem below_first {c : Hash32}
    (hbelow : ((forkEngine heads).spec stop).Below (plainHash 1) c) : c = plainHash 2 := by
  obtain ⟨n, hn, hp⟩ := hbelow
  rcases List.mem_append.mp (getByHash_forkEngine.mp hn) with hmem | hmem
  · obtain ⟨i, hi, heq⟩ := List.mem_map.mp hmem
    obtain ⟨hlow, hhigh⟩ := List.mem_range'_1.mp hi
    obtain ⟨rfl, rfl⟩ := Prod.mk.inj heq
    rcases Nat.lt_or_ge i 2 with hone | htwo
    · obtain rfl : i = 1 := by omega
      have hp : plainHash 1 ∈ (chainNode 1).parents := hp
      exact absurd hp (by decide)
    · have hp : plainHash 1 ∈ (chainNode (Fin.ofNat 256 i)).parents := hp
      rw [parents_chainNode htwo (by omega), List.mem_singleton] at hp
      have hone := plainHash_ofNat_inj (i := 1) (j := i - 1) (by omega) (by omega) hp
      obtain rfl : i = 2 := by omega
      rfl
  · obtain ⟨rfl, rfl⟩ := Prod.mk.inj (List.mem_singleton.mp hmem)
    have hp : plainHash 1 ∈ [plainHash 2] := hp
    exact absurd hp (by decide)

/-- The way down from the top node. -/
theorem leading_fork (hlast : heads.getLast? = some (plainHash 200)) :
    Leading ((forkEngine heads).spec stop) heads [plainHash 1, plainHash 2, plainHash 200] := by
  have htop : ((forkEngine heads).spec stop).node (plainHash 200) =
      some (plainNode [plainHash 2] 200) :=
    getByHash_forkEngine.mpr (List.mem_append_right _ (List.mem_singleton_self _))
  have hsecond : ((forkEngine heads).spec stop).node (plainHash 2) = some (chainNode 2) :=
    getByHash_chain (i := 2) (by omega) (by omega)
  refine .link (.link (.root hlast (hstop _)) htop ?_ (hstop _) (by decide)) hsecond ?_ (hstop _)
    (by decide)
  · rfl
  · rfl

theorem first_within (hlast : heads.getLast? = some (plainHash 200)) :
    ((forkEngine heads).spec stop).Within heads dagHistoryDepth (plainHash 1) :=
  ⟨_, (leading_fork hstop hlast).route, by decide⟩

omit hstop in
theorem contains_first : (forkEngine heads).arena.contains (plainHash 1) = true :=
  DagArena.contains_iff.mpr ⟨_, getByHash_chain (i := 1) le_rfl (by omega)⟩

/-- From the top node the walk reaches the start of the chain. -/
theorem first_visited (hlast : heads.getLast? = some (plainHash 200)) :
    plainHash 1 ∈ ((forkEngine heads).history stop).visited :=
  mem_walk_of_leading (leading_fork hstop hlast) (show 2 ≤ dagHistoryDepth by decide)
    ((forkEngine heads).history_queue stop)

/-- Along the chain it comes to the second node at the limit, and keeps itself from the first one. -/
theorem first_not_visited :
    plainHash 1 ∉ ((forkEngine [plainHash 200, plainHash 102]).history stop).visited := by
  have hlead := @leading_chain [plainHash 200, plainHash 102] stop hstop rfl 100 le_rfl
  have hcons : (List.range' (102 - 100) (100 + 1)).map (fun k => plainHash (Fin.ofNat 256 k)) =
      plainHash 2 :: (List.range' 3 100).map fun k => plainHash (Fin.ofNat 256 k) := rfl
  rw [hcons] at hlead
  have hnear : ((forkEngine [plainHash 200, plainHash 102]).spec stop).Within
      [plainHash 200, plainHash 102] 1 (plainHash 2) := by
    refine ⟨[plainHash 200], .link (.root (by decide) (hstop _)) ⟨plainNode [plainHash 2] 200, ?_, ?_⟩
      (hstop _), le_rfl⟩
    · exact getByHash_forkEngine.mpr (List.mem_append_right _ (List.mem_singleton_self _))
    · exact List.mem_singleton_self _
  have hbelow : ((forkEngine [plainHash 200, plainHash 102]).spec stop).Below (plainHash 1)
      (plainHash 2) :=
    ⟨chainNode 2, getByHash_chain (i := 2) (by omega) (by omega), List.mem_singleton_self _⟩
  have hpresent : (((forkEngine [plainHash 200, plainHash 102]).spec stop).node
      (plainHash 1)).isSome := by
    exact Option.isSome_iff_exists.mpr ⟨chainNode 1, getByHash_chain (i := 1) le_rfl (by omega)⟩
  refine (not_mem_history_of_cutsOff (sameUpToOrder_forkEngine (.refl _)) (k := 100)
    (cutsOff_of_leading hlead ?_ ⟨1, (by decide : 1 < dagHistoryDepth), hnear⟩ hbelow (hstop _)
      hpresent (by decide) ?_) fun c _ _ _ hc => below_first hc).2
  · rw [List.length_map, List.length_range']
    rfl
  · intro k hk hb
    obtain rfl := below_first hb
    obtain ⟨i, hi, heq⟩ := List.mem_map.mp hk
    obtain ⟨hlow, hhigh⟩ := List.mem_range'_1.mp hi
    have := plainHash_ofNat_inj (j := 2) (by omega) (by omega) heq
    omega

end Fork

namespace MerkleCrdtEngine

open CrdtActor

/-! ## Garbage collection -/

/-- Unless the limit can cut a node off, `compact_history` keeps exactly the nodes of the arena within
`DAG_HISTORY_DEPTH` links of a head, in whatever order the heads and the parents are iterated over. If
the limit can cut a node off, then it does so in some order; and a node that is cut off from its only
child nearer than the limit is pruned although it is within the limit. -/
theorem compactHistory_exact (e : MerkleCrdtEngine) :
    (¬ (e.spec fun _ => false).Cuts e.heads → ∀ e', e.SameUpToOrder e' → ∀ h n,
      e'.compactHistory.arena.getByHash h = some n ↔
        e'.arena.getByHash h = some n ∧
          (e.spec fun _ => false).Within e.heads dagHistoryDepth h) ∧
    ((e.spec fun _ => false).Cuts e.heads ↔ ∃ e' k u q, e.SameUpToOrder e' ∧
      CutsOff (e'.spec fun _ => false) e'.heads (e'.historyRounds (fun _ => false) k) u q) ∧
    ∀ e' k u q, e.SameUpToOrder e' →
      CutsOff (e'.spec fun _ => false) e'.heads (e'.historyRounds (fun _ => false) k) u q →
      e.OnlyNearChild (fun _ => false) q u →
      e'.arena.contains q = true ∧ (e.spec fun _ => false).Within e.heads dagHistoryDepth q ∧
        e'.compactHistory.arena.contains q = false := by
  refine ⟨fun hcuts e' hsame h n => ?_, cuts_iff, fun e' k u q hsame hcut honly => ?_⟩
  · rw [getByHash_compactHistory_eq_some, and_comm]
    exact and_congr_right fun hn => mem_history_iff hcuts hsame (DagArena.contains_iff.mpr ⟨n, hn⟩)
  · obtain ⟨hwithin, hlost⟩ := not_mem_history_of_cutsOff hsame hcut honly
    obtain ⟨-, -, -, -, -, -, -, hn, -⟩ := hcut
    obtain ⟨n, hn⟩ := Option.isSome_iff_exists.mp hn
    refine ⟨DagArena.contains_iff.mpr ⟨n, hn⟩, hwithin, ?_⟩
    rw [Bool.eq_false_iff]
    intro hc
    obtain ⟨n, hn⟩ := DagArena.contains_iff.mp hc
    exact hlost (getByHash_compactHistory_eq_some.mp hn).1

/-- The start of the chain is two links below the head on top of it. Whether it is kept depends on the
order in which the heads are iterated over. -/
theorem compactHistory_depends_on_order :
    (forkEngine [plainHash 102, plainHash 200]).SameUpToOrder
        (forkEngine [plainHash 200, plainHash 102]) ∧
      (forkEngine [plainHash 102, plainHash 200]).arena.contains (plainHash 1) = true ∧
      ((forkEngine [plainHash 102, plainHash 200]).spec fun _ => false).Within
        [plainHash 102, plainHash 200] dagHistoryDepth (plainHash 1) ∧
      (forkEngine [plainHash 102, plainHash 200]).compactHistory.arena.contains
        (plainHash 1) = true ∧
      (forkEngine [plainHash 200, plainHash 102]).compactHistory.arena.contains
        (plainHash 1) = false := by
  have hget : ∀ heads, (forkEngine heads).arena.getByHash (plainHash 1) = some (chainNode 1) :=
    fun _ => getByHash_chain (i := 1) le_rfl (by omega)
  refine ⟨sameUpToOrder_forkEngine (.swap ..), contains_first, first_within (fun _ => rfl) rfl, ?_, ?_⟩
  · exact DagArena.contains_iff.mpr ⟨chainNode 1,
      getByHash_compactHistory_eq_some.mpr ⟨first_visited (fun _ => rfl) rfl, hget _⟩⟩
  · rw [Bool.eq_false_iff]
    intro hc
    obtain ⟨n, hn⟩ := DagArena.contains_iff.mp hc
    exact absurd (getByHash_compactHistory_eq_some.mp hn).1 (first_not_visited fun _ => rfl)

/-! ## The delta -/

/-- Unless the limit can cut a node off, `get_vdiff` returns exactly the nodes of the arena that hang
from a head by at most `DAG_HISTORY_DEPTH` links and no remote head, each of them once, in whatever
order the heads and the parents are iterated over. If the limit can cut a node off, then it does so in
some order; and a node that is cut off from its only child nearer than the limit is missing. -/
theorem getVdiff_exact (e : MerkleCrdtEngine) (remoteHeads : List Hash32) :
    (¬ (e.spec fun h => h ∈ remoteHeads).Cuts e.heads → ∀ e', e.SameUpToOrder e' →
      ∃ names : List Hash32, names.Nodup ∧
        e'.getVdiff remoteHeads = names.filterMap e'.arena.getByHash ∧
        ∀ h, h ∈ names ↔ e'.arena.contains h = true ∧
          (e.spec fun h => h ∈ remoteHeads).Within e.heads dagHistoryDepth h) ∧
    ((e.spec fun h => h ∈ remoteHeads).Cuts e.heads ↔ ∃ e' k u q, e.SameUpToOrder e' ∧
      CutsOff (e'.spec fun h => h ∈ remoteHeads) e'.heads
        (e'.historyRounds (fun h => h ∈ remoteHeads) k) u q) ∧
    ∀ e' k u q n, e.SameUpToOrder e' →
      CutsOff (e'.spec fun h => h ∈ remoteHeads) e'.heads
        (e'.historyRounds (fun h => h ∈ remoteHeads) k) u q →
      e.OnlyNearChild (fun h => h ∈ remoteHeads) q u →
      e'.arena.getByHash q = some n → (∀ h, e'.arena.getByHash h = some n → h = q) →
      (e.spec fun h => h ∈ remoteHeads).Within e.heads dagHistoryDepth q ∧
        n ∉ e'.getVdiff remoteHeads := by
  refine ⟨fun hcuts e' hsame => ?_, cuts_iff, fun e' k u q n hsame hcut honly hn hunique => ?_⟩
  · obtain ⟨hnodup, hfound⟩ := @walk_once _ _ _ (e'.spec fun h => h ∈ remoteHeads)
      (fuelFor (e'.spec fun h => h ∈ remoteHeads) e'.heads e'.arena.getAllIter) e'.heads
    refine ⟨(e'.history fun h => h ∈ remoteHeads).visited.reverse.filter e'.arena.contains,
      (List.nodup_reverse.mpr hnodup).filter _, ?_, fun h => ?_⟩
    · refine hfound.trans ?_
      rw [List.filterMap_filter]
      refine List.filterMap_congr fun h _ => ?_
      cases hc : e'.arena.contains h with
      | true => rfl
      | false =>
        rw [Bool.eq_false_iff] at hc
        refine Option.eq_none_iff_forall_not_mem.mpr fun n hn => ?_
        exact hc (DagArena.contains_iff.mpr ⟨n, hn⟩)
    · rw [List.mem_filter, List.mem_reverse, and_comm]
      exact and_congr_right fun hc => mem_history_iff hcuts hsame hc
  · obtain ⟨hwithin, hlost⟩ := not_mem_history_of_cutsOff hsame hcut honly
    refine ⟨hwithin, fun hmem => ?_⟩
    obtain ⟨h, hv, hh⟩ := mem_getVdiff_iff.mp hmem
    exact hlost (hunique h hh ▸ hv)

/-- Whether the start of the chain is sent to a peer without any heads depends on the order as well. -/
theorem getVdiff_depends_on_order :
    (forkEngine [plainHash 102, plainHash 200]).SameUpToOrder
        (forkEngine [plainHash 200, plainHash 102]) ∧
      (forkEngine [plainHash 102, plainHash 200]).arena.getByHash (plainHash 1) =
        some (chainNode 1) ∧
      ((forkEngine [plainHash 102, plainHash 200]).spec fun h => h ∈ ([] : List Hash32)).Within
        [plainHash 102, plainHash 200] dagHistoryDepth (plainHash 1) ∧
      chainNode 1 ∈ (forkEngine [plainHash 102, plainHash 200]).getVdiff [] ∧
      chainNode 1 ∉ (forkEngine [plainHash 200, plainHash 102]).getVdiff [] := by
  have hget : ∀ heads, (forkEngine heads).arena.getByHash (plainHash 1) = some (chainNode 1) :=
    fun _ => getByHash_chain (i := 1) le_rfl (by omega)
  refine ⟨sameUpToOrder_forkEngine (.swap ..), hget _, first_within (fun _ => rfl) rfl, ?_,
    fun hmem => ?_⟩
  · exact mem_getVdiff_iff.mpr ⟨plainHash 1, first_visited (fun _ => rfl) rfl, hget _⟩
  · obtain ⟨h, hv, hh⟩ := mem_getVdiff_iff.mp hmem
    obtain rfl : h = plainHash 1 := name_of_forkNodes (getByHash_forkEngine.mp hh)
    exact absurd hv (first_not_visited fun _ => rfl)

end MerkleCrdtEngine

end Aimp.Crdt
