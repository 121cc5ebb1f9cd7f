import Aimp.Crdt.Proofs.ConvergenceProofs
import Aimp.Crdt.Proofs.CoverProofs
import Mathlib.Data.List.Chain

/-!
# Anti-entropy

One replica sends another one what `get_vdiff` finds below its own heads and above the other's. If the
arenas contain the parents of their nodes, what is found completes the other arena: stopping at a remote
head hides only ancestors of that head, and these the other replica has. After an exchange in both
directions the replicas agree (`anti_entropy`).
-/

namespace Aimp.Crdt

open Frontier Relation

variable {blake3 : List Byte → Hash32} {a b u : DagArena}

namespace DagArena

/-- The arena contains every parent of every node in it. -/
def ParentClosed (a : DagArena) : Prop :=
  ∀ h n, a.getByHash h = some n → ∀ p ∈ n.parents, a.contains p = true

/-- No chain of parents has more links than a walk is deep. -/
def Shallow (a : DagArena) : Prop :=
  ∀ l : List Hash32, l.IsChain (Child a.cards) → l.length ≤ dagHistoryDepth + 1

/-- What is in both arenas under the same hash is the same node. -/
def Agree (a b : DagArena) : Prop :=
  ∀ h m n, a.getByHash h = some m → b.getByHash h = some n → m = n

/-- The arena `u` holds the nodes of `a` and `b`. -/
def IsUnion (u a b : DagArena) : Prop :=
  ∀ h n, u.getByHash h = some n ↔ a.getByHash h = some n ∨ b.getByHash h = some n

theorem Shallow.acyclic (h : a.Shallow) : Acyclic a.cards := acyclic_of_bounded h

theorem Agree.symm (h : a.Agree b) : b.Agree a := fun k m n hm hn => (h k n m hn hm).symm

theorem Holds.agree {D D' : List DagNode} (ha : a.Holds blake3 D) (hb : b.Holds blake3 D')
    (hcf : CollisionFree blake3 (D ++ D')) : a.Agree b := by
  intro h m n hm hn
  obtain ⟨hmD, hmh⟩ := ha h m hm
  obtain ⟨hnD, hnh⟩ := hb h n hn
  exact hcf m (List.mem_append_left _ hmD) n (List.mem_append_right _ hnD) (hmh.trans hnh.symm)

/-! ## The union of two arenas -/

theorem IsUnion.left (h : u.IsUnion a b) : a.Sub u := fun k n hn => (h k n).mpr (Or.inl hn)

theorem IsUnion.right (h : u.IsUnion a b) : b.Sub u := fun k n hn => (h k n).mpr (Or.inr hn)

theorem IsUnion.symm (h : u.IsUnion a b) : u.IsUnion b a := fun k n => (h k n).trans or_comm

theorem Sub.contains (h : a.Sub b) {k : Hash32} (hk : a.contains k = true) : b.contains k = true := by
  obtain ⟨n, hn⟩ := contains_iff.mp hk
  exact contains_iff.mpr ⟨n, h k n hn⟩

/-- A chain that ends in an arena with all parents stays there. -/
theorem chain_of_last (hsub : a.Sub u) (hclosed : a.ParentClosed) {l : List Hash32} {t : Hash32}
    (hl : (l ++ [t]).IsChain (Child u.cards)) (ht : a.contains t = true) :
    (l ++ [t]).IsChain (Child a.cards) ∧ ∀ x ∈ l ++ [t], a.contains x = true := by
  induction l with
  | nil => exact ⟨.singleton _, fun x hx => List.mem_singleton.mp hx ▸ ht⟩
  | cons x l ih =>
    obtain ⟨y, rest, hy⟩ : ∃ y rest, l ++ [t] = y :: rest :=
      List.exists_cons_of_ne_nil (by simp)
    rw [List.cons_append, hy] at hl ⊢
    obtain ⟨hxy, hl⟩ := List.isChain_cons_cons.mp hl
    rw [← hy] at hl
    obtain ⟨hchain, hall⟩ := ih hl
    rw [hy] at hchain hall
    obtain ⟨n, hn, hx⟩ := child_iff.mp hxy
    obtain ⟨m, hm⟩ := contains_iff.mp (hall y (List.mem_cons_self ..))
    obtain rfl : m = n := Option.some.inj ((hsub y m hm).symm.trans hn)
    refine ⟨List.isChain_cons_cons.mpr ⟨child_iff.mpr ⟨m, hm, hx⟩, hchain⟩, fun z hz => ?_⟩
    rcases List.mem_cons.mp hz with rfl | hz
    · exact hclosed y m hm z hx
    · exact hall z hz

theorem IsUnion.shallow (h : u.IsUnion a b) (ha : a.ParentClosed) (hb : b.ParentClosed)
    (hsa : a.Shallow) (hsb : b.Shallow) : u.Shallow := by
  intro l hl
  rcases List.eq_nil_or_concat l with rfl | ⟨l', t, rfl⟩
  · exact Nat.zero_le _
  · rw [List.concat_eq_append] at hl ⊢
    rcases List.eq_nil_or_concat l' with rfl | ⟨l'', s, rfl⟩
    · exact Nat.succ_le_succ (Nat.zero_le _)
    · -- the last link of the chain is one of a node of `a` or of `b`
      rw [List.concat_eq_append] at hl ⊢
      have hst : Child u.cards s t := by
        rw [List.append_assoc] at hl
        exact (List.isChain_append_cons_cons.mp hl).2.1
      obtain ⟨n, hn, -⟩ := child_iff.mp hst
      rcases (h t n).mp hn with hn | hn
      · exact hsa _ (chain_of_last h.left ha hl (contains_iff.mpr ⟨n, hn⟩)).1
      · exact hsb _ (chain_of_last h.right hb hl (contains_iff.mpr ⟨n, hn⟩)).1

end DagArena

/-! ## What is found -/

namespace MerkleCrdtEngine

variable {e : MerkleCrdtEngine} {remote : List Hash32} {D : List DagNode}

/-- What is found is in the arena. -/
theorem mem_getVdiff {n : DagNode} (h : n ∈ e.getVdiff remote) :
    ∃ k, e.arena.getByHash k = some n := by
  obtain ⟨k, -, hk⟩ := mem_getVdiff_iff.mp h
  exact ⟨k, hk⟩

/-- Every node is visited, unless `Q` hides it: a predicate that holds where the walk stops and is passed
on to the parents. -/
theorem history_complete (hc : e.Coherent blake3) (hs : e.arena.Shallow) (stop : Hash32 → Bool)
    {Q : Hash32 → Prop} (hstop : ∀ h, stop h = true → Q h)
    (hdown : ∀ p k, Child e.arena.cards p k → Q k → Q p) {h : Hash32} {n : DagNode}
    (hn : e.arena.getByHash h = some n) : h ∈ (e.history stop).visited ∨ Q h := by
  obtain ⟨f, hf, hpath⟩ := exists_frontier_above hs.acyclic e.arena.finite_names
    ⟨n.parents, n, hn, rfl⟩
  clear hn
  induction hpath using ReflTransGen.head_induction_on with
  | refl =>
    cases hstopf : stop f with
    | true => exact Or.inr (hstop f hstopf)
    | false =>
      exact Or.inl (DepthWalk.walk_roots (e.history_queue stop) ((hc.mem_heads f).mpr hf) hstopf)
  | @head p k hpk _ ih =>
    rcases ih with hk | hk
    · cases hstopp : stop p with
      | true => exact Or.inr (hstop p hstopp)
      | false =>
        refine Or.inl (DepthWalk.walk_links (e.history_queue stop) (fun l hl => hs l ?_) hk
          (DagArena.child_iff.mp hpk) hstopp)
        exact hl.imp fun _ _ => DagArena.child_iff.mpr
    · exact Or.inr (hdown p k hpk hk)

/-- Every node is found, or is in the remote arena, which has the remote heads and their ancestors. -/
theorem getVdiff_complete (hc : e.Coherent blake3) (hs : e.arena.Shallow) (hagree : e.arena.Agree b)
    (hb : b.ParentClosed) (hremote : ∀ h ∈ remote, b.contains h = true) {h : Hash32} {n : DagNode}
    (hn : e.arena.getByHash h = some n) : n ∈ e.getVdiff remote ∨ b.contains h = true := by
  have hreach := history_complete hc hs (fun h => h ∈ remote)
    (Q := fun h => b.contains h = true) (fun h hh => hremote h (of_decide_eq_true hh)) ?_ hn
  · exact hreach.imp_left fun hv => mem_getVdiff_iff.mpr ⟨h, hv, hn⟩
  · intro p k hpk hk
    obtain ⟨m, hm, hp⟩ := DagArena.child_iff.mp hpk
    obtain ⟨m', hm'⟩ := DagArena.contains_iff.mp hk
    exact hb k m' hm' p (hagree k m m' hm hm' ▸ hp)

/-- A replica that merges what is found for it has the nodes of both. -/
theorem isUnion_of_delivered (hc : e.Coherent blake3) (hs : e.arena.Shallow)
    (hD : e.arena.Holds blake3 D) {D' : List DagNode} (hD' : b.Holds blake3 D')
    (hcf : CollisionFree blake3 (D ++ D')) (hb : b.ParentClosed)
    (hremote : ∀ h ∈ remote, b.contains h = true)
    (hdel : b.Delivered blake3 (e.getVdiff remote) u) : u.IsUnion e.arena b := by
  have hagree := hD.agree hD' hcf
  intro h n
  constructor
  · intro hn
    rcases hdel.origin h n hn with hn | ⟨hn, hh⟩
    · exact Or.inr hn
    · obtain ⟨k, hk⟩ := mem_getVdiff hn
      have hkh := (hD k n hk).2
      rw [← hh, hkh]
      exact Or.inl hk
  · rintro (hn | hn)
    · rcases getVdiff_complete hc hs hagree hb hremote hn with hfound | hb
      · obtain ⟨m, hm⟩ := DagArena.contains_iff.mp (hdel.present n hfound)
        rw [(hD h n hn).2] at hm
        -- the node under its hash is this one
        rcases hdel.origin h m hm with hm' | ⟨hm', hh⟩
        · rwa [hagree h n m hn hm']
        · obtain ⟨k, hk⟩ := mem_getVdiff hm'
          rw [← (hD k m hk).2, hh, hn] at hk
          rwa [Option.some.inj hk]
      · obtain ⟨m, hm⟩ := DagArena.contains_iff.mp hb
        rw [hagree h n m hn hm]
        exact hdel.sub h m hm
    · exact hdel.sub h n hn

end MerkleCrdtEngine

/-! ## An exchange -/

namespace CrdtActor

variable {A B A' B' : CrdtActor} {DA DB DA' DB' : List DagNode} {nodes nodes' : List DagNode}
  {remote : List Hash32}

/-- What a replica finds for a peer with the heads `remote`, in some iteration order of its heads. -/
def Diff (s : CrdtActor) (remote : List Hash32) (nodes : List DagNode) : Prop :=
  ∃ heads, heads.Perm s.engine.heads ∧ nodes = (s.withHeads heads).engine.getVdiff remote

/-- One direction of an exchange: the receiver has the nodes of both. -/
theorem merge_diff (hA : A.engine.Covered blake3 DA) (hB : B.engine.Covered blake3 DB)
    (hcf : CollisionFree blake3 (DA ++ DB)) (hclosed : B.engine.arena.ParentClosed)
    (hsA : A.engine.arena.Shallow) (hsB : B.engine.arena.Shallow)
    (hremote : ∀ h ∈ remote, B.engine.arena.contains h = true) (hdiff : A.Diff remote nodes)
    (hstep : Step blake3 (DB, B) (.merge nodes) (DB', B')) :
    B'.engine.arena.IsUnion A.engine.arena B.engine.arena ∧
      B'.engine.Covered blake3 (DA ++ DB) := by
  obtain ⟨heads, horder, rfl⟩ := hdiff
  have hcA := coherent_withHeads (hA.coherent hsA.acyclic) horder
  have hnodes : ∀ n ∈ (A.withHeads heads).engine.getVdiff remote, n ∈ DA := by
    intro n hn
    obtain ⟨k, hk⟩ := MerkleCrdtEngine.mem_getVdiff hn
    exact (hA.holds k n hk).1
  have hsub : ∀ n ∈ DB ++ (A.withHeads heads).engine.getVdiff remote, n ∈ DA ++ DB := by
    intro n hn
    rcases List.mem_append.mp hn with hn | hn
    · exact List.mem_append_right _ hn
    · exact List.mem_append_left _ (hnodes n hn)
  cases hstep with
  | @mk _ _ _ disk headsB horderB =>
    have hcB := coherent_withHeads (hB.coherent hsB.acyclic) horderB
    obtain ⟨-, hdel⟩ := handleMerge_spec disk ((A.withHeads heads).engine.getVdiff remote) hcB
    have hu := MerkleCrdtEngine.isUnion_of_delivered hcA hsA hA.holds hB.holds hcf hclosed hremote hdel
    exact ⟨hu, (covered_handleMerge disk _ (covered_withHeads hB horderB)).mono hsub⟩

/-- Two replicas whose arenas contain the parents of their nodes and have no chain of parents longer than
the walk is deep: once B has merged what A finds above the heads of B, and then A what B finds above the
heads of A, both arenas are the union of the original ones, with equal heads and equal roots. -/
theorem anti_entropy {store store' : Option PersistentStore}
    (hstore : ∀ p, store = some p → p.Honest blake3)
    (hstore' : ∀ p, store' = some p → p.Honest blake3)
    {threshold gcThreshold threshold' gcThreshold' : ℕ} {ms ms' : List CrdtMsg}
    (hrunA : Run (Step blake3) (storedNodes store, new store threshold gcThreshold) ms (DA, A))
    (hrunB : Run (Step blake3) (storedNodes store', new store' threshold' gcThreshold') ms' (DB, B))
    (hcf : CollisionFree blake3 (DA ++ DB))
    (hcA : A.engine.arena.ParentClosed) (hcB : B.engine.arena.ParentClosed)
    (hsA : A.engine.arena.Shallow) (hsB : B.engine.arena.Shallow)
    (hdiff : A.Diff B.engine.heads nodes)
    (hstepB : Step blake3 (DB, B) (.merge nodes) (DB', B'))
    (hdiff' : B'.Diff A.engine.heads nodes')
    (hstepA : Step blake3 (DA, A) (.merge nodes') (DA', A')) :
    A'.engine.arena.IsUnion A.engine.arena B.engine.arena ∧
    B'.engine.arena.IsUnion A.engine.arena B.engine.arena ∧
    A'.engine.heads.Perm B'.engine.heads ∧
    (A'.engine.getMerkleRoot blake3).2 = (B'.engine.getMerkleRoot blake3).2 := by
  have hA := run_covered hstore hrunA (hcf.mono fun n => List.mem_append_left _)
  have hB := run_covered hstore' hrunB (hcf.mono fun n => List.mem_append_right _)
  have hheads : ∀ {s : CrdtActor} {D}, s.engine.Covered blake3 D →
      ∀ h ∈ s.engine.heads, s.engine.arena.contains h = true :=
    fun hs h hh => DagArena.mem_names.mp (hs.present h hh)
  obtain ⟨huB, hB'⟩ := merge_diff hA hB hcf hcB hsA hsB (hheads hB) hdiff hstepB
  have hsB' := huB.shallow hcA hcB hsA hsB
  obtain ⟨huA, hA'⟩ := merge_diff hB' hA
    (hcf.mono fun n hn => (List.mem_append.mp hn).elim id fun hn => List.mem_append_left _ hn)
    hcA hsB' hsA (hheads hA) hdiff' hstepA
  have huA' : A'.engine.arena.IsUnion A.engine.arena B.engine.arena := by
    intro h n
    rw [huA h n, huB h n]
    tauto
  have hcohA := hA'.coherent (huA'.shallow hcA hcB hsA hsB).acyclic
  have hcohB := hB'.coherent hsB'.acyclic
  have hsame : ∀ h n, A'.engine.arena.getByHash h = some n ↔ B'.engine.arena.getByHash h = some n :=
    fun h n => (huA' h n).trans (huB h n).symm
  have hperm : A'.engine.heads.Perm B'.engine.heads := by
    refine (List.perm_ext_iff_of_nodup hcohA.nodup hcohB.nodup).mpr fun h => ?_
    rw [hcohA.mem_heads_iff, hcohB.mem_heads_iff, DagArena.contains_iff, DagArena.contains_iff]
    simp only [hsame]
  refine ⟨huA', huB, hperm, ?_⟩
  rw [(MerkleCrdtEngine.getMerkleRoot_spec hcohA).1, (MerkleCrdtEngine.getMerkleRoot_spec hcohB).1,
    rootOf_perm hperm]

/-! ### Two concurrent nodes -/

theorem closed_of_rootless {s : CrdtActor} {D : List DagNode} (hs : s.engine.Covered blake3 D)
    (hroots : ∀ n ∈ D, n.parents = []) :
    s.engine.arena.ParentClosed ∧ s.engine.arena.Shallow := by
  constructor
  · intro h n hn p hp
    rw [hroots n (hs.holds h n hn).1] at hp
    cases hp
  · intro l hl
    match l with
    | [] => exact Nat.zero_le _
    | [_] => exact Nat.succ_le_succ (Nat.zero_le _)
    | p :: h :: _ =>
      obtain ⟨n, hn, hp⟩ := DagArena.child_iff.mp (List.isChain_cons_cons.mp hl).1
      rw [hroots n (hs.holds h n hn).1] at hp
      cases hp

/-- Two replicas have appended one node each, and exchange them. -/
theorem anti_entropy_two_nodes :
    ∃ A' B' : CrdtActor, A'.engine.heads.length = 2 ∧ A'.engine.heads.Perm B'.engine.heads ∧
      (A'.engine.getMerkleRoot lastBytes).2 = (B'.engine.getMerkleRoot lastBytes).2 := by
  have hrun : ∀ i : Byte, Run (Step lastBytes) (storedNodes none, new none 2 1000)
      ([] ++ [.append (plainNode [] i).dataHash (zeros 64) ⟨[], by simp⟩ none])
      ([plainNode [] i], _) := fun i => .snoc .nil (.here _ _ _ fun _ => true)
  have hnone : ∀ p, (none : Option PersistentStore) = some p → p.Honest lastBytes := by simp
  have hcf : CollisionFree lastBytes ([plainNode [] 1] ++ [plainNode [] 2]) := by
    unfold CollisionFree
    decide +kernel
  have hroots : ∀ i : Byte, ∀ n ∈ [plainNode [] i], n.parents = [] := by simp [plainNode]
  obtain ⟨hcA, hsA⟩ := closed_of_rootless (run_covered hnone (hrun 1)
    (hcf.mono fun n => List.mem_append_left _)) (hroots 1)
  obtain ⟨hcB, hsB⟩ := closed_of_rootless (run_covered hnone (hrun 2)
    (hcf.mono fun n => List.mem_append_right _)) (hroots 2)
  obtain ⟨-, -, hheads, hroot⟩ := anti_entropy hnone hnone (hrun 1) (hrun 2) hcf hcA hcB hsA hsB
    ⟨_, .refl _, rfl⟩ (.here _ _ _ fun _ => true) ⟨_, .refl _, rfl⟩ (.here _ _ _ fun _ => true)
  exact ⟨_, _, by decide +kernel, hheads, hroot⟩

end CrdtActor

end Aimp.Crdt
