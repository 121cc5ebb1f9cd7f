import Aimp.Crdt.Actor
import Aimp.Crdt.Proofs.ArenaProofs

/-!
# What the content hash of a node identifies

`compute_hash` writes the fields of a node one after another, with neither lengths nor separators
between them. The hash therefore identifies a node among those of the same layout, but among all
nodes only the nodes with the smallest layouts.
-/

namespace Aimp

theorem asBytes_ofList_cons (c : Char) (l : List Char) :
    asBytes (String.ofList (c :: l)) = asBytes (String.ofList [c]) ++ asBytes (String.ofList l) := by
  rw [← asBytes_append, ← String.ofList_append, List.singleton_append]

/-- `n` NUL characters. -/
def nulText (n : ℕ) : String := String.ofList (List.replicate n (Char.ofNat 0))

@[simp] theorem asBytes_nulText (n : ℕ) : asBytes (nulText n) = List.replicate n 0 := by
  induction n with
  | zero => rfl
  | succ n ih =>
    show asBytes (String.ofList (_ :: _)) = _
    rw [asBytes_ofList_cons]
    exact congrArg (0 :: ·) ih

theorem asBytes_empty : asBytes "" = [] := rfl

theorem asBytes_eq_nil {s : String} (h : (asBytes s).length = 0) : s = "" :=
  asBytes_injective (List.eq_nil_of_length_eq_zero h)

theorem empty_lt_nulText {n : ℕ} (h : 0 < n) : "" < nulText n := by
  obtain ⟨k, rfl⟩ := Nat.exists_eq_succ_of_ne_zero (Nat.ne_of_gt h)
  show "".toList < (nulText _).toList
  simp [nulText, List.replicate_succ]

end Aimp

namespace Aimp.Crdt

/-- Lists of pieces that are joined to the same bytes are equal if their pieces have the same
lengths. -/
theorem flatMap_inj {α β : Type*} {f : α → List β} (hf : Function.Injective f) {xs ys : List α}
    (hlen : xs.map (fun x => (f x).length) = ys.map fun y => (f y).length)
    (h : xs.flatMap f = ys.flatMap f) : xs = ys := by
  refine List.map_injective_iff.mpr hf (List.eq_iff_flatten_eq.mpr ⟨?_, ?_⟩)
  · rw [← List.flatMap_def, ← List.flatMap_def, h]
  · rw [List.map_map, List.map_map]
    exact hlen

/-! ## Layouts -/

/-- The lengths of the parts of a node that have no fixed length. -/
structure NodeLayout where
  parents : ℕ
  keys : List ℕ
  /-- The lengths of the prompt and of the decision. -/
  evidence : Option (ℕ × ℕ)
deriving DecidableEq

/-- The number of bytes that are hashed for a node of this layout. -/
def NodeLayout.size (l : NodeLayout) : ℕ :=
  32 * l.parents + 96 + (l.keys.map (· + 8)).sum +
    match l.evidence with
    | some (p, d) => p + d + 40
    | none => 0

def DagNode.layout (n : DagNode) : NodeLayout where
  parents := n.parents.length
  keys := n.vclock.entries.map fun e => (asBytes e.1).length
  evidence := n.evidence.map fun e => ((asBytes e.prompt).length, (asBytes e.decision).length)

theorem length_parents (ps : List Hash32) : (ps.flatMap Subtype.val).length = 32 * ps.length := by
  induction ps with
  | nil => rfl
  | cons p ps ih => rw [List.flatMap_cons, List.length_append, ih, p.2, List.length_cons]; omega

theorem VClock.length_hashInput (c : VClock) :
    c.hashInput.length = ((c.entries.map fun e => (asBytes e.1).length).map (· + 8)).sum := by
  simp only [VClock.hashInput, List.length_flatMap, List.map_map, List.length_append, (toLeBytes _).2]
  rfl

theorem AiEvidence.length_hashInput (e : AiEvidence) :
    e.hashInput.length = (asBytes e.prompt).length + (asBytes e.decision).length + 40 := by
  simp only [AiEvidence.hashInput, List.length_append, e.modelHash.2, (toLeBytes e.timestamp).2]

theorem DagNode.length_hashInput (n : DagNode) : n.hashInput.length = n.layout.size := by
  simp only [DagNode.hashInput, List.length_append, length_parents, n.signature.2, n.dataHash.2,
    VClock.length_hashInput, NodeLayout.size, DagNode.layout]
  cases n.evidence with
  | none => rfl
  | some e => simp only [Option.elim_some, AiEvidence.length_hashInput, Option.map_some]

/-! ## Nodes of one layout -/

theorem VClock.hashInput_inj {c d : VClock}
    (hlen : (c.entries.map fun e => (asBytes e.1).length) =
      d.entries.map fun e => (asBytes e.1).length)
    (h : c.hashInput = d.hashInput) : c = d := by
  have hentry : Function.Injective fun e : String × U64 => asBytes e.1 ++ (toLeBytes e.2).val := by
    intro e e' he
    obtain ⟨h1, h2⟩ := List.append_inj' he ((toLeBytes e.2).2.trans (toLeBytes e'.2).2.symm)
    exact Prod.ext (asBytes_injective h1) (toLeBytes_injective (Subtype.ext h2))
  have hlen' : c.entries.map (fun e => (asBytes e.1 ++ (toLeBytes e.2).val).length) =
      d.entries.map fun e => (asBytes e.1 ++ (toLeBytes e.2).val).length := by
    have h8 := congrArg (List.map (· + 8)) hlen
    rw [List.map_map, List.map_map] at h8
    simp only [List.length_append, (toLeBytes _).2]
    exact h8
  have hentries := flatMap_inj hentry hlen' h
  cases c
  cases d
  cases hentries
  rfl

theorem AiEvidence.hashInput_inj {e f : AiEvidence}
    (hlen : (asBytes e.prompt).length = (asBytes f.prompt).length)
    (h : e.hashInput = f.hashInput) : e = f := by
  obtain ⟨h1, htime⟩ := List.append_inj' h ((toLeBytes _).2.trans (toLeBytes _).2.symm)
  obtain ⟨h2, hmodel⟩ := List.append_inj' h1 (e.modelHash.2.trans f.modelHash.2.symm)
  obtain ⟨hprompt, hdecision⟩ := List.append_inj h2 hlen
  cases e
  cases f
  rw [AiEvidence.mk.injEq]
  exact ⟨asBytes_injective hprompt, asBytes_injective hdecision, Subtype.ext hmodel,
    toLeBytes_injective (Subtype.ext htime)⟩

theorem same_evidence_layout {a b : Option AiEvidence}
    (h : (a.map fun e => ((asBytes e.prompt).length, (asBytes e.decision).length)) =
      b.map fun e => ((asBytes e.prompt).length, (asBytes e.decision).length)) :
    (a = none ∧ b = none) ∨ ∃ e f, a = some e ∧ b = some f ∧
      (asBytes e.prompt).length = (asBytes f.prompt).length ∧
      (asBytes e.decision).length = (asBytes f.decision).length := by
  cases a with
  | none =>
    cases b with
    | none => exact Or.inl ⟨rfl, rfl⟩
    | some f => exact absurd h (by simp)
  | some e =>
    cases b with
    | none => exact absurd h (by simp)
    | some f => exact Or.inr ⟨e, f, rfl, rfl, Prod.mk.inj (Option.some.inj h)⟩

theorem map_length_hash (ps : List Hash32) :
    (ps.map fun p => p.val.length) = List.replicate ps.length 32 := by
  refine List.eq_replicate_iff.mpr ⟨List.length_map _, fun k hk => ?_⟩
  obtain ⟨p, -, rfl⟩ := List.mem_map.mp hk
  exact p.2

/-- Nodes of the same layout that are hashed from the same bytes are equal. -/
theorem DagNode.hashInput_inj {m n : DagNode} (hlayout : m.layout = n.layout)
    (h : m.hashInput = n.hashInput) : m = n := by
  obtain ⟨mps, msig, mdata, mc, me⟩ := m
  obtain ⟨nps, nsig, ndata, nc, ne⟩ := n
  simp only [DagNode.layout, NodeLayout.mk.injEq] at hlayout
  obtain ⟨hps, hkeys, he⟩ := hlayout
  have hcases := same_evidence_layout he
  unfold DagNode.hashInput at h
  obtain ⟨h, hevidence⟩ := List.append_inj' h (by
    rcases hcases with ⟨rfl, rfl⟩ | ⟨e, f, rfl, rfl, hp, hd⟩
    · rfl
    · simp only [Option.elim_some, AiEvidence.length_hashInput, hp, hd])
  obtain ⟨h, hclock⟩ := List.append_inj' h (by simp only [VClock.length_hashInput, hkeys])
  obtain ⟨h, hdata⟩ := List.append_inj' h (mdata.2.trans ndata.2.symm)
  obtain ⟨hparents, hsig⟩ := List.append_inj' h (msig.2.trans nsig.2.symm)
  rw [DagNode.mk.injEq]
  refine ⟨flatMap_inj Subtype.val_injective ?_ hparents, Subtype.ext hsig, Subtype.ext hdata,
    VClock.hashInput_inj hkeys hclock, ?_⟩
  · rw [map_length_hash, map_length_hash, hps]
  · rcases hcases with ⟨rfl, rfl⟩ | ⟨e, f, rfl, rfl, hp, -⟩
    · rfl
    · exact congrArg some (AiEvidence.hashInput_inj hp hevidence)

/-! ## Nodes of different layouts -/

/-- No parents, no evidence, and at most one key, of at most eight bytes. -/
def NodeLayout.Small (l : NodeLayout) : Prop :=
  l.parents = 0 ∧ l.evidence = none ∧ l.keys.length ≤ 1 ∧ ∀ k ∈ l.keys, k ≤ 8

/-- The node of the same layout whose fields of fixed length are all zero. -/
def DagNode.zeroFill (n : DagNode) : DagNode where
  parents := n.parents.map fun _ => zeros 32
  signature := zeros 64
  dataHash := zeros 32
  vclock := ⟨n.vclock.entries.map fun e => (e.1, 0), by
    rw [List.map_map]
    exact n.vclock.sorted⟩
  evidence := n.evidence.map fun e => ⟨e.prompt, e.decision, zeros 32, 0⟩

theorem DagNode.layout_zeroFill (n : DagNode) : n.zeroFill.layout = n.layout := by
  simp only [DagNode.layout, DagNode.zeroFill, List.length_map, List.map_map, Option.map_map]
  rfl

/-- The node without parents and evidence whose vector clock is given, with zero bytes elsewhere. -/
def clockNode (c : VClock) : DagNode := ⟨[], zeros 64, zeros 32, c, none⟩

theorem hashInput_clockNode (c : VClock) :
    (clockNode c).hashInput = List.replicate 96 0 ++ c.hashInput :=
  List.append_nil _

/-- The bytes of a text. -/
def IsText (b : List Byte) : Prop := ∃ t, asBytes t = b

theorem IsText.append {a b : List Byte} (ha : IsText a) (hb : IsText b) : IsText (a ++ b) := by
  obtain ⟨s, rfl⟩ := ha
  obtain ⟨t, rfl⟩ := hb
  exact ⟨s ++ t, asBytes_append s t⟩

theorem isText_zeros (n : ℕ) : IsText (List.replicate n 0) := ⟨nulText n, asBytes_nulText n⟩

theorem toLeBytes_zero : (toLeBytes 0).val = List.replicate 8 0 := by decide

theorem isText_entries (es : List (String × U64)) :
    IsText ((es.map fun e => (e.1, (0 : U64))).flatMap fun e =>
      asBytes e.1 ++ (toLeBytes e.2).val) := by
  induction es with
  | nil => exact ⟨"", rfl⟩
  | cons e es ih =>
    rw [List.map_cons, List.flatMap_cons, toLeBytes_zero]
    exact (IsText.append ⟨e.1, rfl⟩ (isText_zeros 8)).append ih

theorem flatMap_zeros (ps : List Hash32) :
    (ps.map fun _ => zeros 32).flatMap Subtype.val = List.replicate (32 * ps.length) 0 := by
  induction ps with
  | nil => rfl
  | cons p ps ih =>
    rw [List.map_cons, List.flatMap_cons, ih, List.length_cons, Nat.mul_succ, Nat.add_comm,
      List.replicate_add]
    rfl

/-- The bytes of a text, and eight zero bytes. -/
def IsTextThenZeros (b : List Byte) : Prop := ∃ a, IsText a ∧ b = a ++ List.replicate 8 0

theorem IsText.append_thenZeros {a b : List Byte} (ha : IsText a) (hb : IsTextThenZeros b) :
    IsTextThenZeros (a ++ b) := by
  obtain ⟨b, hb, rfl⟩ := hb
  exact ⟨a ++ b, ha.append hb, (List.append_assoc _ _ _).symm⟩

theorem DagNode.hashInput_zeroFill (n : DagNode) :
    n.zeroFill.hashInput = List.replicate 96 0 ++ (List.replicate (32 * n.parents.length) 0 ++
      (n.zeroFill.vclock.hashInput ++ n.zeroFill.evidence.elim [] AiEvidence.hashInput)) := by
  have h96 : (n.zeroFill.parents.flatMap Subtype.val ++ n.zeroFill.signature.val) ++
      n.zeroFill.dataHash.val =
        List.replicate 96 0 ++ List.replicate (32 * n.parents.length) 0 := by
    have hparents : n.zeroFill.parents.flatMap Subtype.val = _ := flatMap_zeros n.parents
    rw [List.append_assoc, hparents, ← List.replicate_add, Nat.add_comm, List.replicate_add]
    rfl
  rw [DagNode.hashInput, h96, List.append_assoc, List.append_assoc]

/-- Behind its first 96 bytes, a zero-filled node is hashed as a text and eight zero bytes. -/
theorem DagNode.zeroFill_thenZeros {n : DagNode}
    (hn : n.parents ≠ [] ∨ n.vclock.entries ≠ [] ∨ n.evidence ≠ none) :
    IsTextThenZeros (List.replicate (32 * n.parents.length) 0 ++
      (n.zeroFill.vclock.hashInput ++ n.zeroFill.evidence.elim [] AiEvidence.hashInput)) := by
  have hclock : IsText n.zeroFill.vclock.hashInput := isText_entries n.vclock.entries
  cases he : n.evidence with
  | some e =>
    have hz : n.zeroFill.evidence = some ⟨e.prompt, e.decision, zeros 32, 0⟩ := by
      rw [DagNode.zeroFill, he]; rfl
    rw [hz]
    refine (isText_zeros _).append_thenZeros (hclock.append_thenZeros ⟨_,
      (IsText.append ⟨e.prompt, rfl⟩ ⟨e.decision, rfl⟩).append (isText_zeros 32), ?_⟩)
    show _ ++ (toLeBytes 0).val = _
    rw [toLeBytes_zero]
    rfl
  | none =>
    have hz : n.zeroFill.evidence = none := by rw [DagNode.zeroFill, he]; rfl
    simp only [hz, Option.elim_none, List.append_nil]
    rcases List.eq_nil_or_concat n.vclock.entries with hes | ⟨es, e, hes⟩
    · have hps : n.parents ≠ [] := by tauto
      obtain ⟨k, hk⟩ : ∃ k, 32 * n.parents.length = k + 8 := by
        have hpos := List.length_pos_iff.mpr hps
        exact ⟨32 * n.parents.length - 8, by omega⟩
      have hempty : n.zeroFill.vclock.hashInput = [] := by
        simp [VClock.hashInput, DagNode.zeroFill, hes]
      exact ⟨_, isText_zeros k, by rw [hempty, List.append_nil, hk, List.replicate_add]⟩
    · refine (isText_zeros _).append_thenZeros ⟨_, (isText_entries es).append ⟨e.1, rfl⟩, ?_⟩
      simp [VClock.hashInput, DagNode.zeroFill, hes, toLeBytes_zero]

/-- A node whose layout is not small shares its layout with a node that is hashed from the same bytes
as another one. -/
theorem DagNode.exists_collision {n : DagNode} (hn : ¬ n.layout.Small) :
    ∃ n' m : DagNode, n'.layout = n.layout ∧ m.hashInput = n'.hashInput ∧ m ≠ n' := by
  by_cases hone : n.layout.parents = 0 ∧ n.layout.evidence = none ∧ n.layout.keys.length = 1
  · -- one key and nothing else: it is long enough to hide an entry with an empty key
    obtain ⟨hps, he, hkeys⟩ := hone
    obtain ⟨k, hk⟩ := List.length_eq_one_iff.mp hkeys
    have h8 : 8 < k := by
      by_contra hle
      refine hn ⟨hps, he, hkeys.le, fun k' hk' => ?_⟩
      rw [hk, List.mem_singleton] at hk'
      omega
    refine ⟨clockNode ⟨[(nulText k, 0)], List.pairwise_singleton _ _⟩,
      clockNode ⟨[("", 0), (nulText (k - 8), 0)], ?_⟩, ?_, ?_, ?_⟩
    · simpa using empty_lt_nulText (by omega : 0 < k - 8)
    · cases hl : n.layout with
      | mk p ks ev =>
        rw [hl] at hps he hk
        obtain rfl : p = 0 := hps
        obtain rfl : ev = none := he
        obtain rfl : ks = [k] := hk
        simp [layout, clockNode]
    · rw [hashInput_clockNode, hashInput_clockNode]
      have hk8 : k = 8 + (k - 8) := by omega
      simp only [VClock.hashInput, List.flatMap_cons, List.flatMap_nil, asBytes_empty,
        asBytes_nulText, toLeBytes_zero, List.append_nil, List.nil_append]
      rw [hk8, List.replicate_add, ← hk8, List.append_assoc]
    · intro h
      have hentries := congrArg (fun n => n.vclock.entries.length) h
      exact absurd hentries (by simp [clockNode])
  · -- otherwise everything behind the first 96 bytes is also the single entry of a vector clock
    have hne : n.parents ≠ [] ∨ n.vclock.entries ≠ [] ∨ n.evidence ≠ none := by
      by_contra hnone
      push Not at hnone
      obtain ⟨hps, hes, he⟩ := hnone
      exact hn (by simp [NodeLayout.Small, layout, hps, hes, he])
    obtain ⟨_, ⟨t, rfl⟩, ht⟩ := zeroFill_thenZeros hne
    refine ⟨n.zeroFill, clockNode ⟨[(t, 0)], List.pairwise_singleton _ _⟩, n.layout_zeroFill, ?_, ?_⟩
    · rw [hashInput_zeroFill, ht, hashInput_clockNode]
      simp only [VClock.hashInput, List.flatMap_cons, List.flatMap_nil, toLeBytes_zero,
        List.append_nil]
    · intro h
      apply hone
      rw [← n.layout_zeroFill, ← h]
      exact ⟨rfl, rfl, rfl⟩

theorem NodeLayout.size_small {l : NodeLayout} (h : l.Small) : l.size ≤ 112 := by
  obtain ⟨p, ks, ev⟩ := l
  obtain ⟨rfl, rfl, hlen, hks⟩ : p = 0 ∧ ev = none ∧ ks.length ≤ 1 ∧ ∀ k ∈ ks, k ≤ 8 := h
  match ks with
  | [] => simp [size]
  | [k] =>
    have hk := hks k (List.mem_singleton_self k)
    simp only [size, List.map_cons, List.map_nil, List.sum_cons, List.sum_nil]
    omega
  | _ :: _ :: _ => exact absurd hlen (by simp)

/-- The keys of a vector clock are distinct, so only one of them is empty. -/
theorem VClock.keys_ne_two_empty (c : VClock) (ks : List ℕ) :
    (c.entries.map fun e => (asBytes e.1).length) ≠ 0 :: 0 :: ks := by
  intro h
  match hc : c.entries with
  | [] => simp [hc] at h
  | [_] => simp [hc] at h
  | e :: f :: _ =>
    rw [hc] at h
    have hsorted := c.sorted
    rw [hc] at hsorted
    have hlt : e.1 < f.1 := List.rel_of_pairwise_cons hsorted (List.mem_cons_self ..)
    have he := asBytes_eq_nil (List.cons.inj h).1
    have hf := asBytes_eq_nil (List.cons.inj (List.cons.inj h).2).1
    rw [he, hf] at hlt
    exact absurd hlt (String.lt_irrefl "")

/-- A node that is hashed from as many bytes as one with a small layout has the same layout. -/
theorem DagNode.layout_eq_of_small {m n : DagNode} (hn : n.layout.Small)
    (hsize : m.layout.size = n.layout.size) : m.layout = n.layout := by
  have h112 := NodeLayout.size_small hn
  have hkeys := m.vclock.keys_ne_two_empty
  change ∀ ks, m.layout.keys ≠ 0 :: 0 :: ks at hkeys
  generalize m.layout = l at *
  generalize n.layout = l' at *
  obtain ⟨p, ks, ev⟩ := l
  obtain ⟨p', ks', ev'⟩ := l'
  obtain ⟨rfl, rfl, hlen, -⟩ : p' = 0 ∧ ev' = none ∧ ks'.length ≤ 1 ∧ ∀ k ∈ ks', k ≤ 8 := hn
  rw [← hsize] at h112
  cases ev with
  | some e => simp only [NodeLayout.size] at h112; omega
  | none =>
    obtain rfl : p = 0 := by simp only [NodeLayout.size] at h112; omega
    have hsum : (ks.map (· + 8)).sum = (ks'.map (· + 8)).sum := by
      simp only [NodeLayout.size] at hsize; omega
    have h16 : (ks.map (· + 8)).sum ≤ 16 := by simp only [NodeLayout.size] at h112; omega
    suffices h : ks = ks' by rw [h]
    match ks, ks', hlen with
    | [], [], _ => rfl
    | [], [k'], _ => simp at hsum
    | [k], [], _ => simp at hsum
    | [k], [k'], _ => simp at hsum; rw [hsum]
    | k₁ :: k₂ :: ks, _, _ =>
      simp only [List.map_cons, List.sum_cons] at h16
      obtain rfl : k₁ = 0 := by omega
      obtain rfl : k₂ = 0 := by omega
      exact absurd rfl (hkeys ks)

/-- If BLAKE3 is injective, then the hash identifies a node among the nodes of its layout. It identifies
the nodes of a layout among all nodes if and only if the layout is small. -/
theorem DagNode.computeHash_identifies {δ : Type} {blake3 : List Byte → δ}
    (hinj : Function.Injective blake3) (n : DagNode) :
    (∀ m : DagNode, m.layout = n.layout → m.computeHash blake3 = n.computeHash blake3 → m = n) ∧
    ((∀ n' : DagNode, n'.layout = n.layout → ∀ m : DagNode,
        m.computeHash blake3 = n'.computeHash blake3 → m = n') ↔ n.layout.Small) := by
  refine ⟨fun m hl h => hashInput_inj hl (hinj h), fun hall => ?_, fun hsmall n' hn' m h => ?_⟩
  · by_contra hsmall
    obtain ⟨n', m, hn', hm, hne⟩ := exists_collision hsmall
    exact hne (hall n' hn' m (congrArg blake3 hm))
  · have hinput : m.hashInput = n'.hashInput := hinj h
    refine hashInput_inj (layout_eq_of_small (hn' ▸ hsmall) ?_) hinput
    rw [← length_hashInput, ← length_hashInput, hinput]

/-! ### Two nodes with one hash -/

/-- A node that only has evidence, with the given prompt and decision. -/
def textNode (prompt decision : String) : DagNode :=
  ⟨[], zeros 64, zeros 32, ⟨[], VClock.sorted_nil⟩, some ⟨prompt, decision, zeros 32, 0⟩⟩

/-- A hash that keeps all bytes. -/
theorem DagNode.computeHash_identifies_all_bytes :
    (∀ m : DagNode, m.layout = (textNode "ab" "c").layout →
      m.hashInput = (textNode "ab" "c").hashInput → m = textNode "ab" "c") ∧
    ∃ n m : DagNode, n.layout = (textNode "ab" "c").layout ∧ m.hashInput = n.hashInput ∧ m ≠ n := by
  obtain ⟨hsame, hall⟩ := DagNode.computeHash_identifies Function.injective_id (textNode "ab" "c")
  refine ⟨hsame, ?_⟩
  have hsmall : ¬ (textNode "ab" "c").layout.Small := fun h => absurd h.2.1 (by decide)
  rw [← hall] at hsmall
  push Not at hsmall
  obtain ⟨n, hn, m, hm, hne⟩ := hsmall
  exact ⟨n, m, hn, hm, hne⟩

/-- A node with the hash of the node merged before it is taken for a duplicate. -/
theorem CrdtActor.mergeNode_duplicate {blake3 : List Byte → Hash32} (disk : Hash32 → Bool)
    (acc : CrdtActor × ℕ) {n m : DagNode} (h : m.computeHash blake3 = n.computeHash blake3) :
    mergeNode blake3 disk (mergeNode blake3 disk acc n) m = mergeNode blake3 disk acc n := by
  have hskip : ∀ acc : CrdtActor × ℕ, acc.1.engine.arena.contains (n.computeHash blake3) = true →
      mergeNode blake3 disk acc m = acc := by
    intro acc hc
    rw [← h] at hc
    exact if_pos hc
  apply hskip
  by_cases hc : acc.1.engine.arena.contains (n.computeHash blake3)
  · rw [show mergeNode blake3 disk acc n = acc from if_pos hc, hc]
  · rw [show mergeNode blake3 disk acc n = _ from if_neg hc]
    rw [Bool.not_eq_true] at hc
    exact DagArena.contains_iff.mpr ⟨n, (DagArena.getByHash_insert hc _).trans (if_pos rfl)⟩

/-- Moving a letter from the prompt to the decision does not change the hash, so that `Merge` takes
the second node for a duplicate of the first. -/
theorem DagNode.computeHash_collision :
    textNode "a" "bc" ≠ textNode "ab" "c" ∧
    (∀ (δ : Type) (blake3 : List Byte → δ),
      (textNode "a" "bc").computeHash blake3 = (textNode "ab" "c").computeHash blake3) ∧
    ∀ (blake3 : List Byte → Hash32) (disk : Hash32 → Bool) (acc : CrdtActor × ℕ),
      CrdtActor.mergeNode blake3 disk
        (CrdtActor.mergeNode blake3 disk acc (textNode "ab" "c")) (textNode "a" "bc") =
          CrdtActor.mergeNode blake3 disk acc (textNode "ab" "c") := by
  have hinput : (textNode "a" "bc").hashInput = (textNode "ab" "c").hashInput := by
    decide +kernel
  exact ⟨by decide, fun _ blake3 => congrArg blake3 hinput,
    fun blake3 disk acc => CrdtActor.mergeNode_duplicate disk acc (congrArg blake3 hinput)⟩

end Aimp.Crdt
