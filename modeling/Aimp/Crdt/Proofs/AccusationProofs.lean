import Aimp.Crdt.Proofs.EquivocationProofs
import Mathlib.Data.String.Basic

/-!
# Accusations

Every denied origin is backed by exactly one proof, and every proof by two of the checked nodes
(`denial_backed`). A check stops at the first conflict that it finds, so what it would have recorded or
found after that is lost. As long as no node has two contested clock entries nothing is lost, and the
deny list is the same for every order of the checks (`denied_order`).
-/

namespace Aimp.Crdt

namespace QuorumManager

variable {blake3 : List Byte → Hash32} {q : QuorumManager} {t : ℕ}

/-! ## Proofs -/

/-- Two of the checked nodes bear the proof out. -/
def Justified (cs : List QuorumCall) (proof : EquivocationProof) : Prop :=
  ∃ m n : DagNode, .checkEquivocation m proof.hashA ∈ cs ∧ .checkEquivocation n proof.hashB ∈ cs ∧
    (proof.origin, proof.tick) ∈ m.vclock.entries ∧ (proof.origin, proof.tick) ∈ n.vclock.entries ∧
    m.dataHash ≠ n.dataHash

/-- What has been observed comes from the checked nodes, and so do the proofs; there is one for every
denied origin. -/
structure Backed (cs : List QuorumCall) (q : QuorumManager) : Prop where
  observed : ∀ c p, q.observedTicks.lookup c = some p →
    ∃ n, .checkEquivocation n p.2 ∈ cs ∧ c ∈ n.vclock.entries ∧ n.dataHash = p.1
  justified : ∀ proof ∈ q.equivocationProofs, Justified cs proof
  denied : ∀ o, o ∈ q.denied ↔ ∃ proof ∈ q.equivocationProofs, proof.origin = o
  once : (q.equivocationProofs.map EquivocationProof.origin).Nodup

theorem backed_new (t : ℕ) : Backed [] (new t) :=
  ⟨fun _ _ h => absurd h (by simp [new]), fun _ h => absurd h List.not_mem_nil,
    fun _ => by simp [new], List.nodup_nil⟩

theorem Backed.mono {cs cs' : List QuorumCall} (h : Backed cs q) (hsub : cs ⊆ cs') :
    Backed cs' q := by
  refine ⟨fun c p hp => ?_, fun proof hproof => ?_, h.denied, h.once⟩
  · obtain ⟨n, hn, hrest⟩ := h.observed c p hp
    exact ⟨n, hsub hn, hrest⟩
  · obtain ⟨m, n, hm, hn, hrest⟩ := h.justified proof hproof
    exact ⟨m, n, hsub hm, hsub hn, hrest⟩

theorem Backed.record {cs : List QuorumCall} (h : Backed cs q) {n : DagNode} {g : Hash32}
    (hn : .checkEquivocation n g ∈ cs) {c : String × U64} (hc : c ∈ n.vclock.entries) :
    Backed cs { q with observedTicks := q.observedTicks.insert c (n.dataHash, g) } := by
  refine ⟨fun c' p hp => ?_, h.justified, h.denied, h.once⟩
  by_cases heq : c' = c
  · subst heq
    rw [AList.lookup_insert] at hp
    obtain rfl := Option.some.inj hp
    exact ⟨n, hn, hc, rfl⟩
  · rw [AList.lookup_insert_ne heq] at hp
    exact h.observed c' p hp

theorem Backed.accuse {cs : List QuorumCall} (h : Backed cs q) {n : DagNode} {g : Hash32}
    (hn : .checkEquivocation n g ∈ cs) {origin : String} {tick : U64}
    (hc : (origin, tick) ∈ n.vclock.entries) {p : Hash32 × Hash32}
    (hp : q.observedTicks.lookup (origin, tick) = some p) (hne : p.1 ≠ n.dataHash)
    (hnew : origin ∉ q.denied) :
    Backed cs { q with
      denied := q.denied.insert origin
      equivocationProofs := q.equivocationProofs ++ [⟨origin, tick, p.2, g⟩] } := by
  refine ⟨h.observed, fun proof hproof => ?_, fun o => ?_, ?_⟩
  · rcases List.mem_append.mp hproof with hproof | hproof
    · exact h.justified proof hproof
    · obtain rfl := List.mem_singleton.mp hproof
      obtain ⟨m, hm, hcm, hd⟩ := h.observed _ p hp
      exact ⟨m, n, hm, hn, hcm, hc, hd ▸ hne⟩
  · rw [List.mem_insert_iff, h.denied]
    simp only [List.mem_append, List.mem_singleton, or_and_right, exists_or, exists_eq_left]
    rw [or_comm, eq_comm]
  · rw [List.map_append, List.map_singleton]
    refine List.nodup_append.mpr ⟨h.once, List.nodup_singleton _, fun o ho o' ho' heq => ?_⟩
    obtain ⟨proof, hproof, rfl⟩ := List.mem_map.mp ho
    rw [List.mem_singleton.mp ho'] at heq
    exact hnew ((h.denied origin).mpr ⟨proof, hproof, heq⟩)

theorem Backed.checkEntries {cs : List QuorumCall} {n : DagNode} {g : Hash32}
    (hn : .checkEquivocation n g ∈ cs) {es : List (String × U64)} (hes : es ⊆ n.vclock.entries)
    (h : Backed cs q) : Backed cs (q.checkEntries n.dataHash g es).1 := by
  induction es generalizing q with
  | nil => exact h
  | cons e es ih =>
    obtain ⟨origin, tick⟩ := e
    have he : (origin, tick) ∈ n.vclock.entries := hes (List.mem_cons_self ..)
    have hrest : es ⊆ n.vclock.entries := fun c hc => hes (List.mem_cons_of_mem _ hc)
    unfold QuorumManager.checkEntries
    split
    · exact ih hrest h
    · rename_i hnew
      cases hl : q.observedTicks.lookup (origin, tick) with
      | some p =>
        dsimp only
        split
        · rename_i hne
          exact h.accuse hn he hl hne hnew
        · exact ih hrest h
      | none => exact ih hrest (h.record hn he)

theorem observe_equivocationProofs (blake3 : List Byte → Hash32) (q : QuorumManager) (o : Hash32)
    (e : AiEvidence) : (q.observe blake3 o e).1.equivocationProofs = q.equivocationProofs := by
  unfold observe
  dsimp only
  repeat' split
  all_goals rfl

theorem Backed.call {cs : List QuorumCall} (h : Backed cs q) (c : QuorumCall) :
    Backed (cs ++ [c]) (q.call blake3 c) := by
  have hmono := h.mono (List.subset_append_left cs [c])
  cases c with
  | observe o e =>
    obtain ⟨hdenied, hticks⟩ := observe_frame blake3 q o e
    have hproofs := observe_equivocationProofs blake3 q o e
    refine ⟨?_, ?_, ?_, ?_⟩
    · rw [QuorumManager.call, hticks]
      exact hmono.observed
    · rw [QuorumManager.call, hproofs]
      exact hmono.justified
    · rw [QuorumManager.call, hdenied, hproofs]
      exact hmono.denied
    · rw [QuorumManager.call, hproofs]
      exact hmono.once
  | checkEquivocation n g =>
    exact hmono.checkEntries (List.mem_append_right _ (List.mem_singleton_self _))
      (List.Subset.refl _)

theorem backed_calls (blake3 : List Byte → Hash32) (t : ℕ) (cs : List QuorumCall) :
    Backed cs ((new t).calls blake3 cs) := by
  induction cs using List.reverseRecOn with
  | nil => exact backed_new t
  | append_singleton cs c ih =>
    rw [calls_append]
    exact ih.call c

/-- After any calls on a new manager: the denied origins are those of the proofs, each has exactly one
proof, and two of the checked nodes bear it out. -/
theorem denial_backed (blake3 : List Byte → Hash32) (t : ℕ) (cs : List QuorumCall) :
    (∀ o, o ∈ ((new t).calls blake3 cs).denied ↔
        ∃ proof ∈ ((new t).calls blake3 cs).equivocationProofs, proof.origin = o) ∧
      (((new t).calls blake3 cs).equivocationProofs.map EquivocationProof.origin).Nodup ∧
      ∀ proof ∈ ((new t).calls blake3 cs).equivocationProofs, Justified cs proof :=
  ⟨(backed_calls blake3 t cs).denied, (backed_calls blake3 t cs).once,
    (backed_calls blake3 t cs).justified⟩

/-! ## The order of the checks -/

/-- The checks of some nodes, each given with its hash. -/
def checks (nodes : List (DagNode × Hash32)) : List QuorumCall :=
  nodes.map fun n => .checkEquivocation n.1 n.2

/-- The clock entry of a node stands in the clock of another one with different data. -/
def Contested (nodes : List (DagNode × Hash32)) (n : DagNode) (c : String × U64) : Prop :=
  c ∈ n.vclock.entries ∧ ∃ m ∈ nodes, c ∈ m.1.vclock.entries ∧ m.1.dataHash ≠ n.dataHash

/-- No node has two contested clock entries. -/
def OneContested (nodes : List (DagNode × Hash32)) : Prop :=
  ∀ n ∈ nodes, ∀ c c', Contested nodes n.1 c → Contested nodes n.1 c' → c = c'

theorem mem_checks {nodes : List (DagNode × Hash32)} {n : DagNode} {g : Hash32} :
    .checkEquivocation n g ∈ checks nodes ↔ (n, g) ∈ nodes := by
  unfold checks
  rw [List.mem_map]
  constructor
  · rintro ⟨⟨m, h⟩, hm, heq⟩
    obtain ⟨rfl, rfl⟩ := QuorumCall.checkEquivocation.inj heq
    exact hm
  · exact fun h => ⟨(n, g), h, rfl⟩

/-- What has been recorded stays. -/
theorem checkEntries_lookup {d g : Hash32} {es : List (String × U64)} {c : String × U64}
    {p : Hash32 × Hash32} (hp : q.observedTicks.lookup c = some p) :
    (q.checkEntries d g es).1.observedTicks.lookup c = some p := by
  induction es generalizing q with
  | nil => exact hp
  | cons e es ih =>
    unfold checkEntries
    split
    · exact ih hp
    · split
      · split
        · exact hp
        · exact ih hp
      · rename_i hnone
        refine ih ?_
        rwa [AList.lookup_insert_ne fun heq => by rw [heq, hnone] at hp; cases hp]

/-- A check that can stop at one entry only deals with that entry. -/
theorem checkEntries_reaches {d g : Hash32} {es : List (String × U64)} {c : String × U64}
    (hc : c ∈ es) (hothers : ∀ e ∈ es, e ≠ c → ∀ p, q.observedTicks.lookup e = some p → p.1 = d) :
    c.1 ∈ (q.checkEntries d g es).1.denied ∨
      ∃ g', (q.checkEntries d g es).1.observedTicks.lookup c = some (d, g') := by
  induction es generalizing q with
  | nil => exact absurd hc List.not_mem_nil
  | cons e es ih =>
    obtain ⟨origin, tick⟩ := e
    have hrest : ∀ e ∈ es, e ≠ c → ∀ p, q.observedTicks.lookup e = some p → p.1 = d :=
      fun e he => hothers e (List.mem_cons_of_mem _ he)
    unfold checkEntries
    split
    · rename_i hdenied
      rcases List.mem_cons.mp hc with rfl | hc
      · exact Or.inl (checkEntries_denied_subset d g es q hdenied)
      · exact ih hc hrest
    · cases hl : q.observedTicks.lookup (origin, tick) with
      | some p =>
        obtain ⟨d', g'⟩ := p
        dsimp only
        split
        · -- the check stops, so this is the entry in question
          rename_i hne
          have heq : (origin, tick) = c := by
            by_contra hother
            exact hne (hothers _ (List.mem_cons_self ..) hother _ hl)
          subst heq
          exact Or.inl List.mem_insert_self
        · rename_i heq
          rcases List.mem_cons.mp hc with rfl | hc
          · obtain rfl : d' = d := not_not.mp heq
            exact Or.inr ⟨g', checkEntries_lookup hl⟩
          · exact ih hc hrest
      | none =>
        rcases List.mem_cons.mp hc with rfl | hc
        · exact Or.inr ⟨g, checkEntries_lookup (AList.lookup_insert _)⟩
        · refine ih hc fun e he hother p hp => ?_
          by_cases heq : e = (origin, tick)
          · subst heq
            rw [AList.lookup_insert] at hp
            obtain rfl := Option.some.inj hp
            rfl
          · rw [AList.lookup_insert_ne heq] at hp
            exact hrest e he hother p hp

/-- Of every checked node the contested entry has been dealt with. -/
def Settled (nodes done : List (DagNode × Hash32)) (q : QuorumManager) : Prop :=
  ∀ n ∈ done, ∀ c, Contested nodes n.1 c →
    c.1 ∈ q.denied ∨ ∃ g, q.observedTicks.lookup c = some (n.1.dataHash, g)

theorem settled_checks (blake3 : List Byte → Hash32) (t : ℕ) {nodes done : List (DagNode × Hash32)}
    (hone : OneContested nodes) (hsub : done ⊆ nodes) :
    Settled nodes done ((new t).calls blake3 (checks done)) := by
  induction done using List.reverseRecOn with
  | nil => exact fun _ h => absurd h List.not_mem_nil
  | append_singleton done n ih =>
    have hdone : done ⊆ nodes := fun m hm => hsub (List.mem_append_left _ hm)
    have hn : n ∈ nodes := hsub (List.mem_append_right _ (List.mem_singleton_self n))
    have hbacked := backed_calls blake3 t (checks done)
    have hsettled := ih hdone
    have hsplit : checks (done ++ [n]) = checks done ++ [.checkEquivocation n.1 n.2] :=
      List.map_append
    rw [hsplit, calls_append]
    generalize (new t).calls blake3 (checks done) = q at hbacked hsettled ⊢
    show Settled nodes (done ++ [n]) (q.checkEntries n.1.dataHash n.2 n.1.vclock.entries).1
    intro m hm c hc
    rcases List.mem_append.mp hm with hm | hm
    · rcases hsettled m hm c hc with hdenied | ⟨g, hg⟩
      · exact Or.inl (checkEntries_denied_subset _ _ _ q hdenied)
      · exact Or.inr ⟨g, checkEntries_lookup hg⟩
    · obtain rfl := List.mem_singleton.mp hm
      refine checkEntries_reaches hc.1 fun e he hother p hp => ?_
      -- an entry recorded with other data would be contested as well
      by_contra hne
      obtain ⟨k, hk, hek, hd⟩ := hbacked.observed e p hp
      have hkn : (k, p.2) ∈ nodes := hdone (mem_checks.mp hk)
      have hcontested : Contested nodes m.1 e := ⟨he, (k, p.2), hkn, hek, hd ▸ hne⟩
      exact hother (hone m hn e c hcontested hc)

/-- Without two contested entries in one clock exactly the origins of contested entries are denied. -/
theorem mem_denied_checks_iff (blake3 : List Byte → Hash32) (t : ℕ)
    {nodes : List (DagNode × Hash32)} (hone : OneContested nodes) {o : String} :
    o ∈ ((new t).calls blake3 (checks nodes)).denied ↔
      ∃ n ∈ nodes, ∃ tick, Contested nodes n.1 (o, tick) := by
  have hbacked := backed_calls blake3 t (checks nodes)
  constructor
  · intro ho
    obtain ⟨proof, hproof, rfl⟩ := (hbacked.denied o).mp ho
    obtain ⟨m, n, hm, hn, hcm, hcn, hne⟩ := hbacked.justified proof hproof
    exact ⟨(n, proof.hashB), mem_checks.mp hn, proof.tick, hcn, (m, proof.hashA), mem_checks.mp hm,
      hcm, hne⟩
  · rintro ⟨n, hn, tick, hcn, m, hm, hcm, hne⟩
    have hsettled := settled_checks blake3 t hone (List.Subset.refl nodes)
    rcases hsettled n hn _ ⟨hcn, m, hm, hcm, hne⟩ with hdenied | ⟨g, hg⟩
    · exact hdenied
    rcases hsettled m hm _ ⟨hcm, n, hn, hcn, hne.symm⟩ with hdenied | ⟨g', hg'⟩
    · exact hdenied
    · rw [hg] at hg'
      exact absurd (congrArg Prod.fst (Option.some.inj hg')).symm hne

theorem Contested.perm {nodes nodes' : List (DagNode × Hash32)} (h : nodes.Perm nodes') {n : DagNode}
    {c : String × U64} : Contested nodes n c ↔ Contested nodes' n c := by
  unfold Contested
  simp only [h.mem_iff]

theorem OneContested.perm {nodes nodes' : List (DagNode × Hash32)} (h : nodes.Perm nodes')
    (hone : OneContested nodes) : OneContested nodes' := by
  intro n hn c c' hc hc'
  exact hone n (h.mem_iff.mpr hn) c c' ((Contested.perm h).mpr hc) ((Contested.perm h).mpr hc')

/-! ## Checks that stop early -/

/-- In the given order a check stops before a contested entry of its node. -/
def StopsEarly (blake3 : List Byte → Hash32) (t : ℕ) (nodes : List (DagNode × Hash32)) : Prop :=
  ∃ before n after, nodes = before ++ n :: after ∧ ∃ proof c,
    (((new t).calls blake3 (checks before)).checkEquivocation n.1 n.2).2 = some proof ∧
      Contested nodes n.1 c ∧ proof.origin < c.1

/-- A check that meets a conflict stops there at the latest. -/
theorem checkEntries_stops {d g : Hash32} {es : List (String × U64)} (hq : q.denied = [])
    (hsorted : (es.map Prod.fst).Pairwise (· < ·)) {c : String × U64} (hc : c ∈ es)
    {p : Hash32 × Hash32} (hp : q.observedTicks.lookup c = some p) (hne : p.1 ≠ d) :
    ∃ proof, (q.checkEntries d g es).2 = some proof ∧ (proof.origin = c.1 ∨ proof.origin < c.1) := by
  induction es generalizing q with
  | nil => exact absurd hc List.not_mem_nil
  | cons e es ih =>
    obtain ⟨origin, tick⟩ := e
    rw [List.map_cons, List.pairwise_cons] at hsorted
    unfold checkEntries
    rw [if_neg (by simp [hq])]
    cases hl : q.observedTicks.lookup (origin, tick) with
    | some p' =>
      dsimp only
      split
      · refine ⟨_, rfl, ?_⟩
        rcases List.mem_cons.mp hc with rfl | hc
        · exact Or.inl rfl
        · exact Or.inr (hsorted.1 _ (List.mem_map_of_mem hc))
      · rename_i heq
        rcases List.mem_cons.mp hc with rfl | hc
        · rw [hl] at hp
          exact absurd (Option.some.inj hp ▸ hne) heq
        · exact ih hq hsorted.2 hc hp
    | none =>
      rcases List.mem_cons.mp hc with rfl | hc
      · rw [hl] at hp
        cases hp
      · refine ih hq hsorted.2 hc ?_
        rwa [AList.lookup_insert_ne fun heq => by rw [heq, hl] at hp; cases hp]

/-- After its own check alone, all entries of a node are recorded. -/
theorem recorded_first (blake3 : List Byte → Hash32) (t : ℕ) (m : DagNode × Hash32) :
    ((new t).calls blake3 (checks [m])).denied = [] ∧
      ∀ c ∈ m.1.vclock.entries, ∃ g,
        ((new t).calls blake3 (checks [m])).observedTicks.lookup c = some (m.1.dataHash, g) := by
  have hfresh : ∀ c ∈ m.1.vclock.entries, ∀ p, (new t).observedTicks.lookup c = some p →
      p.1 = m.1.dataHash := fun c _ p hp => by simp [new] at hp
  obtain ⟨hdenied, hrecorded, -⟩ := checkEntries_of_agree rfl hfresh
  exact ⟨hdenied, hrecorded⟩

/-- Where a node has two contested entries, some order of the checks loses one of them. -/
theorem stopsEarly_of_two_contested (blake3 : List Byte → Hash32) (t : ℕ)
    {nodes : List (DagNode × Hash32)} {n : DagNode × Hash32} (hn : n ∈ nodes) {c c' : String × U64}
    (hc : Contested nodes n.1 c) (hc' : Contested nodes n.1 c') (hlt : c.1 < c'.1) :
    ∃ nodes', nodes.Perm nodes' ∧ StopsEarly blake3 t nodes' := by
  obtain ⟨hcn, m, hm, hcm, hne⟩ := hc
  -- the node that contests the first of them comes first, and then the node itself
  obtain ⟨rest, hrest⟩ : ∃ rest, nodes.Perm (m :: n :: rest) := by
    have hmn : n ≠ m := fun h => hne (h ▸ rfl)
    refine ⟨(nodes.erase m).erase n, (List.perm_cons_erase hm).trans (.cons m ?_)⟩
    exact List.perm_cons_erase ((List.mem_erase_of_ne hmn).mpr hn)
  obtain ⟨hquiet, hall⟩ := recorded_first blake3 t m
  obtain ⟨g, hg⟩ := hall c hcm
  obtain ⟨proof, hproof, horigin⟩ :=
    checkEntries_stops (g := n.2) hquiet n.1.vclock.sorted hcn hg hne
  refine ⟨_, hrest, [m], n, rest, rfl, proof, c', hproof, (Contested.perm hrest).mp hc', ?_⟩
  rcases horigin with heq | hbefore
  · exact heq ▸ hlt
  · exact hbefore.trans hlt

/-- Two entries of one clock have different origins. -/
theorem origins_ne {n : DagNode} {c c' : String × U64} (hc : c ∈ n.vclock.entries)
    (hc' : c' ∈ n.vclock.entries) (hne : c ≠ c') : c.1 < c'.1 ∨ c'.1 < c.1 := by
  have hnodup : (n.vclock.entries.map Prod.fst).Nodup :=
    n.vclock.sorted.imp fun h heq => by
      rw [heq] at h
      exact lt_irrefl _ h
  have horigins : c.1 ≠ c'.1 := fun h => hne (List.inj_on_of_nodup_map hnodup hc hc' h)
  exact lt_or_gt_of_ne horigins

/-- Without two contested entries in one clock, every order of the checks denies the same origins. With
two of them some order of the checks loses one. -/
theorem denied_order (blake3 : List Byte → Hash32) (t : ℕ) (nodes : List (DagNode × Hash32)) :
    (OneContested nodes → ∀ nodes', nodes.Perm nodes' → ∀ o,
      (o ∈ ((new t).calls blake3 (checks nodes)).denied ↔
        o ∈ ((new t).calls blake3 (checks nodes')).denied)) ∧
    (¬ OneContested nodes → ∃ nodes', nodes.Perm nodes' ∧ StopsEarly blake3 t nodes') := by
  constructor
  · intro hone nodes' h o
    rw [mem_denied_checks_iff blake3 t hone, mem_denied_checks_iff blake3 t (hone.perm h)]
    simp only [h.mem_iff, Contested.perm h]
  · intro hmany
    unfold OneContested at hmany
    push Not at hmany
    obtain ⟨n, hn, c, c', hc, hc', hne⟩ := hmany
    rcases origins_ne hc.1 hc'.1 hne with hlt | hlt
    · exact stopsEarly_of_two_contested blake3 t hn hc hc' hlt
    · exact stopsEarly_of_two_contested blake3 t hn hc' hc hlt

/-- Two nodes of the authors "a1b2c3d4" and "e5f60718" that contest an entry of the reply each. -/
def otherFirstNode : DagNode := { firstNode with dataHash := ⟨List.replicate 32 2, length_twos⟩ }

def otherReplyNode : DagNode where
  parents := []
  signature := zeros 64
  dataHash := ⟨List.replicate 32 3, by simp⟩
  vclock := ⟨[("e5f60718", 1)], List.pairwise_singleton _ _⟩
  evidence := none

/-- Checked first, the reply gets both authors denied; checked after the first node, only one. -/
theorem denied_depends_on_order :
    [(replyNode, zeros 32), (otherFirstNode, zeros 32), (otherReplyNode, zeros 32)].Perm
        [(otherFirstNode, zeros 32), (replyNode, zeros 32), (otherReplyNode, zeros 32)] ∧
      ∀ blake3 : List Byte → Hash32,
        ((new 2).calls blake3 (checks
          [(replyNode, zeros 32), (otherFirstNode, zeros 32), (otherReplyNode, zeros 32)])).denied =
            ["e5f60718", "a1b2c3d4"] ∧
        ((new 2).calls blake3 (checks
          [(otherFirstNode, zeros 32), (replyNode, zeros 32), (otherReplyNode, zeros 32)])).denied =
            ["a1b2c3d4"] :=
  ⟨List.Perm.swap _ _ _, fun _ => ⟨rfl, rfl⟩⟩

end QuorumManager

end Aimp.Crdt
