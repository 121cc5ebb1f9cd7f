import Aimp.Crdt.Proofs.QuorumProofs

/-!
# Detection of equivocation

`check_equivocation` looks up every entry of the node's vector clock, the ticks of other authors that the
node refers to included. Hence it accuses as soon as two checked nodes share a clock entry and differ in
their data, whoever wrote them.
-/

namespace Aimp.Crdt

namespace QuorumManager

variable {blake3 : List Byte → Hash32} {q : QuorumManager} {t : ℕ} {d g : Hash32}

/-! ## One check -/

/-- A denied origin stays denied. -/
theorem checkEntries_denied_subset (d g : Hash32) (es : List (String × U64)) (q : QuorumManager) :
    q.denied ⊆ (q.checkEntries d g es).1.denied := by
  induction es generalizing q with
  | nil => exact List.Subset.refl _
  | cons e es ih =>
    unfold checkEntries
    split
    · exact ih q
    · split
      · split
        · exact fun _ h => List.mem_insert_of_mem h
        · exact ih q
      · exact ih { q with observedTicks := q.observedTicks.insert (e.1, e.2) (d, g) }

/-- If every known entry has been recorded with the node's data, then nobody is denied, and now all
entries are recorded with these data. -/
theorem checkEntries_of_agree {es : List (String × U64)} (hq : q.denied = [])
    (hes : ∀ c ∈ es, ∀ p, q.observedTicks.lookup c = some p → p.1 = d) :
    (q.checkEntries d g es).1.denied = [] ∧
    (∀ c ∈ es, ∃ g', (q.checkEntries d g es).1.observedTicks.lookup c = some (d, g')) ∧
    ∀ c ∉ es, (q.checkEntries d g es).1.observedTicks.lookup c = q.observedTicks.lookup c := by
  induction es generalizing q with
  | nil => exact ⟨hq, by simp, fun _ _ => rfl⟩
  | cons e es ih =>
    obtain ⟨origin, tick⟩ := e
    have hdenied : origin ∉ q.denied := by simp [hq]
    unfold checkEntries
    rw [if_neg hdenied]
    -- what follows is the same for a known and for a new entry: afterwards the entry is recorded
    have hrest : ∀ q' : QuorumManager, q'.denied = [] →
        (∃ g', q'.observedTicks.lookup (origin, tick) = some (d, g')) →
        (∀ c, c ≠ (origin, tick) → q'.observedTicks.lookup c = q.observedTicks.lookup c) →
        (q'.checkEntries d g es).1.denied = [] ∧
        (∀ c ∈ (origin, tick) :: es, ∃ g',
          (q'.checkEntries d g es).1.observedTicks.lookup c = some (d, g')) ∧
        ∀ c ∉ (origin, tick) :: es,
          (q'.checkEntries d g es).1.observedTicks.lookup c = q.observedTicks.lookup c := by
      intro q' hq' hself hother
      have hes' : ∀ c ∈ es, ∀ p, q'.observedTicks.lookup c = some p → p.1 = d := by
        intro c hc p hp
        by_cases heq : c = (origin, tick)
        · obtain ⟨g', hg'⟩ := hself
          rw [heq, hg'] at hp
          rw [← Option.some.inj hp]
        · exact hes c (List.mem_cons_of_mem _ hc) p (hother c heq ▸ hp)
      obtain ⟨h1, h2, h3⟩ := ih hq' hes'
      refine ⟨h1, fun c hc => ?_, fun c hc => ?_⟩
      · by_cases hmem : c ∈ es
        · exact h2 c hmem
        · rw [h3 c hmem, (List.mem_cons.mp hc).resolve_right hmem]
          exact hself
      · rw [h3 c fun hmem => hc (List.mem_cons_of_mem _ hmem),
          hother c fun heq => hc (heq ▸ List.mem_cons_self)]
    cases hl : q.observedTicks.lookup (origin, tick) with
    | some p =>
      obtain ⟨d', g'⟩ := p
      have hd : d' = d := hes _ List.mem_cons_self _ hl
      subst hd
      dsimp only
      rw [if_neg (by simp)]
      exact hrest q hq ⟨g', hl⟩ fun _ _ => rfl
    | none =>
      exact hrest _ hq ⟨g, AList.lookup_insert _⟩ fun c hc => AList.lookup_insert_ne hc

/-- If some entry has been recorded with other data, then its origin or another one is denied. -/
theorem checkEntries_of_conflict {es : List (String × U64)} {c : String × U64}
    {p : Hash32 × Hash32} (hc : c ∈ es) (hp : q.observedTicks.lookup c = some p) (hne : p.1 ≠ d) :
    (q.checkEntries d g es).1.denied ≠ [] := by
  have hnil : ∀ {l : List String} {a}, a ∈ l → l ≠ [] := fun ha h => by simp [h] at ha
  induction es generalizing q with
  | nil => simp at hc
  | cons e es ih =>
    obtain ⟨origin, tick⟩ := e
    unfold checkEntries
    split
    · rename_i hdenied
      exact hnil (checkEntries_denied_subset d g es q hdenied)
    · cases hl : q.observedTicks.lookup (origin, tick) with
      | some p' =>
        dsimp only
        split
        · exact hnil List.mem_insert_self
        · rename_i heq
          rcases List.mem_cons.mp hc with rfl | hc
          · rw [hl] at hp
            exact absurd (Option.some.inj hp ▸ hne) heq
          · exact ih hc hp
      | none =>
        rcases List.mem_cons.mp hc with rfl | hc
        · rw [hl] at hp
          simp at hp
        · refine ih hc ?_
          rw [AList.lookup_insert_ne fun heq => by rw [heq, hl] at hp; simp at hp]
          exact hp

/-! ## Sequences of calls -/

/-- As long as nobody is denied, exactly the clock entries of the checked nodes are recorded, each with
the data of every checked node that has it. -/
structure Recorded (cs : List QuorumCall) (q : QuorumManager) : Prop where
  quiet : q.denied = []
  sound : ∀ c p, q.observedTicks.lookup c = some p →
    ∃ n h, .checkEquivocation n h ∈ cs ∧ c ∈ n.vclock.entries ∧ n.dataHash = p.1
  complete : ∀ n h, .checkEquivocation n h ∈ cs → ∀ c ∈ n.vclock.entries,
    ∃ g, q.observedTicks.lookup c = some (n.dataHash, g)

theorem recorded_new (t : ℕ) : Recorded [] (new t) :=
  ⟨rfl, fun _ _ h => absurd h (by simp [new]), fun _ _ h => absurd h List.not_mem_nil⟩

/-- A vote touches neither the deny list nor the recorded ticks. -/
theorem observe_frame (blake3 : List Byte → Hash32) (q : QuorumManager) (o : Hash32)
    (e : AiEvidence) : (q.observe blake3 o e).1.denied = q.denied ∧
      (q.observe blake3 o e).1.observedTicks = q.observedTicks := by
  unfold observe
  dsimp only
  repeat' split
  all_goals exact ⟨rfl, rfl⟩

/-- A denied origin stays denied. -/
theorem calls_denied_subset (q : QuorumManager) (cs : List QuorumCall) :
    q.denied ⊆ (q.calls blake3 cs).denied := by
  induction cs generalizing q with
  | nil => exact List.Subset.refl _
  | cons c cs ih =>
    refine List.Subset.trans ?_ (ih (q.call blake3 c))
    cases c with
    | observe o e => exact (observe_frame blake3 q o e).1.symm ▸ List.Subset.refl _
    | checkEquivocation n h => exact checkEntries_denied_subset _ _ _ q

/-- The nodes checked by `cs` that share a clock entry have the same data. -/
def ClocksAgree (cs : List QuorumCall) : Prop :=
  ∀ m h n h', .checkEquivocation m h ∈ cs → .checkEquivocation n h' ∈ cs →
    ∀ c ∈ m.vclock.entries, c ∈ n.vclock.entries → m.dataHash = n.dataHash

theorem ClocksAgree.of_append {cs ds : List QuorumCall} (h : ClocksAgree (cs ++ ds)) :
    ClocksAgree cs := fun m g n g' hm hn =>
  h m g n g' (List.mem_append_left _ hm) (List.mem_append_left _ hn)

theorem Recorded.observe {cs : List QuorumCall} (h : Recorded cs q) (o : Hash32) (e : AiEvidence) :
    Recorded (cs ++ [.observe o e]) (q.observe blake3 o e).1 := by
  obtain ⟨hdenied, hticks⟩ := observe_frame blake3 q o e
  have hmem : ∀ n g, QuorumCall.checkEquivocation n g ∈ cs ++ [.observe o e] ↔
      .checkEquivocation n g ∈ cs := by simp
  refine ⟨hdenied.trans h.quiet, fun c p hp => ?_, fun n g hn => ?_⟩
  · obtain ⟨n, g, hn, hrest⟩ := h.sound c p (hticks ▸ hp)
    exact ⟨n, g, (hmem n g).mpr hn, hrest⟩
  · rw [hticks]
    exact h.complete n g ((hmem n g).mp hn)

theorem Recorded.checkEquivocation {cs : List QuorumCall} (h : Recorded cs q) {n : DagNode}
    {g : Hash32} (hagree : ClocksAgree (cs ++ [.checkEquivocation n g])) :
    Recorded (cs ++ [.checkEquivocation n g]) (q.checkEquivocation n g).1 := by
  have hself : QuorumCall.checkEquivocation n g ∈ cs ++ [.checkEquivocation n g] :=
    List.mem_append_right _ (List.mem_singleton_self _)
  have hes : ∀ c ∈ n.vclock.entries, ∀ p, q.observedTicks.lookup c = some p → p.1 = n.dataHash := by
    intro c hc p hp
    obtain ⟨m, g', hm, hcm, hd⟩ := h.sound c p hp
    rw [← hd]
    exact hagree m g' n g (List.mem_append_left _ hm) hself c hcm hc
  obtain ⟨h1, h2, h3⟩ := checkEntries_of_agree (g := g) h.quiet hes
  refine ⟨h1, fun c p hp => ?_, fun m g' hm c hc => ?_⟩
  · by_cases hc : c ∈ n.vclock.entries
    · obtain ⟨g', hg'⟩ := h2 c hc
      refine ⟨n, g, hself, hc, ?_⟩
      exact congrArg Prod.fst (Option.some.inj (hg'.symm.trans hp))
    · obtain ⟨m, g', hm, hrest⟩ := h.sound c p ((h3 c hc).symm.trans hp)
      exact ⟨m, g', List.mem_append_left _ hm, hrest⟩
  · by_cases hcn : c ∈ n.vclock.entries
    · rw [hagree m g' n g hm hself c hc hcn]
      exact h2 c hcn
    · rcases List.mem_append.mp hm with hm | hm
      · obtain ⟨g'', hg''⟩ := h.complete m g' hm c hc
        exact ⟨g'', (h3 c hcn).trans hg''⟩
      · obtain ⟨rfl, rfl⟩ := QuorumCall.checkEquivocation.inj (List.mem_singleton.mp hm)
        exact absurd hc hcn

/-- If all checked nodes agree wherever their clocks meet, then nobody is denied. -/
theorem recorded_calls {cs : List QuorumCall} (hagree : ClocksAgree cs) :
    Recorded cs ((new t).calls blake3 cs) := by
  induction cs using List.reverseRecOn with
  | nil => exact recorded_new t
  | append_singleton cs c ih =>
    have h := ih hagree.of_append
    rw [calls_append]
    cases c with
    | observe o e => exact h.observe o e
    | checkEquivocation n g => exact h.checkEquivocation hagree

/-- A node that meets the clock of a node checked before, with other data, gets somebody denied. -/
theorem Recorded.denied_of_conflict {cs : List QuorumCall} (h : Recorded cs q) {m n : DagNode}
    {g g' : Hash32} (hm : .checkEquivocation m g ∈ cs) {c : String × U64}
    (hcm : c ∈ m.vclock.entries) (hcn : c ∈ n.vclock.entries) (hne : m.dataHash ≠ n.dataHash) :
    (q.checkEquivocation n g').1.denied ≠ [] := by
  obtain ⟨g'', hg''⟩ := h.complete m g hm c hcm
  exact checkEntries_of_conflict hcn hg'' hne

theorem clocksAgree_of_denied_eq_nil {cs : List QuorumCall}
    (hnil : ((new t).calls blake3 cs).denied = []) : ClocksAgree cs := by
  induction cs using List.reverseRecOn with
  | nil => exact fun _ _ _ _ h => absurd h List.not_mem_nil
  | append_singleton cs c ih =>
    rw [calls_append] at hnil
    have hsub : ((new t).calls blake3 cs).denied ⊆
        (((new t).calls blake3 cs).calls blake3 [c]).denied := calls_denied_subset _ [c]
    rw [hnil] at hsub
    have hagree := ih (List.subset_nil.mp hsub)
    have hrec : Recorded cs ((new t).calls blake3 cs) := recorded_calls hagree
    intro m h n h' hm hn e hem hen
    by_contra hne
    -- two earlier nodes agree, so one of the two nodes is the one checked last
    rcases List.mem_append.mp hm with hm | hm <;> rcases List.mem_append.mp hn with hn | hn
    · exact hne (hagree m h n h' hm hn e hem hen)
    · rw [← List.mem_singleton.mp hn] at hnil
      exact hrec.denied_of_conflict hm hem hen hne hnil
    · rw [← List.mem_singleton.mp hm] at hnil
      exact hrec.denied_of_conflict hn hen hem (Ne.symm hne) hnil
    · have heq := (List.mem_singleton.mp hm).trans (List.mem_singleton.mp hn).symm
      exact hne (congrArg DagNode.dataHash (QuorumCall.checkEquivocation.inj heq).1)

/-- In every run of calls on a new manager: nobody is ever denied if and only if any two checked nodes
that share a clock entry have the same data. -/
theorem never_denied_iff (blake3 : List Byte → Hash32) (t : ℕ) (cs : List QuorumCall) :
    (∀ done, done <+: cs → ((new t).calls blake3 done).denied = []) ↔ ClocksAgree cs := by
  constructor
  · intro h
    exact clocksAgree_of_denied_eq_nil (h cs (List.prefix_refl cs))
  · rintro h done ⟨rest, rfl⟩
    exact (recorded_calls h.of_append).quiet

/-! ## Authors that do not equivocate -/

/-- Nodes in the order of their creation, each with its author: an author gives each node a tick of its
own, and whatever else stands in a clock is the tick of an earlier node of another author. -/
structure HonestAuthors (authored : List (String × DagNode)) : Prop where
  own : ∀ a ∈ authored, ∃ tick, (a.1, tick) ∈ a.2.vclock.entries
  fresh : ∀ a ∈ authored, ∀ b ∈ authored, a.1 = b.1 →
    ∀ tick, (a.1, tick) ∈ a.2.vclock.entries → (b.1, tick) ∈ b.2.vclock.entries → a = b
  seen : ∀ before a after, authored = before ++ a :: after →
    ∀ c ∈ a.2.vclock.entries, c.1 ≠ a.1 → ∃ b ∈ before, b.1 = c.1 ∧ c ∈ b.2.vclock.entries

/-- Authors that do not equivocate and whose clocks refer to no other author are never denied. -/
theorem HonestAuthors.never_denied {authored : List (String × DagNode)} (h : HonestAuthors authored)
    (hown : ∀ a ∈ authored, ∀ c ∈ a.2.vclock.entries, c.1 = a.1) {cs : List QuorumCall}
    (hcs : ∀ n g, .checkEquivocation n g ∈ cs → n ∈ authored.map Prod.snd) :
    ((new t).calls blake3 cs).denied = [] := by
  refine (recorded_calls fun m g n g' hm hn c hcm hcn => ?_).quiet
  obtain ⟨a, ha, rfl⟩ := List.mem_map.mp (hcs m g hm)
  obtain ⟨b, hb, rfl⟩ := List.mem_map.mp (hcs n g' hn)
  obtain ⟨origin, tick⟩ := c
  obtain rfl : origin = a.1 := hown a ha _ hcm
  have hab : a.1 = b.1 := hown b hb _ hcn
  rw [h.fresh a ha b hb hab tick hcm (hab ▸ hcn)]

/-- The first node of the author "a1b2c3d4". -/
def firstNode : DagNode where
  parents := []
  signature := zeros 64
  dataHash := zeros 32
  vclock := ⟨[("a1b2c3d4", 1)], List.pairwise_singleton _ _⟩
  evidence := none

/-- The first node of the author "e5f60718", who has seen the first node of "a1b2c3d4". -/
def replyNode : DagNode where
  parents := []
  signature := zeros 64
  dataHash := ⟨List.replicate 32 1, length_ones⟩
  vclock := ⟨[("a1b2c3d4", 1), ("e5f60718", 1)], by decide⟩
  evidence := none

/-- Neither author equivocates, but the reply gets the author that it refers to denied. -/
theorem honest_author_denied :
    HonestAuthors [("a1b2c3d4", firstNode), ("e5f60718", replyNode)] ∧
    ∀ (blake3 : List Byte → Hash32), ((new 2).calls blake3
      [.checkEquivocation firstNode (firstNode.computeHash blake3),
        .checkEquivocation replyNode (replyNode.computeHash blake3)]).denied = ["a1b2c3d4"] := by
  refine ⟨⟨?_, ?_, ?_⟩, fun blake3 => rfl⟩
  · intro a ha
    rcases List.mem_pair.mp ha with rfl | rfl
    · exact ⟨1, List.mem_cons_self⟩
    · exact ⟨1, List.mem_cons_of_mem _ List.mem_cons_self⟩
  · intro a ha b hb hab
    rcases List.mem_pair.mp ha with rfl | rfl <;> rcases List.mem_pair.mp hb with rfl | rfl
    · intro _ _ _; rfl
    · exact absurd hab (by decide)
    · exact absurd hab (by decide)
    · intro _ _ _; rfl
  · intro before a after hsplit c hc hne
    match before with
    | [] =>
      obtain ⟨rfl, -⟩ := List.cons.inj hsplit
      exact absurd (congrArg Prod.fst (List.mem_singleton.mp hc)) hne
    | [b] =>
      obtain ⟨rfl, htail⟩ := List.cons.inj hsplit
      obtain ⟨rfl, -⟩ := List.cons.inj htail
      rcases List.mem_pair.mp hc with rfl | rfl
      · exact ⟨_, List.mem_cons_self, rfl, List.mem_cons_self⟩
      · exact absurd rfl hne
    | _ :: _ :: _ => simp at hsplit

end QuorumManager

end Aimp.Crdt
