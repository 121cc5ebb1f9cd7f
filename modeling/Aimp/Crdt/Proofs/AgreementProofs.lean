import Aimp.Crdt.Proofs.QuorumProofs

/-!
# Agreement across replicas

Replicas keep one quorum manager each and are called in any order; what one replica is told, another
may be told in another order, several times or never. If few enough origins give different replicas
different decisions, then no two replicas verify a prompt with different decisions.
-/

namespace Aimp.Crdt

namespace QuorumManager

variable {ι : Type*} {blake3 : List Byte → Hash32} {t : ℕ}

section Replicas

variable [DecidableEq ι]

/-- The quorum managers of the replicas `ι` after the calls `ds`, each made at one replica. -/
def replicas (blake3 : List Byte → Hash32) (t : ℕ) (ds : List (ι × QuorumCall)) : ι → QuorumManager :=
  ds.foldl (fun s d => Function.update s d.1 ((s d.1).call blake3 d.2)) fun _ => new t

/-- The calls made at a replica. -/
def callsAt (ds : List (ι × QuorumCall)) (r : ι) : List QuorumCall :=
  (ds.filter fun d => d.1 = r).map Prod.snd

theorem mem_callsAt {ds : List (ι × QuorumCall)} {r : ι} {c : QuorumCall} :
    c ∈ callsAt ds r ↔ (r, c) ∈ ds := by
  unfold callsAt
  simp only [List.mem_map, List.mem_filter, decide_eq_true_eq]
  constructor
  · rintro ⟨d, ⟨hd, rfl⟩, rfl⟩
    exact hd
  · intro h
    exact ⟨(r, c), ⟨h, rfl⟩, rfl⟩

/-- A replica is in the state that its own calls have put it in. -/
theorem replicas_eq (ds : List (ι × QuorumCall)) (r : ι) :
    replicas blake3 t ds r = (new t).calls blake3 (callsAt ds r) := by
  induction ds using List.reverseRecOn with
  | nil => rfl
  | append_singleton ds d ih =>
    have hstep : replicas blake3 t (ds ++ [d]) = Function.update (replicas blake3 t ds) d.1
        ((replicas blake3 t ds d.1).call blake3 d.2) := List.foldl_append
    have hcalls : callsAt (ds ++ [d]) r = callsAt ds r ++ callsAt [d] r := by
      simp [callsAt]
    rw [hstep, hcalls, calls_append, ← ih]
    by_cases hr : d.1 = r
    · subst hr
      rw [Function.update_self, show callsAt [d] d.1 = [d.2] by simp [callsAt]]
      rfl
    · rw [Function.update_of_ne (Ne.symm hr), show callsAt [d] r = [] by simp [callsAt, hr]]
      rfl

/-- A call of `observe` at replica `r` in the course of `ds` returns true for this vote. -/
def Verifies (blake3 : List Byte → Hash32) (t : ℕ) (ds : List (ι × QuorumCall)) (r : ι)
    (origin : Hash32) (evidence : AiEvidence) : Prop :=
  ∃ done rest, ds = done ++ (r, .observe origin evidence) :: rest ∧
    ((replicas blake3 t done r).observe blake3 origin evidence).2 = true

end Replicas

/-- In the course of `ds` the origin presents different decisions for the prompt, be it to one replica
or to several. -/
def Equivocates (ds : List (ι × QuorumCall)) (prompt : String) (origin : Hash32) : Prop :=
  ∃ r e r' e', (r, .observe origin e) ∈ ds ∧ (r', .observe origin e') ∈ ds ∧
    e.prompt = prompt ∧ e'.prompt = prompt ∧ e.decision ≠ e'.decision

/-- The texts of the votes. -/
def texts (ds : List (ι × QuorumCall)) : Set String :=
  {s | ∃ r o e, (r, .observe o e) ∈ ds ∧ (s = e.prompt ∨ s = e.decision)}

section Agreement

variable [DecidableEq ι] {ds : List (ι × QuorumCall)} {r : ι} {o : Hash32} {e : AiEvidence}

/-- A replica that verifies a prompt has a ballot with `t` voters for the decision, and each of them has
voted so at this replica. -/
theorem Verifies.exists_ballot (ht : 0 < t) (h : Verifies blake3 t ds r o e) :
    ∃ b : Ballot Hash32 Hash32 t, (b.voters (blake3 (asBytes e.decision))).card = t ∧
      ∀ w ∈ b.voters (blake3 (asBytes e.decision)), ∃ f, (r, .observe w f) ∈ ds ∧
        blake3 (asBytes f.prompt) = blake3 (asBytes e.prompt) ∧
        blake3 (asBytes f.decision) = blake3 (asBytes e.decision) := by
  obtain ⟨done, rest, rfl, htrue⟩ := h
  rw [replicas_eq] at htrue
  obtain ⟨b₀, hb₀⟩ := exists_refines_calls ht blake3 (callsAt done r)
  obtain ⟨b, hb⟩ := exists_refines_calls ht blake3 (callsAt done r ++ [.observe o e])
  have hcount := ((hb₀.observe_true_iff o e).mp htrue).2
  refine ⟨b (blake3 (asBytes e.prompt)), ?_, fun w hw => ?_⟩
  · rw [hb.card, calls_append, ← getSupportCount_eq]
    exact hcount
  · rw [hb.voters, List.mem_toFinset] at hw
    obtain ⟨f, hf, hp, hd⟩ := mem_votersFor_calls hw
    refine ⟨f, ?_, hp, hd⟩
    rcases List.mem_append.mp hf with hf | hf
    · exact List.mem_append_left _ (mem_callsAt.mp hf)
    · rw [List.mem_singleton.mp hf]
      exact List.mem_append_right _ List.mem_cons_self

/-- Where BLAKE3 has no collision among the texts of the votes: if the votes for a prompt come from `n`
origins, of which at most `f` ever present different decisions for it, and `n + f < 2 * t`, then `observe`
never returns true for the prompt with different decisions, at any replicas. -/
theorem agreement {n f : ℕ} (origins byzantine : Finset Hash32) {p : String}
    (hinj : Set.InjOn (fun s => blake3 (asBytes s)) (texts ds))
    (horigins : ∀ r o e, (r, .observe o e) ∈ ds → e.prompt = p → o ∈ origins)
    (hbyzantine : ∀ o, Equivocates ds p o → o ∈ byzantine)
    (hn : origins.card = n) (hf : byzantine.card ≤ f) (ht : n + f < 2 * t)
    {r r' : ι} {o o' : Hash32} {e e' : AiEvidence} (h : Verifies blake3 t ds r o e)
    (h' : Verifies blake3 t ds r' o' e') (hp : e.prompt = p) (hp' : e'.prompt = p) :
    e.decision = e'.decision := by
  have hmem : (r, .observe o e) ∈ ds := by
    obtain ⟨done, rest, rfl, -⟩ := h
    exact List.mem_append_right _ List.mem_cons_self
  have hmem' : (r', .observe o' e') ∈ ds := by
    obtain ⟨done, rest, rfl, -⟩ := h'
    exact List.mem_append_right _ List.mem_cons_self
  have hprompt : ∀ {s w g}, (s, .observe w g) ∈ ds →
      blake3 (asBytes g.prompt) = blake3 (asBytes p) → g.prompt = p := fun hg heq =>
    hinj ⟨_, _, _, hg, Or.inl rfl⟩ ⟨r, o, e, hmem, Or.inl hp.symm⟩ heq
  have hdecision : ∀ {s w g s' w' g'}, (s, .observe w g) ∈ ds → (s', .observe w' g') ∈ ds →
      blake3 (asBytes g.decision) = blake3 (asBytes g'.decision) → g.decision = g'.decision :=
    fun hg hg' heq => hinj ⟨_, _, _, hg, Or.inr rfl⟩ ⟨_, _, _, hg', Or.inr rfl⟩ heq
  obtain ⟨b, hb, hvoters⟩ := h.exists_ballot (by omega)
  obtain ⟨b', hb', hvoters'⟩ := h'.exists_ballot (by omega)
  rw [hp] at hvoters
  rw [hp'] at hvoters'
  refine hdecision hmem hmem' (Ballot.agree (V := origins) (F := byzantine) hb hb' ?_ ?_ ?_ ?_)
  · intro w hw
    obtain ⟨g, hg, hgp, -⟩ := hvoters w hw
    exact horigins r w g hg (hprompt hg hgp)
  · intro w hw
    obtain ⟨g, hg, hgp, -⟩ := hvoters' w hw
    exact horigins r' w g hg (hprompt hg hgp)
  · omega
  · -- an origin that voted for both decisions and is not Byzantine gave the same decision twice
    intro w hw hvote hvote'
    obtain ⟨g, hg, hgp, hgd⟩ := hvoters w hvote
    obtain ⟨g', hg', hgp', hgd'⟩ := hvoters' w hvote'
    have hsame : g.decision = g'.decision := by
      by_contra hne
      exact hw (hbyzantine w ⟨r, g, r', g', hg, hg', hprompt hg hgp, hprompt hg' hgp', hne⟩)
    rw [← hgd, ← hgd', hsame]

end Agreement

/-! ### Four origins and two replicas -/

/-- A hash without collisions among a few texts: their first byte. -/
def firstByte (b : List Byte) : Hash32 := ⟨b.headD 0 :: List.replicate 31 0, by simp⟩

/-- A vote on the scan. -/
def scanVote (r : ℕ) (o : Byte) (decision : String) : ℕ × QuorumCall :=
  (r, .observe ⟨o :: List.replicate 31 0, length_leading o⟩ ⟨"scan", decision, zeros 32, 0⟩)

/-- Origin 4 tells replica 0 to allow the scan and replica 1 to deny it. -/
def fourOrigins : List (ℕ × QuorumCall) :=
  [scanVote 0 4 "allow", scanVote 1 4 "deny", scanVote 0 1 "allow", scanVote 1 3 "allow",
    scanVote 1 2 "allow", scanVote 0 2 "allow", scanVote 0 2 "allow", scanVote 1 1 "allow"]

theorem agreement_four_origins :
    (∃ o e, Verifies firstByte 3 fourOrigins 0 o e ∧ e.prompt = "scan" ∧ e.decision = "allow") ∧
    (∃ o, Equivocates fourOrigins "scan" o) ∧
    ∀ r o e, Verifies firstByte 3 fourOrigins r o e → e.prompt = "scan" → e.decision = "allow" := by
  let origin : Byte → Hash32 := fun o => ⟨o :: List.replicate 31 0, by simp⟩
  have hmem : ∀ r o e, (r, QuorumCall.observe o e) ∈ fourOrigins →
      o ∈ [origin 1, origin 2, origin 3, origin 4] ∧ e.prompt = "scan" ∧
        (e.decision = "allow" ∨ o = origin 4 ∧ e.decision = "deny") := by
    intro r o e h
    simp only [fourOrigins, scanVote, List.mem_cons, Prod.mk.injEq, QuorumCall.observe.injEq,
      List.not_mem_nil, or_false] at h
    rcases h with h | h | h | h | h | h | h | h
    all_goals obtain ⟨-, rfl, rfl⟩ := h; decide
  have hinj : Set.InjOn (fun s => firstByte (asBytes s)) (texts fourOrigins) := by
    have htexts : ∀ s ∈ texts fourOrigins, s = "scan" ∨ s = "allow" ∨ s = "deny" := by
      rintro s ⟨r, o, e, h, rfl | rfl⟩
      · exact Or.inl (hmem r o e h).2.1
      · exact Or.inr ((hmem r o e h).2.2.imp_right And.right)
    intro s hs s' hs' h
    rcases htexts s hs with rfl | rfl | rfl <;> rcases htexts s' hs' with rfl | rfl | rfl
    all_goals first | rfl | exact absurd h (by decide)
  have hverifies : Verifies firstByte 3 fourOrigins 0 (origin 2) ⟨"scan", "allow", zeros 32, 0⟩ :=
    ⟨fourOrigins.take 5, fourOrigins.drop 6, rfl, by decide +kernel⟩
  refine ⟨⟨_, _, hverifies, rfl, rfl⟩, ⟨origin 4, 0, _, 1, _, List.mem_cons_self,
    List.mem_cons_of_mem _ List.mem_cons_self, rfl, rfl, by decide⟩, fun r o e h hp => ?_⟩
  refine agreement (n := 4) (f := 1) {origin 1, origin 2, origin 3, origin 4} {origin 4} hinj ?_ ?_
    (by decide) (by decide) (by decide) h hverifies hp rfl
  · intro r o e h _
    simpa using (hmem r o e h).1
  · rintro o ⟨r, e, r', e', h, h', -, -, hne⟩
    rw [Finset.mem_singleton]
    rcases (hmem r o e h).2.2 with hd | ⟨ho, -⟩
    · rcases (hmem r' o e' h').2.2 with hd' | ⟨ho, -⟩
      · exact absurd (hd.trans hd'.symm) hne
      · exact ho
    · exact ho

end QuorumManager

end Aimp.Crdt
