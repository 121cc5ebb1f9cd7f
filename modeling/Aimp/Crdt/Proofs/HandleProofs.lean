import Aimp.Crdt.Handle
import Aimp.Crdt.Proofs.CausalProofs
import Aimp.Crdt.Proofs.GcProofs

/-!
# Concurrent callers of the actor

Whatever the callers of one actor see could have been seen if the actor had been called sequentially, so
that what is proved of runs of the actor holds for concurrent callers. One consequence is that the DAG
records the order of appends: if one append has returned before another one begins, the node of the first is
an ancestor of the node of the second, whatever happens in between.
-/

namespace Aimp.Crdt

open Frontier Relation

variable {blake3 : List Byte → Hash32}

namespace CrdtActor

variable {t u : List DagNode × CrdtActor} {m : CrdtMsg} {r : CrdtResp}

theorem Serve.step (h : Serve blake3 t m r u) : Step blake3 t m u := by
  cases h with
  | mk m disk horder => exact .mk m disk horder

variable (blake3) in
/-- A message handled in the iteration order at hand. -/
theorem Serve.here (t : List DagNode × CrdtActor) (m : CrdtMsg) (disk : Hash32 → Bool) :
    Serve blake3 t m (t.2.handle blake3 disk m).2
      (t.1 ++ t.2.accepts m, (t.2.handle blake3 disk m).1) :=
  .mk m disk (.refl _)

theorem belowHeads_withHeads {s : CrdtActor} {D : List DagNode} {heads : List Hash32}
    (h : BelowHeads blake3 D s) (hp : heads.Perm s.engine.heads) :
    BelowHeads blake3 D (s.withHeads heads) := by
  intro n hn
  obtain ⟨f, hf, hpath⟩ := h n hn
  exact ⟨f, hp.mem_iff.mpr hf, hpath⟩

/-- `Append` answers with the hash of its node. -/
theorem handleAppend_hash (disk : Hash32 → Bool) (s : CrdtActor) (dataHash : Hash32)
    (signature : Signature) (vclock : VClock) (evidence : Option AiEvidence) :
    (s.handleAppend blake3 disk dataHash signature vclock evidence).2 =
      (s.engine.mutation dataHash signature vclock evidence).computeHash blake3 := by
  unfold handleAppend
  dsimp only
  split <;> rfl

/-- A hash is the answer to an `Append`, and belongs to its node, which is above all others. -/
theorem Serve.hash {h : Hash32} (hserve : Serve blake3 t m (.hash h) u)
    (hb : BelowHeads blake3 t.1 t.2) : ∃ n ∈ u.1, n.computeHash blake3 = h ∧
      ∀ x ∈ t.1, Ancestor blake3 u.1 x n := by
  generalize hr : CrdtResp.hash h = r at hserve
  cases hserve with
  | @mk D s m disk heads horder =>
    cases m with
    | append dataHash signature vclock evidence =>
      have hh := (CrdtResp.hash.inj hr).trans (handleAppend_hash disk _ dataHash signature vclock evidence)
      refine ⟨_, List.mem_append_right _ (List.mem_singleton_self _), hh.symm, fun x hx => ?_⟩
      exact (belowHeads_withHeads hb horder).mutation dataHash signature vclock evidence hx
    | merge nodes => cases hr
    | getRoot => cases hr
    | getDiff remoteHeads => cases hr

/-- The root that is answered is the root of the heads. -/
theorem Serve.root {h : Hash32} (hserve : Serve blake3 t .getRoot (.root h) u)
    (hc : t.2.engine.Coherent blake3) : h = rootOf blake3 t.2.engine.heads := by
  generalize hr : CrdtResp.root h = r at hserve
  generalize hm : CrdtMsg.getRoot = m at hserve
  cases hserve with
  | @mk D s m disk heads horder =>
    subst hm
    have hroot := (MerkleCrdtEngine.getMerkleRoot_spec (coherent_withHeads hc horder)).1
    exact (CrdtResp.root.inj hr).trans (hroot.trans (rootOf_perm horder))

theorem accepted_of_run {ms : List CrdtMsg} (hrun : Run (Step blake3) t ms u) : ∀ n ∈ t.1, n ∈ u.1 :=
  hrun.invariant (P := fun u => ∀ n ∈ t.1, n ∈ u.1) (fun _ => id)
    fun h hstep n hn => hstep.accepted_mono n (h n hn)

theorem belowHeads_of_run {store : Option PersistentStore}
    (hstore : ∀ p, store = some p → p.Honest blake3) {threshold gcThreshold : ℕ} {ms : List CrdtMsg}
    (hrun : Run (Step blake3) (storedNodes store, new store threshold gcThreshold) ms t)
    (hac : Acyclic (nodeCards blake3 t.1)) : BelowHeads blake3 t.1 t.2 := by
  induction hrun with
  | nil => exact belowHeads_new hstore threshold gcThreshold hac
  | @snoc _ _ t u hrun hlast ih =>
    obtain ⟨D, s⟩ := t
    obtain ⟨D', s'⟩ := u
    have hac' : Acyclic (nodeCards blake3 D) := hac.mono (nodeCards_mono hlast.accepted_mono)
    obtain ⟨hc, hD⟩ := run_coherent hstore hrun hac'
    exact hlast.belowHeads hac hc hD (ih hac')

end CrdtActor

namespace CrdtHandle

variable {κ : Type*} {t u : List DagNode × CrdtActor} {log : List (κ × CrdtMsg × CrdtResp)}

/-- The messages of a log are a run of the actor. -/
theorem run_of_serves (hrun : Run (fun s x t => CrdtActor.Serve blake3 s x.2.1 x.2.2 t) t log u) :
    Run (CrdtActor.Step blake3) t (log.map fun x => x.2.1) u := by
  induction hrun with
  | nil => exact .nil
  | snoc _ hlast ih =>
    rw [List.map_append, List.map_singleton]
    exact ih.snoc hlast.step

variable [DecidableEq κ] {capacity : ℕ} {store : Option PersistentStore} {threshold gcThreshold : ℕ}
  {as : List (Mailbox.Action κ CrdtMsg CrdtResp)} {S : CrdtHandle κ}

/-- Concurrent callers of one actor, over any mailbox, some of which give up: the calls that were handled,
in the order in which the actor handled them, are a run of the actor; each was sent by its caller, is handled
once, and has got the answer that the caller has seen; calls that do not overlap are handled in their order;
every call that has begun and has not been given up waits, is in the mailbox or has been handled; the mailbox
never holds more than its capacity; and every root that was answered is the root of the frontier at its place
in this order. -/
theorem linearizable (hstore : ∀ p, store = some p → p.Honest blake3)
    (hrun : Run (Step blake3 capacity)
      (Mailbox.start (storedNodes store, CrdtActor.new store threshold gcThreshold)) as S)
    (hac : Acyclic (nodeCards blake3 S.server.1)) :
    Run (CrdtActor.Step blake3) (storedNodes store, CrdtActor.new store threshold gcThreshold)
      (S.log.map fun x => x.2.1) S.server ∧
    (S.log.map Prod.fst).Nodup ∧ (∀ k m r, (k, m, r) ∈ S.log → .invoke k m ∈ as) ∧
    (∀ k r, .ret k r ∈ as → ∃ m, (k, m, r) ∈ S.log) ∧
    (∀ before after, as = before ++ after → ∀ k l r m, .ret k r ∈ before → .invoke l m ∈ after →
      ∃ done rest, S.log = done ++ rest ∧ k ∈ done.map Prod.fst ∧ l ∉ done.map Prod.fst) ∧
    (∀ k m, .invoke k m ∈ as → .cancel k ∉ as →
      (∃ n, S.calls k = .waiting n) ∨ k ∈ S.mailbox.map Prod.fst ∨ k ∈ S.log.map Prod.fst) ∧
    S.mailbox.length ≤ capacity ∧
    ∀ done k r rest, S.log = done ++ (k, .getRoot, .root r) :: rest →
      ∃ t, Run (CrdtActor.Step blake3)
          (storedNodes store, CrdtActor.new store threshold gcThreshold) (done.map fun x => x.2.1) t ∧
        (∀ h, h ∈ t.2.engine.heads ↔ h ∈ tips t.2.engine.arena.cards) ∧
        r = rootOf blake3 t.2.engine.heads := by
  obtain ⟨hserves, hnodup, hsent, hret, horder, hkept, hfull⟩ := Mailbox.atomic_calls hrun
  refine ⟨run_of_serves hserves, hnodup, hsent, hret, horder, hkept, hfull, ?_⟩
  intro done k r rest hlog
  rw [hlog] at hserves
  obtain ⟨t, v, hdone, hserve, hrest⟩ := hserves.split_at
  have hrun' := run_of_serves hdone
  have hmono : ∀ n ∈ t.1, n ∈ S.server.1 := fun n hn =>
    CrdtActor.accepted_of_run (run_of_serves hrest) n (hserve.step.accepted_mono n hn)
  obtain ⟨hc, -⟩ := CrdtActor.run_coherent hstore hrun' (hac.mono (nodeCards_mono hmono))
  exact ⟨t, hrun', hc.mem_heads, hserve.root hc⟩

/-- If an append has returned before another one begins, its node is an ancestor of the node of the other
one, however many callers there are, whatever they merge in between, and whatever the garbage collector
drops. -/
theorem appends_causal (hstore : ∀ p, store = some p → p.Honest blake3)
    {before after : List (Mailbox.Action κ CrdtMsg CrdtResp)}
    (hrun : Run (Step blake3 capacity)
      (Mailbox.start (storedNodes store, CrdtActor.new store threshold gcThreshold))
      (before ++ after) S)
    (hac : Acyclic (nodeCards blake3 S.server.1)) {k l : κ} {a b : Hash32} {m : CrdtMsg}
    (hk : .ret k (.hash a) ∈ before) (hinvoke : .invoke l m ∈ after) (hl : .ret l (.hash b) ∈ after) :
    TransGen (Child (nodeCards blake3 S.server.1)) a b := by
  have hS := Mailbox.sound_of_run hrun
  have hnodup := (List.nodup_append.mp hS.nodup).1
  obtain ⟨done, rest, hlog, hkd, hld⟩ := Mailbox.real_time hrun rfl hk hinvoke
  obtain ⟨mk, hkl⟩ := hS.ret k _ (List.mem_append_left _ hk)
  obtain ⟨ml, hll⟩ := hS.ret l _ (List.mem_append_right _ hl)
  have hserves := Mailbox.serves_log hrun
  rw [hlog] at hkl hll hnodup hserves
  -- the entry of the first call is in the first part of the log, that of the second one is not
  have hkl : (k, mk, .hash a) ∈ done := by
    refine (List.mem_append.mp hkl).resolve_right fun hmem => ?_
    rw [List.map_append] at hnodup
    exact (List.nodup_append.mp hnodup).2.2 k hkd k (List.mem_map.mpr ⟨_, hmem, rfl⟩) rfl
  have hlr : (l, ml, .hash b) ∈ rest :=
    (List.mem_append.mp hll).resolve_left fun hmem => hld (List.mem_map.mpr ⟨_, hmem, rfl⟩)
  obtain ⟨d1, d2, rfl⟩ := List.append_of_mem hkl
  obtain ⟨r1, r2, rfl⟩ := List.append_of_mem hlr
  obtain ⟨t, hdone, hrest⟩ := hserves.split
  obtain ⟨t1, t2, hrun1, hserve1, hrun2⟩ := hdone.split_at
  obtain ⟨t3, t4, hrun3, hserve3, hrun4⟩ := hrest.split_at
  have hmono4 : ∀ n ∈ t4.1, n ∈ S.server.1 := CrdtActor.accepted_of_run (run_of_serves hrun4)
  have hmono3 : ∀ n ∈ t3.1, n ∈ S.server.1 := fun n hn => hmono4 n (hserve3.step.accepted_mono n hn)
  have hmono2 : ∀ n ∈ t2.1, n ∈ t3.1 := fun n hn =>
    CrdtActor.accepted_of_run (run_of_serves hrun3) n
      (CrdtActor.accepted_of_run (run_of_serves hrun2) n hn)
  have hbelow : ∀ {t} {ms}, Run (CrdtActor.Step blake3)
      (storedNodes store, CrdtActor.new store threshold gcThreshold) ms t →
      (∀ n ∈ t.1, n ∈ S.server.1) → CrdtActor.BelowHeads blake3 t.1 t.2 := fun hrun hmono =>
    CrdtActor.belowHeads_of_run hstore hrun (hac.mono (nodeCards_mono hmono))
  have hrun3' := (run_of_serves (hdone.trans hrun3))
  obtain ⟨x, hx, rfl, -⟩ := hserve1.hash (hbelow (run_of_serves hrun1) fun n hn =>
    hmono3 n (hmono2 n (hserve1.step.accepted_mono n hn)))
  obtain ⟨y, hy, rfl, hup⟩ := hserve3.hash (hbelow hrun3' hmono3)
  exact (hup x (hmono2 x hx)).mono hmono4

/-! ### Two callers -/

/-- The append of a node without vector clock and evidence. -/
def plainAppend (i : Byte) : CrdtMsg :=
  .append (CrdtActor.plainNode [] i).dataHash (zeros 64) ⟨[], VClock.sorted_nil⟩ none

/-- Two callers append a node each, one after the other. -/
theorem exists_run_two_appends : ∃ (a b : Hash32) (S : CrdtHandle Bool),
    Run (Step CrdtActor.lastBytes 100) (Mailbox.start (storedNodes none, CrdtActor.new none 2 1000))
      ([.invoke true (plainAppend 1), .enqueue true, .serve, .ret true (.hash a)] ++
        [.invoke false (plainAppend 2), .enqueue false, .serve, .ret false (.hash b)]) S ∧
    S.server.1 = [CrdtActor.plainNode [] 1, CrdtActor.plainNode [CrdtActor.plainHash 1] 2] := by
  obtain ⟨S, hrun, hserver, hmail, -, hcalls⟩ := Mailbox.exists_run_call (k := true)
    (S := Mailbox.start (storedNodes none, CrdtActor.new none 2 1000)) rfl rfl
    (show 0 < 100 by decide) (CrdtActor.Serve.here CrdtActor.lastBytes _ (plainAppend 1) fun _ => true)
  obtain ⟨T, hrun', hserver', -⟩ := Mailbox.exists_run_call (k := false)
    (hcalls false (by simp)) hmail (show 0 < 100 by decide) (CrdtActor.Serve.here CrdtActor.lastBytes S.server (plainAppend 2) fun _ => true)
  rw [hserver] at hrun' hserver'
  refine ⟨_, _, T, hrun.trans hrun', ?_⟩
  rw [hserver']
  decide +kernel

theorem acyclic_two_appends : Acyclic (nodeCards CrdtActor.lastBytes
    [CrdtActor.plainNode [] 1, CrdtActor.plainNode [CrdtActor.plainHash 1] 2]) := by
  apply acyclic_of_level CrdtActor.level
  rintro p h ⟨_, ⟨n, hn, rfl, rfl⟩, hp⟩
  simp only [List.mem_cons, List.not_mem_nil, or_false] at hn
  rcases hn with rfl | rfl
  · cases hp
  · rw [CrdtActor.computeHash_plainNode, List.mem_singleton.mp hp]
    decide

/-- Both calls are handled, each once. -/
theorem linearizable_two_appends : ∃ (a b : Hash32) (S : CrdtHandle Bool),
    (∃ m, (true, m, .hash a) ∈ S.log) ∧ (∃ m, (false, m, .hash b) ∈ S.log) ∧
      (S.log.map Prod.fst).Nodup := by
  obtain ⟨a, b, S, hrun, hD⟩ := exists_run_two_appends
  obtain ⟨-, hnodup, -, hret, -⟩ := linearizable (by simp) hrun (hD ▸ acyclic_two_appends)
  exact ⟨a, b, S, hret true _ (by simp), hret false _ (by simp), hnodup⟩

/-- The second node is above the first one. -/
theorem appends_causal_two_appends : ∃ (a b : Hash32) (D : List DagNode),
    TransGen (Child (nodeCards CrdtActor.lastBytes D)) a b := by
  obtain ⟨a, b, S, hrun, hD⟩ := exists_run_two_appends
  exact ⟨a, b, S.server.1, appends_causal (by simp) hrun (hD ▸ acyclic_two_appends)
    (k := true) (l := false) (m := plainAppend 2) (by simp) (by simp) (by simp)⟩

end CrdtHandle

end Aimp.Crdt
