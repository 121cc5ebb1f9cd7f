import Aimp.Crdt.Disk
import Aimp.Crdt.Proofs.ConvergenceProofs

/-!
# Starts over an old state directory

The storage key comes from the identity, and `main` draws a new identity at every start. What earlier
runs have saved is therefore unreadable, and recovery skips it without a trace.
-/

namespace Aimp.Crdt

variable {P : StoreCrypto} {seed : ByteArr 32} {threshold gcThreshold : ℕ}

/-- The key under which a process with this seed stores its nodes. -/
def storageKey (P : StoreCrypto) (seed : ByteArr 32) : Option (ByteArr 32) :=
  P.hkdf hkdfSalt (Identity.new P seed).noiseStaticSecret (asBytes "aimp-chacha20poly1305")

/-- What has been encrypted under one key does not decrypt under another. -/
def StoreCrypto.OnlyOwnKey (P : StoreCrypto) : Prop :=
  ∀ key key' n n' p c, P.encrypt key n p = some c → key ≠ key' → P.decrypt key' n' c = none

/-- Every node whose `save_node` has succeeded in an earlier run is in the arena of the actor that `main`
starts. -/
def Survives (P : StoreCrypto) (runs : List ProcessRun) (seed : ByteArr 32) (ok : Bool)
    (threshold gcThreshold : ℕ) : Prop :=
  ∀ c ∈ (StateDir.after P runs).saved,
    (mainActor P (StateDir.after P runs) seed ok threshold gcThreshold).engine.arena.getByHash c.1 =
      some c.2

theorem open_eq_some {db : DagTable} {ok : Bool} {s : DiskStore}
    (h : DiskStore.open P db (Identity.new P seed).noiseStaticSecret ok = some s) :
    s.db = db ∧ storageKey P seed = some s.cipher := by
  unfold DiskStore.open at h
  split at h
  · obtain ⟨key, hkey, rfl⟩ := Option.map_eq_some_iff.mp h
    exact ⟨rfl, hkey⟩
  · exact absurd h.symm (Option.some_ne_none s)

/-- A call of `save_node` fails and changes nothing, or it succeeds and writes the ciphertext. -/
theorem saveCall_cases (acc : DiskStore × List (Hash32 × DagNode)) (c : Hash32 × DagNode × Bool) :
    saveCall P acc c = acc ∨ ∃ ciphertext,
      (P.toVec c.2.1).bind (P.encrypt acc.1.cipher (DiskStore.nonce c.1)) = some ciphertext ∧
      saveCall P acc c =
        (⟨acc.1.db.insert c.1.val ciphertext, acc.1.cipher⟩, acc.2 ++ [(c.1, c.2.1)]) := by
  obtain ⟨s, saved⟩ := acc
  obtain ⟨hash, node, ok⟩ := c
  unfold saveCall DiskStore.saveNode
  dsimp only
  cases henc : (P.toVec node).bind (P.encrypt s.cipher (DiskStore.nonce hash)) with
  | none => exact Or.inl rfl
  | some ciphertext =>
    cases ok with
    | false => exact Or.inl rfl
    | true => exact Or.inr ⟨ciphertext, rfl, rfl⟩

/-- Runs of the node process, by induction: what a call of `save_node` keeps is kept by all runs. -/
theorem stateDir_induction {K : ByteArr 32 → Prop} {Q : DagTable → List (Hash32 × DagNode) → Prop}
    {runs : List ProcessRun} (hkeys : ∀ r ∈ runs, ∀ key, storageKey P r.seed = some key → K key)
    (hempty : Q ∅ [])
    (hsave : ∀ s saved c, K s.cipher → Q s.db saved →
      Q (saveCall P (s, saved) c).1.db (saveCall P (s, saved) c).2 ∧
        (saveCall P (s, saved) c).1.cipher = s.cipher) :
    Q (StateDir.after P runs).db (StateDir.after P runs).saved := by
  have hcalls : ∀ (l : List (Hash32 × DagNode × Bool)) (acc : DiskStore × List (Hash32 × DagNode)),
      K acc.1.cipher → Q acc.1.db acc.2 →
      Q (l.foldl (saveCall P) acc).1.db (l.foldl (saveCall P) acc).2 := by
    intro l
    induction l with
    | nil => exact fun acc _ hQ => hQ
    | cons c l ih =>
      intro acc hK hQ
      obtain ⟨hQ', hcipher⟩ := hsave acc.1 acc.2 c hK hQ
      exact ih _ (by rw [hcipher]; exact hK) hQ'
  have hruns : ∀ (l : List ProcessRun) (d : StateDir), (∀ r ∈ l, r ∈ runs) → Q d.db d.saved →
      Q (l.foldl (StateDir.run P) d).db (l.foldl (StateDir.run P) d).saved := by
    intro l
    induction l with
    | nil => exact fun d _ hQ => hQ
    | cons r l ih =>
      intro d hl hQ
      refine ih _ (fun r' hr' => hl r' (List.mem_cons_of_mem r hr')) ?_
      unfold StateDir.run
      split
      · rename_i s hopen
        obtain ⟨hdb, hkey⟩ := open_eq_some hopen
        exact hcalls r.saves (s, d.saved) (hkeys r (hl r List.mem_cons_self) _ hkey) (hdb ▸ hQ)
      · exact hQ
  exact hruns runs ⟨∅, []⟩ (fun _ h => h) hempty

/-! ## A new identity -/

/-- Every record has been encrypted under one of the keys. -/
def WrittenUnder (P : StoreCrypto) (K : ByteArr 32 → Prop) (db : DagTable) : Prop :=
  ∀ e ∈ db.entries, ∃ key n p, K key ∧ P.encrypt key n p = some e.2

theorem WrittenUnder.insert {K : ByteArr 32 → Prop} {db : DagTable} {k v : List Byte}
    (h : WrittenUnder P K db) (hv : ∃ key n p, K key ∧ P.encrypt key n p = some v) :
    WrittenUnder P K (db.insert k v) := by
  intro e he
  rw [AList.entries_insert] at he
  rcases List.mem_cons.mp he with rfl | he
  · exact hv
  · exact h e ((List.kerase_sublist _ _).subset he)

/-- The records in the state directory have been encrypted under the keys of the runs. -/
theorem writtenUnder_after (runs : List ProcessRun) :
    WrittenUnder P (fun key => ∃ r ∈ runs, storageKey P r.seed = some key)
      (StateDir.after P runs).db := by
  refine stateDir_induction (K := fun key => ∃ r ∈ runs, storageKey P r.seed = some key)
    (Q := fun db _ => WrittenUnder P _ db) (fun r hr key hkey => ⟨r, hr, hkey⟩)
    (fun e he => absurd he List.not_mem_nil) ?_
  intro s saved c hK hQ
  rcases saveCall_cases (P := P) (s, saved) c with heq | ⟨ciphertext, henc, heq⟩
  · rw [heq]
    exact ⟨hQ, rfl⟩
  · rw [heq]
    obtain ⟨p, -, hp⟩ := Option.bind_eq_some_iff.mp henc
    exact ⟨hQ.insert ⟨_, _, p, hK, hp⟩, rfl⟩

/-- Nothing that has been written under other keys is readable. -/
theorem readable_eq_nil (hown : P.OnlyOwnKey) {K : ByteArr 32 → Prop} {s : DiskStore}
    (h : WrittenUnder P K s.db) (hkey : ¬ K s.cipher) : s.readable P = [] := by
  unfold DiskStore.readable
  rw [List.filterMap_eq_nil_iff]
  intro e he
  obtain ⟨key, n, p, hK, henc⟩ := h e he
  unfold DiskStore.readRecord
  split
  · rw [hown key s.cipher n _ p e.2 henc fun heq => hkey (heq ▸ hK)]
    rfl
  · rfl

/-- A process that cannot read any record starts with an empty arena. -/
theorem new_arena_of_readable_nil {s : DiskStore} (h : s.readable P = []) :
    (CrdtActor.new (some (s.view P)) threshold gcThreshold).engine.arena = DagArena.new := by
  have hbatches : (s.view P).loadBatched 1024 = [] := by
    rw [DiskStore.loadBatched_view, DiskStore.loadBatched, h]
    rfl
  show (CrdtActor.recover _ _).arena = _
  unfold CrdtActor.recover
  rw [hbatches]
  rfl

/-- Where ciphertexts decrypt under their own key only, and the seed of a start differs from the earlier
ones and has another storage key: what earlier runs have saved is in the arena after the start if and
only if they have saved nothing. -/
theorem survives_iff (hown : P.OnlyOwnKey) {runs : List ProcessRun}
    (hfresh : ∀ r ∈ runs, r.seed ≠ seed)
    (hkeys : ∀ r ∈ runs, r.seed ≠ seed →
      ∀ key, storageKey P r.seed = some key → storageKey P seed ≠ some key) (ok : Bool) :
    Survives P runs seed ok threshold gcThreshold ↔ (StateDir.after P runs).saved = [] := by
  have hempty : (mainActor P (StateDir.after P runs) seed ok threshold gcThreshold).engine.arena =
      DagArena.new := by
    unfold mainActor
    dsimp only
    cases hopen : DiskStore.open P (StateDir.after P runs).db
        (Identity.new P seed).noiseStaticSecret ok with
    | none => rfl
    | some s =>
      obtain ⟨hdb, hkey⟩ := open_eq_some hopen
      refine new_arena_of_readable_nil (readable_eq_nil hown (hdb ▸ writtenUnder_after runs) ?_)
      rintro ⟨r, hr, hrkey⟩
      exact hkeys r hr (hfresh r hr) _ hrkey hkey
  unfold Survives
  rw [hempty]
  constructor
  · intro h
    refine List.eq_nil_iff_forall_not_mem.mpr fun c hc => ?_
    exact absurd ((h c hc).symm.trans (DagArena.getByHash_new c.1)) (Option.some_ne_none _)
  · intro h c hc
    rw [h] at hc
    exact absurd hc List.not_mem_nil

/-! ### Two starts

A toy cipher that puts the key in front of the plaintext, and a toy codec that knows one node. -/

/-- The node that the runs save. -/
def savedNode : DagNode := CrdtActor.plainNode [] 1

/-- A cipher that only its own key opens. -/
def keyPrefixCrypto : StoreCrypto where
  staticSecret secret := secret
  hkdf _ ikm _ := some ikm
  encrypt key _ plaintext := some (key.val ++ plaintext)
  decrypt key _ ciphertext :=
    if ciphertext.take 32 = key.val then some (ciphertext.drop 32) else none
  toVec node := some node.hashInput
  fromSlice bytes := if bytes = savedNode.hashInput then some savedNode else none

theorem keyPrefixCrypto_onlyOwnKey : keyPrefixCrypto.OnlyOwnKey := by
  intro key key' n n' p c henc hne
  obtain rfl := Option.some.inj henc
  have htake : (key.val ++ p).take 32 = key.val := by
    rw [List.take_append_of_le_length key.2.ge, List.take_of_length_le key.2.le]
  show (if (key.val ++ p).take 32 = key'.val then _ else none) = none
  rw [htake, if_neg fun heq => hne (Subtype.ext heq)]

/-- A run that saves the node; `ok` tells whether the write commits. -/
def savingRun (ok : Bool) : ProcessRun :=
  ⟨zeros 32, true, [(savedNode.computeHash CrdtActor.lastBytes, savedNode, ok)]⟩

/-- A seed that differs from the seed of `savingRun`. -/
def otherSeed : ByteArr 32 := ⟨List.replicate 32 1, length_ones⟩

/-- Nothing is lost if no write has reached the disk, and only then. -/
theorem survives_iff_one_run :
    Survives keyPrefixCrypto [savingRun false] otherSeed true 2 1000 ∧
      ¬ Survives keyPrefixCrypto [savingRun true] otherSeed true 2 1000 := by
  have hiff : ∀ ok, Survives keyPrefixCrypto [savingRun ok] otherSeed true 2 1000 ↔
      (StateDir.after keyPrefixCrypto [savingRun ok]).saved = [] := by
    intro ok
    refine survives_iff keyPrefixCrypto_onlyOwnKey (fun r hr => ?_)
      (fun r _ hr key hkey hother => hr (Option.some.inj (hkey.trans hother.symm))) true
    rw [List.mem_singleton.mp hr]
    show zeros 32 ≠ otherSeed
    decide
  rw [hiff, hiff]
  decide +kernel

/-- One run saves a node, and the next start does not find it. -/
theorem saved_node_lost : keyPrefixCrypto.OnlyOwnKey ∧ (savingRun true).seed ≠ otherSeed ∧
    ¬ Survives keyPrefixCrypto [savingRun true] otherSeed true 2 1000 := by
  refine ⟨keyPrefixCrypto_onlyOwnKey, by decide, fun h => ?_⟩
  have hmem : (savedNode.computeHash CrdtActor.lastBytes, savedNode) ∈
      (StateDir.after keyPrefixCrypto [savingRun true]).saved := by decide +kernel
  exact absurd (h _ hmem) (by decide +kernel)

/-! ## The same identity -/

/-- Under this key, what is written can be read again. -/
def StoreCrypto.RoundTrips (P : StoreCrypto) (key : ByteArr 32) : Prop :=
  ∀ hash node c, (P.toVec node).bind (P.encrypt key (DiskStore.nonce hash)) = some c →
    (P.decrypt key (DiskStore.nonce hash) c).bind P.fromSlice = some node

/-- Every saved node has a record that is readable under the key. -/
def Readable (P : StoreCrypto) (key : ByteArr 32) (db : DagTable)
    (saved : List (Hash32 × DagNode)) : Prop :=
  ∀ c ∈ saved, ∃ v n, db.lookup c.1.val = some v ∧
    DiskStore.readRecord P key c.1.val v = some (c.1, n)

/-- If all runs have the same seed, then every saved node is readable. -/
theorem readable_after {key : ByteArr 32} (hround : P.RoundTrips key) {runs : List ProcessRun}
    (hseed : ∀ r ∈ runs, r.seed = seed) (hkey : storageKey P seed = some key) :
    Readable P key (StateDir.after P runs).db (StateDir.after P runs).saved := by
  refine stateDir_induction (K := fun k => k = key) (Q := Readable P key) ?_
    (fun c hc => absurd hc List.not_mem_nil) ?_
  · intro r hr k hk
    rw [hseed r hr] at hk
    exact Option.some.inj (hk.symm.trans hkey)
  · rintro s saved ⟨hash, node, ok⟩ rfl hQ
    rcases saveCall_cases (P := P) (s, saved) (hash, node, ok) with heq | ⟨ciphertext, henc, heq⟩
    · rw [heq]
      exact ⟨hQ, rfl⟩
    · rw [heq]
      refine ⟨fun c hc => ?_, rfl⟩
      have hread : DiskStore.readRecord P s.cipher hash.val ciphertext = some (hash, node) := by
        unfold DiskStore.readRecord
        rw [dif_pos hash.2]
        exact congrArg (Option.map _) (hround hash node ciphertext henc)
      by_cases hash' : c.1 = hash
      · refine ⟨ciphertext, node, ?_, hash' ▸ hread⟩
        rw [hash']
        exact AList.lookup_insert _
      · have hold : c ∈ saved := (List.mem_append.mp hc).resolve_right fun h =>
          hash' (congrArg Prod.fst (List.mem_singleton.mp h))
        obtain ⟨v, n, hv, hn⟩ := hQ c hold
        refine ⟨v, n, ?_, hn⟩
        exact (AList.lookup_insert_ne fun h => hash' (Subtype.ext h)).trans hv

/-- Recovery puts every readable record into the arena. -/
theorem contains_of_readable {s : DiskStore} {c : Hash32 × DagNode} (hc : c ∈ s.readable P) :
    (CrdtActor.new (some (s.view P)) threshold gcThreshold).engine.arena.contains c.1 = true := by
  refine CrdtActor.contains_recover ?_
  rwa [DiskStore.loadBatched_view, DiskStore.loadBatched, PersistentStore.flatten_batches]

/-- If all runs and the start have the same seed, and what is written can be read again, then what has
been saved is in the arena. -/
theorem contains_of_same_seed {runs : List ProcessRun} (hseed : ∀ r ∈ runs, r.seed = seed)
    {key : ByteArr 32} (hkey : storageKey P seed = some key) (hround : P.RoundTrips key)
    {c : Hash32 × DagNode} (hc : c ∈ (StateDir.after P runs).saved) :
    (mainActor P (StateDir.after P runs) seed true threshold gcThreshold).engine.arena.contains
      c.1 = true := by
  have hopen : DiskStore.open P (StateDir.after P runs).db
      (Identity.new P seed).noiseStaticSecret true = some ⟨(StateDir.after P runs).db, key⟩ := by
    show Option.map _ (storageKey P seed) = _
    rw [hkey]
    rfl
  obtain ⟨v, n, hv, hn⟩ := readable_after hround hseed hkey c hc
  unfold mainActor
  dsimp only
  rw [hopen]
  refine contains_of_readable (c := (c.1, n)) (List.mem_filterMap.mpr ⟨⟨c.1.val, v⟩, ?_, hn⟩)
  exact AList.mem_lookup_iff.mp hv

end Aimp.Crdt
