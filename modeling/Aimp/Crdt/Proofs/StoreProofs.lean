import Aimp.Crdt.Proofs.RestartProofs

/-!
# Reading the store

The store can be read node by node, in batches or at once. All three find the same nodes. They differ in
what they do with a record that is no node under the key: `load_node` reports it, the others pass over it.
What has been saved in a process is what the process reads back.
-/

namespace Aimp.Crdt

namespace PersistentStore

/-- Every batch is full, but for the last one, which is not empty. -/
theorem batches_full {α : Type} (size : ℕ) (batch l : List α) (hbatch : batch.length < max size 1) :
    (∀ b ∈ batches size batch l, 0 < b.length ∧ b.length ≤ max size 1) ∧
      ∀ b ∈ (batches size batch l).dropLast, b.length = max size 1 := by
  induction l generalizing batch with
  | nil =>
    cases batch with
    | nil => simp [batches]
    | cons x xs =>
      have hlast : batches size (x :: xs) [] = [x :: xs] := rfl
      rw [hlast]
      refine ⟨fun b hb => ?_, fun b hb => by simp at hb⟩
      rw [List.mem_singleton.mp hb]
      exact ⟨Nat.succ_pos _, hbatch.le⟩
  | cons x xs ih =>
    have hlen : (batch ++ [x]).length = batch.length + 1 := by simp
    unfold batches
    split
    · rename_i hfull
      obtain ⟨hall, hinit⟩ := ih [] (by simp)
      have hmax : (batch ++ [x]).length = max size 1 := by omega
      refine ⟨fun b hb => ?_, fun b hb => ?_⟩
      · rcases List.mem_cons.mp hb with rfl | hb
        · omega
        · exact hall b hb
      · by_cases hnil : batches size [] xs = []
        · rw [hnil] at hb
          simp at hb
        · rw [List.dropLast_cons_of_ne_nil hnil] at hb
          rcases List.mem_cons.mp hb with rfl | hb
          · exact hmax
          · exact hinit b hb
    · exact ih (batch ++ [x]) (by omega)

end PersistentStore

namespace DiskStore

variable {P : StoreCrypto} {s : DiskStore} {h : Hash32} {n : DagNode}

theorem loadAll_eq_readable (s : DiskStore) : s.loadAll P = s.readable P := by
  have hfold : ∀ (bs : List (List (Hash32 × DagNode))) (acc : List (Hash32 × DagNode)),
      bs.foldl (fun results batch => results ++ batch) acc = acc ++ bs.flatten := by
    intro bs
    induction bs with
    | nil => simp
    | cons b bs ih => simp [ih]
  unfold loadAll loadBatched
  rw [hfold, PersistentStore.flatten_batches]
  simp

/-- A node is found under a hash if and only if its record can be read. -/
theorem mem_loadAll_iff : (h, n) ∈ s.loadAll P ↔
    ∃ v, s.db.lookup h.val = some v ∧ readRecord P s.cipher h.val v = some (h, n) := by
  rw [loadAll_eq_readable, readable, List.mem_filterMap]
  constructor
  · rintro ⟨e, he, hread⟩
    have hkey : h.val = e.1 := fst_of_readRecord P hread
    refine ⟨e.2, ?_, hkey ▸ hread⟩
    rw [hkey]
    exact AList.mem_lookup_iff.mpr he
  · rintro ⟨v, hv, hread⟩
    exact ⟨⟨h.val, v⟩, AList.mem_lookup_iff.mp hv, hread⟩

/-- What `load_node` answers, in terms of what the batches would contain. -/
theorem loadNode_eq {v : List Byte} (hv : s.db.lookup h.val = some v) :
    (∀ n, s.loadNode P h = .ok (some n) ↔ readRecord P s.cipher h.val v = some (h, n)) ∧
      s.loadNode P h ≠ .ok none := by
  have hne : s.db.entries.isEmpty = false := by
    have hmem := AList.mem_lookup_iff.mp (show v ∈ s.db.lookup h.val from hv)
    cases hdb : s.db.entries with
    | nil => simp [hdb] at hmem
    | cons => rfl
  have hread : readRecord P s.cipher h.val v =
      ((P.decrypt s.cipher (nonce h) v).bind P.fromSlice).map fun n => (h, n) := dif_pos h.2
  unfold loadNode
  rw [hne, hv, hread]
  cases hdec : P.decrypt s.cipher (nonce h) v with
  | none => simp [hdec]
  | some plaintext => cases hser : P.fromSlice plaintext <;> simp [hdec, hser]

/-- For any store and batch size, the batches make up what is loaded at once: all but the last are full,
none is empty, and no hash occurs twice. `load_node` finds exactly these nodes, and it fails exactly if
nothing has been written, or for a record that the batches pass over. -/
theorem readers_agree (P : StoreCrypto) (s : DiskStore) (batchSize : ℕ) :
    (s.loadBatched P batchSize).flatten = s.loadAll P ∧
    (∀ b ∈ s.loadBatched P batchSize, 0 < b.length ∧ b.length ≤ max batchSize 1) ∧
    (∀ b ∈ (s.loadBatched P batchSize).dropLast, b.length = max batchSize 1) ∧
    ((s.loadAll P).map Prod.fst).Nodup ∧
    (∀ h n, s.loadNode P h = .ok (some n) ↔ (h, n) ∈ s.loadAll P) ∧
    ∀ h, (∃ e, s.loadNode P h = .error e) ↔
      s.db.entries = [] ∨ ((s.db.lookup h.val).isSome ∧ ∀ n, (h, n) ∉ s.loadAll P) := by
  obtain ⟨hall, hinit⟩ := PersistentStore.batches_full batchSize [] (s.readable P) (by simp)
  have hnone : ∀ h, s.db.lookup h.val = none → s.loadNode P h =
      if s.db.entries.isEmpty then .error .storage else .ok none := by
    intro h hv
    unfold loadNode
    rw [hv]
  refine ⟨?_, hall, hinit, ?_, fun h n => ?_, fun h => ?_⟩
  · rw [loadAll_eq_readable, loadBatched, PersistentStore.flatten_batches, List.nil_append]
  · rw [loadAll_eq_readable]
    exact nodup_keys_readable P s
  · rw [mem_loadAll_iff]
    cases hv : s.db.lookup h.val with
    | none =>
      rw [hnone h hv]
      split <;> simp
    | some v => simpa using (loadNode_eq hv).1 n
  · cases hv : s.db.lookup h.val with
    | none =>
      rw [hnone h hv]
      cases hdb : s.db.entries <;> simp
    | some v =>
      obtain ⟨hok, hsome⟩ := loadNode_eq (P := P) hv
      have hne : s.db.entries ≠ [] := by
        intro hnil
        have hmem := AList.mem_lookup_iff.mp (show v ∈ s.db.lookup h.val from hv)
        simp [hnil] at hmem
      simp only [mem_loadAll_iff, hv, Option.some.injEq, exists_eq_left', ← hok, hne, false_or,
        Option.isSome_some, true_and]
      cases hload : s.loadNode P h with
      | error e => simp
      | ok r =>
        cases r with
        | none => exact absurd hload hsome
        | some n => simp

/-! ## Saving -/

/-- The node saved last under a hash. -/
def lastSaved (saved : List (Hash32 × DagNode)) (h : Hash32) : Option DagNode :=
  saved.foldl (fun last c => if c.1 = h then some c.2 else last) none

theorem lastSaved_snoc (saved : List (Hash32 × DagNode)) (c : Hash32 × DagNode) :
    lastSaved (saved ++ [c]) h = if c.1 = h then some c.2 else lastSaved saved h := by
  simp [lastSaved]

/-- After any calls of `save_node`, where what is written can be read again: a node is loaded if and only
if it is the last one whose `save_node` has succeeded for its hash, or no `save_node` has succeeded for
its hash and it was loaded before. -/
theorem loadAll_saves (hround : P.RoundTrips s.cipher) (cs : List (Hash32 × DagNode × Bool)) (h : Hash32)
    (n : DagNode) : (h, n) ∈ (cs.foldl (saveCall P) (s, [])).1.loadAll P ↔
      lastSaved (cs.foldl (saveCall P) (s, [])).2 h = some n ∨
      (lastSaved (cs.foldl (saveCall P) (s, [])).2 h = none ∧ (h, n) ∈ s.loadAll P) := by
  suffices hall : ∀ acc : DiskStore × List (Hash32 × DagNode), acc = cs.foldl (saveCall P) (s, []) →
      acc.1.cipher = s.cipher ∧ ((h, n) ∈ acc.1.loadAll P ↔
        lastSaved acc.2 h = some n ∨ (lastSaved acc.2 h = none ∧ (h, n) ∈ s.loadAll P)) from
    (hall _ rfl).2
  induction cs using List.reverseRecOn with
  | nil =>
    rintro acc rfl
    exact ⟨rfl, by simp [lastSaved]⟩
  | append_singleton cs c ih =>
    rintro acc rfl
    rw [List.foldl_append]
    obtain ⟨hcipher, hiff⟩ := ih _ rfl
    generalize cs.foldl (saveCall P) (s, []) = before at hcipher hiff
    obtain ⟨hash, node, ok⟩ := c
    rcases saveCall_cases (P := P) before (hash, node, ok) with heq | ⟨ciphertext, henc, heq⟩
    · rw [List.foldl_cons, List.foldl_nil, heq]
      exact ⟨hcipher, hiff⟩
    · rw [List.foldl_cons, List.foldl_nil, heq]
      refine ⟨hcipher, ?_⟩
      have hread : readRecord P s.cipher hash.val ciphertext = some (hash, node) := by
        unfold readRecord
        rw [dif_pos hash.2]
        exact congrArg (Option.map _) (hround hash node ciphertext (hcipher ▸ henc))
      rw [lastSaved_snoc, mem_loadAll_iff]
      by_cases hh : hash = h
      · subst hh
        rw [AList.lookup_insert, if_pos rfl, hcipher]
        simp [hread]
      · rw [AList.lookup_insert_ne fun hval => hh (Subtype.ext hval).symm, if_neg hh, ← hiff,
          mem_loadAll_iff]

/-- The toy cipher, with a codec that refuses the nodes that it could not read back. -/
def oneNodeCrypto : StoreCrypto :=
  { keyPrefixCrypto with
    toVec := fun node => if node = savedNode then some node.hashInput else none }

theorem oneNodeCrypto_roundTrips (key : ByteArr 32) : oneNodeCrypto.RoundTrips key := by
  intro hash node c henc
  obtain ⟨p, hp, hc⟩ := Option.bind_eq_some_iff.mp henc
  simp only [oneNodeCrypto, Option.ite_none_right_eq_some, Option.some.injEq] at hp
  obtain ⟨rfl, rfl⟩ := hp
  obtain rfl := Option.some.inj hc
  have htake : (key.val ++ savedNode.hashInput).take 32 = key.val := by
    rw [List.take_append_of_le_length key.2.ge, List.take_of_length_le key.2.le]
  have hdrop : (key.val ++ savedNode.hashInput).drop 32 = savedNode.hashInput := by
    rw [List.drop_append_of_le_length key.2.ge, List.drop_of_length_le key.2.le, List.nil_append]
  show (if (key.val ++ savedNode.hashInput).take 32 = key.val then
      some ((key.val ++ savedNode.hashInput).drop 32) else none).bind oneNodeCrypto.fromSlice = _
  rw [if_pos htake, hdrop]
  show (if savedNode.hashInput = savedNode.hashInput then some savedNode else none) = some savedNode
  rw [if_pos rfl]

/-- A node that is saved, and then saved again without success. -/
theorem loadAll_saves_one_node :
    (zeros 32, savedNode) ∈ ([(zeros 32, savedNode, true), (zeros 32, savedNode, false)].foldl
      (saveCall oneNodeCrypto) (⟨∅, zeros 32⟩, [])).1.loadAll oneNodeCrypto := by
  refine (loadAll_saves (oneNodeCrypto_roundTrips _) _ _ _).mpr (Or.inl ?_)
  decide +kernel

end DiskStore

end Aimp.Crdt
