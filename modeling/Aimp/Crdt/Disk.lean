import Aimp.Crdt.Actor

/-!
# The store on disk

`PersistentStore` with its encryption, and the start of the node process, which derives the storage key
from a new identity. HKDF-SHA256, ChaCha20-Poly1305, X25519 and MessagePack are parameters of the
development.
-/

namespace Aimp.Crdt

/-- The cryptography and the serialization that the store uses. -/
structure StoreCrypto where
  /-- `x25519_dalek::StaticSecret::from(secret).to_bytes()`. -/
  staticSecret : ByteArr 32 → ByteArr 32
  /-- HKDF-SHA256: salt, input key material and info, expanded to 32 bytes. -/
  hkdf : List Byte → ByteArr 32 → List Byte → Option (ByteArr 32)
  /-- ChaCha20-Poly1305: key, nonce and plaintext. -/
  encrypt : ByteArr 32 → ByteArr 12 → List Byte → Option (List Byte)
  /-- ChaCha20-Poly1305: key, nonce and ciphertext. -/
  decrypt : ByteArr 32 → ByteArr 12 → List Byte → Option (List Byte)
  /-- `rmp_serde::to_vec`. -/
  toVec : DagNode → Option (List Byte)
  /-- `rmp_serde::from_slice`. -/
  fromSlice : List Byte → Option DagNode

/-- The parts of an identity from which the storage key comes. -/
structure Identity where
  signingKey : ByteArr 32
  noiseStaticSecret : ByteArr 32

/-- `Identity::build_from`. -/
def Identity.buildFrom (P : StoreCrypto) (signingKey : ByteArr 32) : Identity :=
  ⟨signingKey, P.staticSecret signingKey⟩

/-- `Identity::new`, with the seed that it draws. -/
def Identity.new (P : StoreCrypto) (seed : ByteArr 32) : Identity := Identity.buildFrom P seed

/-- `HKDF_SALT`. -/
def hkdfSalt : List Byte := asBytes "aimp-store-v1"

/-- The table `dag_nodes` of the database: hash and ciphertext. -/
abbrev DagTable := HashMap (List Byte) (List Byte)

/-- `PersistentStore`: the database and the cipher, which is given by its key. -/
structure DiskStore where
  db : DagTable
  cipher : ByteArr 32

/-- `PersistentStore::open` with the input key material `ikm`; `ok` tells whether the database opens. -/
def DiskStore.open (P : StoreCrypto) (db : DagTable) (ikm : ByteArr 32) (ok : Bool) :
    Option DiskStore :=
  if ok then (P.hkdf hkdfSalt ikm (asBytes "aimp-chacha20poly1305")).map fun key => ⟨db, key⟩
  else none

namespace DiskStore

variable (P : StoreCrypto)

/-- The nonce for a record: the first 12 bytes of its hash. -/
def nonce (hash : Hash32) : ByteArr 12 := ⟨hash.val.take 12, by simp [hash.2]⟩

/-- `PersistentStore::save_node`, with the result; `ok` tells whether the write transaction commits. -/
def saveNode (s : DiskStore) (hash : Hash32) (node : DagNode) (ok : Bool) : DiskStore × Bool :=
  match (P.toVec node).bind (P.encrypt s.cipher (nonce hash)) with
  | some ciphertext =>
    if ok then ({ s with db := s.db.insert hash.val ciphertext }, true) else (s, false)
  | none => (s, false)

/-- The body of the loop in `load_batched`: a record that is no node under this key is skipped. -/
def readRecord (key : ByteArr 32) (k v : List Byte) : Option (Hash32 × DagNode) :=
  if h : k.length = 32 then
    ((P.decrypt key (nonce ⟨k, h⟩) v).bind P.fromSlice).map fun node => (⟨k, h⟩, node)
  else none

/-- The records that the store can read. -/
def readable (s : DiskStore) : List (Hash32 × DagNode) :=
  s.db.entries.filterMap fun e => readRecord P s.cipher e.1 e.2

/-- `PersistentStore::load_batched`. -/
def loadBatched (s : DiskStore) (batchSize : ℕ) : List (List (Hash32 × DagNode)) :=
  PersistentStore.batches batchSize [] (s.readable P)

/-- `PersistentStore::load_all`. -/
def loadAll (s : DiskStore) : List (Hash32 × DagNode) :=
  (s.loadBatched P 4096).foldl (fun results batch => results ++ batch) []

/-- The errors of `load_node`. -/
inductive LoadError where
  | storage
  | encryption (reason : String)
  | decodeFail
deriving DecidableEq

/-- `PersistentStore::load_node`. The first write creates the table, and before it opening the table
fails. -/
def loadNode (s : DiskStore) (hash : Hash32) : Except LoadError (Option DagNode) :=
  if s.db.entries.isEmpty then .error .storage
  else match s.db.lookup hash.val with
    | some ciphertext =>
      match P.decrypt s.cipher (nonce hash) ciphertext with
      | some plaintext =>
        match P.fromSlice plaintext with
        | some node => .ok (some node)
        | none => .error .decodeFail
      | none => .error (.encryption "Decryption failed: invalid key or data")
    | none => .ok none

theorem fst_of_readRecord {key : ByteArr 32} {k v : List Byte} {c : Hash32 × DagNode}
    (h : readRecord P key k v = some c) : c.1.val = k := by
  unfold readRecord at h
  split at h
  · obtain ⟨node, -, rfl⟩ := Option.map_eq_some_iff.mp h
    rfl
  · exact absurd h.symm (Option.some_ne_none c)

theorem nodup_keys_readable (s : DiskStore) : ((s.readable P).map Prod.fst).Nodup := by
  rw [List.Nodup, List.pairwise_map, readable, List.pairwise_filterMap]
  refine (List.nodupKeys_iff_pairwise.mp s.db.nodupKeys).imp fun hne c hc d hd heq => hne ?_
  rw [← fst_of_readRecord P hc, ← fst_of_readRecord P hd, heq]

/-- The store as the engine sees it. -/
def view (s : DiskStore) : PersistentStore where
  records := ⟨(s.readable P).map fun c => ⟨c.1, c.2⟩, by
    have h := nodup_keys_readable P s
    rwa [List.NodupKeys, List.keys, List.map_map]⟩

/-- Loading from the disk is loading the records that the engine sees. -/
theorem loadBatched_view (s : DiskStore) (batchSize : ℕ) :
    (s.view P).loadBatched batchSize = s.loadBatched P batchSize := by
  unfold PersistentStore.loadBatched loadBatched view
  rw [List.map_map]
  exact congrArg _ (List.map_id _)

end DiskStore

/-! ## The node process -/

/-- One run of the node process up to some point: the seed that `Identity::new` draws, whether the
database opens, and the calls of `save_node`, each with whether its write commits. -/
structure ProcessRun where
  seed : ByteArr 32
  opens : Bool
  saves : List (Hash32 × DagNode × Bool)

/-- The state directory and the nodes whose `save_node` has succeeded so far. -/
structure StateDir where
  db : DagTable
  saved : List (Hash32 × DagNode)

/-- One call of `save_node`, noting the node if the call succeeds. -/
def saveCall (P : StoreCrypto) (acc : DiskStore × List (Hash32 × DagNode))
    (c : Hash32 × DagNode × Bool) : DiskStore × List (Hash32 × DagNode) :=
  let (s, ok) := acc.1.saveNode P c.1 c.2.1 c.2.2
  (s, if ok then acc.2 ++ [(c.1, c.2.1)] else acc.2)

/-- What a run leaves in the state directory. -/
def StateDir.run (P : StoreCrypto) (d : StateDir) (r : ProcessRun) : StateDir :=
  match DiskStore.open P d.db (Identity.new P r.seed).noiseStaticSecret r.opens with
  | some s =>
    let (s, saved) := r.saves.foldl (saveCall P) (s, d.saved)
    ⟨s.db, saved⟩
  | none => d

/-- The state directory after these runs, one after another. -/
def StateDir.after (P : StoreCrypto) (runs : List ProcessRun) : StateDir :=
  runs.foldl (StateDir.run P) ⟨∅, []⟩

/-- The actor that `main` starts: a new identity, the store if it opens, and `CrdtActor::new`. -/
def mainActor (P : StoreCrypto) (d : StateDir) (seed : ByteArr 32) (ok : Bool)
    (threshold gcThreshold : ℕ) : CrdtActor :=
  let identity := Identity.new P seed
  let store := DiskStore.open P d.db identity.noiseStaticSecret ok
  CrdtActor.new (store.map (DiskStore.view P)) threshold gcThreshold

end Aimp.Crdt
