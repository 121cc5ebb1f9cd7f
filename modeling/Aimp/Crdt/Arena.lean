import Aimp.Lib.Slab
import Aimp.Crdt.Node

/-!
# The node arena

`DagArena` keeps the nodes of the DAG in a slab and maps their hashes to slab indices. The structure
carries its representation invariant: the map is a bijection onto the occupied slots, so that no
lookup ever meets a vacant slot.
-/

namespace Aimp.Crdt

/-- Slab-based arena for Merkle-DAG nodes. -/
structure DagArena where
  slab : Slab DagNode
  hashToIndex : HashMap Hash32 ℕ
  /-- Every hash is mapped to an occupied slot. -/
  occupied : ∀ h i, hashToIndex.lookup h = some i → (slab.get i).isSome
  /-- Different hashes are mapped to different slots. -/
  distinct : ∀ h k i, hashToIndex.lookup h = some i → hashToIndex.lookup k = some i → h = k
  /-- Every occupied slot belongs to a hash. -/
  covered : ∀ i, (slab.get i).isSome → ∃ h, hashToIndex.lookup h = some i

namespace DagArena

/-- `DagArena::new`. -/
def new : DagArena where
  slab := Slab.empty
  hashToIndex := ∅
  occupied h i hi := by simp at hi
  distinct h k i hi := by simp at hi
  covered i hi := by simp at hi

/-- `DagArena::contains`. -/
def contains (a : DagArena) (h : Hash32) : Bool := (a.hashToIndex.lookup h).isSome

/-- `DagArena::get_by_hash`. -/
def getByHash (a : DagArena) (h : Hash32) : Option DagNode :=
  (a.hashToIndex.lookup h).bind a.slab.get

/-- `DagArena::get_all_iter`: all hashes with their nodes. -/
def getAllIter (a : DagArena) : List (Hash32 × DagNode) :=
  a.hashToIndex.entries.filterMap fun e => (a.slab.get e.2).map (e.1, ·)

/-- The slot of a new node is not in use. -/
theorem lookup_ne_vacantKey (a : DagArena) {h : Hash32} {i : ℕ}
    (hi : a.hashToIndex.lookup h = some i) : i ≠ a.slab.vacantKey := by
  rintro rfl
  simpa using a.occupied h _ hi

/-- Store a node under a hash that is not present. -/
def insertNew (a : DagArena) (h : Hash32) (n : DagNode) (hh : a.hashToIndex.lookup h = none) :
    DagArena where
  slab := (a.slab.insert n).1
  hashToIndex := a.hashToIndex.insert h (a.slab.insert n).2
  occupied k i hi := by
    rw [Slab.get_insert]
    by_cases hk : k = h
    · subst hk
      rw [AList.lookup_insert] at hi
      simp [← Option.some.inj hi]
    · rw [AList.lookup_insert_ne hk] at hi
      rw [if_neg (a.lookup_ne_vacantKey hi)]
      exact a.occupied k i hi
  distinct k l i hk hl := by
    by_cases hkh : k = h <;> by_cases hlh : l = h
    · rw [hkh, hlh]
    · subst hkh
      rw [AList.lookup_insert] at hk
      rw [AList.lookup_insert_ne hlh] at hl
      exact absurd (Option.some.inj hk).symm (a.lookup_ne_vacantKey hl)
    · subst hlh
      rw [AList.lookup_insert] at hl
      rw [AList.lookup_insert_ne hkh] at hk
      exact absurd (Option.some.inj hl).symm (a.lookup_ne_vacantKey hk)
    · rw [AList.lookup_insert_ne hkh] at hk
      rw [AList.lookup_insert_ne hlh] at hl
      exact a.distinct k l i hk hl
  covered i hi := by
    rw [Slab.get_insert] at hi
    split at hi
    · rename_i heq
      exact ⟨h, by rw [AList.lookup_insert, heq]; rfl⟩
    · obtain ⟨k, hk⟩ := a.covered i hi
      refine ⟨k, ?_⟩
      rw [AList.lookup_insert_ne, hk]
      rintro rfl
      rw [hh] at hk
      exact absurd hk (by simp)

/-- `DagArena::insert`: the index of the node, and whether it is new. -/
def insert (a : DagArena) (h : Hash32) (n : DagNode) : DagArena × ℕ × Bool :=
  match hh : a.hashToIndex.lookup h with
  | some index => (a, index, false)
  | none => (a.insertNew h n hh, (a.slab.insert n).2, true)

/-- Forget a hash and vacate its slot. -/
def removeAt (a : DagArena) (h : Hash32) (i : ℕ) (hi : a.hashToIndex.lookup h = some i) :
    DagArena where
  slab := a.slab.remove i
  hashToIndex := a.hashToIndex.erase h
  occupied k j hj := by
    have hk : k ≠ h := by
      rintro rfl
      rw [AList.lookup_erase] at hj
      exact absurd hj (by simp)
    rw [AList.lookup_erase_ne hk] at hj
    rw [Slab.get_remove, if_neg]
    · exact a.occupied k j hj
    · rintro rfl
      exact hk (a.distinct k h j hj hi)
  distinct k l j hk hl := by
    have hne : ∀ {m}, (a.hashToIndex.erase h).lookup m = some j → m ≠ h := by
      rintro m hm rfl
      rw [AList.lookup_erase] at hm
      exact absurd hm (by simp)
    rw [AList.lookup_erase_ne (hne hk)] at hk
    rw [AList.lookup_erase_ne (hne hl)] at hl
    exact a.distinct k l j hk hl
  covered j hj := by
    rw [Slab.get_remove] at hj
    split at hj
    · exact absurd hj (by simp)
    · rename_i hji
      obtain ⟨k, hk⟩ := a.covered j hj
      refine ⟨k, ?_⟩
      rw [AList.lookup_erase_ne, hk]
      rintro rfl
      rw [hi] at hk
      exact hji (Option.some.inj hk).symm

/-- One round of the removal loop of `retain`. -/
def removeHash (a : DagArena) (h : Hash32) : DagArena :=
  match hi : a.hashToIndex.lookup h with
  | some i => a.removeAt h i hi
  | none => a

/-- `DagArena::retain`: keep only the nodes whose hash is in `keep`, and count the removed ones. -/
def retain (a : DagArena) (keep : List Hash32) : DagArena × ℕ :=
  let toRemove := a.hashToIndex.keys.filter fun h => h ∉ keep
  (toRemove.foldl removeHash a, toRemove.length)

/-- `DagArena::clear`. -/
def clear (_ : DagArena) : DagArena := new

end DagArena

end Aimp.Crdt
