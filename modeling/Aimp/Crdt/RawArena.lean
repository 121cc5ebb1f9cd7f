import Aimp.Lib.Slab
import Aimp.Crdt.Node

/-!
# The arena over any slab

`DagArena` without its invariant, over a slab of which only the operations are given. An index expression on
a vacant slot panics, and so does the removal of one: `none`. A map is iterated over in any order.
-/

namespace Aimp.Crdt

/-- The fields of `DagArena`. -/
structure RawArena (σ : Type) where
  slab : σ
  hashToIndex : HashMap Hash32 ℕ

namespace RawArena

variable {σ : Type}

/-- `DagArena::new`. -/
def new (S : Slab.Ops σ DagNode) : RawArena σ where
  slab := S.empty
  hashToIndex := ∅

/-- `DagArena::insert`. -/
def insert (S : Slab.Ops σ DagNode) (a : RawArena σ) (hash : Hash32) (node : DagNode) :
    RawArena σ × ℕ × Bool :=
  match a.hashToIndex.lookup hash with
  | some index => (a, index, false)
  | none =>
    let (slab, index) := S.insert a.slab node
    (⟨slab, a.hashToIndex.insert hash index⟩, index, true)

/-- `DagArena::get_by_hash`. -/
def getByHash (S : Slab.Ops σ DagNode) (a : RawArena σ) (hash : Hash32) : Option (Option DagNode) :=
  match a.hashToIndex.lookup hash with
  | none => some none
  | some idx => (S.get a.slab idx).map some

/-- `DagArena::contains`. -/
def contains (a : RawArena σ) (hash : Hash32) : Bool := (a.hashToIndex.lookup hash).isSome

/-- `DagArena::len`. -/
def len (S : Slab.Ops σ DagNode) (a : RawArena σ) : ℕ := S.len a.slab

/-- `DagArena::get_all_iter`. -/
def getAllIter (S : Slab.Ops σ DagNode) (order : HashMap.IterOrder Hash32 ℕ) (a : RawArena σ) :
    Option (List (Hash32 × DagNode)) :=
  (order.of a.hashToIndex).entries.mapM fun e => (S.get a.slab e.2).map (e.1, ·)

/-- The body of the loop of `retain`. -/
def removeEntry (S : Slab.Ops σ DagNode) (a : RawArena σ) (e : Sigma fun _ : Hash32 => ℕ) :
    Option (RawArena σ) :=
  (S.remove a.slab e.2).map fun slab => ⟨slab, a.hashToIndex.erase e.1⟩

/-- `DagArena::retain`. -/
def retain (S : Slab.Ops σ DagNode) (order : HashMap.IterOrder Hash32 ℕ) (a : RawArena σ)
    (keep : List Hash32) : Option (RawArena σ × ℕ) :=
  let toRemove := (order.of a.hashToIndex).entries.filter fun e => e.1 ∉ keep
  (toRemove.foldlM (removeEntry S) a).map fun a => (a, toRemove.length)

/-- `DagArena::clear`. -/
def clear (S : Slab.Ops σ DagNode) (a : RawArena σ) : RawArena σ where
  slab := S.clear a.slab
  hashToIndex := ∅

end RawArena

/-- A call that changes the arena. -/
inductive ArenaCall where
  | insert (hash : Hash32) (node : DagNode)
  | retain (order : HashMap.IterOrder Hash32 ℕ) (keep : List Hash32)
  | clear

namespace RawArena

variable {σ : Type}

/-- The arena after a call. -/
def call (S : Slab.Ops σ DagNode) (a : RawArena σ) : ArenaCall → Option (RawArena σ)
  | .insert hash node => some (a.insert S hash node).1
  | .retain order keep => (a.retain S order keep).map Prod.fst
  | .clear => some (a.clear S)

/-- A new arena after a list of calls. -/
def after (S : Slab.Ops σ DagNode) (calls : List ArenaCall) : Option (RawArena σ) :=
  calls.foldlM (call S) (new S)

end RawArena

end Aimp.Crdt
