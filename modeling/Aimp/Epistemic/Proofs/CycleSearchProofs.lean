import Aimp.Epistemic.Proofs.EdgeOrderProofs

/-!
# The two searches for cycles

`detect_cycles` lists cycles, `cyclic_edge_indices` collects edges, each with a search of its own. Both
take the same way through the graph, so that the cycles belong to the edges one after another
(`detectCycles_agree`).
-/

namespace Aimp.Epistemic

namespace KnowledgeGraph

variable {g : KnowledgeGraph} {out : ClaimArenaId → List (ℕ × ClaimArenaId)} {cycle : List ClaimArenaId}
  {i : ℕ}

/-- A simple cycle of support, given by its nodes, whose last edge is the one at `i`. -/
structure ClosedBy (g : KnowledgeGraph) (cycle : List ClaimArenaId) (i : ℕ) : Prop where
  nodup : cycle.Nodup
  chain : cycle.IsChain (g.SupportStep [])
  closed : ∃ e, g.edges[i]? = some e ∧ e.relation.isSupport = true ∧
    cycle.getLast? = some e.fromId ∧ cycle.head? = some e.toId

theorem closedBy_of_closes (hout : ∀ v, (out v).Perm (g.supportOut v))
    (h : Dfs.Closes out cycle i) : g.ClosedBy cycle i := by
  obtain ⟨hnodup, hchain, v, x, hex, hlast, hhead⟩ := h
  obtain ⟨e, hget, hrel, rfl, rfl⟩ := mem_supportOut.mp ((hout v).subset hex)
  refine ⟨hnodup, hchain.imp ?_, e, hget, hrel, hlast, hhead⟩
  rintro a b ⟨j, hj⟩
  exact kept_iff_supportStep.mp ⟨j, (hout a).subset hj, List.not_mem_nil⟩

theorem distinctEdges (hout : ∀ v, (out v).Perm (g.supportOut v)) : Dfs.DistinctEdges out where
  nodup v := by
    have hperm := ((hout v).trans (g.supportOut_perm v)).map Prod.fst
    rw [List.map_map] at hperm
    refine hperm.nodup_iff.mpr ?_
    exact (List.nodup_zipIdx_map_snd g.edges).sublist (List.filter_sublist.map Prod.snd)
  owner i a b c d hb hd := by
    obtain ⟨e, hget, _, rfl, _⟩ := mem_supportOut.mp ((hout a).subset hb)
    obtain ⟨e', hget', _, rfl, _⟩ := mem_supportOut.mp ((hout c).subset hd)
    rw [hget, Option.some_inj] at hget'
    rw [hget']

/-- However the edges from a claim are ordered, the two searches agree. -/
theorem findCycles_agree (hout : ∀ v, (out v).Perm (g.supportOut v)) (fuel : ℕ)
    (roots : List ClaimArenaId) :
    (Dfs.search out fuel roots).marked.Nodup ∧
      List.Forall₂ g.ClosedBy (Dfs.findCycles out fuel roots).cycles
        (Dfs.search out fuel roots).marked.reverse := by
  refine ⟨Dfs.nodup_marked_search (distinctEdges hout) fuel roots, ?_⟩
  exact (Dfs.tracks_search out fuel roots).cycles.imp fun _ _ h => closedBy_of_closes hout h

/-- `detect_cycles` finds as many cycles as `cyclic_edge_indices` removes edges. Every cycle is a simple
one, and in the order of discovery each is closed by the edge that is removed for it. -/
theorem detectCycles_agree (g : KnowledgeGraph) :
    g.cyclicEdgeIndices.Nodup ∧ g.detectCycles.length = g.cyclicEdgeIndices.length ∧
      List.Forall₂ g.ClosedBy g.detectCycles g.cyclicEdgeIndices.reverse := by
  obtain ⟨hnodup, hclosed⟩ :=
    findCycles_agree (fun v => .refl (g.supportOut v)) g.allNodes.length g.allNodes
  refine ⟨hnodup, ?_, hclosed⟩
  have hlength := hclosed.length_eq
  rwa [List.length_reverse] at hlength

/-- The search for cycles is not cut short. -/
theorem detectCycles_eq (g : KnowledgeGraph) {fuel : ℕ} (h : g.allNodes.length ≤ fuel) :
    (Dfs.findCycles g.supportOut fuel g.allNodes).cycles = g.detectCycles := by
  rw [Dfs.findCycles_fuel supportOut_mem_allNodes (fun _ hr => hr) h]
  rfl

/-- A loop, and two parallel edges that close a cycle of two claims. -/
example :
    let g := [⟨0, 1, .supports, .full⟩, ⟨1, 0, .derivedFrom, .full⟩, ⟨1, 1, .supports, .full⟩,
      ⟨1, 0, .supports, .full⟩].foldl addEdge new
    g.detectCycles = [[0, 1], [0, 1], [1]] ∧ g.cyclicEdgeIndices.reverse = [1, 3, 2] := by
  decide +kernel

end KnowledgeGraph

end Aimp.Epistemic
