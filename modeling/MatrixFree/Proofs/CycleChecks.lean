import MatrixFree.Proofs.Cycles
import MatrixFree.Proofs.Topologies

/-!
# The check for cycles

What the search for a cycle says of a topology whose lists of edges and registry need not agree.
Only the registry counts, and of it only the edges between nodes that are there
(`Topology.InnerAdj`). The check passes exactly if these have no cycle, and names a node on a cycle
otherwise (`Topology.checkAcyclic_exact`).
-/

namespace MatrixFree.Topology

variable {t : Topology} {m n : NodeId}

/-- A registered edge between two nodes that are there goes from `m` to `n`. -/
def InnerAdj (t : Topology) (m n : NodeId) : Prop :=
  t.Adj .forward m n ∧ m.index < t.nodeCount ∧ n.index < t.nodeCount

theorem innerEdges_lt : ∀ e ∈ t.innerEdges, e.1 < t.nodeCount ∧ e.2 < t.nodeCount := fun e he => by
  simpa using (List.mem_filter.1 he).2

/-- The inner edges are given by the places of their ends, which are names of nodes. -/
theorem mem_innerEdges {e : ℕ × ℕ} :
    e ∈ t.innerEdges ↔ ∃ m n, t.InnerAdj m n ∧ e = (m.index, n.index) := by
  constructor
  · intro he
    obtain ⟨⟨id, edge⟩, hentry, rfl⟩ := List.mem_map.1 (List.mem_filter.1 he).1
    exact ⟨edge.source, edge.target,
      ⟨⟨id, edge, EdgeRegistry.get?_eq_some_iff.2 hentry, rfl, rfl⟩, innerEdges_lt _ he⟩, rfl⟩
  · rintro ⟨_, _, ⟨⟨id, edge, hget, rfl, rfl⟩, hlt⟩, rfl⟩
    exact List.mem_filter.2 ⟨List.mem_map.2 ⟨(id, edge), EdgeRegistry.get?_eq_some_iff.1 hget, rfl⟩,
      decide_eq_true hlt⟩

theorem innerAdj_iff : t.InnerAdj m n ↔ (m.index, n.index) ∈ t.innerEdges := by
  refine ⟨fun h => mem_innerEdges.2 ⟨m, n, h, rfl⟩, fun h => ?_⟩
  obtain ⟨m', n', hadj, he⟩ := mem_innerEdges.1 h
  obtain ⟨hm, hn⟩ := Prod.mk.inj he
  obtain rfl := NodeId.index_inj.1 hm
  obtain rfl := NodeId.index_inj.1 hn
  exact hadj

theorem transGen_innerAdj {a b : ℕ} (h : Cycle.Reaches t.innerEdges a b) :
    Relation.TransGen t.InnerAdj (.ofIndex a) (.ofIndex b) := by
  refine h.lift NodeId.ofIndex fun a b he => ?_
  obtain ⟨m, n, hadj, he⟩ := mem_innerEdges.1 he
  obtain ⟨rfl, rfl⟩ := Prod.mk.inj he
  simpa only [Function.onFun, NodeId.ofIndex_index] using hadj

theorem exists_cycle_of_checkAcyclic {e : GraphError} (h : t.checkAcyclic = .error e) :
    ∃ v, e = .cycle v ∧ Relation.TransGen t.InnerAdj v v := by
  unfold checkAcyclic at h
  rcases hs : Cycle.search t.nodeCount t.innerEdges with v | u
  · rw [hs] at h
    exact ⟨.ofIndex v, (Except.error.inj h).symm,
      transGen_innerAdj (Cycle.reaches_of_search innerEdges_lt hs)⟩
  · rw [hs] at h
    cases h

/-- The check passes a topology exactly if no walk over the registered edges between its nodes comes
back to where it was, whatever edges the nodes list. Otherwise it names a node to which such a walk
comes back. -/
theorem checkAcyclic_exact (t : Topology) :
    (t.checkAcyclic = .ok () ↔ ∀ n, ¬ Relation.TransGen t.InnerAdj n n)
      ∧ ∀ e, t.checkAcyclic = .error e →
          ∃ v, e = .cycle v ∧ Relation.TransGen t.InnerAdj v v := by
  unfold checkAcyclic
  rcases hs : Cycle.search t.nodeCount t.innerEdges with v | ⟨⟩
  · have hv := transGen_innerAdj (Cycle.reaches_of_search innerEdges_lt hs)
    refine ⟨⟨nofun, fun h => absurd hv (h _)⟩, fun e he => ⟨.ofIndex v, ?_, hv⟩⟩
    exact (Except.error.inj he).symm
  · refine ⟨⟨fun _ n hn => ?_, fun _ => rfl⟩, nofun⟩
    have hac := (Cycle.search_eq_ok_iff innerEdges_lt).1 hs
    exact hac n.index (hn.lift NodeId.index fun _ _ hadj => innerAdj_iff.1 hadj)

/-- Three nodes that list no edges. Edges go round between the last two, twice in one direction, and
others lead to a node that is not there and back from it. -/
def tangled : Topology :=
  ⟨#[⟨[], []⟩, ⟨[], []⟩, ⟨[], []⟩],
    .ofList [(⟨0⟩, ⟨⟨0⟩, ⟨9⟩⟩), (⟨1⟩, ⟨⟨9⟩, ⟨0⟩⟩), (⟨4⟩, ⟨⟨0⟩, ⟨1⟩⟩), (⟨5⟩, ⟨⟨1⟩, ⟨2⟩⟩),
      (⟨7⟩, ⟨⟨1⟩, ⟨2⟩⟩), (⟨8⟩, ⟨⟨2⟩, ⟨1⟩⟩)], ⟨0⟩, ⟨2⟩⟩

theorem checkAcyclic_exact_tangled :
    tangled.checkAcyclic = .error (.cycle ⟨2⟩)
      ∧ Relation.TransGen tangled.InnerAdj ⟨2⟩ ⟨2⟩ := by
  have h : tangled.checkAcyclic = .error (.cycle ⟨2⟩) := by decide +kernel
  obtain ⟨v, hv, hcycle⟩ := (checkAcyclic_exact tangled).2 _ h
  obtain rfl := GraphError.cycle.inj hv
  exact ⟨h, hcycle⟩

end MatrixFree.Topology
