import MatrixFree.Proofs.CycleChecks
import MatrixFree.Proofs.Exact
import MatrixFree.Proofs.Walks
import MatrixFree.Graph.Builder

/-!
# Which graphs are built

On a well-formed wiring the search for a cycle and the full walks in both directions find the same
(`Graph.acyclicity_checks_agree`). A graph is built exactly if its wiring passes both checks, and
it is then the one that `Graph.initial` writes down (`Graph.build_eq_ok_iff`).
-/

namespace MatrixFree

open MatrixFree.Topology

namespace Topology

variable {t : Topology}

theorem adj_iff_mem_innerEdges (ht : t.Sound) {m n : NodeId} :
    t.Adj .forward m n ↔ (m.index, n.index) ∈ t.innerEdges := by
  rw [← innerAdj_iff]
  refine ⟨fun h => ⟨h, ?_⟩, And.left⟩
  obtain ⟨e, edge, hget, rfl, rfl⟩ := h
  exact ⟨ht.tail_lt hget, ht.head_lt hget⟩

theorem acyclic_innerEdges_iff (ht : t.Sound) (hcount : t.nodeCount ≤ UInt32.size) :
    Cycle.Acyclic t.innerEdges ↔ t.Acyclic := by
  constructor
  · intro h n hn
    exact h n.index (hn.lift NodeId.index fun _ _ hadj => (adj_iff_mem_innerEdges ht).1 hadj)
  · intro h v hv
    refine h (.ofIndex v) (hv.lift NodeId.ofIndex fun a b hab => ?_)
    obtain ⟨ha, hb⟩ := innerEdges_lt _ hab
    refine (adj_iff_mem_innerEdges ht).2 ?_
    rwa [NodeId.index_ofIndex (ha.trans_le hcount), NodeId.index_ofIndex (hb.trans_le hcount)]

theorem checkAcyclic_eq_ok_iff (ht : t.Sound) (hcount : t.nodeCount ≤ UInt32.size) :
    t.checkAcyclic = .ok () ↔ t.Acyclic := by
  rw [← acyclic_innerEdges_iff ht hcount, ← Cycle.search_eq_ok_iff innerEdges_lt]
  unfold checkAcyclic
  rcases Cycle.search t.nodeCount t.innerEdges with v | u
  · simp [Except.mapError]
  · simp [Except.mapError]

theorem refuses_checkAcyclic (t : Topology) :
    Refuses (·.isConfiguration = true) (GraphCheck.ofExcept t.checkAcyclic) := by
  unfold checkAcyclic
  rcases Cycle.search t.nodeCount t.innerEdges with v | u
  · exact .fault rfl
  · exact .ok ()

/-- An order is a schedule if it has each node once and every entry goes forward in it. -/
theorem schedule_of_entries {l : List NodeId} (hnodup : l.Nodup)
    (hlt : ∀ n ∈ l, n.index < t.nodeCount) (hmem : ∀ i < t.nodeCount, NodeId.ofIndex i ∈ l)
    (hbefore : ∀ x ∈ t.edges.entries, l.idxOf x.2.source < l.idxOf x.2.target) :
    t.Schedule .forward l where
  nodup := hnodup
  mem_iff n := by
    refine ⟨hlt n, fun hn => ?_⟩
    rw [← n.ofIndex_index]
    exact hmem _ hn
  before {e edge} hget := hbefore (e, edge) (EdgeRegistry.get?_eq_some_iff.1 hget)

end Topology

namespace Graph

variable {α : Type} [Scalar α] {specs : List (NodeSpec α)} {edges : EdgeRegistry}
  {root terminal : NodeId} {config : Config} {g : Graph α}

theorem visitAll_prepare : ∀ {l : List NodeId} (nodes : Array (Node α)), l.Nodup →
    (∀ n ∈ l, n.index < nodes.size) → ∃ nodes', visitAll prepare l nodes = (nodes', .ok ())
      ∧ ∀ i, nodes'[i]? = if i ∈ l.map NodeId.index then (nodes[i]?).map (·.allocate.layOut)
          else nodes[i]?
  | [], nodes, _, _ => ⟨nodes, rfl, fun i => by simp⟩
  | n :: l, nodes, hl, hlt => by
    obtain ⟨hn, hl⟩ := List.nodup_cons.1 hl
    obtain ⟨hnlt, hlt⟩ := List.forall_mem_cons.1 hlt
    have hget : nodes[n.index]? = some nodes[n.index] := Array.getElem?_eq_getElem hnlt
    obtain ⟨nodes', hv, hnodes⟩ := visitAll_prepare
      (nodes.setIfInBounds n.index nodes[n.index].allocate.layOut) hl
      fun m hm => by rw [Array.size_setIfInBounds]; exact hlt m hm
    refine ⟨nodes', ?_, fun i => ?_⟩
    · unfold visitAll prepare
      rw [hget]
      exact hv
    · rw [hnodes, List.map_cons]
      by_cases hin : n.index = i
      · subst hin
        have hnot : n.index ∉ l.map NodeId.index := fun h => by
          obtain ⟨m, hm, hmn⟩ := List.mem_map.1 h
          exact hn (NodeId.index_inj.1 hmn ▸ hm)
        rw [if_neg hnot, if_pos List.mem_cons_self, Array.getElem?_setIfInBounds_self_of_lt hnlt, hget]
        rfl
      · rw [Array.getElem?_setIfInBounds_ne hin]
        exact if_congr (by simp [Ne.symm hin]) rfl rfl

/-- The graph of the given nodes and edges with zeros in all buffers. -/
def initial (specs : List (NodeSpec α)) (edges : EdgeRegistry) (root terminal : NodeId)
    (config : Config) : Graph α :=
  ⟨(specs.map fun s => (Node.bare s).allocate.layOut).toArray,
    .ofSpecs specs edges root terminal, .zero, config⟩

theorem visitAll_prepare_schedule {l : List NodeId} {d : Direction}
    (hcount : specs.length ≤ UInt32.size)
    (hl : (Topology.ofSpecs specs edges root terminal).Schedule d l) :
    visitAll prepare l (specs.map Node.bare).toArray
      = ((specs.map fun s => (Node.bare s).allocate.layOut).toArray, .ok ()) := by
  have hlt : ∀ n ∈ l, n.index < specs.length := fun n hn => by
    simpa using (hl.mem_iff n).1 hn
  obtain ⟨nodes', hv, hnodes⟩ := visitAll_prepare (specs.map Node.bare).toArray hl.nodup
    (by simpa using hlt)
  rw [hv]
  refine congrArg (·, _) (Array.ext_getElem? fun i => ?_)
  rw [hnodes, List.getElem?_toArray, List.getElem?_toArray, List.getElem?_map, List.getElem?_map,
    Option.map_map]
  by_cases hi : i < specs.length
  · have hidx := NodeId.index_ofIndex (hi.trans_le hcount)
    rw [if_pos]
    · rfl
    · exact List.mem_map.2 ⟨.ofIndex i, (hl.mem_iff _).2 (by simpa [hidx] using hi), hidx⟩
  · rw [List.getElem?_eq_none (Nat.not_lt.1 hi)]
    split <;> rfl

theorem build_of_check (hcount : specs.length ≤ UInt32.size)
    (hw : Wiring.check specs edges root terminal = .ok ())
    (hac : (Topology.ofSpecs specs edges root terminal).checkAcyclic = .ok ()) :
    build specs root terminal edges config = .ok (initial specs edges root terminal config) := by
  have ht := sound_ofSpecs (Wiring.wellFormed_of_check hw hcount)
  have hcount' : (Topology.ofSpecs specs edges root terminal).nodeCount ≤ UInt32.size := by
    rwa [nodeCount_ofSpecs]
  have hacyclic := (checkAcyclic_eq_ok_iff ht hcount').1 hac
  obtain ⟨l, hl, hforward⟩ := exists_traverse ht hcount' hacyclic .forward
  obtain ⟨l', -, hadjoint⟩ := exists_traverse ht hcount' hacyclic .adjoint
  have hadjoint : (Topology.ofSpecs specs edges root terminal).order .adjoint = .ok l' := by
    unfold order
    rw [hadjoint, visitAll_ok (fun _ _ => rfl)]
    rfl
  unfold build
  rw [hw, ok_bind]
  dsimp only
  rw [hac, hforward, visitAll_prepare_schedule hcount hl, hadjoint]
  rfl

/-- Every graph that is built has no more nodes than there are names for. -/
theorem length_le_of_build (h : build specs root terminal edges config = .ok g) :
    specs.length ≤ UInt32.size := by
  unfold build at h
  obtain ⟨_, hw, h⟩ := bind_eq_ok_iff.1 h
  obtain ⟨_, -, h⟩ := bind_eq_ok_iff.1 h
  rcases hwalk : (Topology.ofSpecs specs edges root terminal).traverse .forward true prepare
    (specs.map Node.bare).toArray with ⟨nodes, walked⟩
  rw [hwalk] at h
  obtain ⟨l, rfl, -⟩ := bind_eq_ok_iff.1 h
  obtain ⟨hlt, hclosed, -⟩ := Wiring.check_eq_ok_iff.1 hw
  have hlt : root.index < specs.length := hlt .input
  have hroot : specs[root.index]? = some specs[root.index] := List.getElem?_eq_getElem hlt
  suffices hc : (Topology.ofSpecs specs edges root terminal).nodeCount ≤ UInt32.size by
    rwa [nodeCount_ofSpecs] at hc
  refine nodeCount_le_of_traverse (d := .forward) ?_ (congrArg Prod.snd hwalk)
  rw [dependencies, Array.getElem?_map, ofSpecs, List.getElem?_toArray, List.getElem?_map]
  dsimp only [start]
  rw [hroot]
  exact congrArg some (List.length_eq_zero_iff.2 (hclosed .input _ hroot))

/-- A graph is built exactly if its wiring is consistent and has no cycle. -/
theorem build_eq_ok_iff : build specs root terminal edges config = .ok g ↔
    specs.length ≤ UInt32.size ∧ Wiring.check specs edges root terminal = .ok ()
      ∧ (Topology.ofSpecs specs edges root terminal).checkAcyclic = .ok ()
      ∧ initial specs edges root terminal config = g := by
  constructor
  · intro h
    have hcount := length_le_of_build h
    have hb := h
    unfold build at hb
    obtain ⟨_, hw, hb⟩ := bind_eq_ok_iff.1 hb
    obtain ⟨_, hac, -⟩ := bind_eq_ok_iff.1 hb
    have hac : (Topology.ofSpecs specs edges root terminal).checkAcyclic = .ok () := by
      rcases hc : (Topology.ofSpecs specs edges root terminal).checkAcyclic with e | _
      · rw [hc] at hac
        cases hac
      · rfl
    rw [build_of_check hcount hw hac, Except.ok.injEq] at h
    exact ⟨hcount, hw, hac, h⟩
  · rintro ⟨hcount, hw, hac, rfl⟩
    exact build_of_check hcount hw hac

/-- With no more nodes than there are names, only the two checks refuse a graph. -/
theorem refuses_build_of {P : GraphError → Prop} (hcount : specs.length ≤ UInt32.size)
    (hcheck : Refuses P (Wiring.check specs edges root terminal))
    (hcycle : Refuses P (GraphCheck.ofExcept (ofSpecs specs edges root terminal).checkAcyclic)) :
    Refuses P (build specs root terminal edges config) := by
  rcases hw : Wiring.check specs edges root terminal with stop | ⟨⟩
  · refine .bind hcheck fun _ h => ?_
    cases hw.symm.trans h
  · rcases hac : (ofSpecs specs edges root terminal).checkAcyclic with e | ⟨⟩
    · refine .bind hcheck fun _ _ => .bind hcycle fun _ h => ?_
      rw [hac] at h
      cases h
    · rw [build_of_check hcount hw hac]
      exact .ok _

theorem refuses_build (hcount : specs.length ≤ UInt32.size) :
    Refuses (·.isConfiguration = true) (build specs root terminal edges config) :=
  refuses_build_of hcount (Wiring.refuses_check _ _ _ _) (refuses_checkAcyclic _)

theorem build_of_schedule {d : Direction} {l : List NodeId} (hcount : specs.length ≤ UInt32.size)
    (hw : Wiring.check specs edges root terminal = .ok ())
    (hl : (Topology.ofSpecs specs edges root terminal).Schedule d l) :
    build specs root terminal edges config = .ok (initial specs edges root terminal config) := by
  have ht := sound_ofSpecs (Wiring.wellFormed_of_check hw hcount)
  refine build_of_check hcount hw ((checkAcyclic_eq_ok_iff ht ?_).2 (acyclic_of_schedule hl))
  rwa [nodeCount_ofSpecs]

/-- Copies of the input go through a matrix and through a choice of elements, which are put below
each other and negated. -/
def branching : GraphBuilder ℚ :=
  let (b, copy) := (GraphBuilder.empty {}).addNode .copy [.vector 4] [.vector 4, .vector 4]
  let (b, dense) := b.addNode (.dense ⟨3, 4, #[1, 1/2, 0, 2, 0, -2, 0, 3, 1, -1, 1, 4]⟩)
    [.vector 4] [.vector 3]
  let (b, pick) := b.addNode (.stride 1 2) [.vector 4] [.vector 2]
  let (b, stack) := b.addNode .stack [.vector 3, .vector 2] [.vector 5]
  let (b, negate) := b.addNode .negate [.vector 5] [.vector 5]
  let b := (b.connectAs ⟨0⟩ copy dense).connectAs ⟨1⟩ copy pick
  let b := (b.connectAs ⟨2⟩ dense stack).connectAs ⟨3⟩ pick stack
  b.connectAs ⟨4⟩ stack negate

/-- The graph of `branching`, from its copies to its negation. -/
def branchingGraph : Graph ℚ := initial branching.nodes branching.edges ⟨0⟩ ⟨4⟩ branching.config

theorem check_branching : Wiring.check branching.nodes branching.edges ⟨0⟩ ⟨4⟩ = .ok () := rfl

/-- An order that takes the choice of elements before the matrix. -/
def branchingOrder : List NodeId := [⟨0⟩, ⟨2⟩, ⟨1⟩, ⟨3⟩, ⟨4⟩]

theorem schedule_branching : branchingGraph.topology.Schedule .forward branchingOrder :=
  schedule_of_entries (by decide) (by decide) (by decide) (by decide)

theorem build_branching :
    build branching.nodes ⟨0⟩ ⟨4⟩ branching.edges branching.config = .ok branchingGraph :=
  build_of_schedule (by decide) check_branching schedule_branching

/-- The search for a cycle and the full walks agree on every wiring that is consistent, so a graph
is built exactly if both checks pass, and is refused for its configuration only. -/
theorem acyclicity_checks_agree (specs : List (NodeSpec α)) (edges : EdgeRegistry)
    (root terminal : NodeId) (hcount : specs.length < UInt32.size) :
    (Wiring.check specs edges root terminal = .ok () →
      ∀ {σ : Type} (visit : Visitor σ), (∀ n s, (visit n s).2 = .ok ()) → ∀ (s : σ) (d : Direction),
        (Topology.ofSpecs specs edges root terminal).checkAcyclic = .ok () ↔
          ∃ l, ((Topology.ofSpecs specs edges root terminal).traverse d true visit s).2 = .ok l)
    ∧ ∀ config,
      ((∃ g, build specs root terminal edges config = .ok g) ↔
        Wiring.check specs edges root terminal = .ok ()
          ∧ (Topology.ofSpecs specs edges root terminal).checkAcyclic = .ok ())
      ∧ ∀ stop, build specs root terminal edges config = .error stop →
        ∃ e, stop = .fault e ∧ e.isConfiguration = true ∧ ∀ d nodes, e ≠ .unvisited d nodes := by
  have hcount := hcount.le
  refine ⟨fun hw σ visit hv s d => ?_, fun config => ⟨?_, fun stop h => ?_⟩⟩
  · have ht := sound_ofSpecs (Wiring.wellFormed_of_check hw hcount)
    have hcount' : (Topology.ofSpecs specs edges root terminal).nodeCount ≤ UInt32.size := by
      rwa [nodeCount_ofSpecs]
    rw [checkAcyclic_eq_ok_iff ht hcount', traverse_isOk_iff ht hcount' d hv]
  · simp only [build_eq_ok_iff, hcount, true_and]
    exact ⟨fun ⟨_, hw, hac, _⟩ => ⟨hw, hac⟩, fun ⟨hw, hac⟩ => ⟨_, hw, hac, rfl⟩⟩
  · obtain ⟨e, rfl, he⟩ := refuses_build hcount stop h
    refine ⟨e, rfl, he, ?_⟩
    rintro d nodes rfl
    cases he

theorem acyclicity_checks_agree_branching :
    (Topology.ofSpecs branching.nodes branching.edges ⟨0⟩ ⟨4⟩).checkAcyclic = .ok () ↔
      ∃ l, ((Topology.ofSpecs branching.nodes branching.edges ⟨0⟩ ⟨4⟩).traverse .adjoint true
        (fun n (visited : List NodeId) => (n :: visited, .ok ())) []).2 = .ok l :=
  (acyclicity_checks_agree branching.nodes branching.edges ⟨0⟩ ⟨4⟩ (by decide)).1 check_branching _
    (fun _ _ => rfl) [] .adjoint

end Graph

end MatrixFree
