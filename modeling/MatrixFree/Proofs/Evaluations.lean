import MatrixFree.Proofs.States

/-!
# Evaluations of a graph that was built

An evaluation leaves the buffers of a graph `Graph.Consistent`, with the contents that every
schedule of its nodes leads to (`Graph.evaluate_eq_schedule`), and of what they held before it only
what the start takes in is left (`Graph.evaluate_hides_contents`).
-/

namespace MatrixFree

open MatrixFree.Topology Wiring

variable {α : Type}

/-- What is on the port of an edge, by the offsets of the node. -/
def Node.edgeSlice? (node : Node α) (side : Side) (e : EdgeId) : Option (Array α) := do
  let start ← (node.buffer side).offsets.get? e
  let length ← (node.spec.ports side).edgeSize? e
  (Table.slice (node.data side) start length).toOption

namespace Graph

variable {specs : List (NodeSpec α)} {edges : EdgeRegistry} {root terminal n : NodeId}
  {config : Config} {d : Direction} {g₀ g g₁ g₂ : Graph α}

theorem Valid.edgeSlice?_eq (h : Valid specs edges root terminal config g) {spec : NodeSpec α}
    {node : Node α} {side : Side} {e : EdgeId} (hs : specs[n.index]? = some spec)
    (hget : g.nodes[n.index]? = some node) (he : e ∈ (spec.ports side).edges) :
    node.edgeSlice? side e = some (slice specs g.nodes n side e) := by
  have hn := h.laidOut.node hs hget
  obtain ⟨s, start, -, -, hsize, hoff, -, -, hpart⟩ := exists_offset h.wired h.laidOut hs hget he
  unfold Node.edgeSlice?
  rw [hoff, hn.spec_eq, hsize]
  simp only [Option.bind_eq_bind, Option.bind_some]
  rw [hpart]
  rfl

variable [Scalar α]

/-- Every node puts out what its operator gives for what it takes in, whatever its result buffer
held, and every edge carries the same at both ends. -/
structure Consistent (g : Graph α) (d : Direction) : Prop where
  node : ∀ node ∈ g.nodes, ∀ stale : Array α, stale.size = (node.data d.departure).size →
    node.spec.run d (node.data d.arrival) stale = .ok (node.data d.departure)
  edge : ∀ {e edge}, g.topology.edges.get? e = some edge → ∃ source target part,
    g.nodes[edge.source.index]? = some source ∧ g.nodes[edge.target.index]? = some target
      ∧ source.edgeSlice? .output e = some part ∧ target.edgeSlice? .input e = some part

theorem Valid.consistent {l : List NodeId} {x : Array α}
    (h : Valid specs edges root terminal config g) (hl : g.topology.Schedule d l)
    (hf : Flow specs edges d (outer root terminal d.arrival) x l g.nodes) : g.Consistent d := by
  refine ⟨fun node hnode stale hstale => ?_, fun {e edge} hget => ?_⟩
  · obtain ⟨i, hi, hget⟩ := Array.mem_iff_getElem.1 hnode
    have hlt : i < specs.length := h.laidOut.size_eq ▸ hi
    have hidx := NodeId.index_ofIndex (hlt.trans_le h.wired.length_le)
    have hs := NodeId.getElem?_ofIndex h.wired.length_le hlt
    have hget : g.nodes[(NodeId.ofIndex i).index]? = some node := by
      rw [hidx, Array.getElem?_eq_getElem hi, hget]
    have hn := h.laidOut.node hs hget
    have := hf.computed (.ofIndex i) (h.mem_schedule hl (by rwa [hidx])) hs stale
      (hstale.trans (hn.size_eq _))
    rwa [contents_eq hget, contents_eq hget, ← hn.spec_eq] at this
  · rw [h.topology_eq] at hget
    obtain ⟨source, hs, hes⟩ := h.wired.claimed hget .output
    obtain ⟨target, ht, het⟩ := h.wired.claimed hget .input
    obtain ⟨node, hnode, -⟩ := h.laidOut.exists_node hs
    obtain ⟨node', hnode', -⟩ := h.laidOut.exists_node ht
    refine ⟨node, node', _, hnode, hnode', h.edgeSlice?_eq hs hnode hes, ?_⟩
    rw [h.edgeSlice?_eq ht hnode' het]
    have htail : (d.tail edge).index < specs.length :=
      d.endOn_departure edge ▸ h.wired.end_lt hget d.departure
    have hc := hf.carried hget (h.mem_schedule hl htail)
    cases d
    · exact congrArg some hc
    · exact congrArg some hc.symm

/-- An evaluation computes the dataflow of the graph: it leaves consistent buffers and the buffer
that it starts from as it was, and so do the steps at all nodes in any order along the edges, with
the same contents everywhere. -/
theorem evaluate_eq_schedule (hbuild : build specs root terminal edges config = .ok g₀)
    (hg : g₀.Reachable g) (d : Direction) (elapsed : Duration) :
    ∃ g', g.evaluate d elapsed = (g', .ok ()) ∧ g'.Consistent d
      ∧ g'.buffer d.inputRole = g.buffer d.inputRole
      ∧ ∀ l, g.topology.Schedule d l →
        visitAll (step g.topology.edges d) l g.nodes = (g'.nodes, .ok ()) := by
  have h := hg.valid (.of_build hbuild)
  obtain ⟨l, nodes, hl, hflow, heval⟩ := h.exists_flow d
  have h' := h.of_flow (g.stats.record d elapsed) hflow
  refine ⟨_, heval elapsed, h'.consistent hl hflow, ?_, fun l' hl' => ?_⟩
  · exact (h'.buffer_inputRole d).trans hflow.start_eq
  · obtain ⟨nodes', hvisit, hflow'⟩ := h.exists_visitAll hl'
    rw [hvisit, h.flow_eq hl' hl hflow' hflow]

theorem evaluate_eq_schedule_branching :
    ∃ g, (branchingGraph.copyInput .forward #[3, -12, 25, 7]).1.evaluate .forward ⟨0⟩ = (g, .ok ())
      ∧ g.Consistent .forward ∧ g.buffer .forwardInput = #[3, -12, 25, 7]
      ∧ visitAll (step branching.edges .forward) branchingOrder
          (branchingGraph.copyInput .forward #[3, -12, 25, 7]).1.nodes = (g.nodes, .ok ()) := by
  obtain ⟨g, heval, hg, hinput, hvisit⟩ := evaluate_eq_schedule build_branching
    (.copyInput .forward #[3, -12, 25, 7] .refl) .forward ⟨0⟩
  exact ⟨g, heval, hg, hinput, hvisit _ schedule_branching⟩

/-- Two states of one graph that agree on what an evaluation takes in agree on all buffers after
it, and a second evaluation changes none. -/
theorem evaluate_hides_contents (hbuild : build specs root terminal edges config = .ok g₀)
    (h₁ : StateOf g₀ g₁) (h₂ : StateOf g₀ g₂) (d : Direction)
    (hin : g₁.buffer d.inputRole = g₂.buffer d.inputRole) (elapsed₁ elapsed₂ : Duration) :
    ∃ g₁' g₂', g₁.evaluate d elapsed₁ = (g₁', .ok ()) ∧ g₂.evaluate d elapsed₂ = (g₂', .ok ())
      ∧ g₁'.nodes = g₂'.nodes
      ∧ ∀ elapsed, ∃ g'', g₁'.evaluate d elapsed = (g'', .ok ()) ∧ g''.nodes = g₁'.nodes := by
  have h₁ := (Valid.of_build hbuild).of_stateOf h₁
  have h₂ := (Valid.of_build hbuild).of_stateOf h₂
  obtain ⟨l₁, nodes₁, hl₁, hflow₁, heval₁⟩ := h₁.exists_flow d
  obtain ⟨l₂, nodes₂, hl₂, hflow₂, heval₂⟩ := h₂.exists_flow d
  rw [← hin] at hflow₂
  rw [h₂.topology_eq, ← h₁.topology_eq] at hl₂
  refine ⟨_, _, heval₁ elapsed₁, heval₂ elapsed₂, ?_, fun elapsed => ?_⟩
  · exact h₁.flow_eq hl₁ hl₂ hflow₁ hflow₂
  · have h' := h₁.of_flow (g₁.stats.record d elapsed₁) hflow₁
    obtain ⟨l, nodes, hl, hflow, heval⟩ := h'.exists_flow d
    rw [h'.buffer_inputRole, hflow₁.start_eq] at hflow
    exact ⟨_, heval elapsed, h'.flow_eq hl hl₁ hflow hflow₁⟩

theorem evaluate_hides_contents_branching :
    ∃ g₁ g₂, branchingGraph.evaluate .forward ⟨0⟩ = (g₁, .ok ())
      ∧ (branchingGraph.copyInput .adjoint #[4, -2, 8, 1, -12]).1.evaluate .forward ⟨0⟩ = (g₂, .ok ())
      ∧ g₁.nodes = g₂.nodes := by
  have hcopy : branchingGraph.Reachable (branchingGraph.copyInput .adjoint #[4, -2, 8, 1, -12]).1 :=
    .copyInput .adjoint _ .refl
  obtain ⟨g₁, g₂, h₁, h₂, h, -⟩ := evaluate_hides_contents build_branching
    (Reachable.refl.stateOf build_branching) (hcopy.stateOf build_branching) .forward rfl ⟨0⟩ ⟨0⟩
  exact ⟨g₁, g₂, h₁, h₂, h⟩

end Graph

end MatrixFree
