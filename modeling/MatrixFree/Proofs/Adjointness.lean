import MatrixFree.Proofs.Adjoints
import MatrixFree.Proofs.States

/-!
# The adjoint of a graph

A forward and an adjoint evaluation are paired by the inner products of the buffers that they leave.
At a node both sides have the same one, over an edge it is the same at both ends, and the buffers on
one side of the nodes are the one that is open to the outside and the edges
(`Graph.sum_inner_contents`). So the inner products on the open sides are equal
(`Graph.adjoint_identity`).
-/

namespace MatrixFree

open MatrixFree.Topology Wiring

namespace Graph

variable {R : Type} {specs : List (NodeSpec R)} {edges : EdgeRegistry} {root terminal n : NodeId}
  {config : Config} {nodes nodes' : Array (Node R)} {spec : NodeSpec R} {l l' : List NodeId}
  {x y : Array R}

section

variable [CommRing R] (hw : WellFormed specs edges root terminal) (h : LaidOut specs nodes)
  (h' : LaidOut specs nodes')
include hw h h'

/-- The buffers on a side of a node are those on its edges, unless the side is open to the
outside. -/
theorem inner_contents (hs : specs[n.index]? = some spec) (side : Side) :
    Buffer.inner (contents nodes n side) (contents nodes' n side)
      = (if n = outer root terminal side then
          Buffer.inner (contents nodes n side) (contents nodes' n side) else 0)
        + ∑ p ∈ edges.entries.toFinset with endOn side p.2 = n,
            Buffer.inner (slice specs nodes n side p.1) (slice specs nodes' n side p.1) := by
  have hedges : (edges.entries.toFinset.filter fun p => endOn side p.2 = n).image Prod.fst
      = (spec.ports side).edges.toFinset := by
    ext e
    simp only [Finset.mem_image, Finset.mem_filter, List.mem_toFinset]
    constructor
    · rintro ⟨⟨e, edge⟩, ⟨hmem, rfl⟩, rfl⟩
      exact hw.mem_of_end side (EdgeRegistry.get?_eq_some_iff.2 hmem) hs
    · intro he
      obtain ⟨edge, hget, hend⟩ := hw.end_eq side hs he
      exact ⟨(e, edge), ⟨EdgeRegistry.get?_eq_some_iff.1 hget, hend⟩, rfl⟩
  have hinj : Set.InjOn Prod.fst
      (edges.entries.toFinset.filter fun p => endOn side p.2 = n : Set (EdgeId × Edge)) := by
    rintro ⟨e, edge⟩ he ⟨e', edge'⟩ he' rfl
    have hget := EdgeRegistry.get?_eq_some_iff.2 (List.mem_toFinset.1 (Finset.mem_filter.1 he).1)
    have hget' := EdgeRegistry.get?_eq_some_iff.2 (List.mem_toFinset.1 (Finset.mem_filter.1 he').1)
    obtain rfl : edge = edge' := by simpa [hget] using hget'
    rfl
  have hsum : ∑ p ∈ edges.entries.toFinset with endOn side p.2 = n,
        Buffer.inner (slice specs nodes n side p.1) (slice specs nodes' n side p.1)
      = ((spec.ports side).edges.map fun e =>
          Buffer.inner (slice specs nodes n side e) (slice specs nodes' n side e)).sum := by
    rw [← List.sum_toFinset _ (hw.tiled hs side).nodup, ← hedges, Finset.sum_image hinj]
  rw [hsum]
  by_cases hopen : n = outer root terminal side
  · subst hopen
    rw [if_pos rfl, hw.closed hs, List.map_nil, List.sum_nil, add_zero]
  · have hports := (hw.nodeFits hs).ports side
    rw [NodeId.ofIndex_index, if_neg hopen] at hports
    rw [if_neg hopen, zero_add, PortList.inner_eq_sum_window (hw.tiled hs side) hports.symm
      (h.size_contents hs side) (h'.size_contents hs side)]
    simp only [slice, portsOf_eq hs]

/-- All buffers on one side of the nodes are the open one and those on the edges. -/
theorem sum_inner_contents (side : Side) :
    ∑ i ∈ Finset.range specs.length,
        Buffer.inner (contents nodes (.ofIndex i) side) (contents nodes' (.ofIndex i) side)
      = Buffer.inner (contents nodes (outer root terminal side) side)
          (contents nodes' (outer root terminal side) side)
        + ∑ p ∈ edges.entries.toFinset, Buffer.inner (slice specs nodes (endOn side p.2) side p.1)
            (slice specs nodes' (endOn side p.2) side p.1) := by
  have hidx : ∀ i < specs.length, ∀ m : NodeId, m = .ofIndex i ↔ m.index = i := fun i hi m => by
    rw [← NodeId.index_inj, NodeId.index_ofIndex (hi.trans_le hw.length_le)]
  have hnode : ∀ i ∈ Finset.range specs.length,
      Buffer.inner (contents nodes (.ofIndex i) side) (contents nodes' (.ofIndex i) side)
        = (if (outer root terminal side).index = i then
            Buffer.inner (contents nodes (outer root terminal side) side)
              (contents nodes' (outer root terminal side) side) else 0)
          + ∑ p ∈ edges.entries.toFinset with (endOn side p.2).index = i,
              Buffer.inner (slice specs nodes (endOn side p.2) side p.1)
                (slice specs nodes' (endOn side p.2) side p.1) := by
    intro i hi
    have hi := Finset.mem_range.1 hi
    rw [inner_contents hw h h' (NodeId.getElem?_ofIndex hw.length_le hi) side]
    congr 1
    · by_cases ho : (outer root terminal side).index = i
      · rw [if_pos ho, (hidx i hi _).2 ho, if_pos rfl]
      · rw [if_neg ho, if_neg fun hn => ho ((hidx i hi _).1 hn.symm)]
    · simp only [hidx i hi]
      refine Finset.sum_congr rfl fun p hp => ?_
      rw [(hidx i hi _).2 (Finset.mem_filter.1 hp).2]
  rw [Finset.sum_congr rfl hnode, Finset.sum_add_distrib, Finset.sum_ite_eq,
    if_pos (Finset.mem_range.2 (hw.outer_lt side)), Finset.sum_fiberwise_of_maps_to]
  rintro ⟨e, edge⟩ hp
  have hget := EdgeRegistry.get?_eq_some_iff.2 (List.mem_toFinset.1 hp)
  exact Finset.mem_range.2 (hw.end_lt hget side)

end

section

variable [ExactScalar R] (hw : WellFormed specs edges root terminal)
  (hf : Flow specs edges .forward root x l nodes)
  (hb : Flow specs edges .adjoint terminal y l' nodes')
include hw hf hb

/-- A node pairs what it takes in with what it puts out, whichever direction these are of. -/
theorem inner_node (hs : specs[n.index]? = some spec) (hn : n ∈ l) (hn' : n ∈ l') :
    Buffer.inner (contents nodes n .output) (contents nodes' n .output)
      = Buffer.inner (contents nodes n .input) (contents nodes' n .input) := by
  have hfits := hw.nodeFits hs
  have hax := hf.computed n hn hs _ (hf.laidOut.size_contents hs .output)
  have haty := hb.computed n hn' hs _ (hb.laidOut.size_contents hs .input)
  exact Operator.inner_forward hfits.accepts (hfits.fits .input) (hfits.fits .output)
    (hf.laidOut.size_contents hs .input) (hb.laidOut.size_contents hs .output)
    (hf.laidOut.size_contents hs .output) (hb.laidOut.size_contents hs .input) hax haty

/-- The open sides pair the input of either direction with the output of the other one. -/
theorem inner_outer (hall : ∀ n : NodeId, n.index < specs.length → n ∈ l)
    (hall' : ∀ n : NodeId, n.index < specs.length → n ∈ l') :
    Buffer.inner (contents nodes terminal .output) y
      = Buffer.inner x (contents nodes' root .input) := by
  have hnodes : ∀ i ∈ Finset.range specs.length,
      Buffer.inner (contents nodes (.ofIndex i) .output) (contents nodes' (.ofIndex i) .output)
        = Buffer.inner (contents nodes (.ofIndex i) .input) (contents nodes' (.ofIndex i) .input) := by
    intro i hi
    have hi := Finset.mem_range.1 hi
    have hlt : (NodeId.ofIndex i).index < specs.length := by
      rwa [NodeId.index_ofIndex (hi.trans_le hw.length_le)]
    exact inner_node hw hf hb (NodeId.getElem?_ofIndex hw.length_le hi) (hall _ hlt) (hall' _ hlt)
  have hedges : ∀ p ∈ edges.entries.toFinset,
      Buffer.inner (slice specs nodes (endOn .output p.2) .output p.1)
          (slice specs nodes' (endOn .output p.2) .output p.1)
        = Buffer.inner (slice specs nodes (endOn .input p.2) .input p.1)
          (slice specs nodes' (endOn .input p.2) .input p.1) := by
    rintro ⟨e, edge⟩ hp
    have hget := EdgeRegistry.get?_eq_some_iff.2 (List.mem_toFinset.1 hp)
    have hc := hf.carried hget (hall _ (hw.end_lt hget .output))
    have hc' := hb.carried hget (hall' _ (hw.end_lt hget .input))
    exact congrArg₂ Buffer.inner hc.symm hc'
  have hsum := Finset.sum_congr rfl hnodes
  rw [sum_inner_contents hw hf.laidOut hb.laidOut .output,
    sum_inner_contents hw hf.laidOut hb.laidOut .input, Finset.sum_congr rfl hedges] at hsum
  have houter := add_right_cancel hsum
  rw [← hf.start_eq, ← hb.start_eq]
  exact houter

end

/-- In every state of a graph that was built, and in all states after it, the forward evaluations
of `x` give one `ax` as long as `y`, and the adjoint evaluations of `y` give one `aty` as long as
`x`, and the inner product of `ax` and `y` is that of `x` and `aty`. -/
theorem adjoint_identity [ExactScalar R] {g₀ g : Graph R}
    (hbuild : build specs root terminal edges config = .ok g₀) (hg : g₀.Reachable g)
    (hx : x.size = g.inputLength) (hy : y.size = g.outputLength) : ∃ ax aty,
      (∀ g', g.Reachable g' → ∀ elapsed, ∃ g'', g.Reachable g''
        ∧ Batch.evaluateOne .forward elapsed g' x = (g'', .ok ax))
      ∧ (∀ g', g.Reachable g' → ∀ elapsed, ∃ g'', g.Reachable g''
        ∧ Batch.evaluateOne .adjoint elapsed g' y = (g'', .ok aty))
      ∧ ax.size = g.outputLength ∧ aty.size = g.inputLength
      ∧ Buffer.inner ax y = Buffer.inner x aty := by
  have h := hg.valid (.of_build hbuild)
  obtain ⟨l, nodes, hl, hf, hax⟩ := h.exists_result (d := .forward) hx
  obtain ⟨l', nodes', hl', hb, haty⟩ := h.exists_result (d := .adjoint) hy
  refine ⟨_, _, hax, haty, h.size_result hf, h.size_result hb, ?_⟩
  exact inner_outer h.wired hf hb (fun _ => h.mem_schedule hl) fun _ => h.mem_schedule hl'

theorem adjoint_identity_branching :
    ∃ ax aty, (Batch.evaluateOne .forward ⟨0⟩ branchingGraph #[3, -12, 25, 7]).2 = .ok ax
      ∧ (Batch.evaluateOne .adjoint ⟨0⟩ branchingGraph #[4, -2, 8, 1, -12]).2 = .ok aty
      ∧ ax.size = 5 ∧ aty.size = 4
      ∧ Buffer.inner ax #[4, -2, 8, 1, -12] = Buffer.inner #[3, -12, 25, 7] aty := by
  obtain ⟨ax, aty, hax, haty, hsize, hsize', h⟩ := adjoint_identity build_branching .refl
    (show #[3, -12, 25, 7].size = branchingGraph.inputLength from rfl)
    (show #[4, -2, 8, 1, -12].size = branchingGraph.outputLength from rfl)
  obtain ⟨g, -, hg⟩ := hax _ .refl ⟨0⟩
  obtain ⟨g', -, hg'⟩ := haty _ .refl ⟨0⟩
  exact ⟨ax, aty, congrArg Prod.snd hg, congrArg Prod.snd hg', hsize, hsize', h⟩

end Graph

end MatrixFree
