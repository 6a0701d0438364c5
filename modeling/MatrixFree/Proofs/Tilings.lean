import MatrixFree.Proofs.Sessions

/-!
# Offsets tile the buffers

The offsets of a side are laid out in the order of its edges, each one where the port before it ends
(`OffsetMap.abut_tile`). On a side that has edges every port has one, so the ranges of the edges
fill the buffer without a gap or an overlap (`Node.Tiled`), and both ranges of an edge have one
length. This is so in every state of a graph that was built (`Graph.offsets_tile`).
-/

namespace MatrixFree

variable {α : Type}

/-- Ranges that begin at `start`, each one where the one before it ends, and end at `stop`. -/
def Abut : (start : ℕ) → List (ℕ × ℕ) → (stop : ℕ) → Prop
  | start, [], stop => start = stop
  | start, r :: ranges, stop => r.1 = start ∧ Abut r.2 ranges stop

namespace OffsetMap

/-- Each edge with its range, from its offset on as long as the port in its place. -/
def ranges (m : OffsetMap) (shapes : List Shape) : List (EdgeId × ℕ × ℕ) :=
  List.zipWith (fun entry s => (entry.1, entry.2, entry.2 + s.size)) m shapes

theorem map_fst_tile : ∀ (start : ℕ) {edges : List EdgeId} {shapes : List Shape},
    edges.length ≤ shapes.length → (tile start edges shapes).map Prod.fst = edges
  | _, [], _, _ => by simp [tile]
  | start, e :: edges, s :: shapes, h => by
    rw [tile, List.map_cons, map_fst_tile (start + s.size) (by simpa using h)]

theorem getElem?_tile {e : EdgeId} {s : Shape} : ∀ (start : ℕ) {edges : List EdgeId}
    {shapes : List Shape} {k : ℕ}, edges[k]? = some e → shapes[k]? = some s →
    (tile start edges shapes)[k]? = some (e, start + ((shapes.take k).map Shape.size).sum)
  | start, e' :: edges, s' :: shapes, 0, he, _ => by
    obtain rfl : e' = e := by simpa using he
    simp [tile]
  | start, e' :: edges, s' :: shapes, k + 1, he, hs => by
    rw [List.getElem?_cons_succ] at he hs
    rw [tile, List.getElem?_cons_succ, getElem?_tile (start + s'.size) he hs, List.take_succ_cons,
      List.map_cons, List.sum_cons, ← Nat.add_assoc]

theorem abut_tile : ∀ (start : ℕ) {edges : List EdgeId} {shapes : List Shape},
    edges.length = shapes.length →
    Abut start (((tile start edges shapes).ranges shapes).map Prod.snd)
      (start + (shapes.map Shape.size).sum)
  | _, [], [], _ => rfl
  | start, e :: edges, s :: shapes, h => by
    have ih := abut_tile (start + s.size) (Nat.succ.inj h)
    rw [Nat.add_assoc] at ih
    exact ⟨rfl, ih⟩

theorem mem_ranges {m : OffsetMap} {shapes : List Shape} {k a : ℕ} {e : EdgeId} {s : Shape}
    (hm : m[k]? = some (e, a)) (hs : shapes[k]? = some s) :
    (e, a, a + s.size) ∈ m.ranges shapes := by
  refine List.mem_of_getElem? (i := k) ?_
  rw [ranges, List.getElem?_zipWith, hm, hs]

end OffsetMap

namespace Node

/-- Each edge on a side of a node with its range in the buffer. -/
def ranges (node : Node α) (side : Side) : List (EdgeId × ℕ × ℕ) :=
  (node.buffer side).offsets.ranges (node.spec.ports side).shapes

/-- On a side of a node every port has an edge, and no other port has it. The edges have one range
each, in their order, and these lie end to end from the start of the buffer to its end. The offset
of an edge is found under its name. -/
structure Tiled (node : Node α) (side : Side) : Prop where
  edges_eq : (node.buffer side).offsets.map Prod.fst = (node.spec.ports side).edges
  length_eq : (node.spec.ports side).edges.length = (node.spec.ports side).shapes.length
  nodup : (node.spec.ports side).edges.Nodup
  abut : Abut 0 ((node.ranges side).map Prod.snd) (node.data side).size
  get?_eq : ∀ (i : ℕ) e, (node.spec.ports side).edges[i]? = some e →
    ∃ a, (node.buffer side).offsets[i]? = some (e, a) ∧ (node.buffer side).offsets.get? e = some a

variable {spec : NodeSpec α} {node : Node α} {side : Side} {e : EdgeId}

namespace LaidOut

theorem size_data (h : LaidOut spec node) (hp : (spec.ports side).Tiled) :
    (node.data side).size = ((spec.ports side).shapes.map Shape.size).sum :=
  (h.size_eq side).trans hp.fits.total_eq_sum

theorem tiled (h : LaidOut spec node) (hp : (spec.ports side).Tiled)
    (hlen : (spec.ports side).edges.length = (spec.ports side).shapes.length) :
    node.Tiled side := by
  obtain rfl := h.spec_eq
  refine ⟨?_, hlen, hp.nodup, ?_, fun i e he => ?_⟩
  · rw [h.offsets_eq]
    exact OffsetMap.map_fst_tile 0 hp.length_le
  · have habut := OffsetMap.abut_tile 0 hlen
    rw [ranges, h.offsets_eq, h.size_data hp]
    rwa [Nat.zero_add] at habut
  · have hlt : i < (node.spec.ports side).shapes.length :=
      hlen ▸ (List.getElem?_eq_some_iff.1 he).1
    have hs := List.getElem?_eq_getElem hlt
    rw [h.offsets_eq]
    exact ⟨_, OffsetMap.getElem?_tile 0 he hs, OffsetMap.get?_tile 0 hp.nodup he hs⟩

/-- An edge has a range, of the size of its port. -/
theorem exists_range (h : LaidOut spec node) (hp : (spec.ports side).Tiled)
    (he : e ∈ (spec.ports side).edges) : ∃ a n, (spec.ports side).edgeSize? e = some n
      ∧ (e, a, a + n) ∈ node.ranges side := by
  obtain ⟨s, hs, hsize, -⟩ := PortList.exists_port hp he
  have hmem := OffsetMap.mem_ranges (OffsetMap.getElem?_tile 0 (List.getElem?_idxOf he) hs) hs
  rw [← h.offsets_eq side, ← h.spec_eq] at hmem
  exact ⟨_, s.size, hsize, hmem⟩

end LaidOut

end Node

/-- Only the outer sides have a port without an edge, and they have no edges. -/
theorem Wiring.WellFormed.length_eq {specs : List (NodeSpec α)} {edges : EdgeRegistry}
    {root terminal : NodeId} (h : WellFormed specs edges root terminal) {i : ℕ}
    {spec : NodeSpec α} {side : Side} (hs : specs[i]? = some spec)
    (hne : (spec.ports side).edges ≠ []) :
    (spec.ports side).edges.length = (spec.ports side).shapes.length := by
  rw [(h.nodeFits hs).ports side, if_neg, Nat.add_zero]
  intro hi
  have hlt := (List.getElem?_eq_some_iff.1 hs).1.trans_le h.length_le
  have houter : specs[(outer root terminal side).index]? = some spec := by
    rwa [← hi, NodeId.index_ofIndex hlt]
  exact hne (h.closed houter)

namespace Graph

variable [Scalar α] {specs : List (NodeSpec α)} {edges : EdgeRegistry} {root terminal : NodeId}
  {config : Config} {g₀ g : Graph α}

/-- In a graph that was built, and whatever has been done with it, every buffer has the length of
its ports together; on a side with edges their ranges, as the offsets give them, tile the buffer;
and both ranges of a registered edge have one length. The states that a batch or a solver goes
through are among these (`Reachable.evaluateOne`, `Reachable.solve`). -/
theorem offsets_tile (hbuild : build specs root terminal edges config = .ok g₀)
    (hg : g₀.Reachable g) :
    g.nodes.size = specs.length
      ∧ (∀ (i : ℕ) node, g.nodes[i]? = some node → specs[i]? = some node.spec ∧ ∀ side,
        (node.data side).size = ((node.spec.ports side).shapes.map Shape.size).sum
          ∧ ((node.spec.ports side).edges ≠ [] → node.Tiled side))
      ∧ ∀ e edge, g.topology.edges.get? e = some edge → ∃ source target a b n,
        g.nodes[edge.source.index]? = some source ∧ g.nodes[edge.target.index]? = some target
          ∧ (e, a, a + n) ∈ source.ranges .output ∧ (e, b, b + n) ∈ target.ranges .input := by
  have h := hg.valid (.of_build hbuild)
  have hw := h.wired
  refine ⟨h.laidOut.size_eq, fun i node hnode => ?_, fun e edge hget => ?_⟩
  · have hlt : i < specs.length := h.laidOut.size_eq ▸ (Array.getElem?_eq_some_iff.1 hnode).1
    have hs := List.getElem?_eq_getElem hlt
    have hlaid := h.laidOut.node hs hnode
    rw [← hlaid.spec_eq] at hs hlaid
    have hports := fun side => (hw.nodeFits hs).tiled side
    exact ⟨hs, fun side => ⟨hlaid.size_data (hports side), fun hne =>
      hlaid.tiled (hports side) (hw.length_eq hs hne)⟩⟩
  · rw [h.topology_eq] at hget
    obtain ⟨source, hsource, heout⟩ := hw.claimed hget .output
    obtain ⟨target, htarget, hein⟩ := hw.claimed hget .input
    obtain ⟨sourceNode, hsourceNode, hout⟩ := h.laidOut.exists_node hsource
    obtain ⟨targetNode, htargetNode, hin⟩ := h.laidOut.exists_node htarget
    obtain ⟨a, n, hn, ha⟩ := hout.exists_range (hw.tiled hsource .output) heout
    obtain ⟨b, m, hm, hb⟩ := hin.exists_range (hw.tiled htarget .input) hein
    have hsizes := hw.edgeSize?_eq hget hsource htarget
    obtain rfl : n = m := Option.some.inj (hn.symm.trans (hsizes.trans hm))
    exact ⟨sourceNode, targetNode, a, b, n, hsourceNode, htargetNode, ha, hb⟩

/-- `splittingGraph` after a solve. -/
def solvedGraph : Graph Float :=
  (LeastSquares.solve ⟨5⟩ splittingGraph #[1, 2, 3, 4, 5] ⟨3, 0⟩).1

theorem offsets_tile_solved : splittingGraph.Reachable solvedGraph ∧ ∃ node,
    solvedGraph.nodes[1]? = some node ∧ (node.data .input).size = 5 ∧ node.Tiled .input := by
  have hg : splittingGraph.Reachable solvedGraph := Reachable.refl.solve ⟨5⟩ _ ⟨3, 0⟩
  obtain ⟨hsize, hnodes, -⟩ := offsets_tile build_splitting hg
  have hlt : 1 < solvedGraph.nodes.size := hsize ▸ by decide
  have hnode := Array.getElem?_eq_getElem hlt
  obtain ⟨hspec, hsides⟩ := hnodes 1 _ hnode
  obtain ⟨hlen, htiled⟩ := hsides .input
  rw [← Option.some.inj hspec] at hlen htiled
  exact ⟨hg, _, hnode, hlen, htiled (by decide)⟩

-- the port of the second edge is empty
example : splittingGraph.nodes[1]?.map (·.ranges .input)
    = some [(⟨0⟩, 0, 2), (⟨1⟩, 2, 2), (⟨2⟩, 2, 5)] := rfl

end Graph

end MatrixFree
