import MatrixFree.Proofs.Evaluations
import MatrixFree.Proofs.Tilings

/-!
# What sending from a node changes

The slices of the edges on a side are apart, and where a side has edges every place of its buffer is
in the slice of one (`PortList.exists_covers`). So in every state of a graph that was built,
sending from a node copies the slice of each edge that leaves it to the node at its head, and no
other place of any buffer is touched (`Graph.propagate_delivers`).
-/

namespace MatrixFree

open Wiring

variable {α : Type}

namespace PortList

/-- A place of the buffer is on the port of the edge. -/
def Covers (p : PortList) (e : EdgeId) (j : ℕ) : Prop :=
  e ∈ p.edges ∧ p.start (p.slot e) ≤ j ∧ j < p.start (p.slot e) + (p.edgeSize? e).getD 0

variable {p : PortList} {e e' : EdgeId} {j : ℕ} {x y : Array α}

/-- The ports lie end to end. -/
theorem exists_start_le : ∀ {shapes : List Shape} {j : ℕ}, j < (shapes.map Shape.size).sum →
    ∃ (k : ℕ) (s : Shape), shapes[k]? = some s ∧ ((shapes.take k).map Shape.size).sum ≤ j
      ∧ j < ((shapes.take k).map Shape.size).sum + s.size
  | s :: shapes, j, h => by
    rw [List.map_cons, List.sum_cons] at h
    by_cases hj : j < s.size
    · exact ⟨0, s, rfl, Nat.zero_le _, by simpa using hj⟩
    · have hrest : j - s.size < (shapes.map Shape.size).sum := by omega
      obtain ⟨k, t, ht, hle, hlt⟩ := exists_start_le hrest
      refine ⟨k + 1, t, ht, ?_, ?_⟩
      · rw [List.take_succ_cons, List.map_cons, List.sum_cons]
        omega
      · rw [List.take_succ_cons, List.map_cons, List.sum_cons]
        omega

/-- If every port has an edge, every place is on the port of one. -/
theorem exists_covers (hp : p.Tiled) (hlen : p.edges.length = p.shapes.length)
    (hj : j < (p.shapes.map Shape.size).sum) : ∃ e, p.Covers e j := by
  obtain ⟨k, s, hs, hle, hlt⟩ := exists_start_le hj
  have hk : k < p.edges.length := hlen ▸ (List.getElem?_eq_some_iff.1 hs).1
  have hslot : p.slot p.edges[k] = k := hp.nodup.idxOf_getElem k hk
  have hmem : p.edges[k] ∈ p.edges := List.getElem_mem hk
  obtain ⟨s', hs', hsize, -⟩ := exists_port hp hmem
  rw [hslot, hs, Option.some.injEq] at hs'
  refine ⟨p.edges[k], hmem, ?_, ?_⟩
  · rwa [hslot]
  · rwa [hslot, hsize, ← hs']

/-- No place is on the ports of two edges. -/
theorem Covers.eq (hp : p.Tiled) (h : p.Covers e j) (h' : p.Covers e' j) : e = e' := by
  obtain ⟨he, hle, hlt⟩ := h
  obtain ⟨he', hle', hlt'⟩ := h'
  by_contra hne
  have hapart := apart_of_ne hp he' he hne
  omega

/-- Buffers with the same on a port have the same at each of its places. -/
theorem Covers.getElem?_eq (h : p.Covers e j) (hsize : x.size = y.size)
    (hwindow : p.window e x = p.window e y) : x[j]? = y[j]? := by
  obtain ⟨-, hle, hlt⟩ := h
  have hget := congrArg (fun z => z[j - p.start (p.slot e)]?) hwindow
  dsimp only [window] at hget
  rw [Array.getElem?_extract, Array.getElem?_extract, ← hsize, Nat.add_sub_cancel' hle] at hget
  by_cases hj : j < x.size
  · rwa [if_pos (by omega), if_pos (by omega)] at hget
  · rw [Array.getElem?_eq_none (by omega), Array.getElem?_eq_none (by omega)]

end PortList

/-- A place of the buffer on a side is in the slice of an edge, by the offsets of the node. -/
def Node.Covers (node : Node α) (side : Side) (e : EdgeId) (j : ℕ) : Prop :=
  ∃ start length, (node.buffer side).offsets.get? e = some start
    ∧ (node.spec.ports side).edgeSize? e = some length ∧ start ≤ j ∧ j < start + length

theorem Node.LaidOut.covers_iff {spec : NodeSpec α} {node : Node α} {side : Side} {e : EdgeId}
    {j : ℕ} (h : LaidOut spec node) (hp : (spec.ports side).Tiled) :
    node.Covers side e j ↔ (spec.ports side).Covers e j := by
  rw [Covers, PortList.Covers, h.offsets_eq, h.spec_eq]
  by_cases he : e ∈ (spec.ports side).edges
  · obtain ⟨s, -, hsize, hoff⟩ := PortList.exists_port hp he
    rw [hsize, hoff]
    simp [he]
  · rw [PortList.edgeSize?_eq_none he]
    simp [he]

namespace Graph

/-- A place of the buffer on a side of `m` is in the slice of an edge that leaves `n`. -/
def Receives (g : Graph α) (d : Direction) (n m : NodeId) (side : Side) (j : ℕ) : Prop :=
  side = d.arrival ∧ ∃ node head e edge, g.nodes[n.index]? = some node
    ∧ e ∈ (node.spec.ports d.departure).edges ∧ g.topology.edges.get? e = some edge
    ∧ d.head edge = m ∧ g.nodes[m.index]? = some head ∧ head.Covers side e j

/-- What sending from `n` does: the slice of each edge that leaves `n` is copied to the node at its
head, where the slices of different edges are apart. No other place of any buffer changes, none in
the buffers of `n`, and nothing but the contents of buffers. -/
structure Delivers (g : Graph α) (d : Direction) (n : NodeId) (nodes : Array (Node α)) : Prop where
  state : g.StateOf { g with nodes }
  delivered : ∀ node, g.nodes[n.index]? = some node → ∀ e ∈ (node.spec.ports d.departure).edges,
    ∃ edge head part, g.topology.edges.get? e = some edge ∧ d.tail edge = n ∧ d.head edge ≠ n
      ∧ nodes[(d.head edge).index]? = some head ∧ node.edgeSlice? d.departure e = some part
      ∧ head.edgeSlice? d.arrival e = some part
  apart : ∀ head ∈ nodes, ∀ side e e' j, head.Covers side e j → head.Covers side e' j → e = e'
  kept : ∀ m side j, ¬ g.Receives d n m side j →
    (contents nodes m side)[j]? = (contents g.nodes m side)[j]?
  own : ∀ side, contents nodes n side = contents g.nodes n side

variable {specs : List (NodeSpec α)} {edges : EdgeRegistry} {root terminal n : NodeId}
  {config : Config} {d : Direction} {g₀ g : Graph α} {nodes : Array (Node α)}
  {spec : NodeSpec α}

namespace Valid

variable (h : Valid specs edges root terminal config g)
include h

theorem of_sent {sent : List EdgeId} (hsent : Sent specs edges d n sent g.nodes nodes) :
    Valid specs edges root terminal config { g with nodes } :=
  ⟨h.wired, h.acyclic, h.topology_eq, h.config_eq, hsent.laidOut⟩

/-- A place that is not in the slice of an edge that was sent holds what it held. -/
theorem getElem?_of_sent (hs : specs[n.index]? = some spec)
    (hsent : Sent specs edges d n (spec.ports d.departure).edges g.nodes nodes) {m : NodeId}
    {side : Side} {j : ℕ} (hnot : ¬ g.Receives d n m side j) :
    (contents nodes m side)[j]? = (contents g.nodes m side)[j]? := by
  by_cases hhead : side = d.arrival ∧ ∃ e ∈ (spec.ports d.departure).edges, ∃ edge,
      edges.get? e = some edge ∧ d.head edge = m
  · obtain ⟨rfl, x, hx, xedge, hxget, hm⟩ := hhead
    obtain ⟨xedge', head, hxget', -, hh, hmem, -⟩ := h.wired.exists_head hs hx
    obtain rfl : xedge = xedge' := by simpa [hxget] using hxget'
    rw [hm] at hh
    have hp := h.wired.tiled hh d.arrival
    have hsize := h.laidOut.size_contents hh d.arrival
    have hsize' := hsent.laidOut.size_contents hh d.arrival
    by_cases hj : j < head.length d.arrival
    · -- the buffer at the head is nothing but slices, so the place is in one that was not sent
      have hsum : j < ((head.ports d.arrival).shapes.map Shape.size).sum :=
        hj.trans_eq hp.fits.total_eq_sum
      obtain ⟨e, hcovers⟩ := PortList.exists_covers hp
        (h.wired.length_eq hh (List.ne_nil_of_mem hmem)) hsum
      obtain ⟨edge, hget, hend⟩ := h.wired.end_eq d.arrival hh hcovers.1
      rw [d.endOn_arrival] at hend
      have hunsent : e ∉ (spec.ports d.departure).edges := fun he => by
        obtain ⟨node, hnode, hlaid⟩ := h.laidOut.exists_node hs
        obtain ⟨headNode, hheadNode, hheadLaid⟩ := h.laidOut.exists_node hh
        refine hnot ⟨rfl, node, headNode, e, edge, hnode, ?_, ?_, hend, hheadNode, ?_⟩
        · rwa [hlaid.spec_eq]
        · rwa [h.topology_eq]
        · exact (hheadLaid.covers_iff hp).2 hcovers
      have hkept := hsent.kept e hunsent edge hget
      rw [hend, slice, slice, portsOf_eq hh] at hkept
      exact hcovers.getElem?_eq (hsize'.trans hsize.symm) hkept
    · rw [Array.getElem?_eq_none (by omega), Array.getElem?_eq_none (by omega)]
  · rw [hsent.other m side fun hside e he edge hget hm => hhead ⟨hside, e, he, edge, hget, hm⟩]

/-- The slice of each edge that leaves a node has reached the node at its head. -/
theorem exists_delivered (hs : specs[n.index]? = some spec)
    (hsent : Sent specs edges d n (spec.ports d.departure).edges g.nodes nodes) {node : Node α}
    (hnode : g.nodes[n.index]? = some node) {e : EdgeId}
    (he : e ∈ (spec.ports d.departure).edges) :
    ∃ edge head part, g.topology.edges.get? e = some edge ∧ d.tail edge = n ∧ d.head edge ≠ n
      ∧ nodes[(d.head edge).index]? = some head ∧ node.edgeSlice? d.departure e = some part
      ∧ head.edgeSlice? d.arrival e = some part := by
  have h' := h.of_sent hsent
  obtain ⟨edge, headSpec, hget, htail, hh, hmem, hne⟩ := h.wired.exists_head hs he
  obtain ⟨head, hhead, -⟩ := h'.laidOut.exists_node hh
  refine ⟨edge, head, _, by rwa [h.topology_eq], htail, hne, hhead,
    h.edgeSlice?_eq hs hnode he, ?_⟩
  rw [h'.edgeSlice?_eq hh hhead hmem]
  exact congrArg some (hsent.delivered e he edge hget)

theorem exists_delivers (hn : n.index < g.nodes.size) (d : Direction) :
    ∃ nodes, Routing.propagate g.topology.edges n d g.nodes = (nodes, .ok ())
      ∧ g.Delivers d n nodes := by
  have hlt : n.index < specs.length := h.laidOut.size_eq ▸ hn
  have hs := List.getElem?_eq_getElem hlt
  generalize specs[n.index] = spec at hs
  obtain ⟨nodes, hpropagate, hsent⟩ := exists_propagate h.wired hs h.laidOut (d := d)
  have h' := h.of_sent hsent
  refine ⟨nodes, h.topology_eq ▸ hpropagate, h.stateOf h', fun node hnode e he => ?_,
    fun head hhead side e e' j hc hc' => ?_, fun m side j => h.getElem?_of_sent hs hsent,
    fun side => ?_⟩
  · rw [(h.laidOut.node hs hnode).spec_eq] at he
    exact h.exists_delivered hs hsent hnode he
  · obtain ⟨i, hi, hget⟩ := Array.mem_iff_getElem.1 hhead
    have hget : nodes[i]? = some head := by rw [Array.getElem?_eq_getElem hi, hget]
    have hs := List.getElem?_eq_getElem (h'.laidOut.size_eq ▸ hi : i < specs.length)
    have hlaid := h'.laidOut.node hs hget
    have hp := (h.wired.nodeFits hs).tiled side
    exact ((hlaid.covers_iff hp).1 hc).eq hp ((hlaid.covers_iff hp).1 hc')
  · refine hsent.other n side fun _ e he edge hget => ?_
    obtain ⟨edge', -, hget', -, -, -, hne⟩ := h.wired.exists_head hs he
    obtain rfl : edge = edge' := by simpa [hget] using hget'
    exact hne

end Valid

/-- In a graph that was built, whatever its buffers hold, sending from any node in either direction
succeeds, copies the slices of the edges that leave the node and changes nothing else. -/
theorem propagate_delivers [Scalar α] (hbuild : build specs root terminal edges config = .ok g₀)
    (hg : g₀.StateOf g) (hn : n.index < g.nodes.size) (d : Direction) :
    ∃ nodes, Routing.propagate g.topology.edges n d g.nodes = (nodes, .ok ())
      ∧ g.Delivers d n nodes :=
  ((Valid.of_build hbuild).of_stateOf hg).exists_delivers hn d

/-- `splittingGraph` with other contents in what its first node puts out. -/
def loadedGraph : Graph Float :=
  { splittingGraph with
    nodes := update splittingGraph.nodes ⟨0⟩ .output fun _ => #[1, 2, 3, 4, 5] }

theorem stateOf_loaded : splittingGraph.StateOf loadedGraph := by
  have h := Valid.of_build build_splitting
  have hlaid : LaidOut splitting.nodes loadedGraph.nodes :=
    h.laidOut.update (n := ⟨0⟩) (s := .output) (f := fun _ => #[1, 2, 3, 4, 5]) rfl
  exact h.stateOf ⟨h.wired, h.acyclic, rfl, rfl, hlaid⟩

-- the three edges go to one node, and nothing is sent over the second one
theorem propagate_delivers_splitting : splittingGraph.StateOf loadedGraph ∧ ∃ nodes head,
    Routing.propagate splitting.edges ⟨0⟩ .forward loadedGraph.nodes = (nodes, .ok ())
      ∧ loadedGraph.Delivers .forward ⟨0⟩ nodes ∧ nodes[1]? = some head
      ∧ head.edgeSlice? .input ⟨2⟩ = some #[3, 4, 5] := by
  obtain ⟨nodes, hpropagate, h⟩ :=
    propagate_delivers build_splitting stateOf_loaded (n := ⟨0⟩) (by decide) .forward
  obtain ⟨edge, head, part, hget, -, -, hhead, hpart, hslice⟩ :=
    h.delivered _ rfl ⟨2⟩ (by decide)
  obtain rfl : ⟨⟨0⟩, ⟨1⟩⟩ = edge := Option.some.inj hget
  obtain rfl : #[3, 4, 5] = part := Option.some.inj hpart
  exact ⟨stateOf_loaded, nodes, head, hpropagate, h, hhead, hslice⟩

end Graph

end MatrixFree
