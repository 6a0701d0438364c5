import MatrixFree.Proofs.Construction
import MatrixFree.Proofs.Windows
import MatrixFree.Graph.Basic

/-!
# Laid out graphs

In a graph that was built, every node has the offsets of its declaration and buffers of the
declared lengths (`Graph.LaidOut`). Apart from that a state of it is what its buffers hold
(`Graph.LaidOut.ext`), and every change of a state is a change of one buffer
(`Graph.contents_update`).
-/

namespace MatrixFree

variable {α : Type}

namespace Node

/-- The node is laid out as it is declared. -/
structure LaidOut (spec : NodeSpec α) (node : Node α) : Prop where
  spec_eq : node.spec = spec
  offsets_eq : ∀ side, (node.buffer side).offsets
    = .tile 0 (spec.ports side).edges (spec.ports side).shapes
  size_eq : ∀ side, (node.data side).size = spec.length side

variable {spec : NodeSpec α} {node node' : Node α} {s : Side} {f : Array α → Array α}

@[simp] theorem data_mapData (node : Node α) (s : Side) (f : Array α → Array α) :
    (node.mapData s f).data s = f (node.data s) := by
  cases s <;> rfl

theorem data_mapData_of_ne (node : Node α) {s s' : Side} (h : s' ≠ s) (f : Array α → Array α) :
    (node.mapData s f).data s' = node.data s' := by
  cases s <;> cases s' <;> first | rfl | exact absurd rfl h

theorem laidOut_layOut [Scalar α] (spec : NodeSpec α) :
    LaidOut spec (Node.bare spec).allocate.layOut := by
  refine ⟨rfl, ?_, ?_⟩
  · rintro (_ | _) <;> rfl
  · rintro (_ | _) <;> exact Array.size_replicate

theorem LaidOut.mapData (h : LaidOut spec node) (hf : (f (node.data s)).size = (node.data s).size) :
    LaidOut spec (node.mapData s f) := by
  refine ⟨?_, fun side => ?_, fun side => ?_⟩
  · rw [← h.spec_eq]
    cases s <;> rfl
  · rw [← h.offsets_eq side]
    cases s <;> cases side <;> rfl
  · by_cases hs : side = s
    · subst hs
      rw [data_mapData, hf, h.size_eq]
    · rw [data_mapData_of_ne node hs, h.size_eq]

theorem LaidOut.ext (h : LaidOut spec node) (h' : LaidOut spec node')
    (hdata : ∀ side, node.data side = node'.data side) : node = node' := by
  rcases node with ⟨sp, ⟨i, io⟩, ⟨o, oo⟩⟩
  rcases node' with ⟨sp', ⟨i', io'⟩, ⟨o', oo'⟩⟩
  obtain rfl : sp = sp' := h.spec_eq.trans h'.spec_eq.symm
  obtain rfl : i = i' := hdata .input
  obtain rfl : o = o' := hdata .output
  obtain rfl : io = io' := (h.offsets_eq .input).trans (h'.offsets_eq .input).symm
  obtain rfl : oo = oo' := (h.offsets_eq .output).trans (h'.offsets_eq .output).symm
  rfl

end Node

namespace Graph

/-- All nodes are laid out as they are declared. -/
structure LaidOut (specs : List (NodeSpec α)) (nodes : Array (Node α)) : Prop where
  size_eq : nodes.size = specs.length
  node : ∀ {i : ℕ} {spec : NodeSpec α} {node : Node α}, specs[i]? = some spec →
    nodes[i]? = some node → Node.LaidOut spec node

/-- What the buffer on a side of a node holds. -/
def contents (nodes : Array (Node α)) (n : NodeId) (side : Side) : Array α :=
  match nodes[n.index]? with
  | some node => node.data side
  | none => #[]

/-- The nodes with the contents of one buffer changed by `f`. -/
def update (nodes : Array (Node α)) (n : NodeId) (side : Side) (f : Array α → Array α) :
    Array (Node α) :=
  nodes.modify n.index (·.mapData side f)

variable {specs : List (NodeSpec α)} {nodes nodes' : Array (Node α)} {n m : NodeId} {s : Side}
  {f : Array α → Array α} {node : Node α} {spec : NodeSpec α}

theorem contents_eq (h : nodes[n.index]? = some node) (side : Side) :
    contents nodes n side = node.data side := by
  rw [contents, h]

theorem setIfInBounds_setData (h : nodes[n.index]? = some node) (s : Side) (data : Array α) :
    nodes.setIfInBounds n.index (node.setData s data) = update nodes n s fun _ => data := by
  refine Array.ext_getElem? fun i => ?_
  rw [update, Array.getElem?_modify]
  by_cases hi : n.index = i
  · subst hi
    rw [if_pos rfl, Array.getElem?_setIfInBounds_self_of_lt (Array.getElem?_eq_some_iff.1 h).1, h]
    rfl
  · rw [if_neg hi, Array.getElem?_setIfInBounds_ne hi]

/-- A change of one buffer is seen in that buffer and in no other. -/
theorem contents_update (hn : n.index < nodes.size) (side : Side) :
    contents (update nodes n s f) m side
      = if m = n ∧ side = s then f (contents nodes n s) else contents nodes m side := by
  have hget : nodes[n.index]? = some nodes[n.index] := Array.getElem?_eq_getElem hn
  by_cases hm : m = n
  · subst hm
    have hget' : (update nodes m s f)[m.index]? = some (nodes[m.index].mapData s f) := by
      rw [update, Array.getElem?_modify, if_pos rfl, hget]
      rfl
    rw [contents_eq hget', contents_eq hget, contents_eq hget]
    by_cases hs : side = s
    · subst hs
      rw [if_pos ⟨rfl, rfl⟩, Node.data_mapData]
    · rw [if_neg fun h => hs h.2, Node.data_mapData_of_ne _ hs]
  · have hne : n.index ≠ m.index := fun h => hm (NodeId.index_inj.1 h.symm)
    rw [if_neg fun h => hm h.1, contents, contents, update, Array.getElem?_modify, if_neg hne]

namespace LaidOut

variable (h : LaidOut specs nodes)
include h

theorem exists_node (hs : specs[n.index]? = some spec) :
    ∃ node, nodes[n.index]? = some node ∧ Node.LaidOut spec node := by
  have hlt : n.index < nodes.size := h.size_eq ▸ (List.getElem?_eq_some_iff.1 hs).1
  have hget : nodes[n.index]? = some nodes[n.index] := Array.getElem?_eq_getElem hlt
  exact ⟨_, hget, h.node hs hget⟩

theorem size_contents (hs : specs[n.index]? = some spec) (side : Side) :
    (contents nodes n side).size = spec.length side := by
  obtain ⟨node, hget, hnode⟩ := h.exists_node hs
  rw [contents_eq hget, hnode.size_eq]

theorem update (hf : (f (contents nodes n s)).size = (contents nodes n s).size) :
    LaidOut specs (update nodes n s f) := by
  refine ⟨by rw [Graph.update, Array.size_modify, h.size_eq], fun {i spec node} hs hget => ?_⟩
  rw [Graph.update, Array.getElem?_modify] at hget
  by_cases hi : n.index = i
  · subst hi
    obtain ⟨node', hget', hnode⟩ := h.exists_node hs
    rw [if_pos rfl, hget', Option.map_some, Option.some.injEq] at hget
    rw [contents_eq hget'] at hf
    exact hget ▸ hnode.mapData hf
  · rw [if_neg hi] at hget
    exact h.node hs hget

/-- Two states that hold the same are the same. -/
theorem ext (hcount : specs.length ≤ UInt32.size) (h' : LaidOut specs nodes')
    (heq : ∀ n : NodeId, n.index < specs.length → ∀ side, contents nodes n side
      = contents nodes' n side) : nodes = nodes' := by
  refine Array.ext_getElem? fun i => ?_
  by_cases hi : i < specs.length
  · have hidx := NodeId.index_ofIndex (hi.trans_le hcount)
    have hs := NodeId.getElem?_ofIndex hcount hi
    obtain ⟨node, hget, hnode⟩ := h.exists_node hs
    obtain ⟨node', hget', hnode'⟩ := h'.exists_node hs
    have heq := heq (.ofIndex i) (by rwa [hidx])
    rw [← hidx, hget, hget', hnode.ext hnode' fun side => by
      rw [← contents_eq hget, ← contents_eq hget', heq side]]
  · rw [Array.getElem?_eq_none (by rw [h.size_eq]; omega),
      Array.getElem?_eq_none (by rw [h'.size_eq]; omega)]

end LaidOut

theorem laidOut_initial [Scalar α] (specs : List (NodeSpec α)) (edges : EdgeRegistry)
    (root terminal : NodeId) (config : Config) :
    LaidOut specs (initial specs edges root terminal config).nodes := by
  refine ⟨by simp [initial], fun {i spec node} hs hget => ?_⟩
  rw [initial, List.getElem?_toArray, List.getElem?_map, hs, Option.map_some,
    Option.some.injEq] at hget
  exact hget ▸ Node.laidOut_layOut spec

end Graph

end MatrixFree
