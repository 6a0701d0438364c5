import MatrixFree.Proofs.Layouts
import MatrixFree.Proofs.Overwriting

/-!
# One step of an evaluation

A step at a node always succeeds on a laid out graph. It replaces what the node puts out by what
its operator gives for what it takes in, and copies that to the windows of the edges that leave it;
all other buffers, and all other windows, stay as they were (`Graph.exists_step`).
-/

namespace MatrixFree

variable {α : Type} {specs : List (NodeSpec α)} {edges : EdgeRegistry} {root terminal n : NodeId}
  {d : Direction} {e : EdgeId} {edge : Edge} {spec head : NodeSpec α} {nodes : Array (Node α)}

/-- What the operator of a node gives for what has arrived; `stale` is what the buffer on the other
side held before. -/
def NodeSpec.run [Scalar α] (spec : NodeSpec α) (d : Direction) (arrived stale : Array α) :
    Checked (Array α) :=
  match d with
  | .forward => spec.op.forward spec.signature arrived stale
  | .adjoint => spec.op.adjoint spec.signature arrived stale

theorem Node.evaluate_eq_ok [Scalar α] {node : Node α} {out : Array α}
    (h : node.spec.run d (node.data d.arrival) (node.data d.departure) = .ok out) :
    node.evaluate d = .ok (node.setData d.departure out) := by
  unfold evaluate
  cases d
  · exact bind_eq_ok_iff.2 ⟨out, h, rfl⟩
  · exact bind_eq_ok_iff.2 ⟨out, h, rfl⟩

namespace Wiring

/-- The ports on a side of a node. -/
def portsOf (specs : List (NodeSpec α)) (n : NodeId) (side : Side) : PortList :=
  match specs[n.index]? with
  | some spec => spec.ports side
  | none => ⟨[], []⟩

theorem portsOf_eq (hs : specs[n.index]? = some spec) (side : Side) :
    portsOf specs n side = spec.ports side := by
  rw [portsOf, hs]

/-- A node is asked for the size of an edge on its output ports first. -/
theorem sizeAt_of_output {size : ℕ} (hs : specs[n.index]? = some spec)
    (h : spec.output.edgeSize? e = some size) : sizeAt specs n e = size := by
  rw [sizeAt, hs, Option.bind_some, NodeSpec.edgeSize?, h]
  rfl

theorem sizeAt_of_input {size : ℕ} (hs : specs[n.index]? = some spec)
    (hnot : e ∉ spec.output.edges) (h : spec.input.edgeSize? e = some size) :
    sizeAt specs n e = size := by
  rw [sizeAt, hs, Option.bind_some, NodeSpec.edgeSize?, PortList.edgeSize?_eq_none hnot, h]
  rfl

theorem NodeFits.tiled (h : NodeFits edges root terminal n spec) (side : Side) :
    (spec.ports side).Tiled := by
  refine ⟨h.nodup side, ?_, h.fits side⟩
  rw [h.ports side]
  exact Nat.le_add_right _ _

theorem NodeFits.overwrites_run [Scalar α] (h : NodeFits edges root terminal n spec)
    {x : Array α} (hx : x.size = spec.length d.arrival) :
    Overwrites (spec.run d x) (spec.length d.departure) := by
  cases d
  · exact Operator.overwrites_forward h.accepts (h.fits .input) (h.fits .output) hx
  · exact Operator.overwrites_adjoint h.accepts (h.fits .input) (h.fits .output) hx

namespace WellFormed

variable (h : WellFormed specs edges root terminal)
include h

theorem tiled (hs : specs[n.index]? = some spec) (side : Side) : (spec.ports side).Tiled :=
  (h.nodeFits hs).tiled side

theorem end_eq (side : Side) (hs : specs[n.index]? = some spec) (he : e ∈ (spec.ports side).edges) :
    ∃ edge, edges.get? e = some edge ∧ endOn side edge = n := by
  obtain ⟨edge, hget, hend⟩ := (h.nodeFits hs).listed side e he
  exact ⟨edge, hget, hend.trans (NodeId.ofIndex_index n)⟩

theorem mem_of_end (side : Side) (hget : edges.get? e = some edge)
    (hs : specs[(endOn side edge).index]? = some spec) : e ∈ (spec.ports side).edges := by
  obtain ⟨spec', hs', he⟩ := h.claimed hget side
  obtain rfl : spec = spec' := by simpa [hs] using hs'
  exact he

/-- Both ports of an edge have one size. -/
theorem edgeSize?_eq {source target : NodeSpec α} (hget : edges.get? e = some edge)
    (hs : specs[edge.source.index]? = some source) (ht : specs[edge.target.index]? = some target) :
    source.output.edgeSize? e = target.input.edgeSize? e := by
  have hes : e ∈ source.output.edges := h.mem_of_end .output hget hs
  have het : e ∈ target.input.edges := h.mem_of_end .input hget ht
  obtain ⟨s, -, hsize, -⟩ := PortList.exists_port (h.tiled hs .output) hes
  obtain ⟨s', -, hsize', -⟩ := PortList.exists_port (h.tiled ht .input) het
  have hnot : e ∉ target.output.edges := fun hmem => by
    obtain ⟨edge', hget', hend⟩ := h.end_eq .output ht hmem
    obtain rfl : edge = edge' := by simpa [hget] using hget'
    exact h.source_ne hget hend
  have hsizes := h.sizes hget
  rw [sizeAt_of_output hs hsize, sizeAt_of_input ht hnot hsize'] at hsizes
  exact hsize.trans ((congrArg some hsizes).trans hsize'.symm)

theorem edgeSize?_head (hget : edges.get? e = some edge)
    (hs : specs[(d.tail edge).index]? = some spec)
    (ht : specs[(d.head edge).index]? = some head) :
    (spec.ports d.departure).edgeSize? e = (head.ports d.arrival).edgeSize? e := by
  cases d
  · exact h.edgeSize?_eq hget hs ht
  · exact (h.edgeSize?_eq hget ht hs).symm

theorem exists_head (hs : specs[n.index]? = some spec)
    (he : e ∈ (spec.ports d.departure).edges) : ∃ edge head, edges.get? e = some edge
      ∧ d.tail edge = n ∧ specs[(d.head edge).index]? = some head
      ∧ e ∈ (head.ports d.arrival).edges ∧ d.head edge ≠ n := by
  obtain ⟨edge, hget, hend⟩ := h.end_eq d.departure hs he
  obtain ⟨head, hhead, hmem⟩ := h.claimed hget d.arrival
  rw [d.endOn_departure] at hend
  rw [d.endOn_arrival] at hhead
  refine ⟨edge, head, hget, hend, hhead, hmem, fun hn => h.source_ne hget ?_⟩
  cases d
  · exact hend.trans hn.symm
  · exact hn.trans hend.symm

end WellFormed

end Wiring

namespace Graph

open Wiring

/-- What is on the port of an edge. -/
def slice (specs : List (NodeSpec α)) (nodes : Array (Node α)) (n : NodeId) (side : Side)
    (e : EdgeId) : Array α :=
  (portsOf specs n side).window e (contents nodes n side)

variable (hw : WellFormed specs edges root terminal) (hl : LaidOut specs nodes)
include hw hl

theorem size_slice {side : Side} (hs : specs[n.index]? = some spec)
    (he : e ∈ (spec.ports side).edges) :
    some (slice specs nodes n side e).size = (spec.ports side).edgeSize? e := by
  rw [slice, portsOf_eq hs]
  exact PortList.size_window (hw.tiled hs side) he (hl.size_contents hs side)

/-- The port of an edge lies in the buffer of its node, at the offset of the edge. -/
theorem exists_offset {node : Node α} {side : Side} (hs : specs[n.index]? = some spec)
    (hnode : nodes[n.index]? = some node) (he : e ∈ (spec.ports side).edges) :
    ∃ s start, (spec.ports side).shapes[(spec.ports side).slot e]? = some s
      ∧ start = (spec.ports side).start ((spec.ports side).slot e)
      ∧ (spec.ports side).edgeSize? e = some s.size
      ∧ (node.buffer side).offsets.get? e = some start
      ∧ start + s.size ≤ (node.data side).size ∧ (node.data side).size < UInt64.size
      ∧ Table.slice (node.data side) start s.size = .ok (slice specs nodes n side e) := by
  have hlaid := hl.node hs hnode
  have hp := hw.tiled hs side
  obtain ⟨s, hshape, hsize, hoff⟩ := PortList.exists_port hp he
  have hsum := PortList.start_add_le_sum hshape
  have hdata : (node.data side).size = ((spec.ports side).shapes.map Shape.size).sum :=
    (hlaid.size_eq _).trans hp.fits.total_eq_sum
  have hlt := hp.fits.sum_lt
  refine ⟨s, _, hshape, rfl, hsize, by rw [hlaid.offsets_eq, hoff], by omega, by omega, ?_⟩
  rw [slice, portsOf_eq hs, contents_eq hnode, PortList.window, hsize, Option.getD_some]
  exact Table.slice_of_le (by omega) (by omega)

/-- What is sent over an edge is what is on its port. -/
theorem delivery_eq_ok {k : ℕ} (hs : specs[n.index]? = some spec)
    (hk : (spec.ports d.departure).edges[k]? = some e) (hget : edges.get? e = some edge)
    (hh : specs[(d.head edge).index]? = some head) (hmem : e ∈ (head.ports d.arrival).edges)
    (hne : d.head edge ≠ n) (htail : d.tail edge = n) : Routing.delivery edges n d nodes k e
      = .ok ⟨d.head edge, (head.ports d.arrival).start ((head.ports d.arrival).slot e),
        slice specs nodes n d.departure e⟩ := by
  have he := List.mem_of_getElem? hk
  have hp := hw.tiled hs d.departure
  obtain ⟨node, hnode, hlaid⟩ := hl.exists_node hs
  obtain ⟨dest, hdest, -⟩ := hl.exists_node hh
  obtain ⟨s, start, hshape, -, hsize, hoff, hle, hlt, hpart⟩ := exists_offset hw hl hs hnode he
  obtain ⟨s', start', -, hstart', hsize', hoff', hle', hlt', -⟩ := exists_offset hw hl hh hdest hmem
  have hkslot : (spec.ports d.departure).slot e = k := by
    obtain ⟨hlt, hke⟩ := List.getElem?_eq_some_iff.1 hk
    rw [PortList.slot, ← hke]
    exact hp.nodup.idxOf_getElem k hlt
  have hklt : k < UInt64.size :=
    (List.getElem?_eq_some_iff.1 hk).1.trans (EdgeId.length_lt_word hp.nodup)
  have hss : (slice specs nodes n d.departure e).size = s'.size := by
    have := size_slice hw hl hs he
    rw [hw.edgeSize?_head hget (htail ▸ hs) hh, hsize', Option.some.injEq] at this
    exact this
  have hrange : Table.range (dest.data d.arrival) start'
      (slice specs nodes n d.departure e).size = .ok () :=
    Table.range_eq_ok_iff.2 ⟨by omega, by omega⟩
  rw [← hstart']
  unfold Routing.delivery Routing.offset
  rw [hget]
  dsimp only
  rw [if_neg hne, Table.read_eq_ok_iff.2 ⟨n.index_lt_word, hnode⟩,
    Table.read_eq_ok_iff.2 ⟨(d.head edge).index_lt_word, hdest⟩]
  simp only [Checked.lift, ok_bind, hlaid.spec_eq, hoff, hoff',
    Table.pick_eq_ok_iff.2 ⟨hklt, hkslot ▸ hshape⟩, hpart, hrange]
  rfl

/-- What sending edges from a node changes: the windows that they end in. -/
structure Sent (specs : List (NodeSpec α)) (edges : EdgeRegistry) (d : Direction) (n : NodeId)
    (sent : List EdgeId) (nodes nodes' : Array (Node α)) : Prop where
  laidOut : LaidOut specs nodes'
  other : ∀ m side, (side = d.arrival → ∀ e ∈ sent, ∀ edge, edges.get? e = some edge →
    d.head edge ≠ m) → contents nodes' m side = contents nodes m side
  delivered : ∀ e ∈ sent, ∀ edge, edges.get? e = some edge →
    slice specs nodes' (d.head edge) d.arrival e = slice specs nodes n d.departure e
  kept : ∀ e ∉ sent, ∀ edge, edges.get? e = some edge →
    slice specs nodes' (d.head edge) d.arrival e = slice specs nodes (d.head edge) d.arrival e

omit hl in
theorem exists_sendAll (hs : specs[n.index]? = some spec) : ∀ {es : List EdgeId} {k : ℕ}
    {nodes : Array (Node α)}, LaidOut specs nodes → (spec.ports d.departure).edges.drop k = es →
    ∃ nodes', Routing.sendAll edges n d k es nodes = (nodes', .ok ())
      ∧ Sent specs edges d n es nodes nodes'
  | [], k, nodes, hl, _ => ⟨nodes, rfl, hl, fun _ _ _ => rfl, nofun, fun _ _ _ _ => rfl⟩
  | e :: es, k, nodes, hl, hdrop => by
    have hk : (spec.ports d.departure).edges[k]? = some e := by
      rw [← List.head?_drop, hdrop, List.head?_cons]
    have hdrop' : (spec.ports d.departure).edges.drop (k + 1) = es := by
      rw [← List.tail_drop, hdrop, List.tail_cons]
    have hnd : (e :: es).Nodup := hdrop ▸ (hw.tiled hs d.departure).nodup.drop
    obtain ⟨edge, head, hget, htail, hh, hmem, hne⟩ := hw.exists_head hs (List.mem_of_getElem? hk)
    have hdel := delivery_eq_ok hw hl hs hk hget hh hmem hne htail
    have hsize := size_slice hw hl hs (List.mem_of_getElem? hk)
    rw [hw.edgeSize?_head hget (htail ▸ hs) hh] at hsize
    generalize hpart : slice specs nodes n d.departure e = part at hdel hsize
    have hlt : (d.head edge).index < nodes.size :=
      hl.size_eq ▸ (List.getElem?_eq_some_iff.1 hh).1
    have hfull := hl.size_contents hh d.arrival
    have hp := hw.tiled hh d.arrival
    -- the nodes after the slice of the first edge has arrived
    let mid := update nodes (d.head edge) d.arrival
      (Table.place · ((head.ports d.arrival).start ((head.ports d.arrival).slot e)) part)
    have hmid : ∀ m side, contents mid m side = if m = d.head edge ∧ side = d.arrival then
        Table.place (contents nodes (d.head edge) d.arrival)
          ((head.ports d.arrival).start ((head.ports d.arrival).slot e)) part
        else contents nodes m side := fun m side => contents_update hlt side
    have hsrc : ∀ x, slice specs mid n d.departure x = slice specs nodes n d.departure x :=
      fun x => by rw [slice, slice, hmid, if_neg fun h => d.departure_ne_arrival h.2]
    have hlmid : LaidOut specs mid := hl.update (Table.size_place _ _ _)
    obtain ⟨nodes', hsend, hsent⟩ := exists_sendAll hs hlmid hdrop'
    refine ⟨nodes', ?_, hsent.laidOut, fun m side h => ?_, fun x hx edge' hget' => ?_,
      fun x hx edge' hget' => ?_⟩
    · rw [Routing.sendAll, hdel]
      exact hsend
    · rw [hsent.other m side fun hside x hx => h hside x (List.mem_cons_of_mem _ hx), hmid,
        if_neg fun hm => h hm.2 e List.mem_cons_self edge hget hm.1.symm]
    · rcases List.mem_cons.1 hx with rfl | hx
      · obtain rfl : edge = edge' := by simpa [hget] using hget'
        rw [hsent.kept x (List.nodup_cons.1 hnd).1 edge hget, slice, portsOf_eq hh, hmid,
          if_pos ⟨rfl, rfl⟩, hpart]
        exact PortList.window_place hp hmem hfull hsize
      · rw [hsent.delivered x hx edge' hget', hsrc]
    · obtain ⟨hxe, hxes⟩ := not_or.1 (mt List.mem_cons.2 hx)
      rw [hsent.kept x hxes edge' hget', slice, slice, hmid]
      by_cases hhead : d.head edge' = d.head edge
      · have hx' : x ∈ (head.ports d.arrival).edges :=
          hw.mem_of_end d.arrival hget' (by rwa [d.endOn_arrival, hhead])
        rw [hhead, portsOf_eq hh, if_pos ⟨rfl, rfl⟩]
        exact PortList.window_place_of_ne hp hmem hx' hxe hfull hsize
      · rw [if_neg fun h => hhead h.1]

omit hl in
/-- Sending from a node succeeds, and sends every edge that leaves it. -/
theorem exists_propagate (hs : specs[n.index]? = some spec) (hl : LaidOut specs nodes) :
    ∃ nodes', Routing.propagate edges n d nodes = (nodes', .ok ())
      ∧ Sent specs edges d n (spec.ports d.departure).edges nodes nodes' := by
  obtain ⟨node, hnode, hlaid⟩ := hl.exists_node hs
  obtain ⟨nodes', hsend, hsent⟩ := exists_sendAll hw hs hl (d := d) (k := 0) rfl
  refine ⟨nodes', ?_, hsent⟩
  unfold Routing.propagate
  rw [hnode]
  dsimp only
  rw [hlaid.spec_eq]
  exact hsend

/-- What a step at a node does: the node puts out what its operator gives for what it takes in, the
windows that its edges end in take that over, and nothing else changes. -/
structure Stepped [Scalar α] (specs : List (NodeSpec α)) (edges : EdgeRegistry) (d : Direction)
    (n : NodeId) (nodes nodes' : Array (Node α)) : Prop where
  laidOut : LaidOut specs nodes'
  computed : ∀ {spec}, specs[n.index]? = some spec → ∀ stale : Array α,
    stale.size = spec.length d.departure →
      spec.run d (contents nodes n d.arrival) stale = .ok (contents nodes' n d.departure)
  other : ∀ {m side}, (m = n → side ≠ d.departure) → (side = d.arrival → ∀ e edge,
    edges.get? e = some edge → d.tail edge = n → d.head edge ≠ m) →
    contents nodes' m side = contents nodes m side
  delivered : ∀ {e edge}, edges.get? e = some edge → d.tail edge = n →
    slice specs nodes' (d.head edge) d.arrival e = slice specs nodes' n d.departure e
  kept : ∀ {e edge}, edges.get? e = some edge → d.tail edge ≠ n →
    slice specs nodes' (d.head edge) d.arrival e = slice specs nodes (d.head edge) d.arrival e

theorem exists_step [Scalar α] (hn : n.index < specs.length) :
    ∃ nodes', step edges d n nodes = (nodes', .ok ()) ∧ Stepped specs edges d n nodes nodes' := by
  have hs : specs[n.index]? = some specs[n.index] := List.getElem?_eq_getElem hn
  generalize specs[n.index] = spec at hs
  obtain ⟨node, hnode, hlaid⟩ := hl.exists_node hs
  obtain ⟨out, hout, hrun⟩ := (hw.nodeFits hs).overwrites_run (d := d) (hlaid.size_eq d.arrival)
  have heval : node.evaluate d = .ok (node.setData d.departure out) := by
    refine Node.evaluate_eq_ok ?_
    rw [hlaid.spec_eq]
    exact hrun _ (hlaid.size_eq d.departure)
  have hlt : n.index < nodes.size := hl.size_eq ▸ hn
  -- the nodes after the operator was applied
  let mid := update nodes n d.departure fun _ => out
  have hmid : ∀ m side, contents mid m side
      = if m = n ∧ side = d.departure then out else contents nodes m side :=
    fun m side => contents_update hlt side
  have hlmid : LaidOut specs mid := hl.update (hout.trans (hl.size_contents hs _).symm)
  obtain ⟨nodes', hpropagate, hsent⟩ := exists_propagate hw hs hlmid (d := d)
  have hdep : ∀ {e edge}, edges.get? e = some edge →
      (e ∈ (spec.ports d.departure).edges ↔ d.tail edge = n) := fun {e edge} hget => by
    constructor
    · intro he
      obtain ⟨edge', hget', hend⟩ := hw.end_eq d.departure hs he
      obtain rfl : edge = edge' := by simpa [hget] using hget'
      rwa [d.endOn_departure] at hend
    · rintro rfl
      exact hw.mem_of_end d.departure hget (by rwa [d.endOn_departure])
  have hstep : step edges d n nodes = (nodes', .ok ()) := by
    unfold step
    rw [hnode]
    dsimp only
    rw [heval]
    dsimp only
    rw [setIfInBounds_setData hnode]
    exact hpropagate
  have hkeep : contents nodes' n d.departure = out := by
    rw [hsent.other n d.departure fun h => absurd h d.departure_ne_arrival, hmid,
      if_pos ⟨rfl, rfl⟩]
  refine ⟨nodes', hstep, hsent.laidOut, ?_, ?_, ?_, ?_⟩
  · intro spec' hs' stale hstale
    obtain rfl : spec = spec' := by simpa [hs] using hs'
    rw [hkeep, contents_eq hnode, hrun stale hstale]
  · intro m side hne hno
    rw [hsent.other m side fun hside e he edge hget => hno hside e edge hget ((hdep hget).1 he),
      hmid, if_neg fun h => hne h.1 h.2]
  · intro e edge hget htail
    rw [hsent.delivered e ((hdep hget).2 htail) edge hget, slice, slice, hkeep, hmid,
      if_pos ⟨rfl, rfl⟩]
  · intro e edge hget htail
    rw [hsent.kept e (fun he => htail ((hdep hget).1 he)) edge hget, slice, slice, hmid,
      if_neg fun h => d.departure_ne_arrival h.2.symm]

end Graph

end MatrixFree
