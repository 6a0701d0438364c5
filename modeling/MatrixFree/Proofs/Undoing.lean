import MatrixFree.Proofs.Orders

/-!
# Evaluations that undo each other

An operator that only moves elements gives back what it was given when it is applied the other way
round (`Operator.forward_eq_ok_iff_adjoint_eq_ok`). So if all operators of a graph are of this kind,
the dataflow of one direction is already the dataflow of the other (`Graph.Flow.reverse`), and an
evaluation back changes no buffer (`Graph.evaluate_back`).
-/

namespace MatrixFree

open MatrixFree.Topology Wiring

variable {α : Type}

namespace Operator

/-- Whether each element of the output is an element of the input, and each of these one of the
output, in places that the shapes fix. -/
def onlyMoves : Operator α → Bool
  | identity | concat | split | stack | transpose => true
  | _ => false

section Links

variable {links : List Link} {m n : ℕ} {x y s t : Array α}

theorem Complete.scatter_of_gather (hc : Complete links m n) (hm : m < UInt64.size)
    (hn : n < UInt64.size) (hx : x.size = n) (hy : y.size = m) (ht : t.size = n)
    (h : gather links x s = .ok y) : scatter links y t = .ok x := by
  obtain ⟨r, -, hr⟩ := Overwrites.scatter hc hy hm hn
  have hback := hr t ht
  rw [hback]
  unfold gather at h
  unfold scatter at hback
  refine congrArg Except.ok
    (Table.eq_of_transfer_swap ?_ ?_ (fun j hj => ?_) (ht.trans hx.symm) h ?_)
  all_goals rw [List.map_map]
  · exact hc.outputs_nodup
  · exact hc.inputs_nodup
  · have hmem := hc.swap.mem_outputs (hx ▸ hj)
    rwa [List.map_map] at hmem
  · exact hback

/-- Copying along complete links is undone by copying back, and the other way round. -/
theorem Complete.gather_eq_ok_iff_scatter_eq_ok (hc : Complete links m n) (hm : m < UInt64.size)
    (hn : n < UInt64.size) (hx : x.size = n) (hs : s.size = m) (hy : y.size = m)
    (ht : t.size = n) : gather links x s = .ok y ↔ scatter links y t = .ok x := by
  refine ⟨hc.scatter_of_gather hm hn hx hy ht, fun h => ?_⟩
  rw [scatter_eq_gather] at h
  have hback := hc.swap.scatter_of_gather hn hm hy hx hs h
  rwa [scatter_eq_gather, map_swap_map_swap] at hback

end Links

theorem copy_eq_ok_iff_copy {x y s t : Array α} (hs : s.size = y.size) (ht : t.size = x.size) :
    Buffer.copy s x = .ok y ↔ Buffer.copy t y = .ok x := by
  simp only [Buffer.copy, Buffer.paired_eq_ok_iff]
  constructor
  · rintro ⟨-, rfl⟩
    exact ⟨ht, rfl⟩
  · rintro ⟨-, rfl⟩
    exact ⟨hs, rfl⟩

variable [Scalar α] {op : Operator α} {sig : Signature} {x y s t : Array α}

/-- What an operator that only moves elements puts out is what its adjoint takes back. -/
theorem forward_eq_ok_iff_adjoint_eq_ok (hop : op.Accepts sig) (hi : Shape.Fits sig.inputs)
    (ho : Shape.Fits sig.outputs) (hmoves : op.onlyMoves = true) (hx : x.size = sig.inputLength)
    (hs : s.size = sig.outputLength) (hy : y.size = sig.outputLength)
    (ht : t.size = sig.inputLength) :
    op.forward sig x s = .ok y ↔ op.adjoint sig y t = .ok x := by
  have hin : sig.inputLength < UInt64.size := hi.total_lt
  have hout : sig.outputLength < UInt64.size := ho.total_lt
  cases op
  case identity | concat | split => exact copy_eq_ok_iff_copy (hs.trans hy.symm) (ht.trans hx.symm)
  case stack =>
    obtain ⟨is, o, -, rfl, hcols, hrows, h⟩ := hop
    have hin' : Signature.inputLength ⟨is, [o]⟩ = o.size := h
    have hout' : Signature.outputLength ⟨is, [o]⟩ = o.size := Shape.total_single o
    rw [hin'] at hx ht
    rw [hout'] at hs hy hout
    simp only [forward, adjoint, pick_single, ok_bind]
    exact (complete_stack hi ho hcols hrows h).gather_eq_ok_iff_scatter_eq_ok hout hout hx hs hy ht
  case transpose =>
    obtain ⟨i, o, rfl, hr, hc⟩ := hop
    rw [inputLength_single] at hx ht hin
    rw [outputLength_single] at hs hy hout
    simp only [forward, adjoint, pick_single, ok_bind]
    exact (complete_transpose hi ho hr hc).gather_eq_ok_iff_scatter_eq_ok hout hin hx hs hy ht
  all_goals simp [onlyMoves] at hmoves

end Operator

variable [Scalar α] {specs : List (NodeSpec α)} {spec : NodeSpec α} {edges : EdgeRegistry}
  {root terminal n : NodeId} {config : Config} {d : Direction} {nodes : Array (Node α)}
  {g₀ g : Graph α} {x y s t : Array α} {l : List NodeId}

theorem NodeSpec.run_reverse (hf : NodeFits edges root terminal n spec)
    (hmoves : spec.op.onlyMoves = true) (hx : x.size = spec.length d.arrival)
    (hs : s.size = spec.length d.departure) (hy : y.size = spec.length d.departure)
    (ht : t.size = spec.length d.arrival) (h : spec.run d x s = .ok y) :
    spec.run d.reverse y t = .ok x := by
  cases d
  · exact (Operator.forward_eq_ok_iff_adjoint_eq_ok hf.accepts (hf.fits .input) (hf.fits .output)
      hmoves hx hs hy ht).1 h
  · exact (Operator.forward_eq_ok_iff_adjoint_eq_ok hf.accepts (hf.fits .input) (hf.fits .output)
      hmoves hy ht hx hs).2 h

namespace Graph

/-- If all operators only move elements, the dataflow of all nodes flows back as it is. -/
theorem Flow.reverse (hw : WellFormed specs edges root terminal)
    (hmoves : ∀ spec ∈ specs, spec.op.onlyMoves = true)
    (hall : ∀ n : NodeId, n.index < specs.length → n ∈ l)
    (h : Flow specs edges d (outer root terminal d.arrival) x l nodes) (l' : List NodeId) :
    Flow specs edges d.reverse (outer root terminal d.reverse.arrival)
      (contents nodes (outer root terminal d.reverse.arrival) d.reverse.arrival) l' nodes where
  laidOut := h.laidOut
  computed n _ spec hspec stale hstale := by
    rw [d.departure_reverse] at hstale ⊢
    rw [d.arrival_reverse]
    have hn : n ∈ l := hall n (List.getElem?_eq_some_iff.1 hspec).1
    have hsize := h.laidOut.size_contents hspec
    exact NodeSpec.run_reverse (hw.nodeFits hspec) (hmoves spec (List.mem_of_getElem? hspec))
      (hsize _) (hsize _) (hsize _) hstale (h.computed n hn hspec _ (hsize _))
  carried {e edge} hget _ := by
    have htail : d.tail edge ∈ l := hall _ (d.endOn_departure edge ▸ hw.end_lt hget d.departure)
    simp only [d.head_reverse, d.tail_reverse, d.arrival_reverse, d.departure_reverse]
    exact (h.carried hget htail).symm
  start_eq := rfl

/-- If all operators of a graph that was built only move elements, an evaluation undoes the one in
the other direction that was made before it: it finds every element of every buffer as it leaves
it, and the first one's input is still what it was. -/
theorem evaluate_back (hbuild : build specs root terminal edges config = .ok g₀)
    (hmoves : ∀ spec ∈ specs, spec.op.onlyMoves = true) (hg : g₀.Reachable g) (d : Direction)
    (elapsed elapsed' : Duration) :
    ∃ g₁ g₂, g.evaluate d elapsed = (g₁, .ok ()) ∧ g₁.evaluate d.reverse elapsed' = (g₂, .ok ())
      ∧ g₂ = { g₁ with stats := g₁.stats.record d.reverse elapsed' }
      ∧ g₂.buffer d.inputRole = g.buffer d.inputRole
      ∧ g₂.buffer d.reverse.outputRole = g.buffer d.inputRole := by
  have h := hg.valid (.of_build hbuild)
  obtain ⟨l, nodes, hl, hflow, heval⟩ := h.exists_flow d
  have h₁ := h.of_flow (g.stats.record d elapsed) hflow
  obtain ⟨l', nodes', hl', hflow', heval'⟩ := h₁.exists_flow d.reverse
  rw [h₁.buffer_inputRole] at hflow'
  have hback := hflow.reverse h.wired hmoves (fun n => h.mem_schedule hl) l'
  obtain rfl : nodes' = nodes := h₁.flow_eq hl' hl' hflow' hback
  have h₂ := h₁.evaluate d.reverse elapsed'
  rw [heval'] at h₂
  refine ⟨_, _, heval elapsed, heval' elapsed', rfl, ?_, ?_⟩
  · rw [h₂.buffer_inputRole]
    exact hflow.start_eq
  · rw [h₂.buffer_outputRole, d.departure_reverse]
    exact hflow.start_eq

/-- A vector is cut into two matrices. The first is transposed and put on top of the second. -/
def shuffling : GraphBuilder Float :=
  let parts := [.matrix 2 2, .matrix 1 2]
  let (b, split) := (GraphBuilder.empty ⟨false, true, none⟩).addNode .split [.vector 6] parts
  let (b, transpose) := b.addNode .transpose [.matrix 2 2] [.matrix 2 2]
  let (b, stack) := b.addNode .stack parts [.matrix 3 2]
  let b := (b.connectAs ⟨0⟩ split transpose).connectAs ⟨1⟩ transpose stack
  b.connectAs ⟨2⟩ split stack

/-- The graph of `shuffling`, from the cut to the stack. -/
def shufflingGraph : Graph Float :=
  initial shuffling.nodes shuffling.edges ⟨0⟩ ⟨2⟩ shuffling.config

theorem build_shuffling :
    build shuffling.nodes ⟨0⟩ ⟨2⟩ shuffling.edges shuffling.config = .ok shufflingGraph :=
  build_of_schedule (by decide) rfl (l := [⟨0⟩, ⟨1⟩, ⟨2⟩])
    (schedule_of_entries (by decide) (by decide) (by decide) (by decide))

theorem evaluate_back_shuffling :
    ∃ g₁ g₂, (shufflingGraph.copyInput .forward #[1, 2, 3, 4, 5, 6]).1.evaluate .forward ⟨3⟩
        = (g₁, .ok ())
      ∧ g₁.evaluate .adjoint ⟨4⟩ = (g₂, .ok ()) ∧ g₂.nodes = g₁.nodes
      ∧ g₂.buffer .forwardInput = #[1, 2, 3, 4, 5, 6] := by
  obtain ⟨g₁, g₂, heval, hback, rfl, hinput, -⟩ :=
    evaluate_back build_shuffling (by decide) (.copyInput .forward #[1, 2, 3, 4, 5, 6] .refl)
      .forward ⟨3⟩ ⟨4⟩
  exact ⟨_, _, heval, hback, rfl, hinput⟩

end Graph

end MatrixFree
