import MatrixFree.Proofs.Acceptance
import MatrixFree.Proofs.Finiteness
import MatrixFree.Proofs.RoundTrips
import MatrixFree.Proofs.Snapshots

/-!
# Graphs loaded from their snapshots

Whether a graph can be built does not depend on its coefficients (`Graph.build_map`). So a graph
can be loaded from its own snapshot whenever the snapshot is read back, which it is if and only if
all coefficients are finite (`Description.reload_iff_finite`). Infinite coefficients are accepted
when a graph is built, but the text of its snapshot has `null` in their place.
-/

namespace MatrixFree

open Wiring

/-! ### Other coefficients -/

section Coefficients

variable {α β : Type} (f : α → β)

theorem Operator.check_map (op : Operator α) (sig : Signature) :
    (op.map f).check sig = op.check sig := by
  cases op with
  | dense m =>
    unfold check
    rw [map]
    dsimp only
    rw [Array.size_map]
  | sparse m =>
    unfold check SparseMatrix.check
    rw [map]
    dsimp only
    rw [Array.size_map]
  | convolve taps =>
    unfold check
    rw [map]
    dsimp only
    rw [Array.isEmpty, Array.isEmpty, Array.size_map]
  | _ => rfl

theorem NodeSpec.ports_map (n : NodeSpec α) (side : Side) :
    (n.map f).ports side = n.ports side := by
  cases side <;> rfl

namespace Wiring

variable {nodes : List (NodeSpec α)} {edges : EdgeRegistry} {root terminal : NodeId}

theorem getElem?_map_eq_some {i : ℕ} {spec : NodeSpec β}
    (h : (nodes.map (·.map f))[i]? = some spec) :
    ∃ s, nodes[i]? = some s ∧ s.map f = spec := by
  rw [List.getElem?_map] at h
  exact Option.map_eq_some_iff.1 h

theorem listedOn_map (side : Side) : listedOn (nodes.map (·.map f)) side = listedOn nodes side := by
  unfold listedOn
  rw [List.flatMap_map]
  simp only [NodeSpec.ports_map]

theorem Joined.map {e : EdgeId} {edge : Edge} (h : Joined nodes e edge) :
    Joined (nodes.map (·.map f)) e edge where
  source_ne := h.source_ne
  once side := by
    rw [listedOn_map]
    exact h.once side
  ports := by
    obtain ⟨size, hends⟩ := h.ports
    refine ⟨size, fun side => ?_⟩
    obtain ⟨spec, hspec, hcarries⟩ := hends side
    rw [List.getElem?_map, hspec]
    exact ⟨_, rfl, by rwa [NodeSpec.ports_map]⟩

/-- A wiring stays coherent with other coefficients. -/
theorem Coherent.map (h : Coherent nodes edges root terminal) :
    Coherent (nodes.map (·.map f)) edges root terminal where
  outer_lt side := by
    rw [List.length_map]
    exact h.outer_lt side
  closed side spec hspec := by
    obtain ⟨s, hs, rfl⟩ := getElem?_map_eq_some f hspec
    rw [NodeSpec.ports_map]
    exact h.closed side s hs
  ports i spec side hspec := by
    obtain ⟨s, hs, rfl⟩ := getElem?_map_eq_some f hspec
    rw [NodeSpec.ports_map]
    exact h.ports i s side hs
  fits spec hspec side := by
    obtain ⟨s, hs, rfl⟩ := List.mem_map.1 hspec
    rw [NodeSpec.ports_map]
    exact h.fits s hs side
  accepted spec hspec := by
    obtain ⟨s, hs, rfl⟩ := List.mem_map.1 hspec
    exact (s.op.check_map f _).trans (h.accepted s hs)
  registered side e he := by
    rw [listedOn_map] at he
    exact h.registered side e he
  joined e edge hget := (h.joined e edge hget).map f

end Wiring

theorem Topology.ofSpecs_map (nodes : List (NodeSpec α)) (edges : EdgeRegistry)
    (root terminal : NodeId) :
    ofSpecs (nodes.map (·.map f)) edges root terminal = ofSpecs nodes edges root terminal := by
  unfold ofSpecs
  rw [List.map_map]
  rfl

variable [Scalar α] [Scalar β] {specs : List (NodeSpec α)} {edges : EdgeRegistry}
  {root terminal : NodeId} {config : Config} {g : Graph α}

/-- A graph is built with any coefficients if it is built with some. -/
theorem Graph.build_map (h : build specs root terminal edges config = .ok g) :
    build (specs.map (·.map f)) root terminal edges config
      = .ok (initial (specs.map (·.map f)) edges root terminal config) := by
  obtain ⟨hcount, hw, hac, -⟩ := build_eq_ok_iff.1 h
  have hcount' : (specs.map (·.map f)).length ≤ UInt32.size := by
    rwa [List.length_map]
  refine build_eq_ok_iff.2 ⟨hcount', ((coherent_of_check hcount hw).map f).check hcount', ?_, rfl⟩
  rwa [Topology.ofSpecs_map]

end Coefficients

/-! ### Snapshots -/

namespace Description

open Form

variable {specs : List (NodeSpec Float)} {edges : EdgeRegistry} {root terminal : NodeId}
  {config : Config} {g g₀ : Graph Float}

/-- With any coefficients in its place, the snapshot of a graph can be loaded. -/
theorem exists_load_map (hbuild : Graph.build specs root terminal edges config = .ok g₀)
    (hg : g₀.Reachable g) (f : Float → Float) :
    ∃ g', ((ofGraph g).map f).load = .ok g' ∧ ofGraph g' = (ofGraph g).map f := by
  have hbuild' := Graph.build_map f hbuild
  have hsame : ofGraph (Graph.initial (specs.map (·.map f)) edges root terminal config)
      = (ofGraph g).map f := by
    rw [ofGraph_eq (.of_build hbuild'), ofGraph_eq (hg.valid (.of_build hbuild))]
    rfl
  refine ⟨Graph.initial (specs.map (·.map f)) edges root terminal config, ?_, hsame⟩
  rw [← hsame, load, toGraph_ofGraph hbuild' .refl]
  rfl

/-- At all times the snapshot of a graph is read back from its text if and only if all coefficients
are finite. What is read back has every coefficient as its own text is read, and a graph with that
snapshot is loaded from it. -/
theorem reload_iff_finite (hbuild : Graph.build specs root terminal edges config = .ok g₀)
    (hg : g₀.Reachable g) :
    ((∃ d, ofJson (ofGraph g).toJson = .ok d)
        ↔ ∀ x ∈ (ofGraph g).coefficients, x.isFinite = true)
      ∧ ∀ d, ofJson (ofGraph g).toJson = .ok d →
        (∃ f : Float → Float, (∀ x ∈ (ofGraph g).coefficients, reread x = .ok (f x))
          ∧ d = (ofGraph g).map f)
        ∧ ∃ g', d.load = .ok g' ∧ ofGraph g' = d := by
  refine ⟨⟨?_, fun hfinite => ?_⟩, fun d h => ?_⟩
  · rintro ⟨d, h⟩
    exact finite_of_ofJson h
  · obtain ⟨f, -, hjson⟩ := exists_ofJson_toJson hfinite
    exact ⟨_, hjson⟩
  · obtain ⟨f, hreread, hjson⟩ := exists_ofJson_toJson (finite_of_ofJson h)
    obtain rfl := Except.ok.inj (h.symm.trans hjson)
    exact ⟨⟨f, hreread, rfl⟩, exists_load_map hbuild hg f⟩

/-- The graph of `scaling`. -/
def scalingGraph (factor : Float) : Graph Float :=
  Graph.initial (scaling factor).nodes .empty ⟨0⟩ ⟨0⟩ {}

theorem build_scaling (factor : Float) :
    Graph.build (scaling factor).nodes ⟨0⟩ ⟨0⟩ .empty {} = .ok (scalingGraph factor) := by
  -- the factor is a coefficient, so one that can be evaluated stands for all
  have hbuild : Graph.build (scaling 1).nodes ⟨0⟩ ⟨0⟩ .empty {} = .ok (scalingGraph 1) :=
    Graph.build_of_schedule (by decide) rfl (l := [⟨0⟩])
      (Topology.schedule_of_entries (by decide) (by decide) (by decide) (by decide))
  exact Graph.build_map (fun _ => factor) hbuild

theorem reload_iff_finite_scaling :
    (∀ x ∈ (ofGraph (scalingGraph 0.1)).coefficients, x.isFinite = true)
      ∧ ∃ d g, ofJson (ofGraph (scalingGraph 0.1)).toJson = .ok d ∧ d.load = .ok g
        ∧ ofGraph g = d := by
  have hfinite : ∀ x ∈ (ofGraph (scalingGraph 0.1)).coefficients, x.isFinite = true := by
    decide +kernel
  obtain ⟨hiff, hload⟩ := reload_iff_finite (build_scaling 0.1) .refl
  obtain ⟨d, hjson⟩ := hiff.2 hfinite
  obtain ⟨-, g, hg, hsame⟩ := hload d hjson
  exact ⟨hfinite, d, g, hjson, hg, hsame⟩

/-- A graph that multiplies by infinity is built, but its snapshot is not read back. -/
theorem scaling_unreadable :
    Graph.build (scaling (.ofBits 0x7ff0000000000000)).nodes ⟨0⟩ ⟨0⟩ .empty {}
        = .ok (scalingGraph (.ofBits 0x7ff0000000000000))
      ∧ ¬ ∃ d, ofJson (ofGraph (scalingGraph (.ofBits 0x7ff0000000000000))).toJson = .ok d := by
  refine ⟨build_scaling _, ?_⟩
  rintro ⟨d, h⟩
  have hmem : Float.ofBits 0x7ff0000000000000
      ∈ (ofGraph (scalingGraph (.ofBits 0x7ff0000000000000))).coefficients := by
    rw [ofGraph_eq (.of_build (build_scaling _))]
    exact List.mem_cons_self
  have hinfinite : (Float.ofBits 0x7ff0000000000000).isFinite = false := by decide +kernel
  exact Bool.false_ne_true (hinfinite.symm.trans (finite_of_ofJson h _ hmem))

end Description

end MatrixFree
