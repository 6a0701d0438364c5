import MatrixFree.Proofs.Batches
import MatrixFree.Proofs.Orders

/-!
# Snapshots and rebuilding

The edges that a description lists are registered in the order of their names, and none is lost
(`Description.perm_of_register`). So at all times a graph has the description that it was built
from, with its edges in this order, and its description can be built again, to a graph that visits
the nodes in the same orders and gives the same results (`Description.rebuild_inverse`).
-/

namespace MatrixFree

namespace EdgeRegistry

theorem perm_place {id : EdgeId} {e : Edge} : ∀ {l : List (EdgeId × Edge)},
    (∀ x ∈ l, x.1 ≠ id) → (place id e l).Perm ((id, e) :: l)
  | [], _ => .refl _
  | (id', e') :: l, h => by
    obtain ⟨hne, h⟩ := List.forall_mem_cons.1 h
    unfold place
    split
    · exact .refl _
    · rw [if_neg (Ne.symm hne)]
      exact ((perm_place h).cons _).trans (.swap _ _ _)

theorem ne_of_get?_eq_none {r : EdgeRegistry} {id : EdgeId} (h : r.get? id = none) :
    ∀ x ∈ r.entries, x.1 ≠ id := by
  rintro ⟨id', e⟩ hx rfl
  rw [get?_eq_some_iff.2 hx] at h
  cases h

end EdgeRegistry

namespace Description

variable {α : Type} {r : EdgeRegistry} {es : List EdgeSpec}

/-- The description with its edges in the order of their names. -/
def sorted (d : Description α) : Description α :=
  { d with edges := d.edges.mergeSort fun a b => a.id.val ≤ b.id.val }

/-- A registry holds what was there and every edge that was added. -/
theorem perm_of_register : ∀ {es : List EdgeSpec} {r r' : EdgeRegistry}, register r es = .ok r' →
    r'.entries.Perm (r.entries ++ es.map fun e => (e.id, e.ends))
  | [], r, r', h => by
    obtain rfl := Except.ok.inj h
    simp
  | e :: es, r, r', h => by
    unfold register at h
    rcases hi : r.insert e.id e.ends with ⟨r₁, old⟩
    rw [hi] at h
    rcases old with _ | old
    · obtain ⟨rfl, hnone⟩ := Prod.mk.inj hi
      have hplace := EdgeRegistry.perm_place (e := e.ends) (EdgeRegistry.ne_of_get?_eq_none hnone)
      exact (perm_of_register h).trans ((hplace.append_right _).trans List.perm_middle.symm)
    · cases h

theorem pairwise_sorted (es : List EdgeSpec) :
    (es.mergeSort fun a b => a.id.val ≤ b.id.val).Pairwise fun a b => a.id.val ≤ b.id.val := by
  have h : (es.mergeSort fun a b => a.id.val ≤ b.id.val).Pairwise
      fun a b => decide (a.id.val ≤ b.id.val) = true := by
    refine List.pairwise_mergeSort (fun a b c hab hbc => ?_) (fun a b => ?_) es
    · rw [decide_eq_true_eq] at hab hbc ⊢
      exact UInt32.le_trans hab hbc
    · rw [Bool.or_eq_true, decide_eq_true_eq, decide_eq_true_eq]
      exact UInt32.le_total a.id.val b.id.val
  simpa using h

/-- What was registered, in the order of the registry, is sorted by name. -/
theorem entries_of_register (h : register .empty es = .ok r) :
    (r.entries.map fun (id, ends) => ⟨id, ends⟩)
      = es.mergeSort fun a b => a.id.val ≤ b.id.val := by
  have hperm : (r.entries.map fun x => (⟨x.1, x.2⟩ : EdgeSpec)).Perm es := by
    have := (perm_of_register h).map fun x => (⟨x.1, x.2⟩ : EdgeSpec)
    simpa [EdgeRegistry.empty, Function.comp_def] using this
  have hascending : (r.entries.map fun x => (⟨x.1, x.2⟩ : EdgeSpec)).Pairwise
      fun a b => a.id.val ≤ b.id.val :=
    List.pairwise_map.2 (r.ascending.imp UInt32.le_of_lt)
  refine List.Perm.eq_of_pairwise ?_ hascending (pairwise_sorted es)
    (hperm.trans (List.mergeSort_perm es _).symm)
  -- a registry has one entry of each name
  intro a b ha hb hab hba
  have hb := hperm.mem_iff.2 ((List.mergeSort_perm es _).mem_iff.1 hb)
  obtain ⟨⟨⟨i⟩, e⟩, hx, rfl⟩ := List.mem_map.1 ha
  obtain ⟨⟨⟨j⟩, e'⟩, hy, rfl⟩ := List.mem_map.1 hb
  obtain rfl : i = j := UInt32.le_antisymm hab hba
  have hx := EdgeRegistry.get?_eq_some_iff.2 hx
  rw [EdgeRegistry.get?_eq_some_iff.2 hy] at hx
  rw [Option.some.inj hx]

variable [Scalar α] {d : Description α} {g g₀ : Graph α}

theorem toGraph_eq_ok_iff : d.toGraph = .ok g ↔ ∃ edges, register .empty d.edges = .ok edges
    ∧ Graph.build d.nodes d.root d.terminal edges d.config = .ok g := by
  unfold toGraph
  rcases hr : register .empty d.edges with e | edges
  · simp [GraphCheck.ofExcept, GraphCheck.refuse, bind, Except.bind]
  · simp [GraphCheck.ofExcept, ok_bind]

/-- At all times the description of a graph is the one that it was built from, sorted. -/
theorem ofGraph_eq_sorted (h : d.toGraph = .ok g₀) (hg : g₀.Reachable g) :
    ofGraph g = d.sorted := by
  obtain ⟨edges, hr, hbuild⟩ := toGraph_eq_ok_iff.1 h
  rw [ofGraph_eq (hg.valid (.of_build hbuild)), entries_of_register hr]
  rfl

end Description

namespace Graph

variable {α : Type} [Scalar α] {specs : List (NodeSpec α)} {edges : EdgeRegistry}
  {root terminal : NodeId} {config : Config} {g : Graph α}

theorem zeroed_of_build (h : build specs root terminal edges config = .ok g) :
    ∀ node ∈ g.nodes, ∀ side, node.data side = Array.replicate (node.spec.length side) 0 := by
  obtain ⟨-, -, -, rfl⟩ := build_eq_ok_iff.1 h
  intro node hnode side
  obtain ⟨spec, -, rfl⟩ := List.mem_map.1 (List.mem_toArray.1 hnode)
  cases side <;> rfl

end Graph

namespace Description

variable {α : Type} [Scalar α]

/-- The description of a graph that was built from a description is that one, with its edges sorted,
whatever was done to the graph. The description of any graph in use can be built, and what is built
is zeroed, visits the nodes in the same orders, and gives what the graph gives. -/
theorem rebuild_inverse :
    (∀ (d : Description α) (g₀ g : Graph α), d.toGraph = .ok g₀ → g₀.Reachable g →
      ofGraph g = d.sorted)
    ∧ ∀ g : Graph α, g.InUse → ∃ fresh, (ofGraph g).toGraph = .ok fresh
      ∧ (∀ node ∈ fresh.nodes, ∀ side,
          node.data side = Array.replicate (node.spec.length side) 0)
      ∧ fresh.stats = .zero
      ∧ ∀ d, (∃ l, g.topology.order d = .ok l ∧ fresh.topology.order d = .ok l)
        ∧ (∀ x elapsed elapsed', (Batch.evaluateOne d elapsed g x).2
            = (Batch.evaluateOne d elapsed' fresh x).2)
        ∧ ∀ x, x.size = (g.buffer d.inputRole).size →
          ∃ out, g.Yields d x out ∧ fresh.Yields d x out := by
  refine ⟨fun d g₀ g => ofGraph_eq_sorted, fun g hg => ?_⟩
  obtain ⟨specs, edges, root, terminal, config, fresh, hbuild, hreach⟩ := hg
  have hfresh := Graph.Valid.of_build hbuild
  have h := hreach.valid hfresh
  refine ⟨fresh, toGraph_ofGraph hbuild hreach, Graph.zeroed_of_build hbuild,
    Graph.stats_of_build hbuild, fun d => ⟨?_, fun x elapsed elapsed' =>
      h.evaluateOne_congr hfresh d elapsed elapsed' x, fun x hx => ?_⟩⟩
  · obtain ⟨l, horder, -⟩ := Graph.exists_order hbuild hreach d
    refine ⟨l, horder, ?_⟩
    rwa [hfresh.topology_eq, ← h.topology_eq]
  · obtain ⟨l, nodes, -, -, hout⟩ := h.exists_evaluateOne hx
    have hx' := hx.trans (h.size_buffer hfresh d.inputRole)
    refine ⟨_, h.yields hx hout, hfresh.yields hx' fun elapsed => ?_⟩
    rw [← h.evaluateOne_congr hfresh d elapsed elapsed x, hout]

/-- The declaration of `branching`, with its edges listed backwards. -/
def backward : Description ℚ where
  nodes := Graph.branching.nodes
  edges := (Graph.branching.edges.entries.map fun x => ⟨x.1, x.2⟩).reverse
  root := ⟨0⟩
  terminal := ⟨4⟩
  config := Graph.branching.config

theorem toGraph_backward : backward.toGraph = .ok Graph.branchingGraph :=
  toGraph_eq_ok_iff.2 ⟨Graph.branching.edges, rfl, Graph.build_branching⟩

theorem rebuild_inverse_backward :
    ∃ g, (Graph.branchingGraph.evaluate .adjoint ⟨3⟩).1 = g ∧ ofGraph g = backward.sorted
      ∧ ∃ fresh out, (ofGraph g).toGraph = .ok fresh ∧ fresh.stats = .zero
        ∧ g.Yields .forward #[3, -12, 25, 7] out ∧ fresh.Yields .forward #[3, -12, 25, 7] out := by
  have hreach : Graph.branchingGraph.Reachable (Graph.branchingGraph.evaluate .adjoint ⟨3⟩).1 :=
    .evaluate .adjoint ⟨3⟩ .refl
  obtain ⟨hsorted, hrebuilt⟩ := rebuild_inverse (α := ℚ)
  obtain ⟨fresh, hfresh, -, hstats, hsame⟩ :=
    hrebuilt _ ⟨_, _, _, _, _, _, Graph.build_branching, hreach⟩
  have h₀ := Graph.Valid.of_build Graph.build_branching
  obtain ⟨out, hout, hout'⟩ := (hsame .forward).2.2 #[3, -12, 25, 7]
    (Eq.trans (by decide) (h₀.size_buffer (hreach.valid h₀) _))
  exact ⟨_, rfl, hsorted _ _ _ toGraph_backward hreach, fresh, out, hfresh, hstats, hout, hout'⟩

end Description

end MatrixFree
