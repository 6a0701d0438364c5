import MatrixFree.Proofs.States
import MatrixFree.Description.Basic

/-!
# Graphs built from their descriptions

The description of a graph is that of its declaration, whatever its buffers hold, so the graph that
is built from it is the one that was built first (`Description.toGraph_ofGraph`).
-/

namespace MatrixFree

open MatrixFree.Topology Wiring

namespace EdgeRegistry

theorem place_of_lt {id : EdgeId} {e : Edge} : ∀ {l : List (EdgeId × Edge)},
    (∀ x ∈ l, x.1.val < id.val) → place id e l = l ++ [(id, e)]
  | [], _ => rfl
  | (id', e') :: l, h => by
    obtain ⟨hlt, h⟩ := List.forall_mem_cons.1 h
    have hne : id ≠ id' := fun hid => UInt32.lt_irrefl _ (hid ▸ hlt)
    rw [place, if_neg (UInt32.lt_asymm hlt), if_neg hne, place_of_lt h]
    rfl

theorem get?_eq_none_of_lt {r : EdgeRegistry} {id : EdgeId}
    (h : ∀ x ∈ r.entries, x.1.val < id.val) : r.get? id = none := by
  rcases hget : r.get? id with _ | e
  · rfl
  · exact absurd (h _ (get?_eq_some_iff.1 hget)) (UInt32.lt_irrefl _)

theorem eq_of_entries {r r' : EdgeRegistry} (h : r.entries = r'.entries) : r = r' := by
  cases r
  cases r'
  cases h
  rfl

end EdgeRegistry

namespace Description

variable {α : Type}

/-- Edges in ascending order are all registered, after those that are there. -/
theorem register_of_ascending : ∀ {l : List (EdgeId × Edge)} {r r' : EdgeRegistry},
    r'.entries = r.entries ++ l → register r (l.map fun (id, ends) => ⟨id, ends⟩) = .ok r'
  | [], r, r', h => by
    rw [EdgeRegistry.eq_of_entries (h.trans (List.append_nil _))]
    rfl
  | (id, e) :: l, r, r', h => by
    have hlt : ∀ x ∈ r.entries, x.1.val < id.val := fun x hx =>
      (List.pairwise_append.1 (h ▸ r'.ascending)).2.2 x hx (id, e) List.mem_cons_self
    have hinsert : (r.insert id e).1.entries = r.entries ++ [(id, e)] :=
      EdgeRegistry.place_of_lt hlt
    have hnone : (r.insert id e).2 = none := EdgeRegistry.get?_eq_none_of_lt hlt
    have hrest : r'.entries = (r.insert id e).1.entries ++ l := by
      rw [hinsert, List.append_assoc, h]
      rfl
    have ih := register_of_ascending hrest
    rcases hi : r.insert id e with ⟨r₁, old⟩
    rw [hi] at ih hnone
    obtain rfl : old = none := hnone
    rw [List.map_cons, register, hi]
    exact ih

theorem register_entries (r : EdgeRegistry) :
    register .empty (r.entries.map fun (id, ends) => ⟨id, ends⟩) = .ok r :=
  register_of_ascending rfl

variable {specs : List (NodeSpec α)} {edges : EdgeRegistry} {root terminal : NodeId}
  {config : Config} {g g₀ : Graph α}

theorem specs_eq (h : g.Valid specs edges root terminal config) : g.specs = specs := by
  refine List.ext_getElem? fun i => ?_
  rw [Graph.specs, Array.getElem?_toList, Array.getElem?_map]
  by_cases hi : i < specs.length
  · have hs := List.getElem?_eq_getElem hi
    have hn := Array.getElem?_eq_getElem (h.laidOut.size_eq.symm ▸ hi)
    rw [hs, hn, Option.map_some, (h.laidOut.node hs hn).spec_eq]
  · have hn : g.nodes.size ≤ i := h.laidOut.size_eq ▸ Nat.not_lt.1 hi
    rw [List.getElem?_eq_none (Nat.not_lt.1 hi), Array.getElem?_eq_none hn]
    rfl

theorem ofGraph_eq (h : g.Valid specs edges root terminal config) : ofGraph g
    = ⟨specs, edges.entries.map fun (id, ends) => ⟨id, ends⟩, root, terminal, config⟩ := by
  rw [ofGraph, specs_eq h, h.topology_eq, h.config_eq]
  rfl

variable [Scalar α]

/-- At all times the graph that is built from the description of a graph is the one that was built
first. -/
theorem toGraph_ofGraph (hbuild : Graph.build specs root terminal edges config = .ok g₀)
    (hg : g₀.Reachable g) : (ofGraph g).toGraph = .ok g₀ := by
  rw [ofGraph_eq (hg.valid (.of_build hbuild)), toGraph, register_entries]
  exact hbuild

end Description

end MatrixFree
