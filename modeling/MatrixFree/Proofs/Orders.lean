import MatrixFree.Proofs.States

/-!
# The order of a full walk

On a sound topology every schedule starts where the walk starts and ends where the walk back
starts, since no other node has all its edges on one side. So a full walk over a graph that was
built goes from one end to the other and takes each node once, after all nodes that it depends on
(`Graph.exists_order`).
-/

namespace MatrixFree

open MatrixFree.Topology Wiring

/-- The other direction. -/
def Direction.reverse : Direction → Direction
  | forward => .adjoint
  | adjoint => .forward

namespace Direction

variable (d : Direction) (e : Edge)

theorem arrival_reverse : d.reverse.arrival = d.departure := by
  cases d <;> rfl

theorem departure_reverse : d.reverse.departure = d.arrival := by
  cases d <;> rfl

theorem head_reverse : d.reverse.head e = d.tail e := by
  cases d <;> rfl

theorem tail_reverse : d.reverse.tail e = d.head e := by
  cases d <;> rfl

end Direction

namespace Topology

variable {t : Topology} {d : Direction} {l : List NodeId}

namespace Schedule

variable (hl : t.Schedule d l) (ht : t.Sound)
include hl ht

theorem head?_eq : l.head? = some (t.start d) := by
  rcases l with _ | ⟨n, l⟩
  · exact absurd ((hl.mem_iff _).2 (ht.start_lt d)) List.not_mem_nil
  · by_contra hne
    have hn : n ≠ t.start d := fun h => hne (congrArg some h)
    -- an edge that leads to the first node has its tail before it
    obtain ⟨e, he⟩ := List.exists_mem_of_ne_nil _
      (ht.arrival_ne ((hl.mem_iff n).1 List.mem_cons_self) hn)
    obtain ⟨edge, hget, rfl⟩ := ht.mem_arrivals.1 he
    have hlt := hl.before hget
    rw [List.idxOf_cons_self] at hlt
    exact absurd hlt (Nat.not_lt_zero _)

theorem getLast?_eq : l.getLast? = some (t.start d.reverse) := by
  rcases List.eq_nil_or_concat l with rfl | ⟨l', n, rfl⟩
  · exact absurd ((hl.mem_iff _).2 (ht.start_lt d)) List.not_mem_nil
  · rw [List.concat_eq_append, List.getLast?_concat]
    rw [List.concat_eq_append] at hl
    by_contra hne
    have hn : n ≠ t.start d.reverse := fun h => hne (congrArg some h)
    have hmem : n ∈ l' ++ [n] := List.mem_append_right _ (List.mem_singleton_self n)
    -- an edge that leaves the last node has its head after it
    have hlisted := ht.arrival_ne ((hl.mem_iff n).1 hmem) hn
    rw [d.arrival_reverse] at hlisted
    obtain ⟨e, he⟩ := List.exists_mem_of_ne_nil _ hlisted
    obtain ⟨edge, hget, rfl⟩ := ht.mem_departures.1 he
    have hlt := hl.before hget
    have hnot : d.tail edge ∉ l' := fun h =>
      List.disjoint_of_nodup_append hl.nodup h (List.mem_singleton_self _)
    have hhead := List.idxOf_lt_length_of_mem ((hl.mem_iff _).2 (ht.head_lt (d := d) hget))
    rw [List.idxOf_append_of_notMem hnot, List.idxOf_cons_self] at hlt
    rw [List.length_append, List.length_singleton] at hhead
    omega

end Schedule

/-- What a full walk that finds no fault visits is the order. -/
theorem order_eq_of_traverse (h : ∀ {σ : Type} (verify : Bool) (visit : Visitor σ) (s : σ),
    t.traverse d verify visit s
      = ((visitAll visit l s).1, (visitAll visit l s).2.map fun _ => l)) : t.order d = .ok l := by
  unfold order
  rw [h, visitAll_ok fun _ _ => rfl]
  rfl

end Topology

namespace Graph

variable {α : Type} [Scalar α] {specs : List (NodeSpec α)} {edges : EdgeRegistry}
  {root terminal : NodeId} {config : Config} {g₀ g : Graph α}

/-- At all times a full walk over a graph that was built goes from one end to the other: it has
every node once, each edge goes from an earlier node to a later one, and whether the walk is
verified or not, and whatever is done at the nodes, these are the nodes it visits, in this
order. -/
theorem exists_order (hbuild : build specs root terminal edges config = .ok g₀)
    (hg : g₀.Reachable g) (d : Direction) :
    ∃ l, g.topology.order d = .ok l
      ∧ l.Perm ((List.range specs.length).map NodeId.ofIndex)
      ∧ l.head? = some (outer root terminal d.arrival)
      ∧ l.getLast? = some (outer root terminal d.departure)
      ∧ (∀ e edge, edges.get? e = some edge → l.idxOf (d.tail edge) < l.idxOf (d.head edge))
      ∧ l.length = specs.length
      ∧ ∀ {σ : Type} (verify : Bool) (visit : Visitor σ) (s : σ),
          g.topology.traverse d verify visit s
            = ((visitAll visit l s).1, (visitAll visit l s).2.map fun _ => l) := by
  have h := hg.valid (.of_build hbuild)
  have ht := sound_ofSpecs h.wired
  have hcount : (ofSpecs specs edges root terminal).nodeCount ≤ UInt32.size := by
    rw [nodeCount_ofSpecs]
    exact h.wired.length_le
  obtain ⟨l, hl, htraverse⟩ := exists_traverse ht hcount h.acyclic d
  have hperm := hl.perm hcount
  rw [nodeCount_ofSpecs] at hperm
  have hlast := hl.getLast?_eq ht
  rw [start_ofSpecs, d.arrival_reverse] at hlast
  rw [h.topology_eq]
  refine ⟨l, order_eq_of_traverse htraverse, hperm, ?_, hlast, fun e edge hget => hl.before hget,
    ?_, htraverse⟩
  · rw [hl.head?_eq ht, start_ofSpecs]
  · rw [hl.length_eq hcount, nodeCount_ofSpecs]

theorem exists_order_branching :
    ∃ g l, (branchingGraph.evaluate .forward ⟨0⟩).1 = g ∧ g.topology.order .adjoint = .ok l
      ∧ l.head? = some ⟨4⟩ ∧ l.getLast? = some ⟨0⟩
      ∧ (g.topology.traverse .adjoint false (fun n seen => (seen ++ [n], .ok ())) []).2
        = .ok l := by
  have hreach : branchingGraph.Reachable (branchingGraph.evaluate .forward ⟨0⟩).1 :=
    .evaluate .forward ⟨0⟩ .refl
  obtain ⟨l, horder, -, hhead, hlast, -, -, htraverse⟩ :=
    exists_order build_branching hreach .adjoint
  refine ⟨_, l, rfl, horder, hhead, hlast, ?_⟩
  rw [htraverse, visitAll_ok fun _ _ => rfl]
  rfl

end Graph

end MatrixFree
