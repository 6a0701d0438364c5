import Mathlib.Data.Fintype.Card
import Mathlib.Data.Fintype.EquivFin
import Mathlib.Logic.Relation
import MatrixFree.Proofs.Wirings
import MatrixFree.Topology.Basic

/-!
# Topologies

What a well-formed wiring says about its topology, for both directions at once
(`Topology.sound_ofSpecs`): the start of a walk waits for nothing, every other node waits for at
least one edge, and the edges listed on a side of a node are those that the registry has end there.
-/

namespace MatrixFree

/-- The end of an edge that values travel from. -/
def Direction.tail : Direction → Edge → NodeId
  | forward, e => e.source
  | adjoint, e => e.target

theorem Direction.endOn_arrival (d : Direction) (e : Edge) : Wiring.endOn d.arrival e = d.head e := by
  cases d <;> rfl

theorem Direction.endOn_departure (d : Direction) (e : Edge) :
    Wiring.endOn d.departure e = d.tail e := by
  cases d <;> rfl

theorem Direction.departure_ne_arrival (d : Direction) : d.departure ≠ d.arrival := by
  cases d <;> exact nofun

instance : Finite NodeId :=
  Finite.of_injective (fun n => (⟨n.index, n.index_lt⟩ : Fin UInt32.size)) fun _ _ h =>
    NodeId.index_inj.1 (Fin.mk.inj h)

namespace Topology

/-- The edges that a node lists on a side. -/
def listed (t : Topology) (n : NodeId) (side : Side) : List EdgeId :=
  ((t.adjacency[n.index]?).map (·.on side)).getD []

/-- An edge of the graph goes from `m` to `n` in the direction of travel. -/
def Adj (t : Topology) (d : Direction) (m n : NodeId) : Prop :=
  ∃ e edge, t.edges.get? e = some edge ∧ d.tail edge = m ∧ d.head edge = n

/-- No walk along the edges comes back to where it was. -/
def Acyclic (t : Topology) : Prop := ∀ n, ¬ Relation.TransGen (t.Adj .forward) n n

/-- Lists of edges and registry agree, in terms of either direction. -/
structure Sound (t : Topology) : Prop where
  start_lt : ∀ d, (t.start d).index < t.nodeCount
  start_listed : ∀ d, t.listed (t.start d) d.arrival = []
  arrival_ne : ∀ {d n}, n.index < t.nodeCount → n ≠ t.start d → t.listed n d.arrival ≠ []
  mem_listed : ∀ {n side e},
    e ∈ t.listed n side ↔ ∃ edge, t.edges.get? e = some edge ∧ Wiring.endOn side edge = n
  nodup_listed : ∀ n side, (t.listed n side).Nodup
  end_lt : ∀ {e edge}, t.edges.get? e = some edge →
    ∀ side, (Wiring.endOn side edge).index < t.nodeCount
  source_ne : ∀ {e edge}, t.edges.get? e = some edge → edge.source ≠ edge.target

theorem adj_swap {t : Topology} {m n : NodeId} : t.Adj .adjoint m n ↔ t.Adj .forward n m :=
  ⟨fun ⟨e, edge, he, hm, hn⟩ => ⟨e, edge, he, hn, hm⟩,
    fun ⟨e, edge, he, hm, hn⟩ => ⟨e, edge, he, hn, hm⟩⟩

theorem Acyclic.not_transGen {t : Topology} (h : t.Acyclic) :
    ∀ (d : Direction) (n : NodeId), ¬ Relation.TransGen (t.Adj d) n n
  | .forward, n => h n
  | .adjoint, n => fun hn => h n <| by
    rw [← Relation.transGen_swap]
    exact Relation.TransGen.mono (fun _ _ => adj_swap.1) _ _ hn

theorem Acyclic.wellFounded {t : Topology} (h : t.Acyclic) (d : Direction) :
    WellFounded (t.Adj d) := by
  have : Std.Irrefl (Relation.TransGen (t.Adj d)) := ⟨h.not_transGen d⟩
  have := Finite.wellFounded_of_trans_of_irrefl (Relation.TransGen (t.Adj d))
  exact Subrelation.wf .single this

namespace Sound

variable {t : Topology} (ht : t.Sound) {d : Direction} {e : EdgeId} {edge : Edge} {n : NodeId}
include ht

theorem head_lt (he : t.edges.get? e = some edge) : (d.head edge).index < t.nodeCount :=
  d.endOn_arrival edge ▸ ht.end_lt he d.arrival

theorem tail_lt (he : t.edges.get? e = some edge) : (d.tail edge).index < t.nodeCount :=
  d.endOn_departure edge ▸ ht.end_lt he d.departure

theorem head_ne_tail (he : t.edges.get? e = some edge) : d.head edge ≠ d.tail edge := by
  cases d
  · exact (ht.source_ne he).symm
  · exact ht.source_ne he

theorem mem_arrivals : e ∈ t.listed n d.arrival ↔ ∃ edge, t.edges.get? e = some edge
    ∧ d.head edge = n := by
  simp only [ht.mem_listed, d.endOn_arrival]

theorem mem_departures : e ∈ t.listed n d.departure ↔ ∃ edge, t.edges.get? e = some edge
    ∧ d.tail edge = n := by
  simp only [ht.mem_listed, d.endOn_departure]

end Sound

section

variable {α : Type} {specs : List (NodeSpec α)} {edges : EdgeRegistry} {root terminal : NodeId}

@[simp] theorem nodeCount_ofSpecs : (ofSpecs specs edges root terminal).nodeCount = specs.length := by
  simp [nodeCount, ofSpecs]

theorem listed_ofSpecs (n : NodeId) (side : Side) : (ofSpecs specs edges root terminal).listed n side
    = ((specs[n.index]?).map fun s => (s.ports side).edges).getD [] := by
  rw [listed, ofSpecs, List.getElem?_toArray, List.getElem?_map, Option.map_map]
  cases side <;> rfl

theorem start_ofSpecs (d : Direction) : (ofSpecs specs edges root terminal).start d
    = Wiring.outer root terminal d.arrival := by
  cases d <;> rfl

theorem sound_ofSpecs (h : Wiring.WellFormed specs edges root terminal) :
    (ofSpecs specs edges root terminal).Sound where
  start_lt d := by
    rw [start_ofSpecs, nodeCount_ofSpecs]
    exact h.outer_lt d.arrival
  start_listed d := by
    rw [start_ofSpecs, listed_ofSpecs]
    rcases hs : specs[(Wiring.outer root terminal d.arrival).index]? with _ | spec
    · rfl
    · exact h.closed hs
  arrival_ne {d n} hn hne := by
    rw [nodeCount_ofSpecs] at hn
    rw [start_ofSpecs] at hne
    have hs := List.getElem?_eq_getElem hn
    have hfit := h.nodeFits hs
    rw [NodeId.ofIndex_index] at hfit
    have hports := hfit.ports d.arrival
    rw [if_neg hne] at hports
    have hshapes : ((specs[n.index]).ports d.arrival).shapes ≠ [] := by
      obtain ⟨hi, ho⟩ := hfit.accepts.ports
      cases d
      · exact hi
      · exact ho
    rw [listed_ofSpecs, hs]
    intro hnil
    have hnil : ((specs[n.index]).ports d.arrival).edges = [] := hnil
    rw [hnil] at hports
    exact hshapes (List.eq_nil_of_length_eq_zero hports)
  mem_listed {n side e} := by
    rw [listed_ofSpecs]
    constructor
    · intro he
      rcases hs : specs[n.index]? with _ | spec
      · rw [hs] at he
        cases he
      · rw [hs] at he
        obtain ⟨edge, hget, hend⟩ := (h.nodeFits hs).listed side e he
        exact ⟨edge, hget, hend.trans (NodeId.ofIndex_index n)⟩
    · rintro ⟨edge, hget, rfl⟩
      obtain ⟨spec, hs, he⟩ := h.claimed hget side
      rw [hs]
      exact he
  nodup_listed n side := by
    rw [listed_ofSpecs]
    rcases hs : specs[n.index]? with _ | spec
    · exact List.nodup_nil
    · exact (h.nodeFits hs).nodup side
  end_lt {e edge} hget side := by
    rw [nodeCount_ofSpecs]
    exact h.end_lt hget side
  source_ne := h.source_ne

end

end Topology

end MatrixFree
