import MatrixFree.GraphError
import MatrixFree.Topology.Basic

/-!
# Cycles

A search for a directed cycle in two passes. The first goes through the graph depth first and
lists the nodes in the order in which they are finished. The second goes along the edges backwards
from the nodes finished last; if it gets from one node to a second one that it has not seen, the
two are on a cycle.
-/

namespace MatrixFree.Cycle

/-- The successors of a node, the edge added last first. -/
def next (edges : List (Nat × Nat)) (v : Nat) : List Nat :=
  ((edges.filter (·.1 = v)).map (·.2)).reverse

/-- The predecessors of a node, the edge added last first. -/
def previous (edges : List (Nat × Nat)) (v : Nat) : List Nat :=
  ((edges.filter (·.2 = v)).map (·.1)).reverse

theorem length_next_le (edges : List (Nat × Nat)) (v : Nat) :
    (next edges v).length ≤ edges.length := by
  simp only [next, List.length_reverse, List.length_map]
  exact List.length_filter_le _ _

theorem length_previous_le (edges : List (Nat × Nat)) (v : Nat) :
    (previous edges v).length ≤ edges.length := by
  simp only [previous, List.length_reverse, List.length_map]
  exact List.length_filter_le _ _

/-- Puts the nodes that are still fresh on a stack, one after the other. -/
def push (fresh nodes stack : List Nat) : List Nat :=
  (nodes.filter (· ∈ fresh)).reverse ++ stack

theorem length_push_le (fresh nodes stack : List Nat) :
    (push fresh nodes stack).length ≤ nodes.length + stack.length := by
  simp only [push, List.length_append, List.length_reverse]
  exact Nat.add_le_add_right (List.length_filter_le _ _) _

/-- A node that is taken up pays for the at most `m` nodes that it pushes. -/
theorem cost_lt {m n p s s' : Nat} (hn : 0 < n) (hp : p ≤ m) (hs : s' ≤ p + s) :
    (n - 1) * (m + 1) + s' < n * (m + 1) + s := by
  obtain ⟨n, rfl⟩ : ∃ k, n = k + 1 := ⟨n - 1, by omega⟩
  simp only [Nat.add_sub_cancel, Nat.add_mul, Nat.one_mul]
  omega

/-- Where the first pass stands: the nodes not yet seen and the nodes finished, the last one
first. -/
structure Progress where
  fresh : List Nat
  finished : List Nat
  deriving DecidableEq, Repr

/-- Works off a stack. A fresh node on top is seen and its fresh successors are pushed on it; one
that was seen before is popped and is then finished. A node that is its own successor is given as
the error. -/
def finish (edges : List (Nat × Nat)) (stack : List Nat) (p : Progress) : Except Nat Progress :=
  match stack with
  | [] => .ok p
  | v :: rest =>
    if v ∈ p.fresh then
      if v ∈ next edges v then .error v
      else finish edges (push (p.fresh.erase v) (next edges v) (v :: rest))
        { p with fresh := p.fresh.erase v }
    else finish edges rest
      { p with finished := if v ∈ p.finished then p.finished else v :: p.finished }
termination_by p.fresh.length * (edges.length + 1) + stack.length
decreasing_by
  · rw [List.length_erase_of_mem ‹_›]
    exact cost_lt (List.length_pos_of_mem ‹_›) (length_next_le edges v) (length_push_le _ _ _)
  · simp

/-- Works off a stack along the edges backwards. A second fresh node is given as the error;
otherwise what is still fresh. -/
def retrace (edges : List (Nat × Nat)) (stack fresh : List Nat) (found : Bool) :
    Except Nat (List Nat) :=
  match stack with
  | [] => .ok fresh
  | v :: rest =>
    if v ∈ fresh then
      if found then .error v
      else retrace edges (push (fresh.erase v) (previous edges v) rest) (fresh.erase v) true
    else retrace edges rest fresh found
termination_by fresh.length * (edges.length + 1) + stack.length
decreasing_by
  · rw [List.length_erase_of_mem ‹_›]
    have := cost_lt (List.length_pos_of_mem ‹_›) (length_previous_le edges v)
      (length_push_le (fresh.erase v) (previous edges v) rest)
    simp only [List.length_cons]
    omega
  · simp

/-- Searches the graph on the nodes below `n` with the given edges. The error is a node on a
cycle. -/
def search (n : Nat) (edges : List (Nat × Nat)) : Except Nat Unit := do
  let p ← (List.range n).foldlM (fun p v =>
    if v ∈ p.fresh then finish edges [v] p else .ok p) ⟨List.range n, []⟩
  let _ ← p.finished.foldlM (fun fresh v => retrace edges [v] fresh false) (List.range n)
  return ()

end Cycle

namespace Topology

/-- The registered edges whose ends are both nodes of the graph. -/
def innerEdges (t : Topology) : List (Nat × Nat) :=
  (t.edges.entries.map fun x => (x.2.source.index, x.2.target.index)).filter
    fun e => e.1 < t.nodeCount ∧ e.2 < t.nodeCount

/-- Refuses a wiring with a directed cycle. -/
def checkAcyclic (t : Topology) : Except GraphError Unit :=
  (Cycle.search t.nodeCount t.innerEdges).mapError fun v => .cycle (.ofIndex v)

end Topology

end MatrixFree
