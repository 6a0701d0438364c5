import MatrixFree.Node.Basic
import MatrixFree.Registry

/-!
# Topology

The wiring of a graph by itself: which edges are on the two sides of each node, which nodes they
connect, and where a walk starts.
-/

namespace MatrixFree

/-- The edges on the two sides of a node. -/
structure Adjacency where
  inputs : List EdgeId
  outputs : List EdgeId
  deriving DecidableEq, Repr

def Adjacency.on (a : Adjacency) : Side → List EdgeId
  | .input => a.inputs
  | .output => a.outputs

structure Topology where
  adjacency : Array Adjacency
  edges : EdgeRegistry
  root : NodeId
  terminal : NodeId

namespace Topology

def ofSpecs {α : Type} (nodes : List (NodeSpec α)) (edges : EdgeRegistry)
    (root terminal : NodeId) : Topology :=
  ⟨(nodes.map fun n => ⟨n.input.edges, n.output.edges⟩).toArray, edges, root, terminal⟩

def nodeCount (t : Topology) : Nat := t.adjacency.size

/-- The node that a walk starts from. -/
def start (t : Topology) : Direction → NodeId
  | .forward => t.root
  | .adjoint => t.terminal

/-- The edges that leave a node in the direction of travel. -/
def downstream (t : Topology) (d : Direction) (n : NodeId) : Checked (List EdgeId) := do
  return (← Table.read t.adjacency n.index).on d.departure

/-- For each node, the number of edges that it waits for. -/
def dependencies (t : Topology) (d : Direction) : Array Nat :=
  t.adjacency.map fun a => (a.on d.arrival).length

end Topology

end MatrixFree
