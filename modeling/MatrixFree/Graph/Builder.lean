import MatrixFree.Graph.Basic

/-!
# Building a graph step by step

A builder collects nodes and edges. Each edge takes the next free port on both of its ends, so the
edges of a node are connected in the order of its ports.
-/

namespace MatrixFree

structure GraphBuilder (α : Type) where
  nodes : List (NodeSpec α)
  edges : EdgeRegistry
  config : Config

namespace GraphBuilder

variable {α : Type}

def empty (config : Config) : GraphBuilder α := ⟨[], .empty, config⟩

def nodeCount (b : GraphBuilder α) : Nat := b.nodes.length

/-- The builder with one more node, and its name. -/
def addNode (b : GraphBuilder α) (op : Operator α) (inputs outputs : List Shape) :
    GraphBuilder α × NodeId :=
  ({ b with nodes := b.nodes ++ [⟨op, ⟨[], inputs⟩, ⟨[], outputs⟩⟩] }, .ofIndex b.nodes.length)

/-- Puts an edge on the next port of a side. A node that is not there is left to `build`. -/
def attach (nodes : List (NodeSpec α)) (n : NodeId) (side : Side) (e : EdgeId) :
    List (NodeSpec α) :=
  nodes.modify n.index fun spec =>
    match side with
    | .input => { spec with input := { spec.input with edges := spec.input.edges ++ [e] } }
    | .output => { spec with output := { spec.output with edges := spec.output.edges ++ [e] } }

/-- The builder with an edge of a given name from `source` to `target`. -/
def connectAs (b : GraphBuilder α) (e : EdgeId) (source target : NodeId) : GraphBuilder α :=
  { b with
    nodes := attach (attach b.nodes source .output e) target .input e
    edges := (b.edges.insert e ⟨source, target⟩).1 }

/-- The builder with an edge from `source` to `target`, and its name. -/
def connect (b : GraphBuilder α) (source target : NodeId) :
    Checked (GraphBuilder α × EdgeId) := do
  let e ← b.edges.nextId
  return (b.connectAs e source target, e)

def build [Scalar α] (b : GraphBuilder α) (root terminal : NodeId) : GraphCheck (Graph α) :=
  Graph.build b.nodes root terminal b.edges b.config

end GraphBuilder

end MatrixFree
