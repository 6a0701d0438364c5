import MatrixFree.Graph.Basic

/-!
# Descriptions

What a graph is declared with, as one value: the nodes in order, the registered edges, the two
ends and the configuration. A graph can be built from its description, and every graph has one.
-/

namespace MatrixFree

/-- A registered edge. -/
structure EdgeSpec where
  id : EdgeId
  ends : Edge
  deriving DecidableEq, Repr

structure Description (α : Type) where
  nodes : List (NodeSpec α)
  edges : List EdgeSpec
  root : NodeId
  terminal : NodeId
  config : Config
  deriving DecidableEq, Repr

namespace Description

variable {α : Type}

/-- The description of a graph, with its edges in the order of the registry. -/
def ofGraph (g : Graph α) : Description α :=
  { nodes := g.specs
    edges := g.topology.edges.entries.map fun (id, ends) => ⟨id, ends⟩
    root := g.topology.root
    terminal := g.topology.terminal
    config := g.config }

/-- Adds edges to a registry, of which no two may have one name. -/
def register : EdgeRegistry → List EdgeSpec → Except GraphError EdgeRegistry
  | r, [] => .ok r
  | r, e :: es =>
    match r.insert e.id e.ends with
    | (_, some _) => .error (.duplicateEdge e.id)
    | (r, none) => register r es

def toGraph [Scalar α] (d : Description α) : GraphCheck (Graph α) := do
  let edges ← GraphCheck.ofExcept (register .empty d.edges)
  Graph.build d.nodes d.root d.terminal edges d.config

end Description

end MatrixFree
