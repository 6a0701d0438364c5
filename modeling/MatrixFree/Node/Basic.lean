import MatrixFree.Ident
import MatrixFree.Operator.Basic

/-!
# Nodes

A node is an operator with its ports. `NodeSpec` is what a graph is declared with: the operator,
the shape of each port and the edge on it. `Node` adds the buffers, in which the ports of a side
lie end to end, and the place of each edge's slice.
-/

namespace MatrixFree

/-- One side of a node: its edges in port order, and the shape of each port. A port at the end of
the list may be without an edge; it is then open to the outside. -/
structure PortList where
  edges : List EdgeId
  shapes : List Shape
  deriving DecidableEq, Repr

/-- The size of the port that carries the edge. -/
def PortList.edgeSize? (p : PortList) (e : EdgeId) : Option Nat :=
  ((p.edges.findIdx? (· = e)).bind (p.shapes[·]?)).map Shape.size

/-- What a node is declared as. -/
structure NodeSpec (α : Type) where
  op : Operator α
  input : PortList
  output : PortList
  deriving DecidableEq, Repr

namespace NodeSpec

variable {α : Type}

def ports (n : NodeSpec α) : Side → PortList
  | .input => n.input
  | .output => n.output

def signature (n : NodeSpec α) : Signature := ⟨n.input.shapes, n.output.shapes⟩

def length (n : NodeSpec α) (side : Side) : Nat := Shape.total (n.ports side).shapes

/-- The size of the port that carries the edge, on whichever side it is listed. -/
def edgeSize? (n : NodeSpec α) (e : EdgeId) : Option Nat :=
  (n.output.edgeSize? e).or (n.input.edgeSize? e)

end NodeSpec

/-- Where the slice of each edge starts in a buffer. -/
abbrev OffsetMap := List (EdgeId × Nat)

namespace OffsetMap

/-- Lays edges of the given sizes end to end from `start` on. -/
def tile : (start : Nat) → List EdgeId → List Shape → OffsetMap
  | start, e :: edges, s :: shapes => (e, start) :: tile (start + s.size) edges shapes
  | _, _, _ => []

def get? (m : OffsetMap) (e : EdgeId) : Option Nat := m.lookup e

end OffsetMap

/-- The storage of one side of a node. -/
structure PortBuffer (α : Type) where
  data : Array α
  offsets : OffsetMap
  deriving DecidableEq, Repr

/-- A node with its storage, which is empty until it is laid out. -/
structure Node (α : Type) where
  spec : NodeSpec α
  input : PortBuffer α
  output : PortBuffer α
  deriving DecidableEq, Repr

namespace Node

variable {α : Type}

def bare (spec : NodeSpec α) : Node α := ⟨spec, ⟨#[], []⟩, ⟨#[], []⟩⟩

def buffer (n : Node α) : Side → PortBuffer α
  | .input => n.input
  | .output => n.output

/-- The contents of the buffer of a side. -/
def data (n : Node α) (side : Side) : Array α := (n.buffer side).data

/-- The node with the contents of the buffer of a side changed by `f`. -/
def mapData (n : Node α) (side : Side) (f : Array α → Array α) : Node α :=
  match side with
  | .input => { n with input := { n.input with data := f n.input.data } }
  | .output => { n with output := { n.output with data := f n.output.data } }

/-- The node with other contents in the buffer of a side. -/
def setData (n : Node α) (side : Side) (data : Array α) : Node α :=
  n.mapData side fun _ => data

/-- Gives both sides a buffer of their length, filled with zeros. -/
def allocate [Scalar α] (n : Node α) : Node α :=
  { n with
    input := { n.input with data := Array.replicate (n.spec.length .input) 0 }
    output := { n.output with data := Array.replicate (n.spec.length .output) 0 } }

def release (n : Node α) : Node α :=
  { n with input := { n.input with data := #[] }, output := { n.output with data := #[] } }

/-- Assigns each edge its slice on both sides. -/
def layOut (n : Node α) : Node α :=
  { n with
    input := { n.input with offsets := .tile 0 n.spec.input.edges n.spec.input.shapes }
    output := { n.output with offsets := .tile 0 n.spec.output.edges n.spec.output.shapes } }

end Node

end MatrixFree
