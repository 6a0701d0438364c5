import MatrixFree.Trap

/-!
# Nodes, edges, directions

The names that a graph's parts go by, and the two ways to walk its edges.
-/

namespace MatrixFree

/-- The place of a node in the list of nodes. -/
structure NodeId where
  val : UInt32
  deriving DecidableEq, Repr, Inhabited

namespace NodeId

def index (n : NodeId) : Nat := n.val.toNat

/-- The node at a place in the list; places are counted in 32-bit words. -/
def ofIndex (i : Nat) : NodeId := ⟨UInt32.ofNat i⟩

def text (n : NodeId) : String := "n" ++ toString n.index

end NodeId

/-- The name of an edge. Names need not be consecutive. -/
structure EdgeId where
  val : UInt32
  deriving DecidableEq, Repr, Inhabited

namespace EdgeId

def index (e : EdgeId) : Nat := e.val.toNat

def text (e : EdgeId) : String := "e" ++ toString e.index

/-- The greatest name; names are 32-bit words. -/
def last : EdgeId := ⟨4294967295⟩

/-- The name after this one. There is none after the last. -/
def next (e : EdgeId) : Checked EdgeId :=
  if e = last then .error .nameOverflow else .ok ⟨e.val + 1⟩

end EdgeId

/-- A data dependency: what `source` puts out is taken in by `target`. -/
structure Edge where
  source : NodeId
  target : NodeId
  deriving DecidableEq, Repr, Inhabited

/-- The two sides of a node. -/
inductive Side where
  | input
  | output
  deriving DecidableEq, Repr

def Side.text : Side → String
  | input => "input"
  | output => "output"

/-- Which way the edges are walked: `forward` evaluates an operator and runs from the root to the
terminal, `adjoint` evaluates its transpose and runs back. -/
inductive Direction where
  | forward
  | adjoint
  deriving DecidableEq, Repr

namespace Direction

def isForward : Direction → Bool
  | forward => true
  | adjoint => false

def text : Direction → String
  | forward => "forward"
  | adjoint => "adjoint"

/-- The side of a node that values arrive on. -/
def arrival : Direction → Side
  | forward => .input
  | adjoint => .output

/-- The side of a node that values leave from. -/
def departure : Direction → Side
  | forward => .output
  | adjoint => .input

/-- The end of an edge that values travel to. -/
def head : Direction → Edge → NodeId
  | forward, e => e.target
  | adjoint, e => e.source

end Direction

end MatrixFree
