import MatrixFree.Node.Basic
import MatrixFree.Operator.Apply

/-!
# Evaluating a node

A node is evaluated in place: its operator reads the buffer on the side that values arrive on and
replaces the contents of the one on the other side.
-/

namespace MatrixFree.Node

variable {α : Type} [Scalar α]

def evaluate (n : Node α) (d : Direction) : Checked (Node α) := do
  let arrived := n.data d.arrival
  let stale := n.data d.departure
  let result ← match d with
    | .forward => n.spec.op.forward n.spec.signature arrived stale
    | .adjoint => n.spec.op.adjoint n.spec.signature arrived stale
  return n.setData d.departure result

end MatrixFree.Node
