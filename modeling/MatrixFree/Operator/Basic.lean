import MatrixFree.Matrix.Dense
import MatrixFree.Matrix.Sparse
import MatrixFree.Shape

/-!
# Atomic operators

The closed set of linear maps that a node can carry. An operator works on the ports of its node:
the input ports lie end to end in one buffer, the output ports in another.
-/

namespace MatrixFree

/-- A linear map between the ports of a node. Matrices lie column by column in their ports. -/
inductive Operator (α : Type) where
  /-- The input as it is, possibly under another shape. -/
  | identity
  | negate
  | scale (factor : α)
  /-- The product with each column of the input. -/
  | dense (matrix : DenseMatrix α)
  | sparse (matrix : SparseMatrix α)
  /-- The elementwise sum of all inputs. -/
  | sum
  /-- The input, on every output. -/
  | copy
  /-- The inputs end to end. -/
  | concat
  | split
  /-- The inputs below each other, as blocks of one matrix. -/
  | stack
  /-- The elements at `start`, `start + step`, and so on. -/
  | stride (start step : UInt64)
  | transpose
  /-- The vector on the diagonal of a square matrix. -/
  | diagonal
  /-- The diagonal of a square matrix. -/
  | diagonalPart
  /-- The full convolution with fixed taps. -/
  | convolve (taps : Array α)
  deriving DecidableEq, Repr

/-- The shapes on the two sides of a node, in port order. -/
structure Signature where
  inputs : List Shape
  outputs : List Shape
  deriving DecidableEq, Repr

namespace Signature

def inputLength (s : Signature) : Nat := Shape.total s.inputs

def outputLength (s : Signature) : Nat := Shape.total s.outputs

end Signature

/-- The name under which an operator is written and reported. -/
def Operator.name {α : Type} : Operator α → String
  | identity => "no_op"
  | negate => "neg"
  | scale _ => "scalar_mul"
  | dense _ => "dense_mat_mul"
  | sparse _ => "sparse_mat_mul"
  | sum => "sum"
  | copy => "copy"
  | concat => "concat"
  | split => "split"
  | stack => "vstack"
  | stride _ _ => "index"
  | transpose => "transpose"
  | diagonal => "diag_vec"
  | diagonalPart => "diag_mat"
  | convolve _ => "conv"

end MatrixFree
