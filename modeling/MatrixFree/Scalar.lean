/-!
# Scalars

The operations that buffers are computed with. Operators and graphs are generic in them, so the
same definitions run on machine numbers and are read over an exact ring.
-/

namespace MatrixFree

/-- What operators need of a coefficient: a zero, a sum, a product, and the two constants they
start from. A sum starts from `sumStart`, which in machine arithmetic is the negative zero, the
one value that adding leaves every other value unchanged. -/
class Scalar (α : Type) extends Zero α, Add α, Mul α where
  sumStart : α
  negOne : α
  isZero : α → Bool

/-- What an iterative solver needs besides: quotients, roots and comparisons. -/
class SolverScalar (α : Type) extends Scalar α, Neg α, Div α where
  sqrt : α → α
  le : α → α → Bool
  lt : α → α → Bool
  isNaN : α → Bool

instance : Scalar Float where
  zero := 0.0
  sumStart := -0.0
  negOne := -1.0
  isZero x := x == 0.0

instance : SolverScalar Float where
  sqrt := Float.sqrt
  le x y := decide (x ≤ y)
  lt x y := decide (x < y)
  isNaN := Float.isNaN

end MatrixFree
