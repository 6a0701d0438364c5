import MatrixFree.Size

/-!
# Shapes

The dimensions of a value on a port. A value is stored column by column: `rows` elements for each
of `cols` columns, where all dimensions after the first are folded into one.
-/

namespace MatrixFree

/-- Dimensions, outermost last. No dimension at all is a scalar. -/
structure Shape where
  dims : List UInt64
  deriving DecidableEq, Repr

namespace Shape

def vector (n : UInt64) : Shape := ⟨[n]⟩

def matrix (rows cols : UInt64) : Shape := ⟨[rows, cols]⟩

/-- The number of elements, multiplied up from left to right in machine words. The words wrap, as
they do where overflow is not checked; where it is checked, a product that does not fit traps. -/
def size (s : Shape) : Nat := (s.dims.foldl (· * ·) 1).toNat

def rows (s : Shape) : Nat :=
  match s.dims with
  | [] => 1
  | d :: _ => d.toNat

/-- The number of columns, multiplied up in machine words that wrap; one for a vector. -/
def cols (s : Shape) : Nat := ((s.dims.drop 1).foldl (· * ·) 1).toNat

/-- The number of elements, unless it or the number of columns is no machine word. -/
def checkedSize (s : Shape) : Option Nat := do
  let cols ← (s.dims.drop 1).foldlM (fun n d => Size.mul? n d.toNat) 1
  Size.mul? s.rows cols

/-- The number of elements on a list of ports, in machine words. -/
def total (shapes : List Shape) : Nat := Size.sum (shapes.map size) % UInt64.size

end Shape

end MatrixFree
