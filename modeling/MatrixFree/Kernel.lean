import MatrixFree.Scalar

/-!
# Vector kernels

Sums and scalings of whole vectors. Each kernel takes its two vectors in blocks of four and treats
what is left of either vector after its full blocks, its remainder, element by element. Of two
vectors of one length the remainders start at the same place. The four lanes that a block is loaded
into are taken to add and to multiply each by itself, as single elements do, and to keep the order of
the block.

These are the loops alone. An operator that applies one to vectors of two lengths traps before it
(`Buffer.paired`).
-/

namespace MatrixFree.Kernel

variable {α : Type}

/-- The number of full blocks of four in a vector. -/
def blockCount (v : Array α) : Nat := v.size / 4

/-- The full blocks of four at the start of a vector, end to end. -/
def blocks (v : Array α) : Array α := v.take (4 * blockCount v)

/-- What is left of a vector after its full blocks of four. -/
def remainder (v : Array α) : Array α := v.drop (4 * blockCount v)

/-- Applies `f` to the leading elements of `dest` and `src`; what `src` does not reach stays. -/
def zipOnto (f : α → α → α) (dest src : Array α) : Array α :=
  Array.zipWith f dest src ++ dest.drop src.size

/-- Combines `dest` with `src`, by `block` in each lane of the full blocks of four and by `tail`
between the two remainders. -/
def blockwise (block tail : α → α → α) (dest src : Array α) : Array α :=
  zipOnto block (blocks dest) (blocks src) ++ zipOnto tail (remainder dest) (remainder src)

section

variable [Scalar α]

/-- `alpha * src` in place of `dest`. -/
def scaleInto (alpha : α) (dest src : Array α) : Array α :=
  blockwise (fun _ s => s * alpha) (fun _ s => alpha * s) dest src

/-- `dest + src`. -/
def addAssign (dest src : Array α) : Array α :=
  blockwise (· + ·) (· + ·) dest src

/-- `y + alpha * x`. -/
def axpy (alpha : α) (x y : Array α) : Array α :=
  blockwise (fun y x => y + alpha * x) (fun y x => y + alpha * x) y x

/-- `y` with `alpha * x` added to its elements from `start` on. -/
def axpyFrom (alpha : α) (x : Array α) (start : Nat) (y : Array α) : Array α :=
  x.size.fold (fun i _ y => y.setIfInBounds (start + i) (y.getD (start + i) 0 + alpha * x[i])) y

/-- The sum from left to right. -/
def sum (v : Array α) : α := v.foldl (· + ·) Scalar.sumStart

/-- What lane `j` adds up: the products at its place of the first `n` blocks of four, from the first
block on. -/
def laneSum (x y : Array α) (n j : Nat) : α :=
  n.fold (fun i _ acc => acc + x.getD (4 * i + j) 0 * y.getD (4 * i + j) 0) 0

/-- The inner product: the sums of products at each of the four places of the common blocks are
added up first, then the sum of the products of the remainders. -/
def dot (x y : Array α) : α :=
  let n := min (blockCount x) (blockCount y)
  sum #[laneSum x y n 0, laneSum x y n 1, laneSum x y n 2, laneSum x y n 3]
    + sum (Array.zipWith (· * ·) (remainder x) (remainder y))

end

/-- The length of a vector. -/
def norm2 [SolverScalar α] (x : Array α) : α := SolverScalar.sqrt (dot x x)

end MatrixFree.Kernel
