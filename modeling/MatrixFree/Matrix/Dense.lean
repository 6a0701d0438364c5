import MatrixFree.Buffer
import MatrixFree.Kernel

/-!
# Dense matrices

A dense matrix holds its columns end to end in a table. A product takes its right-hand sides as
the columns of one buffer, and treats each of them alone.
-/

namespace MatrixFree

structure DenseMatrix (α : Type) where
  rows : UInt64
  cols : UInt64
  data : Array α
  deriving DecidableEq, Repr

/-- The first row whose number of entries is not that of row 0. -/
structure Ragged where
  row : Nat
  found : Nat
  expected : Nat
  deriving DecidableEq, Repr

def Ragged.message (r : Ragged) : String :=
  s!"row {r.row} has {r.found} entries, expected {r.expected}"

namespace DenseMatrix

variable {α : Type} [Scalar α]

/-- The matrix with the given rows. -/
def ofRows (rows : List (List α)) : Except Ragged (DenseMatrix α) :=
  let n := (rows.head?.map List.length).getD 0
  match rows.findIdx? (·.length ≠ n) with
  | some i => .error ⟨i, (rows.getD i []).length, n⟩
  | none =>
    let tables := rows.map List.toArray
    .ok ⟨UInt64.ofNat rows.length, UInt64.ofNat n,
      ((List.range n).flatMap fun j => tables.map (·.getD j 0)).toArray⟩

def column (A : DenseMatrix α) (j : Nat) : Checked (Array α) :=
  Table.slice A.data (j * A.rows.toNat) A.rows.toNat

/-- Adds to `y` the columns from `j` on, each times its element of `x`. A column whose factor is
zero is left out. -/
def combine (A : DenseMatrix α) : (j : Nat) → (x : List α) → (y : Array α) → Checked (Array α)
  | _, [], y => .ok y
  | j, a :: x, y => do
    if Scalar.isZero a then A.combine (j + 1) x y
    else
      let c ← A.column j
      A.combine (j + 1) x (← Buffer.paired c y (Kernel.axpy a c y))

/-- The inner product of `y` with each of the first `n` columns. -/
def correlate (A : DenseMatrix α) (y : Array α) (n : Nat) : Checked (Array α) :=
  (Array.range n).mapM fun j => do
    let c ← A.column j
    Buffer.paired c y (Kernel.dot c y)

/-- The products of the matrix with the columns of `input`, in place of `output`. -/
def mul (A : DenseMatrix α) (input output : Array α) : Checked (Array α) :=
  Buffer.overChunks A.cols.toNat A.rows.toNat (fun x y => A.combine 0 x.toList y)
    input (Buffer.fill output 0)

/-- The products of the transpose with the columns of `output`, in place of `input`. -/
def mulTranspose (A : DenseMatrix α) (output input : Array α) : Checked (Array α) :=
  Buffer.overChunks A.rows.toNat A.cols.toNat (fun y x => A.correlate y x.size) output input

end DenseMatrix

end MatrixFree
