import MatrixFree.Buffer
import MatrixFree.Kernel

/-!
# Sparse matrices

A sparse matrix in compressed rows: the stored entries row after row, and for each row the place
where its entries start. Several entries at one place count as their sum.
-/

namespace MatrixFree

structure SparseMatrix (α : Type) where
  rows : UInt64
  cols : UInt64
  /-- Where the entries of each row start, and after the last row where they end. -/
  rowStarts : Array UInt64
  columns : Array UInt64
  values : Array α
  deriving DecidableEq, Repr

/-- An entry to be stored. -/
structure Triplet (α : Type) where
  row : UInt64
  col : UInt64
  value : α
  deriving DecidableEq, Repr

namespace SparseMatrix

variable {α : Type} [Scalar α]

/-- Row by row, in each row by column. -/
def rowMajor (s t : Triplet α) : Bool :=
  decide (s.row < t.row) || (s.row == t.row && decide (s.col ≤ t.col))

/-- For each of `n` rows the number of entries in it. -/
def rowLengths (n : Nat) (entries : List (Triplet α)) : Array Nat :=
  entries.foldl (fun lengths t => lengths.modify t.row.toNat (· + 1)) (Array.replicate n 0)

/-- Adds a row of the given length after the rows so far, the last of which ends at `stop`. -/
def addStart (starts : Array UInt64 × Nat) (length : Nat) : Array UInt64 × Nat :=
  let stop := starts.2 + length
  (starts.1.push (UInt64.ofNat stop), stop)

/-- The matrix of the given entries; entries of one place keep their order, and entries below the
last row are left out. -/
def ofTriplets (rows cols : UInt64) (entries : List (Triplet α)) : SparseMatrix α :=
  let stored := (entries.mergeSort rowMajor).filter (·.row < rows)
  { rows, cols
    rowStarts := ((rowLengths rows.toNat stored).foldl addStart (#[0], 0)).1
    columns := (stored.map (·.col)).toArray
    values := (stored.map (·.value)).toArray }

/-- The stored entries of a row: column and value. -/
def row (A : SparseMatrix α) (r : Nat) : Checked (Array (UInt64 × α)) := do
  let start ← Table.read A.rowStarts r
  let stop ← Table.read A.rowStarts (r + 1)
  if stop < start then .error .outOfRange
  let columns ← Table.slice A.columns start.toNat (stop.toNat - start.toNat)
  let values ← Table.slice A.values start.toNat (stop.toNat - start.toNat)
  return columns.zip values

/-- The inner product of a row with `x`. -/
def rowDot (A : SparseMatrix α) (x : Array α) (r : Nat) : Checked α := do
  let products ← (← A.row r).mapM fun (c, v) => do return v * (← Table.read x c.toNat)
  return Kernel.sum products

/-- Adds to `x` the entries of a row, each times `a`. -/
def addRow (A : SparseMatrix α) (a : α) (r : Nat) (x : Array α) : Checked (Array α) := do
  (← A.row r).foldlM (fun x (c, v) => do
    let old ← Table.read x c.toNat
    Table.write x c.toNat (old + v * a)) x

/-- Adds to `x` the rows from `r` on, each times its element of `y`. -/
def combine (A : SparseMatrix α) : (r : Nat) → (y : List α) → (x : Array α) → Checked (Array α)
  | _, [], x => .ok x
  | r, a :: y, x => do A.combine (r + 1) y (← A.addRow a r x)

/-- The products of the matrix with the columns of `input`, in place of `output`. -/
def mul (A : SparseMatrix α) (input output : Array α) : Checked (Array α) :=
  Buffer.overChunks A.cols.toNat A.rows.toNat
    (fun x y => (Array.range y.size).mapM (A.rowDot x)) input output

/-- The products of the transpose with the columns of `output`, in place of `input`. -/
def mulTranspose (A : SparseMatrix α) (output input : Array α) : Checked (Array α) :=
  Buffer.overChunks A.rows.toNat A.cols.toNat (fun y x => A.combine 0 y.toList x)
    output (Buffer.fill input 0)

end SparseMatrix

end MatrixFree
